import RetroBSD.ExecStack

/-!
# Collecting the arguments

`exec_save_args` reads the vectors of the process. For a script it puts the name of the
interpreter in place of the first argument, and steps its pointer back after each other
string that it puts in. The array has one place more than the vector, or two with an
argument of the interpreter, which is enough only when there is a first argument. When
`exec_alloc` finds no room, the rest is left out and nobody is told.
-/

namespace RetroBSD.Exec

open List Nat

/-- A vector in the memory of the process, and what is found behind its null. -/
structure UserVector where
  strs : List CString
  beyond : ℕ → Option CString

/-- `userargp`, `userenvp` and `userfname`, with `interpname` and `interparg` when `interpreted` is set. -/
structure UserArgs where
  argv : Option UserVector
  envp : Option UserVector
  fname : CString
  sh : Option (CString × CString)

/-- The pointer `argp`, which is `wild` when it was stepped back from null. -/
inductive Argp
  | null
  | entry (i : ℕ)
  | wild

def Argp.back : Argp → Argp
  | .entry (i + 1) => .entry i
  | _ => .wild

def UserVector.entry (v : UserVector) (i : ℕ) : Option CString :=
  if i ≤ v.strs.length then v.strs[i]? else v.beyond i

def fetchArg (v : Option UserVector) : Argp → Option (Option CString × Argp)
  | .null => some (none, .null)
  | .entry i => v.map fun v => (v.entry i, .entry (i + 1))
  | .wild => none

/-- What the string number `k` is in place of `ap`. -/
def UserArgs.pick (u : UserArgs) (k : ℕ) (ap : Option CString) (argp : Argp) : Option CString × Argp :=
  match u.sh with
  | none => (ap, argp)
  | some (interpname, interparg) =>
    if k = 0 then (some interpname, argp)
    else if k = 1 ∧ interparg.val ≠ [] then (some interparg, argp.back)
    else if k = 1 ∨ k = 2 ∧ interparg.val ≠ [] then (some u.fname, argp.back)
    else (ap, argp)

abbrev Pick := ℕ → Option CString → Argp → Option CString × Argp

/-- The loop over the strings, with an array of `n` places. A string beyond them has no result. -/
def saveLoop (pick : Pick) (v : Option UserVector) (n : ℕ) :
    ℕ → Argp → List ℕ → List CString → Option (List CString × List ℕ × Bool)
  | 0, _, _, _ => none
  | fuel + 1, argp, fills, saved =>
    match fetchArg v argp with
    | none => none
    | some (ap, argp) =>
      match pick saved.length ap argp with
      | (none, _) => some (saved, fills, true)
      | (some ap, argp) =>
        match execAlloc ap.size 1 fills with
        | none => some (saved, fills, false)
        | some fills => if saved.length < n then saveLoop pick v n fuel argp fills (saved ++ [ap]) else none

def UserVector.argc (v : Option UserVector) : ℕ := (v.map fun v => v.strs.length).getD 0

def saveArray (pick : Pick) (v : Option UserVector) (n : ℕ) (fills : List ℕ) :
    Option (List CString × List ℕ × Bool) :=
  if n = 0 then some ([], fills, true)
  else
    match execAlloc (n * nbpw) nbpw fills with
    | none => some ([], fills, false)
    | some fills => saveLoop pick v n (n + 1) (if v.isSome then .entry 0 else .null) fills []

def UserArgs.argc (u : UserArgs) : ℕ :=
  UserVector.argc u.argv +
    match u.sh with
    | none => 0
    | some (_, interparg) => if interparg.val ≠ [] then 2 else 1

def execSaveUserArgs (u : UserArgs) (fills : List ℕ) (epp : ExecParams) : Option ExecParams :=
  (saveArray u.pick u.argv u.argc fills).bind fun a =>
    let e := if a.2.2 then saveArray (fun _ => Prod.mk) u.envp (UserVector.argc u.envp) a.2.1 else some ([], a.2)
    e.map fun e =>
      { epp with
        argp := a.1
        envp := e.1
        argc := UInt16.ofNat a.1.length
        envc := UInt16.ofNat e.1.length
        argbc := UInt16.ofNat (charCount a.1)
        envbc := UInt16.ofNat (charCount e.1) }

def UserVector.list (v : Option UserVector) : List CString := (v.map UserVector.strs).getD []

/-- The vector that the new program is to get. -/
def UserArgs.vector (u : UserArgs) : List CString :=
  match u.sh with
  | none => UserVector.list u.argv
  | some (interpname, interparg) =>
    interpname :: ((if interparg.val ≠ [] then [interparg] else []) ++ u.fname :: (UserVector.list u.argv).tail)

def Collected (u : UserArgs) (fills : List ℕ) (epp : ExecParams) : Prop :=
  ∃ r, execSaveUserArgs u fills epp = some r ∧ r.argp = u.vector ∧ r.envp = UserVector.list u.envp ∧
    r.argc.toNat = u.vector.length ∧ r.envc.toNat = (UserVector.list u.envp).length ∧
    r.argbc.toNat = charCount u.vector ∧ r.envbc.toNat = charCount (UserVector.list u.envp)

def requests (strs : List CString) : List (ℕ × ℕ) :=
  if strs = [] then [] else (strs.length * nbpw, nbpw) :: strs.map fun s => (s.size, 1)

def aligned (ru fill : ℕ) : ℕ := if ru ≤ 1 then fill else roundup fill ru

/-- The first of the buffers that has room serves a request. -/
def Serves (size ru : ℕ) (fills fills' : List ℕ) : Prop :=
  ∃ pre fill post, fills = pre ++ fill :: post ∧ (∀ f ∈ pre, maxbsize < aligned ru f + size) ∧
    aligned ru fill + size ≤ maxbsize ∧ fills' = pre ++ (aligned ru fill + size) :: post

def Served : List ℕ → List (ℕ × ℕ) → Prop
  | _, [] => True
  | fills, (size, ru) :: rest => ∃ fills', Serves size ru fills fills' ∧ Served fills' rest

section Room

variable {fills fills' : List ℕ} {strs : List CString} {rest : List (ℕ × ℕ)} {size ru : ℕ}

theorem execAlloc_eq_some_iff : execAlloc size ru fills = some fills' ↔ Serves size ru fills fills' := by
  unfold Serves
  induction fills generalizing fills' with
  | nil => simp [execAlloc]
  | cons f fills ih =>
    change (if aligned ru f + size ≤ maxbsize then some ((aligned ru f + size) :: fills) else _) = _ ↔ _
    split_ifs with hroom
    · rw [Option.some.injEq]
      constructor
      · rintro rfl
        exact ⟨[], f, fills, rfl, by simp, hroom, rfl⟩
      · rintro ⟨_ | ⟨g, pre⟩, fill, post, heq, hfull, -, rfl⟩
        · cases heq
          rfl
        · cases heq
          exact absurd hroom (not_le.2 (hfull f (.head _)))
    · simp only [Option.map_eq_some_iff, ih]
      constructor
      · rintro ⟨_, ⟨pre, fill, post, rfl, hfull, hfit, rfl⟩, rfl⟩
        exact ⟨f :: pre, fill, post, rfl, forall_mem_cons.2 ⟨not_le.1 hroom, hfull⟩, hfit, rfl⟩
      · rintro ⟨_ | ⟨g, pre⟩, fill, post, heq, hfull, hfit, rfl⟩
        · cases heq
          exact absurd hfit hroom
        · cases heq
          exact ⟨_, ⟨pre, fill, post, rfl, (forall_mem_cons.1 hfull).2, hfit, rfl⟩, rfl⟩

theorem served_cons : Served fills ((size, ru) :: rest) ↔
    ∃ fills', execAlloc size ru fills = some fills' ∧ Served fills' rest := by
  simp only [Served, execAlloc_eq_some_iff]

theorem served_strings : Served fills (strs.map (fun s => (s.size, 1)) ++ rest) ↔
    (saveStrings fills strs).1 = strs ∧ Served (saveStrings fills strs).2.1 rest := by
  induction strs generalizing fills with
  | nil => simp [saveStrings]
  | cons s strs ih =>
    rw [map_cons, cons_append, served_cons, saveStrings]
    cases execAlloc s.size 1 fills <;> simp [ih]

theorem served_vector : Served fills (requests strs ++ rest) ↔
    (saveVector fills strs).1 = strs ∧ Served (saveVector fills strs).2.1 rest := by
  rw [requests, saveVector]
  split_ifs with hnil
  · simp [hnil]
  · rw [cons_append, served_cons]
    cases execAlloc (strs.length * nbpw) nbpw fills <;> simp [served_strings, Ne.symm hnil]

theorem saveStrings_all : (saveStrings fills strs).2.2 = true ↔ (saveStrings fills strs).1 = strs := by
  induction strs generalizing fills with
  | nil => simp [saveStrings]
  | cons s strs ih =>
    rw [saveStrings]
    cases execAlloc s.size 1 fills <;> simp [ih]

theorem saveVector_all : (saveVector fills strs).2.2 = true ↔ (saveVector fills strs).1 = strs := by
  rw [saveVector]
  split_ifs with hnil
  · simp [hnil]
  · cases execAlloc (strs.length * nbpw) nbpw fills <;> simp [saveStrings_all, Ne.symm hnil]

end Room

section Loop

variable {pick : Pick} {v : Option UserVector} {n fuel : ℕ} {p p' p'' : Argp} {fills : List ℕ}
  {saved strs : List CString} {s : CString} {ap : Option CString}

theorem saveLoop_cons (hfetch : fetchArg v p = some (ap, p')) (hpick : pick saved.length ap p' = (some s, p''))
    (hn : saved.length < n)
    (htail : ∀ fills, saveLoop pick v n fuel p'' fills (saved ++ [s]) =
      some ((saved ++ [s]) ++ (saveStrings fills strs).1, (saveStrings fills strs).2)) :
    saveLoop pick v n (fuel + 1) p fills saved =
      some (saved ++ (saveStrings fills (s :: strs)).1, (saveStrings fills (s :: strs)).2) := by
  simp only [saveLoop, hfetch, hpick, saveStrings]
  cases execAlloc s.size 1 fills with
  | none => simp
  | some fills => simp [hn, htail]

theorem saveLoop_rest {v : UserVector} {i : ℕ} (hpick : ∀ k, saved.length ≤ k → pick k = Prod.mk)
    (hi : i ≤ v.strs.length) (hn : saved.length + (v.strs.length - i) ≤ n) (hfuel : v.strs.length - i < fuel) :
    saveLoop pick (some v) n fuel (.entry i) fills saved =
      some (saved ++ (saveStrings fills (v.strs.drop i)).1, (saveStrings fills (v.strs.drop i)).2) := by
  induction fuel generalizing i fills saved with
  | zero => omega
  | succ fuel ih =>
    have hfetch : fetchArg (some v) (.entry i) = some (v.strs[i]?, .entry (i + 1)) := by
      simp [fetchArg, UserVector.entry, hi]
    by_cases hend : i = v.strs.length
    · simp only [saveLoop, hfetch, hpick _ le_rfl]
      simp [hend, saveStrings]
    · have hlt : i < v.strs.length := lt_of_le_of_ne hi hend
      rw [List.getElem?_eq_getElem hlt] at hfetch
      rw [← cons_getElem_drop_succ]
      refine saveLoop_cons hfetch (by rw [hpick _ le_rfl]) (by omega) fun fills => ih ?_ hlt ?_ (by omega)
      · intro k hk
        rw [length_append] at hk
        exact hpick k (by omega)
      · rw [length_append, length_singleton]
        omega

theorem saveLoop_length (hsaved : saved.length ≤ n) {r : List CString × List ℕ × Bool}
    (h : saveLoop pick v n fuel p fills saved = some r) : r.1.length ≤ n := by
  induction fuel generalizing p fills saved with
  | zero => cases h
  | succ fuel ih =>
    rw [saveLoop] at h
    split at h
    · cases h
    · split at h
      · cases h
        exact hsaved
      · split at h
        · cases h
          exact hsaved
        · split_ifs at h with hlt
          exact ih (by rw [length_append]; exact hlt) h

theorem saveArray_length {r : List CString × List ℕ × Bool}
    (h : saveArray pick v n fills = some r) : r.1.length ≤ n := by
  rw [saveArray] at h
  split at h
  · cases h
    exact zero_le _
  · split at h
    · cases h
      exact zero_le _
    · exact saveLoop_length (zero_le _) h

theorem saveArray_eq (hn : n = strs.length) (hloop : strs ≠ [] → ∀ fills,
      saveLoop pick v n (n + 1) (if v.isSome then .entry 0 else .null) fills [] = some (saveStrings fills strs)) :
    saveArray pick v n fills = some (saveVector fills strs) := by
  subst hn
  rw [saveArray, saveVector]
  by_cases hnil : strs = []
  · simp [hnil]
  · rw [if_neg (length_eq_zero_iff.not.2 hnil), if_neg hnil]
    cases execAlloc (strs.length * nbpw) nbpw fills with
    | none => rfl
    | some fills => exact hloop hnil fills

theorem saveArray_plain (hpick : ∀ k, pick k = Prod.mk) (v : Option UserVector) (fills : List ℕ) :
    saveArray pick v (UserVector.argc v) fills = some (saveVector fills (UserVector.list v)) := by
  cases v with
  | none => rfl
  | some v =>
    refine saveArray_eq rfl fun _ fills => ?_
    exact saveLoop_rest (fun k (_ : ([] : List CString).length ≤ k) => hpick k) (zero_le _)
      (by simp [UserVector.argc]) (by simp [UserVector.argc])

theorem saveArray_script {u : UserArgs} {sh : CString × CString} (hsh : u.sh = some sh)
    (hne : UserVector.list u.argv ≠ []) (fills : List ℕ) :
    saveArray u.pick u.argv u.argc fills = some (saveVector fills u.vector) := by
  obtain ⟨name, arg⟩ := sh
  obtain ⟨v, hv⟩ : ∃ v, u.argv = some v := by
    cases hargv : u.argv with
    | none => exact absurd (by rw [hargv]; rfl) hne
    | some v => exact ⟨v, rfl⟩
  have hpos : 0 < v.strs.length := by
    rw [hv] at hne
    exact length_pos_iff.2 hne
  have hfetch : ∀ i, fetchArg (some v) (.entry i) = some (v.entry i, .entry (i + 1)) := fun _ => rfl
  have hargc : u.argc = v.strs.length + if arg.val ≠ [] then 2 else 1 := by
    simp [UserArgs.argc, UserVector.argc, hsh, hv]
  have hvector : u.vector = name :: ((if arg.val ≠ [] then [arg] else []) ++ u.fname :: v.strs.drop 1) := by
    simp [UserArgs.vector, UserVector.list, hsh, hv]
  refine saveArray_eq ?_ fun _ fills => ?_
  · rw [hargc, hvector]
    split_ifs <;> simp <;> omega
  rw [hv, hargc, hvector]
  have hname : u.pick 0 (v.entry 0) (.entry 1) = (some name, .entry 1) := by simp [UserArgs.pick, hsh]
  by_cases harg : arg.val = []
  · have hfname : u.pick 1 (v.entry 1) (.entry 2) = (some u.fname, .entry 1) := by
      simp [UserArgs.pick, hsh, harg, Argp.back]
    have hpick : ∀ k, 2 ≤ k → u.pick k = Prod.mk := by
      intro k hk
      funext ap p
      have hk' : k ≠ 0 ∧ k ≠ 1 := by omega
      simp [UserArgs.pick, hsh, harg, hk']
    simp only [harg]
    refine saveLoop_cons (hfetch 0) hname (succ_pos _) fun fills => ?_
    refine saveLoop_cons (hfetch 1) hfname (succ_lt_succ hpos) fun fills => ?_
    exact saveLoop_rest hpick hpos (by simp; omega) (by omega)
  · have hparg : u.pick 1 (v.entry 1) (.entry 2) = (some arg, .entry 1) := by
      simp [UserArgs.pick, hsh, harg, Argp.back]
    have hfname : u.pick 2 (v.entry 1) (.entry 2) = (some u.fname, .entry 1) := by
      simp [UserArgs.pick, hsh, harg, Argp.back]
    have hpick : ∀ k, 3 ≤ k → u.pick k = Prod.mk := by
      intro k hk
      funext ap p
      have hk' : k ≠ 0 ∧ k ≠ 1 ∧ k ≠ 2 := by omega
      simp [UserArgs.pick, hsh, hk']
    simp only [harg, ne_eq]
    refine saveLoop_cons (hfetch 0) hname (succ_pos _) fun fills => ?_
    refine saveLoop_cons (hfetch 1) hparg (succ_lt_succ (succ_pos _)) fun fills => ?_
    refine saveLoop_cons (hfetch 1) hfname (Nat.add_lt_add_right hpos 2) fun fills => ?_
    exact saveLoop_rest hpick hpos (by simp; omega) (by omega)

end Loop

/-- The model of the loaders agrees, when a script has a first argument. -/
theorem execSaveUserArgs_eq {u : UserArgs} (h : u.sh ≠ none → UserVector.list u.argv ≠ []) (fills : List ℕ)
    (epp : ExecParams) :
    execSaveUserArgs u fills epp = some (execSaveArgs fills u.vector (UserVector.list u.envp) epp) := by
  have hargs : saveArray u.pick u.argv u.argc fills = some (saveVector fills u.vector) := by
    cases hsh : u.sh with
    | none =>
      have hargc : u.argc = UserVector.argc u.argv := by simp [UserArgs.argc, hsh]
      have hvector : u.vector = UserVector.list u.argv := by simp [UserArgs.vector, hsh]
      rw [hargc, hvector]
      exact saveArray_plain (fun k => by funext ap p; simp [UserArgs.pick, hsh]) u.argv fills
    | some sh => exact saveArray_script hsh (h (by simp [hsh])) fills
  simp only [execSaveUserArgs, hargs, Option.bind_some, saveArray_plain fun _ => rfl, execSaveArgs]
  split_ifs <;> rfl

/-- `exec_save_args` collects the arguments exactly when a script has a first argument and
there is room for all requests. -/
theorem collected_iff {fills : List ℕ} (hlen : fills.length = maxallocbuf) (hfills : ∀ f ∈ fills, f ≤ maxbsize)
    (u : UserArgs) (epp : ExecParams) :
    Collected u fills epp ↔ (u.sh ≠ none → UserVector.list u.argv ≠ []) ∧
      Served fills (requests u.vector ++ requests (UserVector.list u.envp)) := by
  constructor
  · rintro ⟨r, hr, hargp, henvp, -⟩
    have hne : u.sh ≠ none → UserVector.list u.argv ≠ [] := by
      intro hsh hnil
      obtain ⟨⟨name, arg⟩, hsh⟩ := Option.ne_none_iff_exists'.1 hsh
      obtain ⟨a, ha, hr⟩ := Option.bind_eq_some_iff.1 hr
      obtain ⟨e, -, rfl⟩ := Option.map_eq_some_iff.1 hr
      have hle := saveArray_length ha
      have hzero : UserVector.argc u.argv = 0 := by
        cases hv : u.argv with
        | none => rfl
        | some v =>
          rw [hv] at hnil
          exact length_eq_zero_iff.2 hnil
      replace hargp : a.1 = u.vector := hargp
      rw [hargp] at hle
      simp only [UserArgs.vector, UserArgs.argc, hsh, hnil, hzero] at hle
      split_ifs at hle <;> simp at hle
    rw [execSaveUserArgs_eq hne, Option.some.injEq] at hr
    subst hr
    replace henvp : (if (saveVector fills u.vector).2.2 then _ else []) = UserVector.list u.envp := henvp
    rw [if_pos (saveVector_all.2 hargp)] at henvp
    refine ⟨hne, served_vector.2 ⟨hargp, ?_⟩⟩
    rw [← append_nil (requests _)]
    exact served_vector.2 ⟨henvp, trivial⟩
  · rintro ⟨hne, hserved⟩
    obtain ⟨hargs, hrest⟩ := served_vector.1 hserved
    rw [← append_nil (requests _)] at hrest
    have hsaved := execSaveArgs_saved hlen hfills u.vector (UserVector.list u.envp) epp
    set r := execSaveArgs fills u.vector (UserVector.list u.envp) epp with hr
    have hargp : r.argp = u.vector := hr ▸ hargs
    have henvp : r.envp = UserVector.list u.envp := by
      rw [hr, execSaveArgs]
      simp only [if_pos (saveVector_all.2 hargs), (served_vector.1 hrest).1]
    refine ⟨r, by rw [execSaveUserArgs_eq hne], hargp, henvp, ?_, ?_, ?_, ?_⟩
    · rw [hsaved.argc, hargp]
    · rw [hsaved.envc, henvp]
    · rw [hsaved.argbc, hargp]
    · rw [hsaved.envbc, henvp]

/-- The script `f` with the interpreter `sh` and no argument of its own. -/
def script (argv : List CString) : UserArgs :=
  ⟨some ⟨argv, fun _ => none⟩, none, ⟨[102], by decide⟩, some (⟨[115, 104], by decide⟩, emptyString)⟩

theorem collected_iff_script : Collected (script [⟨[102], by decide⟩]) (replicate maxallocbuf 0) .zero :=
  (collected_iff rfl (by decide) (script [⟨[102], by decide⟩]) .zero).2
    ⟨fun _ => cons_ne_nil _ _, served_vector.2 ⟨by decide +kernel, trivial⟩⟩

/-- Without a first argument the name of the script is stored beyond the array. -/
theorem script_overruns_array : ¬Collected (script []) (replicate maxallocbuf 0) .zero := by
  rintro ⟨r, hr, -⟩
  cases hr

end RetroBSD.Exec
