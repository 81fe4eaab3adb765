import RetroBSD.ExecImage
import Mathlib

/-!
# The arguments on the stack of a new image

`exec_setupstack` lays the strings and the two vectors out below the top of the stack.
They never overlap and every pointer leads to its string, but `argv` takes sixteen bytes
for each string where the loaders counted four, and the ELF loader counts the arguments
before it has saved them. So the area fits the stack only for few enough arguments.
-/

namespace RetroBSD.Exec

open LittleEndian ByteCopy MemoryWrites List UInt32

/-! ## The strings saved -/

section Save

variable {size ru : ℕ} {fills fills' : List ℕ} {strs : List CString}

theorem roundup_bounds (x : ℕ) : x ≤ roundup x nbpw ∧ roundup x nbpw < x + nbpw ∧
    roundup x nbpw % nbpw = 0 := by
  simp only [roundup, nbpw]
  omega

theorem execAlloc_room (h : execAlloc size ru fills = some fills') (hru : ru = 1 ∨ ru = nbpw)
    (hfills : ∀ f ∈ fills, f ≤ maxbsize) :
    size ≤ maxbsize ∧ fills'.length = fills.length ∧ fills.sum + size ≤ fills'.sum ∧
      ∀ f ∈ fills', f ≤ maxbsize := by
  induction fills generalizing fills' with
  | nil => exact absurd h (by simp [execAlloc])
  | cons fill fills ih =>
    set start := if ru ≤ 1 then fill else roundup fill ru with hstart
    have hle : fill ≤ start := by
      rcases hru with rfl | rfl
      · rw [hstart, if_pos (le_refl _)]
      · rw [hstart, if_neg (by decide)]
        exact (roundup_bounds fill).1
    rw [execAlloc] at h
    by_cases hroom : start + size ≤ maxbsize
    · rw [if_pos hroom, Option.some.injEq] at h
      subst h
      refine ⟨by omega, rfl, by simp only [sum_cons]; omega, ?_⟩
      intro f hf
      rcases mem_cons.1 hf with rfl | hf
      · exact hroom
      · exact hfills f (mem_cons_of_mem _ hf)
    · rw [if_neg hroom, Option.map_eq_some_iff] at h
      obtain ⟨rest, hrest, rfl⟩ := h
      obtain ⟨hsize, hlen, hsum, hle'⟩ := ih hrest fun f hf => hfills f (mem_cons_of_mem _ hf)
      refine ⟨hsize, by simp [hlen], by simp only [sum_cons]; omega, ?_⟩
      intro f hf
      rcases mem_cons.1 hf with rfl | hf
      · exact hfills f mem_cons_self
      · exact hle' f hf

@[simp] theorem charCount_cons (s : CString) (strs : List CString) :
    charCount (s :: strs) = s.size + charCount strs := by
  simp [charCount]

theorem saveStrings_room (hfills : ∀ f ∈ fills, f ≤ maxbsize) {r : List CString × List ℕ × Bool}
    (hr : r = saveStrings fills strs) :
    r.1.length ≤ strs.length ∧ r.2.1.length = fills.length ∧
      fills.sum + charCount r.1 ≤ r.2.1.sum ∧ ∀ f ∈ r.2.1, f ≤ maxbsize := by
  induction strs generalizing fills r with
  | nil =>
    subst hr
    exact ⟨le_refl _, rfl, by simp [saveStrings, charCount], hfills⟩
  | cons s strs ih =>
    rw [saveStrings] at hr
    cases halloc : execAlloc s.size 1 fills with
    | none =>
      rw [halloc] at hr
      subst hr
      exact ⟨Nat.zero_le _, rfl, by simp [charCount], hfills⟩
    | some fills1 =>
      rw [halloc] at hr
      obtain ⟨_, hlen, hsum, hle⟩ := execAlloc_room halloc (.inl rfl) hfills
      obtain ⟨hcount, hlen', hsum', hle'⟩ := ih hle rfl
      subst hr
      refine ⟨by simp only [length_cons]; omega, hlen'.trans hlen, ?_, hle'⟩
      simp only [charCount_cons]
      omega

theorem saveVector_room (hfills : ∀ f ∈ fills, f ≤ maxbsize) {r : List CString × List ℕ × Bool}
    (hr : r = saveVector fills strs) :
    r.1.length * nbpw ≤ maxbsize ∧ r.2.1.length = fills.length ∧
      fills.sum + charCount r.1 ≤ r.2.1.sum ∧ ∀ f ∈ r.2.1, f ≤ maxbsize := by
  rw [saveVector] at hr
  split_ifs at hr with hnil
  · subst hr
    exact ⟨by simp, rfl, by simp [charCount], hfills⟩
  · cases halloc : execAlloc (strs.length * nbpw) nbpw fills with
    | none =>
      rw [halloc] at hr
      subst hr
      exact ⟨by simp, rfl, by simp [charCount], hfills⟩
    | some fills1 =>
      rw [halloc] at hr
      obtain ⟨hsize, hlen, hsum, hle⟩ := execAlloc_room halloc (.inr rfl) hfills
      obtain ⟨hcount, hlen', hsum', hle'⟩ := saveStrings_room hle hr
      have := Nat.mul_le_mul_right nbpw hcount
      exact ⟨by omega, by omega, by omega, hle'⟩

end Save

/-- The counts of an `exec_params` are those of its strings, which fit the buffers. -/
structure ExecParams.Saved (epp : ExecParams) : Prop where
  argc : epp.argc.toNat = epp.argp.length
  envc : epp.envc.toNat = epp.envp.length
  argbc : epp.argbc.toNat = charCount epp.argp
  envbc : epp.envbc.toNat = charCount epp.envp
  args : epp.argp.length ≤ 256
  env : epp.envp.length ≤ 256
  chars : charCount epp.argp + charCount epp.envp ≤ 6144

theorem sum_le_of_forall_le {fills : List ℕ} (h : ∀ f ∈ fills, f ≤ maxbsize) :
    fills.sum ≤ fills.length * maxbsize := by
  simpa [mul_comm] using sum_le_card_nsmul fills maxbsize h

theorem execSaveArgs_saved {fills : List ℕ} (hlen : fills.length = maxallocbuf)
    (hfills : ∀ f ∈ fills, f ≤ maxbsize) (args env : List CString) (epp : ExecParams) :
    (execSaveArgs fills args env epp).Saved := by
  set a := saveVector fills args with ha
  obtain ⟨e, he⟩ : ∃ e, e = if a.2.2 then (saveVector a.2.1 env).1 else [] := ⟨_, rfl⟩
  obtain ⟨hargs, hlen1, hsum1, hle1⟩ := saveVector_room hfills ha
  have henv : e.length * nbpw ≤ maxbsize ∧ charCount a.1 + charCount e ≤ maxallocbuf * maxbsize := by
    split_ifs at he
    · obtain ⟨hcount, hlen2, hsum2, hle2⟩ := saveVector_room hle1 rfl
      have := sum_le_of_forall_le hle2
      rw [hlen2, hlen1, hlen] at this
      rw [he]
      exact ⟨hcount, by omega⟩
    · have := sum_le_of_forall_le hle1
      rw [hlen1, hlen] at this
      subst he
      exact ⟨by simp, by simp only [charCount, map_nil, sum_nil] at *; omega⟩
  simp only [maxbsize, maxallocbuf, nbpw] at hargs henv
  have heq : execSaveArgs fills args env epp =
      { epp with
        argp := a.1
        envp := e
        argc := UInt16.ofNat a.1.length
        envc := UInt16.ofNat e.length
        argbc := UInt16.ofNat (charCount a.1)
        envbc := UInt16.ofNat (charCount e) } := by
    rw [he]
    rfl
  rw [heq]
  constructor <;> simp only [UInt16.toNat_ofNat'] <;> omega

theorem Image.params_saved (args env : List CString) (img : Image) : (img.params args env).Saved := by
  cases img with
  | aout hdrLen ex =>
    have h := execSaveArgs_saved (length_replicate (a := 0)) (by simp) args env .zero
    exact ⟨h.argc, h.envc, h.argbc, h.envbc, h.args, h.env, h.chars⟩
  | elf hdrLen eh ph =>
    exact execSaveArgs_saved (by simp [maxallocbuf]) (by simp [maxbsize]) args env _

/-! ## The copies on the stack -/

theorem toNat_sub_ofNat {a : UInt32} {k : ℕ} (h : k ≤ a.toNat) :
    (a - UInt32.ofNat k).toNat = a.toNat - k := by
  have := a.toNat_lt
  rw [UInt32.toNat_sub, UInt32.toNat_ofNat']
  omega

theorem toNat_add_ofNat {a : UInt32} {k : ℕ} (h : a.toNat + k < 2 ^ 32) :
    (a + UInt32.ofNat k).toNat = a.toNat + k := by
  rw [UInt32.toNat_add, UInt32.toNat_ofNat']
  omega

theorem toNat_uroundup {x : UInt32} (h : x.toNat + 3 < 2 ^ 32) :
    (uroundup x).toNat = (x.toNat + 3) / 4 * 4 := by
  have hadd : (x + 3).toNat = x.toNat + 3 := toNat_add_ofNat h
  rw [uroundup, UInt32.toNat_mul, UInt32.toNat_div, hadd]
  change (x.toNat + 3) / 4 * 4 % 2 ^ 32 = _
  omega

theorem copystr_fits {s : List UInt8} (hs : (0 : UInt8) ∉ s) {maxlength : ℕ}
    (h : s.length + 1 ≤ maxlength) : copystr (s ++ [0]) maxlength = (s ++ [0], true) := by
  induction s generalizing maxlength with
  | nil =>
    obtain ⟨n, rfl⟩ := Nat.exists_eq_succ_of_ne_zero (show maxlength ≠ 0 by omega)
    rfl
  | cons c s ih =>
    obtain ⟨n, rfl⟩ := Nat.exists_eq_succ_of_ne_zero (show maxlength ≠ 0 by omega)
    rw [length_cons] at h
    have hc : c ≠ 0 := fun hc => hs (hc ▸ mem_cons_self)
    rw [cons_append, copystr, if_neg hc, if_neg (by omega),
      ih (fun hmem => hs (mem_cons_of_mem _ hmem)) (by omega)]

def stringWrites : ℕ → ℕ → List CString → List Write
  | _, _, [] => []
  | vec, ucp, s :: strs =>
    ⟨vec, wordBytes ucp⟩ :: ⟨ucp, s.val ++ [0]⟩ :: stringWrites (vec + nbpw) (ucp + s.size) strs

theorem copyStrings_eq {topp vec ucp : UInt32} {strs : List CString}
    (hfit : ucp.toNat + charCount strs ≤ topp.toNat)
    (hvec : vec.toNat + strs.length * nbpw < 2 ^ 32) :
    copyStrings topp vec ucp strs =
      (stringWrites vec.toNat ucp.toNat strs, ucp + UInt32.ofNat (charCount strs)) := by
  induction strs generalizing vec ucp with
  | nil => simp [copyStrings, stringWrites, charCount]
  | cons s strs ih =>
    have htop := topp.toNat_lt
    rw [charCount_cons] at hfit
    rw [length_cons] at hvec
    have hlen : (s.val ++ [0]).length = s.size := by simp [CString.size]
    have hcopy : copystr (s.val ++ [0]) (topp - ucp).toNat = (s.val ++ [0], true) := by
      apply copystr_fits s.property
      rw [UInt32.toNat_sub_of_le _ _ (by rw [UInt32.le_iff_toNat_le]; omega)]
      simp only [CString.size] at hfit
      omega
    have hucp : (ucp + UInt32.ofNat s.size).toNat = ucp.toNat + s.size :=
      toNat_add_ofNat (by omega)
    have hnext : (vec + 4).toNat = vec.toNat + nbpw := by
      simp only [nbpw] at hvec
      exact toNat_add_ofNat (k := 4) (by omega)
    rw [copyStrings, hcopy]
    simp only [if_true, hlen]
    rw [ih (by rw [hucp]; omega) (by rw [hnext]; simp only [nbpw] at *; omega), hucp, hnext,
      stringWrites, charCount_cons, UInt32.ofNat_add, UInt32.add_assoc]

def topAddr : ℕ := 0x7f01fffc

def ExecParams.ucp (epp : ExecParams) : ℕ :=
  topAddr - roundup (charCount epp.envp + charCount epp.argp) nbpw

def ExecParams.envAddr (epp : ExecParams) : ℕ := epp.ucp - (epp.envp.length + 1) * nbpw

def ExecParams.argAddr (epp : ExecParams) : ℕ := epp.envAddr - (epp.argp.length + 1) * nbpw * nbpw

def ExecParams.setupWrites (epp : ExecParams) : List Write :=
  ⟨topAddr, wordBytes epp.argAddr⟩ :: (stringWrites epp.argAddr epp.ucp epp.argp ++
    ⟨epp.argAddr + epp.argp.length * nbpw, wordBytes 0⟩ ::
      (stringWrites epp.envAddr (epp.ucp + charCount epp.argp) epp.envp ++
        [⟨epp.envAddr + epp.envp.length * nbpw, wordBytes 0⟩]))

variable {epp : ExecParams}

theorem ExecParams.Saved.layout (h : epp.Saved) :
    epp.ucp + charCount epp.argp + charCount epp.envp ≤ topAddr ∧
      epp.ucp + roundup (charCount epp.envp + charCount epp.argp) nbpw = topAddr ∧
      epp.envAddr + (epp.envp.length + 1) * nbpw = epp.ucp ∧
      epp.argAddr + (epp.argp.length + 1) * nbpw * nbpw = epp.envAddr ∧
      epp.argAddr % nbpw = 0 ∧ epp.envAddr % nbpw = 0 ∧ 64 < epp.argAddr := by
  have hround := roundup_bounds (charCount epp.envp + charCount epp.argp)
  have hargs := h.args
  have henv := h.env
  have hchars := h.chars
  simp only [argAddr, envAddr, ucp, topAddr, nbpw] at *
  omega

theorem execSetupstack_eq (h : epp.Saved)
    (hstack : epp.stack.vaddr = userDataEnd - epp.stack.len) (entry : UInt32) :
    ∃ fr, execSetupstack entry epp = .ok fr epp.setupWrites ∧ fr.sp.toNat = epp.argAddr - 64 ∧
      fr.argp.toNat = epp.argAddr ∧ fr.envp.toNat = epp.envAddr := by
  obtain ⟨hchars, hucp, henv, harg, _, _, hlow⟩ := h.layout
  have htopp : epp.stack.vaddr + epp.stack.len - 4 = UInt32.ofNat topAddr := by
    rw [hstack, UInt32.sub_add_cancel]
    rfl
  have htopAddr : (UInt32.ofNat topAddr).toNat = topAddr := rfl
  have htop : topAddr < 2 ^ 32 := by decide
  set ucp := UInt32.ofNat topAddr - UInt32.ofNat (roundup (epp.envbc.toNat + epp.argbc.toNat) nbpw) with hucpdef
  have hucp' : ucp.toNat = epp.ucp := by
    rw [hucpdef, h.envbc, h.argbc, toNat_sub_ofNat (by omega), htopAddr]
    rfl
  set envp := ucp - UInt32.ofNat ((epp.envc.toNat + 1) * nbpw) with henvdef
  have henv' : envp.toNat = epp.envAddr := by
    rw [henvdef, h.envc, toNat_sub_ofNat (by omega), hucp']
    rfl
  set argp := envp - UInt32.ofNat ((epp.argc.toNat + 1) * nbpw * nbpw) with hargdef
  have harg' : argp.toNat = epp.argAddr := by
    rw [hargdef, h.argc, toNat_sub_ofNat (by omega), henv']
    rfl
  have ha : copyStrings (UInt32.ofNat topAddr) argp ucp epp.argp = _ :=
    copyStrings_eq (by omega) (by simp only [nbpw] at *; omega)
  have hmid : (ucp + UInt32.ofNat (charCount epp.argp)).toNat = epp.ucp + charCount epp.argp := by
    rw [toNat_add_ofNat (by omega), hucp']
  have he : copyStrings (UInt32.ofNat topAddr) envp (ucp + UInt32.ofNat (charCount epp.argp)) epp.envp = _ :=
    copyStrings_eq (by omega) (by simp only [nbpw] at *; omega)
  have hend : uroundup (ucp + UInt32.ofNat (charCount epp.argp) + UInt32.ofNat (charCount epp.envp)) =
      UInt32.ofNat topAddr := by
    apply UInt32.toNat_inj.1
    rw [toNat_uroundup (by rw [toNat_add_ofNat (by omega), hmid]; simp only [topAddr] at *; omega),
      toNat_add_ofNat (by omega), hmid, htopAddr]
    simp only [roundup, topAddr, nbpw] at *
    omega
  refine ⟨⟨argp - 64, epp.argc, argp, envp, entry⟩, ?_, ?_, harg', henv'⟩
  · rw [execSetupstack]
    simp only [htopp, ← hucpdef, ← henvdef, ← hargdef, ha, he]
    rw [if_pos hend, hmid, h.argc, h.envc, toNat_add_ofNat (by simp only [nbpw] at *; omega),
      toNat_add_ofNat (by simp only [nbpw] at *; omega), harg', henv', hucp', htopAddr]
    rfl
  · change (argp - UInt32.ofNat 64).toNat = _
    rw [toNat_sub_ofNat (by omega), harg']

/-! ## Reading the area back -/

/-- The vector at `vec` leads to copies of the strings and ends in a null. -/
def LeadsTo (mem : Memory) (vec : ℕ) (strs : List CString) : Prop :=
  (∀ i s, strs[i]? = some s → bytes mem (word mem (vec / nbpw + i)) s.size = s.val ++ [0]) ∧
    word mem (vec / nbpw + strs.length) = 0

def stringAreas (mem : Memory) (vec : ℕ) (strs : List CString) : List (ℕ × ℕ) :=
  strs.zipIdx.map fun si => (word mem (vec / nbpw + si.2), si.1.size)

def ExecParams.areas (epp : ExecParams) (mem : Memory) (fr : Frame) : List (ℕ × ℕ) :=
  (fr.argp.toNat, (epp.argp.length + 1) * nbpw) :: (fr.envp.toNat, (epp.envp.length + 1) * nbpw) ::
    (stringAreas mem fr.argp.toNat epp.argp ++ stringAreas mem fr.envp.toNat epp.envp)

structure ExecParams.Placed (epp : ExecParams) (mem : Memory) (fr : Frame) : Prop where
  argv : LeadsTo mem fr.argp.toNat epp.argp
  envp : LeadsTo mem fr.envp.toNat epp.envp
  apart : (epp.areas mem fr).Pairwise fun a b => Apart a.1 a.2 b.1 b.2
  inside : ∀ a ∈ epp.areas mem fr, epp.stack.vaddr.toNat ≤ a.1 ∧
    a.1 + a.2 ≤ epp.stack.vaddr.toNat + epp.stack.len.toNat
  sp : epp.stack.vaddr ≤ fr.sp ∧ fr.sp.toNat < epp.stack.vaddr.toNat + epp.stack.len.toNat

variable {vec ucp : ℕ} {strs : List CString}

theorem stringWrites_within {w : Write} (hw : w ∈ stringWrites vec ucp strs) :
    w.Within vec (vec + strs.length * nbpw) ∨ w.Within ucp (ucp + charCount strs) := by
  induction strs generalizing vec ucp with
  | nil => exact absurd hw not_mem_nil
  | cons s strs ih =>
    rw [charCount_cons, length_cons]
    simp only [nbpw] at ih ⊢
    rcases mem_cons.1 hw with rfl | hw
    · exact .inl ⟨le_refl _, by simp only [length_wordBytes]; omega⟩
    rcases mem_cons.1 hw with rfl | hw
    · exact .inr ⟨le_refl _, by simp only [length_append, length_singleton, CString.size]; omega⟩
    · simp only [nbpw] at hw
      exact (ih hw).imp (fun h => h.mono (by omega) (by omega)) fun h => h.mono (by omega) (by omega)

theorem stringWrites_pairwise (h : vec + strs.length * nbpw ≤ ucp) :
    (stringWrites vec ucp strs).Pairwise Write.Apart := by
  induction strs generalizing vec ucp with
  | nil => exact List.Pairwise.nil
  | cons s strs ih =>
    have hlen : (s.val ++ [0]).length = s.size := by simp [CString.size]
    have hrest : vec + nbpw + strs.length * nbpw ≤ ucp := by
      rw [length_cons] at h
      simp only [nbpw] at *
      omega
    refine pairwise_cons.2 ⟨?_, pairwise_cons.2 ⟨?_, ih (by omega)⟩⟩
    · intro w hw
      left
      rcases mem_cons.1 hw with rfl | hw
      · exact le_trans (Nat.le_add_right _ _) hrest
      rcases stringWrites_within hw with hin | hin
      · exact hin.1
      · exact le_trans (le_trans (Nat.le_add_right _ _) hrest) (le_trans (Nat.le_add_right _ _) hin.1)
    · intro w hw
      rcases stringWrites_within hw with hin | hin
      · exact .inr (hin.2.trans hrest)
      · left
        simp only [hlen]
        exact hin.1

/-- The strings of a vector and its null word. -/
def vectorWrites (vec ucp : ℕ) (strs : List CString) : List Write :=
  stringWrites vec ucp strs ++ [⟨vec + strs.length * nbpw, wordBytes 0⟩]

theorem ExecParams.setupWrites_eq (epp : ExecParams) :
    epp.setupWrites = ⟨topAddr, wordBytes epp.argAddr⟩ :: (vectorWrites epp.argAddr epp.ucp epp.argp ++
      vectorWrites epp.envAddr (epp.ucp + charCount epp.argp) epp.envp) := by
  simp [setupWrites, vectorWrites]

theorem vectorWrites_within {w : Write} (hw : w ∈ vectorWrites vec ucp strs) :
    w.Within vec (vec + (strs.length + 1) * nbpw) ∨ w.Within ucp (ucp + charCount strs) := by
  rcases mem_append.1 hw with hw | hw
  · exact (stringWrites_within hw).imp_left fun h => h.mono (le_refl _) (by simp only [nbpw]; omega)
  · obtain rfl := mem_singleton.1 hw
    exact .inl ⟨Nat.le_add_right _ _, by simp only [length_wordBytes, nbpw]; omega⟩

theorem vectorWrites_pairwise (h : vec + (strs.length + 1) * nbpw ≤ ucp) :
    (vectorWrites vec ucp strs).Pairwise Write.Apart := by
  have hlt : vec + strs.length * nbpw + 4 ≤ ucp := by
    simp only [nbpw] at *
    omega
  refine pairwise_append.2 ⟨stringWrites_pairwise (by omega), pairwise_singleton _ _, fun w hw w' hw' => ?_⟩
  obtain rfl := mem_singleton.1 hw'
  exact (stringWrites_within hw).imp (fun hin => hin.2) fun hin => hlt.trans hin.1

theorem ExecParams.Saved.setupWrites_pairwise (h : epp.Saved) :
    epp.setupWrites.Pairwise Write.Apart := by
  obtain ⟨hchars, hucp, henv, harg, _, _, _⟩ := h.layout
  have htop : Write.Within ⟨topAddr, wordBytes epp.argAddr⟩ topAddr (topAddr + 4) :=
    ⟨le_refl _, le_refl _⟩
  rw [setupWrites_eq]
  refine pairwise_cons.2 ⟨fun w hw => ?_, pairwise_append.2
    ⟨vectorWrites_pairwise ?_, vectorWrites_pairwise ?_, fun w hw w' hw' => ?_⟩⟩
  · simp only [nbpw] at *
    rcases mem_append.1 hw with hw | hw
    · rcases vectorWrites_within hw with hin | hin
      · exact (hin.apart htop (by simp only [nbpw]; omega)).symm
      · exact (hin.apart htop (by omega)).symm
    · rcases vectorWrites_within hw with hin | hin
      · exact (hin.apart htop (by simp only [nbpw]; omega)).symm
      · exact (hin.apart htop (by omega)).symm
  · simp only [nbpw] at *
    omega
  · simp only [nbpw] at *
    omega
  · have hargEnd : epp.argAddr + (epp.argp.length + 1) * nbpw ≤ epp.envAddr := by
      simp only [nbpw] at *
      omega
    rcases vectorWrites_within hw with hin | hin <;> rcases vectorWrites_within hw' with hin' | hin'
    · exact hin.apart hin' hargEnd
    · exact hin.apart hin' (by omega)
    · exact (hin'.apart hin (by omega)).symm
    · exact hin.apart hin' (le_refl _)

def stringAddr (ucp : ℕ) (strs : List CString) (i : ℕ) : ℕ := ucp + charCount (strs.take i)

theorem stringWrites_mem {i : ℕ} {s : CString} (hs : strs[i]? = some s) :
    ⟨vec + i * nbpw, wordBytes (stringAddr ucp strs i)⟩ ∈ stringWrites vec ucp strs ∧
      ⟨stringAddr ucp strs i, s.val ++ [0]⟩ ∈ stringWrites vec ucp strs := by
  induction strs generalizing vec ucp i with
  | nil => exact absurd hs (by simp)
  | cons t strs ih =>
    cases i with
    | zero =>
      obtain rfl : t = s := by simpa using hs
      simp [stringWrites, stringAddr, charCount]
    | succ i =>
      rw [List.getElem?_cons_succ] at hs
      obtain ⟨hptr, hstr⟩ := @ih (vec + nbpw) (ucp + t.size) i hs
      have haddr : stringAddr (ucp + t.size) strs i = stringAddr ucp (t :: strs) (i + 1) := by
        simp only [stringAddr, take_succ_cons, charCount_cons]
        omega
      rw [haddr] at hptr hstr
      rw [show vec + nbpw + i * nbpw = vec + (i + 1) * nbpw by simp only [nbpw]; omega] at hptr
      exact ⟨mem_cons_of_mem _ (mem_cons_of_mem _ hptr), mem_cons_of_mem _ (mem_cons_of_mem _ hstr)⟩

section Read

variable {mem : Memory} {ws : List Write}

theorem charCount_take_le (strs : List CString) (i : ℕ) : charCount (strs.take i) ≤ charCount strs := by
  have hsum : ((strs.take i).map CString.size ++ (strs.drop i).map CString.size).sum =
      ((strs.take i).map CString.size).sum + ((strs.drop i).map CString.size).sum := sum_append
  rw [← map_append, take_append_drop] at hsum
  simp only [charCount]
  omega

theorem stringAddr_succ {i : ℕ} {s : CString} (hs : strs[i]? = some s) :
    stringAddr ucp strs (i + 1) = stringAddr ucp strs i + s.size := by
  simp only [stringAddr, take_add_one, hs, Option.toList_some, charCount, map_append,
    sum_append, map_cons, map_nil, sum_cons, sum_nil]
  omega

theorem stringAddr_mono {i j : ℕ} (hij : i ≤ j) : stringAddr ucp strs i ≤ stringAddr ucp strs j := by
  have := charCount_take_le (strs.take j) i
  rw [take_take, min_eq_left hij] at this
  simp only [stringAddr]
  omega

theorem word_applyAll (mem : Memory) (hws : ws.Pairwise Write.Apart) {a v : ℕ} (hw : ⟨a, wordBytes v⟩ ∈ ws)
    (ha : a % nbpw = 0) (hv : v < wordMod) : word (applyAll mem ws) (a / nbpw) = v :=
  word_of_bytes ha hv (bytes_applyAll hws hw)

theorem vector_read (hws : ws.Pairwise Write.Apart) (hsub : ∀ w ∈ stringWrites vec ucp strs, w ∈ ws)
    (hvec : vec % nbpw = 0) (hlt : ucp + charCount strs < wordMod) {i : ℕ} {s : CString}
    (hs : strs[i]? = some s) : word (applyAll mem ws) (vec / nbpw + i) = stringAddr ucp strs i ∧
      bytes (applyAll mem ws) (stringAddr ucp strs i) s.size = s.val ++ [0] := by
  obtain ⟨hptr, hstr⟩ := @stringWrites_mem vec ucp strs i s hs
  constructor
  · have hle := charCount_take_le strs i
    have hword := word_applyAll mem hws (hsub _ hptr) (by simp only [nbpw] at *; omega)
      (by simp only [stringAddr]; omega)
    rwa [show (vec + i * nbpw) / nbpw = vec / nbpw + i by simp only [nbpw]; omega] at hword
  · have hbytes := bytes_applyAll (m := mem) hws (hsub _ hstr)
    simpa [CString.size] using hbytes

theorem leadsTo_applyAll (hws : ws.Pairwise Write.Apart) (hsub : ∀ w ∈ stringWrites vec ucp strs, w ∈ ws)
    (hnull : ⟨vec + strs.length * nbpw, wordBytes 0⟩ ∈ ws) (hvec : vec % nbpw = 0)
    (hlt : ucp + charCount strs < wordMod) : LeadsTo (applyAll mem ws) vec strs := by
  constructor
  · intro i s hs
    obtain ⟨hptr, hstr⟩ := vector_read hws hsub hvec hlt hs
    rw [hptr]
    exact hstr
  · have hword := word_applyAll mem hws hnull (by simp only [nbpw] at *; omega) (by decide)
    rwa [show (vec + strs.length * nbpw) / nbpw = vec / nbpw + strs.length by
      simp only [nbpw]; omega] at hword

theorem stringAreas_getElem {i : ℕ} {a : ℕ × ℕ} (ha : (stringAreas mem vec strs)[i]? = some a) :
    ∃ s, strs[i]? = some s ∧ a = (word mem (vec / nbpw + i), s.size) := by
  simp only [stringAreas, List.getElem?_map, List.getElem?_zipIdx, Option.map_eq_some_iff] at ha
  obtain ⟨_, ⟨s, hs, rfl⟩, rfl⟩ := ha
  exact ⟨s, hs, by simp⟩

theorem stringAreas_read (mem : Memory) (hws : ws.Pairwise Write.Apart)
    (hsub : ∀ w ∈ stringWrites vec ucp strs, w ∈ ws)
    (hvec : vec % nbpw = 0) (hlt : ucp + charCount strs < wordMod) :
    (stringAreas (applyAll mem ws) vec strs).Pairwise (fun a b => Apart a.1 a.2 b.1 b.2) ∧
      ∀ a ∈ stringAreas (applyAll mem ws) vec strs, ucp ≤ a.1 ∧ a.1 + a.2 ≤ ucp + charCount strs := by
  constructor
  · rw [pairwise_iff_getElem]
    intro i j hi hj hij
    obtain ⟨s, hs, ha⟩ := stringAreas_getElem (List.getElem?_eq_getElem hi)
    obtain ⟨t, ht, hb⟩ := stringAreas_getElem (List.getElem?_eq_getElem hj)
    left
    rw [ha, hb]
    simp only
    rw [(vector_read hws hsub hvec hlt hs).1, (vector_read hws hsub hvec hlt ht).1, ← stringAddr_succ hs]
    exact stringAddr_mono hij
  · intro a ha
    obtain ⟨i, hi⟩ := mem_iff_getElem?.1 ha
    obtain ⟨s, hs, rfl⟩ := stringAreas_getElem hi
    have hle := charCount_take_le strs (i + 1)
    simp only
    rw [(vector_read hws hsub hvec hlt hs).1, ← stringAddr_succ hs]
    simp only [stringAddr]
    omega

end Read

/-! ## The stack of a new image -/

theorem ExecParams.Saved.placed_iff (h : epp.Saved)
    (hstack : epp.stack.vaddr.toNat + epp.stack.len.toNat = topAddr + 4) {fr : Frame}
    (hsp : fr.sp.toNat = epp.argAddr - 64) (hargp : fr.argp.toNat = epp.argAddr)
    (henvp : fr.envp.toNat = epp.envAddr) (mem : Memory) :
    epp.Placed (applyAll mem epp.setupWrites) fr ↔ epp.stack.vaddr.toNat + 64 ≤ epp.argAddr := by
  obtain ⟨hchars, -, henv, harg, hargMod, henvMod, hlow⟩ := h.layout
  have hws := h.setupWrites_pairwise
  have hargs : ∀ w ∈ stringWrites epp.argAddr epp.ucp epp.argp, w ∈ epp.setupWrites := fun w hw =>
    mem_cons_of_mem _ (mem_append_left _ hw)
  have henvs : ∀ w ∈ stringWrites epp.envAddr (epp.ucp + charCount epp.argp) epp.envp,
      w ∈ epp.setupWrites := fun w hw =>
    mem_cons_of_mem _ (mem_append_right _ (mem_cons_of_mem _ (mem_append_left _ hw)))
  have htop : topAddr < wordMod := by decide
  constructor
  · intro hplaced
    have hle := hplaced.sp.1
    rw [le_iff_toNat_le, hsp] at hle
    omega
  · intro hroom
    obtain ⟨hargPair, hargIn⟩ := stringAreas_read mem hws hargs hargMod (by omega)
    obtain ⟨henvPair, henvIn⟩ := stringAreas_read mem hws henvs henvMod (by omega)
    constructor
    · rw [hargp]
      exact leadsTo_applyAll hws hargs (by simp [setupWrites]) hargMod (by omega)
    · rw [henvp]
      exact leadsTo_applyAll hws henvs (by simp [setupWrites]) henvMod (by omega)
    · rw [areas, hargp, henvp]
      have hstr : ∀ a ∈ stringAreas (applyAll mem epp.setupWrites) epp.argAddr epp.argp ++
          stringAreas (applyAll mem epp.setupWrites) epp.envAddr epp.envp, epp.ucp ≤ a.1 := by
        intro a ha
        rcases mem_append.1 ha with ha | ha
        · exact (hargIn a ha).1
        · exact le_trans (Nat.le_add_right _ _) (henvIn a ha).1
      refine pairwise_cons.2 ⟨?_, pairwise_cons.2 ⟨?_, pairwise_append.2
        ⟨hargPair, henvPair, fun a ha b hb => .inl ((hargIn a ha).2.trans (henvIn b hb).1)⟩⟩⟩
      · intro b hb
        left
        rcases mem_cons.1 hb with rfl | hb
        · simp only [nbpw] at *
          omega
        · have := hstr b hb
          simp only [nbpw] at *
          omega
      · intro b hb
        exact .inl (henv.trans_le (hstr b hb))
    · rw [areas, hargp, henvp]
      intro a ha
      simp only [mem_cons, mem_append] at ha
      rcases ha with rfl | rfl | ha | ha
      · simp only [nbpw] at *
        omega
      · simp only [nbpw] at *
        omega
      · have := hargIn a ha
        simp only [nbpw] at *
        omega
      · have := henvIn a ha
        simp only [nbpw] at *
        omega
    · rw [le_iff_toNat_le, hsp]
      simp only [nbpw] at *
      omega

theorem Image.stack_params (args env : List CString) (img : Image) :
    (img.params args env).stack.vaddr = userDataEnd - (img.params args env).stack.len ∧
    (img.params args env).stack.vaddr.toNat + (img.params args env).stack.len.toNat = topAddr + 4 ∧
    (img.params args env).stack.len.toNat =
      match img with
      | .aout _ _ => 2064 + roundup (charCount (img.params args env).envp +
          charCount (img.params args env).argp) nbpw +
          ((img.params args env).argp.length + (img.params args env).envp.length) * nbpw
      | .elf _ _ _ => 2064 := by
  have h := img.params_saved args env
  cases img with
  | aout hdrLen ex =>
    set e := execSaveArgs (List.replicate maxallocbuf 0) args env .zero
    have hparams : params args env (.aout hdrLen ex) = aoutLayout ex e := rfl
    rw [hparams] at h ⊢
    have hargs := h.args
    have henv := h.env
    have hchars := h.chars
    have hround := roundup_bounds (charCount (aoutLayout ex e).argp + charCount (aoutLayout ex e).envp)
    have hlen : (aoutLayout ex e).stack.len = ssize +
        UInt32.ofNat (roundup (charCount (aoutLayout ex e).argp + charCount (aoutLayout ex e).envp) nbpw) +
        UInt32.ofNat (((aoutLayout ex e).argp.length + (aoutLayout ex e).envp.length + 4) * nbpw) := by
      rw [← h.argc, ← h.envc, ← h.argbc, ← h.envbc]
      rfl
    have hssize : ssize.toNat = 2048 := rfl
    simp only [nbpw] at hround
    have hnat : (aoutLayout ex e).stack.len.toNat = 2064 + roundup (charCount (aoutLayout ex e).envp +
        charCount (aoutLayout ex e).argp) nbpw +
        ((aoutLayout ex e).argp.length + (aoutLayout ex e).envp.length) * nbpw := by
      rw [hlen, Nat.add_comm (charCount (aoutLayout ex e).envp)]
      simp only [nbpw]
      rw [toNat_add_ofNat (by rw [toNat_add_ofNat (by omega)]; omega), toNat_add_ofNat (by omega), hssize]
      omega
    refine ⟨rfl, ?_, hnat⟩
    change (userDataEnd - (aoutLayout ex e).stack.len).toNat + _ = _
    rw [UInt32.toNat_sub_of_le _ _ (by
      rw [le_iff_toNat_le, hnat, Nat.add_comm (charCount (aoutLayout ex e).envp)]
      simp only [nbpw]
      change _ ≤ 0x7f020000
      omega)]
    have hend : userDataEnd.toNat = topAddr + 4 := rfl
    rw [hend, hnat, Nat.add_comm (charCount (aoutLayout ex e).envp)]
    simp only [nbpw, topAddr]
    omega
  | elf hdrLen eh ph => exact ⟨rfl, rfl, rfl⟩

def Image.ArgumentsFit (args env : List CString) (img : Image) : Prop :=
  match img with
  | .aout _ _ => (img.params args env).argp.length ≤ 164
  | .elf _ _ _ => roundup (charCount (img.params args env).envp + charCount (img.params args env).argp) nbpw +
      4 * (img.params args env).envp.length + 16 * (img.params args env).argp.length + 88 ≤ 2064

theorem Image.argumentsFit_iff (args env : List CString) (img : Image) :
    img.ArgumentsFit args env ↔
      (img.params args env).stack.vaddr.toNat + 64 ≤ (img.params args env).argAddr := by
  obtain ⟨_, hsum, hlen⟩ := img.stack_params args env
  obtain ⟨_, hucp, henv, harg, _, _, _⟩ := (img.params_saved args env).layout
  cases img with
  | aout | elf =>
    simp only [ArgumentsFit, nbpw, topAddr] at *
    omega

theorem rdwri_length (file : List UInt8) (len offset : UInt32) :
    (rdwri file len offset).length ≤ len.toNat := by
  rw [rdwri]
  split_ifs
  · rw [length_take]
    exact Nat.min_le_left _ _
  · exact Nat.zero_le _

/-- The ways a call ends: refused, with a part of the file read in, or loaded. -/
theorem Image.exec_cases (file : List UInt8) (args env : List CString) (img : Image) :
    (∃ error, img.exec file args env = .failed error) ∨
    img.Accepted args env ∧ ∃ chars : List UInt8,
      chars.length ≤ (img.params args env).data.len.toNat ∧
      (img.exec file args env = ⟨eio, [⟨(img.params args env).data.vaddr.toNat, chars⟩], [], none⟩ ∨
      ∃ entry, img.exec file args env =
        ⟨0, [⟨(img.params args env).data.vaddr.toNat, chars⟩], execClear (img.params args env),
          some (execSetupstack entry (img.params args env))⟩) := by
  by_cases hrec : img.recognised = false
  · exact .inl ⟨enoexec, by rw [Image.exec, if_pos hrec]⟩
  by_cases hestab : execEstab (img.params args env) ≠ 0
  · refine .inl ⟨execEstab (img.params args env), ?_⟩
    rw [Image.exec, if_neg hrec]
    exact if_pos hestab
  have hacc : img.Accepted args env := ⟨by simpa using hrec, by simpa using hestab⟩
  rw [Image.exec, if_neg hrec]
  simp only [if_neg hestab]
  cases img with
  | aout hdrLen ex =>
    refine .inr ⟨hacc, _, rdwri_length file _ 32, ?_⟩
    dsimp only
    split_ifs
    · exact .inl rfl
    · exact .inr ⟨ex.aEntry, rfl⟩
  | elf hdrLen eh ph =>
    dsimp only
    split_ifs
    · exact .inl ⟨enoexec, rfl⟩
    · have hlen : (params args env (.elf hdrLen eh ph)).data.len = ph.pFilesz := by
        change ph.pVaddr + ph.pFilesz - ph.pVaddr = ph.pFilesz
        rw [UInt32.add_comm, UInt32.add_sub_cancel]
      refine .inr ⟨hacc, rdwri file ph.pFilesz ph.pOffset, ?_, .inr ⟨eh.eEntry, rfl⟩⟩
      rw [hlen]
      exact rdwri_length _ _ _

theorem Image.exec_setup {args env : List CString} {img : Image} {file : List UInt8} {su : Setup}
    (hsu : (img.exec file args env).setup = some su) :
    ∃ entry, su = execSetupstack entry (img.params args env) := by
  rcases img.exec_cases file args env with ⟨error, heq⟩ | ⟨_, chars, _, heq | ⟨entry, heq⟩⟩
  · rw [heq] at hsu
    exact absurd hsu (by simp [Outcome.failed])
  · rw [heq] at hsu
    exact absurd hsu (by simp)
  · rw [heq] at hsu
    exact ⟨entry, (Option.some.inj hsu).symm⟩

/-- For an image that is loaded, the strings, the vectors and the stack pointer are
placed in the stack section, without overlap and with every pointer at its string, and
`exec check` does not panic, exactly when the arguments are few enough. -/
theorem arguments_placed_iff (img : Image) (args env : List CString) (file : List UInt8) (mem : Memory)
    {su : Setup} (hsu : (img.exec file args env).setup = some su) :
    (∃ fr ws, su = .ok fr ws ∧ (img.params args env).Placed (applyAll mem ws) fr) ↔
      img.ArgumentsFit args env := by
  obtain ⟨entry, rfl⟩ := img.exec_setup hsu
  obtain ⟨hvaddr, hsum, _⟩ := img.stack_params args env
  have hsaved := img.params_saved args env
  obtain ⟨fr, heq, hsp, hargp, henvp⟩ := execSetupstack_eq hsaved hvaddr entry
  have hiff := hsaved.placed_iff hsum hsp hargp henvp mem
  rw [img.argumentsFit_iff, ← hiff]
  constructor
  · rintro ⟨fr', ws, hok, hplaced⟩
    rw [heq] at hok
    obtain ⟨rfl, rfl⟩ := Setup.ok.inj hok
    exact hplaced
  · intro hplaced
    exact ⟨fr, _, heq, hplaced⟩

def bareAout : Image := .aout 32 ⟨omagic, 0, 0, 0, 0⟩

def emptyString : CString := ⟨[], not_mem_nil⟩

theorem bareAout_setup {args env : List CString} (h : execEstab (bareAout.params args env) = 0) :
    (bareAout.exec [] args env).setup = some (execSetupstack 0 (bareAout.params args env)) := by
  rw [Image.exec, if_neg (by decide)]
  simp only [h]
  rfl

/-- `echo` with one argument. -/
theorem arguments_placed_iff_echo :
    let args : List CString := [⟨[101, 99, 104, 111], by decide⟩, ⟨[104, 105], by decide⟩]
    (bareAout.exec [] args []).setup = some (execSetupstack 0 (bareAout.params args [])) ∧
      ∃ fr ws, execSetupstack 0 (bareAout.params args []) = .ok fr ws ∧
        (bareAout.params args []).Placed (applyAll (fun _ => 0) ws) fr := by
  intro args
  have hsu := bareAout_setup (show execEstab (bareAout.params args []) = 0 by decide +kernel)
  have hfit : bareAout.ArgumentsFit args [] := by
    change (bareAout.params args []).argp.length ≤ 164
    decide +kernel
  exact ⟨hsu, (arguments_placed_iff bareAout args [] [] (fun _ => 0) hsu).2 hfit⟩

/-- With 165 arguments `argv` and the stack pointer do not fit the stack. -/
theorem arguments_outside_stack :
    let args := List.replicate 165 emptyString
    ∃ su, (bareAout.exec [] args []).setup = some su ∧
      ¬ ∃ fr ws, su = .ok fr ws ∧ (bareAout.params args []).Placed (applyAll (fun _ => 0) ws) fr := by
  intro args
  have hsu := bareAout_setup (show execEstab (bareAout.params args []) = 0 by decide +kernel)
  refine ⟨_, hsu, ?_⟩
  rintro ⟨fr, ws, hok, hplaced⟩
  have hsaved := bareAout.params_saved args []
  obtain ⟨hvaddr, hsum, _⟩ := bareAout.stack_params args []
  obtain ⟨fr', heq, hsp, hargp, henvp⟩ := execSetupstack_eq hsaved hvaddr 0
  rw [heq] at hok
  obtain ⟨rfl, rfl⟩ := Setup.ok.inj hok
  have hfit := (bareAout.argumentsFit_iff args []).2 ((hsaved.placed_iff hsum hsp hargp henvp _).1 hplaced)
  have hmany : ¬ (bareAout.params args []).argp.length ≤ 164 := by decide +kernel
  exact hmany hfit

end RetroBSD.Exec
