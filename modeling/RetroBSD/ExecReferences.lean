import RetroBSD.DescriptorCounts
import RetroBSD.ExecImage

/-!
# What execve acquires and releases

`execve` and `exec_check` of kernel/kern_exec.c, `exec_script_check` of kernel/exec_script.c
and the buffers and the loop over the descriptors of kernel/exec_subr.c. The handler of
scripts releases the script it was called for, and so does `execve` when it comes back. A
lookup that meets an inode the call has locked never ends.
-/

namespace RetroBSD.Exec

open Function Counting
open Descrip (nfile nofile Accounts execSlot closeSlot)

def eacces : ℕ := 13

abbrev Errno := { e : ℕ // e ≠ 0 }

/-- What a lookup does: it locks the inodes of `path` one after the other, and the one it
finds, which it returns with the name it found it under. -/
structure Lookup (I : Type*) where
  path : List I
  result : Except Errno (I × List UInt8)

/-- What the calls of `execve` find. The handlers of binaries lock no inodes: each asks
`exec_alloc` for memory, as pairs of `size` and `ru`, and returns an error or zero. `fData` are
the inodes of the open files. -/
structure Files (I : Type*) where
  namei : List UInt8 → Lookup I
  noexec : I → Bool
  iexec : I → Bool
  iread : I → Bool
  traced : Bool
  program : I → Bool
  header : I → Except Errno (List UInt8)
  aout : I → List (ℕ × ℕ) × ℕ
  elf : I → List (ℕ × ℕ) × ℕ
  fData : Fin nfile → I

/-- The file structures and the descriptors of the process. -/
abbrev Table := Descrip.Files × Descrip.User

/-- The counts of the inodes, those the call has locked, the open files, and the buffers with
their fill. Buffers are numbered in the order `geteblk` gives them. -/
structure Refs (I : Type*) where
  iCount : I → UInt32
  locked : I → Bool
  table : Table
  alloc : List (Option ℕ × ℕ)
  obtained : ℕ
  released : List ℕ

namespace Refs

variable {I : Type*} [DecidableEq I]

def acquire (s : Refs I) (ip : I) : Refs I :=
  { s with iCount := update s.iCount ip (s.iCount ip + 1), locked := update s.locked ip true }

/-- `irele`. With the last reference the flags are cleared. -/
def irele (s : Refs I) (ip : I) : Refs I :=
  { s with
    iCount := update s.iCount ip (s.iCount ip - 1)
    locked := if s.iCount ip = 1 then update s.locked ip false else s.locked }

def iput (s : Refs I) (ip : I) : Refs I := irele { s with locked := update s.locked ip false } ip

/-- One round of the loop of `exec_clear` over the descriptors. The last descriptor of a file
releases its inode. -/
def closeOnExec (fData : Fin nfile → I) (s : Refs I) (i : Fin nofile) : Refs I :=
  let r :=
    if s.table.2.uPofile i then
      match s.table.2.uOfile i with
      | some f => if 1 < (s.table.1.file f).fCount then s else s.irele (fData f)
      | none => s
    else s
  { r with table := execSlot s.table i }

def execClear (fData : Fin nfile → I) (s : Refs I) : Refs I :=
  let r := s.table.2.used.foldl (closeOnExec fData) s
  { r with table := (r.table.1, r.table.2.lowerLast) }

/-- `exec_alloc`, which takes the first buffer with room: the buffers and how many are new. -/
def execAlloc (obtained size ru : ℕ) : List (Option ℕ × ℕ) → List (Option ℕ × ℕ) × ℕ
  | [] => ([], 0)
  | (bp, fill) :: rest =>
    let start := if ru ≤ 1 then fill else roundup fill ru
    if start + size ≤ maxbsize then
      ((some (bp.getD obtained), start + size) :: rest, if bp.isNone then 1 else 0)
    else
      let r := execAlloc obtained size ru rest
      ((bp, fill) :: r.1, r.2)

def execAllocs (s : Refs I) : List (ℕ × ℕ) → Refs I
  | [] => s
  | (size, ru) :: reqs =>
    let r := execAlloc s.obtained size ru s.alloc
    execAllocs { s with alloc := r.1, obtained := s.obtained + r.2 } reqs

def execAllocFreeall (s : Refs I) : Refs I :=
  { s with alloc := s.alloc.map fun _ => (none, 0),
           released := s.released ++ s.alloc.filterMap Prod.fst }

def start (iCount : I → UInt32) (table : Table) : Refs I :=
  ⟨iCount, fun _ => false, table, List.replicate maxallocbuf (none, 0), 0, []⟩

end Refs

section Calls

variable {I : Type*} [DecidableEq I] (F : Files I)

/-- The name of the interpreter in the line behind `#!`. -/
def scriptLine (sh : List UInt8) : Except ℕ (List UInt8) :=
  if 10 ∉ sh then .error enoexec
  else
    let line := ((sh.takeWhile (· ≠ 10)).map fun c => if c = 9 then 32 else c).takeWhile (· ≠ 0)
    let line := line.dropWhile (· = 32)
    let interparg := (line.dropWhile (· ≠ 32)).dropWhile (· = 32)
    if line = [] then .error enoexec
    else if 64 ≤ interparg.length then .error enoent
    else .ok (line.takeWhile (· ≠ 32))

/-- `exec_check` of the inode `ip`, with the handler of scripts. -/
def execCheckWith (script : List UInt8 → Refs I → I → Option (Refs I × ℕ)) (s : Refs I) (ip : I) :
    Option (Refs I × ℕ) :=
  if !F.iexec ip || F.traced && !F.iread ip then some (s, enoexec)
  else if !F.program ip then some (s, eacces)
  else
    match F.header ip with
    | .error e => some (s, e)
    | .ok sh =>
      let s := s.execAllocs (F.aout ip).1
      if (F.aout ip).2 = 0 then some (s.execClear F.fData, 0)
      else
        let s := s.execAllocs (F.elf ip).1
        if (F.elf ip).2 = 0 then some (s.execClear F.fData, 0) else script sh s ip

/-- `exec_script_check`, when no interpreter was found before. It waits for ever for an inode the
call itself has locked. -/
def execScriptCheck (sh : List UInt8) (s : Refs I) (ip : I) : Option (Refs I × ℕ) :=
  if sh.take 2 ≠ [35, 33] then some (s, enoexec)
  else
    match scriptLine (sh.drop 2) with
    | .error e => some (s, e)
    | .ok name =>
      if (F.namei name).path.any s.locked then none
      else
        match (F.namei name).result with
        | .error e => some (s, e)
        | .ok (jp, dName) =>
          if s.locked jp then none
          else if 20 ≤ dName.length then some ((s.acquire jp).iput jp, enoent)
          else
            -- The handler of scripts refuses another script.
            (execCheckWith F (fun _ s _ => some (s, enoexec)) ((s.acquire jp).iput ip) jp).map
              fun r => (r.1.iput jp, r.2)

def execve (iCount : I → UInt32) (table : Table) (fname : List UInt8) : Option (Refs I × ℕ) :=
  match (F.namei fname).result with
  | .error e => some (.start iCount table, e)
  | .ok (ip, _) =>
    let s := (Refs.start iCount table).acquire ip
    if F.noexec ip then some (s.execAllocFreeall.iput ip, eacces)
    else (execCheckWith F (execScriptCheck F) s ip).map fun r => (r.1.execAllocFreeall.iput ip, r.2)

end Calls

/-! ## The buffers -/

namespace Refs

variable {I : Type*} {s s' : Refs I}

/-- Every buffer obtained is in use or was released, once. -/
def Buffers (s : Refs I) : Prop := ∀ b,
  (s.alloc.filterMap Prod.fst).count b + s.released.count b = if b < s.obtained then 1 else 0

structure Same (s s' : Refs I) : Prop where
  iCount : s'.iCount = s.iCount
  locked : s'.locked = s.locked
  table : s'.table = s.table
  buffers : s.Buffers → s'.Buffers

theorem Same.refl (s : Refs I) : Same s s := ⟨rfl, rfl, rfl, id⟩

theorem Same.trans {t : Refs I} (h : Same s s') (h' : Same s' t) : Same s t :=
  ⟨h'.iCount.trans h.iCount, h'.locked.trans h.locked, h'.table.trans h.table,
    fun hs => h'.buffers (h.buffers hs)⟩

theorem count_execAlloc (obtained size ru b : ℕ) (l : List (Option ℕ × ℕ)) :
    ((execAlloc obtained size ru l).1.filterMap Prod.fst).count b =
      (l.filterMap Prod.fst).count b +
        if obtained ≤ b ∧ b < obtained + (execAlloc obtained size ru l).2 then 1 else 0 := by
  induction l with
  | nil => simp [execAlloc]
  | cons e rest ih =>
    obtain ⟨-, -⟩ := e
    rw [execAlloc]
    split_ifs <;> grind

theorem same_execAllocs (s : Refs I) (reqs : List (ℕ × ℕ)) : Same s (s.execAllocs reqs) := by
  induction reqs generalizing s with
  | nil => exact .refl s
  | cons req reqs ih =>
    obtain ⟨size, ru⟩ := req
    obtain ⟨hcount, hlocked, htable, hbuf⟩ := ih
      { s with
        alloc := (execAlloc s.obtained size ru s.alloc).1
        obtained := s.obtained + (execAlloc s.obtained size ru s.alloc).2 }
    refine ⟨hcount, hlocked, htable, fun h => hbuf fun b => ?_⟩
    have hb := h b
    have hnew := count_execAlloc s.obtained size ru b s.alloc
    dsimp only
    split_ifs at hb hnew ⊢ <;> omega

theorem Buffers.freed (h : s.Buffers) (b : ℕ) :
    s.execAllocFreeall.released.count b = if b < s.obtained then 1 else 0 := by
  rw [← h b, execAllocFreeall, List.count_append, Nat.add_comm]

end Refs

/-! ## The open files -/

section Close

open Descrip Finset

variable {I : Type*} [DecidableEq I] {t : Table} {rest : Fin nfile → ℕ} {i : Fin nofile}

/-- The descriptors that are closed by `exec`. -/
def marked (u : User) (i : Fin nofile) : Option (Fin nfile) :=
  if u.uPofile i then u.uOfile i else none

/-- All descriptors of the file there are in the system are closed by `exec`. -/
def Closes (t : Table) (f : Fin nfile) : Prop :=
  0 < (t.1.file f).fCount ∧ (t.1.file f).fCount = refs (marked t.2) f

instance (t : Table) : DecidablePred (Closes t) := fun _ => inferInstanceAs (Decidable (_ ∧ _))

/-- How many references to the inode `ip` the files have that are closed by `exec`. -/
def closed (fData : Fin nfile → I) (t : Table) (ip : I) : ℕ :=
  (univ.filter fun f => fData f = ip ∧ Closes t f).card

theorem refs_marked_le (u : User) (f : Fin nfile) : refs (marked u) f ≤ refs u.uOfile f := by
  refine sum_le_sum fun i _ => ?_
  rw [marked]
  cases u.uPofile i with
  | true => exact le_rfl
  | false => exact Nat.zero_le _

theorem marked_closeSlot (t : Table) (i : Fin nofile) :
    marked (closeSlot t i).2 = update (marked t.2) i none := by
  funext j
  by_cases hj : j = i
  · subst hj
    simp [marked, closeSlot, User.setFlags]
  · simp [marked, closeSlot, User.setFlags, User.setSlot, hj]

/-- The file of the slot is closed if this was its last descriptor, and the others that are
going to be closed stay the same. -/
theorem closes_closeSlot (h : Accounts t.1 t.2 rest) (hi : t.2.uPofile i = true) (f : Fin nfile) :
    Closes (closeSlot t i) f ↔ Closes t f ∧ ¬(t.2.uOfile i = some f ∧ (t.1.file f).fCount = 1) := by
  have hcount := closef_count (fun g (hg : t.2.uOfile i = some g) => h.pos hg) f
  have hrefs := refs_update (marked t.2) i none f
  have hle := (refs_marked_le t.2 f).trans (Nat.le.intro (h.count f).symm)
  rw [show marked t.2 i = t.2.uOfile i from if_pos hi] at hrefs
  rw [Closes, Closes, marked_closeSlot]
  simp only [closeSlot, reduceCtorEq, if_false] at hrefs ⊢
  by_cases hf : t.2.uOfile i = some f
  · rw [if_pos hf] at hcount hrefs
    simp only [hf, true_and]
    rw [hf] at hcount
    omega
  · rw [if_neg hf] at hcount hrefs
    simp only [hf, false_and, not_false_eq_true, and_true]
    omega

/-- A descriptor that is not the last one of its file closes no file. -/
theorem closed_of_more (fData : Fin nfile → I) (h : Accounts t.1 t.2 rest)
    (hi : t.2.uPofile i = true) (hmore : ∀ f, t.2.uOfile i = some f → (t.1.file f).fCount ≠ 1)
    (ip : I) : closed fData (closeSlot t i) ip = closed fData t ip := by
  refine congrArg card (filter_congr fun f _ => ?_)
  rw [closes_closeSlot h hi, and_iff_left fun hlast => hmore f hlast.1 hlast.2]

theorem closed_of_last (fData : Fin nfile → I) (h : Accounts t.1 t.2 rest) {f : Fin nfile}
    (hi : t.2.uPofile i = true) (hf : t.2.uOfile i = some f) (hlast : (t.1.file f).fCount = 1)
    (ip : I) :
    closed fData t ip = closed fData (closeSlot t i) ip + if fData f = ip then 1 else 0 := by
  have hcloses : Closes t f := by
    have hpos := refs_pos (show marked t.2 i = some f from (if_pos hi).trans hf)
    have hle := (refs_marked_le t.2 f).trans (Nat.le.intro (h.count f).symm)
    exact ⟨by omega, by omega⟩
  have hothers : ∀ g, Closes (closeSlot t i) g ↔ Closes t g ∧ g ≠ f := by
    intro g
    rw [closes_closeSlot h hi, hf, Option.some_inj]
    refine and_congr_right fun _ => not_congr ⟨fun hg => hg.1.symm, fun hg => ⟨hg.symm, hg ▸ hlast⟩⟩
  simp only [closed, hothers]
  split_ifs with hdata
  · have hmem : f ∈ univ.filter fun g => fData g = ip ∧ Closes t g :=
      mem_filter.2 ⟨mem_univ f, hdata, hcloses⟩
    rw [← card_erase_add_one hmem]
    refine congrArg (· + 1) (congrArg card (ext fun g => ?_))
    simp only [mem_erase, mem_filter, mem_univ, true_and]
    tauto
  · rw [add_zero]
    refine congrArg card (ext fun g => ?_)
    simp only [mem_filter, mem_univ, true_and]
    refine and_congr_right fun hg => (and_iff_left ?_).symm
    rintro rfl
    exact hdata hg

theorem closed_eq_zero (fData : Fin nfile → I) (ht : ∀ i, marked t.2 i = none) (ip : I) :
    closed fData t ip = 0 := by
  refine card_eq_zero.2 (filter_eq_empty_iff.2 fun f _ hf => ?_)
  obtain ⟨-, hpos, hrefs⟩ := hf
  rw [refs_eq_zero fun i => by rw [ht i]; exact Option.some_ne_none f |>.symm] at hrefs
  omega

end Close

namespace Refs

variable {I : Type*} [DecidableEq I] {s : Refs I} {rest : Fin nfile → ℕ}

theorem iput_locked (s : Refs I) (ip : I) : (s.iput ip).locked = update s.locked ip false := by
  simp only [iput, irele]
  split_ifs
  · exact update_idem ..
  · rfl

theorem irele_iCount (s : Refs I) (ip i : I) :
    (s.irele ip).iCount i = s.iCount i - if ip = i then 1 else 0 := by
  by_cases hi : i = ip
  · subst hi
    simp [irele]
  · simp [irele, hi, Ne.symm hi]

/-- What the loop over the descriptors keeps: the counts, less what is still to be released, and
all that has to do with the buffers. -/
structure Closing (fData : Fin nfile → I) (rest : Fin nfile → ℕ) (s s' : Refs I) : Prop where
  accounts : Accounts s'.table.1 s'.table.2 rest
  iCount : ∀ ip, s'.iCount ip - UInt32.ofNat (closed fData s'.table ip) =
    s.iCount ip - UInt32.ofNat (closed fData s.table ip)
  locked : ∀ ip, s'.locked ip → s.locked ip
  alloc : s'.alloc = s.alloc
  obtained : s'.obtained = s.obtained
  released : s'.released = s.released

theorem closing_closeOnExec (fData : Fin nfile → I) (h : Accounts s.table.1 s.table.2 rest)
    (i : Fin nofile) : Closing fData rest s (s.closeOnExec fData i) := by
  by_cases hi : s.table.2.uPofile i = true
  swap
  · simp only [closeOnExec, execSlot, hi, Bool.false_eq_true, if_false]
    exact ⟨h, fun _ => rfl, fun _ => id, rfl, rfl, rfl⟩
  have hslot : execSlot s.table i = closeSlot s.table i := if_pos hi
  by_cases hlast : ∃ f, s.table.2.uOfile i = some f ∧ (s.table.1.file f).fCount = 1
  · obtain ⟨f, hf, hone⟩ := hlast
    have hrun : s.closeOnExec fData i =
        { s.irele (fData f) with table := closeSlot s.table i } := by
      simp only [closeOnExec, hslot, hi, hf, hone, lt_irrefl, if_true, if_false]
    rw [hrun]
    refine ⟨h.closeSlot i, fun ip => ?_, fun ip hip => ?_, rfl, rfl, rfl⟩
    · have hclosed := closed_of_last fData h hi hf hone ip
      have hcount := irele_iCount s (fData f) ip
      dsimp only
      rw [hclosed, hcount]
      split_ifs
      · rw [UInt32.ofNat_add]
        grind
      · grind
    · simp only [irele] at hip
      split_ifs at hip with hcount
      · by_cases hne : ip = fData f
        · rw [hne, update_self] at hip
          cases hip
        · rwa [update_of_ne hne] at hip
      · exact hip
  · have hrun : s.closeOnExec fData i = { s with table := closeSlot s.table i } := by
      simp only [closeOnExec, hslot, hi, if_true]
      cases hf : s.table.2.uOfile i with
      | none => rfl
      | some f =>
        have hpos := h.pos hf
        have hone : (s.table.1.file f).fCount ≠ 1 := fun hone => hlast ⟨f, hf, hone⟩
        dsimp only
        rw [if_pos (by omega)]
    rw [hrun]
    refine ⟨h.closeSlot i, fun ip => ?_, fun _ => id, rfl, rfl, rfl⟩
    rw [closed_of_more fData h hi fun f hf hone => hlast ⟨f, hf, hone⟩]

theorem Closing.trans {fData : Fin nfile → I} {s' s'' : Refs I} (h : Closing fData rest s s')
    (h' : Closing fData rest s' s'') : Closing fData rest s s'' where
  accounts := h'.accounts
  iCount ip := (h'.iCount ip).trans (h.iCount ip)
  locked ip hip := h.locked ip (h'.locked ip hip)
  alloc := h'.alloc.trans h.alloc
  obtained := h'.obtained.trans h.obtained
  released := h'.released.trans h.released

theorem closing_foldl (fData : Fin nfile → I) (l : List (Fin nofile))
    (h : Accounts s.table.1 s.table.2 rest) :
    Closing fData rest s (l.foldl (closeOnExec fData) s) := by
  induction l generalizing s with
  | nil => exact ⟨h, fun _ => rfl, fun _ => id, rfl, rfl, rfl⟩
  | cons i l ih =>
    have hstep := closing_closeOnExec fData h i
    exact hstep.trans (ih hstep.accounts)

theorem foldl_table (fData : Fin nfile → I) (l : List (Fin nofile)) (s : Refs I) :
    (l.foldl (closeOnExec fData) s).table = l.foldl execSlot s.table := by
  induction l generalizing s with
  | nil => rfl
  | cons i l ih => exact ih (s.closeOnExec fData i)

/-- After the loop nothing is left to be closed. -/
theorem marked_foldl (l : List (Fin nofile)) (t : Table) (i : Fin nofile) :
    marked (l.foldl execSlot t).2 i = if i ∈ l then none else marked t.2 i := by
  induction l generalizing t with
  | nil => rfl
  | cons j l ih =>
    rw [List.foldl_cons, ih]
    by_cases hl : i ∈ l
    · rw [if_pos hl, if_pos (List.mem_cons_of_mem j hl)]
    rw [if_neg hl, execSlot]
    by_cases hij : i = j
    · subst hij
      rw [if_pos List.mem_cons_self]
      split_ifs with hmark
      · rw [marked_closeSlot, update_self]
      · exact if_neg hmark
    · rw [if_neg fun hmem => (List.mem_cons.1 hmem).elim hij hl]
      split_ifs
      · rw [marked_closeSlot, update_of_ne hij]
      · rfl

theorem execClear_iCount (fData : Fin nfile → I) (h : Accounts s.table.1 s.table.2 rest) (ip : I) :
    (s.execClear fData).iCount ip = s.iCount ip - UInt32.ofNat (closed fData s.table ip) := by
  have hloop := (closing_foldl fData s.table.2.used h).iCount ip
  rw [closed_eq_zero fData ?_ ip] at hloop
  · rw [← hloop, execClear]
    exact (UInt32.sub_zero _).symm
  · intro i
    rw [foldl_table, marked_foldl]
    split_ifs with hi
    · rfl
    · have hnone : s.table.2.uOfile i = none := by
        by_contra hne
        exact hi (Descrip.mem_used h.toBounded hne)
      rw [marked, hnone, ite_self]

end Refs

/-! ## The references -/

section Calls

open Refs

variable {I : Type*} [DecidableEq I] {F : Files I} {s : Refs I} {ip : I} {table : Table}
  {rest : Fin nfile → ℕ}

def Files.Tries (F : Files I) (ip : I) (sh : List UInt8) : Prop :=
  F.iexec ip ∧ (F.traced → F.iread ip) ∧ F.program ip ∧ F.header ip = .ok sh ∧ (F.aout ip).2 ≠ 0 ∧
    (F.elf ip).2 ≠ 0

/-- The header is a line that names an interpreter, and the way to it leads to the script
itself, or it is found under a name that is short enough. -/
def Files.Names (F : Files I) (ip : I) (sh : List UInt8) : Prop :=
  sh.take 2 = [35, 33] ∧ ∃ name, scriptLine (sh.drop 2) = .ok name ∧
    (ip ∈ (F.namei name).path ∨
      ∃ jp dName, (F.namei name).result = .ok (jp, dName) ∧ (dName.length < 20 ∨ jp = ip))

/-- A file that is not left to the handler of scripts is refused or executed. -/
theorem execCheckWith_cases (F : Files I) (script : List UInt8 → Refs I → I → Option (Refs I × ℕ))
    (s : Refs I) (ip : I) :
    ∃ s', Same s s' ∧ ((∃ sh, F.Tries ip sh ∧ execCheckWith F script s ip = script sh s' ip) ∨
      (∀ sh, ¬F.Tries ip sh) ∧ ((∃ e, e ≠ 0 ∧ execCheckWith F script s ip = some (s', e)) ∨
        execCheckWith F script s ip = some (s'.execClear F.fData, 0))) := by
  have haout := same_execAllocs s (F.aout ip).1
  have helf := haout.trans (same_execAllocs _ (F.elf ip).1)
  rw [execCheckWith]
  cases hsh : F.header ip with
  | error e =>
    refine ⟨s, .refl s, .inr ⟨fun sh h => by simp [Files.Tries, hsh] at h, .inl ?_⟩⟩
    dsimp only
    split_ifs
    · exact ⟨_, by decide, rfl⟩
    · exact ⟨_, by decide, rfl⟩
    · exact ⟨_, e.2, rfl⟩
  | ok sh =>
    dsimp only
    split_ifs with hacc hprog ha he
    · exact ⟨s, .refl s, .inr ⟨fun sh h => by simp_all [Files.Tries], .inl ⟨_, by decide, rfl⟩⟩⟩
    · exact ⟨s, .refl s, .inr ⟨fun sh h => by simp_all [Files.Tries], .inl ⟨_, by decide, rfl⟩⟩⟩
    · exact ⟨_, haout, .inr ⟨fun sh h => h.2.2.2.2.1 ha, .inr rfl⟩⟩
    · exact ⟨_, helf, .inr ⟨fun sh h => h.2.2.2.2.2 he, .inr rfl⟩⟩
    · exact ⟨_, helf, .inl ⟨sh, by simp_all [Files.Tries], rfl⟩⟩

theorem acquire_iput (s : Refs I) {jp : I} (h : s.locked jp = false) :
    (s.acquire jp).iput jp = s := by
  simp [acquire, iput, irele, ← h]

theorem scriptLine_error {sh : List UInt8} {e : ℕ} (h : scriptLine sh = .error e) : e ≠ 0 := by
  rw [scriptLine] at h
  dsimp only at h
  split_ifs at h
  all_goals
    obtain rfl := Except.error.inj h
    decide

theorem execScriptCheck_none (sh : List UInt8) (s : Refs I) (h : ¬F.Names ip sh)
    (hlock : ∀ i, s.locked i → i = ip) : ∃ e, e ≠ 0 ∧ execScriptCheck F sh s ip = some (s, e) := by
  rw [execScriptCheck]
  split_ifs with hmagic
  · exact ⟨_, by decide, rfl⟩
  cases hline : scriptLine (sh.drop 2) with
  | error e => exact ⟨e, scriptLine_error hline, rfl⟩
  | ok name =>
    have hnot : ¬(ip ∈ (F.namei name).path ∨
        ∃ jp dName, (F.namei name).result = .ok (jp, dName) ∧ (dName.length < 20 ∨ jp = ip)) :=
      fun hor => h ⟨not_not.1 hmagic, name, hline, hor⟩
    rw [not_or] at hnot
    have hfree : ∀ i, i ≠ ip → s.locked i = false :=
      fun i hi => Bool.eq_false_iff.2 fun hl => hi (hlock i hl)
    have hpath : (F.namei name).path.any s.locked = false := by
      rw [List.any_eq_false]
      intro i hi
      rw [hfree i fun heq => hnot.1 (heq ▸ hi)]
      exact Bool.false_ne_true
    dsimp only
    rw [hpath, if_neg Bool.false_ne_true]
    cases hname : (F.namei name).result with
    | error e => exact ⟨e, e.2, rfl⟩
    | ok r =>
      obtain ⟨jp, dName⟩ := r
      have hshort : ¬(dName.length < 20 ∨ jp = ip) := fun hor => hnot.2 ⟨jp, dName, hname, hor⟩
      rw [not_or, not_lt] at hshort
      refine ⟨enoent, by decide, ?_⟩
      dsimp only
      rw [hfree jp hshort.2, if_neg Bool.false_ne_true, if_pos hshort.1,
        acquire_iput s (hfree jp hshort.2)]

/-- What becomes of the references of files when a file is executed. -/
def dropped (F : Files I) (table : Table) (e : ℕ) (ip : I) : UInt32 :=
  if e = 0 then UInt32.ofNat (closed F.fData table ip) else 0

/-- The handler comes back, if at all, with one reference to the script less. -/
theorem execScriptCheck_some (sh : List UInt8) (s : Refs I) (h : F.Names ip sh)
    (hlock : s.locked ip) (hacc : Accounts s.table.1 s.table.2 rest) :
    ∀ r, execScriptCheck F sh s ip = some r →
      r.1.iCount ip = s.iCount ip - 1 - dropped F s.table r.2 ip := by
  obtain ⟨hmagic, name, hline, hor⟩ := h
  intro r hr
  rw [execScriptCheck, if_neg (not_not.2 hmagic), hline] at hr
  dsimp only at hr
  split_ifs at hr with hpath
  have hout : ip ∉ (F.namei name).path := fun hmem => hpath (List.any_eq_true.2 ⟨ip, hmem, hlock⟩)
  obtain ⟨jp, dName, hname, hshort⟩ := hor.resolve_left hout
  rw [hname] at hr
  dsimp only at hr
  split_ifs at hr with hjp hlen
  · have hne : jp ≠ ip := fun heq => hjp (heq ▸ hlock)
    exact absurd hshort (by simp [hne, hlen])
  · have hne : ip ≠ jp := fun heq => hjp (heq ▸ hlock)
    have hcount : ((s.acquire jp).iput ip).iCount ip = s.iCount ip - 1 := by
      simp [iput, irele, acquire, hne]
    obtain ⟨q, hq, rfl⟩ := Option.map_eq_some_iff.1 hr
    have hkept : (q.1.iput jp).iCount ip = q.1.iCount ip := by simp [iput, irele, hne]
    dsimp only
    rw [hkept]
    have hfail : ∀ s', Same ((s.acquire jp).iput ip) s' → ∀ e, e ≠ 0 → q = (s', e) →
        q.1.iCount ip = s.iCount ip - 1 - dropped F s.table q.2 ip := by
      rintro s' hsame e he rfl
      rw [dropped, if_neg he, hsame.iCount, hcount]
      exact (UInt32.sub_zero _).symm
    obtain ⟨s', hsame, ⟨-, -, heq⟩ | ⟨-, ⟨e, he, heq⟩ | heq⟩⟩ :=
      execCheckWith_cases F (fun _ s _ => some (s, enoexec)) ((s.acquire jp).iput ip) jp
    · exact hfail s' hsame enoexec (by decide) (Option.some.inj (hq.symm.trans heq))
    · exact hfail s' hsame e he (Option.some.inj (hq.symm.trans heq))
    · obtain rfl := Option.some.inj (hq.symm.trans heq)
      have htable : s'.table = s.table := hsame.table
      rw [execClear_iCount F.fData (htable ▸ hacc), hsame.iCount, hcount, dropped, if_pos rfl,
        htable]

/-- The file is a script whose interpreter there is. -/
def Files.Interpreted (F : Files I) (fname : List UInt8) : Prop :=
  ∃ ip d sh, (F.namei fname).result = .ok (ip, d) ∧ F.noexec ip = false ∧ F.Tries ip sh ∧
    F.Names ip sh

/-- `execve` comes back with no inode locked, every buffer released once, and the counts as
before, but for the files that are closed when the image is replaced. -/
def Balanced (F : Files I) (iCount : I → UInt32) (table : Table) (fname : List UInt8) : Prop :=
  ∃ s e, execve F iCount table fname = some (s, e) ∧
    (∀ i, s.iCount i = iCount i - dropped F table e i) ∧
    (∀ i, s.locked i = false) ∧ ∀ b, s.released.count b = if b < s.obtained then 1 else 0

theorem Refs.Same.left {iCount : I → UInt32} (h : Same ((start iCount table).acquire ip) s)
    (hacc : Accounts table.1 table.2 rest) {s' : Refs I} {e : ℕ}
    (hs' : e ≠ 0 ∧ s' = s ∨ e = 0 ∧ s' = s.execClear F.fData) :
    (∀ i, (s'.execAllocFreeall.iput ip).iCount i = iCount i - dropped F table e i) ∧
      (∀ i, (s'.execAllocFreeall.iput ip).locked i = false) ∧
      ∀ b, (s'.execAllocFreeall.iput ip).released.count b = if b < s'.obtained then 1 else 0 := by
  have hstart : (start iCount table).Buffers := fun b => by simp [start]
  have htable : s.table = table := h.table
  have hloop := closing_foldl F.fData s.table.2.used (htable ▸ hacc)
  have hcount : ∀ i, s'.iCount i = s.iCount i - dropped F table e i := by
    intro i
    rcases hs' with ⟨he, rfl⟩ | ⟨rfl, rfl⟩
    · rw [dropped, if_neg he]
      exact (UInt32.sub_zero _).symm
    · rw [execClear_iCount F.fData (htable ▸ hacc), dropped, if_pos rfl, htable]
  have hlocked : ∀ i, s'.locked i → i = ip := by
    intro i hi
    have hs : s.locked i := by
      rcases hs' with ⟨-, rfl⟩ | ⟨-, rfl⟩
      · exact hi
      · exact hloop.locked i hi
    simpa [h.locked, acquire, start, update_apply] using hs
  have hbuffers : s'.Buffers := by
    rcases hs' with ⟨-, rfl⟩ | ⟨-, rfl⟩
    · exact h.buffers hstart
    · intro b
      have hb := h.buffers hstart b
      rw [← hloop.alloc, ← hloop.obtained, ← hloop.released] at hb
      exact hb
  refine ⟨fun i => ?_, fun i => ?_, hbuffers.freed⟩
  · have hput : (s'.execAllocFreeall.iput ip).iCount i = s'.iCount i - if ip = i then 1 else 0 :=
      irele_iCount _ ip i
    rw [hput, hcount, h.iCount]
    by_cases hi : i = ip
    · subst hi
      simp only [acquire, start, update_self, if_true]
      grind
    · simp only [acquire, start, update_of_ne hi, Ne.symm hi, if_false]
      exact UInt32.sub_zero _
  · rw [iput_locked]
    by_cases hi : i = ip
    · rw [hi, update_self]
    · rw [update_of_ne hi]
      exact Bool.eq_false_iff.2 fun hl => hi (hlocked i hl)

/-- `execve` releases what it acquired exactly when no interpreter is to be executed. -/
theorem execve_balanced_iff (F : Files I) (iCount : I → UInt32) (table : Table)
    {rest : Fin nfile → ℕ} (hacc : Accounts table.1 table.2 rest) (fname : List UInt8) :
    Balanced F iCount table fname ↔ ¬F.Interpreted fname := by
  constructor
  · rintro ⟨t, e, ht, hcount, -⟩ ⟨ip, d, sh, hname, hno, htries, hnames⟩
    rw [execve, hname] at ht
    dsimp only at ht
    rw [hno] at ht
    obtain ⟨q, hq, hqt⟩ := Option.map_eq_some_iff.1 ht
    obtain ⟨s', hsame, ⟨sh', htries', heq⟩ | ⟨hnot, -⟩⟩ :=
      execCheckWith_cases F (execScriptCheck F) ((start iCount table).acquire ip) ip
    · obtain rfl : sh' = sh := Except.ok.inj (htries'.2.2.2.1.symm.trans htries.2.2.2.1)
      have htable : s'.table = table := hsame.table
      have hlost := execScriptCheck_some sh' s' hnames (by simp [hsame.locked, acquire])
        (htable ▸ hacc) q (heq ▸ hq)
      obtain ⟨rfl, rfl⟩ := Prod.ext_iff.1 hqt
      have hip := hcount ip
      dsimp only at hip
      rw [show (q.1.execAllocFreeall.iput ip).iCount ip = q.1.iCount ip -
        if ip = ip then 1 else 0 from
        irele_iCount _ ip ip, if_pos rfl, hlost, hsame.iCount, htable] at hip
      simp only [acquire, start, update_self] at hip
      grind
    · exact hnot sh htries
  · intro h
    rw [Balanced, execve]
    cases hname : (F.namei fname).result with
    | error e =>
      refine ⟨_, _, rfl, fun i => ?_, fun _ => rfl, fun b => by simp [start]⟩
      rw [dropped, if_neg e.2]
      exact (UInt32.sub_zero _).symm
    | ok r =>
      obtain ⟨ip, d⟩ := r
      dsimp only
      split_ifs with hno
      · exact ⟨_, _, rfl, (Same.refl _).left hacc (.inl ⟨by decide, rfl⟩)⟩
      obtain ⟨s', hsame, ⟨sh, htries, heq⟩ | ⟨-, ⟨e, he, heq⟩ | heq⟩⟩ :=
        execCheckWith_cases F (execScriptCheck F) ((start iCount table).acquire ip) ip
      · obtain ⟨e, he, hrun⟩ := execScriptCheck_none sh s'
          (fun hnames => h ⟨ip, d, sh, hname, by simpa using hno, htries, hnames⟩) fun i hi => by
            simpa [hsame.locked, acquire, start, update_apply] using hi
        exact ⟨_, e, by rw [heq, hrun]; rfl, hsame.left hacc (.inl ⟨he, rfl⟩)⟩
      · exact ⟨_, e, by rw [heq]; rfl, hsame.left hacc (.inl ⟨he, rfl⟩)⟩
      · exact ⟨_, 0, by rw [heq]; rfl, hsame.left hacc (.inr ⟨rfl, rfl⟩)⟩

end Calls

/-- The root directory has a script that names `sh`, and `sh` itself. -/
def shellScript : Files Bool where
  namei name := ⟨[], .ok (name = [115, 104], name)⟩
  noexec _ := false
  iexec _ := true
  iread _ := true
  traced := false
  program _ := true
  header ip := .ok (if ip then [] else [35, 33, 115, 104, 10])
  aout ip := ([(8, 4)], if ip then 0 else enoexec)
  elf _ := ([], enoexec)
  fData _ := true

/-- Descriptor 0 is the only one of a file on `sh`, and is to be closed. -/
def oneOpen : Table :=
  (⟨fun f => ⟨if f.val = 0 then 1 else 0, 0⟩, 0⟩,
    ⟨fun i => if i.val = 0 then some ⟨0, by decide⟩ else none, fun i => i.val = 0, 0⟩)

theorem oneOpen_accounts : Accounts oneOpen.1 oneOpen.2 fun _ => 0 where
  last := by decide +kernel
  count := by decide +kernel

/-- The binary itself is executed, and its count is one less for the file that is closed. -/
theorem execve_balanced_binary :
    Balanced shellScript (fun _ => 2) oneOpen [115, 104] ∧
      dropped shellScript oneOpen 0 true = 1 := by
  refine ⟨(execve_balanced_iff shellScript _ oneOpen oneOpen_accounts _).2 ?_, by decide +kernel⟩
  rintro ⟨ip, d, sh, hname, -, htries, -⟩
  obtain rfl : true = ip := congrArg Prod.fst (Except.ok.inj hname)
  exact htries.2.2.2.2.1 rfl

/-- The script is released twice. -/
theorem script_released_twice :
    (execve shellScript (fun _ => 1) ⟨⟨fun _ => ⟨0, 0⟩, 0⟩, ⟨fun _ => none, fun _ => false, -1⟩⟩
      [97]).map (fun r => (r.2, r.1.iCount false, r.1.iCount true)) = some (0, 0, 1) := by
  decide +kernel

end RetroBSD.Exec
