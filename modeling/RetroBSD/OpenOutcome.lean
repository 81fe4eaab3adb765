import RetroBSD.DescriptorCounts

/-!
# What an open returns

`copen` may be asked by the driver of `/dev/fd` to duplicate a descriptor. When that
fails, `copen` still reports success, for a slot that it has emptied; otherwise an open
returns a slot with a live file, or an error and an empty slot.
-/

namespace RetroBSD.Descrip

open Counting Runs

section Outcome

variable {k : Files} {u : User} {rest : Fin nfile → ℕ} {mode : UInt32}

/-- A successful open returns a slot with a live file that is accessed as requested, and
an open that fails leaves the slot empty that it had reserved. -/
def OpenSound (u : User) (mode : UInt32) (a : Answer (Fin nofile)) : Prop :=
  match a.result with
  | .ok fd => ∃ f, a.user.uOfile fd = some f ∧ 0 < (a.files.file f).fCount ∧
      access (a.files.file f).fFlag = access (fflags mode)
  | .error _ => ∀ i u₁, u.ufalloc 0 = some (i, u₁) → a.user.uOfile i = none

/-- A descriptor that the driver asks to duplicate is open, for the access requested. -/
def DupMatches (k : Files) (u : User) (mode : UInt32) (v : VnOpen) : Prop :=
  v.AsksDup → v.error = enodev ∧
    ∃ d f, u.getf v.dupfd = some (d, f) ∧ access (k.file f).fFlag = access (fflags mode)

theorem not_openSound_of_empty {a : Answer (Fin nofile)} {fd : Fin nofile} (hresult : a.result = .ok fd)
    (hslot : a.user.uOfile fd = none) : ¬ OpenSound u mode a := by
  rw [OpenSound, hresult]
  rintro ⟨f, hf, _⟩
  rw [hslot] at hf
  cases hf

theorem access_fmask (flags : UInt32) : access (flags &&& fmask) = access flags := by
  rw [access, UInt32.and_assoc]
  rfl

theorem access_or_self {flags flag : UInt32} (h : access flag = access flags) : access flags ||| flag = flag := by
  rw [← h, access]
  apply UInt32.eq_of_toBitVec_eq
  ext n hn
  simp only [UInt32.toBitVec_or, UInt32.toBitVec_and, BitVec.getElem_or, BitVec.getElem_and]
  cases flag.toBitVec[n] <;> simp

theorem copen_sound_iff (h : Accounts k u rest) (mode : UInt32) (v : VnOpen) (inoLock : ℕ) :
    OpenSound u mode (copen k u mode v inoLock) ↔
      ((∃ r, (falloc k u).result = .ok r) → DupMatches k u mode v) := by
  rcases copen_cases k u mode v inoLock with
    ⟨e, u₁, hfalloc, heq, hofile, _⟩ | ⟨i, u₁, fp, k1, u2, hfalloc, halloc, hzero, hk1, hu2, hcases⟩
  · rw [hfalloc, heq]
    refine iff_of_true (fun i u' halloc => ?_) (by rintro ⟨r, ⟨⟩⟩)
    rw [hofile]
    exact (ufalloc_eq_some halloc).1
  rw [show (∃ r, (falloc k u).result = .ok r) ↔ True by simp [hfalloc], true_imp_iff]
  obtain ⟨hnone, hu1⟩ := ufalloc_eq_some halloc
  have hgiven : ∀ e, OpenSound u mode ⟨k1.setCount fp 0, u2.setSlot i none, .error e⟩ := by
    intro e j u' halloc'
    obtain ⟨rfl, _⟩ := Prod.mk.inj (Option.some.inj (halloc.symm.trans halloc'))
    exact (setSlot_ofile ..).trans (if_pos rfl)
  rcases hcases with ⟨e, heq, hno⟩ | ⟨heq, hno⟩ | ⟨d, wfp, heq, hdup, hnodev, hget, hne⟩ | ⟨heq, hdup, hfail⟩
  · rw [heq]
    exact iff_of_true (hgiven e) fun hdup => absurd hdup hno
  · rw [heq]
    refine iff_of_true ⟨fp, ?_, ?_, ?_⟩ fun hdup => absurd hdup hno
    · rw [hu2, setSlot_ofile, if_pos rfl]
    · rw [hk1, reserve_count, if_pos rfl]
      exact Nat.one_pos
    · rw [hk1, reserve_flag, if_pos rfl]
      exact access_fmask _
  · have hfile : ∀ d f, u.getf v.dupfd = some (d, f) ↔ d ≠ i ∧ u2.getf v.dupfd = some (d, f) := by
      intro d f
      rw [getf_eq_some, getf_eq_some, hu2, hu1]
      by_cases hd : d = i
      · simp [hd, hnone]
      · simp [hd]
    have hd : d ≠ i := by
      rintro rfl
      have hslot := (getf_eq_some.1 hget).2
      rw [hu2, setSlot_ofile, if_pos rfl] at hslot
      exact hne (Option.some.inj hslot).symm
    have hflag : (((k1.setCount fp 0).setCount wfp ((k1.file wfp).fCount + 1)).file wfp).fFlag =
        (k.file wfp).fFlag := by
      rw [setCount_flag, setCount_flag, hk1, reserve_flag, if_neg hne]
    have hslot : (((u2.setSlot i (some wfp)).setFlags i (u2.uPofile d)).raiseLast i).uOfile i = some wfp := by
      rw [raiseLast_ofile, setFlags_ofile, setSlot_ofile, if_pos rfl]
    rw [heq]
    constructor
    · rintro ⟨f, hf, _, hacc⟩ _
      obtain rfl : wfp = f := Option.some.inj (hslot.symm.trans hf)
      exact ⟨hnodev, d, wfp, (hfile d wfp).2 ⟨hd, hget⟩, hflag ▸ hacc⟩
    · intro hmatch
      obtain ⟨_, d', f, hget', hacc⟩ := hmatch hdup
      obtain ⟨rfl, rfl⟩ := Prod.mk.inj (Option.some.inj (((hfile d' f).1 hget').2.symm.trans hget))
      refine ⟨f, hslot, ?_, hflag.symm ▸ hacc⟩
      rw [setCount_count, if_pos rfl]
      exact Nat.succ_pos _
  · rw [heq]
    refine iff_of_false ?_ fun hmatch => ?_
    · exact not_openSound_of_empty rfl ((setSlot_ofile ..).trans (if_pos rfl))
    · obtain ⟨hnodev, d, f, hget, hacc⟩ := hmatch hdup
      obtain ⟨hslot, hopen⟩ := getf_eq_some.1 hget
      have hne : f ≠ fp := by
        rintro rfl
        exact absurd hzero (h.pos hopen).ne'
      have hd : d ≠ i := by
        rintro rfl
        rw [hnone] at hopen
        cases hopen
      refine hfail d f (getf_eq_some.2 ⟨hslot, ?_⟩) hne hnodev ?_
      · rw [hu2, setSlot_ofile, if_neg hd, hu1]
        exact hopen
      · rw [hk1, reserve_flag, if_neg hne]
        exact access_or_self hacc

end Outcome

section System

variable {P : Type} [Fintype P] [DecidableEq P] {s : System P}

omit [DecidableEq P] in
theorem System.Accounted.card (h : s.Accounted) (f : Fin nfile) : (s.files.file f).fCount =
    (Finset.univ.filter fun x : P × Fin nofile => s.slot x.1 x.2 = some f).card := by
  rw [h.count, Finset.card_filter, Fintype.sum_prod_type]
  rfl

/-- In every state reached by system calls from the first process on, the count of a file
structure is the number of descriptors for it, none has a count of 0; and an open made
there is sound when it can reserve no slot and file structure, or is not asked to
duplicate a descriptor, or the descriptor is open for just the access requested, and in
no other case. -/
theorem run_accounts_open_sound_iff (fFlag : Fin nfile → UInt32) (p : P) {es : List (P × Call P)}
    (hrun : Run Step (System.start fFlag p) es s) :
    (∀ f, (s.files.file f).fCount =
      (Finset.univ.filter fun x : P × Fin nofile => s.slot x.1 x.2 = some f).card) ∧
    (∀ f, (s.files.file f).fCount = 0 → ∀ q i, s.slot q i ≠ some f) ∧
    ∀ q u, s.user q = some u → ∀ mode v inoLock,
      OpenSound u mode (copen s.files u mode v inoLock) ↔
        ((∃ r, (falloc s.files u).result = .ok r) → DupMatches s.files u mode v) := by
  have h : s.Accounted :=
    hrun.invariant (fun _ _ _ h hstep => h.step hstep) (accounted_start fFlag p)
  refine ⟨h.card, fun f hf q i hslot => ?_, fun q u hq mode v inoLock => ?_⟩
  · rw [h.card, Finset.card_eq_zero, Finset.filter_eq_empty_iff] at hf
    exact hf (Finset.mem_univ (q, i)) hslot
  · exact copen_sound_iff (h.accounts hq) mode v inoLock

end System

/-- The first process opens a file and the fork of it a pipe; all that an open in the
child would return is as it should be when no descriptor is to be duplicated. -/
theorem run_accounts_open_sound_iff_fork :
    let es : List (Fin 2 × Call (Fin 2)) :=
      [(0, .open 2 ⟨0, -1⟩ 0), (0, .fork 1), (1, .pipe 0), (0, .close 0)]
    ∃ s, Run Step (System.start (fun _ => 0) 0) es s ∧
      (∀ f, (s.files.file f).fCount =
        (Finset.univ.filter fun x : Fin 2 × Fin nofile => s.slot x.1 x.2 = some f).card) ∧
      (∀ f, (s.files.file f).fCount = 0 → ∀ q i, s.slot q i ≠ some f) ∧
      ∀ q u, s.user q = some u → ∀ mode v inoLock,
        OpenSound u mode (copen s.files u mode v inoLock) ↔
          ((∃ r, (falloc s.files u).result = .ok r) → DupMatches s.files u mode v) := by
  intro es
  have hrun : ∃ s, Run Step (System.start (fun _ => 0) 0) es s :=
    ⟨_, .cons ⟨_, rfl, rfl⟩ (.cons ⟨_, rfl, rfl, rfl⟩ (.cons ⟨_, rfl, rfl⟩ (.cons ⟨_, rfl, rfl⟩ (.nil _))))⟩
  obtain ⟨s, hs⟩ := hrun
  exact ⟨s, hs, run_accounts_open_sound_iff _ 0 hs⟩

/-- Opening `/dev/fd/5` for reading when no descriptor is open succeeds with descriptor
0, whose slot is empty. -/
theorem open_closed_descriptor_succeeds :
    let s : System (Fin 1) := .start (fun _ => 0) 0
    ∃ u fd, s.user 0 = some u ∧ (∀ i, u.uOfile i = none) ∧ (copen s.files u 0 ⟨enodev, 5⟩ 0).result = .ok fd ∧
      (copen s.files u 0 ⟨enodev, 5⟩ 0).user.uOfile fd = none ∧
      ¬ OpenSound u 0 (copen s.files u 0 ⟨enodev, 5⟩ 0) := by
  refine ⟨_, ⟨0, by decide⟩, rfl, fun _ => rfl, rfl, rfl, ?_⟩
  exact not_openSound_of_empty rfl rfl

end RetroBSD.Descrip
