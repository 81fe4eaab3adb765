import RetroBSD.Counting
import RetroBSD.Descriptors
import RetroBSD.Runs

/-!
# Descriptors and counts agree

Seen from one process, the count of each file structure is the number of its own
descriptors for it and of those of the other processes, and no descriptor lies above
`u_lastfile`. Each call keeps this; so does a fork, which makes another process, and an
exit, which leaves only the others.
-/

namespace RetroBSD.Descrip

open Counting Runs Function List Nat Descrip Option

section Accounts

variable {k : Files} {u u' : User} {rest : Fin nfile → ℕ} {i d : Fin nofile} {f g : Fin nfile}

structure User.Bounded (u : User) : Prop where
  last : ∀ i, u.uOfile i ≠ none → (i.val : ℤ) ≤ u.uLastfile

structure Accounts (k : Files) (u : User) (rest : Fin nfile → ℕ) : Prop extends u.Bounded where
  count : ∀ f, (k.file f).fCount = refs u.uOfile f + rest f

theorem setCount_file (k : Files) (f g : Fin nfile) (n : ℕ) :
    (k.setCount f n).file g = if g = f then { k.file f with fCount := n } else k.file g :=
  update_apply ..

theorem setFlag_file (k : Files) (f g : Fin nfile) (flag : UInt32) :
    (k.setFlag f flag).file g = if g = f then { k.file f with fFlag := flag } else k.file g :=
  update_apply ..

@[simp] theorem setCount_count (k : Files) (f g : Fin nfile) (n : ℕ) :
    ((k.setCount f n).file g).fCount = if g = f then n else (k.file g).fCount := by
  rw [setCount_file]
  split_ifs <;> rfl

@[simp] theorem setCount_flag (k : Files) (f g : Fin nfile) (n : ℕ) :
    ((k.setCount f n).file g).fFlag = (k.file g).fFlag := by
  rw [setCount_file]
  split_ifs with h
  · rw [h]
  · rfl

@[simp] theorem setFlag_count (k : Files) (f g : Fin nfile) (flag : UInt32) :
    ((k.setFlag f flag).file g).fCount = (k.file g).fCount := by
  rw [setFlag_file]
  split_ifs with h
  · rw [h]
  · rfl

@[simp] theorem setFlag_flag (k : Files) (f g : Fin nfile) (flag : UInt32) :
    ((k.setFlag f flag).file g).fFlag = if g = f then flag else (k.file g).fFlag := by
  rw [setFlag_file]
  split_ifs <;> rfl

@[simp] theorem setSlot_ofile (u : User) (i j : Fin nofile) (fp : Option (Fin nfile)) :
    (u.setSlot i fp).uOfile j = if j = i then fp else u.uOfile j :=
  update_apply ..

@[simp] theorem setFlags_ofile (u : User) (i : Fin nofile) (flags : Bool) : (u.setFlags i flags).uOfile = u.uOfile :=
  rfl

@[simp] theorem raiseLast_ofile (u : User) (i : Fin nofile) : (u.raiseLast i).uOfile = u.uOfile := rfl

theorem closef_count {fp : Option (Fin nfile)} (h : ∀ f, fp = some f → 0 < (k.file f).fCount) (g : Fin nfile) :
    ((k.closef fp).file g).fCount + (if fp = some g then 1 else 0) = (k.file g).fCount := by
  cases fp with
  | none => rfl
  | some f =>
    have hpos := h f rfl
    simp only [Files.closef, some.injEq]
    by_cases hg : f = g
    · subst hg
      split_ifs <;> simp <;> omega
    · split_ifs <;> simp [Ne.symm hg]

variable (h : Accounts k u rest)
include h

theorem Accounts.pos (hi : u.uOfile i = some f) : 0 < (k.file f).fCount := by
  rw [h.count]
  exact Nat.add_pos_left (refs_pos hi) _

omit h

theorem lastFrom_ge (t : Fin nofile → Option (Fin nfile)) (n : ℕ) (hi : t i ≠ none) (hn : i.val < n) :
    (i.val : ℤ) ≤ User.lastFrom t n := by
  induction n with
  | zero => omega
  | succ n ih =>
    rw [User.lastFrom]
    split_ifs with hlt hnone
    · refine ih (lt_of_le_of_ne (le_of_lt_succ hn) ?_)
      rintro rfl
      exact hi hnone
    · omega
    · omega

theorem User.Bounded.lowerLast (h : u.Bounded) : u.lowerLast.Bounded where
  last i hi := lastFrom_ge _ _ hi (by have := h.last i hi; omega)

theorem User.Bounded.setSlot_none (h : u.Bounded) (d : Fin nofile) : (u.setSlot d none).Bounded where
  last i hi := by
    rw [setSlot_ofile] at hi
    split_ifs at hi with hd
    · exact absurd rfl hi
    · exact h.last i hi

theorem User.Bounded.raiseLast (h : u.Bounded) (d : Fin nofile) (fp : Option (Fin nfile)) :
    ((u.setSlot d fp).raiseLast d).Bounded where
  last i hi := by
    rw [raiseLast_ofile, setSlot_ofile] at hi
    split_ifs at hi with hd
    · rw [hd]
      exact le_max_right _ _
    · exact le_max_of_le_left (h.last i hi)

include h

theorem Accounts.replace (d : Fin nofile) (fp : Option (Fin nfile)) {k' : Files}
    (hofile : u'.uOfile = update u.uOfile d fp) (hbounded : u'.Bounded)
    (hcount : ∀ g, (k'.file g).fCount = ((k.closef (u.uOfile d)).file g).fCount + if fp = some g then 1 else 0) :
    Accounts k' u' rest where
  toBounded := hbounded
  count g := by
    have hclose := closef_count (fun f (hf : u.uOfile d = some f) => h.pos hf) g
    have hrefs := refs_update u.uOfile d fp g
    rw [hcount, hofile]
    rw [h.count] at hclose
    omega

omit h

theorem Accounts.congr {k' : Files} (h : Accounts k u rest) (hcount : ∀ g, (k'.file g).fCount = (k.file g).fCount)
    (hofile : u'.uOfile = u.uOfile) (hbounded : u'.Bounded) : Accounts k' u' rest where
  toBounded := hbounded
  count g := by rw [hcount, hofile]; exact h.count g

theorem User.Bounded.setFlags (h : u.Bounded) (i : Fin nofile) (flags : Bool) : (u.setFlags i flags).Bounded :=
  ⟨h.last⟩

theorem ufalloc_eq_some {n : ℕ} (h : u.ufalloc n = some (i, u')) :
    u.uOfile i = none ∧ u' = (u.setFlags i false).raiseLast i := by
  rw [User.ufalloc] at h
  split at h
  · next j hj =>
      obtain ⟨rfl, rfl⟩ := Prod.mk.inj (some.inj h)
      have hfound := List.find?_some hj
      exact ⟨(of_decide_eq_true hfound).2, rfl⟩
  · cases h

theorem Accounts.ufalloc {n : ℕ} (h : Accounts k u rest) (halloc : u.ufalloc n = some (i, u')) :
    Accounts k u' rest := by
  obtain ⟨_, rfl⟩ := ufalloc_eq_some halloc
  exact h.congr (fun _ => rfl) rfl ⟨fun j hj => le_max_of_le_left (h.last j hj)⟩

include h

theorem Accounts.dupit (d : Fin nofile) (fp : Fin nfile) (flags : Bool) :
    Accounts (dupit (k.closef (u.uOfile d)) u d fp flags).1 (dupit (k.closef (u.uOfile d)) u d fp flags).2 rest := by
  refine h.replace d (some fp) rfl ?_ fun g => ?_
  · exact ⟨(h.toBounded.raiseLast d (some fp)).last⟩
  · rw [Descrip.dupit, setCount_count]
    by_cases hg : g = fp
    · rw [if_pos hg, if_pos (by rw [hg]), hg]
    · rw [if_neg hg, if_neg (fun hfp => hg (some.inj hfp).symm)]
      rfl

theorem Accounts.dupit_free {n : ℕ} (halloc : u.ufalloc n = some (i, u')) (fp : Fin nfile)
    (flags : Bool) : Accounts (Descrip.dupit k u' i fp flags).1 (Descrip.dupit k u' i fp flags).2 rest := by
  have hdup := (h.ufalloc halloc).dupit i fp flags
  obtain ⟨hnone, rfl⟩ := ufalloc_eq_some halloc
  rwa [show ((u.setFlags i false).raiseLast i).uOfile i = none from hnone] at hdup

theorem Accounts.dup2 (i j : ℤ) :
    Accounts (Descrip.dup2 k u i j).files (Descrip.dup2 k u i j).user rest := by
  rw [Descrip.dup2]
  split
  · exact h
  split
  · exact h
  split
  · exact h
  · exact h.dupit ..

theorem Accounts.dup (i j : ℤ) :
    Accounts (Descrip.dup k u i j).files (Descrip.dup k u i j).user rest := by
  rw [Descrip.dup]
  split
  · exact h.dup2 ..
  split
  · exact h
  split
  · exact h
  · next halloc => exact h.dupit_free halloc ..

theorem Accounts.fcntlDupfd (fdes arg : ℤ) :
    Accounts (Descrip.fcntlDupfd k u fdes arg).files (Descrip.fcntlDupfd k u fdes arg).user rest := by
  rw [Descrip.fcntlDupfd]
  split
  · exact h
  split
  · exact h
  split
  · exact h
  · next halloc => exact h.dupit_free halloc ..

theorem Accounts.fcntlSetfd (fdes : ℤ) (exclose : Bool) :
    Accounts (Descrip.fcntlSetfd k u fdes exclose).files (Descrip.fcntlSetfd k u fdes exclose).user rest := by
  rw [Descrip.fcntlSetfd]
  split
  · exact h
  · exact h.congr (fun _ => rfl) rfl (h.toBounded.setFlags ..)

omit h in
theorem getf_eq_some {fd : ℤ} : u.getf fd = some (i, f) ↔ User.slot fd = some i ∧ u.uOfile i = some f := by
  rw [User.getf]
  split
  · next hslot => simp [hslot]
  · next j hslot =>
      rw [hslot, map_eq_some_iff, some.injEq]
      constructor
      · rintro ⟨f', hf', heq⟩
        obtain ⟨rfl, rfl⟩ := Prod.mk.inj heq
        exact ⟨rfl, hf'⟩
      · rintro ⟨rfl, hf⟩
        exact ⟨f, hf, rfl⟩

theorem Accounts.closeSlot (d : Fin nofile) :
    Accounts (Descrip.closeSlot (k, u) d).1 (Descrip.closeSlot (k, u) d).2 rest := by
  refine h.replace d none rfl ?_ fun _ => rfl
  exact (h.toBounded.setSlot_none d).setFlags ..

theorem Accounts.close (fd : ℤ) :
    Accounts (Descrip.close k u fd).files (Descrip.close k u fd).user rest := by
  rw [Descrip.close]
  split
  · exact h
  · next i fp hget =>
      obtain ⟨_, hi⟩ := getf_eq_some.1 hget
      refine h.replace i none rfl (h.toBounded.setSlot_none i).lowerLast fun g => ?_
      rw [hi]
      rfl

theorem Accounts.drop (hi : u.uOfile i = some f) (hone : (k.file f).fCount = 1) :
    Accounts (k.setCount f 0) (u.setSlot i none) rest := by
  refine h.replace i none rfl (h.toBounded.setSlot_none i) fun g => ?_
  rw [hi, Files.closef, if_neg (by omega)]
  rfl

omit h in
theorem falloc_cases (k : Files) (u : User) :
    (∃ e u1, falloc k u = ⟨k, u1, .error e⟩ ∧ u1.uOfile = u.uOfile ∧ (u.Bounded → u1.Bounded)) ∨
    ∃ i u1 fp, falloc k u = ⟨{ k.setCount fp 1 with lastf := fp + 1 }, u1.setSlot i (some fp), .ok (i, fp)⟩ ∧
      u.ufalloc 0 = some (i, u1) ∧ (k.file fp).fCount = 0 := by
  rw [falloc]
  split
  · exact .inl ⟨_, u, rfl, rfl, id⟩
  · next i u1 halloc =>
      split
      · obtain ⟨_, rfl⟩ := ufalloc_eq_some halloc
        exact .inl ⟨_, _, rfl, rfl, fun hb => ⟨fun j hj => le_max_of_le_left (hb.last j hj)⟩⟩
      · next fp hfp =>
          have hfound := List.find?_some hfp
          exact .inr ⟨i, u1, fp, rfl, halloc, of_decide_eq_true hfound⟩

theorem Accounts.falloc : Accounts (falloc k u).files (falloc k u).user rest := by
  rcases falloc_cases k u with ⟨e, u1, heq, hofile, hbounded⟩ | ⟨i, u1, fp, heq, halloc, hzero⟩
  · rw [heq]
    exact h.congr (fun _ => rfl) hofile (hbounded h.toBounded)
  · rw [heq]
    obtain ⟨hnone, rfl⟩ := ufalloc_eq_some halloc
    refine h.replace i (some fp) rfl ⟨(h.toBounded.raiseLast i (some fp)).last⟩ fun g => ?_
    rw [hnone]
    show ((k.setCount fp 1).file g).fCount = (k.file g).fCount + _
    rw [setCount_count]
    by_cases hg : g = fp
    · rw [if_pos hg, if_pos (by rw [hg]), hg, hzero]
    · rw [if_neg hg, if_neg (fun hfp => hg (some.inj hfp).symm)]
      rfl

omit h

theorem dupfdopen_cases (k : Files) (u : User) (indx : Fin nofile) (dfd : ℤ) (mode : UInt32) {error : ℕ}
    (herror : error ≠ 0) :
    (∃ e, dupfdopen k u indx dfd mode error = (k, u, e) ∧ e ≠ 0 ∧ ∀ d wfp, u.getf dfd = some (d, wfp) →
      u.uOfile indx ≠ some wfp → error = enodev → access mode ||| (k.file wfp).fFlag ≠ (k.file wfp).fFlag) ∨
    ∃ d wfp, dupfdopen k u indx dfd mode error = (k.setCount wfp ((k.file wfp).fCount + 1),
        ((u.setSlot indx (some wfp)).setFlags indx (u.uPofile d)).raiseLast indx, 0) ∧
      u.getf dfd = some (d, wfp) ∧ u.uOfile indx ≠ some wfp ∧ error = enodev := by
  rw [dupfdopen]
  split
  · next hget => exact .inl ⟨_, rfl, by decide, fun d wfp h => by rw [hget] at h; cases h⟩
  · next d wfp hget =>
      have hunique : ∀ d' wfp', u.getf dfd = some (d', wfp') → wfp' = wfp := by
        intro d' wfp' h
        rw [hget] at h
        exact (Prod.mk.inj (some.inj h)).2.symm
      split_ifs with hsame hnodev hmode
      · exact .inl ⟨_, rfl, by decide, fun d' wfp' h hne => absurd (hunique d' wfp' h ▸ hsame) hne⟩
      · exact .inl ⟨_, rfl, by decide, fun d' wfp' h _ _ => hunique d' wfp' h ▸ hmode⟩
      · exact .inr ⟨d, wfp, rfl, hget, hsame, hnodev⟩
      · exact .inl ⟨_, rfl, herror, fun _ _ _ _ h => absurd h hnodev⟩

def VnOpen.AsksDup (v : VnOpen) : Prop := (v.error = enodev ∨ v.error = enxio) ∧ v.dupfd ≥ 0

def Files.reserve (k : Files) (fp : Fin nfile) (flag : UInt32) : Files :=
  { k.setCount fp 1 with lastf := fp + 1 }.setFlag fp flag

theorem reserve_count (k : Files) (fp g : Fin nfile) (flag : UInt32) :
    ((k.reserve fp flag).file g).fCount = if g = fp then 1 else (k.file g).fCount := by
  rw [Files.reserve, setFlag_count]
  exact setCount_count ..

theorem reserve_flag (k : Files) (fp g : Fin nfile) (flag : UInt32) :
    ((k.reserve fp flag).file g).fFlag = if g = fp then flag else (k.file g).fFlag := by
  rw [Files.reserve, setFlag_flag]
  split_ifs
  · rfl
  · exact setCount_flag ..

/-- The ways in which `copen` ends. In the last one `dupfdopen` has failed. -/
theorem copen_cases (k : Files) (u : User) (mode : UInt32) (v : VnOpen) (inoLock : ℕ) :
    (∃ e u1, falloc k u = ⟨k, u1, .error e⟩ ∧ copen k u mode v inoLock = ⟨k, u1, .error e⟩ ∧
      u1.uOfile = u.uOfile ∧ (u.Bounded → u1.Bounded)) ∨
    ∃ i u1 fp k1 u2, falloc k u = ⟨{ k.setCount fp 1 with lastf := fp + 1 }, u2, .ok (i, fp)⟩ ∧
      u.ufalloc 0 = some (i, u1) ∧ (k.file fp).fCount = 0 ∧ k1 = k.reserve fp (fflags mode &&& fmask) ∧
      u2 = u1.setSlot i (some fp) ∧
      ((∃ e, copen k u mode v inoLock = ⟨k1.setCount fp 0, u2.setSlot i none, .error e⟩ ∧ ¬ v.AsksDup) ∨
      (copen k u mode v inoLock = ⟨k1, u2, .ok i⟩ ∧ ¬ v.AsksDup) ∨
      (∃ d wfp, copen k u mode v inoLock = ⟨(k1.setCount fp 0).setCount wfp ((k1.file wfp).fCount + 1),
        ((u2.setSlot i (some wfp)).setFlags i (u2.uPofile d)).raiseLast i, .ok i⟩ ∧ v.AsksDup ∧ v.error = enodev ∧
        u2.getf v.dupfd = some (d, wfp) ∧ wfp ≠ fp) ∨
      (copen k u mode v inoLock = ⟨k1.setCount fp 0, u2.setSlot i none, .ok i⟩ ∧ v.AsksDup ∧
        ∀ d wfp, u2.getf v.dupfd = some (d, wfp) → wfp ≠ fp → v.error = enodev →
          access (fflags mode) ||| (k1.file wfp).fFlag ≠ (k1.file wfp).fFlag)) := by
  rcases falloc_cases k u with ⟨e, u1, heq, hofile, hbounded⟩ | ⟨i, u1, fp, heq, halloc, hzero⟩
  · refine .inl ⟨e, u1, heq, ?_, hofile, hbounded⟩
    rw [copen, heq]
  · refine .inr ⟨i, u1, fp, _, _, heq, halloc, hzero, rfl, rfl, ?_⟩
    set k1 := k.reserve fp (fflags mode &&& fmask) with hk1
    set u2 := u1.setSlot i (some fp)
    have hslot : u2.uOfile i = some fp := by rw [setSlot_ofile, if_pos rfl]
    have hone : (k1.file fp).fCount = 1 := by rw [reserve_count, if_pos rfl]
    rw [copen, heq]
    simp only [show { k.setCount fp 1 with lastf := fp + 1 }.setFlag fp (fflags mode &&& fmask) = k1 from hk1.symm]
    by_cases herror : v.error = 0
    · have hno : ¬ v.AsksDup := by
        rintro ⟨hcode | hcode, _⟩ <;> rw [herror] at hcode <;> exact absurd hcode (by decide)
      rw [if_neg (not_not.2 herror)]
      split_ifs with hlock
      · refine .inl ⟨inoLock, ?_, hno⟩
        simp only [Files.closef, hone, openReturn, if_neg hlock.2]
        rfl
      · exact .inr (.inl ⟨rfl, hno⟩)
    rw [if_pos herror]
    by_cases hdup : (v.error = enodev ∨ v.error = enxio) ∧ v.dupfd ≥ 0
    · rw [if_pos hdup]
      refine .inr (.inr ?_)
      rcases dupfdopen_cases (k1.setCount fp 0) u2 i v.dupfd (fflags mode) herror with
        ⟨e, hfail, he, hreason⟩ | ⟨d, wfp, hsucc, hget, hne, hnodev⟩
      · refine .inr ⟨?_, hdup, fun d wfp hget hne hnodev => ?_⟩
        · rw [hfail, if_neg he]
          rfl
        · have hflag := hreason d wfp hget (fun heq => hne (some.inj (heq.symm.trans hslot))) hnodev
          rwa [setCount_flag] at hflag
      · have hwfp : wfp ≠ fp := fun heq => hne (heq ▸ hslot)
        refine .inl ⟨d, wfp, ?_, hdup, hnodev, hget, hwfp⟩
        rw [hsucc, setCount_count, if_neg hwfp]
        rfl
    · rw [if_neg hdup]
      refine .inl ⟨v.error, ?_, hdup⟩
      rw [openReturn, if_neg herror]

include h

theorem Accounts.copen (mode : UInt32) (v : VnOpen) (inoLock : ℕ) :
    Accounts (copen k u mode v inoLock).files (copen k u mode v inoLock).user rest := by
  rcases copen_cases k u mode v inoLock with
    ⟨e, u1, _, heq, hofile, hbounded⟩ | ⟨i, u1, fp, k1, u2, hfalloc, halloc, hzero, hk1, hu2, hcases⟩
  · rw [heq]
    exact h.congr (fun _ => rfl) hofile (hbounded h.toBounded)
  have hslot : u2.uOfile i = some fp := by rw [hu2, setSlot_ofile, if_pos rfl]
  have hone : (k1.file fp).fCount = 1 := by rw [hk1, reserve_count, if_pos rfl]
  have hreserved : Accounts k1 u2 rest := by
    have hnew := h.falloc
    rw [hfalloc] at hnew
    refine hnew.congr (fun g => ?_) rfl hnew.toBounded
    rw [hk1]
    exact setFlag_count ..
  have hdrop := hreserved.drop hslot hone
  rcases hcases with ⟨e, heq, _⟩ | ⟨heq, _⟩ | ⟨d, wfp, heq, _, _, -, hne⟩ | ⟨heq, _⟩
  · rw [heq]
    exact hdrop
  · rw [heq]
    exact hreserved
  · rw [heq]
    refine hdrop.replace i (some wfp) ?_ ?_ fun g => ?_
    · exact (update_idem ..).symm
    · exact ⟨(hreserved.toBounded.raiseLast i (some wfp)).last⟩
    · rw [setSlot_ofile, if_pos rfl, setCount_count]
      by_cases hg : g = wfp
      · rw [if_pos hg, if_pos (by rw [hg]), hg]
        show _ = ((k1.setCount fp 0).file wfp).fCount + 1
        rw [setCount_count, if_neg hne]
      · rw [if_neg hg, if_neg (fun hwfp => hg (some.inj hwfp).symm)]
        rfl
  · rw [heq]
    exact hdrop

theorem Accounts.pipe (ialloc : ℕ) :
    Accounts (Descrip.pipe k u ialloc).files (Descrip.pipe k u ialloc).user rest := by
  rw [Descrip.pipe]
  split_ifs
  · exact h
  have hfirst := h.falloc
  rcases falloc_cases k u with ⟨e, u1, heq, _⟩ | ⟨r, u1, rf, heq, -, _⟩
  · rw [heq] at hfirst ⊢
    exact hfirst
  rw [heq] at hfirst ⊢
  have hslot : (u1.setSlot r (some rf)).uOfile r = some rf := by rw [setSlot_ofile, if_pos rfl]
  have hsecond := hfirst.falloc
  simp only [] at hsecond ⊢
  rcases falloc_cases { k.setCount rf 1 with lastf := rf + 1 } (u1.setSlot r (some rf)) with
    ⟨e, u2, heq2, hofile, _⟩ | ⟨w, u2, wf, heq2, _, _⟩
  · rw [heq2] at hsecond ⊢
    refine hsecond.drop (hofile ▸ hslot) ?_
    rw [setCount_count, if_pos rfl]
  · rw [heq2] at hsecond ⊢
    exact hsecond.congr (fun g => by rw [setFlag_count, setFlag_count]) rfl hsecond.toBounded

omit h in
theorem mem_used (h : u.Bounded) (hi : u.uOfile i ≠ none) : i ∈ u.used :=
  mem_filter.2 ⟨mem_finRange i, decide_eq_true (h.last i hi)⟩

theorem Accounts.execClose : Accounts (execClose k u).1 (execClose k u).2 rest := by
  have hloop : ∀ (l : List (Fin nofile)) (r : Files × User), Accounts r.1 r.2 rest →
      Accounts (l.foldl execSlot r).1 (l.foldl execSlot r).2 rest := by
    intro l
    induction l with
    | nil => exact fun r hr => hr
    | cons i l ih =>
      intro r hr
      apply ih
      rw [execSlot]
      split_ifs
      · exact hr.closeSlot i
      · exact hr
  have hdone := hloop u.used (k, u) h
  exact hdone.congr (fun _ => rfl) rfl hdone.toBounded.lowerLast

theorem Accounts.exit (f : Fin nfile) : ((exit k u).file f).fCount = rest f := by
  have hloop : ∀ (l : List (Fin nofile)) (r : Files × User), Accounts r.1 r.2 rest →
      Accounts (l.foldl Descrip.closeSlot r).1 (l.foldl Descrip.closeSlot r).2 rest ∧
        ∀ i, (l.foldl Descrip.closeSlot r).2.uOfile i = if i ∈ l then none else r.2.uOfile i := by
    intro l
    induction l with
    | nil => exact fun r hr => ⟨hr, fun i => by simp⟩
    | cons i l ih =>
      intro r hr
      obtain ⟨hacc, hofile⟩ := ih _ (hr.closeSlot i)
      refine ⟨hacc, fun j => ?_⟩
      have hj : (Descrip.closeSlot r i).2.uOfile j = if j = i then none else r.2.uOfile j := setSlot_ofile ..
      rw [foldl_cons, hofile, hj]
      by_cases hjl : j ∈ l
      · simp [hjl]
      · by_cases hji : j = i <;> simp [hjl]
  obtain ⟨hacc, hofile⟩ := hloop u.used (k, u) h
  have hnone : ∀ i, (u.used.foldl Descrip.closeSlot (k, u)).2.uOfile i ≠ some f := by
    intro i hi
    rw [hofile] at hi
    split_ifs at hi with hmem
    exact hmem (mem_used h.toBounded (by rw [hi]; simp))
  have hcount := hacc.count f
  rw [refs_eq_zero hnone, zero_add] at hcount
  exact hcount

omit h

theorem incref_count (k : Files) (fp : Option (Fin nfile)) (f : Fin nfile) :
    ((k.incref fp).file f).fCount = (k.file f).fCount + if fp = some f then 1 else 0 := by
  cases fp with
  | none => simp [Files.incref]
  | some g =>
    rw [Files.incref]
    by_cases hf : f = g
    · simp [hf]
    · simp [hf, Ne.symm hf]

theorem newprocLoop_count (u : User) (l : List (Fin nofile)) (k : Files) (f : Fin nfile) :
    ((l.foldl (fun k i => k.incref (u.uOfile i)) k).file f).fCount =
      (k.file f).fCount + (l.map fun i => if u.uOfile i = some f then 1 else 0).sum := by
  induction l generalizing k with
  | nil => rfl
  | cons i l ih => rw [foldl_cons, ih, incref_count, map_cons, sum_cons, add_assoc]

theorem newproc_count (h : u.Bounded) (k : Files) (f : Fin nfile) :
    ((newproc k u).file f).fCount = (k.file f).fCount + refs u.uOfile f := by
  have hused : ∀ l : List (Fin nofile), ((l.filter fun i => (i.val : ℤ) ≤ u.uLastfile).map fun i =>
      if u.uOfile i = some f then 1 else 0).sum = (l.map fun i => if u.uOfile i = some f then 1 else 0).sum := by
    intro l
    induction l with
    | nil => rfl
    | cons i l ih =>
      rw [filter_cons]
      split_ifs with hi
      · rw [map_cons, map_cons, sum_cons, sum_cons, ih]
      · have hnone : u.uOfile i = none := by
          by_contra hne
          exact hi (decide_eq_true (h.last i hne))
        rw [map_cons, ih, hnone]
        simp
  rw [newproc, newprocLoop_count, User.used, hused, refs, Fin.sum_univ_def]

end Accounts

section System

variable {P : Type} [Fintype P] {s s' : System P} {u : User} {p : P}

def System.slot (s : System P) (p : P) (i : Fin nofile) : Option (Fin nfile) := (s.user p).bind fun u => u.uOfile i

def userRefs (v : Option User) (f : Fin nfile) : ℕ := refs (fun i => v.bind fun u => u.uOfile i) f

theorem userRefs_none (f : Fin nfile) : userRefs none f = 0 := refs_eq_zero fun _ => by simp

theorem userRefs_some (u : User) (f : Fin nfile) : userRefs (some u) f = refs u.uOfile f := rfl

structure System.Accounted (s : System P) : Prop where
  count : ∀ f, (s.files.file f).fCount = ∑ p, userRefs (s.user p) f
  bounded : ∀ p u, s.user p = some u → u.Bounded

variable [DecidableEq P]

def System.others (s : System P) (p : P) (f : Fin nfile) : ℕ :=
  ∑ q, update (fun q => userRefs (s.user q) f) p 0 q

theorem sum_userRefs (s : System P) (p : P) (v : Option User) (f : Fin nfile) :
    ∑ q, userRefs (update s.user p v q) f = userRefs v f + s.others p f := by
  have hupdate : (fun q => userRefs (update s.user p v q) f) =
      update (fun q => userRefs (s.user q) f) p (userRefs v f) := by
    funext q
    exact apply_update (fun _ x => userRefs x f) s.user p v q
  rw [hupdate, sum_update, add_comm]
  rfl

theorem System.Accounted.accounts (h : s.Accounted) (hp : s.user p = some u) : Accounts s.files u (s.others p) where
  last := (h.bounded p u hp).last
  count f := by
    have hsum := sum_userRefs s p (some u) f
    rw [← hp, update_eq_self] at hsum
    rw [h.count, hsum, hp, userRefs_some]

theorem System.Accounted.update (h : s.Accounted) {k : Files} {v : Option User}
    (hcount : ∀ f, (k.file f).fCount = userRefs v f + s.others p f) (hbounded : ∀ u, v = some u → u.Bounded) :
    System.Accounted ⟨k, Function.update s.user p v⟩ where
  count f := by rw [sum_userRefs]; exact hcount f
  bounded q u hq := by
    replace hq : Function.update s.user p v q = some u := hq
    rw [update_apply] at hq
    split_ifs at hq
    · exact hbounded u hq
    · exact h.bounded q u hq

theorem System.Accounted.call (h : s.Accounted) {r : Files × User} (hr : Accounts r.1 r.2 (s.others p)) :
    System.Accounted ⟨r.1, Function.update s.user p (some r.2)⟩ :=
  h.update hr.count fun _ hu => some.inj hu ▸ hr.toBounded

theorem System.Accounted.step {ev : P × Call P} (h : s.Accounted) (hstep : Step s ev s') : s'.Accounted := by
  obtain ⟨p, c⟩ := ev
  obtain ⟨u, hp, hstep⟩ := hstep
  have hacc := h.accounts hp
  cases c with
  | «open» mode v inoLock => exact hstep ▸ h.call (hacc.copen mode v inoLock)
  | dup i j => exact hstep ▸ h.call (hacc.dup i j)
  | dup2 i j => exact hstep ▸ h.call (hacc.dup2 i j)
  | fcntlDupfd fdes arg => exact hstep ▸ h.call (hacc.fcntlDupfd fdes arg)
  | fcntlSetfd fdes exclose => exact hstep ▸ h.call (hacc.fcntlSetfd fdes exclose)
  | close fd => exact hstep ▸ h.call (hacc.close fd)
  | pipe ialloc => exact hstep ▸ h.call (hacc.pipe ialloc)
  | exec => exact hstep ▸ h.call hacc.execClose
  | fork child =>
    obtain ⟨hchild, rfl⟩ := hstep
    refine h.update (fun f => ?_) fun u' hu' => some.inj hu' ▸ hacc.toBounded
    have hsum := sum_userRefs s child none f
    rw [← hchild, update_eq_self, ← h.count, hchild, userRefs_none, zero_add] at hsum
    rw [← hsum, add_comm]
    exact newproc_count hacc.toBounded s.files f
  | exit =>
    rw [show s' = _ from hstep]
    refine h.update (fun f => ?_) (by simp)
    rw [userRefs_none, zero_add]
    exact hacc.exit f

def System.start (fFlag : Fin nfile → UInt32) (p : P) : System P where
  files := ⟨fun f => ⟨0, fFlag f⟩, 0⟩
  user q := if q = p then some ⟨fun _ => none, fun _ => false, -1⟩ else none

theorem accounted_start (fFlag : Fin nfile → UInt32) (p : P) : (System.start fFlag p).Accounted where
  count f := by
    symm
    apply Finset.sum_eq_zero
    intro q _
    simp only [System.start]
    split_ifs
    · exact refs_eq_zero fun _ => by simp
    · exact userRefs_none f
  bounded q u hq := by
    simp only [System.start] at hq
    split_ifs at hq
    cases hq
    exact ⟨fun i hi => absurd rfl hi⟩

end System

end RetroBSD.Descrip
