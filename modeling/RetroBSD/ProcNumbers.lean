import RetroBSD.ProcTable
import Mathlib

/-!
# The choice of a process number

`newproc` takes the next number, and looks through the table when that may be in use. A
process whose group has the number under consideration is passed with the number after it,
which is not compared with the number of that very process: this is where a number in use
can be chosen.
-/

namespace RetroBSD.Procs.Table

open Finset

variable {t : Table} {ps : List Slot} {m m' c c' s : ℤ} {fuel : ℕ} {p : Slot}

/-- The number of a process does not follow that of its group. -/
def Apart (x : Proc) : Prop := 0 < x.pPgrp → x.pPgrp + 1 ≠ x.pPid

def Spaced (x : Proc) : Prop := Apart x ∧ (0 < x.pPid → x.pPid + 1 ≠ x.pPgrp)

def Used (t : Table) (p : Slot) : Prop := p ∈ t.list .allproc ∨ p ∈ t.list .zombproc

def InTable (t : Table) (x : ℤ) : Prop := ∃ p, (t.proc p).pPid = x ∨ (t.proc p).pPgrp = x

/-- One process of the scan that does not make it start over. -/
structure Scanned (t : Table) (p : Slot) (m c m' c' : ℤ) : Prop where
  le : m ≤ m'
  lt : m' < c'
  checked : c' ≤ c
  used : ∀ x, m ≤ x → x < m' → t.InTable x
  apart : 0 < m → Apart (t.proc p) → (t.proc p).pPid < m' ∨ c' ≤ (t.proc p).pPid
  spaced : 0 < m → Spaced (t.proc p) → (t.proc p).pPgrp < m' ∨ c' ≤ (t.proc p).pPgrp

theorem pidScan_cons (t : Table) (p : Slot) (ps : List Slot) (hmc : m < c) :
    (∃ m', t.pidScan (p :: ps) m c = (true, m', c) ∧ m' = m + 1 ∧ c ≤ m' ∧ t.InTable m) ∨
      ∃ m' c', t.pidScan (p :: ps) m c = t.pidScan ps m' c' ∧ Scanned t p m c m' c' := by
  set x := t.proc p with hx
  rw [pidScan]
  by_cases hused : x.pPid = m ∨ x.pPgrp = m
  · have hin : t.InTable m := ⟨p, hx ▸ hused⟩
    by_cases hend : c ≤ m + 1
    · rw [if_pos ⟨hused, hend⟩]
      exact .inl ⟨m + 1, rfl, rfl, hend, hin⟩
    · rw [if_neg fun h => hend h.2, if_pos hused]
      refine .inr ⟨_, _, rfl, ?_⟩
      constructor
      · omega
      · split_ifs <;> omega
      · split_ifs <;> omega
      · intro y hy hym
        obtain rfl : y = m := by omega
        exact hin
      · intro hm hapart
        rw [← hx] at hapart ⊢
        rw [Apart] at hapart
        by_cases hg : x.pPgrp = m
        · split_ifs <;> omega
        · have hpid := hused.resolve_right hg
          omega
      · intro hm hspaced
        rw [← hx] at hspaced ⊢
        by_cases hpid : x.pPid = m
        · have hne := hspaced.2 (by omega)
          split_ifs <;> omega
        · omega
  · rw [if_neg fun h => hused h.1, if_neg hused]
    refine .inr ⟨_, _, rfl, ?_⟩
    constructor
    · omega
    · split_ifs <;> omega
    · split_ifs <;> omega
    · omega
    all_goals
      rw [← hx]
      split_ifs <;> omega

/-- What a scan that comes to the end has found. -/
structure Scan (t : Table) (ps : List Slot) (m c m' c' : ℤ) : Prop where
  le : m ≤ m'
  lt : m' < c'
  checked : c' ≤ c
  used : ∀ x, m ≤ x → x < m' → t.InTable x
  apart : 0 < m → ∀ p ∈ ps, Apart (t.proc p) → (t.proc p).pPid < m' ∨ c' ≤ (t.proc p).pPid
  spaced : 0 < m → ∀ p ∈ ps, Spaced (t.proc p) → (t.proc p).pPgrp < m' ∨ c' ≤ (t.proc p).pPgrp

theorem pidScan_spec (t : Table) (ps : List Slot) (hmc : m < c) :
    (∃ m' c', t.pidScan ps m c = (true, m', c') ∧ m < m' ∧ c' ≤ m' ∧ ∀ x, m ≤ x → x < m' → t.InTable x) ∨
      ∃ m' c', t.pidScan ps m c = (false, m', c') ∧ Scan t ps m c m' c' := by
  induction ps generalizing m c with
  | nil =>
    refine .inr ⟨m, c, rfl, le_rfl, hmc, le_rfl, fun x hx hxm => ?_, fun _ p hp => absurd hp List.not_mem_nil,
      fun _ p hp => absurd hp List.not_mem_nil⟩
    omega
  | cons p ps ih =>
    rcases pidScan_cons t p ps hmc with ⟨m1, heq, rfl, hend, hin⟩ | ⟨m1, c1, heq, h1⟩
    · refine .inl ⟨m + 1, c, heq, by omega, hend, fun x hx hxm => ?_⟩
      obtain rfl : x = m := by omega
      exact hin
    · have hle := h1.le
      have hused : ∀ m2, (∀ x, m1 ≤ x → x < m2 → t.InTable x) → ∀ x, m ≤ x → x < m2 → t.InTable x := by
        intro m2 h2 x hx hxm
        rcases lt_or_ge x m1 with hlt | hge
        · exact h1.used x hx hlt
        · exact h2 x hge hxm
      rw [heq]
      rcases ih h1.lt with ⟨m2, c2, heq2, hlt, hend, hin⟩ | ⟨m2, c2, heq2, h2⟩
      · exact .inl ⟨m2, c2, heq2, by omega, hend, hused m2 hin⟩
      · have hle2 := h2.le
        have hc2 := h2.checked
        refine .inr ⟨m2, c2, heq2, by omega, h2.lt, hc2.trans h1.checked, hused m2 h2.used, ?_, ?_⟩
        · intro hm q hq hapart
          rcases List.mem_cons.1 hq with rfl | hq
          · have := h1.apart hm hapart
            omega
          · exact h2.apart (by omega) q hq hapart
        · intro hm q hq hspaced
          rcases List.mem_cons.1 hq with rfl | hq
          · have := h1.spaced hm hspaced
            omega
          · exact h2.spaced (by omega) q hq hspaced

theorem run_of_numbers (h : ∀ x, s ≤ x → x < m → t.InTable x) : m - s ≤ 2 * nproc := by
  have hsub : Finset.Ico s m ⊆ (Finset.univ.image fun p => (t.proc p).pPid) ∪
      Finset.univ.image fun p => (t.proc p).pPgrp := by
    intro x hx
    obtain ⟨hsx, hxm⟩ := mem_Ico.1 hx
    obtain ⟨p, hp | hp⟩ := h x hsx hxm
    · exact mem_union_left _ (mem_image.2 ⟨p, mem_univ p, hp⟩)
    · exact mem_union_right _ (mem_image.2 ⟨p, mem_univ p, hp⟩)
  have hcard := (card_le_card hsub).trans (card_union_le _ _)
  have hpid : (Finset.univ.image fun p => (t.proc p).pPid).card ≤ nproc := by
    simpa using (card_image_le (s := Finset.univ) (f := fun p : Slot => (t.proc p).pPid))
  have hgrp : (Finset.univ.image fun p => (t.proc p).pPgrp).card ≤ nproc := by
    simpa using (card_image_le (s := Finset.univ) (f := fun p : Slot => (t.proc p).pPgrp))
  rw [Int.card_Ico] at hcard
  omega

/-- What is known of a number that has been chosen, and of the next one to look out for. -/
structure Chosen (t : Table) (m c : ℤ) : Prop where
  pos : 0 < m
  bound : m < 30000
  lt : m < c
  checked : c ≤ 30000
  fresh : (∀ p ∈ t.list .allproc, Apart (t.proc p)) →
    ∀ p ∈ t.list .allproc, (t.proc p).pPid < m ∨ c ≤ (t.proc p).pPid
  clear : ∀ p, t.Used p → Spaced (t.proc p) → ((t.proc p).pPid < m ∨ c ≤ (t.proc p).pPid) ∧
    ((t.proc p).pPgrp < m ∨ c ≤ (t.proc p).pPgrp)

theorem Scan.chosen (h : Scan t (t.list .allproc ++ t.list .zombproc) m 30000 m' c') (hm : 0 < m) :
    Chosen t m' c' where
  pos := hm.trans_le h.le
  bound := h.lt.trans_le h.checked
  lt := h.lt
  checked := h.checked
  fresh hapart p hp := h.apart hm p (List.mem_append_left _ hp) (hapart p hp)
  clear p hp hspaced :=
    ⟨h.apart hm p (List.mem_append.2 hp) hspaced.1, h.spaced hm p (List.mem_append.2 hp) hspaced⟩

theorem choosePid_succ (t : Table) (fuel : ℕ) {r : ℤ × ℤ} (hr : r = if 30000 ≤ m then (100, 0) else (m, c))
    (hscan : r.2 ≤ r.1) (hbound : r.1 < 30000) (hpos : 0 < r.1) :
    (∃ m' c', t.choosePid (fuel + 1) m c = some (m', c') ∧ Chosen t m' c') ∨
      ∃ m' c', t.choosePid (fuel + 1) m c = t.choosePid fuel m' c' ∧ r.1 < m' ∧ c' ≤ m' ∧
        ∀ x, r.1 ≤ x → x < m' → t.InTable x := by
  rw [choosePid, ← hr, if_pos hscan]
  rcases pidScan_spec t (t.list .allproc ++ t.list .zombproc) hbound with ⟨m', c', heq, h⟩ | ⟨m', c', heq, h⟩
  · rw [heq]
    exact .inr ⟨m', c', rfl, h⟩
  · rw [heq]
    exact .inl ⟨m', c', rfl, h.chosen hpos⟩

/-- The table is gone through once for each number in a row that is in use, and the count starts
anew at most once: not at all when it began far from the largest number. -/
theorem choosePid_scan (hs : 0 < s) (hsm : s ≤ m) (hcm : c ≤ m ∨ 30000 ≤ m)
    (hused : ∀ x, s ≤ x → x < m → t.InTable x)
    (hfuel : s + 2 * nproc < 30000 ∧ 2 * nproc < fuel + (m - s) ∨ 2 * (2 * nproc + 1) ≤ fuel + (m - s)) :
    ∃ m' c', t.choosePid fuel m c = some (m', c') ∧ Chosen t m' c' := by
  induction fuel generalizing s m c with
  | zero =>
    have := run_of_numbers hused
    omega
  | succ fuel ih =>
    have hrun := run_of_numbers hused
    by_cases hwrap : 30000 ≤ m
    · have hr : ((100, 0) : ℤ × ℤ) = if 30000 ≤ m then (100, 0) else (m, c) := (if_pos hwrap).symm
      rcases choosePid_succ t fuel hr (by decide) (by decide) (by decide) with
        hdone | ⟨m', c', heq, hlt, hcm', hin⟩
      · exact hdone
      · rw [heq]
        exact ih (by decide) (by omega) (.inl hcm') hin (.inl ⟨by decide, by omega⟩)
    · have hr : (m, c) = if 30000 ≤ m then (100, 0) else (m, c) := (if_neg hwrap).symm
      rcases choosePid_succ t fuel hr (hcm.resolve_right hwrap) (by omega) (by omega) with
        hdone | ⟨m', c', heq, hlt, hcm', hin⟩
      · exact hdone
      · rw [heq]
        refine ih hs (by omega) (.inl hcm') (fun x hx hxm => ?_) (by omega)
        rcases lt_or_ge x m with hxm' | hxm'
        · exact hused x hx hxm'
        · exact hin x hxm' hxm

/-- The numbers between the last one given out and `pidchecked` are not in use. -/
structure Counted (t : Table) : Prop where
  nonneg : 0 ≤ t.mpid
  bound : t.mpid < 30000
  checked : t.pidchecked ≤ 30000
  gap : ∀ p ∈ t.list .allproc, (t.proc p).pPid ≤ t.mpid ∨ t.pidchecked ≤ (t.proc p).pPid

def Scans (t : Table) : Prop := t.pidchecked ≤ t.mpid + 1 ∨ 30000 ≤ t.mpid + 1

/-- No live process has the number after that of its group when the table is looked through. -/
def ForkSafe (t : Table) : Prop := t.Scans → ∀ p ∈ t.list .allproc, Apart (t.proc p)

theorem choosePid_next (t : Table) (hc : m < c) (hb : m < 30000) : t.choosePid pidRetries m c = some (m, c) := by
  have hr : (m, c) = if 30000 ≤ m then (100, 0) else (m, c) := (if_neg (not_le.2 hb)).symm
  rw [show pidRetries = 101 + 1 from rfl, choosePid, ← hr]
  exact if_neg (not_le.2 hc)

theorem choosePid_of_scan {r r' : ℤ × ℤ} (hr : r = if 30000 ≤ m then (100, 0) else (m, c)) (hscan : r.2 ≤ r.1)
    (hfound : t.pidScan (t.list .allproc ++ t.list .zombproc) r.1 30000 = (false, r')) :
    t.choosePid pidRetries m c = some r' := by
  rw [show pidRetries = 101 + 1 from rfl, choosePid, ← hr, if_pos hscan, hfound]

theorem choosePid_chosen (h : t.Counted) (hscan : t.Scans) :
    ∃ m c, t.choosePid pidRetries (t.mpid + 1) t.pidchecked = some (m, c) ∧ Chosen t m c := by
  have hnonneg := h.nonneg
  exact choosePid_scan (by omega) le_rfl hscan (fun x hx hxm => absurd hxm (not_lt.2 hx))
    (.inr (by simp [pidRetries]))

theorem choosePid_total (h : t.Counted) :
    ∃ m c, t.choosePid pidRetries (t.mpid + 1) t.pidchecked = some (m, c) ∧ 0 < m ∧ m < 30000 ∧ m < c ∧ c ≤ 30000 ∧
      (t.ForkSafe → ∀ p ∈ t.list .allproc, (t.proc p).pPid < m ∨ c ≤ (t.proc p).pPid) := by
  have hnonneg := h.nonneg
  by_cases hscan : t.Scans
  · obtain ⟨m, c, heq, hm⟩ := choosePid_chosen h hscan
    exact ⟨m, c, heq, hm.pos, hm.bound, hm.lt, hm.checked, fun hsafe => hm.fresh (hsafe hscan)⟩
  · obtain ⟨hc, hb⟩ := not_or.1 hscan
    refine ⟨_, _, choosePid_next t (not_le.1 hc) (not_le.1 hb), by omega, by omega, by omega,
      h.checked, fun _ p hp => ?_⟩
    have := h.gap p hp
    omega

end RetroBSD.Procs.Table
