import Mathlib

/-!
# Counted references

Objects with a reference count and a lock. A reference is held by somebody, or it
belongs to the one call that works on the object: such an object is locked, and nobody
holds another reference to it.
-/

namespace References

variable {P ι : Type*}

structure Refs (count : ι → ℕ) (locked : ι → Bool) (held : ι → ℕ) (work : P → Option ι) : Prop where
  worker : ∀ p i, work p = some i → locked i = true ∧ count i = 1 ∧ held i = 0
  single : ∀ p q i, work p = some i → work q = some i → p = q
  idle : ∀ i, (∀ p, work p ≠ some i) → count i = held i

variable {count count' : ι → ℕ} {locked locked' : ι → Bool} {held held' : ι → ℕ} {work work' : P → Option ι}
  {i : ι} {p : P}

namespace Refs

variable (h : Refs count locked held work)
include h

theorem not_work_of_held (hi : 0 < held i) (p : P) : work p ≠ some i := by
  intro hp
  have hzero := (h.worker p i hp).2.2
  omega

theorem not_work_of_unlocked (hi : locked i = false) (p : P) : work p ≠ some i := by
  intro hp
  have hlocked := (h.worker p i hp).1
  rw [hi] at hlocked
  cases hlocked

theorem not_work_of_count (hi : count i ≠ 1) (p : P) : work p ≠ some i :=
  fun hp => hi (h.worker p i hp).2.1

theorem congr (hcount : ∀ i, count' i = count i)
    (hlocked : ∀ i p, work p = some i → locked i = true → locked' i = true)
    (hheld : ∀ i, held' i = held i) (hwork : ∀ p, work' p = work p) : Refs count' locked' held' work' := by
  obtain rfl : count' = count := funext hcount
  obtain rfl : held' = held := funext hheld
  obtain rfl : work' = work := funext hwork
  refine ⟨fun p i hp => ?_, h.single, h.idle⟩
  obtain ⟨hlock, hrest⟩ := h.worker p i hp
  exact ⟨hlocked i p hp hlock, hrest⟩

section Change

variable (hcount : ∀ j, j ≠ i → count' j = count j) (hlocked : ∀ j, j ≠ i → locked' j = locked j)
  (hheld : ∀ j, j ≠ i → held' j = held j)

include hcount hlocked hheld

theorem set_idle (hno : ∀ p, work p ≠ some i) (hi : count' i = held' i)
    (hwork : ∀ p, work' p = work p) : Refs count' locked' held' work' := by
  obtain rfl : work' = work := funext hwork
  refine ⟨fun p j hp => ?_, h.single, fun j hj => ?_⟩
  · have hji : j ≠ i := fun hji => hno p (hji ▸ hp)
    rw [hlocked j hji, hcount j hji, hheld j hji]
    exact h.worker p j hp
  · by_cases hji : j = i
    · rw [hji, hi]
    · rw [hcount j hji, hheld j hji]
      exact h.idle j hj

theorem start (hno : ∀ p, work p ≠ some i) (hp : work p = none)
    (hi : locked' i = true ∧ count' i = 1 ∧ held' i = 0) (hwork : work' p = some i)
    (hother : ∀ q, q ≠ p → work' q = work q) : Refs count' locked' held' work' := by
  have hcases : ∀ q j, work' q = some j → (q = p ∧ j = i) ∨ (q ≠ p ∧ j ≠ i ∧ work q = some j) := by
    intro q j hq
    by_cases hqp : q = p
    · subst hqp
      exact .inl ⟨rfl, Option.some.inj (hq.symm.trans hwork)⟩
    · rw [hother q hqp] at hq
      exact .inr ⟨hqp, fun hji => hno q (hji ▸ hq), hq⟩
  refine ⟨fun q j hq => ?_, fun q q' j hq hq' => ?_, fun j hj => ?_⟩
  · rcases hcases q j hq with ⟨-, rfl⟩ | ⟨-, hji, hq⟩
    · exact hi
    · rw [hlocked j hji, hcount j hji, hheld j hji]
      exact h.worker q j hq
  · rcases hcases q j hq with ⟨rfl, rfl⟩ | ⟨-, hji, hq⟩
    · rcases hcases q' j hq' with ⟨rfl, -⟩ | ⟨-, hji, -⟩
      · rfl
      · exact absurd rfl hji
    · rcases hcases q' j hq' with ⟨-, rfl⟩ | ⟨-, -, hq'⟩
      · exact absurd rfl hji
      · exact h.single q q' j hq hq'
  · have hji : j ≠ i := fun hji => hj p (hji ▸ hwork)
    rw [hcount j hji, hheld j hji]
    refine h.idle j fun q hq => ?_
    by_cases hqp : q = p
    · rw [hqp, hp] at hq
      cases hq
    · exact hj q ((hother q hqp).trans hq)

theorem finish (hp : work p = some i) (hi : count' i = held' i) (hwork : work' p = none)
    (hother : ∀ q, q ≠ p → work' q = work q) : Refs count' locked' held' work' := by
  have hcases : ∀ q j, work' q = some j → j ≠ i ∧ work q = some j := by
    intro q j hq
    have hqp : q ≠ p := by
      rintro rfl
      rw [hwork] at hq
      cases hq
    rw [hother q hqp] at hq
    exact ⟨fun hji => hqp (h.single q p i (hji ▸ hq) hp), hq⟩
  refine ⟨fun q j hq => ?_, fun q q' j hq hq' => ?_, fun j hj => ?_⟩
  · obtain ⟨hji, hq⟩ := hcases q j hq
    rw [hlocked j hji, hcount j hji, hheld j hji]
    exact h.worker q j hq
  · exact h.single q q' j (hcases q j hq).2 (hcases q' j hq').2
  · by_cases hji : j = i
    · rw [hji, hi]
    · rw [hcount j hji, hheld j hji]
      refine h.idle j fun q hq => ?_
      by_cases hqp : q = p
      · rw [hqp, hp, Option.some.injEq] at hq
        exact hji hq.symm
      · exact hj q ((hother q hqp).trans hq)

end Change

end Refs

end References
