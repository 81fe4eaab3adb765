import Mathlib

/-!
# Counting references

Sums over all indices when one value changes, in a form without subtraction, and the
number of entries of a table that refer to an object.
-/

namespace Counting

open Function Finset

variable {ι α : Type*}

section Sums

variable [Fintype ι] [DecidableEq ι]

theorem sum_update (f : ι → ℕ) (i : ι) (n : ℕ) : ∑ j, update f i n j = ∑ j, update f i 0 j + n := by
  rw [sum_update_of_mem (mem_univ i), sum_update_of_mem (mem_univ i)]
  omega

theorem sum_update_add (f : ι → ℕ) (i : ι) (n : ℕ) : ∑ j, update f i n j + f i = ∑ j, f j + n := by
  have hself := sum_update f i (f i)
  rw [update_eq_self] at hself
  rw [sum_update]
  omega

end Sums

section Tables

variable [Fintype ι] [DecidableEq α] {t : ι → Option α} {i : ι} {a : α}

def refs (t : ι → Option α) (a : α) : ℕ := ∑ i, if t i = some a then 1 else 0

theorem refs_pos (h : t i = some a) : 0 < refs t a := by
  have hle := single_le_sum (f := fun i => if t i = some a then 1 else 0) (fun _ _ => Nat.zero_le _)
    (mem_univ i)
  rw [if_pos h] at hle
  exact hle

theorem refs_eq_zero (h : ∀ i, t i ≠ some a) : refs t a = 0 :=
  sum_eq_zero fun i _ => if_neg (h i)

theorem refs_update [DecidableEq ι] (t : ι → Option α) (i : ι) (v : Option α) (a : α) :
    refs (update t i v) a + (if t i = some a then 1 else 0) = refs t a + (if v = some a then 1 else 0) := by
  have hupdate : (fun j => if update t i v j = some a then 1 else 0) =
      update (fun j => if t j = some a then 1 else 0) i (if v = some a then 1 else 0) := by
    funext j
    exact apply_update (fun _ x => if x = some a then 1 else 0) t i v j
  rw [refs, hupdate]
  exact sum_update_add _ i _

end Tables

end Counting
