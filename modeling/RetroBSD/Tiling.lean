import Mathlib

/-!
# Items laid out one behind the other

`Tiles len P lo xs hi` says that the items `xs`, each as long as `len` says, fill the
places from `lo` to `hi` without a gap, and that `P` holds of each item at its place.
-/

namespace Tiling

variable {α : Type*} {len : α → ℕ} {P Q : ℕ → α → Prop} {lo hi : ℕ} {x : α} {xs ys : List α}

def Tiles (len : α → ℕ) (P : ℕ → α → Prop) : ℕ → List α → ℕ → Prop
  | lo, [], hi => lo = hi
  | lo, x :: xs, hi => P lo x ∧ Tiles len P (lo + len x) xs hi

instance Tiles.decidable [∀ i x, Decidable (P i x)] : (lo : ℕ) → (xs : List α) → (hi : ℕ) →
    Decidable (Tiles len P lo xs hi)
  | lo, [], hi => inferInstanceAs (Decidable (lo = hi))
  | lo, x :: xs, hi =>
    have := Tiles.decidable (lo + len x) xs hi
    inferInstanceAs (Decidable (P lo x ∧ Tiles len P (lo + len x) xs hi))

@[simp] theorem tiles_nil : Tiles len P lo [] hi ↔ lo = hi := Iff.rfl

@[simp] theorem tiles_cons :
    Tiles len P lo (x :: xs) hi ↔ P lo x ∧ Tiles len P (lo + len x) xs hi := Iff.rfl

theorem tiles_append :
    Tiles len P lo (xs ++ ys) hi ↔ ∃ mid, Tiles len P lo xs mid ∧ Tiles len P mid ys hi := by
  induction xs generalizing lo with
  | nil => simp
  | cons x xs ih => simp [ih, and_assoc]

theorem tiles_append_cons :
    Tiles len P lo (xs ++ x :: ys) hi ↔
      ∃ mid, Tiles len P lo xs mid ∧ P mid x ∧ Tiles len P (mid + len x) ys hi :=
  tiles_append

variable (h : Tiles len P lo xs hi)
include h

theorem Tiles.le : lo ≤ hi := by
  induction xs generalizing lo with
  | nil => exact Nat.le_of_eq h
  | cons x xs ih =>
    have hle := ih h.2
    omega

theorem Tiles.imp (hPQ : ∀ i x, x ∈ xs → lo ≤ i → i + len x ≤ hi → P i x → Q i x) : Tiles len Q lo xs hi := by
  induction xs generalizing lo with
  | nil => exact h
  | cons x xs ih =>
    refine ⟨hPQ lo x List.mem_cons_self le_rfl h.2.le h.1, ih h.2 ?_⟩
    intro i y hy hi
    exact hPQ i y (List.mem_cons_of_mem _ hy) (by omega)

theorem Tiles.exists_place (hx : x ∈ xs) : ∃ i, lo ≤ i ∧ i + len x ≤ hi ∧ P i x := by
  induction xs generalizing lo with
  | nil => exact absurd hx List.not_mem_nil
  | cons y xs ih =>
    rcases List.mem_cons.1 hx with rfl | hx
    · exact ⟨lo, le_rfl, h.2.le, h.1⟩
    · obtain ⟨i, hlo, hhi, hP⟩ := ih h.2 hx
      exact ⟨i, by omega, hhi, hP⟩

theorem Tiles.length_le (hpos : ∀ i x, P i x → 0 < len x) : lo + xs.length ≤ hi := by
  induction xs generalizing lo with
  | nil => exact h.le
  | cons x xs ih =>
    have hx := hpos lo x h.1
    have hxs := ih h.2
    rw [List.length_cons]
    omega

end Tiling
