import Mathlib

/-!
# Radix trees laid out in blocks

A pointer is 0 or the number of a block. A tree of height 0 is a single block; a
tree of height `k + 1` is a block of `fan` pointers to trees of height `k`, found
by `ptr`. A node is recorded with its height, the first index it covers and its
block, so that what a tree holds is a set of nodes, and growing or cutting a tree
is a statement about that set.
-/

namespace RadixTree

open Nat

structure Node where
  height : ℕ
  start : ℕ
  block : ℕ
  deriving DecidableEq

variable {fan : ℕ} {ptr ptr' : ℕ → ℕ → ℕ}

/-- The nodes of the tree of height `k` at `p` whose first index is `base`. -/
def Nodes (fan : ℕ) (ptr : ℕ → ℕ → ℕ) : ℕ → ℕ → ℕ → Set Node
  | 0, p, base => {n | p ≠ 0 ∧ n = ⟨0, base, p⟩}
  | k + 1, p, base => {n | p ≠ 0 ∧ (n = ⟨k + 1, base, p⟩ ∨
      ∃ i, i < fan ∧ n ∈ Nodes fan ptr k (ptr p i) (base + i * fan ^ k))}

/-- The nodes below the block `p` of pointers to trees of height `k`. -/
def Children (fan : ℕ) (ptr : ℕ → ℕ → ℕ) (k p base : ℕ) : Set Node :=
  {n | ∃ i, i < fan ∧ n ∈ Nodes fan ptr k (ptr p i) (base + i * fan ^ k)}

def lookup (fan : ℕ) (ptr : ℕ → ℕ → ℕ) : ℕ → ℕ → ℕ → ℕ
  | 0, p, _ => p
  | k + 1, p, j => if p = 0 then 0 else lookup fan ptr k (ptr p (j / fan ^ k)) (j % fan ^ k)

/-- The number of blocks missing on the way to index `j` of the tree of height `k` at `p`. -/
def missing (fan : ℕ) (ptr : ℕ → ℕ → ℕ) : ℕ → ℕ → ℕ → ℕ
  | 0, p, _ => if p = 0 then 1 else 0
  | k + 1, p, j => if p = 0 then k + 2 else missing fan ptr k (ptr p (j / fan ^ k)) (j % fan ^ k)

theorem lookup_null (k j : ℕ) : lookup fan ptr k 0 j = 0 := by
  cases k <;> rfl

theorem missing_null (k j : ℕ) : missing fan ptr k 0 j = k + 1 := by
  cases k with
  | zero | succ => rfl

variable {p k : ℕ}

theorem missing_of_empty {j : ℕ} (hp : p ≠ 0) (h : 0 < k → ∀ i, ptr p i = 0) :
    missing fan ptr k p j = k := by
  cases k with
  | zero => exact if_neg hp
  | succ k => rw [missing, if_neg hp, h (succ_pos k), missing_null]

@[simp] theorem nodes_null (k base : ℕ) : Nodes fan ptr k 0 base = ∅ := by
  cases k <;> simp [Nodes]

variable {base : ℕ} {n : Node}

theorem mem_nodes_zero : n ∈ Nodes fan ptr 0 p base ↔ p ≠ 0 ∧ n = ⟨0, base, p⟩ := Iff.rfl

theorem nodes_root (hp : p ≠ 0) : ⟨k, base, p⟩ ∈ Nodes fan ptr k p base := by
  cases k with
  | zero => exact ⟨hp, rfl⟩
  | succ k => exact ⟨hp, .inl rfl⟩

theorem nodes_range (h : n ∈ Nodes fan ptr k p base) :
    n.height ≤ k ∧ base ≤ n.start ∧ n.start + fan ^ n.height ≤ base + fan ^ k := by
  induction k generalizing p base with
  | zero =>
    obtain ⟨hp, rfl⟩ := h
    exact ⟨le_rfl, le_rfl, le_rfl⟩
  | succ k ih =>
    obtain ⟨hp, rfl | ⟨i, hfan, hi⟩⟩ := h
    · exact ⟨le_rfl, le_rfl, le_rfl⟩
    · obtain ⟨hk, hlo, hhi⟩ := ih hi
      have hle : (i + 1) * fan ^ k ≤ fan * fan ^ k := mul_le_mul_right _ hfan
      rw [add_mul] at hle
      rw [pow_succ']
      exact ⟨hk.trans (le_succ k), by omega, by omega⟩

variable {i : ℕ}

theorem entry_unique (hfan : 0 < fan) {q j : ℕ}
    (hi : n ∈ Nodes fan ptr k p (base + i * fan ^ k))
    (hj : n ∈ Nodes fan ptr' k q (base + j * fan ^ k)) : i = j := by
  obtain ⟨_, hi1, hi2⟩ := nodes_range hi
  obtain ⟨_, hj1, hj2⟩ := nodes_range hj
  have hpos : 0 < fan ^ n.height := Nat.pow_pos hfan
  have hij : i * fan ^ k < (j + 1) * fan ^ k := by
    rw [add_mul]
    omega
  have hji : j * fan ^ k < (i + 1) * fan ^ k := by
    rw [add_mul]
    omega
  have := lt_of_mul_lt_mul_right hij
  have := lt_of_mul_lt_mul_right hji
  omega

theorem nodes_congr
    (h : ∀ n ∈ Nodes fan ptr k p base, 0 < n.height → ∀ i, i < fan → ptr' n.block i = ptr n.block i) :
    Nodes fan ptr' k p base = Nodes fan ptr k p base := by
  induction k generalizing p base with
  | zero => rfl
  | succ k ih =>
    by_cases hp : p = 0
    · simp [hp]
    have hroot : ∀ i, i < fan → ptr' p i = ptr p i := h _ (nodes_root hp) (succ_pos k)
    have hchild : ∀ i, i < fan → Nodes fan ptr' k (ptr' p i) (base + i * fan ^ k) =
        Nodes fan ptr k (ptr p i) (base + i * fan ^ k) := by
      intro i hi
      rw [hroot i hi]
      exact ih fun n hn => h n ⟨hp, .inr ⟨i, hi, hn⟩⟩
    ext n
    refine and_congr_right fun _ => or_congr_right (exists_congr fun i => and_congr_right fun hi => ?_)
    rw [hchild i hi]

theorem nodes_grow_entry (hp : p ≠ 0) (hi : i < fan)
    (hsub : Nodes fan ptr k (ptr p i) (base + i * fan ^ k) ⊆
      Nodes fan ptr' k (ptr' p i) (base + i * fan ^ k))
    (hother : ∀ j, j < fan → j ≠ i → Nodes fan ptr' k (ptr' p j) (base + j * fan ^ k) =
      Nodes fan ptr k (ptr p j) (base + j * fan ^ k)) :
    Nodes fan ptr' (k + 1) p base =
      Nodes fan ptr (k + 1) p base ∪ Nodes fan ptr' k (ptr' p i) (base + i * fan ^ k) := by
  ext n
  constructor
  · rintro ⟨_, rfl | ⟨j, hj, hn⟩⟩
    · exact .inl ⟨hp, .inl rfl⟩
    · by_cases hji : j = i
      · subst hji
        exact .inr hn
      · rw [hother j hj hji] at hn
        exact .inl ⟨hp, .inr ⟨j, hj, hn⟩⟩
  · rintro (⟨_, rfl | ⟨j, hj, hn⟩⟩ | hn)
    · exact ⟨hp, .inl rfl⟩
    · by_cases hji : j = i
      · subst hji
        exact ⟨hp, .inr ⟨j, hj, hsub hn⟩⟩
      · rw [← hother j hj hji] at hn
        exact ⟨hp, .inr ⟨j, hj, hn⟩⟩
    · exact ⟨hp, .inr ⟨i, hi, hn⟩⟩

theorem nodes_of_empty (hp : p ≠ 0) (h : 0 < k → ∀ i, i < fan → ptr p i = 0) :
    Nodes fan ptr k p base = {⟨k, base, p⟩} := by
  ext n
  cases k with
  | zero => exact and_iff_right hp
  | succ k =>
    refine ⟨?_, fun hn => ⟨hp, .inl hn⟩⟩
    rintro ⟨_, hn | ⟨i, hi, hn⟩⟩
    · exact hn
    · rw [h (succ_pos k) i hi, nodes_null] at hn
      exact absurd hn (Set.notMem_empty n)

theorem mem_nodes_iff_lookup (hfan : 0 < fan) {x b : ℕ} :
    ⟨0, x, b⟩ ∈ Nodes fan ptr k p base ↔
      b ≠ 0 ∧ ∃ j, j < fan ^ k ∧ x = base + j ∧ lookup fan ptr k p j = b := by
  induction k generalizing p base with
  | zero =>
    simp only [mem_nodes_zero, Node.mk.injEq, true_and, pow_zero, lt_one_iff]
    constructor
    · rintro ⟨hp, rfl, rfl⟩
      exact ⟨hp, 0, rfl, rfl, rfl⟩
    · rintro ⟨hb, j, rfl, rfl, rfl⟩
      exact ⟨hb, rfl, rfl⟩
  | succ k ih =>
    have hpos : 0 < fan ^ k := Nat.pow_pos hfan
    constructor
    · rintro ⟨hp, h | ⟨i, hi, h⟩⟩
      · cases h
      · obtain ⟨hb, j, hj, rfl, hl⟩ := ih.1 h
        refine ⟨hb, i * fan ^ k + j, ?_, by ring, ?_⟩
        · calc i * fan ^ k + j < i * fan ^ k + fan ^ k := by omega
            _ = (i + 1) * fan ^ k := by ring
            _ ≤ fan * fan ^ k := mul_le_mul_right _ hi
            _ = fan ^ (k + 1) := (Nat.pow_succ').symm
        · rw [lookup, if_neg hp, mul_comm, mul_add_div hpos, div_eq_of_lt hj,
            mul_add_mod, mod_eq_of_lt hj]
          exact hl
    · rintro ⟨hb, j, hj, rfl, hl⟩
      have hp : p ≠ 0 := by
        rintro rfl
        exact hb hl.symm
      rw [lookup, if_neg hp] at hl
      refine ⟨hp, .inr ⟨j / fan ^ k, ?_, ih.2 ⟨hb, j % fan ^ k, mod_lt _ hpos, ?_, hl⟩⟩⟩
      · rw [Nat.div_lt_iff_lt_mul hpos, ← Nat.pow_succ']
        exact hj
      · rw [add_assoc, mul_comm, div_add_mod]

end RadixTree
