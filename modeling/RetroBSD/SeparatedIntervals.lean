import Mathlib

/-!
# Lists of separated intervals

A list of half-open intervals in a linear order is separated when the intervals
are nonempty, in increasing order, and no two of them touch. The set such a
list covers then determines the list: its members are exactly the maximal
intervals of the set. The intervals are given by their two endpoint functions,
so any record with a lower and an upper end can be used.
-/

namespace SeparatedIntervals

open List

variable {ι α : Type*} [LinearOrder α] {lo hi : ι → α}

def cover (lo hi : ι → α) (l : List ι) : Set α := {x | ∃ i ∈ l, x ∈ Set.Ico (lo i) (hi i)}

def Separated (lo hi : ι → α) (l : List ι) : Prop :=
  (∀ i ∈ l, lo i < hi i) ∧ l.Pairwise (fun i j => hi i < lo j)

/-- An interval inside a set that no larger interval inside the set contains. -/
def IsMaximal (F : Set α) (a b : α) : Prop :=
  a < b ∧ Set.Ico a b ⊆ F ∧ ∀ a' b', a' ≤ a → b ≤ b' → Set.Ico a' b' ⊆ F → a' = a ∧ b' = b

variable {l : List ι}

@[simp] theorem mem_cover {x : α} : x ∈ cover lo hi l ↔ ∃ i ∈ l, lo i ≤ x ∧ x < hi i := Iff.rfl

@[simp] theorem cover_nil : cover lo hi [] = ∅ := by
  ext x
  simp

theorem cover_cons (i : ι) (l : List ι) :
    cover lo hi (i :: l) = Set.Ico (lo i) (hi i) ∪ cover lo hi l := by
  ext x
  simp

theorem cover_append (l1 l2 : List ι) : cover lo hi (l1 ++ l2) = cover lo hi l1 ∪ cover lo hi l2 := by
  ext x
  simp [or_and_right, exists_or]

variable {i : ι}

theorem Ico_subset_cover (hi' : i ∈ l) :
    Set.Ico (lo i) (hi i) ⊆ cover lo hi l := fun _ hx => ⟨i, hi', hx⟩

theorem separated_append {l1 l2 : List ι} :
    Separated lo hi (l1 ++ l2) ↔
      Separated lo hi l1 ∧ Separated lo hi l2 ∧ ∀ i ∈ l1, ∀ j ∈ l2, hi i < lo j := by
  unfold Separated
  rw [pairwise_append]
  constructor
  · rintro ⟨hpos, h1, h2, h12⟩
    exact ⟨⟨fun i h => hpos i (mem_append_left _ h), h1⟩,
      ⟨fun i h => hpos i (mem_append_right _ h), h2⟩, h12⟩
  · rintro ⟨⟨hp1, h1⟩, ⟨hp2, h2⟩, h12⟩
    refine ⟨fun i h => ?_, h1, h2, h12⟩
    exact (mem_append.1 h).elim (hp1 i) (hp2 i)

theorem separated_cons :
    Separated lo hi (i :: l) ↔ lo i < hi i ∧ (∀ j ∈ l, hi i < lo j) ∧ Separated lo hi l := by
  simp [Separated]
  tauto

theorem Separated.eq_or_lt (hs : Separated lo hi l) {j : ι}
    (hmi : i ∈ l) (hmj : j ∈ l) : i = j ∨ hi i < lo j ∨ hi j < lo i := by
  obtain ⟨l1, l2, rfl⟩ := append_of_mem hmi
  obtain ⟨_, hs2, h12⟩ := separated_append.1 hs
  obtain ⟨_, hafter, _⟩ := separated_cons.1 hs2
  rcases mem_append.1 hmj with hj | hj
  · exact .inr (.inr (h12 j hj i mem_cons_self))
  · rcases mem_cons.1 hj with rfl | hj
    · exact .inl rfl
    · exact .inr (.inl (hafter j hj))

theorem Separated.hi_notMem (hs : Separated lo hi l) (hmi : i ∈ l) : hi i ∉ cover lo hi l := by
  rintro ⟨j, hmj, hlo, hhi⟩
  rcases hs.eq_or_lt hmi hmj with rfl | h | h
  · exact lt_irrefl _ hhi
  · exact absurd hlo (not_le_of_gt h)
  · exact absurd (hs.1 i hmi) (not_lt_of_gt (hhi.trans h))

/-- The intervals of a separated list are the maximal intervals of its cover. -/
theorem Separated.isMaximal_iff (hs : Separated lo hi l) {a b : α} :
    IsMaximal (cover lo hi l) a b ↔ ∃ i ∈ l, lo i = a ∧ hi i = b := by
  -- An interval inside the cover that meets `i` cannot pass either end of `i`: going left it
  -- would contain the upper end of another interval, going right the upper end of `i` itself.
  have hends : ∀ i ∈ l, ∀ a' b', a' < b' → Set.Ico a' b' ⊆ cover lo hi l →
      lo i ≤ a' → a' < hi i → b' ≤ hi i := by
    intro i hmi a' b' _ hsub _ ha'
    by_contra! hb
    exact hs.hi_notMem hmi (hsub ⟨ha'.le, hb⟩)
  constructor
  · rintro ⟨hab, hsub, hmax⟩
    obtain ⟨i, hmi, hlo, hhi⟩ := hsub ⟨le_rfl, hab⟩
    have hb := hends i hmi a b hab hsub hlo hhi
    obtain ⟨ha', hb'⟩ := hmax (lo i) (hi i) hlo hb (Ico_subset_cover hmi)
    exact ⟨i, hmi, ha', hb'⟩
  · rintro ⟨i, hmi, rfl, rfl⟩
    refine ⟨hs.1 i hmi, Ico_subset_cover hmi, fun a' b' ha' hb' hsub => ?_⟩
    have hlt : a' < b' := ha'.trans_lt ((hs.1 i hmi).trans_le hb')
    obtain ⟨j, hmj, hlo, hhi⟩ := hsub ⟨le_rfl, hlt⟩
    have hbj := hends j hmj a' b' hlt hsub hlo hhi
    rcases hs.eq_or_lt hmi hmj with rfl | h | h
    · exact ⟨le_antisymm ha' hlo, le_antisymm hbj hb'⟩
    · exact absurd (hs.1 i hmi) (not_lt_of_gt (h.trans_le (hlo.trans ha')))
    · exact absurd ((hs.1 i hmi).trans_le (hb'.trans hbj)) (not_lt_of_gt h)

end SeparatedIntervals
