import Mathlib

/-!
# Exclusive ownership

A family of shares partitions a set when each of its elements lies in exactly
one share and nothing else does. The rules are those of a transfer, where parts of
one owner's share go to other owners, and of an exchange between two owners.
-/

namespace Ownership

variable {ι κ α : Type*} {own own' : ι → Set α} {A R : Set α}

def Partitions (own : ι → Set α) (A : Set α) : Prop :=
  (∀ i, own i ⊆ A) ∧ ∀ x ∈ A, ∃! i, x ∈ own i

variable (h : Partitions own A)
include h

theorem Partitions.disjoint {i j : ι} (hij : i ≠ j) : Disjoint (own i) (own j) := by
  rw [Set.disjoint_left]
  intro x hi hj
  exact hij ((h.2 x (h.1 i hi)).unique hi hj)

theorem Partitions.transferAll {i : ι} {f : κ → ι} {R : κ → Set α} (hR : ∀ k, R k ⊆ own i)
    (hdisj : Pairwise fun k l => Disjoint (R k) (R l))
    (hi : own' i = own i \ ⋃ k, R k)
    (hto : ∀ k, own' (f k) = own (f k) ∪ R k)
    (hrest : ∀ j, j ≠ i → (∀ k, j ≠ f k) → own' j = own j) : Partitions own' A := by
  have hsub : ∀ j x, x ∈ own' j → x ∈ own j ∨ ∃ k, j = f k ∧ x ∈ R k := by
    intro j x hx
    by_cases hj : j = i
    · subst hj
      rw [hi] at hx
      exact .inl hx.1
    · by_cases hk : ∃ k, j = f k
      · obtain ⟨k, rfl⟩ := hk
        rw [hto] at hx
        exact hx.imp id fun hx => ⟨k, rfl, hx⟩
      · rw [hrest j hj (by simpa using hk)] at hx
        exact .inl hx
  constructor
  · intro j x hx
    rcases hsub j x hx with hx | ⟨k, -, hx⟩
    · exact h.1 j hx
    · exact h.1 i (hR k hx)
  · intro x hx
    obtain ⟨j, hj, huniq⟩ := h.2 x hx
    by_cases hmoved : ∃ k, x ∈ R k
    · obtain ⟨k, hk⟩ := hmoved
      refine ⟨f k, by simp only [hto]; exact .inr hk, fun l hl => ?_⟩
      -- before the transfer `i` was the owner, and its share has lost `x`
      have hown : ∀ l, x ∈ own l → l = i := fun l hl =>
        (huniq l hl).trans (huniq i (hR k hk)).symm
      rcases hsub l x hl with hl' | ⟨m, rfl, hm⟩
      · obtain rfl := hown l hl'
        simp only [hi] at hl
        exact absurd (Set.mem_iUnion.2 ⟨k, hk⟩) hl.2
      · by_contra hne
        exact Set.disjoint_left.1 (hdisj fun hmk => hne (by rw [hmk])) hm hk
    · have hsame : ∀ l, x ∈ own l → x ∈ own' l := by
        intro l hl
        by_cases hli : l = i
        · subst hli
          rw [hi]
          exact ⟨hl, by simpa using hmoved⟩
        · by_cases hlf : ∃ k, l = f k
          · obtain ⟨k, rfl⟩ := hlf
            rw [hto]
            exact .inl hl
          · rwa [hrest l hli (by simpa using hlf)]
      refine ⟨j, hsame j hj, fun l hl => ?_⟩
      rcases hsub l x hl with hl' | ⟨m, -, hm⟩
      · exact huniq l hl'
      · exact absurd ⟨m, hm⟩ hmoved

theorem Partitions.transfer {i j : ι} (hR : R ⊆ own i) (hi : own' i = own i \ R)
    (hj : own' j = own j ∪ R)
    (hrest : ∀ l, l ≠ i → l ≠ j → own' l = own l) : Partitions own' A :=
  h.transferAll (κ := Unit) (fun _ => hR)
    (fun _ _ hne => absurd rfl hne) (by rw [hi, Set.iUnion_const]) (fun _ => hj)
    (fun l hl hlj => hrest l hl (hlj ()))

theorem Partitions.exchange {i j : ι} (hdisj : Disjoint (own' i) (own' j))
    (hboth : own' i ∪ own' j = own i ∪ own j) (hrest : ∀ l, l ≠ i → l ≠ j → own' l = own l) :
    Partitions own' A := by
  have hout : ∀ x l, x ∈ own' l → (l = i ∨ l = j) ∧ (x ∈ own i ∨ x ∈ own j) ∨
      l ≠ i ∧ l ≠ j ∧ x ∈ own l := by
    intro x l hx
    by_cases hl : l = i ∨ l = j
    · refine .inl ⟨hl, ?_⟩
      have hmem : x ∈ own' i ∪ own' j := by
        rcases hl with rfl | rfl
        · exact .inl hx
        · exact .inr hx
      rwa [hboth] at hmem
    · obtain ⟨hi, hj⟩ := not_or.1 hl
      rw [hrest l hi hj] at hx
      exact .inr ⟨hi, hj, hx⟩
  constructor
  · intro l x hx
    rcases hout x l hx with ⟨_, hx | hx⟩ | ⟨_, _, hx⟩
    · exact h.1 i hx
    · exact h.1 j hx
    · exact h.1 l hx
  · intro x hx
    obtain ⟨k, hk, huniq⟩ := h.2 x hx
    by_cases hmem : x ∈ own' i ∪ own' j
    · have hone : ∀ l, x ∈ own' l → l = i ∨ l = j := by
        intro l hl
        rcases hout x l hl with ⟨hl', _⟩ | ⟨hi, hj, hl'⟩
        · exact hl'
        · rw [hboth] at hmem
          rcases hmem with hm | hm
          · exact absurd ((huniq l hl').trans (huniq i hm).symm) hi
          · exact absurd ((huniq l hl').trans (huniq j hm).symm) hj
      rcases hmem with hm | hm
      · refine ⟨i, hm, fun l hl => (hone l hl).resolve_right ?_⟩
        rintro rfl
        exact Set.disjoint_left.1 hdisj hm hl
      · refine ⟨j, hm, fun l hl => (hone l hl).resolve_left ?_⟩
        rintro rfl
        exact Set.disjoint_left.1 hdisj hl hm
    · have hk' : k ≠ i ∧ k ≠ j := by
        rw [hboth] at hmem
        exact ⟨fun heq => hmem (.inl (heq ▸ hk)), fun heq => hmem (.inr (heq ▸ hk))⟩
      refine ⟨k, by simpa only [hrest k hk'.1 hk'.2] using hk, fun l hl => ?_⟩
      rcases hout x l hl with ⟨rfl | rfl, _⟩ | ⟨_, _, hl'⟩
      · exact absurd (.inl hl) hmem
      · exact absurd (.inr hl) hmem
      · exact huniq l hl'

end Ownership
