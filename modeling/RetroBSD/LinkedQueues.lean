import RetroBSD.LinkedList
import Mathlib

/-!
# Several lists over one link field

Lists with heads of their own whose cells are linked through the same field. A cell lies
in at most one of them. A place is a head or the link of a cell, that is, what a pointer
to a link can point to.
-/

namespace LinkedList

open Function List

variable {κ ι : Type*}

inductive Place (κ ι : Type*)
  | head (k : κ)
  | cell (i : ι)
  deriving DecidableEq

structure Cells (κ ι : Type*) where
  head : κ → Option ι
  next : ι → Option ι

namespace Cells

def get (c : Cells κ ι) : Place κ ι → Option ι
  | .head k => c.head k
  | .cell i => c.next i

def set [DecidableEq κ] [DecidableEq ι] (c : Cells κ ι) (q : Place κ ι) (v : Option ι) : Cells κ ι :=
  match q with
  | .head k => { c with head := update c.head k v }
  | .cell i => { c with next := update c.next i v }

structure Lists (c : Cells κ ι) (l : κ → List ι) : Prop where
  chain : ∀ k, Chain c.next (c.head k) (l k)
  apart : ∀ k k' i, i ∈ l k → i ∈ l k' → k = k'

/-- The place of the link behind the cells `pre` of a list. -/
def placeAfter (k : κ) (pre : List ι) : Place κ ι :=
  match pre.getLast? with
  | none => .head k
  | some i => .cell i

@[simp] theorem placeAfter_nil (k : κ) : (placeAfter k [] : Place κ ι) = .head k := rfl

@[simp] theorem placeAfter_append (k : κ) (pre : List ι) (i : ι) : placeAfter k (pre ++ [i]) = .cell i := by
  rw [placeAfter, List.getLast?_append]
  rfl

variable {c : Cells κ ι} {l : κ → List ι} {k : κ} {pre post : List ι} {i : ι}

theorem get_placeAfter (c : Cells κ ι) (k : κ) (pre : List ι) :
    c.get (placeAfter k pre) = linkAfter c.next (c.head k) pre := by
  rw [placeAfter, linkAfter]
  cases pre.getLast? <;> rfl

theorem Lists.get_nil (h : c.Lists l) (hl : l k = pre) : c.get (placeAfter k pre) = none := by
  have hchain := h.chain k
  rw [hl, ← append_nil pre] at hchain
  rw [get_placeAfter]
  exact hchain.drop.of_nil

theorem Lists.get_cons (h : c.Lists l) (hl : l k = pre ++ i :: post) : c.get (placeAfter k pre) = some i := by
  have hchain := h.chain k
  rw [hl] at hchain
  rw [get_placeAfter]
  exact hchain.drop.of_cons.1

theorem Lists.head_eq (h : c.Lists l) (hl : l k = i :: post) : c.head k = some i := by
  have hchain := h.chain k
  rw [hl] at hchain
  exact hchain.of_cons.1

theorem Lists.next_eq {j : ι} (h : c.Lists l) (hl : l k = pre ++ i :: j :: post) : c.next i = some j := by
  have hget := h.get_cons (hl.trans (append_assoc pre [i] (j :: post)).symm)
  rwa [placeAfter_append] at hget

variable [DecidableEq κ] [DecidableEq ι]

theorem get_set (c : Cells κ ι) (q q' : Place κ ι) (v : Option ι) :
    (c.set q v).get q' = if q' = q then v else c.get q' := by
  cases q <;> cases q' <;> simp [get, set, update_apply]

theorem set_of_get {q : Place κ ι} {v : Option ι} (h : c.get q = v) : c.set q v = c := by
  cases q with
  | head k => rw [← h]; exact congrArg (Cells.mk · c.next) (update_eq_self k c.head)
  | cell i => rw [← h]; exact congrArg (Cells.mk c.head) (update_eq_self i c.next)

theorem Lists.set_other (h : c.Lists l) (hi : ∀ k, i ∉ l k) (v : Option ι) : (c.set (.cell i) v).Lists l where
  chain k := (h.chain k).update (hi k) v
  apart := h.apart

omit [DecidableEq ι] in
theorem apart_update {l' : List ι} (h : ∀ k k' i, i ∈ l k → i ∈ l k' → k = k')
    (hl' : ∀ j ∈ l', j ∈ l k ∨ ∀ k, j ∉ l k) (k₁ k₂ : κ) (j : ι) (h₁ : j ∈ update l k l' k₁)
    (h₂ : j ∈ update l k l' k₂) : k₁ = k₂ := by
  have hcases : ∀ k', j ∈ update l k l' k' → j ∈ l k' ∨ k' = k ∧ ∀ k, j ∉ l k := by
    intro k' hj
    rw [update_apply] at hj
    split_ifs at hj with hk
    · exact (hl' j hj).imp (fun hj => hk ▸ hj) fun hno => ⟨hk, hno⟩
    · exact .inl hj
  rcases hcases k₁ h₁ with h₁ | ⟨hk₁, hno⟩
  · rcases hcases k₂ h₂ with h₂ | ⟨-, hno⟩
    · exact h k₁ k₂ j h₁ h₂
    · exact absurd h₁ (hno k₁)
  · rcases hcases k₂ h₂ with h₂ | ⟨hk₂, -⟩
    · exact absurd h₂ (hno k₂)
    · rw [hk₁, hk₂]

theorem Lists.push (h : c.Lists l) (hi : ∀ k, i ∉ l k) (k : κ) :
    ((c.set (.cell i) (c.head k)).set (.head k) (some i)).Lists (update l k (i :: l k)) where
  chain k' := by
    have hold : ∀ k', Chain (update c.next i (c.head k)) (c.head k') (l k') :=
      fun k' => (h.chain k').update (hi k') _
    show Chain (update c.next i (c.head k)) (update c.head k (some i) k') _
    by_cases hk : k' = k
    · subst hk
      rw [update_self, update_self]
      apply Chain.cons
      rw [update_self]
      exact hold k'
    · rw [update_of_ne hk, update_of_ne hk]
      exact hold k'
  apart := apart_update h.apart fun j hj => by
    rcases mem_cons.1 hj with rfl | hj
    · exact .inr hi
    · exact .inl hj

theorem Lists.remove (h : c.Lists l) (hl : l k = pre ++ i :: post) :
    (c.set (placeAfter k pre) (c.next i)).Lists (update l k (pre ++ post)) where
  chain k' := by
    have hchain := h.chain k
    rw [hl] at hchain
    have htail := hchain.drop.of_cons.2
    rcases eq_nil_or_concat' pre with rfl | ⟨pre, j, rfl⟩
    · show Chain c.next (update c.head k (c.next i) k') _
      by_cases hk : k' = k
      · rw [hk, update_self, update_self]
        exact htail
      · rw [update_of_ne hk, update_of_ne hk]
        exact h.chain k'
    · rw [placeAfter_append]
      by_cases hk : k' = k
      · rw [hk, update_self]
        have hnodup := hchain.nodup
        have hpre : j ∉ pre := by
          rw [append_assoc] at hnodup
          exact fun hj => disjoint_of_nodup_append hnodup hj (mem_cons_self ..)
        have hpost : j ∉ post := fun hj => disjoint_of_nodup_append hnodup
          (mem_append_right _ mem_cons_self) (mem_cons_of_mem _ hj)
        have hkeep : ∀ x ∈ (pre ++ [j]).dropLast, update c.next j (c.next i) x = c.next x := by
          intro x hx
          rw [dropLast_concat] at hx
          exact update_of_ne (ne_of_mem_of_not_mem hx hpre) _ _
        have hlast : ∀ x ∈ (pre ++ [j]).getLast?, update c.next j (c.next i) x = c.next i := by
          intro x hx
          rw [List.getLast?_concat, Option.mem_some_iff] at hx
          rw [← hx, update_self]
        have hsplice := hchain.splice hkeep hlast (htail.update hpost _)
        rwa [if_neg (by simp)] at hsplice
      · rw [update_of_ne hk]
        refine (h.chain k').update (fun hj => hk ?_) _
        exact h.apart k' k j hj (hl ▸ mem_append_left _ (mem_append_right _ mem_cons_self))
  apart := apart_update h.apart fun j hj => .inl (hl ▸ ((sublist_cons_self i post).append_left pre).subset hj)

theorem Lists.append (h : c.Lists l) (hi : ∀ k, i ∉ l k) (k : κ) :
    ((c.set (placeAfter k (l k)) (some i)).set (.cell i) none).Lists (update l k (l k ++ [i])) where
  chain k' := by
    rcases eq_nil_or_concat' (l k) with hl | ⟨pre, j, hl⟩
    · rw [hl]
      show Chain (update c.next i none) (update c.head k (some i) k') _
      by_cases hk : k' = k
      · rw [hk, update_self, update_self]
        apply Chain.cons
        rw [update_self]
        exact .nil
      · rw [update_of_ne hk, update_of_ne hk]
        exact (h.chain k').update (hi k') _
    · have hjk : j ∈ l k := hl ▸ mem_append_right _ mem_cons_self
      rw [hl, placeAfter_append]
      by_cases hk : k' = k
      · rw [hk, update_self]
        have hchain := h.chain k
        rw [hl, ← append_nil (pre ++ [j])] at hchain
        have hpre : j ∉ pre := by
          have hnodup := (h.chain k).nodup
          rw [hl] at hnodup
          exact fun hj => disjoint_of_nodup_append hnodup hj mem_cons_self
        have hik := hi k
        rw [hl] at hik
        have hkeep : ∀ x ∈ (pre ++ [j]).dropLast,
            update (update c.next j (some i)) i none x = c.next x := by
          intro x hx
          rw [dropLast_concat] at hx
          have hxi : x ≠ i := fun hxi => hik (mem_append_left _ (hxi ▸ hx))
          rw [update_of_ne hxi, update_of_ne (ne_of_mem_of_not_mem hx hpre)]
        have hlast : ∀ x ∈ (pre ++ [j]).getLast?,
            update (update c.next j (some i)) i none x = some i := by
          intro x hx
          rw [List.getLast?_concat, Option.mem_some_iff] at hx
          have hji : j ≠ i := fun hji => hi k (hji ▸ hjk)
          rw [← hx, update_of_ne hji, update_self]
        have hnew : Chain (update (update c.next j (some i)) i none) (some i) [i] := by
          apply Chain.cons
          rw [update_self]
          exact .nil
        have hsplice := hchain.splice hkeep hlast hnew
        rwa [if_neg (by simp)] at hsplice
      · rw [update_of_ne hk]
        have hj : j ∉ l k' := fun hj => hk (h.apart k' k j hj hjk)
        exact ((h.chain k').update hj _).update (hi k') _
  apart := apart_update h.apart fun j hj => by
    rcases mem_append.1 hj with hj | hj
    · exact .inl hj
    · exact .inr (mem_singleton.1 hj ▸ hi)

end Cells

end LinkedList
