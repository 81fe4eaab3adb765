import RetroBSD.LinkedQueues
import Mathlib

/-!
# Lists with links to links

Lists with heads of their own over one link field, in which a cell may also hold a pointer
to the link that leads to it. Only the lists in `B` keep these pointers up to date; the
others are singly linked.
-/

namespace LinkedList

open List

variable {κ ι : Type*}

namespace Cells

variable {c : Cells κ ι} {l : κ → List ι} {k : κ} {pre mid post : List ι} {i : ι} {fuel : ℕ}

def walk (c : Cells κ ι) : ℕ → Option ι → List ι
  | fuel + 1, some i => i :: c.walk fuel (c.next i)
  | _, _ => []

theorem walk_eq {p : Option ι} {l : List ι} (h : Chain c.next p l) (hfuel : l.length ≤ fuel) : c.walk fuel p = l := by
  induction h generalizing fuel with
  | nil => cases fuel <;> rfl
  | cons _ ih =>
    obtain _ | fuel := fuel
    · simp at hfuel
    · rw [walk, ih (Nat.le_of_succ_le_succ hfuel)]

theorem Lists.nodup (h : c.Lists l) (k : κ) : (l k).Nodup := (h.chain k).nodup

theorem Lists.walk [Fintype ι] (h : c.Lists l) (k : κ) : c.walk (Fintype.card ι) (c.head k) = l k :=
  walk_eq (h.chain k) (h.nodup k).length_le_card

def findLink [DecidableEq ι] (c : Cells κ ι) (p : ι) : ℕ → Place κ ι → Option (Place κ ι)
  | 0, _ => none
  | fuel + 1, q =>
    match c.get q with
    | none => none
    | some i => if i = p then some q else c.findLink p fuel (.cell i)

theorem Lists.findLink_after [DecidableEq ι] (h : c.Lists l) (hl : l k = pre ++ (mid ++ i :: post)) (hi : i ∉ mid)
    (hfuel : mid.length < fuel) : c.findLink i fuel (placeAfter k pre) = some (placeAfter k (pre ++ mid)) := by
  induction fuel generalizing pre mid with
  | zero => omega
  | succ fuel ih =>
    rw [findLink]
    cases mid with
    | nil =>
      rw [h.get_cons hl, append_nil]
      exact if_pos rfl
    | cons j mid =>
      rw [h.get_cons hl]
      have hj : j ≠ i := fun heq => hi (heq ▸ mem_cons_self)
      have hl' : l k = pre ++ [j] ++ (mid ++ i :: post) := by rw [hl, append_assoc]; rfl
      have hrest := ih hl' (fun hmem => hi (mem_cons_of_mem _ hmem)) (Nat.lt_of_succ_lt_succ hfuel)
      rw [placeAfter_append, append_assoc] at hrest
      exact (if_neg hj).trans hrest

theorem Lists.findLink [DecidableEq ι] [Fintype ι] (h : c.Lists l) (hi : i ∈ l k) :
    ∃ pre post, l k = pre ++ i :: post ∧ c.findLink i (Fintype.card ι) (.head k) = some (placeAfter k pre) := by
  obtain ⟨pre, post, hl⟩ := append_of_mem hi
  have hnodup := h.nodup k
  have hcard := hnodup.length_le_card
  rw [hl] at hnodup hcard
  have hpre : i ∉ pre := fun hmem => disjoint_of_nodup_append hnodup hmem mem_cons_self
  have hlt : pre.length < Fintype.card ι := by
    simp only [length_append, length_cons] at hcard
    omega
  exact ⟨pre, post, hl, h.findLink_after (show l k = [] ++ (pre ++ i :: post) from hl) hpre hlt⟩

end Cells

structure BackLinks (κ ι : Type*) where
  cells : Cells κ ι
  prev : ι → Option (Place κ ι)

namespace BackLinks

open Cells Function

variable {t t' : BackLinks κ ι} {B : κ → Prop} {l : κ → List ι} {k : κ} {pre post : List ι} {i : ι}

structure Holds (t : BackLinks κ ι) (B : κ → Prop) (l : κ → List ι) : Prop where
  lists : t.cells.Lists l
  prev : ∀ k, B k → ∀ pre i post, l k = pre ++ i :: post → t.prev i = some (placeAfter k pre)

theorem placeAfter_cons (i : ι) (hpre : pre ≠ []) : (placeAfter k (i :: pre) : Place κ ι) = placeAfter k pre := by
  obtain ⟨-, -, rfl⟩ := exists_cons_of_ne_nil hpre
  rfl

theorem placeAfter_middle (pre : List ι) (i : ι) {mid : List ι} (hmid : mid ≠ []) :
    (placeAfter k (pre ++ i :: mid) : Place κ ι) = placeAfter k (pre ++ mid) := by
  rcases eq_nil_or_concat' mid with rfl | ⟨mid, j, rfl⟩
  · exact absurd rfl hmid
  · have h1 : pre ++ i :: (mid ++ [j]) = (pre ++ i :: mid) ++ [j] := by simp
    have h2 : pre ++ (mid ++ [j]) = (pre ++ mid) ++ [j] := by simp
    rw [h1, h2, placeAfter_append, placeAfter_append]

variable (h : t.Holds B l)
include h

theorem Holds.next_eq (hl : l k = pre ++ i :: post) : t.cells.next i = post.head? := by
  cases post with
  | nil =>
    have hget := h.lists.get_nil (hl.trans rfl)
    rw [placeAfter_append] at hget
    exact hget
  | cons j post => exact h.lists.next_eq hl

variable [DecidableEq κ]

theorem Holds.prev_other {k' : κ} (hk : k' ≠ k) (hB : B k') {v : List ι}
    (hl : update l k v k' = pre ++ i :: post) : t.prev i = some (placeAfter k' pre) ∧ i ∈ l k' := by
  rw [update_of_ne hk] at hl
  exact ⟨h.prev k' hB pre i post hl, hl ▸ mem_append_right _ mem_cons_self⟩

omit h

variable [DecidableEq ι]

/-- Leads the link to a cell past it. There is no result when the cell has no pointer to
that link. -/
def unlink (t : BackLinks κ ι) (i : ι) : Option (BackLinks κ ι) :=
  match t.prev i with
  | none => none
  | some q =>
    let cells := t.cells.set q (t.cells.next i)
    match cells.next i with
    | none => some { t with cells := cells }
    | some j => some ⟨cells, update t.prev j (some q)⟩

def pushFront (t : BackLinks κ ι) (k : κ) (i : ι) : BackLinks κ ι :=
  let cells := t.cells.set (.cell i) (t.cells.head k)
  let prev := match cells.next i with
    | none => t.prev
    | some j => update t.prev j (some (.cell i))
  ⟨cells.set (.head k) (some i), update prev i (some (.head k))⟩

def pushPlain (t : BackLinks κ ι) (k : κ) (i : ι) : BackLinks κ ι :=
  { t with cells := (t.cells.set (.cell i) (t.cells.head k)).set (.head k) (some i) }

def popPlain (t : BackLinks κ ι) (k : κ) (i : ι) : BackLinks κ ι :=
  { t with cells := t.cells.set (.head k) (t.cells.next i) }

include h

theorem Holds.unlink (hB : B k) (hi : i ∈ l k) :
    ∃ t', t.unlink i = some t' ∧ t'.Holds B (update l k ((l k).erase i)) := by
  obtain ⟨pre, post, hl⟩ := append_of_mem hi
  have hnodup := h.lists.nodup k
  rw [hl] at hnodup
  have hpre : i ∉ pre := fun hmem => disjoint_of_nodup_append hnodup hmem mem_cons_self
  have herase : (l k).erase i = pre ++ post := by rw [hl, erase_append_right _ hpre, erase_cons_head]
  have hnext := h.next_eq hl
  have hself : (t.cells.set (placeAfter k pre) (t.cells.next i)).next i = post.head? := by
    have hget := get_set t.cells (placeAfter k pre) (.cell i) (t.cells.next i)
    split_ifs at hget with heq
    · exact hget.trans hnext
    · exact hget.trans hnext
  have hcall : t.unlink i = some ⟨t.cells.set (placeAfter k pre) (t.cells.next i), match post.head? with
      | none => t.prev
      | some j => update t.prev j (some (placeAfter k pre))⟩ := by
    rw [BackLinks.unlink, h.prev k hB pre i post hl]
    simp only [hself]
    cases post.head? <;> rfl
  refine ⟨_, hcall, ?_, ?_⟩
  · rw [herase]
    exact h.lists.remove hl
  · rw [herase]
    intro k' hB' pre' j post' hl'
    by_cases hk : k' = k
    · subst hk
      rw [update_self] at hl'
      have hnew : j ∉ pre' := by
        have hnodup' : (pre ++ post).Nodup := (nodup_cons.1 (nodup_middle.1 hnodup)).2
        rw [hl'] at hnodup'
        exact fun hmem => disjoint_of_nodup_append hnodup' hmem mem_cons_self
      rcases append_eq_append_iff.1 hl' with ⟨mid, rfl, hpost⟩ | ⟨mid, rfl, hmid⟩
      · -- a cell from behind the one taken out
        cases mid with
        | nil =>
          rw [append_nil, hpost]
          exact update_self ..
        | cons m mid =>
          have hjm : j ≠ m := fun hjm => hnew (hjm ▸ mem_append_right _ mem_cons_self)
          have hold := h.prev k' hB (pre ++ i :: m :: mid) j post' (by rw [hl, hpost]; simp)
          rw [placeAfter_middle pre i (cons_ne_nil _ _)] at hold
          rw [hpost]
          exact (update_of_ne hjm _ _).trans hold
      · cases mid with
        | nil =>
          rw [nil_append] at hmid
          rw [← hmid, append_nil]
          exact update_self ..
        | cons m mid =>
          obtain ⟨rfl, rfl⟩ := cons_eq_cons.1 hmid
          have hold := h.prev k' hB pre' j (mid ++ i :: post) (by rw [hl]; simp)
          have hj : j ∉ post := fun hmem => disjoint_of_nodup_append hnodup
            (mem_append_right _ mem_cons_self) (mem_cons_of_mem _ hmem)
          cases post with
          | nil => exact hold
          | cons m post =>
            have hjm : j ≠ m := fun hjm => hj (hjm ▸ mem_cons_self)
            exact (update_of_ne hjm _ _).trans hold
    · obtain ⟨hold, hmem⟩ := h.prev_other hk hB' hl'
      cases post with
      | nil => exact hold
      | cons m post =>
        have hjm : j ≠ m := by
          rintro rfl
          refine hk (h.lists.apart k' k j hmem ?_)
          rw [hl]
          exact mem_append_right _ (mem_cons_of_mem _ mem_cons_self)
        exact (update_of_ne hjm _ _).trans hold

theorem Holds.pushFront (hi : ∀ k, i ∉ l k) (k : κ) :
    (t.pushFront k i).Holds B (update l k (i :: l k)) where
  lists := h.lists.push hi k
  prev := by
    have hself : (t.cells.set (.cell i) (t.cells.head k)).next i = t.cells.head k := update_self ..
    intro k' hB' pre' j post' hl'
    show update (match (t.cells.set (.cell i) (t.cells.head k)).next i with
      | none => t.prev
      | some j => update t.prev j (some (.cell i))) i (some (.head k)) j = _
    rw [hself]
    have hold : ∀ m, m ∈ l k' → m ≠ i := fun m hm heq => hi k' (heq ▸ hm)
    by_cases hk : k' = k
    · subst hk
      rw [update_self] at hl'
      cases pre' with
      | nil =>
        obtain ⟨rfl, -⟩ := cons_eq_cons.1 hl'
        exact update_self ..
      | cons m pre' =>
        obtain ⟨rfl, hrest⟩ := cons_eq_cons.1 hl'
        replace hl' : l k' = pre' ++ j :: post' := hrest
        have hj : j ∈ l k' := hl' ▸ mem_append_right _ mem_cons_self
        rw [update_of_ne (hold j hj)]
        cases pre' with
        | nil =>
          rw [h.lists.head_eq hl']
          exact update_self ..
        | cons m pre' =>
          have hjm : j ≠ m := by
            rintro rfl
            have hnodup := h.lists.nodup k'
            rw [hl'] at hnodup
            exact disjoint_of_nodup_append hnodup mem_cons_self mem_cons_self
          rw [h.lists.head_eq hl', placeAfter_cons i (cons_ne_nil _ _)]
          exact (update_of_ne hjm _ _).trans (h.prev k' hB' _ j post' hl')
    · obtain ⟨hprev, hmem⟩ := h.prev_other hk hB' hl'
      rw [update_of_ne (hold j hmem)]
      cases hhead : t.cells.head k with
      | none => exact hprev
      | some m =>
        have hjm : j ≠ m := by
          rintro rfl
          have hchain := h.lists.chain k
          rw [hhead] at hchain
          obtain ⟨rest, hrest, -⟩ := hchain.uncons
          exact hk (h.lists.apart k' k j hmem (hrest ▸ mem_cons_self))
        exact (update_of_ne hjm _ _).trans hprev

theorem Holds.pushPlain (hB : ¬ B k) (hi : ∀ k, i ∉ l k) :
    (t.pushPlain k i).Holds B (update l k (i :: l k)) where
  lists := h.lists.push hi k
  prev k' hB' pre j post hl := by
    have hk : k' ≠ k := fun hk => hB (hk ▸ hB')
    exact (h.prev_other hk hB' hl).1

theorem Holds.popPlain (hB : ¬ B k) (hl : l k = i :: post) :
    (t.popPlain k i).Holds B (update l k post) where
  lists := h.lists.remove (show l k = [] ++ i :: post from hl)
  prev k' hB' pre j post hl := by
    have hk : k' ≠ k := fun hk => hB (hk ▸ hB')
    exact (h.prev_other hk hB' hl).1

end BackLinks

end LinkedList
