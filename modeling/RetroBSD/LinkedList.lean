import Mathlib

/-!
# Singly linked lists

`Chain next p l` says that following `next` from `p` visits the cells `l` and ends at a
null link. The rules say what the chain is after the link behind a first part of the
cells is changed, which covers insertion and removal at every place.
-/

namespace LinkedList

open List

variable {ι : Type*} {next next' : ι → Option ι} {p q : Option ι} {l l' pre post post' : List ι} {i : ι}

inductive Chain (next : ι → Option ι) : Option ι → List ι → Prop
  | nil : Chain next none []
  | cons {i : ι} {l : List ι} : Chain next (next i) l → Chain next (some i) (i :: l)

theorem Chain.eq_nil (h : Chain next none l) : l = [] := by
  cases h
  rfl

theorem Chain.of_nil (h : Chain next p []) : p = none := by
  cases h
  rfl

theorem Chain.uncons (h : Chain next (some i) l) : ∃ l', l = i :: l' ∧ Chain next (next i) l' := by
  cases h with
  | cons h => exact ⟨_, rfl, h⟩

theorem Chain.of_cons (h : Chain next p (i :: l)) : p = some i ∧ Chain next (next i) l := by
  cases h with
  | cons h => exact ⟨rfl, h⟩

theorem Chain.unique (h : Chain next p l) (h' : Chain next p l') : l = l' := by
  induction h generalizing l' with
  | nil => exact h'.eq_nil.symm
  | cons _ ih =>
    obtain ⟨l'', rfl, h''⟩ := h'.uncons
    rw [ih h'']

theorem Chain.congr (h : Chain next p l) (heq : ∀ i ∈ l, next' i = next i) : Chain next' p l := by
  induction h with
  | nil => exact .nil
  | @cons i l _ ih =>
    apply Chain.cons
    rw [heq i mem_cons_self]
    exact ih fun j hj => heq j (mem_cons_of_mem _ hj)

theorem Chain.update [DecidableEq ι] (h : Chain next p l) (hi : i ∉ l) (v : Option ι) :
    Chain (Function.update next i v) p l :=
  h.congr fun _ hj => Function.update_of_ne (ne_of_mem_of_not_mem hj hi) _ _

/-- The link behind the cells `pre` of a list with the first cell `p`. -/
def linkAfter (next : ι → Option ι) (p : Option ι) (pre : List ι) : Option ι :=
  match pre.getLast? with
  | none => p
  | some i => next i

theorem Chain.drop (h : Chain next p (pre ++ post)) : Chain next (linkAfter next p pre) post := by
  induction pre generalizing p with
  | nil => exact h
  | cons i pre ih =>
    have htail := ih (h.of_cons).2
    cases pre with
    | nil | cons => exact htail

/-- No cell is visited twice: from its first visit the chain would run forever. -/
theorem Chain.nodup (h : Chain next p l) : l.Nodup := by
  induction h with
  | nil => exact nodup_nil
  | @cons i l h ih =>
    refine nodup_cons.2 ⟨fun hmem => ?_, ih⟩
    obtain ⟨pre, post, rfl⟩ := append_of_mem hmem
    have hpost := (h.drop).of_cons
    have hlen := congrArg List.length (hpost.2.unique h)
    simp only [length_append, length_cons] at hlen
    omega

theorem Chain.splice (h : Chain next p (pre ++ post)) (hkeep : ∀ i ∈ pre.dropLast, next' i = next i)
    (hlast : ∀ i ∈ pre.getLast?, next' i = q) (hq : Chain next' q post') :
    Chain next' (if pre = [] then q else p) (pre ++ post') := by
  induction pre generalizing p with
  | nil => exact hq
  | cons i pre ih =>
    obtain ⟨rfl, htail⟩ := h.of_cons
    apply Chain.cons
    cases pre with
    | nil =>
      rw [hlast i rfl]
      exact hq
    | cons j pre =>
      rw [hkeep i mem_cons_self]
      have htail' := ih htail (fun k hk => hkeep k (mem_cons_of_mem _ hk)) hlast
      rwa [if_neg (cons_ne_nil _ _)] at htail'

end LinkedList
