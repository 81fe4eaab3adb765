import RetroBSD.LinkedQueues

/-!
# Queues with links to links

A list with a head and a pointer to its last link, each cell of which also points to the
link that leads to it. The pointer to the last link is not kept up to date while the
queue is empty.
-/

namespace LinkedList

open Function List Cells

structure TailQueue (ι : Type*) where
  cells : Cells Unit ι
  prev : ι → Option (Place Unit ι)
  tail : Option (Place Unit ι)

namespace TailQueue

variable {ι : Type*} {t t' : TailQueue ι} {l pre post : List ι} {i j : ι} {q : Place Unit ι}

def InQueue (l : List ι) : Place Unit ι → Prop
  | .head _ => True
  | .cell i => i ∈ l

structure Holds (t : TailQueue ι) (l : List ι) : Prop where
  lists : t.cells.Lists fun _ => l
  prev : ∀ i ∈ l, ∃ q, t.prev i = some q ∧ InQueue l q ∧ t.cells.get q = some i
  tail : l ≠ [] → t.tail = some (placeAfter () l)

theorem Holds.nodup (h : t.Holds l) : l.Nodup := (h.lists.chain ()).nodup

theorem Holds.head_eq_none (h : t.Holds l) : t.cells.head () = none ↔ l = [] := by
  constructor
  · intro hhead
    have hchain := h.lists.chain ()
    rw [hhead] at hchain
    exact hchain.eq_nil
  · rintro rfl
    exact (h.lists.chain ()).of_nil

theorem Holds.of_head (h : t.Holds l) (hi : t.cells.head () = some i) : ∃ post, l = i :: post := by
  have hchain := h.lists.chain ()
  rw [hi] at hchain
  obtain ⟨post, hl, -⟩ := hchain.uncons
  exact ⟨post, hl⟩

theorem Holds.split (h : t.Holds l) (hq : InQueue l q) (hget : t.cells.get q = some i) :
    ∃ pre post, l = pre ++ i :: post ∧ q = placeAfter () pre := by
  cases q with
  | head =>
    obtain ⟨post, rfl⟩ := h.of_head hget
    exact ⟨[], post, rfl, rfl⟩
  | cell m =>
    obtain ⟨pre, post, rfl⟩ := append_of_mem hq
    have hdrop := ((h.lists.chain ()).drop.of_cons).2
    rw [show t.cells.next m = some i from hget] at hdrop
    obtain ⟨post, rfl, -⟩ := hdrop.uncons
    exact ⟨pre ++ [m], post, by simp, by simp⟩

theorem Holds.next_ne_self (h : t.Holds (pre ++ i :: post)) : t.cells.next i ≠ some i := by
  intro hnext
  have hdrop := (h.lists.chain ()).drop.of_cons.2
  rw [hnext] at hdrop
  obtain ⟨post, rfl, -⟩ := hdrop.uncons
  have hnodup := (nodup_append.1 h.nodup).2.1
  exact (nodup_cons.1 hnodup).1 mem_cons_self

theorem placeAfter_append_cons (pre post : List ι) (i j : ι) :
    placeAfter () (pre ++ i :: j :: post) = placeAfter () (pre ++ j :: post) := by
  simp [placeAfter]

theorem update_unit {α : Type*} (f : Unit → α) (v : α) : update f () v = fun _ => v :=
  funext fun _ => update_self ..

theorem inQueue_placeAfter (pre post : List ι) : InQueue (pre ++ post) (placeAfter () pre) := by
  rcases eq_nil_or_concat' pre with rfl | ⟨pre, j, rfl⟩
  · trivial
  · rw [placeAfter_append]
    exact mem_append_left _ (mem_append_right _ mem_cons_self)

theorem Holds.congr (h : t.Holds l) (hhead : t'.cells.head () = t.cells.head ())
    (hnext : ∀ i ∈ l, t'.cells.next i = t.cells.next i) (hprev : ∀ i ∈ l, t'.prev i = t.prev i)
    (htail : t'.tail = t.tail) : t'.Holds l where
  lists := by
    refine ⟨fun _ => ?_, h.lists.apart⟩
    rw [hhead]
    exact (h.lists.chain ()).congr hnext
  prev i hi := by
    obtain ⟨q, hq, hql, hget⟩ := h.prev i hi
    refine ⟨q, (hprev i hi).trans hq, hql, ?_⟩
    cases q with
    | head => exact hhead.trans hget
    | cell m => exact (hnext m hql).trans hget
  tail hl := htail.trans (h.tail hl)

variable [DecidableEq ι]

def clear (t : TailQueue ι) (i : ι) : TailQueue ι :=
  { t with cells := t.cells.set (.cell i) none, prev := update t.prev i none }

/-- Takes a cell out of the queue. There is no result when it has no link to a link. -/
def remove (t : TailQueue ι) (i : ι) : Option (TailQueue ι) :=
  let iq := t.cells.next i
  let t := match iq with
    | some j => { t with prev := update t.prev j (t.prev i) }
    | none => { t with tail := t.prev i }
  match t.prev i with
  | none => none
  | some q => some (({ t with cells := t.cells.set q iq } : TailQueue ι).clear i)

def takeHead (t : TailQueue ι) (i : ι) : TailQueue ι :=
  let iq := t.cells.next i
  let t := match iq with
    | some j => { t with prev := update t.prev j (some (.head ())) }
    | none => t
  ({ t with cells := t.cells.set (.head ()) iq } : TailQueue ι).clear i

/-- Puts a cell behind the others. There is no result when the queue is not empty and
the pointer to its last link is null. -/
def pushBack (t : TailQueue ι) (i : ι) : Option (TailQueue ι) :=
  let t := match t.cells.head (), t.tail with
    | some _, none => none
    | some _, some q => some { t with cells := t.cells.set q (some i), prev := update t.prev i (some q) }
    | none, _ => some { t with
        cells := t.cells.set (.head ()) (some i), prev := update t.prev i (some (.head ())) }
  t.map fun t => { t with cells := t.cells.set (.cell i) none, tail := some (.cell i) }

theorem Holds.unlink (h : t.Holds (pre ++ i :: post))
    (hcells : t'.cells = (t.cells.set (placeAfter () pre) (t.cells.next i)).set (.cell i) none)
    (hnext : ∀ j, t.cells.next i = some j → t'.prev j = some (placeAfter () pre))
    (hprev : ∀ j, j ≠ i → t.cells.next i ≠ some j → t'.prev j = t.prev j)
    (htail : pre ++ post ≠ [] → t'.tail = if t.cells.next i = none then some (placeAfter () pre) else t.tail) :
    t'.Holds (pre ++ post) where
  lists := by
    have hremove := h.lists.remove (k := ()) rfl
    rw [hcells]
    exact hremove.set_other (fun _ => (nodup_cons.1 (nodup_middle.1 h.nodup)).1) none
  prev j hj := by
    have hi : i ∉ pre ++ post := (nodup_cons.1 (nodup_middle.1 h.nodup)).1
    have hji : j ≠ i := ne_of_mem_of_not_mem hj hi
    have hpre := inQueue_placeAfter pre post
    rw [hcells]
    simp only [get_set]
    by_cases hnj : t.cells.next i = some j
    · refine ⟨placeAfter () pre, hnext j hnj, hpre, ?_⟩
      rw [if_neg, if_pos rfl, hnj]
      intro hpi
      rw [hpi] at hpre
      exact hi hpre
    · obtain ⟨q, hq, hin, hget⟩ := h.prev j (perm_middle.mem_iff.2 (mem_cons_of_mem _ hj))
      have hqi : q ≠ .cell i := by
        rintro rfl
        exact hnj hget
      have hqpre : q ≠ placeAfter () pre := by
        rintro rfl
        rw [h.lists.get_cons rfl, Option.some.injEq] at hget
        exact hji hget.symm
      refine ⟨q, (hprev j hji hnj).trans hq, ?_, ?_⟩
      · cases q with
        | head => trivial
        | cell m =>
          rcases mem_cons.1 (perm_middle.mem_iff.1 hin) with rfl | hm
          · exact absurd rfl hqi
          · exact hm
      · rw [if_neg hqi, if_neg hqpre, hget]
  tail hne := by
    rw [htail hne]
    cases post with
    | nil =>
      have hlast : t.cells.get (placeAfter () (pre ++ [i])) = none := h.lists.get_nil rfl
      rw [placeAfter_append] at hlast
      rw [if_pos (show t.cells.next i = none from hlast), append_nil]
    | cons j post =>
      have hnj := h.lists.next_eq (k := ()) rfl
      rw [hnj, if_neg (by simp), h.tail (by simp), placeAfter_append_cons]

theorem Holds.remove (h : t.Holds l) (hi : i ∈ l) : ∃ t', t.remove i = some t' ∧ t'.Holds (l.erase i) := by
  obtain ⟨q, hq, hin, hget⟩ := h.prev i hi
  obtain ⟨pre, post, rfl, rfl⟩ := h.split hin hget
  have hpre : i ∉ pre := fun hmem => disjoint_of_nodup_append h.nodup hmem mem_cons_self
  rw [erase_append_right _ hpre, erase_cons_head]
  cases hnext : t.cells.next i with
  | none =>
    have heq : t.remove i = some (clear ⟨t.cells.set (placeAfter () pre) none, t.prev, t.prev i⟩ i) := by
      simp only [TailQueue.remove, hnext, hq]
    refine ⟨_, heq, h.unlink ?_ ?_ ?_ ?_⟩
    · rw [hnext]
      rfl
    · intro j hj
      rw [hnext] at hj
      cases hj
    · intro j hj _
      exact update_of_ne hj _ _
    · intro _
      rw [if_pos hnext]
      exact hq
  | some j =>
    have hij : i ≠ j := by
      rintro rfl
      exact h.next_ne_self hnext
    have heq : t.remove i = some (clear ⟨t.cells.set (placeAfter () pre) (some j),
        update t.prev j (t.prev i), t.tail⟩ i) := by
      simp only [TailQueue.remove, hnext, hq, update_of_ne hij]
    refine ⟨_, heq, h.unlink ?_ ?_ ?_ ?_⟩
    · rw [hnext]
      rfl
    · intro m hm
      obtain rfl : j = m := Option.some.inj (hnext.symm.trans hm)
      exact (update_of_ne hij.symm _ _).trans ((update_self ..).trans hq)
    · intro m hm hnm
      have hmj : m ≠ j := fun hmj => hnm (hmj ▸ hnext)
      exact (update_of_ne hm _ _).trans (update_of_ne hmj _ _)
    · intro _
      rw [if_neg (by rw [hnext]; simp)]
      rfl

theorem Holds.takeHead (h : t.Holds (i :: post)) : (t.takeHead i).Holds post := by
  have h' : t.Holds ([] ++ i :: post) := h
  refine h'.unlink ?_ ?_ ?_ ?_
  · cases hnext : t.cells.next i <;> simp [TailQueue.takeHead, clear, hnext]
  · intro j hj
    have hji : j ≠ i := by
      rintro rfl
      exact h'.next_ne_self hj
    simp [TailQueue.takeHead, clear, hj, hji]
  · intro j hj hnj
    cases hnext : t.cells.next i with
    | none => simp [TailQueue.takeHead, clear, hnext, hj]
    | some m =>
      have hjm : j ≠ m := fun hjm => hnj (hjm ▸ hnext)
      simp [TailQueue.takeHead, clear, hnext, hj, hjm]
  · intro hne
    cases post with
    | nil => exact absurd rfl hne
    | cons j post =>
      have hnext : t.cells.next i = some j :=
        h.lists.next_eq (k := ()) (show _ = [] ++ i :: j :: post from rfl)
      simp [TailQueue.takeHead, clear, hnext]

theorem Holds.pushBack (h : t.Holds l) (hi : i ∉ l) : ∃ t', t.pushBack i = some t' ∧ t'.Holds (l ++ [i]) := by
  have heq : t.pushBack i = some ⟨(t.cells.set (placeAfter () l) (some i)).set (.cell i) none,
      update t.prev i (some (placeAfter () l)), some (.cell i)⟩ := by
    cases hhead : t.cells.head () with
    | none =>
      rw [h.head_eq_none.1 hhead]
      simp [TailQueue.pushBack, hhead]
    | some j =>
      obtain ⟨post, rfl⟩ := h.of_head hhead
      simp [TailQueue.pushBack, hhead, h.tail]
  have hin : ∀ q, InQueue l q → InQueue (l ++ [i]) q := by
    intro q hq
    cases q with
    | head => trivial
    | cell m => exact mem_append_left _ hq
  have hplace : placeAfter () l ≠ .cell i := by
    intro hplace
    have hmem := inQueue_placeAfter l []
    rw [hplace, append_nil] at hmem
    exact hi hmem
  refine ⟨_, heq, ?_, ?_, ?_⟩
  · have happend := h.lists.append (fun _ => hi) ()
    rwa [update_unit] at happend
  · intro j hj
    simp only [get_set]
    rcases mem_append.1 hj with hj | hj
    · have hji : j ≠ i := ne_of_mem_of_not_mem hj hi
      obtain ⟨q, hq, hql, hget⟩ := h.prev j hj
      refine ⟨q, (update_of_ne hji _ _).trans hq, hin q hql, ?_⟩
      rw [if_neg, if_neg, hget]
      · rintro rfl
        rw [h.lists.get_nil rfl] at hget
        cases hget
      · rintro rfl
        exact hi hql
    · obtain rfl := mem_singleton.1 hj
      refine ⟨_, update_self .., inQueue_placeAfter l [j], ?_⟩
      rw [if_neg hplace, if_pos rfl]
  · intro _
    rw [placeAfter_append]

theorem Holds.link (h : t.Holds l) (hl : l ≠ []) (hq : t.tail = some q) (hi : i ∉ l) (hnext : t.cells.next i = none) :
    Holds ⟨t.cells.set q (some i), update t.prev i (some q), some (.cell i)⟩ (l ++ [i]) := by
  obtain ⟨t', ht', hlt⟩ := h.pushBack hi
  obtain ⟨j, hj⟩ : ∃ j, t.cells.head () = some j := by
    rw [← Option.ne_none_iff_exists']
    exact fun hnone => hl (h.head_eq_none.1 hnone)
  have hqi : (.cell i : Place Unit ι) ≠ q := by
    rintro rfl
    have htail := h.tail hl
    rw [hq, Option.some.injEq] at htail
    have hmem := inQueue_placeAfter l []
    rw [← htail, append_nil] at hmem
    exact hi hmem
  have hcells : (t.cells.set q (some i)).set (.cell i) none = t.cells.set q (some i) := by
    apply set_of_get
    rw [get_set, if_neg hqi]
    exact hnext
  simp only [TailQueue.pushBack, hj, hq, Option.map_some, hcells, Option.some.injEq] at ht'
  rwa [← ht'] at hlt

end TailQueue

end LinkedList
