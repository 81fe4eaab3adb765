import RetroBSD.ClistOps
import RetroBSD.Ownership
import RetroBSD.Runs

/-!
# Clists as byte queues

Any number of clists share the blocks that `cinit` put on the free list. In every
sequence of calls each of them behaves as a queue of bytes, and each block is on
exactly one list.
-/

namespace RetroBSD.Tty

open LittleEndian ByteCopy Ownership Runs Function List

inductive Call (ι : Type*)
  | putc (c : ℤ) (p : ι)
  | getc (p : ι)
  | bToQ (data : List UInt8) (q : ι)
  | qToB (q : ι) (cc : ℤ)
  | ndqb (q : ι) (flag : ℤ)
  | ndflush (q : ι) (cc : ℤ)
  | unputc (p : ι)
  | catq (fromq toq : ι)

inductive Answer
  | int (n : ℤ)
  | chars (data : List UInt8)
  | none
  deriving DecidableEq

/-- A call, its answer, and whether the free list is empty after it. -/
structure Event (ι : Type*) where
  call : Call ι
  answer : Answer
  exhausted : Bool

/-! ## Byte queues -/

section Abstract

variable {ι : Type*} [DecidableEq ι]

/-- The calls on queues of bytes. Appending may stop early, but only when the blocks
are used up; `ndqb` may look at a first part of the queue only. -/
def QueueStep (Q : ι → List UInt8) (e : Event ι) (Q' : ι → List UInt8) : Prop :=
  match e.call with
  | .putc c i =>
    e.answer = .int 0 ∧ Q' = update Q i (Q i ++ [charOf c]) ∨
      e.answer = .int (-1) ∧ e.exhausted = true ∧ Q' = Q
  | .getc i =>
    Q i = [] ∧ e.answer = .int (-1) ∧ Q' = Q ∨
      ∃ x rest, Q i = x :: rest ∧ e.answer = .int x.toNat ∧ Q' = update Q i rest
  | .bToQ data i => ∃ k ≤ data.length, e.answer = .int (data.length - k) ∧
      (k < data.length → e.exhausted = true) ∧ Q' = update Q i (Q i ++ data.take k)
  | .qToB i cc =>
    e.answer = .chars ((Q i).take cc.toNat) ∧ Q' = update Q i ((Q i).drop cc.toNat)
  | .ndqb i flag => Q' = Q ∧ ∃ n ≤ (Q i).length, e.answer = .int n ∧
      (∀ x ∈ (Q i).take n, flagged flag x = false) ∧
      (n = 0 → ∀ x ∈ (Q i).head?, flagged flag x = true)
  | .ndflush i cc => Q' = update Q i ((Q i).drop cc.toNat)
  | .unputc i =>
    Q i = [] ∧ e.answer = .int (-1) ∧ Q' = Q ∨
      ∃ rest x c, Q i = rest ++ [x] ∧ e.answer = .int c ∧ c % 256 = x.toNat ∧ Q' = update Q i rest
  | .catq i j => Q' = update (update Q i []) j (Q j ++ Q i)

end Abstract

/-! ## The clists of the system -/

structure Clists (ι : Type*) where
  pool : Pool
  queue : ι → Clist

section Concrete

variable {ι : Type*} [DecidableEq ι]

def Clists.exec (s : Clists ι) : Call ι → Answer × Clists ι
  | .putc c i =>
    let r := putc s.pool c (s.queue i)
    (.int r.1, ⟨r.2.1, update s.queue i r.2.2⟩)
  | .getc i =>
    let r := getc s.pool (s.queue i)
    (.int r.1, ⟨r.2.1, update s.queue i r.2.2⟩)
  | .bToQ data i =>
    let r := bToQ s.pool data (s.queue i)
    (.int r.1, ⟨r.2.1, update s.queue i r.2.2⟩)
  | .qToB i cc =>
    let r := qToB s.pool (s.queue i) cc
    (.chars r.1, ⟨r.2.1, update s.queue i r.2.2⟩)
  | .ndqb i flag => (.int (ndqb s.pool (s.queue i) flag), s)
  | .ndflush i cc =>
    let r := ndflush s.pool (s.queue i) cc
    (.none, ⟨r.1, update s.queue i r.2⟩)
  | .unputc i =>
    let r := unputc s.pool (s.queue i)
    (.int r.1, ⟨r.2.1, update s.queue i r.2.2⟩)
  | .catq i j =>
    let r := catq s.pool (s.queue i) (s.queue j)
    (.none, ⟨r.1, update (update s.queue i r.2.1) j r.2.2⟩)

/-- The call ends. Of a queue with characters to itself, the loop of `catq` would not; an empty
queue is left as it is. -/
def Clists.Ends (s : Clists ι) : Call ι → Prop
  | .catq i j => i = j → (s.queue i).cCc = 0
  | _ => True

def Clists.Step (s : Clists ι) (e : Event ι) (s' : Clists ι) : Prop :=
  s.Ends e.call ∧ s.exec e.call = (e.answer, s') ∧ e.exhausted = decide (s'.pool.cfreelist = 0)

theorem Clists.step_exec (s : Clists ι) {e : Event ι} (hends : s.Ends e.call)
    (hans : (s.exec e.call).1 = e.answer)
    (hfull : e.exhausted = decide ((s.exec e.call).2.pool.cfreelist = 0)) :
    s.Step e (s.exec e.call).2 := ⟨hends, by rw [← hans], hfull⟩

/-- The lists on which the blocks `A` are, `none` for the free list. -/
structure Clists.Holding (s : Clists ι) (A : Set ℕ) (lists : Option ι → List ℕ)
    (Q : ι → List UInt8) : Prop where
  blocks : ∀ b ∈ A, IsBlock b
  owned : Partitions (fun o => {b | b ∈ lists o}) A
  nodup : ∀ o, (lists o).Nodup
  free : Free s.pool.mem s.pool.cfreelist (lists none)
  count : s.pool.cfreecount = cbsize * (lists none).length
  queue : ∀ i, Queue s.pool.mem (s.queue i) (lists (some i)) (Q i)

variable {s : Clists ι} {A : Set ℕ} {lists : Option ι → List ℕ} {Q : ι → List UInt8}
  {q : List UInt8}

theorem Queue.congr {mem mem' : Memory} {p : Clist} {bs : List ℕ} (h : Queue mem p bs q)
    (hblocks : ∀ b ∈ bs, IsBlock b) (hframe : ∀ a, cbase a ∈ bs → mem' a = mem a) :
    Queue mem' p bs q := by
  refine ⟨h.count, h.chars.imp id fun hr => ⟨hr.1, hr.2.1, ?_⟩⟩
  apply hr.2.2.congr (fun b hb => (hblocks b hb).1) fun a ha _ => hframe a ha
  intro b hb
  have hmem := (dropLast_sublist bs).subset hb
  apply word_frame (hblocks b hmem)
  intro a ha
  exact hframe a (ha ▸ hmem)

variable (h : s.Holding A lists Q)
include h

omit [DecidableEq ι] in
theorem Clists.Holding.apart {o o' : Option ι} (ho : o ≠ o') {b : ℕ}
    (hb : b ∈ lists o) : b ∉ lists o' := Set.disjoint_left.1 (h.owned.disjoint ho) hb

omit [DecidableEq ι] in
theorem Clists.Holding.owns (i : ι) :
    Owned s.pool (lists none) (s.queue i) (lists (some i)) (Q i) := by
  refine ⟨⟨h.free, h.count, ?_, ?_⟩, h.queue i⟩
  · refine nodup_append.2 ⟨h.nodup _, h.nodup _, ?_⟩
    rintro b hb c hc rfl
    exact h.apart (Option.some_ne_none i) hb hc
  · intro b hb
    rcases mem_append.1 hb with hb | hb
    · exact h.blocks b (h.owned.1 _ hb)
    · exact h.blocks b (h.owned.1 _ hb)

omit h

def relist (lists : Option ι → List ℕ) (i : ι) (bs fl : List ℕ) : Option ι → List ℕ
  | none => fl
  | some j => if j = i then bs else lists (some j)

include h

variable {i : ι}

theorem Clists.Holding.relist {pool' : Pool} {p' : Clist} {q' : List UInt8}
    {bs' fl' : List ℕ} (howned : Owned pool' fl' p' bs' q')
    (hmoves : Moves s.pool pool' (lists (some i) ++ lists none) (bs' ++ fl')) :
    Clists.Holding ⟨pool', update s.queue i p'⟩ A (Tty.relist lists i bs' fl') (update Q i q') := by
  have hi : Tty.relist lists i bs' fl' (some i) = bs' := if_pos rfl
  have hnone : Tty.relist lists i bs' fl' none = fl' := rfl
  have hother : ∀ j, j ≠ i → Tty.relist lists i bs' fl' (some j) = lists (some j) :=
    fun j hj => if_neg hj
  have hnodup := nodup_append.1 howned.stock.nodup
  refine ⟨h.blocks, ?_, ?_, ?_, ?_, ?_⟩
  · apply h.owned.exchange (i := some i) (j := none)
    · rw [Set.disjoint_left]
      intro b hb hb'
      simp only [hi] at hb hb'
      exact hnodup.2.2 b hb b hb' rfl
    · ext b
      simp only [hi, hnone, Set.mem_union, Set.mem_ofPred_eq]
      rw [← mem_append, ← mem_append, hmoves.perm.mem_iff]
    · rintro (_ | j) hj hj'
      · exact absurd rfl hj'
      · rw [hother j (by simpa using hj)]
  · rintro (_ | j)
    · exact hnodup.2.1
    · by_cases hj : j = i
      · rw [hj, hi]
        exact hnodup.1
      · rw [hother j hj]
        exact h.nodup _
  · exact howned.stock.free
  · exact howned.stock.count
  · intro j
    by_cases hj : j = i
    · subst hj
      rw [hi]
      simp only [update_self]
      exact howned.queue
    · rw [hother j hj]
      simp only [update_of_ne hj]
      apply (h.queue j).congr fun b hb => h.blocks b (h.owned.1 _ hb)
      intro a ha
      apply hmoves.frame
      rw [mem_append]
      rintro (hmem | hmem)
      · exact h.apart (by simpa using hj) ha hmem
      · exact h.apart (by simp) ha hmem

theorem Clists.Holding.step {pool' : Pool} {p' : Clist}
    {q' : List UInt8} (hstep : Becomes s.pool pool' (lists (some i)) (lists none) p' q') :
    ∃ lists', Clists.Holding ⟨pool', update s.queue i p'⟩ A lists' (update Q i q') ∧
      (∀ j, j ≠ i → lists' (some j) = lists (some j)) ∧
      (lists' (some i)).length + (lists' none).length =
        (lists (some i)).length + (lists none).length := by
  obtain ⟨bs', fl', howned, hmoves⟩ := hstep
  refine ⟨_, h.relist howned hmoves, fun j hj => if_neg hj, ?_⟩
  have hlen := hmoves.perm.length_eq
  rw [length_append, length_append] at hlen
  rw [Tty.relist, Tty.relist, if_pos rfl, hlen]

/-! ## `catq` -/

omit h in
theorem qToB_room {s0 s1 : Pool} {fl0 fl1 bs0 bs1 : List ℕ} {p0 p1 : Clist}
    (h0 : Owned s0 fl0 p0 bs0 q) (h1 : Owned s1 fl1 p1 bs1 (q.drop (cbsize * 4)))
    (hcl : 0 < p1.cCc → p1.cCl = p0.cCl) :
    (q.take (cbsize * 4)).length + cbsize * bs1.length ≤ cbsize * bs0.length := by
  by_cases hq : q = []
  · subst hq
    rw [h1.empty.2, h0.empty.2]
    rfl
  have hcap0 := (h0.holds hq).2.capacity h0.stock.aligned
  have hmod0 := h0.front_mod hq
  rw [length_take]
  by_cases hleft : q.drop (cbsize * 4) = []
  · rw [hleft] at h1
    rw [h1.empty.2, length_nil]
    omega
  · have hcount := h1.queue.count
    have hpos := length_pos_iff.2 hleft
    have hcap1 := (h1.holds hleft).2.capacity h1.stock.aligned
    rw [hcl (by omega)] at hcap1
    rw [length_drop] at hcap1 hpos
    simp only [cblock, cbsize] at *
    omega

variable {j : ι}

/-- One round of `catq` moves what it takes: nothing is lost for want of a block. -/
theorem Clists.Holding.catqRound (hij : i ≠ j)
    {r : List UInt8 × Pool × Clist} (hr : r = qToB s.pool (s.queue i) (cbsize * 4 : ℕ))
    {w : ℕ × Pool × Clist} (hw : w = bToQ r.2.1 r.1 (s.queue j)) :
    ∃ lists', Clists.Holding
      ⟨w.2.1, update (update s.queue i r.2.2) j w.2.2⟩ A lists'
      (update (update Q i ((Q i).drop (cbsize * 4))) j (Q j ++ (Q i).take (cbsize * 4))) := by
  obtain ⟨hdata, hfront⟩ := qToB_spec (h.owns i) (cbsize * 4 : ℕ)
  have hcl := qToB_cCl s.pool (s.queue i) (cbsize * 4 : ℕ)
  rw [← hr, Int.toNat_natCast] at hdata hfront
  rw [← hr] at hcl
  obtain ⟨lists1, h1, -, hlen1⟩ := h.step hfront
  have howns := h1.owns i
  have hroom := qToB_room (h.owns i) (by simpa using howns) hcl
  have hj := h1.owns j
  simp only [update_of_ne hij.symm] at hj
  have hfit : r.1.length = min r.1.length
      (tailRoom (s.queue j).cCl + cbsize * (lists1 none).length) := by
    rw [hdata]
    simp only [cbsize] at *
    omega
  obtain ⟨_, _, hback⟩ := bToQ_spec hj r.1 hfit
  rw [← hw, take_length, hdata] at hback
  obtain ⟨lists2, h2, _⟩ := h1.step hback
  exact ⟨lists2, h2⟩

variable {r : Pool × Clist × Clist}

theorem Clists.Holding.catqDone (hnil : Q i = []) (hr : r = (s.pool, s.queue i, s.queue j)) :
    ∃ lists', Clists.Holding ⟨r.1, update (update s.queue i r.2.1) j r.2.2⟩ A lists'
      (update (update Q i []) j (Q j ++ Q i)) := by
  subst hr
  rw [hnil, append_nil]
  simp only [update_eq_self]
  rw [← hnil, update_eq_self, update_eq_self]
  exact ⟨lists, h⟩

omit h

theorem update_update_of_ne {β : Type*} (hij : i ≠ j) (f : ι → β) (a b c d : β) :
    update (update (update (update f i a) j b) i c) j d = update (update f i c) j d := by
  rw [update_comm hij.symm, update_idem, update_idem]

theorem Clists.Holding.catqLoop (fuel : ℕ) (h : s.Holding A lists Q) (hij : i ≠ j)
    (hfuel : (Q i).length ≤ fuel)
    (hr : r = catqLoop fuel s.pool (s.queue i) (s.queue j)) :
    ∃ lists', Clists.Holding ⟨r.1, update (update s.queue i r.2.1) j r.2.2⟩ A lists'
      (update (update Q i []) j (Q j ++ Q i)) := by
  induction fuel generalizing s lists Q with
  | zero => exact h.catqDone (eq_nil_of_length_eq_zero (by omega)) hr
  | succ fuel ih =>
    have hcount := (h.queue i).count
    rw [Tty.catqLoop] at hr
    by_cases hq : Q i = []
    · rw [hq] at hcount
      rw [if_neg (by rw [hcount]; decide)] at hr
      exact h.catqDone hq hr
    · have hpos := length_pos_iff.2 hq
      rw [if_pos (by omega)] at hr
      set t := qToB s.pool (s.queue i) (cbsize * 4 : ℕ) with ht
      set w := bToQ t.2.1 t.1 (s.queue j) with hw
      obtain ⟨lists1, h1⟩ := h.catqRound hij ht hw
      have hlast : r = Tty.catqLoop fuel w.2.1 t.2.2 w.2.2 := by
        rw [hr, ht]
        rfl
      obtain ⟨lists2, h2⟩ := ih h1 (by
          rw [update_of_ne hij, update_self, length_drop]
          simp only [cbsize]
          omega)
        (by simpa only [update_of_ne hij, update_self] using hlast)
      rw [update_of_ne hij, update_self, update_self, append_assoc, take_append_drop] at h2
      simp only [update_update_of_ne hij] at h2
      exact ⟨lists2, h2⟩

include h

theorem Clists.Holding.handOver (hij : i ≠ j) (hnil : Q j = []) :
    ∃ lists', Clists.Holding
      ⟨s.pool, update (update s.queue i ⟨0, 0, 0⟩) j (s.queue i)⟩ A lists'
      (update (update Q i []) j (Q j ++ Q i)) := by
  have hempty : lists (some j) = [] := by
    have := h.owns j
    rw [hnil] at this
    exact this.empty.2
  let lists' := update (update lists (some i) []) (some j) (lists (some i))
  have hij' : some i ≠ some j := by simpa using hij
  have hi : lists' (some i) = [] := by
    simp only [lists', update_of_ne hij', update_self]
  have hj : lists' (some j) = lists (some i) := by
    simp only [lists', update_self]
  have hrest : ∀ o, o ≠ some i → o ≠ some j → lists' o = lists o := by
    intro o ho ho'
    simp only [lists', update_of_ne ho', update_of_ne ho]
  have hnone : lists' none = lists none := hrest none (by simp) (by simp)
  refine ⟨lists', h.blocks, ?_, ?_, by exact h.free, by exact h.count, ?_⟩
  · apply h.owned.exchange (i := some i) (j := some j)
    · simp [hi]
    · simp [hi, hj, hempty]
    · intro o ho ho'
      rw [hrest o ho ho']
  · intro o
    by_cases hoj : o = some j
    · rw [hoj, hj]
      exact h.nodup _
    · by_cases hoi : o = some i
      · rw [hoi, hi]
        exact nodup_nil
      · rw [hrest o hoi hoj]
        exact h.nodup _
  · intro k
    by_cases hkj : k = j
    · rw [hkj, hj, hnil]
      simp only [update_self]
      exact h.queue i
    · simp only [update_of_ne hkj]
      by_cases hki : k = i
      · rw [hki, hi]
        simp only [update_self]
        exact queue_empty _
      · rw [hrest (some k) (by simpa using hki) (by simpa using hkj)]
        simp only [update_of_ne hki]
        exact h.queue k

theorem Clists.Holding.catq (hij : i ≠ j) (hr : r = catq s.pool (s.queue i) (s.queue j)) :
    ∃ lists', Clists.Holding ⟨r.1, update (update s.queue i r.2.1) j r.2.2⟩ A lists'
      (update (update Q i []) j (Q j ++ Q i)) := by
  have hcount := (h.queue j).count
  rw [Tty.catq] at hr
  by_cases hj : Q j = []
  · rw [if_pos (by rw [hcount, hj]; rfl)] at hr
    subst hr
    exact h.handOver hij hj
  · have hpos := length_pos_iff.2 hj
    have hfrom := (h.queue i).count
    rw [if_neg (by omega)] at hr
    exact h.catqLoop _ hij (by omega) hr

theorem Clists.Holding.catqSelf (hzero : (s.queue i).cCc = 0) :
    ∃ lists', Clists.Holding (s.exec (.catq i i)).2 A lists'
      (update (update Q i []) i (Q i ++ Q i)) := by
  have hcount := (h.queue i).count
  have hnil : Q i = [] := eq_nil_of_length_eq_zero (by omega)
  have hexec : (s.exec (.catq i i)).2 = s := by
    simp only [Clists.exec, Tty.catq, if_pos hzero, update_idem, update_eq_self]
  rw [hexec, hnil, append_nil, update_idem, ← hnil, update_eq_self]
  exact ⟨lists, h⟩

omit h

/-! ## One call -/

theorem take_findIdx_false {α : Type*} (P : α → Bool) (l : List α) :
    ∀ x ∈ l.take (l.findIdx P), P x = false := by
  intro x hx
  obtain ⟨k, -, rfl⟩ := mem_take_iff_getElem.1 hx
  have := not_of_lt_findIdx (show k < l.findIdx P by omega)
  simpa using this

theorem ndqb_counts {s : Pool} {fl bs : List ℕ} {p : Clist} (h : Owned s fl p bs q)
    (flag : ℤ) : ∃ n ≤ q.length, ndqb s p flag = n ∧ (∀ x ∈ q.take n, flagged flag x = false) ∧
      (n = 0 → ∀ x ∈ q.head?, flagged flag x = true) := by
  generalize hm : cblock - p.cCf % cblock = m
  have hpos : 0 < m := by
    have := Nat.mod_lt p.cCf (show 0 < cblock by decide)
    omega
  have hle : (q.take m).findIdx (flagged flag) ≤ (q.take m).length := findIdx_le_length
  rw [length_take] at hle
  refine ⟨(q.take m).findIdx (flagged flag), by omega, ?_, ?_, ?_⟩
  · rw [ndqb_spec h, ← hm]
  · have := take_findIdx_false (flagged flag) (q.take m)
    rwa [take_take, min_eq_left (by omega)] at this
  · intro hzero x hx
    cases q with
    | nil => simp at hx
    | cons y q =>
      obtain rfl : y = x := by simpa using hx
      obtain ⟨m, rfl⟩ := Nat.exists_eq_succ_of_ne_zero hpos.ne'
      rw [take_succ_cons, findIdx_cons] at hzero
      by_contra hfalse
      rw [Bool.not_eq_true] at hfalse
      simp [hfalse] at hzero

include h

theorem exec_matches {e : Event ι} {s' : Clists ι} (hstep : s.Step e s') :
    ∃ Q', QueueStep Q e Q' ∧ ∃ lists', s'.Holding A lists' Q' := by
  obtain ⟨call, answer, exhausted⟩ := e
  obtain ⟨hends, hexec, hfull⟩ := hstep
  have hkeep : ∀ i, update Q i (Q i) = Q := fun i => update_eq_self i Q
  cases call with
  | putc c i =>
    obtain ⟨rfl, rfl⟩ := Prod.mk.inj hexec
    rcases putc_spec (h.owns i) c with ⟨hans, bs', fl', howned, hmoves, -⟩ | ⟨hans, hfree, hb⟩
    · exact ⟨_, .inl ⟨by rw [hans], rfl⟩, _, h.relist howned hmoves⟩
    · obtain ⟨lists', h', _⟩ := h.step hb
      rw [hkeep] at h'
      exact ⟨_, .inr ⟨by rw [hans], by rw [hfull]; exact decide_eq_true hfree, rfl⟩, lists', h'⟩
  | getc i =>
    obtain ⟨rfl, rfl⟩ := Prod.mk.inj hexec
    have howns := h.owns i
    cases hq : Q i with
    | nil =>
      rw [hq] at howns
      refine ⟨Q, .inl ⟨hq, by rw [getc_empty howns], rfl⟩, lists, ?_⟩
      rw [getc_empty howns, update_eq_self]
      exact h
    | cons x rest =>
      rw [hq] at howns
      obtain ⟨hans, hb⟩ := getc_spec howns
      obtain ⟨lists', h', _⟩ := h.step hb
      exact ⟨_, .inr ⟨x, rest, hq, by rw [hans], rfl⟩, lists', h'⟩
  | bToQ data i =>
    obtain ⟨rfl, rfl⟩ := Prod.mk.inj hexec
    set k := min data.length (tailRoom (s.queue i).cCl + cbsize * (lists none).length) with hk
    obtain ⟨hans, hshort, hb⟩ := bToQ_spec (h.owns i) data hk
    obtain ⟨lists', h', _⟩ := h.step hb
    refine ⟨_, ⟨k, by omega, ?_, fun hlt => ?_, rfl⟩, lists', h'⟩
    · rw [hans, Nat.cast_sub (by omega)]
    · rw [hfull]
      exact decide_eq_true (hshort hlt)
  | qToB i cc =>
    obtain ⟨rfl, rfl⟩ := Prod.mk.inj hexec
    obtain ⟨hans, hb⟩ := qToB_spec (h.owns i) cc
    obtain ⟨lists', h', _⟩ := h.step hb
    exact ⟨_, ⟨by rw [hans], rfl⟩, lists', h'⟩
  | ndqb i flag =>
    obtain ⟨rfl, rfl⟩ := Prod.mk.inj hexec
    obtain ⟨n, hn, hans, hcounts⟩ := ndqb_counts (h.owns i) flag
    exact ⟨Q, ⟨rfl, n, hn, by rw [hans], hcounts⟩, lists, h⟩
  | ndflush i cc =>
    obtain ⟨rfl, rfl⟩ := Prod.mk.inj hexec
    obtain ⟨lists', h', _⟩ := h.step (ndflush_spec (h.owns i) cc)
    exact ⟨_, rfl, lists', h'⟩
  | unputc i =>
    obtain ⟨rfl, rfl⟩ := Prod.mk.inj hexec
    by_cases hq : Q i = []
    · have howns := h.owns i
      rw [hq] at howns
      refine ⟨Q, .inl ⟨hq, by rw [unputc_empty howns], rfl⟩, lists, ?_⟩
      rw [unputc_empty howns, update_eq_self]
      exact h
    · obtain ⟨rest, x, hsplit, hans, bs', fl', howned, hmoves, -⟩ := unputc_spec (h.owns i) hq
      exact ⟨_, .inr ⟨rest, x, _, hsplit, by rw [hans], schar_emod x, rfl⟩, _,
        h.relist howned hmoves⟩
  | catq i j =>
    obtain ⟨rfl, rfl⟩ := Prod.mk.inj hexec
    by_cases hij : i = j
    · obtain ⟨lists', h'⟩ := h.catqSelf (hends hij)
      rw [← hij]
      exact ⟨_, rfl, lists', h'⟩
    · obtain ⟨lists', h'⟩ := h.catq hij rfl
      exact ⟨_, rfl, lists', h'⟩

omit h

/-! ## Runs -/

def Clists.start (mem : Memory) (cfree nclist : ℕ) : Clists ι :=
  ⟨cinit mem cfree nclist, fun _ => ⟨0, 0, 0⟩⟩

theorem foldl_release (bs : List ℕ) {s : Pool} {fl : List ℕ} (h : Stock s fl bs) :
    Stock (bs.foldl Pool.release s) (bs.reverse ++ fl) [] := by
  induction bs generalizing s fl with
  | nil => exact h
  | cons b bs ih =>
    rw [reverse_cons, append_assoc]
    exact ih (h.release (List.Perm.refl _)).1

variable {nclist cfree : ℕ}

theorem cinitBlocks_isBlock (hcfree : 0 < cfree)
    (hend : cfree + cblock * nclist ≤ wordMod) : ∀ b ∈ cinitBlocks cfree nclist, IsBlock b := by
  intro b hb
  obtain ⟨hmap, -⟩ := mem_filter.1 hb
  obtain ⟨k, hk, rfl⟩ := mem_map.1 hmap
  have hk' := mem_range.1 hk
  simp only [IsBlock, cblock] at *
  omega

theorem cinitBlocks_nodup (cfree nclist : ℕ) : (cinitBlocks cfree nclist).Nodup := by
  apply List.Nodup.filter
  apply List.Nodup.map _ nodup_range
  intro k l hkl
  simp only [cblock] at hkl
  omega

omit [DecidableEq ι] in
theorem start_holding (mem : Memory) (hcfree : 0 < cfree)
    (hend : cfree + cblock * nclist ≤ wordMod) : ∃ lists,
    (Clists.start mem cfree nclist : Clists ι).Holding {b | b ∈ cinitBlocks cfree nclist} lists
      fun _ => [] := by
  have hblocks := cinitBlocks_isBlock hcfree hend
  have hstock : Stock ⟨mem, 0, 0⟩ [] (cinitBlocks cfree nclist) :=
    ⟨.nil, rfl, by simpa using cinitBlocks_nodup cfree nclist, by simpa using hblocks⟩
  have hinit := foldl_release _ hstock
  rw [append_nil] at hinit
  refine ⟨fun o => o.elim (cinitBlocks cfree nclist).reverse fun _ => [], hblocks, ⟨?_, ?_⟩, ?_,
    hinit.free, hinit.count, fun _ => queue_empty _⟩
  · rintro (_ | i) b hb
    · simpa using hb
    · exact absurd hb not_mem_nil
  · intro b hb
    refine ⟨none, by simpa using hb, ?_⟩
    rintro (_ | i) hb'
    · rfl
    · exact absurd hb' not_mem_nil
  · rintro (_ | i)
    · exact nodup_reverse.2 (cinitBlocks_nodup cfree nclist)
    · exact nodup_nil

include h

omit [DecidableEq ι] in
theorem Clists.Holding.null (i : ι) :
    ((s.queue i).cCf = 0 ↔ Q i = []) ∧ ((s.queue i).cCl = 0 ↔ Q i = []) := by
  have howns := h.owns i
  by_cases hq : Q i = []
  · rw [hq] at howns
    rw [howns.empty.1, hq]
    simp
  · obtain ⟨_, hholds⟩ := howns.holds hq
    obtain ⟨b, _, _, hb, _⟩ := hholds.front
    obtain ⟨_, d, _, hd, _⟩ := hholds.back
    exact ⟨iff_of_false (by omega) hq, iff_of_false (by omega) hq⟩

omit h

theorem run_simulates (mem : Memory) (hcfree : 0 < cfree)
    (hend : cfree + cblock * nclist ≤ wordMod) {es : List (Event ι)} {t : Clists ι}
    (hrun : Run Clists.Step (Clists.start mem cfree nclist) es t) :
    ∃ Q, Run QueueStep (fun _ => []) es Q ∧
      ∃ lists, t.Holding {b | b ∈ cinitBlocks cfree nclist} lists Q := by
  have hsim : ∀ (s : Clists ι) (e : Event ι) (s' : Clists ι) Q,
      (∃ lists, s.Holding {b | b ∈ cinitBlocks cfree nclist} lists Q) → s.Step e s' →
      ∃ Q', QueueStep Q e Q' ∧ ∃ lists, s'.Holding {b | b ∈ cinitBlocks cfree nclist} lists Q' := by
    rintro s e s' Q ⟨lists, h⟩ hstep
    exact exec_matches h hstep
  exact hrun.simulation hsim (start_holding mem hcfree hend)

/-- After every sequence of calls, none of them a `catq` of a queue with characters to itself, the
clists are byte queues that went through the same calls with the same answers. `c_cc` is the length
of the queue, `c_cf` and `c_cl` are null when it is empty and only then, the characters are found
from `c_cf` on, each block is on exactly one list, and `cfreecount` counts the room of the free
blocks. -/
theorem run_refines_byte_queues (mem : Memory) {cfree nclist : ℕ} (hcfree : 0 < cfree)
    (hend : cfree + cblock * nclist ≤ wordMod) {es : List (Event ι)} {t : Clists ι}
    (hrun : Run Clists.Step (Clists.start mem cfree nclist) es t) :
    ∃ Q, Run QueueStep (fun _ => []) es Q ∧
      (∀ i, (t.queue i).cCc = (Q i).length ∧ ((t.queue i).cCf = 0 ↔ Q i = []) ∧
        ((t.queue i).cCl = 0 ↔ Q i = []) ∧
        nextcWalk t.pool (t.queue i) (Q i).length (t.queue i).cCf = Q i) ∧
      ∃ lists : Option ι → List ℕ,
        Partitions (fun o => {b | b ∈ lists o}) {b | b ∈ cinitBlocks cfree nclist} ∧
        (∀ o, (lists o).Nodup) ∧ Free t.pool.mem t.pool.cfreelist (lists none) ∧
        (∀ i, Queue t.pool.mem (t.queue i) (lists (some i)) (Q i)) ∧
        t.pool.cfreecount = cbsize * (lists none).length := by
  obtain ⟨Q, hQ, lists, h⟩ := run_simulates mem hcfree hend hrun
  refine ⟨Q, hQ, fun i => ⟨(h.queue i).count, (h.null i).1, (h.null i).2, ?_⟩,
    lists, h.owned, h.nodup, h.free, h.queue, h.count⟩
  exact (h.owns i).nextcWalk (le_refl _)

end Concrete

/-- Two queues on three blocks: a character above 255 is stored modulo 256, and a `catq`
hands its block over. -/
theorem run_refines_byte_queues_two_clists :
    let s : Clists Bool := .start (fun _ => 0) 70 4
    let es : List (Event Bool) :=
      [⟨.putc 321 false, .int 0, false⟩, ⟨.bToQ [66, 67] false, .int 0, false⟩,
        ⟨.catq false true, .none, false⟩, ⟨.unputc true, .int 67, false⟩,
        ⟨.getc true, .int 65, false⟩]
    ∃ t, Run Clists.Step s es t ∧ ∃ Q, Run QueueStep (fun _ => []) es Q ∧
      (∀ i, (t.queue i).cCc = (Q i).length ∧ ((t.queue i).cCf = 0 ↔ Q i = []) ∧
        ((t.queue i).cCl = 0 ↔ Q i = []) ∧
        nextcWalk t.pool (t.queue i) (Q i).length (t.queue i).cCf = Q i) ∧
      ∃ lists : Option Bool → List ℕ,
        Partitions (fun o => {b | b ∈ lists o}) {b | b ∈ cinitBlocks 70 4} ∧
        (∀ o, (lists o).Nodup) ∧ Free t.pool.mem t.pool.cfreelist (lists none) ∧
        (∀ i, Queue t.pool.mem (t.queue i) (lists (some i)) (Q i)) ∧
        t.pool.cfreecount = cbsize * (lists none).length := by
  intro s es
  have hrun : ∃ t, Run Clists.Step s es t := by
    refine ⟨_, .cons (s.step_exec trivial ?_ ?_) (.cons (Clists.step_exec _ trivial ?_ ?_)
      (.cons (Clists.step_exec _ nofun ?_ ?_) (.cons (Clists.step_exec _ trivial ?_ ?_)
        (.cons (Clists.step_exec _ trivial ?_ ?_) (.nil _)))))⟩ <;> decide +kernel
  obtain ⟨t, ht⟩ := hrun
  exact ⟨t, ht, run_refines_byte_queues (fun _ => 0) (by decide) (by decide) ht⟩

end RetroBSD.Tty
