import RetroBSD.Callout
import Mathlib

/-!
# The times of the callout queue

Each waiting entry has a tick at which it is due. The time stored in it counts from now
or from the due tick of the entry before, whichever is later; from this one relation
follow the effects of a tick, of an insertion, of a removal and of a round of
`softclock`.
-/

namespace RetroBSD.Clock

open LinkedList List Prod Callouts Int32

/-- A call of `timeout` with its number and the tick at which it is due. -/
structure Entry where
  serial : ℕ
  func : ℕ
  arg : ℕ
  due : ℕ
  deriving DecidableEq

/-- The times of the entries of a queue that is looked at from the tick `base`. -/
def Timed (time : ℕ → Int32) (now : ℕ) : ℕ → List (ℕ × Entry) → Prop
  | _, [] => True
  | base, (i, e) :: l => (time i).toInt = e.due - base ∧ (base ≤ e.due ∨ base = now) ∧
      Timed time now (max base e.due) l

/-- The waiting entries `l` and the free ones, which together make up the table. -/
structure Callouts.Linked (s : Callouts) (ncall : ℕ) (l : List (ℕ × Entry)) (free : List ℕ) : Prop where
  waiting : Chain s.next s.calltodo (l.map fst)
  unused : Chain s.next s.callfree free
  parts : (l.map fst ++ free).Perm (List.range ncall)
  handler : ∀ x ∈ l, (s.callout x.1).cFunc = x.2.func ∧ (s.callout x.1).cArg = x.2.arg

structure Callouts.Holds (s : Callouts) (ncall now : ℕ) (l : List (ℕ × Entry)) (free : List ℕ) : Prop
    extends s.Linked ncall l free where
  timed : Timed s.time now now l
  bound : ∀ x ∈ l, x.2.due < now + 2 ^ 31

section Time

variable {time time' : ℕ → Int32} {now base i : ℕ} {e : Entry} {l l' : List (ℕ × Entry)} {a : Int32}

theorem toInt_sub_of_lt {b : Int32} (h : -2 ^ 31 ≤ a.toInt - b.toInt) (h' : a.toInt - b.toInt < 2 ^ 31) :
    (a - b).toInt = a.toInt - b.toInt := by
  rw [toInt_sub, Int.bmod_eq_of_le] <;> omega

theorem toInt_add_of_lt {b : Int32} (h : -2 ^ 31 ≤ a.toInt + b.toInt) (h' : a.toInt + b.toInt < 2 ^ 31) :
    (a + b).toInt = a.toInt + b.toInt := by
  rw [toInt_add, Int.bmod_eq_of_le] <;> omega

theorem pos_iff_toInt : a > 0 ↔ 0 < a.toInt := lt_iff_toInt_lt

theorem Timed.congr (h : Timed time now base l) (heq : ∀ x ∈ l, time' x.1 = time x.1) :
    Timed time' now base l := by
  induction l generalizing base with
  | nil => trivial
  | cons x l ih =>
    obtain ⟨htime, hbase, hrest⟩ := h
    refine ⟨?_, hbase, ih hrest fun y hy => heq y (mem_cons_of_mem _ hy)⟩
    rw [heq x mem_cons_self]
    exact htime

theorem Timed.later (h : Timed time now base l) (hbase : now < base) {now' : ℕ} :
    Timed time now' base l := by
  induction l generalizing base with
  | nil => trivial
  | cons x l ih =>
    obtain ⟨htime, hle, hrest⟩ := h
    exact ⟨htime, .inl (hle.resolve_right hbase.ne'), ih hrest (by omega)⟩

def endOf (base : ℕ) (l : List (ℕ × Entry)) : ℕ := l.foldl (fun b x => max b x.2.due) base

theorem le_endOf (base : ℕ) (l : List (ℕ × Entry)) : base ≤ endOf base l := by
  induction l generalizing base with
  | nil => exact le_refl _
  | cons x l ih => exact le_trans (le_max_left _ _) (ih _)

theorem timed_append : Timed time now base (l ++ l') ↔
    Timed time now base l ∧ Timed time now (endOf base l) l' := by
  induction l generalizing base with
  | nil => simp [Timed, endOf]
  | cons x l ih =>
    simp only [cons_append, Timed, ih]
    tauto

theorem Timed.lt_due (h : Timed time now base l) (hbase : now < base) : ∀ x ∈ l, now < x.2.due := by
  induction l generalizing base with
  | nil => exact fun x hx => absurd hx not_mem_nil
  | cons y l ih =>
    obtain ⟨_, hle, hrest⟩ := h
    intro x hx
    rcases mem_cons.1 hx with rfl | hx
    · omega
    · exact ih hrest (by omega) x hx

end Time

/-! ## A tick -/

section Ops

variable {s : Callouts} {ncall now i : ℕ} {e : Entry} {l : List (ℕ × Entry)} {free : List ℕ}

@[simp] theorem setTime_next (s : Callouts) (i : ℕ) (t : Int32) (j : ℕ) : (s.setTime i t).next j = s.next j := by
  by_cases hj : j = i <;> simp [Callouts.next, setTime, hj]

theorem setTime_time (s : Callouts) (i : ℕ) (t : Int32) (j : ℕ) :
    (s.setTime i t).time j = if j = i then t else s.time j := by
  by_cases hj : j = i <;> simp [time, setTime, hj]

theorem setTime_handler (s : Callouts) (i : ℕ) (t : Int32) (j : ℕ) :
    ((s.setTime i t).callout j).cFunc = (s.callout j).cFunc ∧
      ((s.setTime i t).callout j).cArg = (s.callout j).cArg := by
  by_cases hj : j = i <;> simp [setTime, hj]

structure Retimed (s s' : Callouts) : Prop where
  next : s'.next = s.next
  calltodo : s'.calltodo = s.calltodo
  callfree : s'.callfree = s.callfree
  handler : ∀ i, (s'.callout i).cFunc = (s.callout i).cFunc ∧ (s'.callout i).cArg = (s.callout i).cArg

theorem Retimed.refl (s : Callouts) : Retimed s s := ⟨rfl, rfl, rfl, fun _ => ⟨rfl, rfl⟩⟩

theorem retimed_setTime (s : Callouts) (i : ℕ) (t : Int32) : Retimed s (s.setTime i t) :=
  ⟨funext (setTime_next s i t), rfl, rfl, setTime_handler s i t⟩

theorem Retimed.trans {s s1 s2 : Callouts} (h : Retimed s s1) (h1 : Retimed s1 s2) : Retimed s s2 := by
  refine ⟨h1.next.trans h.next, h1.calltodo.trans h.calltodo, h1.callfree.trans h.callfree, fun i => ?_⟩
  exact ⟨(h1.handler i).1.trans (h.handler i).1, (h1.handler i).2.trans (h.handler i).2⟩

variable {s' : Callouts}

/-- The loop of `hardclock` goes through the entries that are due and one more. -/
theorem hardclockLoop_spec (fuel : ℕ) {p : Option ℕ} (hchain : Chain s.next p (l.map fst))
    (hfuel : l.length ≤ fuel) (htimed : Timed s.time now now l)
    (hmin : ∀ x ∈ l, s.time x.1 ≠ minValue) (hs' : s' = hardclockLoop fuel s p) :
    Retimed s s' ∧ Timed s'.time (now + 1) (now + 1) l ∧
      ∀ j, j ∉ l.map fst → s'.time j = s.time j := by
  induction l generalizing fuel s p with
  | nil =>
    obtain rfl := hchain.of_nil
    have : s' = s := by
      rw [hs']
      cases fuel <;> rfl
    subst this
    exact ⟨Retimed.refl _, trivial, fun _ _ => rfl⟩
  | cons x l ih =>
    obtain ⟨i, e⟩ := x
    obtain ⟨rfl, hnext⟩ := hchain.of_cons
    obtain ⟨htime, _, hrest⟩ := htimed
    have hnodup : i ∉ l.map fst := (nodup_cons.1 hchain.nodup).1
    have hne : ∀ y ∈ l, y.1 ≠ i := by
      rintro y hy rfl
      exact hnodup (mem_map_of_mem hy)
    have hi : s.time i ≠ minValue := hmin (i, e) mem_cons_self
    obtain ⟨fuel, rfl⟩ := Nat.exists_eq_succ_of_ne_zero (show fuel ≠ 0 by simp at hfuel; omega)
    have hlow : -2 ^ 31 < (s.time i).toInt := by
      have := (s.time i).le_toInt
      by_contra hle
      apply hi
      apply toInt_inj.1
      rw [toInt_minValue]
      omega
    have hhigh := (s.time i).toInt_lt
    have hone : (1 : Int32).toInt = 1 := by decide
    have htick : (s.time i - 1).toInt = (s.time i).toInt - 1 := by
      rw [toInt_sub_of_lt] <;> omega
    set s1 := s.setTime i (s.time i - 1) with hs1
    have hre : Retimed s s1 := hs1 ▸ retimed_setTime s i _
    have hself : s1.time i = s.time i - 1 := by rw [setTime_time, if_pos rfl]
    have hother : ∀ j, j ≠ i → s1.time j = s.time j := fun j hj => by rw [setTime_time, if_neg hj]
    have hrest1 : ∀ {n b}, Timed s.time n b l → Timed s1.time n b l := by
      intro n b ht
      apply ht.congr
      intro y hy
      exact hother y.1 (hne y hy)
    rw [hardclockLoop, ← hs1] at hs'
    simp only [hself] at hs'
    by_cases hdue : e.due ≤ now
    · -- the entry was due already, and the loop goes on
      have h0 : (0 : Int32).toInt = 0 := by decide
      rw [if_neg (by rw [gt_iff_lt, lt_iff_toInt_lt]; omega),
        if_neg (by rw [← toInt_inj]; omega)] at hs'
      rw [max_eq_left hdue] at hrest
      obtain ⟨hre', htimed', hout⟩ := ih fuel (by rw [hre.next]; exact hnext)
        (by simp at hfuel; omega) (hrest1 hrest)
        (by
          intro y hy
          rw [hother y.1 (hne y hy)]
          exact hmin y (mem_cons_of_mem _ hy)) hs'
      refine ⟨hre.trans hre', ⟨?_, .inr rfl, ?_⟩, ?_⟩
      · rw [hout i hnodup, hself]
        omega
      · rw [max_eq_left (by omega)]
        exact htimed'
      · intro j hj
        rw [map_cons, mem_cons, not_or] at hj
        rw [hout j hj.2, hother j hj.1]
    · have hstop : s' = s1 := by
        rw [hs']
        have h0 : (0 : Int32).toInt = 0 := by decide
        by_cases hzero : s.time i - 1 = 0
        · rw [if_neg (by rw [hzero]; decide), if_pos hzero]
        · rw [if_pos]
          rw [gt_iff_lt, lt_iff_toInt_lt]
          rw [← toInt_inj] at hzero
          omega
      subst hstop
      rw [max_eq_right (by omega)] at hrest
      refine ⟨hre, ⟨?_, .inl (by omega), ?_⟩, ?_⟩
      · rw [hself]
        omega
      · rw [max_eq_right (by omega)]
        exact (hrest1 hrest).later (by omega)
      · intro j hj
        rw [map_cons, mem_cons, not_or] at hj
        exact hother j hj.1

theorem Callouts.Linked.length_le (h : s.Linked ncall l free) : l.length + free.length = ncall := by
  have := h.parts.length_eq
  simpa using this

theorem Callouts.Linked.retimed (h : s.Linked ncall l free) (hre : Retimed s s') :
    s'.Linked ncall l free := by
  refine ⟨?_, ?_, h.parts, ?_⟩
  · rw [hre.next, hre.calltodo]
    exact h.waiting
  · rw [hre.next, hre.callfree]
    exact h.unused
  · intro x hx
    rw [(hre.handler x.1).1, (hre.handler x.1).2]
    exact h.handler x hx

theorem hardclock_spec (h : s.Holds ncall now l free) (hmin : ∀ x ∈ l, s.time x.1 ≠ minValue) :
    (hardclock ncall s).Holds ncall (now + 1) l free := by
  have hlen := h.length_le
  obtain ⟨hre, htimed, _⟩ := hardclockLoop_spec ncall h.waiting (by omega) h.timed hmin rfl
  refine ⟨h.toLinked.retimed hre, htimed, fun x hx => ?_⟩
  have := h.bound x hx
  omega

/-! ## Taking an entry out -/

theorem Callouts.Linked.nodup (h : s.Linked ncall l free) : (l.map fst ++ free).Nodup :=
  h.parts.nodup_iff.2 nodup_range

def lastOf (pre : List (ℕ × Entry)) : Option ℕ := (pre.map fst).getLast?

theorem link_lastOf (s : Callouts) (pre : List (ℕ × Entry)) :
    s.link (lastOf pre) = linkAfter s.next s.calltodo (pre.map fst) := by
  rw [lastOf, linkAfter]
  cases (pre.map fst).getLast? <;> rfl

theorem setLink_lastOf_next (s : Callouts) (pre : List (ℕ × Entry)) (v : Option ℕ) (j : ℕ) :
    (s.setLink (lastOf pre) v).next j = if lastOf pre = some j then v else s.next j := by
  cases hlast : lastOf pre with
  | none => simp [Callouts.next, setLink]
  | some k => by_cases hj : j = k <;> simp [Callouts.next, setLink, hj, eq_comm]

theorem setLink_lastOf_calltodo (s : Callouts) (pre : List (ℕ × Entry)) (v : Option ℕ) :
    (s.setLink (lastOf pre) v).calltodo = if pre.map fst = [] then v else s.calltodo := by
  cases hlast : lastOf pre with
  | none => exact (if_pos (List.getLast?_eq_none_iff.1 hlast)).symm
  | some k =>
    rw [if_neg fun hnil => by simp [lastOf, hnil] at hlast]
    rfl

theorem setLink_data (s : Callouts) (p v : Option ℕ) (j : ℕ) :
    (s.setLink p v).time j = s.time j ∧ ((s.setLink p v).callout j).cFunc = (s.callout j).cFunc ∧
      ((s.setLink p v).callout j).cArg = (s.callout j).cArg := by
  cases p with
  | none => exact ⟨rfl, rfl, rfl⟩
  | some k => by_cases hj : j = k <;> simp [time, setLink, hj]

theorem setLink_callfree (s : Callouts) (p v : Option ℕ) : (s.setLink p v).callfree = s.callfree := by
  cases p <;> rfl

theorem release_next (s : Callouts) (i j : ℕ) :
    (s.release i).next j = if j = i then s.callfree else s.next j := by
  by_cases hj : j = i <;> simp [release, Callouts.next, setLink, hj]

theorem release_data (s : Callouts) (i j : ℕ) :
    (s.release i).time j = s.time j ∧ ((s.release i).callout j).cFunc = (s.callout j).cFunc ∧
      ((s.release i).callout j).cArg = (s.callout j).cArg := setLink_data s (some i) s.callfree j

variable {pre : List (ℕ × Entry)}

theorem mem_lastOf {k : ℕ} (h : lastOf pre = some k) : k ∈ pre.map fst :=
  mem_of_getLast? h

theorem ne_lastOf_of_mem_dropLast (hnodup : (pre.map fst).Nodup) {k : ℕ}
    (hk : k ∈ (pre.map fst).dropLast) : lastOf pre ≠ some k := by
  intro hlast
  rw [← dropLast_append_getLast? k hlast] at hnodup
  exact (nodup_append.1 hnodup).2.2 k hk k mem_cons_self rfl

theorem Callouts.Linked.link_eq (h : s.Linked ncall (pre ++ l) free) :
    s.link (lastOf pre) = l.head?.map fst := by
  have hwait := h.waiting
  rw [map_append] at hwait
  rw [link_lastOf]
  cases l with
  | nil => exact hwait.drop.of_nil
  | cons x l => exact hwait.drop.of_cons.1

theorem splice_lastOf {next next' : ℕ → Option ℕ} {p q : Option ℕ} {post post' : List ℕ}
    (h : Chain next p (pre.map fst ++ post))
    (hnext : ∀ j ∈ pre.map fst, next' j = if lastOf pre = some j then q else next j) (hq : Chain next' q post') :
    Chain next' (if pre.map fst = [] then q else p) (pre.map fst ++ post') := by
  apply h.splice _ _ hq
  · intro j hj
    rw [hnext j ((dropLast_sublist _).subset hj),
      if_neg (ne_lastOf_of_mem_dropLast (List.Nodup.of_append_left h.nodup) hj)]
  · intro j hj
    rw [hnext j (mem_lastOf hj), if_pos (show lastOf pre = some j from hj)]

variable {post : List (ℕ × Entry)}

theorem Callouts.Linked.unlink
    (h : s.Linked ncall (pre ++ (i, e) :: post) free)
    (hs' : s' = (s.setLink (lastOf pre) (s.next i)).release i) :
    s'.Linked ncall (pre ++ post) (i :: free) ∧ s'.time = s.time := by
  have hnodup := h.nodup
  have hwait := h.waiting
  rw [map_append] at hwait
  rw [map_append, map_cons, append_assoc, cons_append, nodup_middle, nodup_cons,
    mem_append, not_or] at hnodup
  obtain ⟨⟨hipre, hirest⟩, hnodup⟩ := hnodup
  have hnext : ∀ j, s'.next j =
      if j = i then s.callfree else if lastOf pre = some j then s.next i else s.next j := by
    intro j
    rw [hs', release_next, setLink_lastOf_next, setLink_callfree]
  have hdata : ∀ j, s'.time j = s.time j ∧ (s'.callout j).cFunc = (s.callout j).cFunc ∧
      (s'.callout j).cArg = (s.callout j).cArg := by
    intro j
    have h1 := release_data (s.setLink (lastOf pre) (s.next i)) i j
    have h2 := setLink_data s (lastOf pre) (s.next i) j
    rw [hs']
    exact ⟨h1.1.trans h2.1, h1.2.1.trans h2.2.1, h1.2.2.trans h2.2.2⟩
  have hsame : ∀ j ∈ post.map fst ++ free, s'.next j = s.next j := by
    intro j hj
    rw [hnext, if_neg (ne_of_mem_of_not_mem hj hirest), if_neg fun hlast =>
      disjoint_of_nodup_append hnodup (mem_lastOf hlast) hj]
  refine ⟨⟨?_, ?_, ?_, ?_⟩, funext fun j => (hdata j).1⟩
  · have hcall : s'.calltodo = if pre.map fst = [] then s.next i else s.calltodo := by
      rw [hs']
      exact setLink_lastOf_calltodo s pre (s.next i)
    rw [hcall, map_append]
    apply splice_lastOf hwait
    · intro j hj
      rw [hnext, if_neg (ne_of_mem_of_not_mem hj hipre)]
    · exact hwait.drop.of_cons.2.congr fun j hj => hsame j (mem_append_left _ hj)
  · have hcall : s'.callfree = some i := by
      rw [hs']
      rfl
    rw [hcall]
    refine .cons ?_
    rw [hnext, if_pos rfl]
    exact h.unused.congr fun j hj => hsame j (mem_append_right _ hj)
  · refine List.Perm.trans ?_ h.parts
    rw [map_append, map_append, append_assoc, append_assoc]
    exact List.Perm.append_left _ perm_middle
  · intro x hx
    rw [(hdata x.1).2.1, (hdata x.1).2.2]
    exact h.handler x (((sublist_cons_self _ post).append_left pre).subset hx)

/-- A round of `softclock` runs the first entry if it is due, and ends otherwise. -/
theorem softclockRound_spec (h : s.Holds ncall now l free) :
    (softclockRound s = (none, s) ∧ ∀ x ∈ l, now < x.2.due) ∨
    ∃ i e rest, l = (i, e) :: rest ∧ e.due ≤ now ∧ (softclockRound s).1 = some (e.func, e.arg) ∧
      (softclockRound s).2.Holds ncall now rest (i :: free) := by
  have hwait := h.waiting
  cases l with
  | nil =>
    left
    rw [softclockRound, hwait.of_nil]
    exact ⟨rfl, fun x hx => absurd hx not_mem_nil⟩
  | cons x rest =>
    obtain ⟨i, e⟩ := x
    obtain ⟨hhead, _⟩ := hwait.of_cons
    obtain ⟨htime, _, hrest⟩ := h.timed
    have hpos : s.time i > 0 ↔ now < e.due := by
      rw [pos_iff_toInt]
      omega
    rw [softclockRound, hhead]
    by_cases hdue : now < e.due
    · left
      refine ⟨if_pos (hpos.2 hdue), fun x hx => ?_⟩
      rcases mem_cons.1 hx with rfl | hx
      · exact hdue
      · exact hrest.lt_due (by omega) x hx
    · right
      have hneg : ¬ s.time i > 0 := fun hp => hdue (hpos.1 hp)
      obtain ⟨hlinked, htimes⟩ :=
        (show s.Linked ncall ([] ++ (i, e) :: rest) free from h.toLinked).unlink rfl
      simp only [if_neg hneg]
      rw [max_eq_left (by omega)] at hrest
      refine ⟨i, e, rest, rfl, by omega, ?_, hlinked, ?_, ?_⟩
      · rw [(h.handler (i, e) mem_cons_self).1, (h.handler (i, e) mem_cons_self).2]
      · change Timed ((s.setLink (lastOf []) (s.next i)).release i).time now now rest
        rw [htimes]
        exact hrest
      · exact fun x hx => h.bound x (mem_cons_of_mem _ hx)

/-! ## `untimeout` -/

def Entry.matches (func arg : ℕ) (e : Entry) : Bool := e.func = func ∧ e.arg = arg

theorem untimeoutLoop_spec (func arg fuel : ℕ)
    (h : s.Linked ncall (pre ++ l) free) (hfuel : l.length ≤ fuel) :
    (untimeoutLoop s func arg fuel (lastOf pre) = none ∧ ∀ x ∈ l, x.2.matches func arg = false) ∨
    ∃ pre' i e post, l = pre' ++ (i, e) :: post ∧ e.matches func arg = true ∧
      (∀ x ∈ pre', x.2.matches func arg = false) ∧
      untimeoutLoop s func arg fuel (lastOf pre) = some (lastOf (pre ++ pre'), i) := by
  induction l generalizing fuel pre with
  | nil =>
    refine .inl ⟨?_, fun x hx => absurd hx not_mem_nil⟩
    cases fuel with
    | zero => rfl
    | succ fuel => rw [untimeoutLoop, h.link_eq]; rfl
  | cons x l ih =>
    obtain ⟨i, e⟩ := x
    obtain ⟨fuel, rfl⟩ := Nat.exists_eq_succ_of_ne_zero (show fuel ≠ 0 by simp at hfuel; omega)
    have hlink : s.link (lastOf pre) = some i := h.link_eq
    have hhandler := h.handler (i, e) (mem_append_right _ mem_cons_self)
    rw [untimeoutLoop, hlink]
    simp only [hhandler.1, hhandler.2]
    by_cases hm : e.func = func ∧ e.arg = arg
    · right
      rw [if_pos hm]
      exact ⟨[], i, e, l, rfl, decide_eq_true hm, fun x hx => absurd hx not_mem_nil,
        by rw [append_nil]⟩
    · rw [if_neg hm]
      have hlast : lastOf (pre ++ [(i, e)]) = some i := by simp [lastOf]
      have hnext := ih fuel
        (show s.Linked ncall ((pre ++ [(i, e)]) ++ l) free by rw [append_assoc]; exact h)
        (by simp at hfuel; omega)
      rw [hlast] at hnext
      rcases hnext with ⟨hnone, hall⟩ | ⟨pre', j, f, post, rfl, hf, hpre', hsome⟩
      · refine .inl ⟨hnone, fun x hx => ?_⟩
        rcases mem_cons.1 hx with rfl | hx
        · exact decide_eq_false hm
        · exact hall x hx
      · refine .inr ⟨(i, e) :: pre', j, f, post, rfl, hf, fun x hx => ?_, ?_⟩
        · rcases mem_cons.1 hx with rfl | hx
          · exact decide_eq_false hm
          · exact hpre' x hx
        · rw [hsome, append_assoc]
          rfl

def Callouts.setHead (s : Callouts) (post : List (ℕ × Entry)) (f : Int32 → Int32) : Callouts :=
  match post with
  | [] => s
  | x :: _ => s.setTime x.1 (f (s.time x.1))

theorem retimed_setHead (s : Callouts) (post : List (ℕ × Entry)) (f : Int32 → Int32) :
    Retimed s (s.setHead post f) := by
  cases post with
  | nil => exact Retimed.refl s
  | cons x post => exact retimed_setTime s _ _

theorem setHead_head (s : Callouts) (f : Int32 → Int32) (x : ℕ × Entry) (post : List (ℕ × Entry)) :
    (s.setHead (x :: post) f).time x.1 = f (s.time x.1) := (setTime_time s _ _ _).trans (if_pos rfl)

theorem setHead_of_notMem {f : Int32 → Int32} {j : ℕ} (hj : j ∉ post.map fst) :
    (s.setHead post f).time j = s.time j := by
  cases post with
  | nil => rfl
  | cons x post => exact (setTime_time s _ _ _).trans (if_neg (ne_of_not_mem_cons hj))

variable {base : ℕ}

theorem Timed.setHead {base' : ℕ} {f : Int32 → Int32}
    (h : Timed s.time now base post) (hnodup : (post.map fst).Nodup)
    (hhead : ∀ x ∈ post.head?, (s.time x.1).toInt = x.2.due - base → (base ≤ x.2.due ∨ base = now) →
      (f (s.time x.1)).toInt = x.2.due - base' ∧ (base' ≤ x.2.due ∨ base' = now) ∧
        max base' x.2.due = max base x.2.due) :
    Timed (s.setHead post f).time now base' post := by
  cases post with
  | nil => trivial
  | cons x rest =>
    obtain ⟨hx, hbase, hrest⟩ := h
    obtain ⟨htime, hle, hmax⟩ := hhead x rfl hx hbase
    refine ⟨by rw [setHead_head, htime], hle, ?_⟩
    rw [hmax]
    apply hrest.congr
    intro y hy
    have hne : y.1 ≠ x.1 := ne_of_mem_of_not_mem (mem_map_of_mem hy) (nodup_cons.1 hnodup).1
    exact (setTime_time s _ _ _).trans (if_neg hne)

theorem passTime_eq (hnext : s.next i = post.head?.map fst) :
    s.passTime i = s.setHead post fun t => if s.time i > 0 then t + s.time i else t := by
  rw [passTime, hnext]
  cases post with
  | nil => rfl
  | cons x post =>
    have hself : s.setTime x.1 (s.time x.1) = s := by simp [setTime, time]
    split_ifs
    · rfl
    · exact hself.symm

theorem Timed.remove (h : Timed s.time now base ((i, e) :: post))
    (hnow : now ≤ base) (hnodup : (post.map fst).Nodup) (hbound : ∀ x ∈ post, x.2.due < now + 2 ^ 31) :
    Timed (s.setHead post fun t => if s.time i > 0 then t + s.time i else t).time now base post := by
  obtain ⟨htime, _, hrest⟩ := h
  apply hrest.setHead hnodup
  intro x hx hj hle
  have hf := hbound x (mem_of_mem_head? hx)
  split_ifs with hpos <;> rw [pos_iff_toInt] at hpos
  · rw [toInt_add_of_lt] <;> omega
  · rw [show max base e.due = base by omega] at hj hle ⊢
    exact ⟨hj, hle, rfl⟩

theorem untimeout_spec (h : s.Holds ncall now l free) (func arg : ℕ) :
    (untimeout ncall s func arg = s ∧ ∀ x ∈ l, x.2.matches func arg = false) ∨
    ∃ pre i e post, l = pre ++ (i, e) :: post ∧ e.matches func arg = true ∧
      (∀ x ∈ pre, x.2.matches func arg = false) ∧
      (untimeout ncall s func arg).Holds ncall now (pre ++ post) (i :: free) := by
  have hlen := h.length_le
  rw [untimeout]
  rcases untimeoutLoop_spec func arg ncall (show s.Linked ncall ([] ++ l) free from h.toLinked)
    (by omega) with ⟨hnone, hall⟩ | ⟨pre, i, e, post, rfl, hm, hpre, hsome⟩
  · left
    rw [show (none : Option ℕ) = lastOf [] from rfl, hnone]
    exact ⟨rfl, hall⟩
  · right
    refine ⟨pre, i, e, post, rfl, hm, hpre, ?_⟩
    rw [show (none : Option ℕ) = lastOf [] from rfl, hsome, nil_append]
    have hnodup := h.waiting.nodup
    rw [map_append] at hnodup
    have hnext : s.next i = post.head?.map fst := by
      have hlink := (show s.Linked ncall ((pre ++ [(i, e)]) ++ post) free by simpa using h.toLinked).link_eq
      simpa [lastOf, link] using hlink
    dsimp only
    rw [passTime_eq hnext]
    obtain ⟨hlinked, htimes⟩ := (h.toLinked.retimed (retimed_setHead s post _)).unlink rfl
    have hsub : pre ++ post ⊆ pre ++ (i, e) :: post := ((sublist_cons_self _ post).append_left pre).subset
    refine ⟨hlinked, ?_, fun x hx => h.bound x (hsub hx)⟩
    obtain ⟨htpre, htpost⟩ := timed_append.1 h.timed
    rw [htimes, timed_append]
    constructor
    · apply htpre.congr
      intro x hx
      exact setHead_of_notMem fun hmem => disjoint_of_nodup_append hnodup (mem_map_of_mem hx)
        (mem_cons_of_mem _ hmem)
    · exact htpost.remove (le_endOf now pre) (nodup_cons.1 (List.Nodup.of_append_right hnodup)).2
        fun x hx => h.bound x (hsub (mem_append_right _ hx))

/-! ## `timeout` -/

theorem timeoutLoop_spec (fuel : ℕ) {due : ℕ} {t : Int32}
    (h : s.Linked ncall (pre ++ l) free) (htimed : Timed s.time now base l) (hfuel : l.length ≤ fuel)
    (ht : t.toInt = due - base) (hlt : base < due) : ∃ a b t', l = a ++ b ∧
      (∀ x ∈ a, x.2.due < due) ∧ (∀ x ∈ b.head?, due ≤ x.2.due) ∧
      timeoutLoop s fuel (lastOf pre) t = (lastOf (pre ++ a), t') ∧
      t'.toInt = due - endOf base a ∧ endOf base a < due := by
  induction l generalizing fuel pre base t with
  | nil =>
    refine ⟨[], [], t, rfl, by simp, by simp, ?_, ht, hlt⟩
    rw [append_nil]
    cases fuel with
    | zero => rfl
    | succ fuel => rw [timeoutLoop, h.link_eq]; rfl
  | cons x l ih =>
    obtain ⟨i, e⟩ := x
    obtain ⟨htime, _, hrest⟩ := htimed
    obtain ⟨fuel, rfl⟩ := Nat.exists_eq_succ_of_ne_zero (show fuel ≠ 0 by simp at hfuel; omega)
    have hlink : s.link (lastOf pre) = some i := h.link_eq
    rw [timeoutLoop, hlink]
    dsimp only
    by_cases hdue : e.due < due
    · -- the entry comes first
      have hpass : s.time i < t := by
        rw [lt_iff_toInt_lt]
        omega
      have hlast : lastOf (pre ++ [(i, e)]) = some i := by simp [lastOf]
      set t1 := if s.time i > 0 then t - s.time i else t with ht1
      have ht1' : t1.toInt = due - (max base e.due : ℕ) := by
        have hrange := t.toInt_lt
        rw [ht1]
        split_ifs with hpos <;> rw [pos_iff_toInt] at hpos
        · rw [toInt_sub_of_lt] <;> omega
        · omega
      obtain ⟨a, b, t', rfl, ha, hb, heq, ht', hend⟩ := ih fuel
        (show s.Linked ncall ((pre ++ [(i, e)]) ++ l) free by rw [append_assoc]; exact h)
        hrest (by simp at hfuel; omega) ht1' (by omega)
      refine ⟨(i, e) :: a, b, t', rfl, ?_, hb, ?_, ht', hend⟩
      · intro x hx
        rcases mem_cons.1 hx with rfl | hx
        · exact hdue
        · exact ha x hx
      · rw [if_pos hpass, ← hlast, heq, append_assoc]
        rfl
    · have hstop : ¬ s.time i < t := by
        rw [lt_iff_toInt_lt]
        omega
      refine ⟨[], (i, e) :: l, t, rfl, by simp, ?_, ?_, ht, hlt⟩
      · intro x hx
        obtain rfl : (i, e) = x := by simpa using hx
        exact not_lt.1 hdue
      · rw [if_neg hstop, append_nil]

theorem Callouts.Linked.insert {a b : List (ℕ × Entry)} {pnew : ℕ}
    (h : s.Linked ncall (a ++ b) (pnew :: free)) (t : Int32) :
    (s.insertAfter (lastOf a) pnew t e.func e.arg).Linked ncall (a ++ (pnew, e) :: b) free ∧
      (∀ j, j ≠ pnew → (s.insertAfter (lastOf a) pnew t e.func e.arg).time j = s.time j) ∧
      (s.insertAfter (lastOf a) pnew t e.func e.arg).time pnew = t := by
  set s' := s.insertAfter (lastOf a) pnew t e.func e.arg
  have hnodup := h.nodup
  have hwait := h.waiting
  rw [map_append] at hwait
  rw [nodup_middle, nodup_cons, map_append, append_assoc, mem_append, not_or] at hnodup
  obtain ⟨⟨hpa, hprest⟩, hnodup⟩ := hnodup
  have hother : ∀ j, j ≠ pnew → s'.callout j =
      ({ s with callfree := s.next pnew }.setLink (lastOf a) (some pnew)).callout j := by
    intro j hj
    exact Function.update_of_ne hj _ _
  have hself : s'.callout pnew = ⟨t, e.arg, e.func, s.link (lastOf a)⟩ := Function.update_self _ _ _
  have hnext : ∀ j, j ≠ pnew → s'.next j = if lastOf a = some j then some pnew else s.next j := by
    intro j hj
    rw [next, hother j hj]
    exact setLink_lastOf_next { s with callfree := s.next pnew } a (some pnew) j
  have hdata : ∀ j, j ≠ pnew → s'.time j = s.time j ∧ (s'.callout j).cFunc = (s.callout j).cFunc ∧
      (s'.callout j).cArg = (s.callout j).cArg := by
    intro j hj
    rw [time, hother j hj]
    exact setLink_data { s with callfree := s.next pnew } (lastOf a) (some pnew) j
  have hsame : ∀ j ∈ b.map fst ++ free, s'.next j = s.next j := by
    intro j hj
    rw [hnext j (ne_of_mem_of_not_mem hj hprest), if_neg fun hlast =>
      disjoint_of_nodup_append hnodup (mem_lastOf hlast) hj]
  refine ⟨⟨?_, ?_, ?_, ?_⟩, fun j hj => (hdata j hj).1, ?_⟩
  · have hcall : s'.calltodo = if a.map fst = [] then some pnew else s.calltodo :=
      setLink_lastOf_calltodo { s with callfree := s.next pnew } a (some pnew)
    rw [hcall, map_append]
    apply splice_lastOf hwait
    · exact fun j hj => hnext j (ne_of_mem_of_not_mem hj hpa)
    · refine .cons ?_
      rw [next, hself]
      rw [link_lastOf]
      exact hwait.drop.congr fun j hj => hsame j (mem_append_left _ hj)
  · have hcall : s'.callfree = s.next pnew :=
      setLink_callfree { s with callfree := s.next pnew } (lastOf a) (some pnew)
    rw [hcall]
    exact (h.unused.of_cons).2.congr fun j hj => hsame j (mem_append_right _ hj)
  · refine List.Perm.trans ?_ h.parts
    rw [map_append, map_append, append_assoc, append_assoc]
    exact List.Perm.append_left _ perm_middle.symm
  · intro x hx
    rw [mem_append, mem_cons, or_left_comm, ← mem_append] at hx
    rcases hx with rfl | hx
    · rw [hself]
      exact ⟨rfl, rfl⟩
    · have hne : x.1 ≠ pnew := by
        rintro rfl
        rcases mem_append.1 hx with hx | hx
        · exact hpa (mem_map_of_mem hx)
        · exact hprest (mem_append_left _ (mem_map_of_mem hx))
      rw [(hdata x.1 hne).2.1, (hdata x.1 hne).2.2]
      exact h.handler x hx
  · rw [time, hself]

def dueTick (now : ℕ) (t : Int32) : ℕ := now + (max t.toInt 1).toNat

theorem Timed.insert {due : ℕ} {t : Int32} {b : List (ℕ × Entry)} (h : Timed s.time now base b)
    (ht : t.toInt = due - base) (hlt : base < due) (hb : ∀ x ∈ b.head?, due ≤ x.2.due)
    (hnodup : (b.map fst).Nodup) : Timed (s.setHead b (· - t)).time now due b := by
  apply h.setHead hnodup
  intro x hx hj _
  have hf := hb x hx
  have hrange := (s.time x.1).toInt_lt
  rw [toInt_sub_of_lt] <;> omega

theorem timeout_spec (h : s.Holds ncall now l free) (serial func arg : ℕ) (t : Int32) :
    (timeout ncall s func arg t = none ∧ free = []) ∨
    ∃ pnew free' a b s', free = pnew :: free' ∧ l = a ++ b ∧
      (∀ x ∈ a, x.2.due < dueTick now t) ∧ (∀ x ∈ b.head?, dueTick now t ≤ x.2.due) ∧
      timeout ncall s func arg t = some s' ∧
      s'.Holds ncall now (a ++ (pnew, ⟨serial, func, arg, dueTick now t⟩) :: b) free' := by
  have hlen := h.length_le
  cases free with
  | nil =>
    left
    rw [timeout, h.unused.of_nil]
    exact ⟨rfl, rfl⟩
  | cons pnew free =>
    right
    set t0 : Int32 := if t ≤ 0 then 1 else t with ht0
    have hdue : t0.toInt = dueTick now t - now := by
      rw [ht0, dueTick]
      split_ifs with hle <;> rw [le_iff_toInt_le, show (0 : Int32).toInt = 0 from rfl] at hle
      · rw [show (1 : Int32).toInt = 1 from rfl]
        omega
      · omega
    have hnow : now < dueTick now t := by
      rw [dueTick]
      omega
    obtain ⟨a, b, t', rfl, ha, hb, hloop, ht', hend⟩ := timeoutLoop_spec ncall
      (show s.Linked ncall ([] ++ l) (pnew :: free) from h.toLinked) h.timed (by omega) hdue hnow
    rw [nil_append] at hloop
    set e : Entry := ⟨serial, func, arg, dueTick now t⟩ with he
    set s1 := s.insertAfter (lastOf a) pnew t' e.func e.arg with hs1
    obtain ⟨hlinked, hother, hself⟩ := h.toLinked.insert (e := e) t'
    have hnodup := hlinked.waiting.nodup
    rw [map_append] at hnodup
    obtain ⟨hpnew, hb'⟩ := nodup_cons.1 (List.Nodup.of_append_right hnodup)
    have hne : ∀ x ∈ a ++ b, x.1 ≠ pnew := by
      rintro x hx rfl
      rcases mem_append.1 hx with hx | hx
      · exact disjoint_of_nodup_append hnodup (mem_map_of_mem hx) mem_cons_self
      · have hmem : x.1 ∈ b.map fst := mem_map_of_mem hx
        exact hpnew hmem
    obtain ⟨htimed_a, htimed_b⟩ := timed_append.1 (h.timed.congr fun x hx => hother x.1 (hne x hx))
    refine ⟨pnew, free, a, b, s1.setHead b (· - t'), rfl, rfl, ha, hb, ?_, ?_⟩
    · rw [timeout, (h.unused.of_cons).1]
      dsimp only
      rw [show (none : Option ℕ) = lastOf [] from rfl, hloop, h.link_eq, hs1, he]
      cases b <;> rfl
    refine ⟨hlinked.retimed (retimed_setHead s1 b _), timed_append.2 ⟨?_, ?_, .inl ?_, ?_⟩, ?_⟩
    · apply htimed_a.congr
      intro x hx
      exact setHead_of_notMem fun hmem => disjoint_of_nodup_append hnodup (mem_map_of_mem hx)
        (mem_cons_of_mem _ hmem)
    · rw [setHead_of_notMem hpnew, hself, ht', he]
    · rw [he]
      exact hend.le
    · rw [he, max_eq_right hend.le]
      exact htimed_b.insert ht' hend hb hb'
    · intro x hx
      rw [mem_append, mem_cons, or_left_comm, ← mem_append] at hx
      rcases hx with rfl | hx
      · have := t0.toInt_lt
        rw [he]
        simp only
        omega
      · exact h.bound x hx

end Ops

end RetroBSD.Clock
