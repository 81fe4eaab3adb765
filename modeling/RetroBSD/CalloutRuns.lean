import RetroBSD.CalloutQueue
import RetroBSD.Runs

/-!
# Timeouts in every run

What `timeout`, `untimeout`, the clock ticks and the rounds of `softclock` do together,
said without the table: an agenda of entries with the ticks at which they are due. No
entry runs before it is due, a pass of `softclock` ends only when none is due, and each
entry runs once, is cancelled once or still waits. The callouts follow the agenda as
long as no entry stays due for `2 ^ 31` ticks: then its time, an `int`, wraps around and
the entry is no longer due.
-/

namespace RetroBSD.Clock

open LinkedList Runs List

inductive Event
  | timeout (func arg : ℕ) (t : Int32)
  | untimeout (func arg : ℕ)
  | tick
  /-- A round of `softclock` that calls a handler. -/
  | call (func arg : ℕ)
  /-- The end of a pass of `softclock`. -/
  | pass

/-! ## The agenda -/

structure Agenda where
  now : ℕ
  issued : ℕ
  pending : List Entry
  ran : List (Entry × ℕ)
  cancelled : List Entry

def Agenda.start : Agenda := ⟨0, 0, [], [], []⟩

def AgendaStep (A : Agenda) (ev : Event) (A' : Agenda) : Prop :=
  match ev with
  | .timeout func arg t => ∃ a b, A.pending = a ++ b ∧ (∀ x ∈ a, x.due < dueTick A.now t) ∧
      (∀ x ∈ b.head?, dueTick A.now t ≤ x.due) ∧
      A' = { A with
        issued := A.issued + 1
        pending := a ++ ⟨A.issued, func, arg, dueTick A.now t⟩ :: b }
  | .untimeout func arg => (∀ x ∈ A.pending, x.matches func arg = false) ∧ A' = A ∨
      ∃ a e b, A.pending = a ++ e :: b ∧ e.matches func arg = true ∧
        (∀ x ∈ a, x.matches func arg = false) ∧
        A' = { A with pending := a ++ b, cancelled := e :: A.cancelled }
  | .tick => A' = { A with now := A.now + 1 }
  | .call func arg => ∃ e rest, A.pending = e :: rest ∧ e.due ≤ A.now ∧ e.func = func ∧ e.arg = arg ∧
      A' = { A with pending := rest, ran := (e, A.now) :: A.ran }
  | .pass => (∀ x ∈ A.pending, A.now < x.due) ∧ A' = A

/-- Each entry issued waits, has run or is cancelled, once, and none has run too early. -/
structure Agenda.Accounted (A : Agenda) : Prop where
  once : (A.pending.map Entry.serial ++ A.ran.map (fun r => r.1.serial) ++
    A.cancelled.map Entry.serial).Perm (List.range A.issued)
  notEarly : ∀ r ∈ A.ran, r.1.due ≤ r.2

variable {ev : Event} {A : Agenda}

theorem Agenda.Accounted.step {A' : Agenda} (h : A.Accounted) (hstep : AgendaStep A ev A') :
    A'.Accounted := by
  cases ev with
  | timeout func arg t =>
    obtain ⟨a, b, hpending, _, _, rfl⟩ := hstep
    refine ⟨?_, h.notEarly⟩
    have honce := h.once
    rw [hpending] at honce
    simp only [map_append, range_succ, append_assoc]
    simp only [map_append, append_assoc] at honce
    refine List.Perm.trans perm_middle ?_
    refine List.Perm.trans (List.Perm.cons _ honce) ?_
    exact (perm_append_singleton _ _).symm
  | untimeout func arg =>
    rcases hstep with ⟨_, rfl⟩ | ⟨a, e, b, hpending, _, _, rfl⟩
    · exact h
    refine ⟨?_, h.notEarly⟩
    have honce := h.once
    rw [hpending] at honce
    refine List.Perm.trans ?_ honce
    simp only [map_append, append_assoc]
    apply List.Perm.append_left
    exact (perm_middle.append_left _).trans perm_middle
  | tick =>
    obtain rfl := hstep
    exact ⟨h.once, h.notEarly⟩
  | call func arg =>
    obtain ⟨e, rest, hpending, hdue, _, _, rfl⟩ := hstep
    constructor
    · have honce := h.once
      rw [hpending] at honce
      refine List.Perm.trans ?_ honce
      simp only [append_assoc]
      exact perm_middle
    · intro r hr
      rcases mem_cons.1 hr with rfl | hr
      · exact hdue
      · exact h.notEarly r hr
  | pass =>
    obtain ⟨_, rfl⟩ := hstep
    exact h

/-! ## The callouts -/

section Concrete

variable {ncall : ℕ}

def Callouts.Step (ncall : ℕ) (s : Callouts) (ev : Event) (s' : Callouts) : Prop :=
  match ev with
  | .timeout func arg t => Clock.timeout ncall s func arg t = some s'
  | .untimeout func arg => s' = Clock.untimeout ncall s func arg
  | .tick => s' = hardclock ncall s
  | .call func arg => softclockRound s = (some (func, arg), s')
  | .pass => softclockRound s = (none, s')

/-- No tick comes when the time of a waiting entry cannot be decremented. -/
def Callouts.SafeStep (ncall : ℕ) (s : Callouts) (ev : Event) (s' : Callouts) : Prop :=
  s.Step ncall ev s' ∧ (ev = .tick → ∀ l, Chain s.next s.calltodo l → ∀ i ∈ l, s.time i ≠ Int32.minValue)

def Callouts.Follows (ncall : ℕ) (s : Callouts) (A : Agenda) : Prop :=
  ∃ l free, l.map Prod.snd = A.pending ∧ s.Holds ncall A.now l free

variable {s : Callouts}

theorem follows_step {s' : Callouts} (h : s.Follows ncall A)
    (hstep : s.SafeStep ncall ev s') : ∃ A', AgendaStep A ev A' ∧ s'.Follows ncall A' := by
  obtain ⟨l, free, hpending, h⟩ := h
  obtain ⟨hstep, hsafe⟩ := hstep
  cases ev with
  | timeout func arg t =>
    rcases timeout_spec h A.issued func arg t with
      ⟨hnone, _⟩ | ⟨pnew, free', a, b, s1, rfl, rfl, ha, hb, hsome, hholds⟩
    · exact absurd (hnone.symm.trans hstep) (by simp)
    · obtain rfl : s1 = s' := Option.some.inj (hsome.symm.trans hstep)
      refine ⟨_, ⟨a.map Prod.snd, b.map Prod.snd, ?_, ?_, ?_, rfl⟩, _, _, ?_, hholds⟩
      · rw [← hpending, map_append]
      · intro x hx
        obtain ⟨y, hy, rfl⟩ := mem_map.1 hx
        exact ha y hy
      · intro x hx
        rw [List.head?_map, Option.mem_map] at hx
        obtain ⟨y, hy, rfl⟩ := hx
        exact hb y hy
      · rw [map_append, map_cons]
  | untimeout func arg =>
    obtain rfl := hstep
    rcases untimeout_spec h func arg with ⟨heq, hall⟩ | ⟨pre, i, e, post, rfl, hm, hpre, hholds⟩
    · refine ⟨A, .inl ⟨?_, rfl⟩, l, free, hpending, by rw [heq]; exact h⟩
      intro x hx
      rw [← hpending] at hx
      obtain ⟨y, hy, rfl⟩ := mem_map.1 hx
      exact hall y hy
    · refine ⟨_, .inr ⟨pre.map Prod.snd, e, post.map Prod.snd, ?_, hm, ?_, rfl⟩, _, _, ?_, hholds⟩
      · rw [← hpending, map_append, map_cons]
      · intro x hx
        obtain ⟨y, hy, rfl⟩ := mem_map.1 hx
        exact hpre y hy
      · rw [map_append]
  | tick =>
    obtain rfl := hstep
    refine ⟨_, rfl, l, free, hpending, hardclock_spec h ?_⟩
    intro x hx
    exact hsafe rfl _ h.waiting x.1 (mem_map_of_mem hx)
  | call func arg =>
    rcases softclockRound_spec h with ⟨hnone, _⟩ | ⟨i, e, rest, rfl, hdue, hcall, hholds⟩
    · exact absurd (hnone.symm.trans hstep) (by simp)
    · rw [show softclockRound s = (some (func, arg), s') from hstep] at hcall hholds
      obtain ⟨hfunc, harg⟩ := Prod.mk.inj (Option.some.inj hcall)
      exact ⟨_, ⟨e, rest.map Prod.snd, by rw [← hpending]; rfl, hdue, hfunc.symm, harg.symm, rfl⟩,
        rest, i :: free, rfl, hholds⟩
  | pass =>
    rcases softclockRound_spec h with ⟨hnone, hall⟩ | ⟨i, e, rest, rfl, hdue, hcall, hholds⟩
    · obtain rfl : s = s' := (Prod.mk.inj (hnone.symm.trans hstep)).2
      refine ⟨A, ⟨?_, rfl⟩, l, free, hpending, h⟩
      intro x hx
      rw [← hpending] at hx
      obtain ⟨y, hy, rfl⟩ := mem_map.1 hx
      exact hall y hy
    · rw [show softclockRound s = (none, s') from hstep] at hcall
      exact absurd hcall (by simp)

theorem coutinit_chain (callout : ℕ → Callout) (n k : ℕ) :
    Chain (coutinit (k + n) callout).next (if k < k + n then some k else none) (List.range' k n) := by
  induction n generalizing k with
  | zero =>
    rw [if_neg (by omega)]
    exact .nil
  | succ n ih =>
    rw [if_pos (by omega)]
    refine .cons ?_
    have hrest := ih (k + 1)
    rw [show k + 1 + n = k + (n + 1) by omega] at hrest
    exact hrest

theorem coutinit_follows (callout : ℕ → Callout) : (coutinit ncall callout).Follows ncall .start := by
  refine ⟨[], List.range ncall, rfl, ?_⟩
  have hchain := coutinit_chain callout ncall 0
  rw [Nat.zero_add, ← range_eq_range'] at hchain
  exact
    { waiting := .nil, unused := hchain, parts := .refl _, handler := by simp, timed := trivial,
      bound := by simp }

/-- Every run of the callouts in which no waiting entry is overdue by `2 ^ 31` ticks is a
run of the agenda, whatever the delays of `softclock`. Each timeout is then run once,
is cancelled once or still waits, and the table is divided between the waiting entries,
whose due ticks are those of the agenda, and the free ones. -/
theorem run_follows_agenda (callout : ℕ → Callout) {es : List Event} {t : Callouts}
    (hrun : Run (Callouts.SafeStep ncall) (coutinit ncall callout) es t) :
    ∃ A, Run AgendaStep .start es A ∧ A.Accounted ∧
      ∃ l free, l.map Prod.snd = A.pending ∧ t.Holds ncall A.now l free := by
  have hsim : ∀ s ev s' A, Callouts.Follows ncall s A → s.SafeStep ncall ev s' →
      ∃ A', AgendaStep A ev A' ∧ s'.Follows ncall A' :=
    fun _ _ _ _ => follows_step
  obtain ⟨A, hA, hfollows⟩ := hrun.simulation hsim (coutinit_follows callout)
  refine ⟨A, hA, ?_, hfollows⟩
  have hstart : Agenda.start.Accounted := ⟨.refl _, by simp [Agenda.start]⟩
  exact hA.invariant (fun _ _ _ h hstep => h.step hstep) hstart

end Concrete

variable {s : Callouts}

theorem Callouts.SafeStep.of_step {ncall : ℕ} {s' : Callouts} (h : s.Step ncall ev s')
    (hev : ev ≠ .tick) : s.SafeStep ncall ev s' :=
  ⟨h, fun heq => absurd heq hev⟩

theorem Callouts.SafeStep.tick {ncall i : ℕ} (hi : s.calltodo = some i) (hlast : s.next i = none)
    (hmin : s.time i ≠ Int32.minValue) : s.SafeStep ncall .tick (hardclock ncall s) := by
  refine ⟨rfl, fun _ l hl j hj => ?_⟩
  rw [hi] at hl
  obtain ⟨l', rfl, hl'⟩ := hl.uncons
  rw [hlast] at hl'
  rw [hl'.eq_nil, mem_singleton] at hj
  rw [hj]
  exact hmin

/-- Of two timeouts one is cancelled; the other is not run before its tick. -/
theorem run_follows_agenda_two :
    let es : List Event := [.timeout 5 6 1, .timeout 7 8 3, .untimeout 7 8, .pass, .tick, .call 5 6, .pass]
    ∃ t, Run (Callouts.SafeStep 2) (coutinit 2 fun _ => ⟨0, 0, 0, none⟩) es t ∧
      ∃ A, Run AgendaStep .start es A ∧ A.Accounted ∧
        ∃ l free, l.map Prod.snd = A.pending ∧ t.Holds 2 A.now l free := by
  intro es
  have hrun : ∃ t, Run (Callouts.SafeStep 2) (coutinit 2 fun _ => ⟨0, 0, 0, none⟩) es t := by
    refine ⟨_, .cons (.of_step rfl (by simp)) (.cons (.of_step rfl (by simp)) (.cons (.of_step rfl (by simp))
      (.cons (.of_step rfl (by simp)) (.cons (.tick rfl rfl (by decide)) (.cons (.of_step rfl (by simp))
        (.cons (.of_step rfl (by simp)) (.nil _)))))))⟩
  obtain ⟨t, ht⟩ := hrun
  exact ⟨t, ht, run_follows_agenda _ ht⟩

/-! ## An entry that is due for too long -/

theorem hardclock_one (hi : s.calltodo = some 0) : hardclock 1 s = s.setTime 0 (s.time 0 - 1) := by
  simp only [hardclock, hi, hardclockLoop]
  split_ifs <;> rfl

theorem ticks_wrap (n : ℕ) (hi : s.calltodo = some 0) :
    ∃ s', Run (Callouts.Step 1) s (List.replicate n .tick) s' ∧ s'.calltodo = some 0 ∧
      (s'.time 0).toInt = ((s.time 0).toInt - n).bmod (2 ^ 32) := by
  induction n generalizing s with
  | zero =>
    refine ⟨s, .nil s, hi, ?_⟩
    have := (s.time 0).toInt_lt
    have := (s.time 0).le_toInt
    rw [Int.bmod_eq_of_le] <;> omega
  | succ n ih =>
    have hone := hardclock_one hi
    obtain ⟨s', hrun, hi', htime⟩ := ih (s := hardclock 1 s) (by rw [hone]; exact hi)
    refine ⟨s', .cons rfl hrun, hi', ?_⟩
    rw [htime, hone, setTime_time, if_pos rfl, Int32.toInt_sub, Int.bmod_sub_bmod]
    congr 1
    rw [show (1 : Int32).toInt = 1 from rfl]
    omega

theorem agenda_ticks {n : ℕ} {A' : Agenda} (h : Run AgendaStep A (List.replicate n .tick) A') :
    A'.pending = A.pending ∧ A'.now = A.now + n := by
  induction n generalizing A with
  | zero =>
    cases h
    exact ⟨rfl, rfl⟩
  | succ n ih =>
    cases h with
    | cons hstep hrest =>
      obtain rfl := hstep
      obtain ⟨hpending, hnow⟩ := ih hrest
      refine ⟨hpending, hnow.trans ?_⟩
      show A.now + 1 + n = A.now + (n + 1)
      omega

/-- A pass of `softclock` that comes `2 ^ 31 + 2` ticks after `timeout(5, 6, 1)` ends
without running it: its time has become positive. No agenda allows that. -/
theorem overdue_timeout_not_run :
    let es : List Event := .timeout 5 6 1 :: (List.replicate (2 ^ 31 + 2) .tick ++ [.pass])
    (∃ t, Run (Callouts.Step 1) (coutinit 1 fun _ => ⟨0, 0, 0, none⟩) es t) ∧
      ¬ ∃ A, Run AgendaStep .start es A := by
  intro es
  constructor
  · obtain ⟨s, hs⟩ : ∃ s, timeout 1 (coutinit 1 fun _ => ⟨0, 0, 0, none⟩) 5 6 1 = some s := ⟨_, rfl⟩
    have htodo : s.calltodo = some 0 := by
      cases hs
      rfl
    have htime : s.time 0 = 1 := by
      cases hs
      rfl
    obtain ⟨s', hrun, hi', ht'⟩ := ticks_wrap (2 ^ 31 + 2) htodo
    have hpos : s'.time 0 > 0 := by
      rw [htime] at ht'
      rw [gt_iff_lt, Int32.lt_iff_toInt_lt, ht']
      decide
    have hpass : softclockRound s' = (none, s') := by
      simp only [softclockRound, hi', if_pos hpos]
    exact ⟨s', .cons hs (hrun.append (.cons hpass (.nil s')))⟩
  · rintro ⟨A, hA⟩
    simp only [es] at hA
    cases hA with
    | cons htimeout hrest =>
      obtain ⟨a, b, -, _, _, rfl⟩ := htimeout
      obtain ⟨B, hticks, hpass⟩ := hrest.split
      obtain ⟨hpending, hnow⟩ := agenda_ticks hticks
      cases hpass with
      | cons hpass _ =>
        have hlt := hpass.1 ⟨0, 5, 6, dueTick 0 1⟩ (by rw [hpending]; simp [Agenda.start])
        rw [hnow] at hlt
        exact absurd (show 0 + (2 ^ 31 + 2) < dueTick 0 1 from hlt) (by decide)

end RetroBSD.Clock
