import Mathlib

/-!
# The time of day

`time` and `lbolt`, the ticks since the last full second, as `hardclock`, `settimeofday` and
`adjtime` change them. `settimeofday` takes `tv_usec` as it comes, and `adjtime` counts ticks
over into seconds but does not borrow. Calls that `suser` or `copyin` refuse change nothing and
are left out.
-/

namespace RetroBSD.TimeOfDay

def hz : ℤ := 200
def usechz : ℤ := (1000000 + hz - 1) / hz

/-- The value of an `int` or a `long`, which wraps. -/
def long (x : ℤ) : ℤ := x.bmod (2 ^ 32)

structure Timeval where
  tvSec : ℤ
  tvUsec : ℤ
  sec_long : long tvSec = tvSec
  usec_long : long tvUsec = tvUsec

structure Clock where
  tvSec : ℤ
  lbolt : ℤ
  adjdelta : ℤ

namespace Clock

variable (c : Clock)

def setthetime (tv : Timeval) : Clock := { c with tvSec := tv.tvSec, lbolt := tv.tvUsec.tdiv usechz }

def gettimeofday : Timeval := ⟨long c.tvSec, long (c.lbolt * usechz), Int.bmod_bmod, Int.bmod_bmod⟩

/-- The loop of `adjtime`, which takes `hz` from `lbolt` in each round. -/
def carry (c : Clock) : ℕ → Clock
  | 0 => c
  | n + 1 => if hz ≤ c.lbolt then carry { c with lbolt := c.lbolt - hz, tvSec := long (c.tvSec + 1) } n else c

def adjust (delta : Timeval) : ℤ := long (long (delta.tvSec * hz) + delta.tvUsec.tdiv usechz)

def Unstoreable (delta : Timeval) : Prop := 0x7fff < adjust delta ∨ adjust delta < -0x8000

instance (delta : Timeval) : Decidable (Unstoreable delta) := inferInstanceAs (Decidable (_ ∨ _))

def adjtime (delta : Timeval) : Clock :=
  if Unstoreable delta then
    let lbolt := long (c.lbolt + delta.tvUsec.tdiv usechz)
    carry { c with tvSec := long (c.tvSec + delta.tvSec), lbolt := lbolt } lbolt.toNat
  else { c with adjdelta := adjust delta }

/-- `hardclock`: the time of day. -/
def hardclock : Clock :=
  let c :=
    if 0 < c.adjdelta then { c with lbolt := long (c.lbolt + 1), adjdelta := c.adjdelta - 1 }
    else if c.adjdelta < 0 then { c with lbolt := long (c.lbolt - 1), adjdelta := c.adjdelta + 1 }
    else c
  let lbolt := long (c.lbolt + 1)
  if hz ≤ lbolt then { c with lbolt := lbolt - hz, tvSec := long (c.tvSec + 1) } else { c with lbolt := lbolt }

end Clock

inductive Event
  | hardclock
  | settimeofday (tv : Timeval)
  | adjtime (delta : Timeval)

def Clock.exec (c : Clock) : Event → Clock
  | .hardclock => c.hardclock
  | .settimeofday tv => c.setthetime tv
  | .adjtime delta => c.adjtime delta

def Clock.run (c : Clock) (es : List Event) : Clock := es.foldl exec c

/-- The time set has a fraction of a second, the clock is not set back over a full second by microseconds, and the
seconds do not wrap. -/
def Safe (c : Clock) : Event → Prop
  | .hardclock => c.lbolt + c.adjdelta.sign + 1 < hz ∨ c.tvSec < 2 ^ 31 - 1
  | .settimeofday tv => -usechz < tv.tvUsec ∧ tv.tvUsec < 1000000
  | .adjtime delta => Clock.Unstoreable delta → 0 ≤ c.lbolt + delta.tvUsec.tdiv usechz

def SafeRun : Clock → List Event → Prop
  | _, [] => True
  | c, e :: es => Safe c e ∧ SafeRun (c.exec e) es

/-- The ticks of an adjustment, without wrapping. -/
def Timeval.ticks (delta : Timeval) : ℤ := delta.tvSec * hz + delta.tvUsec.tdiv usechz

def Timeval.InRange (delta : Timeval) : Prop := -0x8000 ≤ delta.ticks ∧ delta.ticks ≤ 0x7fff

def Event.Slews : Event → Prop
  | .hardclock => True
  | .settimeofday _ => False
  | .adjtime delta => delta.InRange

def Timeval.Le (t t' : Timeval) : Prop := t.tvSec < t'.tvSec ∨ t.tvSec = t'.tvSec ∧ t.tvUsec ≤ t'.tvUsec

def Clock.ticks (c : Clock) : ℤ := c.tvSec * hz + c.lbolt

structure Normal (c : Clock) : Prop where
  sec : -2 ^ 31 ≤ c.tvSec ∧ c.tvSec < 2 ^ 31
  lbolt : 0 ≤ c.lbolt ∧ c.lbolt < hz
  adjdelta : -0x8000 ≤ c.adjdelta ∧ c.adjdelta ≤ 0x7fff

theorem long_of_range {x : ℤ} (h : -2 ^ 31 ≤ x) (h' : x < 2 ^ 31) : long x = x := by
  rw [long, Int.bmod_eq_of_le] <;> omega

theorem long_range (x : ℤ) : -2 ^ 31 ≤ long x ∧ long x < 2 ^ 31 := by
  have hlo := @Int.le_bmod x (2 ^ 32) (by decide)
  have hhi := @Int.bmod_lt x (2 ^ 32) (by decide)
  rw [long]
  omega

section Steps

variable {c : Clock}

theorem Normal.gettimeofday (h : Normal c) :
    c.gettimeofday.tvSec = c.tvSec ∧ c.gettimeofday.tvUsec = c.lbolt * 5000 := by
  obtain ⟨hlo, hhi⟩ := h.lbolt
  simp only [hz] at hhi
  exact ⟨long_of_range h.sec.1 h.sec.2, long_of_range (by simp [usechz, hz]; omega) (by simp [usechz, hz]; omega)⟩

theorem Normal.reported_ticks (h : Normal c) : c.gettimeofday.ticks = c.ticks := by
  rw [Timeval.ticks, h.gettimeofday.1, h.gettimeofday.2]
  exact congrArg _ (Int.mul_tdiv_cancel _ (by decide))

theorem sign_cases (x : ℤ) : x < 0 ∧ x.sign = -1 ∨ x = 0 ∧ x.sign = 0 ∨ 0 < x ∧ x.sign = 1 := by
  rcases lt_trichotomy x 0 with hneg | rfl | hpos
  · exact .inl ⟨hneg, Int.sign_eq_neg_one_of_neg hneg⟩
  · exact .inr (.inl ⟨rfl, rfl⟩)
  · exact .inr (.inr ⟨hpos, Int.sign_eq_one_of_pos hpos⟩)

theorem hardclock_eq (hlo : 0 ≤ c.lbolt) (hhi : c.lbolt < hz) :
    c.hardclock = if hz ≤ c.lbolt + c.adjdelta.sign + 1
      then ⟨long (c.tvSec + 1), c.lbolt + c.adjdelta.sign + 1 - hz, c.adjdelta - c.adjdelta.sign⟩
      else ⟨c.tvSec, c.lbolt + c.adjdelta.sign + 1, c.adjdelta - c.adjdelta.sign⟩ := by
  have hlong : ∀ x, -2 ≤ x → x ≤ 202 → long x = x := fun x hx hx' => long_of_range (by omega) (by omega)
  have hhi' : c.lbolt < 200 := hhi
  unfold Clock.hardclock
  rcases sign_cases c.adjdelta with ⟨hneg, hsign⟩ | ⟨hzero, hsign⟩ | ⟨hpos, hsign⟩
  · rw [if_neg hneg.not_gt, if_pos hneg, hsign]
    dsimp only
    rw [hlong (c.lbolt - 1) (by omega) (by omega), hlong _ (by omega) (by omega)]
    rfl
  · rw [if_neg hzero.not_gt, if_neg hzero.not_lt, hsign]
    dsimp only
    rw [hlong _ (by omega) (by omega), add_zero, sub_zero]
  · rw [if_pos hpos, hsign]
    dsimp only
    rw [hlong (c.lbolt + 1) (by omega) (by omega), hlong _ (by omega) (by omega)]

theorem Normal.hardclock (h : Normal c) (hsafe : Safe c .hardclock) :
    Normal c.hardclock ∧ c.hardclock.ticks = c.ticks + c.adjdelta.sign + 1 ∧
      c.hardclock.adjdelta = c.adjdelta - c.adjdelta.sign := by
  obtain ⟨⟨hsec, hsec'⟩, ⟨hlo, hhi⟩, hadj, hadj'⟩ := h
  have hsign := sign_cases c.adjdelta
  have hhz : hz = 200 := rfl
  rw [hardclock_eq hlo hhi]
  rw [Safe] at hsafe
  split_ifs with hcarry
  · rw [long_of_range (by omega) (by omega)]
    refine ⟨⟨?_, ?_, ?_⟩, ?_, rfl⟩
    all_goals dsimp only [Clock.ticks, hz]; omega
  · refine ⟨⟨⟨hsec, hsec'⟩, ?_, ?_⟩, ?_, rfl⟩
    all_goals dsimp only [Clock.ticks, hz]; omega

theorem carry_spec (n : ℕ) (c : Clock) (hn : c.lbolt ≤ n) (hlo : 0 ≤ c.lbolt)
    (hsec : -2 ^ 31 ≤ c.tvSec ∧ c.tvSec < 2 ^ 31) :
    (0 ≤ (c.carry n).lbolt ∧ (c.carry n).lbolt < hz) ∧ (c.carry n).adjdelta = c.adjdelta ∧
      -2 ^ 31 ≤ (c.carry n).tvSec ∧ (c.carry n).tvSec < 2 ^ 31 := by
  induction n generalizing c with
  | zero => exact ⟨⟨hlo, hn.trans_lt (by decide)⟩, rfl, hsec⟩
  | succ n ih =>
    rw [Clock.carry]
    split_ifs with hcarry
    · refine ih _ ?_ (Int.sub_nonneg.2 hcarry) (long_range _)
      simp only [hz] at *
      omega
    · exact ⟨⟨hlo, not_le.1 hcarry⟩, rfl, hsec⟩

theorem Normal.adjtime (h : Normal c) {delta : Timeval} (hsafe : Safe c (.adjtime delta)) :
    Normal (c.adjtime delta) := by
  unfold Clock.adjtime
  split_ifs with hout
  · have hlong : long (c.lbolt + delta.tvUsec.tdiv usechz) = c.lbolt + delta.tvUsec.tdiv usechz := by
      obtain ⟨hlo, hhi⟩ := h.lbolt
      have husec := long_range delta.tvUsec
      rw [delta.usec_long] at husec
      have hdiv : -429497 < delta.tvUsec.tdiv 5000 ∧ delta.tvUsec.tdiv 5000 < 429497 := by grind
      rw [show usechz = 5000 from rfl]
      simp only [hz] at hhi
      exact long_of_range (by omega) (by omega)
    obtain ⟨hlbolt, hadj, hsec⟩ := carry_spec (long (c.lbolt + delta.tvUsec.tdiv usechz)).toNat
      ⟨long (c.tvSec + delta.tvSec), long (c.lbolt + delta.tvUsec.tdiv usechz), c.adjdelta⟩
      (Int.self_le_toNat _) (hlong.symm ▸ hsafe hout) (long_range _)
    exact ⟨hsec, hlbolt, hadj.symm ▸ h.adjdelta⟩
  · exact ⟨h.sec, h.lbolt, not_lt.1 fun hlt => hout (.inr hlt), not_lt.1 fun hlt => hout (.inl hlt)⟩

theorem adjtime_inRange {delta : Timeval} (h : delta.InRange) :
    c.adjtime delta = { c with adjdelta := delta.ticks } := by
  have hadjust : Clock.adjust delta = delta.ticks := by
    rw [Clock.adjust, long, long, Int.bmod_add_bmod]
    exact long_of_range (le_trans (by decide) h.1) (lt_of_le_of_lt h.2 (by decide))
  rw [Clock.adjtime, if_neg, hadjust]
  rintro (hlt | hlt) <;> rw [hadjust] at hlt
  · exact absurd h.2 (not_le.2 hlt)
  · exact absurd h.1 (not_le.2 hlt)

theorem Normal.exec (h : Normal c) {e : Event} (hsafe : Safe c e) : Normal (c.exec e) := by
  cases e with
  | hardclock => exact (h.hardclock hsafe).1
  | settimeofday tv =>
    obtain ⟨hlo, hhi⟩ := hsafe
    have hsec := long_range tv.tvSec
    rw [tv.sec_long] at hsec
    simp only [usechz, hz] at hlo
    have hdiv : 0 ≤ tv.tvUsec.tdiv 5000 ∧ tv.tvUsec.tdiv 5000 < 200 := by grind
    exact ⟨hsec, hdiv, h.adjdelta⟩
  | adjtime delta => exact h.adjtime hsafe

theorem Normal.run {es : List Event} (h : Normal c) (hsafe : SafeRun c es) : Normal (c.run es) := by
  induction es generalizing c with
  | nil => exact h
  | cons e es ih => exact ih (h.exec hsafe.1) hsafe.2

/-- An adjustment has been made when it has run out. -/
theorem Normal.run_hardclock {k : ℕ} (h : Normal c) (hsafe : SafeRun c (.replicate k .hardclock))
    (hk : c.adjdelta.natAbs ≤ k) : (c.run (.replicate k .hardclock)).ticks = c.ticks + k + c.adjdelta := by
  induction k generalizing c with
  | zero =>
    rw [Int.natAbs_eq_zero.1 (Nat.le_zero.1 hk)]
    exact (add_zero _).symm.trans (add_zero _).symm
  | succ k ih =>
    obtain ⟨hnormal, hticks, hadj⟩ := h.hardclock hsafe.1
    have hsign := sign_cases c.adjdelta
    have hrest := ih hnormal hsafe.2 (by omega)
    change (c.hardclock.run (.replicate k .hardclock)).ticks = _
    omega

theorem Normal.ticks_mono {es : List Event} (h : Normal c) (hslews : ∀ e ∈ es, e.Slews) (hsafe : SafeRun c es) :
    c.ticks ≤ (c.run es).ticks := by
  induction es generalizing c with
  | nil => exact le_rfl
  | cons e es ih =>
    have hstep : c.ticks ≤ (c.exec e).ticks := by
      cases e with
      | hardclock =>
        have hsign := sign_cases c.adjdelta
        have hticks := (h.hardclock hsafe.1).2.1
        change _ ≤ c.hardclock.ticks
        omega
      | settimeofday tv => exact absurd (hslews _ List.mem_cons_self) id
      | adjtime delta =>
        rw [Clock.exec, adjtime_inRange (hslews _ List.mem_cons_self)]
        exact le_rfl
    exact hstep.trans (ih (h.exec hsafe.1) (fun e he => hslews e (List.mem_cons_of_mem _ he)) hsafe.2)

theorem Normal.reported_le {c' : Clock} (h : Normal c) (h' : Normal c') (hle : c.ticks ≤ c'.ticks) :
    c.gettimeofday.Le c'.gettimeofday := by
  obtain ⟨hlo, hhi⟩ := h.lbolt
  obtain ⟨-, hhi'⟩ := h'.lbolt
  simp only [Clock.ticks, hz] at hle hhi hhi'
  rw [Timeval.Le, h.gettimeofday.1, h.gettimeofday.2, h'.gettimeofday.1, h'.gettimeofday.2]
  omega

end Steps

/-- In a run that is safe, and as long as it stays so. Only ticks follow an
adjustment until it has run out: a `settimeofday` or an `adjtime` out of range sets the clock at
once and counts as superseding it, as another `adjtime` in range does, although `adjdelta` goes
on. -/
theorem clock_normalised {t : ℤ} (ht : long t = t) {es : List Event} {c : Clock} (hsafe : SafeRun ⟨t, 0, 0⟩ es)
    (hc : c = Clock.run ⟨t, 0, 0⟩ es) :
    (0 ≤ c.lbolt ∧ c.lbolt < hz) ∧ (0 ≤ c.gettimeofday.tvUsec ∧ c.gettimeofday.tvUsec ≤ 999999) ∧
      (∀ (delta : Timeval) (k : ℕ), delta.InRange → delta.ticks.natAbs ≤ k →
        SafeRun c (.adjtime delta :: .replicate k .hardclock) →
        (c.run (.adjtime delta :: .replicate k .hardclock)).gettimeofday.ticks =
          c.gettimeofday.ticks + k + delta.ticks) ∧
      ∀ es' : List Event, (∀ e ∈ es', e.Slews) → SafeRun c es' → c.gettimeofday.Le (c.run es').gettimeofday := by
  have hboot : Normal ⟨t, 0, 0⟩ := ⟨ht ▸ long_range t, by simp [hz], by simp⟩
  have h : Normal c := hc ▸ hboot.run hsafe
  refine ⟨h.lbolt, ?_, ?_, fun es' hslews hsafe' => h.reported_le (h.run hsafe') (h.ticks_mono hslews hsafe')⟩
  · obtain ⟨hlo, hhi⟩ := h.lbolt
    rw [h.gettimeofday.2]
    simp only [hz] at hhi
    omega
  · intro delta k hrange hk hsafe'
    have hadj : c.exec (.adjtime delta) = { c with adjdelta := delta.ticks } := adjtime_inRange hrange
    have h' : Normal (c.exec (.adjtime delta)) := h.exec hsafe'.1
    rw [(h.run hsafe').reported_ticks, h.reported_ticks]
    change ((c.exec (.adjtime delta)).run (.replicate k .hardclock)).ticks = _
    rw [h'.run_hardclock hsafe'.2 (hadj ▸ hk), hadj]
    rfl

/-- A second has almost passed, and the next tick is held back. -/
theorem clock_normalised_slewed : ∃ es, SafeRun ⟨0, 0, 0⟩ es ∧ (Clock.run ⟨0, 0, 0⟩ es).lbolt = 199 ∧
    (0 ≤ (Clock.run ⟨0, 0, 0⟩ es).lbolt ∧ (Clock.run ⟨0, 0, 0⟩ es).lbolt < hz) ∧
    (Clock.run ⟨0, 0, 0⟩ es).gettimeofday.Le (Clock.run ⟨0, 0, 0⟩ (es ++ [.hardclock])).gettimeofday := by
  have hsafe : SafeRun ⟨0, 0, 0⟩
      [.settimeofday ⟨10, 999999, rfl, rfl⟩, .adjtime ⟨0, -5000, rfl, rfl⟩, .hardclock] :=
    ⟨⟨by decide, by decide⟩, fun hout => absurd hout (by decide), .inr (by decide), trivial⟩
  obtain ⟨hlbolt, -, -, hle⟩ := clock_normalised rfl hsafe rfl
  refine ⟨_, hsafe, by decide, hlbolt, hle [.hardclock] ?_ ⟨.inr (by decide), trivial⟩⟩
  rintro e (_ | ⟨_, ⟨⟩⟩)
  trivial

/-- Microseconds beyond a second are reported as they were set. -/
theorem settimeofday_unchecked : ¬∀ es : List Event, (Clock.run ⟨0, 0, 0⟩ es).lbolt < hz ∧
    (Clock.run ⟨0, 0, 0⟩ es).gettimeofday.tvUsec ≤ 999999 := by
  intro h
  exact absurd (h [.settimeofday ⟨0, 1000000, rfl, rfl⟩]).1 (by decide)

end RetroBSD.TimeOfDay
