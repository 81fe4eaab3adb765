import RetroBSD.LinkedList

/-!
# Callouts

The queue of timeouts of `sys/kernel/kern_clock.c`. A callout is an entry of a table;
`calltodo` leads to the entries that wait, `callfree` to those that are free. The time
of an entry, a 32-bit integer, counts the ticks from the entry before it, or from now
for the first entry that is not due yet; the time of an entry that is due is 0 or
negative. Handlers and their arguments are addresses. What `hardclock` and `softclock`
do besides is left out.
-/

namespace RetroBSD.Clock

open LinkedList Function

structure Callout where
  cTime : Int32
  cArg : ℕ
  cFunc : ℕ
  cNext : Option ℕ

structure Callouts where
  callout : ℕ → Callout
  calltodo : Option ℕ
  callfree : Option ℕ

def Callouts.next (s : Callouts) (i : ℕ) : Option ℕ := (s.callout i).cNext

def Callouts.time (s : Callouts) (i : ℕ) : Int32 := (s.callout i).cTime

def Callouts.setTime (s : Callouts) (i : ℕ) (t : Int32) : Callouts :=
  { s with callout := update s.callout i { s.callout i with cTime := t } }

/-- The link of an entry, or of `calltodo` for `none`. -/
def Callouts.link (s : Callouts) : Option ℕ → Option ℕ
  | none => s.calltodo
  | some i => s.next i

def Callouts.setLink (s : Callouts) (p : Option ℕ) (v : Option ℕ) : Callouts :=
  match p with
  | none => { s with calltodo := v }
  | some i => { s with callout := update s.callout i { s.callout i with cNext := v } }

def Callouts.release (s : Callouts) (i : ℕ) : Callouts :=
  { s.setLink (some i) s.callfree with callfree := some i }

def coutinit (ncall : ℕ) (callout : ℕ → Callout) : Callouts where
  callout i := { callout i with cNext := if i + 1 < ncall then some (i + 1) else none }
  calltodo := none
  callfree := if 0 < ncall then some 0 else none

/-- The loop of `timeout`: the entry to insert behind, and the time left. -/
def timeoutLoop (s : Callouts) : ℕ → Option ℕ → Int32 → Option ℕ × Int32
  | 0, p1, t => (p1, t)
  | fuel + 1, p1, t =>
    match s.link p1 with
    | none => (p1, t)
    | some p2 =>
      if s.time p2 < t then
        timeoutLoop s fuel (some p2) (if s.time p2 > 0 then t - s.time p2 else t)
      else (p1, t)

def Callouts.insertAfter (s : Callouts) (p1 : Option ℕ) (pnew : ℕ) (t : Int32) (func arg : ℕ) : Callouts :=
  let s' := { s with callfree := s.next pnew }.setLink p1 (some pnew)
  { s' with callout := update s'.callout pnew ⟨t, arg, func, s.link p1⟩ }

def Callouts.subTime (s : Callouts) (p2 : Option ℕ) (t : Int32) : Callouts :=
  match p2 with
  | none => s
  | some p2 => s.setTime p2 (s.time p2 - t)

/-- `timeout`; it panics when no entry is free. -/
def timeout (ncall : ℕ) (s : Callouts) (func arg : ℕ) (t : Int32) : Option Callouts :=
  match s.callfree with
  | none => none
  | some pnew =>
    let r := timeoutLoop s ncall none (if t ≤ 0 then 1 else t)
    some ((s.insertAfter r.1 pnew r.2 func arg).subTime (s.link r.1) r.2)

/-- The loop of `untimeout`: the entry before the first that matches, and that one. -/
def untimeoutLoop (s : Callouts) (func arg : ℕ) : ℕ → Option ℕ → Option (Option ℕ × ℕ)
  | 0, _ => none
  | fuel + 1, p1 =>
    match s.link p1 with
    | none => none
    | some p2 =>
      if (s.callout p2).cFunc = func ∧ (s.callout p2).cArg = arg then some (p1, p2)
      else untimeoutLoop s func arg fuel (some p2)

/-- The time of an entry goes to the one behind it. -/
def Callouts.passTime (s : Callouts) (p2 : ℕ) : Callouts :=
  match s.next p2 with
  | some p3 => if s.time p2 > 0 then s.setTime p3 (s.time p3 + s.time p2) else s
  | none => s

def untimeout (ncall : ℕ) (s : Callouts) (func arg : ℕ) : Callouts :=
  match untimeoutLoop s func arg ncall none with
  | none => s
  | some (p1, p2) =>
    let s' := s.passTime p2
    (s'.setLink p1 (s'.next p2)).release p2

def hardclockLoop : ℕ → Callouts → Option ℕ → Callouts
  | fuel + 1, s, some p1 =>
    let s := s.setTime p1 (s.time p1 - 1)
    if s.time p1 > 0 then s
    else if s.time p1 = 0 then s
    else hardclockLoop fuel s (s.next p1)
  | _, s, _ => s

def hardclock (ncall : ℕ) (s : Callouts) : Callouts := hardclockLoop ncall s s.calltodo

/-- One round of the loop of `softclock`: the handler to call with its argument, or the
end of the loop. -/
def softclockRound (s : Callouts) : Option (ℕ × ℕ) × Callouts :=
  match s.calltodo with
  | none => (none, s)
  | some p1 =>
    if s.time p1 > 0 then (none, s)
    else (some ((s.callout p1).cFunc, (s.callout p1).cArg),
      (s.setLink none (s.next p1)).release p1)

end RetroBSD.Clock
