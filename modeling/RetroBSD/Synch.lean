import RetroBSD.LinkedQueues
import Mathlib

/-!
# Sleep queues and the run queue

The process states and queues of `sys/kernel/kern_synch.c`, with the parts of
`psignal`, `issignal`, `newproc`, `exit` and `sched` that change them. One link field
serves the run queue `qs` and the sleep queues `slpque`. A process that is stopped, or
that `tsleep` finds to have a signal, gets there by the signals it has; which ones they
are is left open, and so are the priorities. What `panic` and a null pointer do is not
said: such a call has no result.
-/

namespace RetroBSD.Synch

open LinkedList

def sqsize : ℕ := 16

inductive Stat
  | free
  | ssleep
  | swait
  | srun
  | sidl
  | szomb
  | sstop
  deriving DecidableEq

structure Proc where
  pStat : Stat
  pWchan : ℕ
  pPri : ℕ
  sload : Bool
  sintr : Bool
  deriving DecidableEq

inductive Queue
  | qs
  | slpque (b : Fin sqsize)
  deriving DecidableEq

def hash (chan : ℕ) : Queue := .slpque ⟨chan / 32 % sqsize, Nat.mod_lt _ (by decide)⟩

structure Kernel (ι : Type) where
  proc : ι → Proc
  /-- The heads `qs` and `slpque`, and the links `p_link`. -/
  queues : Cells Queue ι
  runout : ℕ
  /-- The process that runs, unless `swtch` looks for one. -/
  current : Option ι

/-- The process 0 and the addresses that are slept on. -/
structure Addrs (ι : Type) where
  proc0 : ι
  runout : ℕ
  runin : ℕ
  proc : ι → ℕ
  runout_ne : runout ≠ 0
  runin_ne : runin ≠ 0
  proc_ne : ∀ p, proc p ≠ 0

variable {ι : Type} [DecidableEq ι] [Fintype ι]

namespace Kernel

def setProc (s : Kernel ι) (p : ι) (x : Proc) : Kernel ι := { s with proc := Function.update s.proc p x }

def setLink (s : Kernel ι) (q : Place Queue ι) (v : Option ι) : Kernel ι := { s with queues := s.queues.set q v }

def push (s : Kernel ι) (k : Queue) (p : ι) : Kernel ι :=
  (s.setLink (.cell p) (s.queues.head k)).setLink (.head k) (some p)

def setrq (s : Kernel ι) (p : ι) : Kernel ι := s.push .qs p

end Kernel

open Kernel

def remrqLoop (c : Cells Queue ι) (p : ι) : ℕ → Option ι → Option ι
  | fuel + 1, some q => if c.next q = some p then some q else remrqLoop c p fuel (c.next q)
  | _, _ => none

def remrq (s : Kernel ι) (p : ι) : Option (Kernel ι) :=
  if s.queues.head .qs = some p then some (s.setLink (.head .qs) (s.queues.next p))
  else (remrqLoop s.queues p (Fintype.card ι) (s.queues.head .qs)).map fun q =>
    s.setLink (.cell q) (s.queues.next p)

def unsleepLoop (c : Cells Queue ι) (p : ι) : ℕ → Place Queue ι → Option (Place Queue ι)
  | 0, _ => none
  | fuel + 1, hp =>
    match c.get hp with
    | none => none
    | some i => if i = p then some hp else unsleepLoop c p fuel (.cell i)

def unsleep (s : Kernel ι) (p : ι) : Option (Kernel ι) :=
  if (s.proc p).pWchan = 0 then some s
  else (unsleepLoop s.queues p (Fintype.card ι) (.head (hash (s.proc p).pWchan))).map fun hp =>
    (s.setLink hp (s.queues.next p)).setProc p { s.proc p with pWchan := 0 }

/-- The end of `setrun`, which `wakeup` repeats: the process goes to the run queue, or the
swapper is woken by `wakeRunout` when it waits for a process that is ready outside. -/
def makeReady (wakeRunout : Kernel ι → Option (Kernel ι)) (s : Kernel ι) (p : ι) : Option (Kernel ι) :=
  let s := s.setProc p { s.proc p with pStat := .srun }
  if (s.proc p).sload then some (s.setrq p)
  else if s.runout ≠ 0 then wakeRunout { s with runout := 0 }
  else some s

def wakeupLoop (wakeRunout : Kernel ι → Option (Kernel ι)) (chan : ℕ) :
    ℕ → Kernel ι → Place Queue ι → Option (Kernel ι)
  | 0, _, _ => none
  | fuel + 1, s, q =>
    match s.queues.get q with
    | none => some s
    | some p =>
      if (s.proc p).pStat ≠ .ssleep ∧ (s.proc p).pStat ≠ .sstop then none
      else if (s.proc p).pWchan = chan then
        let s' := (s.setLink q (s.queues.next p)).setProc p { s.proc p with pWchan := 0 }
        if (s.proc p).pStat = .ssleep then
          match makeReady wakeRunout s' p with
          | none => none
          | some s' => wakeupLoop wakeRunout chan fuel s' (.head (hash chan))
        else wakeupLoop wakeRunout chan fuel s' q
      else wakeupLoop wakeRunout chan fuel s (.cell p)

def wakeupFuel (ι : Type) [Fintype ι] : ℕ := (Fintype.card ι + 1) * (Fintype.card ι + 1)

/-- `wakeup` when `runout` is 0, as it is when `wakeup` calls itself. -/
def wakeupRunout (a : Addrs ι) (s : Kernel ι) : Option (Kernel ι) :=
  wakeupLoop (fun _ => none) a.runout (wakeupFuel ι) s (.head (hash a.runout))

def wakeup (a : Addrs ι) (s : Kernel ι) (chan : ℕ) : Option (Kernel ι) :=
  wakeupLoop (wakeupRunout a) chan (wakeupFuel ι) s (.head (hash chan))

def setrun (a : Addrs ι) (s : Kernel ι) (p : ι) : Option (Kernel ι) :=
  match (s.proc p).pStat with
  | .ssleep | .sstop =>
    match unsleep s p with
    | none => none
    | some s => makeReady (wakeupRunout a) s p
  | .sidl => makeReady (wakeupRunout a) s p
  | _ => none

def endtsleep (a : Addrs ι) (s : Kernel ι) (p : ι) : Option (Kernel ι) :=
  if (s.proc p).pWchan ≠ 0 then
    if (s.proc p).pStat = .ssleep then setrun a s p else unsleep s p
  else some s

def swtchLoop (s : Kernel ι) : ℕ → Option ι → Option ι → ℕ → Option (ι × Option ι) → Option (ι × Option ι)
  | fuel + 1, some p, q, n, best =>
    if (s.proc p).sload ∧ (s.proc p).pPri < n then
      swtchLoop s fuel (s.queues.next p) (some p) (s.proc p).pPri (some (p, q))
    else swtchLoop s fuel (s.queues.next p) (some p) n best
  | _, _, _, _, best => best

/-- A round of `swtch`, without a result when it finds no process. -/
def swtch (s : Kernel ι) : Option (Kernel ι) :=
  match swtchLoop s (Fintype.card ι) (s.queues.head .qs) none 128 none with
  | none => none
  | some (p, none) => some { s.setLink (.head .qs) (s.queues.next p) with current := some p }
  | some (p, some q) => some { s.setLink (.cell q) (s.queues.next p) with current := some p }

/-- The beginning of `tsleep`: the process enters the sleep queue, still running. -/
def tsleepEnter (s : Kernel ι) (p : ι) (chan : ℕ) (catch' : Bool) : Kernel ι :=
  (s.setProc p { s.proc p with pWchan := chan, sintr := catch' }).push (hash chan) p

/-- The end of `tsleep` when no signal is found, up to the return from `swtch`. -/
def tsleep (a : Addrs ι) (s : Kernel ι) (p : ι) (chan : ℕ) (catch' : Bool) : Option (Kernel ι) :=
  let s := tsleepEnter s p chan catch'
  let s := { s.setProc p { s.proc p with pStat := .ssleep } with current := none }
  if p ≠ a.proc0 then wakeup a s a.runin else some s

/-- `tsleep` when `CURSIG` returns a signal. -/
def tsleepSignal (s : Kernel ι) (p : ι) (chan : ℕ) : Option (Kernel ι) :=
  match unsleep (tsleepEnter s p chan true) p with
  | none => none
  | some s => some (s.setProc p { s.proc p with pStat := .srun })

/-- What the signal that tells the parent of a stop does to the parent. -/
inductive Sigchld
  | nothing
  | run
  | unsleep

def sigchld (a : Addrs ι) (s : Kernel ι) (parent : ι) : Sigchld → Option (Kernel ι)
  | .nothing => some s
  | .run => setrun a s parent
  | .unsleep => unsleep s parent

def stop (a : Addrs ι) (s : Kernel ι) (p parent : ι) : Option (Kernel ι) :=
  wakeup a (s.setProc p { s.proc p with pStat := .sstop }) (a.proc parent)

/-- `psignal` to the parent and `stop`. -/
def notifyStop (a : Addrs ι) (s : Kernel ι) (p parent : ι) (chld : Sigchld) : Option (Kernel ι) :=
  match sigchld a s parent chld with
  | none => none
  | some s => stop a s p parent

def swapoutEnd (a : Addrs ι) (s : Kernel ι) : Option (Kernel ι) :=
  if s.runout ≠ 0 then wakeup a { s with runout := 0 } a.runout else some s

/-- `newproc`: the child is swapped out to make the copy. -/
def newproc (a : Addrs ι) (s : Kernel ι) (child : ι) : Option (Kernel ι) :=
  swapoutEnd a (s.setProc child { s.proc child with pStat := .srun, pWchan := 0, sload := false })

/-- The decision of `sched` to swap a process out. -/
def swapoutDecision (s : Kernel ι) (p : ι) : Option (Kernel ι) :=
  let s' := s.setProc p { s.proc p with sload := false }
  if (s.proc p).pStat = .srun then remrq s' p else some s'

def swapinEnd (s : Kernel ι) (p : ι) : Kernel ι :=
  let s' := if (s.proc p).pStat = .srun then s.setrq p else s
  s'.setProc p { s'.proc p with sload := true }

inductive Event (ι : Type)
  | tsleep (chan : ℕ) (catch' : Bool)
  | tsleepSignal (chan : ℕ)
  /-- `issignal`, called by `tsleep`, stops the process. -/
  | tsleepStop (chan : ℕ) (parent : ι) (chld : Sigchld)
  /-- `issignal`, called elsewhere, stops the process. -/
  | stop (parent : ι) (chld : Sigchld)
  | preempt
  | newproc (child : ι)
  | exit
  | reap (p : ι)
  | wakeup (chan : ℕ)
  | setrun (p : ι)
  | unsleep (p : ι)
  | endtsleep (p : ι)
  /-- `psignal` stops a process that sleeps. -/
  | stopSleeping (p parent : ι) (chld : Sigchld)
  /-- `psignal` lets a stopped process go on sleeping. -/
  | continue (p : ι)
  | setpri (p : ι) (n : ℕ)
  | schedWait
  | swapoutDecision (p : ι)
  | swapoutEnd
  | swapinEnd (p : ι)
  | swtch

/-- The parent sleeps interruptibly, so that the signal makes it run, or it is stopped in
such a sleep, which ends. -/
def Sigchld.Fits (chld : Sigchld) (s : Kernel ι) (parent : ι) : Prop :=
  match chld with
  | .nothing => True
  | .run => (s.proc parent).pStat = .ssleep ∧ (s.proc parent).sintr = true
  | .unsleep => (s.proc parent).pStat = .sstop ∧ (s.proc parent).sintr = true

/-- When the callers make the calls. Only `sched`, which is process 0, sleeps on `runout`,
and a process is not its own parent. -/
def Enabled (a : Addrs ι) (s : Kernel ι) : Event ι → Prop
  | .tsleep chan _ | .tsleepSignal chan => s.current ≠ none ∧ chan ≠ 0 ∧ chan ≠ a.runout
  | .tsleepStop chan parent chld => s.current ≠ none ∧ s.current ≠ some parent ∧ chan ≠ 0 ∧ chan ≠ a.runout ∧
      chld.Fits s parent
  | .stop parent chld => s.current ≠ none ∧ s.current ≠ some parent ∧ chld.Fits s parent
  | .preempt | .exit => s.current ≠ none
  | .newproc child => s.current ≠ none ∧ (s.proc child).pStat = .free
  | .reap p => (s.proc p).pStat = .szomb
  | .wakeup chan => chan ≠ 0
  | .setrun p => (s.proc p).pStat = .ssleep ∨ (s.proc p).pStat = .sstop
  | .unsleep p => (s.proc p).pStat = .sstop
  | .endtsleep _ | .setpri .. => True
  | .stopSleeping p parent chld => p ≠ parent ∧ (s.proc p).pStat = .ssleep ∧ (s.proc p).sintr = true ∧
      chld.Fits s parent
  | .continue p => (s.proc p).pStat = .sstop ∧ (s.proc p).pWchan ≠ 0
  | .schedWait | .swapoutEnd => s.current = some a.proc0
  | .swapoutDecision p => s.current = some a.proc0 ∧ p ≠ a.proc0 ∧ (s.proc p).sload = true ∧
      ((s.proc p).pStat = .sstop ∨ (s.proc p).pStat = .ssleep ∨ (s.proc p).pStat = .srun)
  | .swapinEnd p => s.current = some a.proc0 ∧ (s.proc p).pStat = .srun ∧ (s.proc p).sload = false
  | .swtch => s.current = none ∧ swtch s ≠ none

instance (chld : Sigchld) (s : Kernel ι) (parent : ι) : Decidable (chld.Fits s parent) :=
  match chld with
  | .nothing => inferInstanceAs (Decidable True)
  | .run | .unsleep => inferInstanceAs (Decidable (_ ∧ _))

instance (a : Addrs ι) (s : Kernel ι) (ev : Event ι) : Decidable (Enabled a s ev) :=
  match ev with
  | .tsleep .. | .tsleepSignal _ => inferInstanceAs (Decidable (_ ∧ _ ∧ _))
  | .tsleepStop .. => inferInstanceAs (Decidable (_ ∧ _ ∧ _ ∧ _ ∧ _))
  | .stop .. => inferInstanceAs (Decidable (_ ∧ _ ∧ _))
  | .preempt | .exit => inferInstanceAs (Decidable (_ ≠ none))
  | .newproc _ => inferInstanceAs (Decidable (_ ∧ _))
  | .reap _ => inferInstanceAs (Decidable (_ = Stat.szomb))
  | .wakeup _ => inferInstanceAs (Decidable (_ ≠ 0))
  | .setrun _ => inferInstanceAs (Decidable (_ ∨ _))
  | .unsleep _ => inferInstanceAs (Decidable (_ = Stat.sstop))
  | .endtsleep _ | .setpri .. => inferInstanceAs (Decidable True)
  | .stopSleeping .. => inferInstanceAs (Decidable (_ ∧ _ ∧ _ ∧ _))
  | .continue _ => inferInstanceAs (Decidable (_ ∧ _))
  | .schedWait | .swapoutEnd => inferInstanceAs (Decidable (_ = some _))
  | .swapoutDecision _ => inferInstanceAs (Decidable (_ ∧ _ ∧ _ ∧ (_ ∨ _ ∨ _)))
  | .swapinEnd _ => inferInstanceAs (Decidable (_ ∧ _ ∧ _))
  | .swtch => inferInstanceAs (Decidable (_ ∧ _))

/-- What an event does; `p` is the process that runs, for the events of a process. -/
def exec (a : Addrs ι) (s : Kernel ι) (ev : Event ι) : Option (Kernel ι) :=
  match ev, s.current with
  | .tsleep chan catch', some p => tsleep a s p chan catch'
  | .tsleepSignal chan, some p => tsleepSignal s p chan
  | .tsleepStop chan parent chld, some p =>
    notifyStop a { tsleepEnter s p chan true with current := none } p parent chld
  | .stop parent chld, some p => notifyStop a { s with current := none } p parent chld
  | .preempt, some p => some { s.setrq p with current := none }
  | .exit, some p => some { s.setProc p { s.proc p with pStat := .szomb } with current := none }
  | .newproc child, _ => newproc a s child
  | .reap p, _ => some (s.setProc p { s.proc p with pStat := .free, pWchan := 0 })
  | .wakeup chan, _ => wakeup a s chan
  | .setrun p, _ => setrun a s p
  | .unsleep p, _ => unsleep s p
  | .endtsleep p, _ => endtsleep a s p
  | .stopSleeping p parent chld, _ => notifyStop a s p parent chld
  | .continue p, _ => some (s.setProc p { s.proc p with pStat := .ssleep })
  | .setpri p n, _ => some (s.setProc p { s.proc p with pPri := n })
  | .schedWait, _ => tsleep a { s with runout := s.runout + 1 } a.proc0 a.runout false
  | .swapoutDecision p, _ => swapoutDecision s p
  | .swapoutEnd, _ => swapoutEnd a s
  | .swapinEnd p, _ => some (swapinEnd s p)
  | .swtch, _ => swtch s
  | _, none => none

def Step (a : Addrs ι) (s : Kernel ι) (ev : Event ι) (s' : Kernel ι) : Prop :=
  Enabled a s ev ∧ exec a s ev = some s'

end RetroBSD.Synch
