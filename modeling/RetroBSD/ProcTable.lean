import RetroBSD.BackLinks
import RetroBSD.Runs

/-!
# The process table

`newproc` and `fork1` of `sys/kernel/kern_fork.c`, `exit` and `wait1` of `kern_exit.c`,
`pfind` and `pqinit` of `kern_proc.c`. Each slot of the table is on one of the lists
`allproc`, `zombproc` and `freeproc`, and the live processes but process 0 are found by
their number in a hash table. A call is one step: `wait1` is modelled up to its sleep, after
which it starts over. A result `none` is a panic or a null pointer.

Signals, memory, accounting and the file and directory references are left out. What other
calls do to the state of a process, its flags, its user and its group is an event of its own.
-/

namespace RetroBSD.Procs

open LinkedList Function

def nproc : ℕ := 25

def maxuprc : ℕ := 20

def pidhsz : ℕ := 16

abbrev Slot := Fin nproc

instance : NeZero nproc := ⟨by decide⟩

inductive Queue
  | allproc
  | zombproc
  | freeproc
  deriving DecidableEq

inductive Stat
  | unused
  | ssleep
  | srun
  | sidl
  | szomb
  | sstop
  deriving DecidableEq

/-- `struct proc` without its links: `traced` and `waited` are the flags `P_TRACED` and
`P_WAITED`. -/
structure Proc where
  pPid : ℤ
  pPpid : ℤ
  pPptr : Option Slot
  pPgrp : ℤ
  pUid : ℤ
  pStat : Stat
  traced : Bool
  waited : Bool
  pXstat : ℤ

/-- `links` has `p_nxt` and `p_prev`, `hash` the table `pidhash` and `p_hash`. -/
structure Table where
  links : BackLinks Queue Slot
  hash : Cells (Fin pidhsz) Slot
  proc : Slot → Proc
  mpid : ℤ
  pidchecked : ℤ

def pidHash (pid : ℤ) : Fin pidhsz := ⟨(pid % pidhsz).toNat, by simp only [pidhsz]; omega⟩

namespace Table

variable (t : Table)

def list (k : Queue) : List Slot := t.links.cells.walk nproc (t.links.cells.head k)

def pfind (pid : ℤ) : Option Slot :=
  (t.hash.walk nproc (t.hash.head (pidHash pid))).find? fun p => (t.proc p).pPid = pid

def setProc (p : Slot) (x : Proc) : Table := { t with proc := update t.proc p x }

/-- The scan of `newproc` for a number that is not in use: `true` when it has to start over. -/
def pidScan : List Slot → ℤ → ℤ → Bool × ℤ × ℤ
  | [], mpid, pidchecked => (false, mpid, pidchecked)
  | p :: ps, mpid, pidchecked =>
    let x := t.proc p
    let used := x.pPid = mpid ∨ x.pPgrp = mpid
    if used ∧ pidchecked ≤ mpid + 1 then (true, mpid + 1, pidchecked)
    else
      let mpid := if used then mpid + 1 else mpid
      let pidchecked := if mpid < x.pPid ∧ x.pPid < pidchecked then x.pPid else pidchecked
      let pidchecked := if mpid < x.pPgrp ∧ x.pPgrp < pidchecked then x.pPgrp else pidchecked
      pidScan ps mpid pidchecked

/-- The choice of a number, from the label `retry` on. -/
def choosePid : ℕ → ℤ → ℤ → Option (ℤ × ℤ)
  | 0, _, _ => none
  | fuel + 1, mpid, pidchecked =>
    let r := if 30000 ≤ mpid then (100, 0) else (mpid, pidchecked)
    if r.2 ≤ r.1 then
      match t.pidScan (t.list .allproc ++ t.list .zombproc) r.1 30000 with
      | (true, mpid, pidchecked) => choosePid fuel mpid pidchecked
      | (false, r) => some r
    else some r

/-- How often `choosePid` may have to start over: the table has at most two numbers of each
slot, and the count may start anew once. -/
def pidRetries : ℕ := 2 * (2 * nproc + 1)

def childOf (parent child : Slot) (mpid : ℤ) : Proc where
  pPid := mpid
  pPpid := (t.proc parent).pPid
  pPptr := some parent
  pPgrp := (t.proc parent).pPgrp
  pUid := (t.proc parent).pUid
  pStat := .srun
  traced := false
  waited := false
  pXstat := (t.proc child).pXstat

/-- `newproc`, with the slot of the child. The list `allproc` is never empty. -/
def newproc (parent : Slot) : Option (Slot × Table) :=
  match t.choosePid pidRetries (t.mpid + 1) t.pidchecked with
  | none => none
  | some (mpid, pidchecked) =>
    match t.links.cells.head .freeproc with
    | none => none
    | some child =>
      let b := pidHash mpid
      some (child, {
        links := (t.links.popPlain .freeproc child).pushFront .allproc child
        hash := (t.hash.set (.cell child) (t.hash.head b)).set (.head b) (some child)
        proc := update t.proc child (t.childOf parent child mpid)
        mpid := mpid
        pidchecked := pidchecked })

/-- `fork1` of `parent`, whose effective user is `uid`: the number of the child, or no
number for `EAGAIN`. -/
def fork1 (parent : Slot) (uid : ℤ) : Option (Option ℤ × Table) :=
  let a := if uid ≠ 0 then
    ((t.list .allproc ++ t.list .zombproc).filter fun p => (t.proc p).pUid = uid).length else 0
  match t.links.cells.head .freeproc with
  | none => some (none, t)
  | some p2 =>
    if uid ≠ 0 ∧ (t.links.cells.next p2 = none ∨ maxuprc < a) then some (none, t)
    else
      match t.newproc parent with
      | none => none
      | some (_, t') => some (some (t'.proc p2).pPid, t')

/-- What the exit information leaves in place of `p_hash` and `p_pgrp`. -/
structure Overlay where
  pHash : Option Slot
  pPgrp : ℤ

def orphan (p : Slot) (x : Proc) : Proc :=
  if x.pPptr = some p then { x with pPptr := some 1, pPpid := 1, traced := false } else x

def orphans (p : Slot) (ps : List Slot) : Table :=
  { t with proc := ps.foldl (fun proc q => update proc q (orphan p (proc q))) t.proc }

def exit (p : Slot) (rv : ℤ) (g : Overlay) : Option Table :=
  let t := t.setProc p { t.proc p with traced := false }
  if (t.proc p).pPid = 1 then none
  else
    match t.links.unlink p with
    | none => none
    | some links =>
      let t := { t with links := links.pushFront .zombproc p }
      let t := t.setProc p { t.proc p with pStat := .szomb }
      match t.hash.findLink p nproc (.head (pidHash (t.proc p).pPid)) with
      | none => none
      | some pp =>
        let t := { t with hash := (t.hash.set pp (t.hash.next p)).set (.cell p) g.pHash }
        let t := t.setProc p { t.proc p with pXstat := rv, pPgrp := g.pPgrp }
        some (t.orphans p (t.list .allproc ++ t.list .zombproc))

/-- The arguments of `wait4`. The faults say whether copying out fails. -/
structure WaitArgs where
  pid : ℤ
  statusFault : Bool
  rusageFault : Bool
  nohang : Bool
  untraced : Bool

inductive WaitResult
  | exited (p : Slot) (pid status : ℤ)
  | stopped (pid : ℤ)
  | nohang
  | sleep
  | efault
  | echild
  deriving DecidableEq

def Wanted (q : Slot) (pid : ℤ) (x : Proc) : Prop :=
  x.pPptr = some q ∧ (pid = -1 ∨ x.pPid = pid ∨ x.pPgrp = -pid)

instance (q : Slot) (pid : ℤ) (x : Proc) : Decidable (Wanted q pid x) := inferInstanceAs (Decidable (_ ∧ _))

def reaped (x : Proc) : Proc where
  pPid := 0
  pPpid := 0
  pPptr := none
  pPgrp := 0
  pUid := x.pUid
  pStat := .unused
  traced := false
  waited := false
  pXstat := 0

/-- One pass of `wait1` for the process `q`. -/
def wait1 (q : Slot) (a : WaitArgs) : Option (WaitResult × Table) :=
  let pid := if a.pid = 0 then -(t.proc q).pPgrp else a.pid
  match (t.list .zombproc).find? fun p => Wanted q pid (t.proc p) with
  | some p =>
    if a.statusFault ∨ a.rusageFault then some (.efault, t)
    else
      match t.links.unlink p with
      | none => none
      | some links =>
        let t' := { t with links := links.pushPlain .freeproc p }
        some (.exited p (t.proc p).pPid (t.proc p).pXstat, t'.setProc p (reaped (t.proc p)))
  | none =>
    let children := (t.list .allproc).filter fun p => Wanted q pid (t.proc p)
    let stopped := children.find? fun p => (t.proc p).pStat = .sstop ∧ (t.proc p).waited = false ∧
      ((t.proc p).traced ∨ a.untraced)
    match stopped with
    | some p =>
      let r := if a.statusFault then .efault else .stopped (t.proc p).pPid
      some (r, t.setProc p { t.proc p with waited := true })
    | none =>
      if children = [] then some (.echild, t)
      else if a.nohang then some (.nohang, t)
      else some (.sleep, t)

end Table

/-- `pqinit`, on a table of zeroes in which process 0 runs. -/
def pqinit : Table :=
  let empty : BackLinks Queue Slot := ⟨⟨fun _ => none, fun _ => none⟩, fun _ => none⟩
  let links := ((List.finRange nproc).tail.reverse).foldl (fun l p => l.pushPlain .freeproc p) empty
  { links := ⟨(links.cells.set (.head .allproc) (some 0)).set (.cell 0) none,
      update links.prev 0 (some (.head .allproc))⟩
    hash := ⟨fun _ => none, fun _ => none⟩
    proc := fun p => ⟨0, 0, none, 0, 0, if p = 0 then .srun else .unused, false, false, 0⟩
    mpid := 0
    pidchecked := 0 }

def boot : Table :=
  match pqinit.newproc 0 with
  | none => pqinit
  | some (_, t) => t

inductive Event
  | fork (p : Slot) (uid : ℤ) (r : Option ℤ)
  | exit (p : Slot) (pid rv : ℤ)
  | wait (q : Slot) (a : Table.WaitArgs) (r : Table.WaitResult)
  | other (p : Slot)

def Table.Runs (t : Table) (p : Slot) : Prop := p ∈ t.list .allproc ∧ p ≠ 0

inductive Step : Table → Event → Table → Prop
  | fork {t t' : Table} {p : Slot} {uid : ℤ} {r : Option ℤ} :
      t.Runs p → t.fork1 p uid = some (r, t') → Step t (.fork p uid r) t'
  | exit {t t' : Table} {p : Slot} {rv : ℤ} {g : Table.Overlay} :
      t.Runs p → p ≠ 1 → t.exit p rv g = some t' → Step t (.exit p (t.proc p).pPid rv) t'
  | wait {t t' : Table} {q : Slot} {a : Table.WaitArgs} {r : Table.WaitResult} :
      t.Runs q → t.wait1 q a = some (r, t') → Step t (.wait q a r) t'
  | other {t : Table} {p : Slot} {x : Proc} : t.Runs p → x.pPid = (t.proc p).pPid → x.pPpid = (t.proc p).pPpid →
      x.pPptr = (t.proc p).pPptr → Step t (.other p) (t.setProc p x)

end RetroBSD.Procs
