import RetroBSD.ReadersWriter
import RetroBSD.Runs
import Mathlib

/-!
# Advisory locks

`flock` and the locks of an inode, from `sys/kernel/sys_inode.c` and
`sys/kernel/kern_descrip.c`. The model is about one inode: its two counts and three
flags, the file structures that lead to it, and the processes. A process inside
`ino_lock` is at the label `again` or in `tsleep`, asleep or woken. It goes from `again`
to a return, to `tsleep` or back to `again` in one step; that others may run between two
such steps allows more interleavings than the kernel has, which switches in `tsleep`
only. Descriptors are counted, for each process and file, instead of listed.
-/

namespace RetroBSD.Flock

open ReadersWriter Runs Function

structure How where
  lockSh : Bool
  lockEx : Bool
  lockNb : Bool
  lockUn : Bool
  deriving DecidableEq

structure File where
  fCount : ℕ
  fshlock : Bool
  fexlock : Bool
  deriving DecidableEq

structure Inode where
  iShlockc : UInt16
  iExlockc : UInt16
  ishlock : Bool
  iexlock : Bool
  ilwait : Bool
  deriving DecidableEq

inductive Place (F : Type)
  | outside
  | again (f : F) (cmd : How)
  | asleep (f : F) (cmd : How)
  | woken (f : F) (cmd : How)
  deriving DecidableEq

def Place.request {F : Type} : Place F → Option (F × How)
  | outside => none
  | again f cmd | asleep f cmd | woken f cmd => some (f, cmd)

def Place.wake {F : Type} : Place F → Place F
  | asleep f cmd => woken f cmd
  | x => x

structure System (P F : Type) where
  inode : Inode
  file : F → File
  holds : P → F → ℕ
  place : P → Place F

section Model

variable {P F : Type} [DecidableEq P] [DecidableEq F]

namespace System

def wakeup (s : System P F) : System P F := { s with place := fun p => (s.place p).wake }

def setFile (s : System P F) (f : F) (fp : File) : System P F := { s with file := update s.file f fp }

def goto (s : System P F) (p : P) (x : Place F) : System P F := { s with place := update s.place p x }

def wakeWaiting (s : System P F) (flags : Bool) : System P F := if flags then s.wakeup else s

def unlockShared (s : System P F) (f : F) (flags : Bool) : System P F :=
  let c := s.inode.iShlockc - 1
  let s := { s with inode := { s.inode with iShlockc := c } }
  let s := if c = 0 then { s with inode := { s.inode with ishlock := false } }.wakeWaiting flags else s
  s.setFile f { s.file f with fshlock := false }

def unlockExclusive (s : System P F) (f : F) (flags : Bool) : System P F :=
  let c := s.inode.iExlockc - 1
  let s := { s with inode := { s.inode with iExlockc := c } }
  let s := if c = 0 then
      { s with inode := { s.inode with iexlock := false, ilwait := false } }.wakeWaiting flags
    else s
  s.setFile f { s.file f with fexlock := false }

def inoUnlock (s : System P F) (f : F) (fshlock fexlock : Bool) : System P F :=
  let sh := fshlock && (s.file f).fshlock
  let ex := fexlock && (s.file f).fexlock
  let flags := s.inode.ilwait
  let s := if sh then s.unlockShared f flags else s
  if ex then s.unlockExclusive f flags else s

def block (s : System P F) (p : P) (f : F) (cmd : How) : System P F :=
  if cmd.lockNb then s.goto p .outside
  else { s with inode := { s.inode with ilwait := true } }.goto p (.asleep f cmd)

def grantExclusive (s : System P F) (f : F) : System P F :=
  { s with inode := { s.inode with iExlockc := s.inode.iExlockc + 1, iexlock := true } }.setFile f
    { s.file f with fexlock := true }

def grantShared (s : System P F) (f : F) : System P F :=
  { s with inode := { s.inode with iShlockc := s.inode.iShlockc + 1, ishlock := true } }.setFile f
    { s.file f with fshlock := true }

/-- `ino_lock`, from the label `again` to the next jump to it, `tsleep` or return. -/
def inoLockPass (s : System P F) (p : P) (f : F) (cmd : How) : System P F :=
  if s.inode.iexlock then
    if (s.file f).fexlock then s.inoUnlock f false true
    else s.block p f cmd
  else if cmd.lockEx && s.inode.ishlock then
    if (s.file f).fshlock then s.inoUnlock f true false
    else s.block p f cmd
  else
    let s := s.goto p .outside
    if cmd.lockEx then s.grantExclusive f
    else if cmd.lockSh && !(s.file f).fshlock then s.grantShared f
    else s

def flock (s : System P F) (p : P) (f : F) (how : How) : System P F :=
  if how.lockUn then s.inoUnlock f true true
  else if !how.lockSh && !how.lockEx then s
  else
    let how := if how.lockEx then { how with lockSh := false } else how
    if (s.file f).fexlock && how.lockEx then s
    else if (s.file f).fshlock && how.lockSh then s
    else s.goto p (.again f how)

def setCount (s : System P F) (f : F) (n : ℕ) : System P F := s.setFile f { s.file f with fCount := n }

def closef (s : System P F) (f : F) : System P F :=
  if (s.file f).fCount > 1 then s.setCount f ((s.file f).fCount - 1)
  else
    let s := if (s.file f).fshlock || (s.file f).fexlock then s.inoUnlock f true true else s
    s.setCount f 0

def setHolds (s : System P F) (p : P) (f : F) (n : ℕ) : System P F :=
  { s with holds := update s.holds p (update (s.holds p) f n) }

end System

inductive Event (P F : Type)
  | open (p : P) (f : F)
  | dup (p : P) (f : F)
  | fork (p q : P)
  | close (p : P) (f : F)
  | flock (p : P) (f : F) (how : How)
  /-- A process goes on at `again`. -/
  | pass (p : P)
  /-- `tsleep` returns 0, after a wakeup or because a signal came and went. -/
  | resume (p : P)
  /-- `tsleep` returns an error. -/
  | interrupt (p : P)

def Asleep (s : System P F) (p : P) : Prop := ∃ f cmd, s.place p = .asleep f cmd

/-- The steps of the processes. A new file structure, of count 0, is taken by an open; the
descriptors of a process are copied by a fork. -/
def Step (s : System P F) : Event P F → System P F → Prop
  | .open p f, s' => s.place p = .outside ∧ (s.file f).fCount = 0 ∧
      s' = (s.setFile f ⟨1, false, false⟩).setHolds p f (s.holds p f + 1)
  | .dup p f, s' => s.place p = .outside ∧ 0 < s.holds p f ∧
      s' = (s.setCount f ((s.file f).fCount + 1)).setHolds p f (s.holds p f + 1)
  | .fork p q, s' => s.place p = .outside ∧ s.place q = .outside ∧ (∀ f, s.holds q f = 0) ∧
      s' = { s with
        file := fun f => { s.file f with fCount := (s.file f).fCount + s.holds p f }
        holds := update s.holds q (s.holds p) }
  | .close p f, s' => s.place p = .outside ∧ 0 < s.holds p f ∧
      s' = (s.closef f).setHolds p f (s.holds p f - 1)
  | .flock p f how, s' => s.place p = .outside ∧ 0 < s.holds p f ∧ s' = s.flock p f how
  | .pass p, s' => ∃ f cmd, s.place p = .again f cmd ∧ s' = s.inoLockPass p f cmd
  | .resume p, s' => ∃ f cmd, (s.place p = .asleep f cmd ∨ s.place p = .woken f cmd) ∧
      s' = s.goto p (.again f cmd)
  | .interrupt p, s' => (∃ f cmd, s.place p = .asleep f cmd ∨ s.place p = .woken f cmd) ∧
      s' = s.goto p .outside

end Model

end RetroBSD.Flock
