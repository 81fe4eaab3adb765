import RetroBSD.RegularFiles

/-!
# Pipes

`readp` and `writep` of `sys/kernel/sys_pipe.c`, with the rounds of `rwip` they lead
to. A process can lose the processor where it waits for the inode, sleeps for data or
room, or waits for a block: the points. Other processes of the pipe run in between, and so
do other files on the volume and the buffer cache, which may take the buffer of a block
without a delayed write and read the block again later. What the device holds for such a
block is left open. Runs in which a limit or the volume is exhausted are left out.
-/

namespace RetroBSD.Pipe

open LittleEndian ByteCopy Ufs

def eintr : ℕ := 4

def epipe : ℕ := 32

def ewouldblock : ℕ := 35

def iread : ℕ := 0o400

def iwrite : ℕ := 0o200

def notIread : ℕ := 0o177377

def notIwrite : ℕ := 0o177577

structure WriteCall where
  mem : Memory
  uio : Uio
  /-- The bytes that no call of `rwip` has been made for. -/
  c : ℕ
  /-- The number of the call and all its bytes, for the record. -/
  number : ℕ
  data : List UInt8

inductive Point
  | done (error : ℕ)
  /-- Waits for the inode in `readp`. -/
  | readp (mem : Memory) (uio : Uio)
  /-- Sleeps on `ip+4`. -/
  | readWait (mem : Memory) (uio : Uio)
  /-- Before a round of `rwip`; the buffers of the call are at the addresses `as`. -/
  | readRound (mem : Memory) (uio : Uio) (as : List ℕ)
  /-- Waits for the block `bn`, to read `n` bytes of it. -/
  | readBuf (mem : Memory) (uio : Uio) (as : List ℕ) (bn : ℤ) (n : ℕ)
  /-- Waits for the inode in `writep`. -/
  | writep (w : WriteCall)
  /-- Waits for the inode after having slept. -/
  | writeAgain (w : WriteCall)
  /-- Sleeps on `ip+2`. -/
  | writeWait (w : WriteCall)
  | writeRound (w : WriteCall)
  | writeBuf (w : WriteCall) (bn : ℤ) (n : ℕ)

namespace Point

def wakeReader : Point → Point
  | readWait mem uio => readp mem uio
  | x => x

def wakeWriter : Point → Point
  | writeWait w => writeAgain w
  | x => x

end Point

/-- The record of the writes: the bytes of every call, the bytes that each call of `rwip` has
accepted with the number of the write it was made for, and the numbers of the calls that are
completed. -/
structure Log where
  writes : List (List UInt8)
  accepted : List (ℕ × List UInt8)
  written : List ℕ

namespace Log

def call (l : Log) (data : List UInt8) : Log := { l with writes := l.writes ++ [data] }

def begin (l : Log) (n : ℕ) : Log := { l with accepted := l.accepted ++ [(n, [])] }

def accept (l : Log) (data : List UInt8) : Log :=
  { l with accepted := l.accepted.modifyLast fun e => (e.1, e.2 ++ data) }

def finish (l : Log) (n : ℕ) : Log := { l with written := l.written ++ [n] }

end Log

structure State (P : Type) where
  st : Filsys
  ip : Inode
  /-- The flag `ILOCKED`. -/
  ilocked : Bool
  iCount : ℕ
  /-- `f_offset` of the read end. -/
  fOffset : ℕ
  /-- `FNONBLOCK` of the read and of the write end. -/
  rnonblock : Bool
  wnonblock : Bool
  /-- The blocks whose buffer has lost `B_DELWRI`. -/
  cleared : ℕ → Bool
  point : P → Point
  log : Log
  /-- The bytes that completed reads have left in the buffers of their callers. -/
  returned : List UInt8

namespace State

variable {P : Type} [DecidableEq P]

def goto (s : State P) (p : P) (x : Point) : State P :=
  { s with point := Function.update s.point p x }

def iunlock (s : State P) : State P := { s with ilocked := false }

def setMode (s : State P) (mode : ℕ) : State P := { s with ip := s.ip.setMode mode }

def wakeReaders (s : State P) : State P := { s with point := fun p => (s.point p).wakeReader }

def wakeWriters (s : State P) : State P := { s with point := fun p => (s.point p).wakeWriter }

/-- The end of `readp` after `rwip`. What was read is found in the memory of the caller, at as
many of its addresses as `uio_resid` says. -/
def readEnd (s : State P) (p : P) (mem : Memory) (uio : Uio) (as : List ℕ) : State P :=
  let got := (as.take (as.length - uio.uioResid)).map mem
  let s := { s with fOffset := uio.uioOffset, returned := s.returned ++ got }
  let s :=
    if s.fOffset = s.ip.iSize then
      let s := { s with fOffset := 0, ip := s.ip.setSize 0 }
      if s.ip.iMode &&& iwrite ≠ 0 then (s.setMode (s.ip.iMode &&& notIwrite)).wakeWriters else s
    else s
  s.iunlock.goto p (.done 0)

/-- `readp` from `loop` on, when the inode is not locked. -/
def readp (s : State P) (p : P) (mem : Memory) (uio : Uio) : State P :=
  if s.ip.iSize = 0 then
    if s.iCount ≠ 2 then s.goto p (.done 0)
    else if s.rnonblock then s.goto p (.done ewouldblock)
    else (s.setMode (s.ip.iMode ||| iread)).goto p (.readWait mem uio)
  else
    let s := { s with ilocked := true }
    let uio := { uio with uioOffset := s.fOffset }
    let as := addresses uio.uioIov
    if uio.uioResid = 0 then s.readEnd p mem uio as else s.goto p (.readRound mem uio as)

def readRound (s : State P) (p : P) (mem : Memory) (uio : Uio) (as : List ℕ) : Option (State P) :=
  let on := uio.uioOffset % devBsize
  if s.ip.iSize ≤ uio.uioOffset then some (s.readEnd p mem uio as)
  else
    let n := min (min (devBsize - on) uio.uioResid) (s.ip.iSize - uio.uioOffset)
    let r := bmap s.st s.ip (uio.uioOffset / devBsize : ℕ) .read false zeroBlock
    if r.2.2.uError ≠ 0 then none
    else some ({ s with st := r.2.2, ip := r.2.1 }.goto p (.readBuf mem uio as r.1 n))

/-- The rest of the round: the bytes are copied, and a block that has been read to its end
or to the end of the pipe need not be written any more. -/
def readBuf (s : State P) (p : P) (mem : Memory) (uio : Uio) (as : List ℕ) (bn : ℤ) (n : ℕ) :
    State P :=
  let on := uio.uioOffset % devBsize
  let buf := if bn < 0 then zeroBlock else s.st.disk bn.toNat
  let m := uiomove .read buf on n mem uio
  let s :=
    if 0 ≤ bn ∧ (n + on = devBsize ∨ m.2.2.uioOffset = s.ip.iSize) then
      { s with cleared := Function.update s.cleared bn.toNat true }
    else s
  if m.2.2.uioResid ≠ 0 ∧ n ≠ 0 then s.goto p (.readRound m.2.1 m.2.2 as)
  else s.readEnd p m.2.1 m.2.2 as

/-- `writep` from `loop` on, with the inode locked, up to the first round of `rwip`. -/
def writeLoop (s : State P) (u : User) (p : P) (w : WriteCall) : Option (State P) :=
  if w.c = 0 then some ({ s with log := s.log.finish w.number }.iunlock.goto p (.done 0))
  else if s.iCount ≠ 2 then some (s.iunlock.goto p (.done epipe))
  else if maxpipsiz ≤ s.ip.iSize then
    some ((s.setMode (s.ip.iMode ||| iwrite)).iunlock.goto p (.writeWait w))
  else
    let resid := min w.c maxpipsiz
    let w := { w with uio := ⟨w.uio.uioIov, s.ip.iSize, resid⟩, c := w.c - resid }
    if u.fsizeCur < s.ip.iSize + resid then none
    else some ({ s with log := s.log.begin w.number }.goto p (.writeRound w))

/-- `writep`, when the inode is not locked. -/
def writep (s : State P) (u : User) (p : P) (w : WriteCall) : Option (State P) :=
  if s.wnonblock ∧ maxpipsiz ≤ s.ip.iSize + w.c then some (s.goto p (.done ewouldblock))
  else writeLoop { s with ilocked := true } u p w

def writeRound (s : State P) (stale : Block) (p : P) (w : WriteCall) : Option (State P) :=
  let on := w.uio.uioOffset % devBsize
  let n := min (devBsize - on) w.uio.uioResid
  let r := bmap s.st s.ip (w.uio.uioOffset / devBsize : ℕ) .write (n ≠ devBsize) stale
  if r.2.2.uError ≠ 0 ∨ r.1 < 0 then none
  else
    let ip := if r.2.1.iSize < w.uio.uioOffset + n then r.2.1.setSize (w.uio.uioOffset + n)
      else r.2.1
    some ({ s with st := r.2.2, ip := ip }.goto p (.writeBuf w r.1 n))

/-- The rest of the round, and of the loop in `writep` after the last one. The bytes accepted are
those of the caller that `uiomove` has gone over. -/
def writeBuf (s : State P) (u : User) (stale : Block) (p : P) (w : WriteCall) (bn : ℤ) (n : ℕ) :
    Option (State P) :=
  let on := w.uio.uioOffset % devBsize
  let buf := if n = devBsize then stale else s.st.disk bn.toNat
  let m := uiomove .write buf on n w.mem w.uio
  let taken := (addresses w.uio.uioIov).take (w.uio.uioResid - m.2.2.uioResid)
  let s := { s with
    st := s.st.write bn.toNat m.1
    cleared := Function.update s.cleared bn.toNat false
    log := s.log.accept (taken.map w.mem)
    ip := if u.uRuid ≠ 0 then s.ip.setMode (s.ip.iMode &&& notSetid) else s.ip }
  let w := { w with uio := m.2.2 }
  if m.2.2.uioResid ≠ 0 ∧ n ≠ 0 then some (s.goto p (.writeRound w))
  else
    let s := if s.ip.iMode &&& iread ≠ 0 then (s.setMode (s.ip.iMode &&& notIread)).wakeReaders
      else s
    s.writeLoop u p w

def run (s : State P) (u : User) (stale : Block) (p : P) : Option (State P) :=
  match s.point p with
  | .readp mem uio => if s.ilocked then none else some (s.readp p mem uio)
  | .readRound mem uio as => s.readRound p mem uio as
  | .readBuf mem uio as bn n => some (s.readBuf p mem uio as bn n)
  | .writep w => if s.ilocked then none else s.writep u p w
  | .writeAgain w => if s.ilocked then none else writeLoop { s with ilocked := true } u p w
  | .writeRound w => s.writeRound stale p w
  | .writeBuf w bn n => s.writeBuf u stale p w bn n
  | .done _ | .readWait .. | .writeWait _ => none

def interrupt (s : State P) (p : P) : Option (State P) :=
  match s.point p with
  | .readWait .. => some (s.goto p (.done eintr))
  | .writeWait w => some (s.goto p (.done (if w.uio.uioResid = w.data.length then eintr else 0)))
  | _ => none

def close (s : State P) : State P :=
  ({ s with iCount := s.iCount - 1 }.setMode
    (s.ip.iMode &&& notIread &&& notIwrite)).wakeWriters.wakeReaders

/-- The volume after an operation on another file. -/
def Elsewhere (s : State P) (st : Filsys) : Prop :=
  st.uError = s.st.uError ∧
    ∀ l, s.st.Consistent l → TreeOk s.st.fs l (fileNodes s.st.disk s.ip.iAddr) →
      ∃ l' T T', Touches s.st st l l' T T' ∧
        ∀ n ∈ T, ∀ m ∈ fileNodes s.st.disk s.ip.iAddr, n.block ≠ m.block

end State

inductive Event (P : Type)
  | read (p : P) (mem : Memory) (uio : Uio)
  | write (p : P) (mem : Memory) (uio : Uio)
  | run (p : P) (stale : Block)
  | interrupt (p : P)
  | close
  | setNonblock (rw : Rw) (on : Bool)
  /-- A buffer without a delayed write is used for another block; later the block is
  read again from the device, which holds `data`. -/
  | recycle (b : ℕ) (data : Block)
  | other (st : Filsys)

/-- The buffers of a read do not overlap. -/
def Step {P : Type} [DecidableEq P] (u : P → User) (s : State P) (ev : Event P) (s' : State P) :
    Prop :=
  match ev with
  | .read p mem uio => (∃ e, s.point p = .done e) ∧ uio.Valid ∧ (addresses uio.uioIov).Nodup ∧
      s' = s.goto p (.readp mem uio)
  | .write p mem uio => (∃ e, s.point p = .done e) ∧ uio.Valid ∧
      ∃ data, data = (addresses uio.uioIov).map mem ∧
        s' = { s with log := s.log.call data }.goto p
          (.writep ⟨mem, uio, uio.uioResid, s.log.writes.length, data⟩)
  | .run p stale => s.run (u p) stale p = some s'
  | .interrupt p => s.interrupt p = some s'
  | .close => s.ilocked = false ∧ 2 ≤ s.iCount ∧ s' = s.close
  | .setNonblock .read on => s' = { s with rnonblock := on }
  | .setNonblock .write on => s' = { s with wnonblock := on }
  | .recycle b data => s.cleared b = true ∧ s' = { s with st := s.st.write b data }
  | .other st => s.Elsewhere st ∧ s' = { s with st := st }

end RetroBSD.Pipe
