import RetroBSD.RingLists
import RetroBSD.TailQueue
import RetroBSD.Runs

/-!
# The table of in-core inodes

`ihinit`, `iget`, `igrab`, `iput`, `irele` and `iflush` of `sys/kernel/ufs_inode.c`, with
`insque` and `remque` of `sys/pic32/machdep.c`. A process runs from one place where it
can sleep to the next: at a locked inode, in the `bread` of `iget` and in the `itrunc`,
`ifree` and `iupdat` of `irele`. `iget` also stops when it crosses a mount point, which
the code does not. What the rest of the kernel does with inodes it has references to is
`iunlock`, `ilock`, a further reference, and `Elsewhere`.
-/

namespace RetroBSD.InodeTable

open LinkedList Function

def ninode : ℕ := 24
def inohsz : ℕ := 16
def rootino : ℕ := 2
def ifmt : ℕ := 0o170000
def ifblk : ℕ := 0o060000

abbrev Slot := Fin ninode

instance : NeZero ninode := ⟨by decide⟩

def inohash (dev : ℤ) (ino : ℕ) : Fin inohsz :=
  ⟨((dev + ino) % inohsz).toNat, by
    have h₀ := Int.emod_nonneg (dev + ino) (show (inohsz : ℤ) ≠ 0 by decide)
    have h₁ := Int.emod_lt_of_pos (dev + ino) (show (0 : ℤ) < inohsz by decide)
    omega⟩

/-- A slot of the table without its links. `iFs` tells the super blocks apart. -/
structure Inode where
  iNumber : ℕ
  iDev : ℤ
  iFs : ℕ
  iCount : ℕ
  ilocked : Bool
  iwant : Bool
  imount : Bool
  iMode : ℕ
  iNlink : ℕ
  iRdev : ℤ
  deriving DecidableEq

structure Dinode where
  diMode : ℕ
  diNlink : ℕ
  diRdev : ℤ

structure Mount where
  mDev : ℤ
  mFilsys : ℕ
  mInodp : Option Slot

inductive Call
  | iget (dev : ℤ) (fs ino : ℕ)
  | igrab (ip : Slot)
  | ilock (ip : Slot)
  deriving DecidableEq

inductive Point
  /-- In none of the calls; what the last `iget` has returned. -/
  | ret (r : Option Slot)
  | call (c : Call)
  /-- Asleep in a call, until the inode is unlocked. -/
  | sleep (ip : Slot) (c : Call)
  /-- In the `bread` of `iget`. -/
  | igetRead (ip : Slot)
  /-- In the calls that `irele` makes on the last reference. -/
  | itrunc (ip : Slot)
  | ifree (ip : Slot)
  | iupdat (ip : Slot)
  deriving DecidableEq

/-- The two panics, a store through a null pointer and a loop that does not end. -/
inductive Fault
  | noImt
  | freeInodeIsnt
  | badLink
  | endless
  deriving DecidableEq

structure Kernel (P : Type) where
  inode : Slot → Inode
  /-- `ihead`, `i_forw` and `i_back`. -/
  hash : Ring (Fin inohsz) Slot
  /-- `ifreeh`, `ifreet`, `i_freef` and `i_freeb`. -/
  free : TailQueue Slot
  mount : List Mount
  fsRonly : ℕ → Bool
  /-- References that calls have returned and that are not given up yet. -/
  held : Slot → ℕ
  point : P → Point

namespace Kernel

variable {P : Type} [DecidableEq P]

def modify (s : Kernel P) (ip : Slot) (f : Inode → Inode) : Kernel P :=
  { s with inode := update s.inode ip (f (s.inode ip)) }

def goto (s : Kernel P) (p : P) (x : Point) : Kernel P :=
  { s with point := update s.point p x }

def hold (s : Kernel P) (ip : Slot) : Kernel P :=
  { s with held := update s.held ip (s.held ip + 1) }

def drop (s : Kernel P) (ip : Slot) : Kernel P :=
  { s with held := update s.held ip (s.held ip - 1) }

def wakeup (s : Kernel P) (ip : Slot) : Kernel P :=
  { s with point := fun p =>
      match s.point p with
      | .sleep i c => if i = ip then .call c else .sleep i c
      | x => x }

def iunlock (s : Kernel P) (ip : Slot) : Kernel P :=
  let s := s.modify ip fun x => { x with ilocked := false }
  if (s.inode ip).iwant then (s.modify ip fun x => { x with iwant := false }).wakeup ip else s

def await (s : Kernel P) (p : P) (ip : Slot) (c : Call) : Kernel P :=
  (s.modify ip fun x => { x with iwant := true }).goto p (.sleep ip c)

/-- The end of `igrab`, which `iget` repeats: the slot leaves the free list. -/
def grab (s : Kernel P) (ip : Slot) : Except Fault (Kernel P) :=
  let lock (s : Kernel P) := s.modify ip fun x => { x with iCount := x.iCount + 1, ilocked := true }
  if (s.inode ip).iCount = 0 then
    match s.free.remove ip with
    | none => .error .badLink
    | some free => .ok (lock { s with free := free })
  else .ok (lock s)

def igrab (s : Kernel P) (p : P) (ip : Slot) : Except Fault (Kernel P) :=
  if (s.inode ip).ilocked then .ok (s.await p ip (.igrab ip))
  else (s.grab ip).map fun s => (s.hold ip).goto p (.ret none)

def ilock (s : Kernel P) (p : P) (ip : Slot) : Kernel P :=
  if (s.inode ip).ilocked then s.await p ip (.ilock ip)
  else (s.modify ip fun x => { x with ilocked := true }).goto p (.ret none)

def igetFound (s : Kernel P) (p : P) (ip : Slot) (c : Call) : Except Fault (Kernel P) :=
  if (s.inode ip).ilocked then .ok (s.await p ip c)
  else if (s.inode ip).imount then
    match s.mount.find? (fun mp => mp.mInodp = some ip) with
    | some mp => .ok (s.goto p (.call (.iget mp.mDev mp.mFilsys rootino)))
    | none => .error .noImt
  else (s.grab ip).map fun s => (s.hold ip).goto p (.ret (some ip))

/-- `iget` of an inode that is on no hash chain, up to the `bread`. -/
def igetNew (s : Kernel P) (p : P) (dev : ℤ) (fs ino : ℕ) : Except Fault (Kernel P) :=
  match s.free.cells.head () with
  | none => .ok (s.goto p (.ret none))
  | some ip =>
    if (s.inode ip).iCount ≠ 0 then .error .freeInodeIsnt
    else
      let s := { s with
        free := s.free.takeHead ip
        hash := (s.hash.remque (.cell ip)).insque (.cell ip) (.head (inohash dev ino)) }
      .ok ((s.modify ip fun x => { x with
        iDev := dev, iFs := fs, iNumber := ino
        ilocked := true, iwant := false, imount := false
        iCount := x.iCount + 1 }).goto p (.igetRead ip))

def iget (s : Kernel P) (p : P) (dev : ℤ) (fs ino : ℕ) : Except Fault (Kernel P) :=
  let h := inohash dev ino
  let test (ip : Slot) : Bool := ino = (s.inode ip).iNumber ∧ dev = (s.inode ip).iDev
  match s.hash.find h test (Fintype.card Slot) (s.hash.forw (.head h)) with
  | none => .error .endless
  | some (some ip) => s.igetFound p ip (.iget dev fs ino)
  | some none => s.igetNew p dev fs ino

/-- `irele`, up to the first call it makes on the last reference. -/
def irele (s : Kernel P) (p : P) (ip : Slot) : Kernel P :=
  if (s.inode ip).iCount = 1 then
    let s := s.modify ip fun x => { x with ilocked := true }
    if (s.inode ip).iNlink ≤ 0 ∧ s.fsRonly (s.inode ip).iFs = false then s.goto p (.itrunc ip)
    else s.goto p (.iupdat ip)
  else (s.modify ip fun x => { x with iCount := x.iCount - 1 }).goto p (.ret none)

def iput (s : Kernel P) (p : P) (ip : Slot) : Kernel P := (s.iunlock ip).irele p ip

/-- `irele` on the last reference, from the return of `iupdat` on. -/
def ireleEnd (s : Kernel P) (p : P) (ip : Slot) : Except Fault (Kernel P) :=
  let s := (s.iunlock ip).modify ip fun x => { x with ilocked := false, iwant := false, imount := false }
  match s.free.pushBack ip with
  | none => .error .badLink
  | some free =>
    .ok (({ s with free := free }.modify ip fun x => { x with iCount := x.iCount - 1 }).goto p (.ret none))

/-- `iget` from the return of `bread` on, which has read an inode or failed. -/
def igetRead (s : Kernel P) (p : P) (ip : Slot) : Option Dinode → Kernel P
  | none =>
    let s := { s with hash := (s.hash.remque (.cell ip)).selfLink (.cell ip) }
    (s.modify ip fun x => { x with iNumber := 0 }).iput p ip
  | some dp =>
    ((s.modify ip fun x => { x with iMode := dp.diMode, iNlink := dp.diNlink, iRdev := dp.diRdev }).hold ip).goto p
      (.ret (some ip))

def iflushLoop (dev : ℤ) : List Slot → Kernel P → ℤ → Kernel P × ℤ
  | [], s, opens => (s, opens)
  | ip :: l, s, opens =>
    if (s.inode ip).iDev = dev then
      if (s.inode ip).iCount ≠ 0 then (s, -1)
      else iflushLoop dev l { s with hash := (s.hash.remque (.cell ip)).selfLink (.cell ip) } opens
    else if (s.inode ip).iCount ≠ 0 ∧ (s.inode ip).iMode &&& ifmt = ifblk ∧ (s.inode ip).iRdev = dev then
      iflushLoop dev l s (opens + 1)
    else iflushLoop dev l s opens

def iflush (s : Kernel P) (dev : ℤ) : Kernel P × ℤ := iflushLoop dev (List.finRange ninode) s 0

/-- What the rest of the kernel changes: modes, links, mount points and, where the
reference count is not 0, `i_lastr`, which lies over `i_freef`. -/
structure Elsewhere (s s' : Kernel P) : Prop where
  number : ∀ ip, (s'.inode ip).iNumber = (s.inode ip).iNumber
  dev : ∀ ip, (s'.inode ip).iDev = (s.inode ip).iDev
  count : ∀ ip, (s'.inode ip).iCount = (s.inode ip).iCount
  locked : ∀ ip, (s'.inode ip).ilocked = (s.inode ip).ilocked
  want : ∀ ip, (s'.inode ip).iwant = (s.inode ip).iwant
  hash : s'.hash = s.hash
  head : s'.free.cells.head = s.free.cells.head
  next : ∀ ip, (s.inode ip).iCount = 0 → s'.free.cells.next ip = s.free.cells.next ip
  prev : s'.free.prev = s.free.prev
  tail : s'.free.tail = s.free.tail
  held : s'.held = s.held
  point : s'.point = s.point

end Kernel

variable {P : Type} [DecidableEq P]

def ihinitLoop : List Slot → TailQueue Slot → TailQueue Slot
  | [], t => t
  | ip :: l, t =>
    match t.tail with
    | none => t
    | some ifreet =>
      ihinitLoop l
        { cells := t.cells.set ifreet (some ip), prev := update t.prev ip (some ifreet), tail := some (.cell ip) }

/-- The table after `ihinit`, no process being in a call. The memory is zero before. -/
def ihinit (mount : List Mount) (fsRonly : ℕ → Bool) : Kernel P where
  inode _ := ⟨0, 0, 0, 0, false, false, false, 0, 0, 0⟩
  hash := ⟨id, id⟩
  free := ihinitLoop (List.finRange ninode).tail
    { cells := ⟨fun _ => some 0, fun _ => none⟩
      prev := fun ip => if ip = 0 then some (.head ()) else none
      tail := some (.cell 0) }
  mount := mount
  fsRonly := fsRonly
  held _ := 0
  point _ := .ret none

end RetroBSD.InodeTable
