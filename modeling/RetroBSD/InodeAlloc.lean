import RetroBSD.FreeBlocks

/-!
# Allocation of inodes

`ialloc` and `ifree` of `sys/kernel/ufs_alloc.c` with `iget` and `iput`. The superblock keeps
up to `nicinod` numbers of inodes that were free when they were noted; `ialloc` takes them
from the end and looks at each of them, and when there are none left it goes through the
table of inodes on the device for more. An inode is known in core by its device and its
number; `idle` is the list of slots without references, each with the inode it still
holds. The blocks of an inode and its times are left out, and there are no I/O errors.
-/

namespace RetroBSD.Ialloc

open Ufs Function

def nicinod : ℕ := 32

def inopb : ℕ := 16

def rootino : ℕ := 2

def superb : ℕ := 0

def nmount : ℕ := 2

def enfile : ℕ := 23

def itoo (ino : ℕ) : ℕ := (ino + inopb - 1) % inopb

def itod (ino : ℕ) : ℕ := (ino + inopb - 1) / inopb

structure Dinode where
  diMode : ℕ
  diNlink : ℕ

/-- `struct fs`; the last of `fs_inode[0 .. fs_ninode)` comes first. -/
structure Superblock where
  fsIsize : ℕ
  fsInode : List ℕ
  fsLasti : ℕ
  fsNbehind : ℕ
  fsTinode : ℕ
  fsRonly : Bool
  fsFmod : Bool

/-- `struct inode`. `mounted` is the device mounted here when `IMOUNT` is set, and `dirty`
stands for the flags that make `IUPDAT` write. -/
structure Inode where
  iMode : ℕ
  iNlink : ℕ
  iCount : ℕ
  locked : Bool
  mounted : Option ℕ
  dirty : Bool

structure Kernel where
  fs : ℕ → Superblock
  itable : ℕ → ℕ → ℕ → Dinode
  incore : ℕ → ℕ → Option Inode
  idle : List (Option (ℕ × ℕ))
  uError : ℕ

namespace Kernel

def setFs (k : Kernel) (dev : ℕ) (fs : Superblock) : Kernel :=
  ⟨update k.fs dev fs, k.itable, k.incore, k.idle, k.uError⟩

def setList (k : Kernel) (dev : ℕ) (l : List ℕ) : Kernel :=
  let fs := k.fs dev
  k.setFs dev ⟨fs.fsIsize, l, fs.fsLasti, fs.fsNbehind, fs.fsTinode, fs.fsRonly, fs.fsFmod⟩

def setError (k : Kernel) (e : ℕ) : Kernel := ⟨k.fs, k.itable, k.incore, k.idle, e⟩

def setInode (k : Kernel) (dev ino : ℕ) (ip : Option Inode) : Kernel :=
  ⟨k.fs, k.itable, update k.incore dev (update (k.incore dev) ino ip), k.idle, k.uError⟩

def setIdle (k : Kernel) (idle : List (Option (ℕ × ℕ))) : Kernel :=
  ⟨k.fs, k.itable, k.incore, idle, k.uError⟩

def setDisk (k : Kernel) (dev ino : ℕ) (dp : Dinode) : Kernel :=
  ⟨k.fs, update k.itable dev (update (k.itable dev) (itod ino)
    (update (k.itable dev (itod ino)) (itoo ino) dp)), k.incore, k.idle, k.uError⟩

def dinode (k : Kernel) (dev ino : ℕ) : Dinode := k.itable dev (itod ino) (itoo ino)

end Kernel

/-! ## References -/

/-- What `iget` ends with: an inode, `ENFILE`, or a wait for a lock. -/
inductive Iget
  | inode (dev ino : ℕ) (k : Kernel)
  | full (k : Kernel)
  | waits

/-- A reference to an inode in core; one without references is taken from the list. -/
def grab (k : Kernel) (dev ino : ℕ) (ip : Inode) : Kernel :=
  let k := if ip.iCount = 0 then k.setIdle (k.idle.erase (some (dev, ino))) else k
  k.setInode dev ino (some ⟨ip.iMode, ip.iNlink, ip.iCount + 1, true, ip.mounted, ip.dirty⟩)

/-- Reads an inode into the first idle slot, which loses the inode it held. -/
def load (k : Kernel) (dev ino : ℕ) (held : Option (ℕ × ℕ)) (idle : List (Option (ℕ × ℕ))) : Kernel :=
  let k := match held with
    | some (d, n) => k.setInode d n none
    | none => k
  let dp := k.dinode dev ino
  (k.setIdle idle).setInode dev ino (some ⟨dp.diMode, dp.diNlink, 1, true, none, false⟩)

/-- `iget`, through at most `hops` mount points. -/
def iget : ℕ → Kernel → ℕ → ℕ → Iget
  | 0, _, _, _ => .waits
  | hops + 1, k, dev, ino =>
    match k.incore dev ino with
    | some ip =>
      if ip.locked then .waits
      else
        match ip.mounted with
        | some d => iget hops k d rootino
        | none => .inode dev ino (grab k dev ino ip)
    | none =>
      match k.idle with
      | [] => .full (k.setError enfile)
      | held :: idle => .inode dev ino (load k dev ino held idle)

def ifree (k : Kernel) (dev ino : ℕ) : Kernel :=
  let fs := k.fs dev
  if nicinod ≤ fs.fsInode.length then
    k.setFs dev ⟨fs.fsIsize, fs.fsInode, fs.fsLasti, if ino < fs.fsLasti then fs.fsNbehind + 1 else fs.fsNbehind,
      uincr fs.fsTinode, fs.fsRonly, fs.fsFmod⟩
  else
    k.setFs dev ⟨fs.fsIsize, ino :: fs.fsInode, fs.fsLasti, fs.fsNbehind, uincr fs.fsTinode, fs.fsRonly, true⟩

/-- The last reference of `irele`: an inode without links is freed, and what was changed is
written. -/
def irele (k : Kernel) (dev ino : ℕ) (ip : Inode) : Kernel :=
  let ronly := (k.fs dev).fsRonly
  let freed := decide (ip.iNlink = 0) && !ronly
  let k := if freed then ifree k dev ino else k
  let mode := if freed then 0 else ip.iMode
  let k := if (ip.dirty || freed) && !ronly then k.setDisk dev ino ⟨mode, ip.iNlink⟩ else k
  (k.setIdle (k.idle ++ [some (dev, ino)])).setInode dev ino (some ⟨mode, ip.iNlink, 0, false, none, false⟩)

def iput (k : Kernel) (dev ino : ℕ) : Kernel :=
  match k.incore dev ino with
  | none => k
  | some ip =>
    if ip.iCount = 1 then irele k dev ino ip
    else k.setInode dev ino (some ⟨ip.iMode, ip.iNlink, ip.iCount - 1, false, ip.mounted, ip.dirty⟩)

/-! ## The search -/

/-- The inodes of one block from offset `i` on, `left` of them. Returns the next number and
the list. -/
def scanBlock (found : ℕ → Bool) (dp : ℕ → Dinode) : ℕ → ℕ → ℕ → List ℕ → ℕ × List ℕ
  | 0, _, ino, l => (ino, l)
  | left + 1, i, ino, l =>
    if (dp i).diMode ≠ 0 ∨ found ino = true then scanBlock found dp left (i + 1) (ino + 1) l
    else if nicinod ≤ (ino :: l).length then (ino, ino :: l)
    else scanBlock found dp left (i + 1) (ino + 1) (ino :: l)

/-- The blocks from `adr` on, `left` of them. Returns `inobas` and the list. -/
def scan (found : ℕ → Bool) (itable : ℕ → ℕ → Dinode) : ℕ → ℕ → ℕ → ℕ → List ℕ → ℕ × List ℕ
  | 0, _, _, inobas, l => (inobas, l)
  | left + 1, adr, ino, _, l =>
    let r := scanBlock found (itable adr) inopb 0 ino l
    if nicinod ≤ r.2.length then (ino, r.2)
    else scan found itable left (adr + 1) r.1 ino r.2

/-- The search for more inodes, from `fs_lasti` and then from the top. -/
def refill (k : Kernel) (dev : ℕ) : Kernel :=
  let fs := k.fs dev
  let found := fun ino => (k.incore dev ino).isSome
  let fromtop := fun l => scan found (k.itable dev) (fs.fsIsize - (superb + 1)) (superb + 1) 1 0 l
  let finish := fun nbehind (r : ℕ × List ℕ) =>
    k.setFs dev ⟨fs.fsIsize, r.2, r.1, nbehind, fs.fsTinode, fs.fsRonly, fs.fsFmod⟩
  if fs.fsNbehind < 4 * nicinod then
    let r := scan found (k.itable dev) (fs.fsIsize - itod fs.fsLasti) (itod fs.fsLasti) fs.fsLasti 0 fs.fsInode
    if r.2.length < nicinod then finish 0 (fromtop r.2) else finish fs.fsNbehind r
  else finish 0 (fromtop fs.fsInode)

/-- `ialloc`, for at most `fuel` turns of its loop: the inode, or nothing and an error. -/
def ialloc (dev : ℕ) : ℕ → Kernel → Option (Option (ℕ × ℕ) × Kernel)
  | 0, _ => none
  | fuel + 1, k =>
    match (k.fs dev).fsInode with
    | ino :: l =>
      let k := k.setList dev l
      if ino ≤ rootino then ialloc dev fuel k
      else
        match iget (nmount + 1) k dev ino with
        | .waits => none
        | .full k => some (none, k)
        | .inode d n k =>
          match k.incore d n with
          | none => none
          | some ip =>
            if ip.iMode = 0 then
              let fs := k.fs dev
              some (some (d, n), k.setFs dev
                ⟨fs.fsIsize, fs.fsInode, fs.fsLasti, fs.fsNbehind, udecr fs.fsTinode, fs.fsRonly, true⟩)
            else ialloc dev fuel (iput k d n)
    | [] =>
      let k := refill k dev
      if (k.fs dev).fsInode = [] then some (none, k.setError enospc)
      else ialloc dev fuel k

end RetroBSD.Ialloc
