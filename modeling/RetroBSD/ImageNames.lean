import RetroBSD.ImageInodes
import RetroBSD.ByteCopy

/-!
# Names in a file system image

`fs_inode_by_name` of `tools/fsutil/inode.c`: the walk along a path, the search of a
directory, and the creation, linking and deletion of an entry. A file is its inode with
the bytes it holds; which blocks hold them is not modelled here, so files share no blocks, as
is the case while no file has a pointer to a free block. `fs_inode_read` and `fs_inode_write`
then read and write these bytes, a block that is not there yet comes from outside with
whatever it contains, and there is no host I/O error. The records are in the byte order of
the host, least significant byte first.
-/

namespace RetroBSD.Fsutil

open LittleEndian ByteCopy

abbrev Name := List UInt8

structure Dirent where
  inum : ℕ
  reclen : ℕ
  namlen : ℕ
  deriving DecidableEq

def Dirent.pack (e : Dirent) : List UInt8 := toBytes 4 e.inum ++ toBytes 2 e.reclen ++ toBytes 2 e.namlen

def Dirent.unpack (data : Memory) (offset : ℕ) : Dirent where
  inum := ofBytes (bytes data offset 4)
  reclen := ofBytes (bytes data (offset + 4) 2)
  namlen := ofBytes (bytes data (offset + 6) 2)

def direntSize (namlen : ℕ) : ℕ := 8 + (namlen + 4) / 4 * 4

structure File where
  mode : ℕ
  nlink : ℕ
  size : ℕ
  data : Memory

namespace File

variable (f : File)

def isDir : Prop := fileType f.mode = modeFdir

instance : Decidable f.isDir := inferInstanceAs (Decidable (_ = _))

def nblocks : ℕ := (f.size + bsize - 1) / bsize

def read (offset n : ℕ) : Option (List UInt8) :=
  if f.size < n + offset then none else some (bytes f.data offset n)

def readDirent (offset : ℕ) : Option Dirent :=
  if f.size < 8 + offset then none else some (Dirent.unpack f.data offset)

/-- `fs_inode_write`. The new blocks, if one can be had, contain what `fresh` says. -/
def write (fresh : Option Memory) (offset : ℕ) (bs : List UInt8) : Option File :=
  if bs = [] then some f
  else
    let size := max f.size (offset + bs.length)
    if offset + bs.length ≤ f.nblocks * bsize then some { f with size, data := place f.data offset bs }
    else fresh.map fun fresh =>
      { f with size, data := place (fun i => if i < f.nblocks * bsize then f.data i else fresh i) offset bs }

/-- Writes one behind the other, up to the first that fails. -/
def writes (fresh : Option Memory) : File → List (ℕ × List UInt8) → Bool × File
  | f, [] => (true, f)
  | f, (offset, bs) :: ws =>
    match f.write fresh offset bs with
    | none => (false, f)
    | some f => f.writes fresh ws

/-- What the search of a directory ends with: the record found and the one in front of it,
or the last record. -/
inductive Search
  | failed
  | found (offset last : ℕ) (e : Dirent)
  | missing (last : ℕ) (e : Dirent)
  deriving DecidableEq

/-- The loop over the records. It runs out of fuel on a record of length 0, where the loop
of the source does not end. -/
def searchFrom (name : Name) : ℕ → ℕ → ℕ → Dirent → Search
  | 0, _, _, _ => .failed
  | fuel + 1, offset, last, e =>
    if f.size ≤ offset then .missing last e
    else
      match f.readDirent offset with
      | none => .failed
      | some e =>
        if e.inum = 0 ∨ e.namlen ≠ name.length then searchFrom name fuel (offset + e.reclen) offset e
        else
          match f.read (offset + 8) name.length with
          | none => .failed
          | some fname =>
            if fname = name then .found offset last e
            else searchFrom name fuel (offset + e.reclen) offset e

def search (name : Name) : Search := f.searchFrom name (f.size + 1) 0 0 ⟨0, 0, 0⟩

/-- The record of a new entry: its head, its name and a zero byte. -/
def entryWrites (offset inum reclen : ℕ) (name : Name) : List (ℕ × List UInt8) :=
  [(offset, Dirent.pack ⟨inum, reclen, name.length⟩), (offset + 8, name), (offset + 8 + name.length, [0])]

/-- Writes a directory entry behind the last record, which starts at `last`: into what that
record has to spare, or else into a new block. -/
def insertRecord (fresh : Option Memory) (last : ℕ) (e : Dirent) (inum : ℕ) (name : Name) : Bool × File :=
  let reclen : ℤ := e.reclen - 8 - ((e.namlen + 4) / 4 * 4 : ℕ)
  if (direntSize name.length : ℤ) ≤ reclen then
    let e := { e with reclen := e.reclen - reclen.toNat }
    f.writes fresh ((last, e.pack) :: entryWrites (last + e.reclen) inum reclen.toNat name)
  else f.writes fresh (entryWrites (last + e.reclen) inum bsize name)

/-- The size of the directory is rounded up and saved when everything was written. -/
def insertEntry (fresh : Option Memory) (last : ℕ) (e : Dirent) (inum : ℕ) (name : Name) : Bool × File :=
  let r := f.insertRecord fresh last e inum name
  if r.1 then (true, { r.2 with size := (r.2.size + bsize - 1) / bsize * bsize })
  else (false, { r.2 with size := f.size })

/-- Extends the record at `last` over the deleted record `e`. -/
def removeEntry (last : ℕ) (e : Dirent) : Option File := do
  let p ← f.readDirent last
  f.write none last (Dirent.pack { p with reclen := (p.reclen + e.reclen) % 2 ^ 16 })

/-- The inode with one link less. With no link left its blocks are freed and it is cleared. -/
def unlinked : File :=
  let nlink := (f.nlink + (2 ^ 16 - 1)) % 2 ^ 16
  if nlink = 0 then ⟨0, 0, 0, f.data⟩ else { f with nlink }

end File

def inodesPerBlock : ℕ := 16

def rootInode : ℕ := 2

def lostfoundInode : ℕ := 3

def swapInode : ℕ := 4

structure Volume where
  isize : ℕ
  file : ℕ → File

/-- What `fs_inode_alloc` and `fs_block_alloc` have for a call: an inode, a block for a new
directory and one for the directory that gets an entry. -/
structure Supply where
  inode : Option ℕ
  dotBlock : Option Memory
  dirBlock : Option Memory

inductive Op
  | lookup
  | create (mode : ℕ)
  | delete
  | link (inum : ℕ)
  deriving DecidableEq

inductive Walk
  | failed
  | found (inum : ℕ)
  | entry (dir offset last : ℕ) (e : Dirent)
  | absent (dir last : ℕ) (e : Dirent) (name : Name)
  deriving DecidableEq

/-- The result of `fs_inode_by_name` with the inode it leaves in memory. -/
structure Result where
  code : ℕ
  number : ℕ
  inode : File
  vol : Volume

def components (path : List UInt8) : List Name := (path.splitOnP (· = 47)).filter (· ≠ [])

namespace Volume

variable (v : Volume)

def Valid (inum : ℕ) : Prop := 0 < inum ∧ inum ≤ (v.isize - 1) * inodesPerBlock

instance (inum : ℕ) : Decidable (v.Valid inum) := inferInstanceAs (Decidable (_ ∧ _))

def set (inum : ℕ) (f : File) : Volume := { v with file := Function.update v.file inum f }

/-- `fs_inode_save`: the bytes of the file are already in the image. -/
def save (inum : ℕ) (f : File) : Volume := v.set inum ⟨f.mode, f.nlink, f.size, (v.file inum).data⟩

/-- The walk along the components of a path from the directory `dir` on. -/
def walk (delete : Bool) : ℕ → List Name → Walk
  | dir, [] => .found dir
  | dir, name :: rest =>
    if ¬(v.file dir).isDir then .failed
    else
      match (v.file dir).search name with
      | .failed => .failed
      | .found offset last e =>
        if delete ∧ rest = [] then .entry dir offset last e
        else if v.Valid e.inum then walk delete e.inum rest
        else .failed
      | .missing last e => if rest = [] then .absent dir last e name else .failed

def failure : Result := ⟨0, 0, v.file 0, v⟩

def createMode (mode : ℕ) : ℕ :=
  let mode := mode &&& (0o7777 ||| modeFmt)
  if fileType mode = 0 then mode ||| modeFreg else mode

def newFile (sup : Supply) (inum mode : ℕ) : Option File :=
  let inode : File := ⟨createMode mode, 1, 0, (v.file inum).data⟩
  if inode.isDir then
    (inode.write sup.dotBlock 0 (Dirent.pack ⟨inum, bsize, 1⟩ ++ [46, 0, 0, 0])).map fun inode =>
      { inode with size := bsize, nlink := inode.nlink + 1 }
  else some inode

def createFile (sup : Supply) (dir last : ℕ) (e : Dirent) (name : Name) (mode : ℕ) : Result :=
  match sup.inode with
  | none => v.failure
  | some inum =>
    match v.newFile sup inum mode with
    | none => v.failure
    | some inode =>
      match (v.file dir).insertEntry sup.dirBlock last e inum name with
      | (false, f) => ((v.set inum inode).set dir f).failure
      | (true, f) => ⟨2, inum, inode, (v.set inum inode).set dir f⟩

/-- From `delete_file` on. The inode is left for the caller to save. -/
def deleteFile (dir last : ℕ) (e : Dirent) : Result :=
  if ¬v.Valid e.inum then v.failure
  else
    match (v.file dir).removeEntry last e with
    | none => v.failure
    | some f => ⟨2, e.inum, (v.file e.inum).unlinked, v.set dir f⟩

def createLink (sup : Supply) (dir last : ℕ) (e : Dirent) (name : Name) (inum : ℕ) : Result :=
  match (v.file dir).insertEntry sup.dirBlock last e inum name with
  | (false, f) => (v.set dir f).failure
  | (true, f) => ⟨2, dir, f, v.set dir f⟩

def act (sup : Supply) (op : Op) : Walk → Result
  | .failed => v.failure
  | .found inum => ⟨1, inum, v.file inum, v⟩
  | .entry dir _ last e => v.deleteFile dir last e
  | .absent dir last e name =>
    match op with
    | .create mode => v.createFile sup dir last e name mode
    | .link inum => v.createLink sup dir last e name inum
    | .lookup => v.failure
    | .delete => v.failure

def byName (sup : Supply) (op : Op) (path : List UInt8) : Result :=
  if ¬v.Valid rootInode then v.failure
  else if components path = [] ∧ op ≠ .lookup then v.failure
  else v.act sup op (v.walk (op = .delete) rootInode (components path))

end Volume

/-- `create_root_directory`: the first bytes of the block, the others are 0. -/
def rootBlock (swapsz : ℕ) : List UInt8 :=
  Dirent.pack ⟨rootInode, 12, 1⟩ ++ [46, 0, 0, 0] ++ Dirent.pack ⟨rootInode, 12, 2⟩ ++ [46, 46, 0, 0] ++
    if swapsz ≠ 0 then
      Dirent.pack ⟨lostfoundInode, 20, 10⟩ ++ [108, 111, 115, 116, 43, 102, 111, 117, 110, 100, 0, 0] ++
        Dirent.pack ⟨swapInode, bsize - 12 - 12 - 20, 4⟩ ++ [115, 119, 97, 112, 0, 0, 0, 0]
    else
      Dirent.pack ⟨lostfoundInode, bsize - 12 - 12, 10⟩ ++ [108, 111, 115, 116, 43, 102, 111, 117, 110, 100, 0, 0]

def lostfoundBlock : List UInt8 :=
  Dirent.pack ⟨lostfoundInode, 12, 1⟩ ++ [46, 0, 0, 0] ++ Dirent.pack ⟨rootInode, bsize - 12, 2⟩ ++ [46, 46, 0, 0]

/-- The image that `fs_create` makes of `fsize` blocks, of which `swapsz` are for the swap
file. That file contains what was in its blocks before. -/
def fsCreate (fsize swapsz : ℕ) (raw : Memory) : Volume where
  isize := 1 + (fsize / 16 + inodesPerBlock - 1) / inodesPerBlock
  file inum :=
    if inum = 1 then ⟨modeFreg, 0, 0, fun _ => 0⟩
    else if inum = rootInode then ⟨modeFdir ||| 0o777, 3, bsize, place (fun _ => 0) 0 (rootBlock swapsz)⟩
    else if inum = lostfoundInode then ⟨modeFdir ||| 0o777, 2, bsize, place (fun _ => 0) 0 lostfoundBlock⟩
    else if inum = swapInode ∧ swapsz ≠ 0 then ⟨modeFreg ||| 0o400, 1, swapsz * bsize, raw⟩
    else ⟨0, 0, 0, fun _ => 0⟩

end RetroBSD.Fsutil
