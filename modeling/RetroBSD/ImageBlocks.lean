import RetroBSD.FreeBlocks

/-!
# Blocks of a file system image

The superblock in memory and the block operations of `tools/fsutil/block.c`. A block is
found in the image file at its number times 1024, computed as an `unsigned`. The image is
open for writing; a read beyond its end fails, a write there makes it longer, and other
host errors do not occur. `stale` is what the buffer on the stack happens to contain.
-/

namespace RetroBSD.Fsutil

open Function

open LittleEndian Ufs

def bsize : ℕ := 1024

structure Fs where
  isize : ℕ
  fsize : ℕ
  swapsz : ℕ
  nfree : ℕ
  free : ℕ → ℕ
  ninode : ℕ
  inode : ℕ → ℕ
  tfree : ℕ
  tinode : ℕ
  dirty : Bool
  modified : Bool

structure Image where
  fs : Fs
  disk : ℕ → Block
  length : ℕ

def blockAddr (bnum : ℕ) : ℕ := bnum * bsize % wordMod / bsize

namespace Image

variable (im : Image)

def readBlock (bnum : ℕ) : Option Block :=
  if bnum < im.fs.isize then none
  else if im.length ≤ blockAddr bnum then none
  else some (im.disk (blockAddr bnum))

def writeBlock (bnum : ℕ) (data : Block) : Option Image :=
  if bnum < im.fs.isize then none
  else some { im with
    fs := { im.fs with modified := true }
    disk := update im.disk (blockAddr bnum) data
    length := max im.length (blockAddr bnum + 1) }

def spill (bno : ℕ) (stale : Block) : Option Image :=
  if nicfree ≤ im.fs.nfree then
    let buf := setWords stale (nicfree + 1) fun i => if i = 0 then im.fs.nfree else im.fs.free (i - 1)
    (im.writeBlock bno buf).map fun im => { im with fs := { im.fs with nfree := 0 } }
  else some im

def push (bno : ℕ) : Image :=
  { im with fs := { im.fs with
      nfree := im.fs.nfree + 1
      free := update im.fs.free im.fs.nfree bno
      dirty := true
      tfree := if bno ≠ 0 then uincr im.fs.tfree else im.fs.tfree } }

/-- `fs_block_free`; there is no result when it returns 0, and then nothing has changed. -/
def blockFree (bno : ℕ) (stale : Block) : Option Image := (im.spill bno stale).map fun im => im.push bno

def takeLast : Image :=
  { im with fs := { im.fs with
      nfree := im.fs.nfree - 1
      tfree := udecr im.fs.tfree
      free := update im.fs.free (im.fs.nfree - 1) 0
      dirty := true } }

def load (buf : Block) : Image :=
  { im with fs := { im.fs with
      nfree := word buf 0
      free := fun i => if i < nicfree then word buf (i + 1) else im.fs.free i } }

def allocLoop : ℕ → Image → Option ℕ × Image
  | 0, im => (none, im)
  | fuel + 1, im =>
    if im.fs.nfree = 0 then (none, im)
    else
      let bno := im.fs.free (im.fs.nfree - 1)
      let im := im.takeLast
      if im.fs.nfree = 0 then
        match im.readBlock bno with
        | none => (none, im)
        | some buf => if bno = 0 then allocLoop fuel (im.load buf) else (some bno, im.load buf)
      else if bno = 0 then allocLoop fuel im
      else (some bno, im)

/-- `fs_block_alloc`. Block 0 is not readable when there are inodes, so that the loop
goes on for an entry 0 only while there are others before it. -/
def blockAlloc : Option ℕ × Image := allocLoop (im.fs.nfree + 1) im

/-- What the kernel finds when it mounts the image. -/
def toKernel (sblock : Ufs.Fs) : Filsys :=
  ⟨⟨im.fs.isize, im.fs.fsize, signed im.fs.nfree, im.fs.free, im.fs.tfree, im.fs.dirty⟩, sblock, im.disk, 0⟩

end Image

end RetroBSD.Fsutil
