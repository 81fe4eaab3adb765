import RetroBSD.ImageBlocks
import RetroBSD.FileBlocks

/-!
# Inodes of a file system image

The inode in memory, `fs_inode_truncate` and `map_block_write` of `tools/fsutil/inode.c`,
with the routines of `block.c` that free the blocks behind an indirect block. `stale b` is
what the buffer on the stack holds when block `b` is freed.
-/

namespace RetroBSD.Fsutil

open LittleEndian Ufs

def modeFmt : ℕ := 0o170000
def modeFchr : ℕ := 0o020000
def modeFdir : ℕ := 0o040000
def modeFblk : ℕ := 0o060000
def modeFreg : ℕ := 0o100000
def modeFlnk : ℕ := 0o120000

def fileType (mode : ℕ) : ℕ := mode &&& modeFmt

structure Inode where
  number : ℕ
  dirty : Bool
  mode : ℕ
  nlink : ℕ
  uid : ℕ
  gid : ℕ
  size : ℕ
  addr : ℕ → ℕ
  flags : ℕ
  atime : ℕ
  mtime : ℕ
  ctime : ℕ

def Inode.setAddr (ip : Inode) (i b : ℕ) : Inode := { ip with addr := Function.update ip.addr i b }

section Free

variable (stale : ℕ → Block)

def Image.freeBlock (im : Image) (bno : ℕ) : Image := (im.blockFree bno (stale bno)).getD im

/-- The loop over the entries `is` of an indirect block `data`, each of which stands for
`weight` blocks. It stops at the first one that has something to keep, with `false`. -/
def freeEntries (freeEntry : Image → ℕ → ℤ → Image) (weight : ℕ) (data : Block) (nblk : ℤ) :
    List ℕ → Image → Bool × Image
  | [], im => (true, im)
  | i :: is, im =>
    if (i * weight : ℕ) < nblk then (false, im)
    else
      let nb := word data i
      freeEntries freeEntry weight data nblk is
        (if nb ≠ 0 then freeEntry im nb (nblk - (i * weight : ℕ)) else im)

/-- Frees what is behind an indirect block but the first `nblk` blocks, and the indirect
block itself when nothing is kept. -/
def freeIndirect (freeEntry : Image → ℕ → ℤ → Image) (weight : ℕ) (im : Image) (bno : ℕ) (nblk : ℤ) : Bool × Image :=
  match im.readBlock bno with
  | none => (false, im)
  | some data =>
    match freeEntries freeEntry weight data nblk (List.range nindir).reverse im with
    | (false, im) => (false, im)
    | (true, im) => (true, im.freeBlock stale bno)

def indirectBlockFree : Image → ℕ → ℤ → Bool × Image :=
  freeIndirect stale (fun im nb _ => im.freeBlock stale nb) 1

def doubleIndirectBlockFree : Image → ℕ → ℤ → Bool × Image :=
  freeIndirect stale (fun im nb nblk => (indirectBlockFree stale im nb nblk).2) nindir

def tripleIndirectBlockFree : Image → ℕ → ℤ → Bool × Image :=
  freeIndirect stale (fun im nb nblk => (doubleIndirectBlockFree stale im nb nblk).2) (nindir * nindir)

def freeRoot (size : ℕ) (nblk : ℤ) (im : Image) (i blk : ℕ) : Bool × Image :=
  if i = 6 then tripleIndirectBlockFree stale im blk (nblk - (ndaddr + nindir + nindir * nindir : ℕ))
  else if i = 5 then doubleIndirectBlockFree stale im blk (nblk - (ndaddr + nindir : ℕ))
  else if i = 4 then indirectBlockFree stale im blk (nblk - ndaddr)
  else if i * bsize < size then (false, im)
  else (true, im.freeBlock stale blk)

def truncateLoop (size : ℕ) (nblk : ℤ) : List ℕ → Image → (ℕ → ℕ) → Image × (ℕ → ℕ)
  | [], im, addr => (im, addr)
  | i :: is, im, addr =>
    if addr i = 0 then truncateLoop size nblk is im addr
    else
      match freeRoot stale size nblk im i (addr i) with
      | (false, im) => (im, addr)
      | (true, im) => truncateLoop size nblk is im (Function.update addr i 0)

/-- The number of blocks to keep. The size is an `unsigned long` of 64 bits, the number
of blocks an `int`. -/
def keepBlocks (size : ℕ) : ℤ := signed ((size + bsize - 1) % 2 ^ 64 / bsize % wordMod)

def truncate (im : Image) (ip : Inode) (size : ℕ) : Image × Inode :=
  if fileType ip.mode = modeFchr ∨ fileType ip.mode = modeFblk then (im, ip)
  else
    let nblk := keepBlocks size
    let r := truncateLoop stale size nblk [6, 5, 4, 3, 2, 1, 0] im ip.addr
    (r.1, { ip with addr := r.2, size := size, dirty := true })

end Free

/-- Fetches through `k` more indirect blocks, the first of them `nb`, and allocates what is
missing. The result is 0 when that fails. -/
def mapFetch (lbn : ℕ) : ℕ → Image → ℕ → ℕ × Image
  | 0, im, nb => (nb, im)
  | k + 1, im, nb =>
    match im.readBlock nb with
    | none => (0, im)
    | some block =>
      let i := lbn / nindir ^ k % nindir
      if word block i ≠ 0 then mapFetch lbn k im (word block i)
      else
        match im.blockAlloc with
        | (none, im) => (0, im)
        | (some newb, im) =>
          match im.writeBlock nb (setWord block i newb) with
          | none => (0, im)
          | some im =>
            match im.writeBlock newb zeroBlock with
            | none => (0, im)
            | some im => mapFetch lbn k im newb

def mapBlockWrite (im : Image) (ip : Inode) (lbn : ℕ) : ℕ × Image × Inode :=
  if lbn < naddr - 3 then
    if ip.addr lbn ≠ 0 then (ip.addr lbn, im, ip)
    else
      match im.blockAlloc with
      | (none, im) => (0, im, ip)
      | (some nb, im) => (nb, im, { ip.setAddr lbn nb with dirty := true })
  else
    match indirection (lbn - (naddr - 3)) with
    | none => (0, im, ip)
    | some (level, lbn) =>
      let i := ndaddr + level - 1
      if ip.addr i = 0 then
        match im.blockAlloc with
        | (none, im) => (0, im, ip)
        | (some nb, im) =>
          match im.writeBlock nb zeroBlock with
          | none => (0, im, ip)
          | some im =>
            let r := mapFetch lbn level im nb
            (r.1, r.2, { ip.setAddr i nb with dirty := true })
      else
        let r := mapFetch lbn level im (ip.addr i)
        (r.1, r.2, ip)

end RetroBSD.Fsutil
