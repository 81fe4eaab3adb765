import RetroBSD.LittleEndian

/-!
# The free blocks of a volume

`balloc` and `free` of `sys/kernel/ufs_alloc.c`. The superblock in core holds up to
`nicfree` free block numbers; entry 0 is the number of a block that holds more of
them, or 0 at the end of the list. Blocks are read and written through the buffer
cache, so here the disk is an array of blocks; `stale` stands for what a buffer
from `getblk` happens to contain. The lock `fs_flock` keeps other processes out
while a call sleeps, so a call is one step.
-/

namespace RetroBSD.Ufs

open LittleEndian Function

abbrev Block := Memory

def zeroBlock : Block := fun _ => 0

def nicfree : ℕ := 200

def enospc : ℕ := 28

def uincr (t : ℕ) : ℕ := if t + 1 = wordMod then 0 else t + 1

def udecr (t : ℕ) : ℕ := if t = 0 then wordMod - 1 else t - 1

structure Fs where
  fsIsize : ℕ
  fsFsize : ℕ
  fsNfree : ℤ
  fsFree : ℕ → ℕ
  fsTfree : ℕ
  fsFmod : Bool

/-- A mounted volume: the superblock in core and its image in block `SUPERB`, the
other blocks, and the error code of the running call. -/
structure Filsys where
  fs : Fs
  sblock : Fs
  disk : ℕ → Block
  uError : ℕ

/-- Block numbers are compared as unsigned words, since the bounds are. -/
def badblock (fs : Fs) (bn : ℕ) : Prop := bn < fs.fsIsize ∨ fs.fsFsize ≤ bn

instance (fs : Fs) (bn : ℕ) : Decidable (badblock fs bn) := inferInstanceAs (Decidable (_ ∨ _))

def Fs.load (fs : Fs) (b : Block) : Fs :=
  ⟨fs.fsIsize, fs.fsFsize, signed (word b 0), fun i => word b (i + 1), fs.fsTfree, fs.fsFmod⟩

def Fs.store (fs : Fs) (b : Block) : Block :=
  setWords b (nicfree + 1) (fun i => if i = 0 then (fs.fsNfree % wordMod).toNat else fs.fsFree (i - 1))

def Fs.setNfree (fs : Fs) (n : ℤ) : Fs :=
  ⟨fs.fsIsize, fs.fsFsize, n, fs.fsFree, fs.fsTfree, fs.fsFmod⟩

/-- The loop of `balloc` from `fs_nfree = k` on: entries are taken from the end and
bad block numbers are dropped. Returns the block and what is left of `fs_nfree`. -/
def takeFree (fs : Fs) : ℕ → Option (ℕ × ℕ)
  | 0 => none
  | k + 1 =>
    if fs.fsFree k = 0 then none
    else if badblock fs (fs.fsFree k) then takeFree fs k
    else some (fs.fsFree k, k)

def Filsys.nospace (st : Filsys) : Filsys :=
  ⟨⟨st.fs.fsIsize, st.fs.fsFsize, 0, st.fs.fsFree, 0, st.fs.fsFmod⟩, st.sblock, st.disk, enospc⟩

/-- The last entry is gone: the block it names is read for the next ones and the
superblock is written. -/
def Filsys.reload (st : Filsys) (bno : ℕ) : Filsys :=
  let fs := st.fs.load (st.disk bno)
  let fs : Fs := ⟨fs.fsIsize, fs.fsFsize, fs.fsNfree, fs.fsFree, fs.fsTfree, false⟩
  ⟨fs, fs, st.disk, st.uError⟩

def Filsys.handOut (st : Filsys) : Filsys :=
  ⟨⟨st.fs.fsIsize, st.fs.fsFsize, st.fs.fsNfree, st.fs.fsFree,
    udecr st.fs.fsTfree, true⟩, st.sblock, st.disk, st.uError⟩

def balloc (st : Filsys) (clrbuf : Bool) (stale : Block) : Option (ℕ × Block) × Filsys :=
  if (nicfree : ℤ) < st.fs.fsNfree then (none, st.nospace)
  else
    match takeFree st.fs st.fs.fsNfree.toNat with
    | none => (none, st.nospace)
    | some (bno, k) =>
      let contents := if clrbuf then zeroBlock else stale
      if k = 0 then
        let st := st.reload bno
        if st.fs.fsNfree ≤ 0 then (none, st.nospace) else (some (bno, contents), st.handOut)
      else
        let st : Filsys := ⟨st.fs.setNfree k, st.sblock, st.disk, st.uError⟩
        (some (bno, contents), st.handOut)

def Fs.begin (fs : Fs) : Fs :=
  if fs.fsNfree ≤ 0 then
    ⟨fs.fsIsize, fs.fsFsize, 1, update fs.fsFree 0 0, fs.fsTfree, fs.fsFmod⟩
  else fs

/-- A full superblock spills its list into the block being freed. -/
def Filsys.spill (st : Filsys) (bno : ℕ) (stale : Block) : Filsys :=
  if (nicfree : ℤ) ≤ st.fs.fsNfree then
    ⟨st.fs.setNfree 0, st.sblock, update st.disk bno (st.fs.store stale), st.uError⟩
  else st

def Filsys.push (st : Filsys) (bno : ℕ) : Filsys :=
  ⟨⟨st.fs.fsIsize, st.fs.fsFsize, st.fs.fsNfree + 1,
    update st.fs.fsFree st.fs.fsNfree.toNat bno, uincr st.fs.fsTfree, true⟩,
    st.sblock, st.disk, st.uError⟩

def free (st : Filsys) (bno : ℕ) (stale : Block) : Filsys :=
  if badblock st.fs bno then st
  else
    let st : Filsys := ⟨st.fs.begin, st.sblock, st.disk, st.uError⟩
    (st.spill bno stale).push bno

section Fields

variable (fs : Fs) (st : Filsys) (bno : ℕ) (stale : Block)

@[simp] theorem begin_fsIsize : fs.begin.fsIsize = fs.fsIsize := by
  unfold Fs.begin; split <;> rfl

@[simp] theorem begin_fsFsize : fs.begin.fsFsize = fs.fsFsize := by
  unfold Fs.begin; split <;> rfl

@[simp] theorem begin_fsTfree : fs.begin.fsTfree = fs.fsTfree := by
  unfold Fs.begin; split <;> rfl

@[simp] theorem spill_fsIsize : (st.spill bno stale).fs.fsIsize = st.fs.fsIsize := by
  unfold Filsys.spill; split <;> rfl

@[simp] theorem spill_fsFsize : (st.spill bno stale).fs.fsFsize = st.fs.fsFsize := by
  unfold Filsys.spill; split <;> rfl

@[simp] theorem spill_fsTfree : (st.spill bno stale).fs.fsTfree = st.fs.fsTfree := by
  unfold Filsys.spill; split <;> rfl

end Fields

end RetroBSD.Ufs
