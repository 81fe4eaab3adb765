import RetroBSD.FreeBlocks

/-!
# The blocks of a file

`bmap` of `sys/kernel/ufs_bmap.c` and `itrunc` of `sys/kernel/ufs_inode.c`. An inode
has four direct pointers and one each to trees of one, two and three levels of
indirect blocks. There are no I/O errors; the writes of the inode itself, the
read-ahead and the choice between synchronous and delayed writes are left out.
-/

namespace RetroBSD.Ufs

open LittleEndian Function

def devBsize : ℕ := 1024

def naddr : ℕ := 7

def ndaddr : ℕ := 4

def nindir : ℕ := 256

def maxpipsiz : ℕ := 4096

def efbig : ℕ := 27

inductive Rw
  | read
  | write
  deriving DecidableEq

/-- `struct inode`: `iPipe` and `iAppend` are the flags `IPIPE` and `APPEND`. -/
structure Inode where
  iMode : ℕ
  iSize : ℕ
  iAddr : ℕ → ℕ
  iPipe : Bool
  iAppend : Bool

def Inode.setAddr (ip : Inode) (i nb : ℕ) : Inode :=
  ⟨ip.iMode, ip.iSize, update ip.iAddr i nb, ip.iPipe, ip.iAppend⟩

def Inode.setSize (ip : Inode) (size : ℕ) : Inode :=
  ⟨ip.iMode, size, ip.iAddr, ip.iPipe, ip.iAppend⟩

def Filsys.write (st : Filsys) (bno : ℕ) (data : Block) : Filsys :=
  ⟨st.fs, st.sblock, update st.disk bno data, st.uError⟩

@[simp] theorem write_disk_self (st : Filsys) (bno : ℕ) (data : Block) :
    (st.write bno data).disk bno = data := update_self _ _ _

theorem write_disk_of_ne (st : Filsys) (data : Block) {bno b : ℕ} (h : b ≠ bno) :
    (st.write bno data).disk b = st.disk b := update_of_ne h _ _

def Filsys.setError (st : Filsys) (e : ℕ) : Filsys := ⟨st.fs, st.sblock, st.disk, e⟩

/-- How many levels of indirection the block `bn` behind the direct ones takes, and
its index below the indirect block of that many levels. -/
def indirection (bn : ℕ) : Option (ℕ × ℕ) :=
  if bn < nindir then some (1, bn)
  else if bn - nindir < nindir ^ 2 then some (2, bn - nindir)
  else if bn - nindir - nindir ^ 2 < nindir ^ 3 then some (3, bn - nindir - nindir ^ 2)
  else none

/-- Fetches through `k` more indirect blocks, the first of them `nb`. -/
def fetch (rw : Rw) (bn : ℕ) : ℕ → Filsys → ℕ → ℤ × Filsys
  | 0, st, nb => (signed nb, st)
  | k + 1, st, nb =>
    let bp := st.disk nb
    let i := bn / nindir ^ k % nindir
    if word bp i = 0 then
      match rw with
      | .read => (-1, st)
      | .write =>
        match balloc st true zeroBlock with
        | (none, st) => (-1, st)
        | (some (b, contents), st) =>
          fetch rw bn k ((st.write b contents).write nb (setWord bp i b)) b
    else fetch rw bn k st (word bp i)

/-- `bmap`: -1 for a hole. `clrbuf` is `B_CLRBUF` of the flags, and `stale` what the
buffer of a new direct block contains when it is not cleared. -/
def bmap (st : Filsys) (ip : Inode) (bn : ℤ) (rw : Rw) (clrbuf : Bool) (stale : Block) :
    ℤ × Inode × Filsys :=
  if bn < 0 then (0, ip, st.setError efbig)
  else if bn < ndaddr then
    let i := bn.toNat
    if ip.iAddr i = 0 then
      match rw with
      | .read => (-1, ip, st)
      | .write =>
        match balloc st clrbuf stale with
        | (none, st) => (-1, ip, st)
        | (some (b, contents), st) => (signed b, ip.setAddr i b, st.write b contents)
    else (signed (ip.iAddr i), ip, st)
  else
    match indirection (bn.toNat - ndaddr) with
    | none => (0, ip, st.setError efbig)
    | some (level, bn) =>
      let i := ndaddr + level - 1
      if ip.iAddr i = 0 then
        match rw with
        | .read => (-1, ip, st)
        | .write =>
          match balloc st true zeroBlock with
          | (none, st) => (-1, ip, st)
          | (some (b, contents), st) =>
            let r := fetch rw bn level (st.write b contents) b
            (r.1, ip.setAddr i b, r.2)
      else
        let r := fetch rw bn level st (ip.iAddr i)
        (r.1, ip, r.2)

def clearEntries (b : Block) (last : ℤ) : Block := fun j =>
  if 4 * (last + 1) ≤ j ∧ j < devBsize then 0 else b j

def entriesAbove (last : ℤ) : List ℕ := ((List.range nindir).filter (fun i : ℕ => last < i)).reverse

/-- Frees the blocks of the indirect block `bn` after index `lastbn`. Level 0 is
`SINGLE`, done by `trsingle`. -/
def indirtrunc (stale : ℕ → Block) : ℕ → Filsys → ℕ → ℤ → Filsys
  | 0, st, bn, lastbn =>
    let cpy := st.disk bn
    (entriesAbove lastbn).foldl
      (fun st i => if word cpy i ≠ 0 then free st (word cpy i) (stale (word cpy i)) else st)
      (st.write bn (clearEntries cpy lastbn))
  | level + 1, st, bn, lastbn =>
    let factor : ℤ := (nindir : ℤ) ^ (level + 1)
    let last := if 0 < lastbn then lastbn / factor else lastbn
    let cpy := st.disk bn
    let st := (entriesAbove last).foldl
      (fun st i =>
        if word cpy i ≠ 0 then
          free (indirtrunc stale level st (word cpy i) (-1)) (word cpy i) (stale (word cpy i))
        else st)
      (st.write bn (clearEntries cpy last))
    if 0 ≤ lastbn ∧ word cpy last.toNat ≠ 0 then
      indirtrunc stale level st (word cpy last.toNat) (lastbn % factor)
    else st

/-- The indirect blocks of `itrunc`, from `TRIPLE` on; true when a level was kept in
part, so that the rest of the file stays. -/
def truncLevels (stale : ℕ → Block) (iAddr : ℕ → ℕ) (lastiblock : ℕ → ℤ) :
    List ℕ → Filsys → Bool × Filsys
  | [], st => (false, st)
  | level :: levels, st =>
    let bn := iAddr (ndaddr + level)
    let st :=
      if bn ≠ 0 then
        let st := indirtrunc stale level st bn (lastiblock level)
        if lastiblock level < 0 then free st bn (stale bn) else st
      else st
    if 0 ≤ lastiblock level then (true, st) else truncLevels stale iAddr lastiblock levels st

def truncDirect (stale : ℕ → Block) (iAddr : ℕ → ℕ) (lastblock : ℤ) (st : Filsys) : Filsys :=
  [3, 2, 1, 0].foldl
    (fun st (i : ℕ) =>
      if lastblock < i ∧ iAddr i ≠ 0 then free st (iAddr i) (stale (iAddr i)) else st) st

def clearFrom (b : Block) (offset : ℕ) : Block := fun j =>
  if offset ≤ j ∧ j < devBsize then 0 else b j

/-- Zeroes the rest of the last block that is kept; false when `itrunc` gives up. -/
def clearTail (st : Filsys) (ip : Inode) (length : ℕ) (stale : ℕ → Block) :
    Bool × Inode × Filsys :=
  if length % devBsize = 0 then (true, ip, st)
  else
    let (bn, ip, st) := bmap st ip (length / devBsize : ℕ) .write true (stale 0)
    if st.uError ≠ 0 ∨ bn < 0 then (false, ip, st)
    else (true, ip, st.write bn.toNat (clearFrom (st.disk bn.toNat) (length % devBsize)))

/-- `lastiblock`, normalised to -1 for a level of which nothing is kept. -/
def lastiblock (lastblock : ℤ) (level : ℕ) : ℤ :=
  let last := match level with
    | 0 => lastblock - ndaddr
    | 1 => lastblock - ndaddr - nindir
    | _ => lastblock - ndaddr - nindir - nindir ^ 2
  if last < 0 then -1 else last

def keptAddr (iAddr : ℕ → ℕ) (lastblock : ℤ) : ℕ → ℕ := fun i =>
  if (i < ndaddr ∧ lastblock < i) ∨ (ndaddr ≤ i ∧ lastiblock lastblock (i - ndaddr) < 0) then 0
  else iAddr i

/-- `itrunc`; the length is an unsigned word. -/
def itrunc (st : Filsys) (ip : Inode) (length : ℕ) (stale : ℕ → Block) : Inode × Filsys :=
  let oip := if ip.iPipe then ip.setSize maxpipsiz else ip
  if ip.iPipe = false ∧ oip.iSize = length then (oip, st)
  else if oip.iSize < length then
    let (bn, oip, st) := bmap st oip ((length - 1) / devBsize : ℕ) .write true (stale 0)
    if st.uError ≠ 0 ∨ bn < 0 then (oip, st) else (oip.setSize length, st)
  else
    let (ok, oip, st) := clearTail st oip length stale
    if ok = false then (oip, st)
    else
      let lastblock : ℤ := ((length + devBsize - 1) % wordMod / devBsize : ℕ) - 1
      let r := truncLevels stale oip.iAddr (lastiblock lastblock) [2, 1, 0] st
      let st := if r.1 then r.2 else truncDirect stale oip.iAddr lastblock r.2
      (⟨oip.iMode, length, keptAddr oip.iAddr lastblock, oip.iPipe, oip.iAppend⟩, st)

end RetroBSD.Ufs
