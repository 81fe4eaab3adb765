import RetroBSD.FileBlocks
import RetroBSD.ByteCopy

/-!
# Reading and writing files

`uiomove` of `sys/kernel/kern_subr.c` and `rwip` of `sys/kernel/sys_inode.c`, for
inodes that are not devices. Blocks are seen through the buffer cache as blocks of
the disk; `stale` is what a buffer contains that was not read in. Without I/O and
copy errors `rwip` leaves its loop with a clear error code unless `bmap` fails, so
that the back-out for `IO_UNIT` is never reached and is left out.
-/

namespace RetroBSD.Ufs

open LittleEndian ByteCopy

def eperm : ℕ := 1

def eftype : ℕ := 79

def ifmt : ℕ := 0o170000

def ifdir : ℕ := 0o040000

def ifreg : ℕ := 0o100000

def iflnk : ℕ := 0o120000

def notSetid : ℕ := 0o171777

structure Iovec where
  iovBase : ℕ
  iovLen : ℕ
  deriving DecidableEq

structure Uio where
  uioIov : List Iovec
  uioOffset : ℕ
  uioResid : ℕ
  deriving DecidableEq

/-- What `rwip` looks up in the user structure: the limit `RLIMIT_FSIZE` and the real
user id. -/
structure User where
  fsizeCur : ℕ
  uRuid : ℕ

/-- One copy of `uiomove` between the buffer at `cp` and the process at `base`. -/
def moveBytes (rw : Rw) (buf : Block) (cp : ℕ) (mem : Memory) (base cnt : ℕ) : Block × Memory :=
  match rw with
  | .read => (buf, copy buf cp mem base cnt)
  | .write => (copy mem base buf cp cnt, mem)

/-- `uiomove`. A list of buffers shorter than `uio_resid` says does not occur. -/
def uiomove (rw : Rw) (buf : Block) (cp n : ℕ) (mem : Memory) (uio : Uio) : Block × Memory × Uio :=
  if n = 0 ∨ uio.uioResid = 0 then (buf, mem, uio)
  else
    match uio with
    | ⟨[], offset, resid⟩ => (buf, mem, ⟨[], offset, resid⟩)
    | ⟨v :: iov, offset, resid⟩ =>
      if v.iovLen = 0 then uiomove rw buf cp n mem ⟨iov, offset, resid⟩
      else
        let cnt := min v.iovLen n
        let r := moveBytes rw buf cp mem v.iovBase cnt
        uiomove rw r.1 (cp + cnt) (n - cnt) r.2
          ⟨⟨v.iovBase + cnt, v.iovLen - cnt⟩ :: iov, offset + cnt, resid - cnt⟩
termination_by n + uio.uioIov.length

def Inode.setMode (ip : Inode) (mode : ℕ) : Inode :=
  ⟨mode, ip.iSize, ip.iAddr, ip.iPipe, ip.iAppend⟩

structure RwResult where
  error : ℕ
  ip : Inode
  st : Filsys
  mem : Memory
  uio : Uio

def Inode.written (ip : Inode) (u : User) (offset n : ℕ) : Inode :=
  let ip := if ip.iSize < offset + n then ip.setSize (offset + n) else ip
  if u.uRuid ≠ 0 then ip.setMode (ip.iMode &&& notSetid) else ip

def readLoop : ℕ → Filsys → Inode → Memory → Uio → RwResult
  | 0, st, ip, mem, uio => ⟨st.uError, ip, st, mem, uio⟩
  | fuel + 1, st, ip, mem, uio =>
    let on := uio.uioOffset % devBsize
    if ip.iSize ≤ uio.uioOffset then ⟨0, ip, st, mem, uio⟩
    else
      let n := min (min (devBsize - on) uio.uioResid) (ip.iSize - uio.uioOffset)
      let r := bmap st ip (uio.uioOffset / devBsize : ℕ) .read false zeroBlock
      if r.2.2.uError ≠ 0 then ⟨r.2.2.uError, r.2.1, r.2.2, mem, uio⟩
      else
        let buf := if r.1 < 0 then zeroBlock else r.2.2.disk r.1.toNat
        let m := uiomove .read buf on n mem uio
        if m.2.2.uioResid ≠ 0 ∧ n ≠ 0 then readLoop fuel r.2.2 r.2.1 m.2.1 m.2.2
        else ⟨0, r.2.1, r.2.2, m.2.1, m.2.2⟩

/-- The rounds of `rwip` for writing. A block that is written as a whole is not read
in first and not cleared when it is new. -/
def writeLoop (u : User) (stale : Block) : ℕ → Filsys → Inode → Memory → Uio → RwResult
  | 0, st, ip, mem, uio => ⟨st.uError, ip, st, mem, uio⟩
  | fuel + 1, st, ip, mem, uio =>
    let on := uio.uioOffset % devBsize
    let n := min (devBsize - on) uio.uioResid
    let r := bmap st ip (uio.uioOffset / devBsize : ℕ) .write (n ≠ devBsize) stale
    if r.2.2.uError ≠ 0 ∨ r.1 < 0 then ⟨r.2.2.uError, r.2.1, r.2.2, mem, uio⟩
    else
      let buf := if n = devBsize then stale else r.2.2.disk r.1.toNat
      let m := uiomove .write buf on n mem uio
      let st := r.2.2.write r.1.toNat m.1
      let ip := r.2.1.written u uio.uioOffset n
      if m.2.2.uioResid ≠ 0 ∧ n ≠ 0 then writeLoop u stale fuel st ip m.2.1 m.2.2
      else ⟨0, ip, st, m.2.1, m.2.2⟩

/-- `rwip`; `ioAppend` is the flag `IO_APPEND`. -/
def rwip (u : User) (st : Filsys) (ip : Inode) (rw : Rw) (ioAppend : Bool) (stale : Block) (mem : Memory)
    (uio : Uio) : RwResult :=
  match rw with
  | .read =>
    if uio.uioResid = 0 then ⟨0, ip, st, mem, uio⟩ else readLoop uio.uioResid st ip mem uio
  | .write =>
    let type := ip.iMode &&& ifmt
    let uio := if type = ifreg ∧ ioAppend then ⟨uio.uioIov, ip.iSize, uio.uioResid⟩ else uio
    if type = ifreg ∧ ip.iAppend ∧ uio.uioOffset ≠ ip.iSize then ⟨eperm, ip, st, mem, uio⟩
    else if type ≠ ifreg ∧ type ≠ ifdir ∧ type ≠ iflnk then ⟨eftype, ip, st, mem, uio⟩
    else if uio.uioResid = 0 then ⟨0, ip, st, mem, uio⟩
    else if type = ifreg ∧ u.fsizeCur < uio.uioOffset + uio.uioResid then ⟨efbig, ip, st, mem, uio⟩
    else writeLoop u stale uio.uioResid st ip mem uio

end RetroBSD.Ufs
