import RetroBSD.BlockMapping

/-!
# Offsets, lengths and sizes as words

`rwip` of `sys/kernel/sys_inode.c` with the 32-bit arithmetic of its offsets, and the
system calls above it: `open`, `lseek`, `read`, `write`, `truncate` and `ftruncate`, with
`rwuio`, `ino_rw`, `vn_open` and `ufs_setattr`. An `off_t` is signed, `uio_resid` and the
length of `itrunc` are not, and `lblkno` shifts its argument as an unsigned word.

The files exist; a file that `open` creates is there from the start, empty. Read-only
volumes, the flag `IMMUTABLE` and `O_EXCL` are left out.
-/

namespace RetroBSD.Ufs

open LittleEndian ByteCopy

namespace Words

def uiomove (rw : Rw) (buf : Block) (cp n : ℕ) (mem : Memory) (uio : Uio) : Block × Memory × Uio :=
  let r := Ufs.uiomove rw buf cp n mem uio
  (r.1, r.2.1, ⟨r.2.2.uioIov, r.2.2.uioOffset % wordMod, r.2.2.uioResid⟩)

/-- The inode after `n` bytes have been written at `offset`. The sizes are compared as
signed numbers. -/
def written (ip : Inode) (u : User) (offset n : ℕ) : Inode :=
  let size := (offset + n) % wordMod
  let ip := if signed ip.iSize < signed size then ip.setSize size else ip
  if u.uRuid ≠ 0 then ip.setMode (ip.iMode &&& notSetid) else ip

def readLoop : ℕ → Filsys → Inode → Memory → Uio → RwResult
  | 0, st, ip, mem, uio => ⟨st.uError, ip, st, mem, uio⟩
  | fuel + 1, st, ip, mem, uio =>
    let on := uio.uioOffset % devBsize
    let diff := signed ((ip.iSize + wordMod - uio.uioOffset) % wordMod)
    if diff ≤ 0 then ⟨0, ip, st, mem, uio⟩
    else
      let n := min (min (devBsize - on) uio.uioResid) diff.toNat
      let r := bmap st ip (uio.uioOffset / devBsize : ℕ) .read false zeroBlock
      if r.2.2.uError ≠ 0 then ⟨r.2.2.uError, r.2.1, r.2.2, mem, uio⟩
      else
        let buf := if r.1 < 0 then zeroBlock else r.2.2.disk r.1.toNat
        let m := uiomove .read buf on n mem uio
        if m.2.2.uioResid ≠ 0 ∧ n ≠ 0 then readLoop fuel r.2.2 r.2.1 m.2.1 m.2.2
        else ⟨0, r.2.1, r.2.2, m.2.1, m.2.2⟩

def writeLoop (u : User) (stale : Block) : ℕ → Filsys → Inode → Memory → Uio → RwResult
  | 0, st, ip, mem, uio => ⟨st.uError, ip, st, mem, uio⟩
  | fuel + 1, st, ip, mem, uio =>
    let on := uio.uioOffset % devBsize
    let n := min (devBsize - on) uio.uioResid
    let r := bmap st ip (uio.uioOffset / devBsize : ℕ) .write (n ≠ devBsize) stale
    if r.2.2.uError ≠ 0 ∨ r.1 < 0 then ⟨r.2.2.uError, r.2.1, r.2.2, mem, uio⟩
    else
      let buf := if n = devBsize then stale else r.2.2.disk r.1.toNat
      let m := uiomove .write buf on n mem uio
      let st := r.2.2.write r.1.toNat m.1
      let ip := written r.2.1 u uio.uioOffset n
      if m.2.2.uioResid ≠ 0 ∧ n ≠ 0 then writeLoop u stale fuel st ip m.2.1 m.2.2
      else ⟨0, ip, st, m.2.1, m.2.2⟩

/-- `rwip`. The end of the write and the limit are compared as unsigned words. -/
def rwip (u : User) (st : Filsys) (ip : Inode) (rw : Rw) (ioAppend : Bool) (stale : Block) (mem : Memory)
    (uio : Uio) : RwResult :=
  match rw with
  | .read =>
    if uio.uioResid = 0 then ⟨0, ip, st, mem, uio⟩ else readLoop uio.uioResid st ip mem uio
  | .write =>
    let type := ip.iMode &&& ifmt
    let uio := if type = ifreg ∧ ioAppend then ⟨uio.uioIov, ip.iSize, uio.uioResid⟩ else uio
    if type = ifreg ∧ ip.iAppend ∧ uio.uioOffset ≠ ip.iSize then ⟨eperm, ip, st, mem, uio⟩
    else if type ≠ ifreg ∧ type ≠ ifdir ∧ type ≠ iflnk then ⟨eftype, ip, st, mem, uio⟩
    else if uio.uioResid = 0 then ⟨0, ip, st, mem, uio⟩
    else if type = ifreg ∧ u.fsizeCur < (uio.uioOffset + uio.uioResid) % wordMod then
      ⟨efbig, ip, st, mem, uio⟩
    else writeLoop u stale uio.uioResid st ip mem uio

end Words

/-! ## Below `2 ^ 31` the words are the numbers -/

section Numbers

variable {st : Filsys} {ip : Inode} {mem : Memory} {uio : Uio}

theorem bmap_iSize (st : Filsys) (ip : Inode) (bn : ℤ) (rw : Rw) (clrbuf : Bool) (stale : Block) :
    (bmap st ip bn rw clrbuf stale).2.1.iSize = ip.iSize := by
  unfold bmap
  split
  · rfl
  split
  · dsimp only
    split
    · cases rw with
      | read => rfl
      | write =>
        dsimp only
        split <;> rfl
    · rfl
  · split
    · rfl
    · dsimp only
      split
      · cases rw with
        | read => rfl
        | write =>
          dsimp only
          split <;> rfl
      · rfl

theorem words_uiomove (rw : Rw) (buf : Block) (cp : ℕ) {n : ℕ} (mem : Memory) (hn : n ≤ uio.uioResid)
    (hroom : uio.uioResid ≤ (addresses uio.uioIov).length) (hend : uio.uioOffset + n < 2 ^ 31) :
    ∃ uio', Words.uiomove rw buf cp n mem uio = uiomove rw buf cp n mem uio ∧
      (uiomove rw buf cp n mem uio).2.2 = uio' ∧ uio'.uioResid ≤ (addresses uio'.uioIov).length ∧
      uio'.uioOffset = uio.uioOffset + n ∧ uio'.uioResid = uio.uioResid - n := by
  obtain ⟨uio', hmove, haddr, hoff, hresid⟩ := uiomove_spec rw buf cp n mem uio hn hroom
  have hword : uio'.uioOffset % wordMod = uio'.uioOffset := by
    apply Nat.mod_eq_of_lt
    rw [wordMod]
    omega
  refine ⟨uio', ?_, by rw [hmove], ?_, hoff, hresid⟩
  · rw [Words.uiomove, hmove]
    rw [hword]
  · rw [haddr, List.length_drop]
    omega

variable (u : User)

theorem words_written {offset n : ℕ} (hsize : ip.iSize < 2 ^ 31) (hend : offset + n < 2 ^ 31) :
    Words.written ip u offset n = ip.written u offset n := by
  have hword : (offset + n) % wordMod = offset + n := by
    apply Nat.mod_eq_of_lt
    rw [wordMod]
    omega
  have hlt : (signed ip.iSize < signed (offset + n)) = (ip.iSize < offset + n) := by
    rw [signed_of_lt hsize, signed_of_lt hend]
    exact propext Nat.cast_lt
  rw [Words.written, Inode.written]
  simp only [hword, hlt]

theorem words_diff {size offset : ℕ} (hsize : size < 2 ^ 31) (hoff : offset < 2 ^ 31) :
    signed ((size + wordMod - offset) % wordMod) = size - offset := by
  rw [wordMod, signed]
  by_cases hle : offset ≤ size
  · omega
  · have hmod : (size + 2 ^ 32 - offset) % 2 ^ 32 = size + 2 ^ 32 - offset := by omega
    rw [hmod]
    omega

theorem words_readLoop (fuel : ℕ) (hsize : ip.iSize < 2 ^ 31) (hoff : uio.uioOffset < 2 ^ 31)
    (hroom : uio.uioResid ≤ (addresses uio.uioIov).length) :
    Words.readLoop fuel st ip mem uio = readLoop fuel st ip mem uio := by
  induction fuel generalizing st ip mem uio with
  | zero => rfl
  | succ fuel ih =>
    rw [Words.readLoop, readLoop]
    simp only [words_diff hsize hoff]
    by_cases hend : ip.iSize ≤ uio.uioOffset
    · rw [if_pos hend, if_pos (by omega)]
    rw [if_neg hend, if_neg (by omega)]
    have hdiff : ((ip.iSize : ℤ) - uio.uioOffset).toNat = ip.iSize - uio.uioOffset := by omega
    rw [hdiff]
    set n := min (min (devBsize - uio.uioOffset % devBsize) uio.uioResid) (ip.iSize - uio.uioOffset)
    set r := bmap st ip (uio.uioOffset / devBsize : ℕ) .read false zeroBlock
    have hsize' : r.2.1.iSize = ip.iSize := by rw [bmap_iSize]
    obtain ⟨uio', hmove, huio, hroom', hoff', -⟩ := words_uiomove .read
      (if r.1 < 0 then zeroBlock else r.2.2.disk r.1.toNat) (uio.uioOffset % devBsize) mem
      (show n ≤ uio.uioResid by omega) hroom (by omega)
    rw [hmove, huio]
    have hnext := fun mem' => @ih r.2.2 r.2.1 mem' uio' (by omega) (by omega) hroom'
    rw [hnext]

theorem words_writeLoop (stale : Block) (fuel : ℕ) (hsize : ip.iSize < 2 ^ 31)
    (hend : uio.uioOffset + uio.uioResid < 2 ^ 31) (hroom : uio.uioResid ≤ (addresses uio.uioIov).length) :
    Words.writeLoop u stale fuel st ip mem uio = writeLoop u stale fuel st ip mem uio := by
  induction fuel generalizing st ip mem uio with
  | zero => rfl
  | succ fuel ih =>
    rw [Words.writeLoop, writeLoop]
    set n := min (devBsize - uio.uioOffset % devBsize) uio.uioResid
    set r := bmap st ip (uio.uioOffset / devBsize : ℕ) .write (n ≠ devBsize) stale
    have hsize' : r.2.1.iSize = ip.iSize := by rw [bmap_iSize]
    obtain ⟨uio', hmove, huio, hroom', hoff', hresid'⟩ := words_uiomove .write
      (if n = devBsize then stale else r.2.2.disk r.1.toNat) (uio.uioOffset % devBsize) mem
      (show n ≤ uio.uioResid by omega) hroom (by omega)
    have hwritten := words_written u (hsize'.symm ▸ hsize) (show uio.uioOffset + n < 2 ^ 31 by omega)
    have hgrown : (r.2.1.written u uio.uioOffset n).iSize < 2 ^ 31 := by
      rw [(written_spec r.2.1 u uio.uioOffset n).2.2.2.2]
      omega
    dsimp only
    rw [hmove, huio, hwritten]
    have hnext := fun st' mem' => @ih st' (r.2.1.written u uio.uioOffset n) mem' uio' hgrown (by omega) hroom'
    rw [hnext]

theorem resid_le_addresses (iov : List Iovec) (offset : ℕ) :
    (⟨iov, offset, room iov % wordMod⟩ : Uio).uioResid ≤ (addresses iov).length := by
  rw [length_addresses]
  exact Nat.mod_le _ _

theorem words_rwip_read (ioAppend : Bool) (stale : Block) (hsize : ip.iSize < 2 ^ 31)
    (hoff : uio.uioOffset < 2 ^ 31) (hroom : uio.uioResid ≤ (addresses uio.uioIov).length) :
    Words.rwip u st ip .read ioAppend stale mem uio = rwip u st ip .read ioAppend stale mem uio := by
  rw [Words.rwip, rwip]
  rw [words_readLoop uio.uioResid hsize hoff hroom]

theorem words_rwip_write (st : Filsys) (hreg : ip.iMode &&& ifmt = ifreg) (ioAppend : Bool)
    (stale : Block) (mem : Memory) (iov : List Iovec) (offset resid : ℕ) {start : ℕ}
    (hstart : start = if ioAppend then ip.iSize else offset) :
    Words.rwip u st ip .write ioAppend stale mem ⟨iov, offset, resid⟩ =
      if ip.iAppend ∧ start ≠ ip.iSize then ⟨eperm, ip, st, mem, ⟨iov, start, resid⟩⟩
      else if resid = 0 then ⟨0, ip, st, mem, ⟨iov, start, resid⟩⟩
      else if u.fsizeCur < (start + resid) % wordMod then ⟨efbig, ip, st, mem, ⟨iov, start, resid⟩⟩
      else Words.writeLoop u stale resid st ip mem ⟨iov, start, resid⟩ := by
  rw [Words.rwip]
  simp only [uio_started_at hreg, ← hstart]
  simp only [hreg, true_and, ne_eq, not_true_eq_false, false_and, if_false]

end Numbers

/-! ## System calls -/

def ebadf : ℕ := 9

def eacces : ℕ := 13

def eisdir : ℕ := 21

def einval : ℕ := 22

def emfile : ℕ := 24

structure OpenFile (ι : Type*) where
  fData : ι
  fOffset : ℕ
  fRead : Bool
  fWrite : Bool
  fAppend : Bool

def OpenFile.setOffset {ι : Type*} (fp : OpenFile ι) (offset : ℕ) : OpenFile ι :=
  ⟨fp.fData, offset, fp.fRead, fp.fWrite, fp.fAppend⟩

/-- Who makes a call, with the answers of `access`. -/
structure Caller (ι : Type*) where
  user : User
  mayRead : ι → Bool
  mayWrite : ι → Bool

structure Files (ι κ : Type*) where
  volume : Volume ι
  ofile : κ → Option (OpenFile ι)

inductive SysCall (ι κ : Type*)
  | copen (fd : κ) (i : ι) (read write append trunc : Bool)
  | lseek (fd : κ) (off : BitVec 32) (sbase : ℤ)
  | read (fd : κ) (mem : Memory) (iov : List Iovec)
  | write (fd : κ) (mem : Memory) (iov : List Iovec)
  | truncate (i : ι) (length : BitVec 32)
  | ftruncate (fd : κ) (length : BitVec 32)

structure SysReply where
  error : ℕ
  rval : ℕ
  deriving DecidableEq

/-- The offset `lseek` sets, unless `sbase` is none of `L_INCR`, `L_XTND` and `L_SET`. -/
def seekOffset (fOffset iSize : ℕ) (off : BitVec 32) (sbase : ℤ) : Option ℕ :=
  if sbase = 1 then some ((fOffset + off.toNat) % wordMod)
  else if sbase = 2 then some ((off.toNat + iSize) % wordMod)
  else if sbase = 0 then some off.toNat
  else none

/-- `ufs_setattr` with all attributes but the size `VNOVAL`, which is -1. -/
def setattr (st : Filsys) (ip : Inode) (size : BitVec 32) (stale : ℕ → Block) : ℕ × Inode × Filsys :=
  if ip.iAppend then (eperm, ip, st)
  else if size = -1 then (0, ip, st)
  else if ip.iMode &&& ifmt = ifdir then (eisdir, ip, st)
  else
    let r := itrunc st ip size.toNat stale
    (r.2.uError, r.1, r.2)

variable {ι κ : Type*} [DecidableEq ι] [DecidableEq κ]

def Files.setFile (s : Files ι κ) (i : ι) (st : Filsys) (ip : Inode) : Files ι κ :=
  ⟨⟨st, Function.update s.volume.files i ip⟩, s.ofile⟩

def Files.setOpen (s : Files ι κ) (fd : κ) (fp : OpenFile ι) : Files ι κ :=
  ⟨s.volume, Function.update s.ofile fd (some fp)⟩

def Files.copen (s : Files ι κ) (c : Caller ι) (stale : ℕ → Block) (fd : κ) (i : ι)
    (read write append trunc : Bool) : SysReply × Files ι κ :=
  let ip := s.volume.files i
  if (s.ofile fd).isSome then (⟨emfile, 0⟩, s)
  else if ip.iAppend ∧ write ∧ append = false then (⟨eperm, 0⟩, s)
  else if read ∧ c.mayRead i = false then (⟨eacces, 0⟩, s)
  else if (write ∨ trunc) ∧ c.mayWrite i = false then (⟨eacces, 0⟩, s)
  else
    let r := if trunc then itrunc (s.volume.filsys.setError 0) ip 0 stale else (ip, s.volume.filsys)
    (⟨0, 0⟩, (s.setFile i r.2 r.1).setOpen fd ⟨i, 0, read, write, append⟩)

def Files.lseek (s : Files ι κ) (fd : κ) (off : BitVec 32) (sbase : ℤ) : SysReply × Files ι κ :=
  match s.ofile fd with
  | none => (⟨ebadf, 0⟩, s)
  | some fp =>
    match seekOffset fp.fOffset (s.volume.files fp.fData).iSize off sbase with
    | none => (⟨einval, 0⟩, s)
    | some offset => (⟨0, offset⟩, s.setOpen fd (fp.setOffset offset))

def Files.rwuio (s : Files ι κ) (c : Caller ι) (stale : ℕ → Block) (rw : Rw) (fd : κ) (mem : Memory)
    (iov : List Iovec) : SysReply × Files ι κ :=
  match s.ofile fd with
  | none => (⟨ebadf, 0⟩, s)
  | some fp =>
    if (match rw with | .read => fp.fRead | .write => fp.fWrite) = false then (⟨ebadf, 0⟩, s)
    else
      let ip := s.volume.files fp.fData
      let count := room iov % wordMod
      let ioAppend := decide (rw = .write) && decide (ip.iMode &&& ifmt = ifreg) && fp.fAppend
      let r := Words.rwip c.user (s.volume.filsys.setError 0) ip rw ioAppend (stale 0) mem
        ⟨iov, fp.fOffset, count⟩
      let moved := count - r.uio.uioResid
      let offset := if ioAppend then r.uio.uioOffset else (fp.fOffset + moved) % wordMod
      (⟨r.error, moved⟩, (s.setFile fp.fData r.st r.ip).setOpen fd (fp.setOffset offset))

def Files.truncate (s : Files ι κ) (c : Caller ι) (stale : ℕ → Block) (i : ι) (length : BitVec 32) :
    SysReply × Files ι κ :=
  if c.mayWrite i = false then (⟨eacces, 0⟩, s)
  else
    let r := setattr (s.volume.filsys.setError 0) (s.volume.files i) length stale
    (⟨r.1, 0⟩, s.setFile i r.2.2 r.2.1)

def Files.ftruncate (s : Files ι κ) (stale : ℕ → Block) (fd : κ) (length : BitVec 32) :
    SysReply × Files ι κ :=
  match s.ofile fd with
  | none => (⟨ebadf, 0⟩, s)
  | some fp =>
    if fp.fWrite = false then (⟨einval, 0⟩, s)
    else
      let r := setattr (s.volume.filsys.setError 0) (s.volume.files fp.fData) length stale
      (⟨r.1, 0⟩, s.setFile fp.fData r.2.2 r.2.1)

def Files.exec (s : Files ι κ) (c : Caller ι) (stale : ℕ → Block) : SysCall ι κ → SysReply × Files ι κ
  | .copen fd i read write append trunc => s.copen c stale fd i read write append trunc
  | .lseek fd off sbase => s.lseek fd off sbase
  | .read fd mem iov => s.rwuio c stale .read fd mem iov
  | .write fd mem iov => s.rwuio c stale .write fd mem iov
  | .truncate i length => s.truncate c stale i length
  | .ftruncate fd length => s.ftruncate stale fd length

end RetroBSD.Ufs
