import RetroBSD.RegularFiles

/-!
# Regular files as sparse byte arrays

What a user sees of a file is its size and, for each offset below it, the byte last
written there since the offset was last at or beyond the end of the file. The files
of a volume, read, written and truncated in any order, behave like this.
-/

namespace RetroBSD.Ufs

open LittleEndian RadixTree ByteCopy Runs Function

def room (iov : List Iovec) : ℕ := (iov.map Iovec.iovLen).sum

inductive FileCall
  | read (mem : Memory) (iov : List Iovec) (offset : ℕ)
  | write (mem : Memory) (iov : List Iovec) (offset : ℕ) (ioAppend : Bool)
  | trunc (length : ℕ)

/-- The error code, the memory of the process, and the offset and the room left. -/
inductive Reply
  | rw (error : ℕ) (mem : Memory) (offset resid : ℕ)
  | trunc (error : ℕ)

def Reply.error : Reply → ℕ
  | .rw error _ _ _ => error
  | .trunc error => error

def RwResult.reply (r : RwResult) : Reply := .rw r.error r.mem r.uio.uioOffset r.uio.uioResid

/-! ## The abstract files -/

/-- `written off` is the byte last written at `off` since `off` was last at or beyond
the end of the file, if there is one. -/
structure SparseFile where
  size : ℕ
  written : ℕ → Option UInt8
  appendOnly : Bool
  fresh : ∀ off, size ≤ off → written off = none

def SparseFile.byte (f : SparseFile) (off : ℕ) : UInt8 := (f.written off).getD 0

def SparseFile.read (f : SparseFile) (offset len : ℕ) : List UInt8 :=
  bytes f.byte offset (min len (f.size - offset))

def SparseFile.write (f : SparseFile) (offset : ℕ) (data : List UInt8) : SparseFile where
  size := max f.size (offset + data.length)
  written := place f.written offset (data.map some)
  appendOnly := f.appendOnly
  fresh off h := by
    have hle : offset + (data.map some).length ≤ off := by
      rw [List.length_map]
      omega
    rw [place_of_le hle]
    exact f.fresh off (by omega)

def SparseFile.truncate (f : SparseFile) (length : ℕ) : SparseFile where
  size := length
  written off := if off < length then f.written off else none
  appendOnly := f.appendOnly
  fresh _ h := if_neg (not_lt.2 h)

/-- A call on an abstract file. A write that is refused changes nothing. -/
def SparseFile.exec (u : User) (f : SparseFile) : FileCall → Reply × SparseFile
  | .read mem iov offset =>
    let data := f.read offset (room iov)
    (.rw 0 (scatter mem (addresses iov) data) (offset + data.length) (room iov - data.length), f)
  | .write mem iov offset ioAppend =>
    let start := if ioAppend then f.size else offset
    if f.appendOnly ∧ start ≠ f.size then (.rw eperm mem start (room iov), f)
    else if room iov = 0 then (.rw 0 mem start 0, f)
    else if u.fsizeCur < start + room iov then (.rw efbig mem start (room iov), f)
    else (.rw 0 mem (start + room iov) 0, f.write start ((addresses iov).map mem))
  | .trunc length => (.trunc 0, f.truncate length)

/-! ## The files of a volume -/

structure Volume (ι : Type*) where
  filsys : Filsys
  files : ι → Inode

variable {ι : Type*} [DecidableEq ι]

/-- A system call on file `i`; it begins with a clear error code. -/
def Volume.exec (u : User) (v : Volume ι) (i : ι) (stale : ℕ → Block) : FileCall → Reply × Volume ι
  | .read mem iov offset =>
    let r := rwip u (v.filsys.setError 0) (v.files i) .read false (stale 0) mem ⟨iov, offset, room iov⟩
    (r.reply, ⟨r.st, update v.files i r.ip⟩)
  | .write mem iov offset ioAppend =>
    let r := rwip u (v.filsys.setError 0) (v.files i) .write ioAppend (stale 0) mem ⟨iov, offset, room iov⟩
    (r.reply, ⟨r.st, update v.files i r.ip⟩)
  | .trunc length =>
    let r := itrunc (v.filsys.setError 0) (v.files i) length stale
    (.trunc r.2.uError, ⟨r.2, update v.files i r.1⟩)

def FileCall.InRange (size : ℕ) : FileCall → Prop
  | .read _ _ _ => True
  | .write _ iov offset ioAppend => (if ioAppend then size else offset) + room iov < 2 ^ 31
  | .trunc length => length < 2 ^ 31

def FileCall.blocks (size : ℕ) : FileCall → ℕ
  | .read _ _ _ => 0
  | .write _ iov offset ioAppend =>
    4 * blocksFor ((if ioAppend then size else offset) % devBsize + room iov) + 1
  | .trunc _ => 5

structure FileEvent (ι : Type*) where
  user : User
  file : ι
  call : FileCall
  reply : Reply

def Volume.Step (v : Volume ι) (e : FileEvent ι) (v' : Volume ι) : Prop :=
  e.call.InRange (v.files e.file).iSize ∧ e.reply.error ≠ enospc ∧
    ∃ stale, v.exec e.user e.file stale e.call = (e.reply, v')

def SparseStep (F : ι → SparseFile) (e : FileEvent ι) (F' : ι → SparseFile) : Prop :=
  e.reply = ((F e.file).exec e.user e.call).1 ∧ F' = update F e.file ((F e.file).exec e.user e.call).2

/-- A consistent volume of regular files with the contents `F` and the free blocks `l`. -/
structure Volume.Represents (v : Volume ι) (F : ι → SparseFile) (l : List ℕ) : Prop where
  consistent : v.filsys.Consistent l
  fsize : v.filsys.fs.fsFsize ≤ 2 ^ 31
  tree : ∀ i, TreeOk v.filsys.fs l (fileNodes v.filsys.disk (v.files i).iAddr)
  apart : ∀ i j, i ≠ j → ∀ n ∈ fileNodes v.filsys.disk (v.files i).iAddr,
    ∀ m ∈ fileNodes v.filsys.disk (v.files j).iAddr, n.block ≠ m.block
  regular : ∀ i, (v.files i).iMode &&& ifmt = ifreg ∧ (v.files i).iPipe = false
  size : ∀ i, (v.files i).iSize = (F i).size ∧ (F i).size < 2 ^ 31
  append : ∀ i, (v.files i).iAppend = (F i).appendOnly
  bytes : ∀ i, fileByte v.filsys.disk (v.files i).iAddr = (F i).byte

/-! ## One call -/

theorem valid_room (iov : List Iovec) (offset : ℕ) : Uio.Valid ⟨iov, offset, room iov⟩ := by
  rw [Uio.Valid, addresses, List.length_flatMap, room]
  simp only [List.length_range']

theorem length_addresses (iov : List Iovec) : (addresses iov).length = room iov :=
  (valid_room iov 0).symm

theorem byte_write (f : SparseFile) (offset : ℕ) (data : List UInt8) :
    (f.write offset data).byte = place f.byte offset data := by
  funext off
  rw [SparseFile.byte, SparseFile.write]
  rw [map_place (fun x : Option UInt8 => x.getD 0), List.map_map]
  exact congrArg (fun l => place f.byte offset l off) (List.map_id data)

theorem byte_truncate (f : SparseFile) (length : ℕ) :
    (f.truncate length).byte = cutBytes f.byte length := by
  funext off
  simp only [SparseFile.byte, SparseFile.truncate, cutBytes]
  split_ifs <;> rfl

theorem byte_beyond (f : SparseFile) {off : ℕ} (h : f.size ≤ off) : f.byte off = 0 := by
  rw [SparseFile.byte, f.fresh off h]
  rfl

section Call

variable {v : Volume ι} {F : ι → SparseFile} {l l' : List ℕ} {i : ι}

omit [DecidableEq ι] in
theorem Volume.Represents.ready (h : v.Represents F l) (i : ι) :
    Ready (v.filsys.setError 0) (v.files i) l :=
  ⟨⟨h.consistent.listed, h.consistent.isize_pos, h.consistent.fsize_lt, h.consistent.valid,
    h.consistent.nodup, h.consistent.count⟩, h.tree i, h.fsize, rfl⟩

theorem Touches.files {st st' : Filsys} {files : ι → Inode} {ip' : Inode}
    (h : Touches st st' l l' (fileNodes st.disk (files i).iAddr) (fileNodes st'.disk ip'.iAddr))
    (htree : ∀ j, TreeOk st.fs l (fileNodes st.disk (files j).iAddr))
    (hapart : ∀ j k, j ≠ k → ∀ n ∈ fileNodes st.disk (files j).iAddr, ∀ m ∈ fileNodes st.disk (files k).iAddr,
      n.block ≠ m.block) :
    (∀ j, TreeOk st'.fs l' (fileNodes st'.disk (update files i ip' j).iAddr)) ∧
      (∀ j k, j ≠ k → ∀ n ∈ fileNodes st'.disk (update files i ip' j).iAddr,
        ∀ m ∈ fileNodes st'.disk (update files i ip' k).iAddr, n.block ≠ m.block) ∧
      ∀ j, j ≠ i → fileNodes st'.disk (files j).iAddr = fileNodes st.disk (files j).iAddr ∧
        fileByte st'.disk (files j).iAddr = fileByte st.disk (files j).iAddr := by
  have hother : ∀ j, j ≠ i → _ := fun j hj => h.other (htree j) (hapart i j hj.symm)
  have hnodes : ∀ j, j ≠ i → fileNodes st'.disk (update files i ip' j).iAddr =
      fileNodes st.disk (files j).iAddr := by
    intro j hj
    rw [update_of_ne hj]
    exact (hother j hj).1
  have hself : update files i ip' i = ip' := update_self ..
  refine ⟨?_, ?_, fun j hj => ⟨(hother j hj).1, (hother j hj).2.2.2⟩⟩
  · intro j
    by_cases hj : j = i
    · subst hj
      rw [hself]
      exact h.ok
    · rw [hnodes j hj]
      exact (hother j hj).2.1
  · intro j k hjk n hn m hm
    by_cases hj : j = i
    · subst hj
      rw [hself] at hn
      rw [hnodes k hjk.symm] at hm
      exact (hother k hjk.symm).2.2.1 n hn m hm
    · rw [hnodes j hj] at hn
      by_cases hk : k = i
      · subst hk
        rw [hself] at hm
        exact ((hother j hj).2.2.1 m hm n hn).symm
      · rw [hnodes k hk] at hm
        exact hapart j k hjk n hn m hm

theorem Volume.Represents.update (h : v.Represents F l) {st' : Filsys} {ip' : Inode} {f : SparseFile}
    (hop : FileOp (v.filsys.setError 0) st' (v.files i) ip' l l' f.byte) (hsize : ip'.iSize = f.size)
    (hlt : f.size < 2 ^ 31) (happend : f.appendOnly = (F i).appendOnly) :
    Volume.Represents ⟨st', Function.update v.files i ip'⟩ (Function.update F i f) l' := by
  obtain ⟨htree, hapart, hother⟩ := hop.touches.files h.tree h.apart
  have hself : Function.update v.files i ip' i = ip' := update_self ..
  have hselfF : Function.update F i f i = f := update_self ..
  refine ⟨hop.touches.consistent, (hop.ready (h.ready i)).fsize, htree, hapart, ?_, ?_, ?_, ?_⟩
  · intro j
    by_cases hj : j = i
    · subst hj
      simp only [hself]
      exact ⟨hop.type.trans (h.regular j).1, hop.pipe.trans (h.regular j).2⟩
    · simp only [update_of_ne hj]
      exact h.regular j
  · intro j
    by_cases hj : j = i
    · subst hj
      simp only [hself, hselfF]
      exact ⟨hsize, hlt⟩
    · simp only [update_of_ne hj]
      exact h.size j
  · intro j
    by_cases hj : j = i
    · subst hj
      simp only [hself, hselfF]
      rw [hop.append, happend]
      exact h.append j
    · simp only [update_of_ne hj]
      exact h.append j
  · intro j
    by_cases hj : j = i
    · subst hj
      simp only [hself, hselfF]
      exact hop.bytes
    · simp only [update_of_ne hj]
      exact (hother j hj).2.trans (h.bytes j)

theorem Volume.Represents.unchanged (h : v.Represents F l) (i : ι) :
    Volume.Represents ⟨v.filsys.setError 0, Function.update v.files i (v.files i)⟩
      (Function.update F i (F i)) l := by
  have hop := FileOp.refl (h.ready i)
  have hbytes : fileByte (v.filsys.setError 0).disk (v.files i).iAddr = (F i).byte := h.bytes i
  rw [hbytes] at hop
  exact h.update hop (h.size i).1 (h.size i).2 rfl

def Volume.Matches (v : Volume ι) (F : ι → SparseFile) (u : User) (i : ι) (stale : ℕ → Block)
    (c : FileCall) : Prop :=
  (v.exec u i stale c).1 = ((F i).exec u c).1 ∧
    ∃ l', (v.exec u i stale c).2.Represents (update F i ((F i).exec u c).2) l'

theorem read_matches (h : v.Represents F l) (u : User) (i : ι) (stale : ℕ → Block) (mem : Memory)
    (iov : List Iovec) (offset : ℕ) : v.Matches F u i stale (.read mem iov offset) := by
  obtain ⟨hsize, hlt⟩ := h.size i
  obtain ⟨uio', hrw, hoff, hresid⟩ := rwip_read (h.ready i) (hsize ▸ hlt) u false (stale 0) mem
    ⟨iov, offset, room iov⟩ (valid_room iov offset).le rfl
  have hbytes : fileByte (v.filsys.setError 0).disk (v.files i).iAddr = (F i).byte := h.bytes i
  have hlen : ((F i).read offset (room iov)).length = min (room iov) ((F i).size - offset) :=
    length_bytes ..
  rw [hbytes, hsize] at hrw
  rw [hsize] at hoff hresid
  rw [Volume.Matches, Volume.exec, hrw, SparseFile.exec]
  refine ⟨?_, l, h.unchanged i⟩
  simp only [RwResult.reply, hoff, hresid, hlen]
  rfl

theorem trunc_matches (h : v.Represents F l) (u : User) (i : ι) (stale : ℕ → Block) {length : ℕ}
    (hlen : length < 2 ^ 31) : v.Matches F u i stale (.trunc length) ∨
      ((v.exec u i stale (.trunc length)).1.error = enospc ∧ l.length ≤ 4) := by
  obtain ⟨ip', st', hres⟩ : ∃ ip' st', (ip', st') =
    itrunc (v.filsys.setError 0) (v.files i) length stale := ⟨_, _, rfl⟩
  have hbytes : fileByte (v.filsys.setError 0).disk (v.files i).iAddr = (F i).byte := h.bytes i
  have hbeyond : ∀ off, (v.files i).iSize ≤ off →
      fileByte (v.filsys.setError 0).disk (v.files i).iAddr off = 0 := by
    intro off hoff
    rw [hbytes]
    exact byte_beyond _ ((h.size i).1 ▸ hoff)
  rw [Volume.Matches, Volume.exec, ← hres]
  rcases itrunc_spec (h.ready i) (h.regular i).2 hlen hbeyond stale hres with ⟨l', hop, hsize⟩ | hfail
  · left
    refine ⟨by simp only [hop.uError, SparseFile.exec], l', ?_⟩
    rw [hbytes, ← byte_truncate] at hop
    exact h.update hop hsize hlen rfl
  · exact .inr hfail

theorem uio_started_at {ip : Inode} (hreg : ip.iMode &&& ifmt = ifreg) (ioAppend : Bool) (iov : List Iovec)
    (offset resid : ℕ) : (if ip.iMode &&& ifmt = ifreg ∧ ioAppend then (⟨iov, ip.iSize, resid⟩ : Uio)
      else ⟨iov, offset, resid⟩) = ⟨iov, if ioAppend then ip.iSize else offset, resid⟩ := by
  cases ioAppend <;> simp [hreg]

theorem rwip_write (u : User) (st : Filsys) {ip : Inode} (hreg : ip.iMode &&& ifmt = ifreg)
    (ioAppend : Bool) (stale : Block) (mem : Memory) (iov : List Iovec) (offset resid : ℕ) {start : ℕ}
    (hstart : start = if ioAppend then ip.iSize else offset) :
    rwip u st ip .write ioAppend stale mem ⟨iov, offset, resid⟩ =
      if ip.iAppend ∧ start ≠ ip.iSize then ⟨eperm, ip, st, mem, ⟨iov, start, resid⟩⟩
      else if resid = 0 then ⟨0, ip, st, mem, ⟨iov, start, resid⟩⟩
      else if u.fsizeCur < start + resid then ⟨efbig, ip, st, mem, ⟨iov, start, resid⟩⟩
      else writeLoop u stale resid st ip mem ⟨iov, start, resid⟩ := by
  rw [rwip]
  simp only [uio_started_at hreg, ← hstart]
  simp only [hreg, true_and, ne_eq, not_true_eq_false, false_and, if_false]

theorem write_matches (h : v.Represents F l) (u : User) (i : ι) (stale : ℕ → Block) (mem : Memory)
    (iov : List Iovec) (offset : ℕ) (ioAppend : Bool)
    (hrange : (FileCall.write mem iov offset ioAppend).InRange (v.files i).iSize) :
    v.Matches F u i stale (.write mem iov offset ioAppend) ∨
      ((v.exec u i stale (.write mem iov offset ioAppend)).1.error = enospc ∧
        l.length < (FileCall.write mem iov offset ioAppend).blocks (v.files i).iSize) := by
  set start := if ioAppend then (v.files i).iSize else offset with hstart
  rw [FileCall.InRange] at hrange
  rw [FileCall.blocks]
  rw [Volume.Matches, Volume.exec,
    rwip_write u _ (h.regular i).1 ioAppend (stale 0) mem iov offset (room iov) hstart]
  have hF : (F i).exec u (.write mem iov offset ioAppend) =
      if (v.files i).iAppend ∧ start ≠ (v.files i).iSize then (.rw eperm mem start (room iov), F i)
      else if room iov = 0 then (.rw 0 mem start 0, F i)
      else if u.fsizeCur < start + room iov then (.rw efbig mem start (room iov), F i)
      else (.rw 0 mem (start + room iov) 0, (F i).write start ((addresses iov).map mem)) := by
    rw [hstart]
    simp only [SparseFile.exec, (h.size i).1, h.append i]
  rw [hF]
  by_cases hperm : (v.files i).iAppend = true ∧ start ≠ (v.files i).iSize
  · simp only [if_pos hperm]
    exact .inl ⟨rfl, l, h.unchanged i⟩
  simp only [if_neg hperm]
  by_cases hzero : room iov = 0
  · simp only [if_pos hzero]
    exact .inl ⟨by rw [RwResult.reply, hzero], l, h.unchanged i⟩
  simp only [if_neg hzero]
  by_cases hlimit : u.fsizeCur < start + room iov
  · simp only [if_pos hlimit]
    exact .inl ⟨rfl, l, h.unchanged i⟩
  simp only [if_neg hlimit]
  rcases writeLoop_spec u (stale 0) (room iov) (h.ready i) mem ⟨iov, start, room iov⟩ (valid_room iov start)
    le_rfl (Nat.pos_of_ne_zero hzero) hrange rfl with ⟨l', hw⟩ | ⟨herr, hlen⟩
  · left
    refine ⟨?_, l', ?_⟩
    · rw [RwResult.reply, hw.error, hw.mem, hw.resid, hw.offset]
    · have hop := hw.op
      have hbytes : fileByte (v.filsys.setError 0).disk (v.files i).iAddr = (F i).byte := h.bytes i
      rw [hbytes, ← byte_write] at hop
      have hsize : ((F i).write start ((addresses iov).map mem)).size =
          max (v.files i).iSize (start + room iov) := by
        change max (F i).size (start + ((addresses iov).map mem).length) = _
        rw [List.length_map, length_addresses, (h.size i).1]
      have hlt : max (v.files i).iSize (start + room iov) < 2 ^ 31 :=
        max_lt ((h.size i).1 ▸ (h.size i).2) hrange
      exact h.update hop (hw.size.trans hsize.symm) (hsize ▸ hlt) rfl
  · exact .inr ⟨herr, Nat.lt_succ_of_le hlen⟩

/-- A call does what it does to the abstract file, or there were not enough blocks. -/
theorem exec_matches (h : v.Represents F l) (u : User) (i : ι) (stale : ℕ → Block) {c : FileCall}
    (hrange : c.InRange (v.files i).iSize) : v.Matches F u i stale c ∨
      ((v.exec u i stale c).1.error = enospc ∧ l.length < c.blocks (v.files i).iSize) := by
  cases c with
  | read mem iov offset => exact .inl (read_matches h u i stale mem iov offset)
  | write mem iov offset ioAppend => exact write_matches h u i stale mem iov offset ioAppend hrange
  | trunc length =>
    rcases trunc_matches h u i stale hrange with hm | ⟨herr, hlen⟩
    · exact .inl hm
    · exact .inr ⟨herr, Nat.lt_succ_of_le hlen⟩

theorem sparse_error_ne (u : User) (f : SparseFile) (c : FileCall) : (f.exec u c).1.error ≠ enospc := by
  cases c with
  | read | trunc => simp [SparseFile.exec, Reply.error, enospc]
  | write mem iov offset ioAppend =>
    simp only [SparseFile.exec]
    split_ifs <;> simp [Reply.error, enospc, eperm, efbig]

end Call

/-! ## Whole runs -/

/-- The files of a consistent volume behave as sparse byte arrays along every run of
reads, writes and truncations with enough blocks; and there are enough blocks as long
as the free list is longer than what a call can take. -/
theorem run_refines_sparse_files {v v' : Volume ι} {F : ι → SparseFile} {l : List ℕ}
    {es : List (FileEvent ι)} (h : v.Represents F l) (hrun : Run Volume.Step v es v') :
    ∃ F' l', Run SparseStep F es F' ∧ v'.Represents F' l' ∧
      ∀ u i stale c, FileCall.InRange (v'.files i).iSize c →
        c.blocks (v'.files i).iSize ≤ v'.filsys.fs.fsTfree → (v'.exec u i stale c).1.error ≠ enospc := by
  have hstep : ∀ (v : Volume ι) (e : FileEvent ι) (v' : Volume ι) (F : ι → SparseFile),
      (∃ l, v.Represents F l) → Volume.Step v e v' →
      ∃ F', SparseStep F e F' ∧ ∃ l', v'.Represents F' l' := by
    rintro v e v' F ⟨l, h⟩ ⟨hrange, hspace, stale, hexec⟩
    rcases exec_matches h e.user e.file stale hrange with ⟨hreply, l', hrep⟩ | ⟨herr, _⟩
    · rw [hexec] at hreply hrep
      exact ⟨_, ⟨hreply, rfl⟩, l', hrep⟩
    · rw [hexec] at herr
      exact absurd herr hspace
  obtain ⟨F', hrun', l', hrep⟩ := Run.simulation hstep hrun ⟨l, h⟩
  refine ⟨F', l', hrun', hrep, fun u i stale c hrange hblocks => ?_⟩
  rcases exec_matches hrep u i stale hrange with ⟨hreply, _⟩ | ⟨_, hlen⟩
  · rw [hreply]
    exact sparse_error_ne u (F' i) c
  · rw [hrep.consistent.count] at hblocks
    omega

def oneFile : Volume Unit :=
  ⟨[5, 6, 7, 8, 9].foldl (fun st b => free st b zeroBlock) fullVolume,
    fun _ => ⟨0o100644, 0, fun _ => 0, false, false⟩⟩

def emptyFile : SparseFile := ⟨0, fun _ => none, false, fun _ _ => rfl⟩

theorem oneFile_represents : oneFile.Represents (fun _ => emptyFile) [9, 8, 7, 6, 5] := by
  have hst : oneFile.filsys.Consistent [9, 8, 7, 6, 5] := by
    have h5 := free_spec fullVolume_consistent (show ¬ badblock _ 5 by decide) (by decide) zeroBlock
    have h6 := free_spec h5 (show ¬ badblock _ 6 by decide) (by decide) zeroBlock
    have h7 := free_spec h6 (show ¬ badblock _ 7 by decide) (by decide) zeroBlock
    have h8 := free_spec h7 (show ¬ badblock _ 8 by decide) (by decide) zeroBlock
    exact free_spec h8 (show ¬ badblock _ 9 by decide) (by decide) zeroBlock
  have hnone : ∀ n, n ∉ fileNodes oneFile.filsys.disk (fun _ => 0) := by
    intro n hn
    obtain ⟨r, _, hne, _⟩ := (mem_fileNodes_direct fun _ _ _ => rfl).1 hn
    exact hne rfl
  refine ⟨hst, by decide, fun _ => ⟨?_, ?_, ?_⟩, ?_, fun _ => ⟨?_, rfl⟩, fun _ => ⟨rfl, by decide⟩,
    fun _ => rfl, ?_⟩
  · exact fun n hn => absurd hn (hnone n)
  · exact fun n hn => absurd hn (hnone n)
  · exact fun n hn => absurd hn (hnone n)
  · exact fun i j hij => absurd rfl hij
  · change 0o100644 &&& 0o170000 = 0o100000
    decide
  · intro _
    funext off
    exact fileByte_of_hole fun b => hnone _

/-- A byte is written behind the end of the file; the next read returns zeros before
it and stops after it. -/
theorem run_refines_sparse_files_one_file : ∃ reply mem v',
    Run Volume.Step oneFile
      [⟨⟨2 ^ 20, 1⟩, (), .write (fun _ => 7) [⟨0, 1⟩] 5 false, reply⟩,
        ⟨⟨2 ^ 20, 1⟩, (), .read (fun _ => 1) [⟨0, 8⟩] 0, .rw 0 mem 6 2⟩] v' ∧
      oneFile.Represents (fun _ => emptyFile) [9, 8, 7, 6, 5] ∧ mem 4 = 0 ∧ mem 5 = 7 ∧ mem 6 = 1 := by
  set u : User := ⟨2 ^ 20, 1⟩ with hu
  set c₁ := FileCall.write (fun _ => 7) [⟨0, 1⟩] 5 false with hc₁
  set c₂ := FileCall.read (fun _ => 1) [⟨0, 8⟩] 0
  obtain ⟨r₁, v₁, h₁⟩ : ∃ r v, oneFile.exec u () (fun _ => zeroBlock) c₁ = (r, v) := ⟨_, _, rfl⟩
  obtain ⟨r₂, v₂, h₂⟩ : ∃ r v, v₁.exec u () (fun _ => zeroBlock) c₂ = (r, v) := ⟨_, _, rfl⟩
  have hrange : c₁.InRange (oneFile.files ()).iSize := by
    change 5 + 1 < 2 ^ 31
    decide
  have hm₁ : oneFile.Matches (fun _ => emptyFile) u () (fun _ => zeroBlock) c₁ := by
    apply (exec_matches oneFile_represents u () _ hrange).resolve_right
    rintro ⟨_, hlt⟩
    rw [hc₁] at hlt
    exact absurd hlt (by decide)
  obtain ⟨hr₁, l₁, hrep₁⟩ := hm₁
  rw [h₁] at hr₁ hrep₁
  have hr₂ := (read_matches hrep₁ u () (fun _ => zeroBlock) (fun _ => 1) [⟨0, 8⟩] 0).1
  rw [h₂] at hr₂
  have hrun : Run Volume.Step oneFile [⟨u, (), c₁, r₁⟩, ⟨u, (), c₂, r₂⟩] v₂ := by
    refine .cons ⟨hrange, ?_, _, h₁⟩ (.cons ⟨?_, ?_, _, h₂⟩ (.nil _))
    · rw [show r₁ = _ from hr₁]
      exact sparse_error_ne _ _ _
    · trivial
    · rw [show r₂ = _ from hr₂]
      exact sparse_error_ne _ _ _
  obtain ⟨F', -, hsparse, -⟩ := run_refines_sparse_files oneFile_represents hrun
  cases hsparse with
  | cons hs₁ hsparse =>
    cases hsparse with
    | cons hs₂ hsparse =>
      have hreply := hs₂.1
      rw [hs₁.2, hu] at hreply
      rw [hu, show r₂ = _ from hreply] at hrun
      exact ⟨r₁, _, v₂, hrun, oneFile_represents, rfl, rfl, rfl⟩

/-- A write of no bytes behind the end of the file, and one beyond the limit of the
process, end without moving the end of the file. -/
theorem size_kept_by_refused_write :
    oneFile.Represents (fun _ => emptyFile) [9, 8, 7, 6, 5] ∧
    (oneFile.exec ⟨2 ^ 20, 1⟩ () (fun _ => zeroBlock) (.write (fun _ => 7) [] 10 false)).1.error = 0 ∧
    ((oneFile.exec ⟨2 ^ 20, 1⟩ () (fun _ => zeroBlock)
      (.write (fun _ => 7) [] 10 false)).2.files ()).iSize ≠ max (oneFile.files ()).iSize (10 + 0) ∧
    (oneFile.exec ⟨2 ^ 20, 1⟩ () (fun _ => zeroBlock)
      (.write (fun _ => 7) [⟨0, 1⟩] (2 ^ 20) false)).1.error = efbig ∧
    ((oneFile.exec ⟨2 ^ 20, 1⟩ () (fun _ => zeroBlock)
      (.write (fun _ => 7) [⟨0, 1⟩] (2 ^ 20) false)).2.files ()).iSize ≠
        max (oneFile.files ()).iSize (2 ^ 20 + 1) := by
  refine ⟨oneFile_represents, ?_, ?_, ?_, ?_⟩
  all_goals
    decide

end RetroBSD.Ufs
