import RetroBSD.FileOffsets

/-!
# Sizes of files

The size of a regular file is not negative and no data block lies at or beyond its end, as
long as every offset and length that a call asks for is below `2 ^ 31`. The calls do not see
to this themselves: `lseek` sets any offset, the check for negative offsets in `rwip` is
commented out, `itrunc` takes its length as unsigned, and the end of a write can wrap around.
-/

namespace RetroBSD.Ufs

open LittleEndian RadixTree ByteCopy Runs Function Nat Files

def Below (st : Filsys) (ip : Inode) : Prop :=
  ∀ x b, ⟨0, x, b⟩ ∈ fileNodes st.disk ip.iAddr → x < blocksFor ip.iSize

/-- An operation on one file, after which its size and blocks are in order. -/
structure SizeOp (st st' : Filsys) (ip ip' : Inode) (l l' : List ℕ) : Prop where
  touches : Touches st st' l l' (fileNodes st.disk ip.iAddr) (fileNodes st'.disk ip'.iAddr)
  type : ip'.iMode &&& ifmt = ip.iMode &&& ifmt
  pipe : ip'.iPipe = ip.iPipe
  size : ip'.iSize < 2 ^ 31
  below : Below st' ip'

section OneFile

variable {st st' st₁ : Filsys} {ip ip' ip₁ : Inode} {l l' l₁ : List ℕ}

theorem SizeOp.refl (h : Ready st ip l) (hsize : ip.iSize < 2 ^ 31) (hbelow : Below st ip) :
    SizeOp st st ip ip l l :=
  ⟨Touches.refl h.consistent h.ok, rfl, rfl, hsize, hbelow⟩

theorem SizeOp.trans (h : SizeOp st st₁ ip ip₁ l l₁) (h1 : SizeOp st₁ st' ip₁ ip' l₁ l') :
    SizeOp st st' ip ip' l l' :=
  ⟨h.touches.trans h1.touches, h1.type.trans h.type, h1.pipe.trans h.pipe, h1.size, h1.below⟩

theorem bmap_below (h : Ready st ip l) (hbelow : Below st ip) {x : ℕ} (hx : x < maxBlocks) {clrbuf : Bool}
    {stale : Block} {v : ℤ} (hres : (v, ip₁, st₁) = bmap st ip x .write clrbuf stale) :
    (∃ r p, ip₁ = ip.setAddr r p) ∧
    ∃ l₁, Touches st st₁ l l₁ (fileNodes st.disk ip.iAddr) (fileNodes st₁.disk ip₁.iAddr) ∧
      (st₁.uError ≠ 0 ∨ v < 0 → Below st₁ ip₁) ∧
      (¬ (st₁.uError ≠ 0 ∨ v < 0) → ⟨0, x, v.toNat⟩ ∈ fileNodes st₁.disk ip₁.iAddr ∧
        ∀ y b, ⟨0, y, b⟩ ∈ fileNodes st₁.disk ip₁.iAddr → y = x ∨ y < blocksFor ip.iSize) := by
  obtain ⟨taken, l₁, -, hip, hg, hreach⟩ := bmap_write h.consistent h.ok hx clrbuf stale hres
  have hleaf : ∀ y b, ⟨0, y, b⟩ ∈ fileNodes st₁.disk ip₁.iAddr → y = x ∨ y < blocksFor ip.iSize := by
    intro y b hb
    by_cases hold : ⟨0, y, b⟩ ∈ fileNodes st.disk ip.iAddr
    · exact .inr (hbelow y b hold)
    · obtain ⟨-, hle, hlt⟩ := hg.new _ hb hold
      rw [pow_zero] at hlt
      dsimp only at hle hlt
      exact .inl (by omega)
  refine ⟨hip, l₁, hg.touches, fun hfail => ?_, fun hok => ⟨?_, hleaf⟩⟩
  · have hv : v = -1 := by
      rcases hreach with ⟨b, hb, hval, herr, -⟩ | ⟨hval, -, -⟩
      · have hgood := hg.ok.good _ hb
        have hfsize := h.fsize
        rw [badblock, hg.fsize] at hgood
        have hlt : b < 2 ^ 31 := by
          dsimp only at hgood
          omega
        have hvb : v = b := hval.trans (signed_of_lt hlt)
        have hzero : st₁.uError = 0 := herr.trans h.uError
        omega
      · exact hval
    intro y b hb
    obtain ⟨r, p, hip⟩ := hip
    have hsize : ip₁.iSize = ip.iSize := by
      rw [show ip₁ = _ from hip]
      rfl
    rcases hleaf y b hb with rfl | hlt
    · exact absurd hb ((bmap_fails h.consistent h.ok hx clrbuf stale hres).2 hv b)
    · rwa [hsize]
  · rcases hreach with ⟨b, hb, hval, -, -⟩ | ⟨hval, -, -⟩
    · have hvb : v = signed b := hval
      have hlt := lt_of_signed_nonneg (hg.ok.lt_wordMod hg.consistent hb) (show 0 ≤ signed b by omega)
      rw [signed_of_lt hlt] at hvb
      rw [hvb]
      exact hb
    · omega

theorem writeLoop_sizes (u : User) (stale : Block) (fuel : ℕ) (h : Ready st ip l) (hsize : ip.iSize < 2 ^ 31)
    (hbelow : Below st ip) (mem : Memory) (uio : Uio) (hroom : uio.uioResid ≤ (addresses uio.uioIov).length)
    (hend : uio.uioOffset + uio.uioResid < 2 ^ 31) (hpos : 0 < uio.uioResid) {res : RwResult}
    (hres : res = writeLoop u stale fuel st ip mem uio) :
    (∃ l', SizeOp st res.st ip res.ip l l') ∧
      res.uio.uioOffset + res.uio.uioResid = uio.uioOffset + uio.uioResid ∧ uio.uioOffset ≤ res.uio.uioOffset := by
  induction fuel generalizing st ip l mem uio with
  | zero =>
    rw [hres]
    exact ⟨⟨l, SizeOp.refl h hsize hbelow⟩, rfl, le_rfl⟩
  | succ fuel ih =>
    rw [writeLoop] at hres
    generalize hn : min (devBsize - uio.uioOffset % devBsize) uio.uioResid = n
    obtain ⟨v, ip₁, st₁, hbmap⟩ : ∃ v ip₁ st₁, (v, ip₁, st₁) =
      bmap st ip (uio.uioOffset / devBsize : ℕ) .write (n ≠ devBsize) stale := ⟨_, _, _, rfl⟩
    have hx : uio.uioOffset / devBsize < maxBlocks := by
      simp only [devBsize, maxBlocks, nindir]
      omega
    obtain ⟨⟨r, p, hip⟩, l₁, htouch, hfails, hmaps⟩ := bmap_below h hbelow hx hbmap
    simp only [hn, ← hbmap] at hres
    by_cases hfail : st₁.uError ≠ 0 ∨ v < 0
    · rw [if_pos hfail] at hres
      rw [hres]
      refine ⟨⟨l₁, htouch, by rw [hip]; rfl, by rw [hip]; rfl, ?_, hfails hfail⟩, rfl, le_rfl⟩
      rw [hip]
      exact hsize
    rw [if_neg hfail] at hres
    obtain ⟨hb, hleaf⟩ := hmaps hfail
    obtain ⟨uio1, hmove, haddr, hoff, hresid⟩ := uiomove_spec .write
      (if n = devBsize then stale else st₁.disk v.toNat) (uio.uioOffset % devBsize) n mem uio (by omega) hroom
    rw [hmove] at hres
    obtain ⟨data, hdata⟩ : ∃ data, data = (moved .write (if n = devBsize then stale else st₁.disk v.toNat)
      (uio.uioOffset % devBsize) mem ((addresses uio.uioIov).take n)).1 := ⟨_, rfl⟩
    obtain ⟨waddr, wpipe, -, wtype, wsize⟩ := written_spec ip₁ u uio.uioOffset n
    have hsize1 : ip₁.iSize = ip.iSize := by rw [hip]; rfl
    have hop : SizeOp st (st₁.write v.toNat data) ip (ip₁.written u uio.uioOffset n) l l₁ := by
      have hnodes : fileNodes (st₁.write v.toNat data).disk ip₁.iAddr = fileNodes st₁.disk ip₁.iAddr :=
        fileNodes_write htouch.ok hb data
      refine ⟨?_, ?_, ?_, ?_, ?_⟩
      · rw [waddr]
        exact htouch.trans (touches_write htouch.consistent htouch.ok hb data)
      · rw [wtype, hip]
        rfl
      · rw [wpipe, hip]
        rfl
      · omega
      · intro y b hyb
        rw [waddr, hnodes] at hyb
        rcases hleaf y b hyb with rfl | hlt
        · simp only [blocksFor, devBsize] at *
          omega
        · simp only [blocksFor, devBsize] at *
          omega
    have herr1 : st₁.uError = 0 := by
      by_contra hne
      exact hfail (.inl hne)
    have hready : Ready (st₁.write v.toNat data) (ip₁.written u uio.uioOffset n) l₁ :=
      ⟨hop.touches.consistent, hop.touches.ok, by rw [hop.touches.fsize]; exact h.fsize, herr1⟩
    rw [← hdata] at hres
    by_cases hmore : uio1.uioResid ≠ 0 ∧ n ≠ 0
    · rw [if_pos hmore] at hres
      have hroom1 : uio1.uioResid ≤ (addresses uio1.uioIov).length := by
        rw [haddr, List.length_drop]
        omega
      obtain ⟨⟨l', hop'⟩, hsum, hle⟩ := ih hready hop.size hop.below _ uio1 hroom1 (by omega)
        (pos_of_ne_zero hmore.1) hres
      exact ⟨⟨l', hop.trans hop'⟩, by omega, by omega⟩
    · rw [if_neg hmore] at hres
      rw [hres]
      refine ⟨⟨l₁, hop⟩, ?_, ?_⟩
      · dsimp only
        omega
      · dsimp only
        omega

theorem itrunc_sizes (h : Ready st ip l) (hsize : ip.iSize < 2 ^ 31) (hbelow : Below st ip)
    (hpipe : ip.iPipe = false) {length : ℕ} (hlen : length < 2 ^ 31) (stale : ℕ → Block)
    (hres : (ip', st') = itrunc st ip length stale) : ∃ l', SizeOp st st' ip ip' l l' := by
  rcases itrunc_cases h hpipe hlen stale hres with ⟨x, v, hx, hbmap, hfail⟩ |
    ⟨x, v, ip₁, rfl, hx, hgrow, hbmap, hfail, rfl⟩ | ⟨-, rfl, rfl⟩ | ⟨hshrink, htail⟩
  · obtain ⟨⟨r, p, hip⟩, l₁, htouch, hfails, -⟩ := bmap_below h hbelow hx hbmap
    refine ⟨l₁, htouch, by rw [hip]; rfl, by rw [hip]; rfl, ?_, hfails hfail⟩
    rw [hip]
    exact hsize
  · obtain ⟨⟨r, p, hip⟩, l₁, htouch, -, hmaps⟩ := bmap_below h hbelow hx hbmap
    refine ⟨l₁, htouch, by rw [hip]; rfl, by rw [hip]; rfl, hlen, ?_⟩
    intro y b hb
    change y < blocksFor length
    rcases (hmaps hfail).2 y b hb with rfl | hlt
    · simp only [blocksFor, devBsize]
      omega
    · simp only [blocksFor, devBsize] at *
      omega
  · exact ⟨l, SizeOp.refl h hsize hbelow⟩
  · obtain ⟨ip₁, st₁, iAddr1, st2, taken, rest, freed, hit, ⟨hsz, hpipe', hmode, -⟩, htc, hfc⟩ :=
      itrunc_shrink h.consistent h.ok hlen (by rw [if_neg (by simp [hpipe])]; exact hshrink) stale htail
    rw [hit] at hres
    obtain ⟨rfl, rfl⟩ := hres
    refine ⟨freed ++ rest, htc.touches.trans (hfc.touches htc.ok), by rw [hmode], hpipe', by omega, ?_⟩
    intro y b hb
    rw [hfc.nodes] at hb
    rw [hsz]
    exact hb.2

end OneFile

/-! ## The files of a volume -/

variable {ι κ : Type*}

/-- A consistent volume of regular files, none with a block at or beyond its end. -/
structure Files.Bounded (s : Files ι κ) (l : List ℕ) : Prop where
  consistent : s.volume.filsys.Consistent l
  fsize : s.volume.filsys.fs.fsFsize ≤ 2 ^ 31
  tree : ∀ i, TreeOk s.volume.filsys.fs l (fileNodes s.volume.filsys.disk (s.volume.files i).iAddr)
  apart : ∀ i j, i ≠ j → ∀ n ∈ fileNodes s.volume.filsys.disk (s.volume.files i).iAddr,
    ∀ m ∈ fileNodes s.volume.filsys.disk (s.volume.files j).iAddr, n.block ≠ m.block
  regular : ∀ i, (s.volume.files i).iMode &&& ifmt = ifreg ∧ (s.volume.files i).iPipe = false
  size : ∀ i, (s.volume.files i).iSize < 2 ^ 31
  below : ∀ i, Below s.volume.filsys (s.volume.files i)
  offset : ∀ fd, ∀ fp ∈ s.ofile fd, fp.fOffset < 2 ^ 31

def Files.start (s : Files ι κ) (fp : OpenFile ι) : ℕ :=
  if fp.fAppend then (s.volume.files fp.fData).iSize else fp.fOffset

/-- The offset or the length that the call asks for is negative, as a signed number. -/
def SysCall.OutOfRange (s : Files ι κ) : SysCall ι κ → Prop
  | .copen _ _ _ _ _ _ => False
  | .lseek fd off sbase => ∃ fp ∈ s.ofile fd,
      ∃ w ∈ seekOffset fp.fOffset (s.volume.files fp.fData).iSize off sbase, signed w < 0
  | .read fd _ _ => ∃ fp ∈ s.ofile fd, signed fp.fOffset < 0
  | .write fd _ iov => ∃ fp ∈ s.ofile fd, 2 ^ 31 ≤ s.start fp + room iov % wordMod
  | .truncate _ length => length.toInt < 0
  | .ftruncate _ length => length.toInt < 0

/-- One of the checks that the call does make turns it down. -/
def SysCall.Refused (c : Caller ι) (s : Files ι κ) : SysCall ι κ → Prop
  | .copen _ _ _ _ _ _ => False
  | .lseek _ _ _ => False
  | .read fd _ _ => ∀ fp ∈ s.ofile fd, fp.fRead = false
  | .write fd _ iov => ∀ fp ∈ s.ofile fd, fp.fWrite = false ∨
      (s.volume.files fp.fData).iAppend ∧ s.start fp ≠ (s.volume.files fp.fData).iSize ∨
      c.user.fsizeCur < (s.start fp + room iov % wordMod) % wordMod
  | .truncate i _ => c.mayWrite i = false ∨ (s.volume.files i).iAppend
  | .ftruncate fd _ => ∀ fp ∈ s.ofile fd, fp.fWrite = false ∨ (s.volume.files fp.fData).iAppend

structure SysEvent (ι κ : Type*) where
  caller : Caller ι
  call : SysCall ι κ
  reply : SysReply

section Calls

variable {s : Files ι κ} {l l' : List ℕ} {i : ι} {fd : κ} {c : Caller ι} {fp : OpenFile ι}

theorem Files.Bounded.ready (h : s.Bounded l) (i : ι) :
    Ready (s.volume.filsys.setError 0) (s.volume.files i) l :=
  ⟨⟨h.consistent.listed, h.consistent.isize_pos, h.consistent.fsize_lt, h.consistent.valid,
    h.consistent.nodup, h.consistent.count⟩, h.tree i, h.fsize, rfl⟩

variable [DecidableEq ι]

theorem Files.Bounded.setFile (h : s.Bounded l) {st' : Filsys} {ip' : Inode}
    (hop : SizeOp (s.volume.filsys.setError 0) st' (s.volume.files i) ip' l l') :
    (s.setFile i st' ip').Bounded l' := by
  obtain ⟨htree, hapart, hother⟩ := hop.touches.files h.tree h.apart
  have hself : update s.volume.files i ip' i = ip' := update_self ..
  refine ⟨hop.touches.consistent, ?_, htree, hapart, ?_, ?_, ?_, h.offset⟩
  · exact hop.touches.fsize.trans_le h.fsize
  · intro j
    by_cases hj : j = i
    · subst hj
      simp only [Files.setFile, hself]
      exact ⟨hop.type.trans (h.regular j).1, hop.pipe.trans (h.regular j).2⟩
    · simp only [Files.setFile, update_of_ne hj]
      exact h.regular j
  · intro j
    by_cases hj : j = i
    · subst hj
      simp only [Files.setFile, hself]
      exact hop.size
    · simp only [Files.setFile, update_of_ne hj]
      exact h.size j
  · intro j
    by_cases hj : j = i
    · subst hj
      simp only [Files.setFile, hself]
      exact hop.below
    · simp only [Files.setFile, update_of_ne hj]
      intro x b hb
      have hnodes := (hother j hj).1
      rw [hnodes] at hb
      exact h.below j x b hb

theorem Files.Bounded.same (h : s.Bounded l) (i : ι) :
    (s.setFile i (s.volume.filsys.setError 0) (s.volume.files i)).Bounded l :=
  h.setFile (SizeOp.refl (h.ready i) (h.size i) (h.below i))

theorem setattr_bounded (h : s.Bounded l) (i : ι) {length : BitVec 32} (hlen : 0 ≤ length.toInt)
    (stale : ℕ → Block) {r : ℕ × Inode × Filsys}
    (hr : r = setattr (s.volume.filsys.setError 0) (s.volume.files i) length stale) :
    ∃ l', (s.setFile i r.2.2 r.2.1).Bounded l' := by
  rw [setattr] at hr
  split_ifs at hr
  · rw [hr]
    exact ⟨l, h.same i⟩
  · rw [hr]
    exact ⟨l, h.same i⟩
  · rw [hr]
    exact ⟨l, h.same i⟩
  · have hlt : length.toNat < 2 ^ 31 := by
      rw [BitVec.toInt] at hlen
      split_ifs at hlen with hsmall
      · omega
      · have := length.isLt
        omega
    rw [hr]
    obtain ⟨l', hop⟩ := itrunc_sizes (h.ready i) (h.size i) (h.below i) (h.regular i).2 hlt stale rfl
    exact ⟨l', h.setFile hop⟩

variable [DecidableEq κ]

def Files.Step (s : Files ι κ) (e : SysEvent ι κ) (s' : Files ι κ) : Prop :=
  ∃ stale, s.exec e.caller stale e.call = (e.reply, s')

/-- A call that asks for no negative offset or length, or is turned down anyway. -/
def Files.SafeStep (s : Files ι κ) (e : SysEvent ι κ) (s' : Files ι κ) : Prop :=
  (e.call.OutOfRange s → e.call.Refused e.caller s) ∧ s.Step e s'

omit [DecidableEq ι] in
theorem Files.Bounded.setOpen (h : s.Bounded l) (hoff : fp.fOffset < 2 ^ 31) :
    (s.setOpen fd fp).Bounded l := by
  refine ⟨h.consistent, h.fsize, h.tree, h.apart, h.regular, h.size, h.below, ?_⟩
  intro fd' fp' hfp'
  simp only [Files.setOpen] at hfp'
  by_cases hfd : fd' = fd
  · subst hfd
    rw [update_self, Option.mem_some_iff] at hfp'
    rwa [← hfp']
  · rw [update_of_ne hfd] at hfp'
    exact h.offset fd' fp' hfp'

/-! ## One call -/

theorem copen_bounded (h : s.Bounded l) (c : Caller ι) (stale : ℕ → Block) (fd : κ) (i : ι)
    (read write append trunc : Bool) : ∃ l', (s.copen c stale fd i read write append trunc).2.Bounded l' := by
  unfold copen
  dsimp only
  split
  · exact ⟨l, h⟩
  split
  · exact ⟨l, h⟩
  split
  · exact ⟨l, h⟩
  split
  · exact ⟨l, h⟩
  cases trunc with
  | false =>
    have hsame : s.setFile i s.volume.filsys (s.volume.files i) = s := by
      rw [Files.setFile, update_eq_self]
    refine ⟨l, Bounded.setOpen ?_ (show 0 < 2 ^ 31 by decide)⟩
    simp only [Bool.false_eq_true, if_false]
    rw [hsame]
    exact h
  | true =>
    obtain ⟨l', hop⟩ := itrunc_sizes (h.ready i) (h.size i) (h.below i) (h.regular i).2
      (show 0 < 2 ^ 31 by decide) stale rfl
    exact ⟨l', (h.setFile hop).setOpen (show 0 < 2 ^ 31 by decide)⟩

variable (h : s.Bounded l)
include h

omit [DecidableEq ι] in
theorem lseek_bounded {off : BitVec 32} {sbase : ℤ}
    (hrange : ¬ (SysCall.lseek fd off sbase).OutOfRange s) : (s.lseek fd off sbase).2.Bounded l := by
  unfold lseek
  cases hfd : s.ofile fd with
  | none => exact h
  | some fp =>
    dsimp only
    cases hseek : seekOffset fp.fOffset (s.volume.files fp.fData).iSize off sbase with
    | none => exact h
    | some w =>
      refine h.setOpen ?_
      change w < 2 ^ 31
      by_contra hlt
      apply hrange
      refine ⟨fp, hfd, w, hseek, ?_⟩
      have hword : w < 2 ^ 32 := by
        have hoff := off.isLt
        rw [seekOffset] at hseek
        split_ifs at hseek
        · rw [← Option.some.inj hseek]
          exact mod_lt _ (by decide)
        · rw [← Option.some.inj hseek]
          exact mod_lt _ (by decide)
        · rw [← Option.some.inj hseek]
          exact hoff
      rw [signed, if_neg hlt]
      omega

theorem read_bounded (c : Caller ι) (stale : ℕ → Block) (fd : κ) (mem : Memory)
    (iov : List Iovec) : (s.rwuio c stale .read fd mem iov).2.Bounded l := by
  unfold rwuio
  cases hfd : s.ofile fd with
  | none => exact h
  | some fp =>
    dsimp only
    split
    · exact h
    have hoff := h.offset fd fp hfd
    have hsize := h.size fp.fData
    have hroom := resid_le_addresses iov fp.fOffset
    obtain ⟨uio', hread, -, hresid⟩ := rwip_read (h.ready fp.fData) hsize c.user false (stale 0) mem
      ⟨iov, fp.fOffset, room iov % wordMod⟩ hroom rfl
    have hword : Words.rwip c.user (s.volume.filsys.setError 0) (s.volume.files fp.fData) .read false (stale 0)
        mem ⟨iov, fp.fOffset, room iov % wordMod⟩ = _ := words_rwip_read c.user false (stale 0) hsize hoff hroom
    simp only [reduceCtorEq, decide_false, Bool.false_and, hword, hread]
    refine (h.same fp.fData).setOpen ?_
    have hle : fp.fOffset + (room iov % wordMod - uio'.uioResid) < 2 ^ 31 := by
      rw [hresid]
      dsimp only
      omega
    exact (mod_le _ _).trans_lt hle

theorem rwuio_write (c : Caller ι) (stale : ℕ → Block) (hfd : s.ofile fd = some fp)
    (hwrite : fp.fWrite = true) (mem : Memory) (iov : List Iovec) {ip : Inode}
    {start count : ℕ} (hip : ip = s.volume.files fp.fData) (hstart : start = s.start fp)
    (hcount : count = room iov % wordMod) :
    ∃ r, s.rwuio c stale .write fd mem iov = (⟨r.error, count - r.uio.uioResid⟩,
        (s.setFile fp.fData r.st r.ip).setOpen fd (fp.setOffset
          (if fp.fAppend then r.uio.uioOffset else (fp.fOffset + (count - r.uio.uioResid)) % wordMod))) ∧
      r = if ip.iAppend ∧ start ≠ ip.iSize then
          ⟨eperm, ip, s.volume.filsys.setError 0, mem, ⟨iov, start, count⟩⟩
        else if count = 0 then ⟨0, ip, s.volume.filsys.setError 0, mem, ⟨iov, start, count⟩⟩
        else if c.user.fsizeCur < (start + count) % wordMod then
          ⟨efbig, ip, s.volume.filsys.setError 0, mem, ⟨iov, start, count⟩⟩
        else Words.writeLoop c.user (stale 0) count (s.volume.filsys.setError 0) ip mem ⟨iov, start, count⟩ := by
  have hreg : ip.iMode &&& ifmt = ifreg := hip ▸ (h.regular fp.fData).1
  have hstart' : start = if fp.fAppend then ip.iSize else fp.fOffset := by
    rw [hstart, hip]
    rfl
  refine ⟨_, ?_, words_rwip_write c.user (s.volume.filsys.setError 0) hreg fp.fAppend (stale 0) mem iov
    fp.fOffset count hstart'⟩
  rw [rwuio, hfd]
  dsimp only
  rw [if_neg (by simp [hwrite]), ← hip, ← hcount, hreg]
  simp only [decide_true, Bool.true_and]

theorem write_refused (c : Caller ι) (stale : ℕ → Block) (hfd : s.ofile fd = some fp)
    (hwrite : fp.fWrite = true) (mem : Memory) (iov : List Iovec)
    (href : (s.volume.files fp.fData).iAppend ∧ s.start fp ≠ (s.volume.files fp.fData).iSize ∨
      room iov % wordMod = 0 ∨ c.user.fsizeCur < (s.start fp + room iov % wordMod) % wordMod) :
    ∃ e offset, s.rwuio c stale .write fd mem iov = (⟨e, 0⟩,
        (s.setFile fp.fData (s.volume.filsys.setError 0) (s.volume.files fp.fData)).setOpen fd
          (fp.setOffset offset)) ∧ offset < 2 ^ 31 ∧ (room iov % wordMod ≠ 0 → e ≠ 0) := by
  obtain ⟨r, hrw, hr⟩ := rwuio_write h c stale hfd hwrite mem iov rfl rfl rfl
  obtain ⟨e, hr, he⟩ : ∃ e, r = ⟨e, s.volume.files fp.fData, s.volume.filsys.setError 0, mem,
      ⟨iov, s.start fp, room iov % wordMod⟩⟩ ∧ (room iov % wordMod ≠ 0 → e ≠ 0) := by
    by_cases hperm : (s.volume.files fp.fData).iAppend ∧ s.start fp ≠ (s.volume.files fp.fData).iSize
    · rw [if_pos hperm] at hr
      exact ⟨eperm, hr, fun _ => by decide⟩
    rw [if_neg hperm] at hr
    by_cases hzero : room iov % wordMod = 0
    · rw [if_pos hzero] at hr
      exact ⟨0, hr, absurd hzero⟩
    · rw [if_neg hzero, if_pos ((href.resolve_left hperm).resolve_left hzero)] at hr
      exact ⟨efbig, hr, fun _ => by decide⟩
  have hoff := h.offset fd fp hfd
  have hsize := h.size fp.fData
  rw [hr] at hrw
  rw [Nat.sub_self] at hrw
  refine ⟨e, _, hrw, ?_, he⟩
  cases happend : fp.fAppend with
  | true =>
    rw [start, if_pos happend]
    exact hsize
  | false => exact (mod_le _ _).trans_lt hoff

theorem write_bounded (c : Caller ι) (stale : ℕ → Block) (fd : κ) (mem : Memory) (iov : List Iovec)
    (hsafe : (SysCall.write fd mem iov).OutOfRange s → (SysCall.write fd mem iov).Refused c s) :
    ∃ l', (s.rwuio c stale .write fd mem iov).2.Bounded l' := by
  cases hfd : s.ofile fd with
  | none =>
    rw [rwuio, hfd]
    exact ⟨l, h⟩
  | some fp =>
    cases hwrite : fp.fWrite with
    | false =>
      rw [rwuio, hfd]
      simp only [hwrite]
      exact ⟨l, h⟩
    | true =>
      by_cases href : (s.volume.files fp.fData).iAppend ∧ s.start fp ≠ (s.volume.files fp.fData).iSize ∨
          room iov % wordMod = 0 ∨ c.user.fsizeCur < (s.start fp + room iov % wordMod) % wordMod
      · obtain ⟨e, offset, hrw, hoffset, -⟩ := write_refused h c stale hfd hwrite mem iov href
        rw [hrw]
        exact ⟨l, (h.same fp.fData).setOpen hoffset⟩
      · obtain ⟨r, hrw, hr⟩ := rwuio_write h c stale hfd hwrite mem iov rfl rfl rfl
        rw [not_or, not_or] at href
        obtain ⟨hperm, hzero, hlimit⟩ := href
        have hend : s.start fp + room iov % wordMod < 2 ^ 31 := by
          by_contra hge
          rcases hsafe ⟨fp, hfd, not_lt.1 hge⟩ fp hfd with hno | hap | hlim
          · rw [hwrite] at hno
            exact Bool.noConfusion hno
          · exact hperm hap
          · exact hlimit hlim
        have hsize := h.size fp.fData
        have hroom := resid_le_addresses iov (s.start fp)
        rw [if_neg hperm, if_neg hzero, if_neg hlimit, words_writeLoop c.user (stale 0) _ hsize hend hroom] at hr
        obtain ⟨⟨l', hop⟩, hsum, hle⟩ := writeLoop_sizes c.user (stale 0) _ (h.ready fp.fData) hsize
          (h.below fp.fData) mem _ hroom hend (pos_of_ne_zero hzero) hr
        rw [hrw]
        refine ⟨l', (h.setFile hop).setOpen ?_⟩
        change (if fp.fAppend then r.uio.uioOffset else
          (fp.fOffset + (room iov % wordMod - r.uio.uioResid)) % wordMod) < 2 ^ 31
        dsimp only at hsum hle
        cases happend : fp.fAppend with
        | true =>
          rw [if_pos rfl]
          omega
        | false =>
          have hstart : s.start fp = fp.fOffset := by
            rw [start, happend]
            rfl
          refine (mod_le _ _).trans_lt ?_
          omega

theorem exec_bounded (c : Caller ι) (stale : ℕ → Block) {call : SysCall ι κ}
    (hsafe : call.OutOfRange s → call.Refused c s) : ∃ l', (s.exec c stale call).2.Bounded l' := by
  cases call with
  | copen fd i read write append trunc => exact copen_bounded h c stale fd i read write append trunc
  | lseek fd off sbase => exact ⟨l, lseek_bounded h hsafe⟩
  | read fd mem iov => exact ⟨l, read_bounded h c stale fd mem iov⟩
  | write fd mem iov => exact write_bounded h c stale fd mem iov hsafe
  | truncate i length =>
    rw [exec, truncate]
    split
    · exact ⟨l, h⟩
    · rename_i hmay
      by_cases hlen : 0 ≤ length.toInt
      · exact setattr_bounded h i hlen stale rfl
      · have happend := (hsafe (not_le.1 hlen)).resolve_left hmay
        rw [setattr, if_pos happend]
        exact ⟨l, h.same i⟩
  | ftruncate fd length =>
    rw [exec, ftruncate]
    cases hfd : s.ofile fd with
    | none => exact ⟨l, h⟩
    | some fp =>
      dsimp only
      split
      · exact ⟨l, h⟩
      · rename_i hwrite
        by_cases hlen : 0 ≤ length.toInt
        · exact setattr_bounded h fp.fData hlen stale rfl
        · have happend := (hsafe (not_le.1 hlen) fp hfd).resolve_left hwrite
          rw [setattr, if_pos happend]
          exact ⟨l, h.same fp.fData⟩

theorem exec_refused (c : Caller ι) (stale : ℕ → Block) {call : SysCall ι κ}
    (hout : call.OutOfRange s) (href : call.Refused c s) :
    (s.exec c stale call).1.error ≠ 0 ∧ (s.exec c stale call).2.volume.files = s.volume.files ∧
      (s.exec c stale call).2.volume.filsys.disk = s.volume.filsys.disk := by
  cases call with
  | copen fd i read write append trunc => exact hout.elim
  | lseek fd off sbase => exact href.elim
  | read fd mem iov =>
    obtain ⟨fp, hfd, hneg⟩ := hout
    have hlt := h.offset fd fp hfd
    rw [signed_of_lt hlt] at hneg
    omega
  | write fd mem iov =>
    obtain ⟨fp, hfd, hge⟩ := hout
    rw [exec]
    rcases href fp hfd with hno | href
    · rw [rwuio, show s.ofile fd = some fp from hfd]
      dsimp only
      rw [if_pos hno]
      exact ⟨show ebadf ≠ 0 by decide, rfl, rfl⟩
    cases hwrite : fp.fWrite with
    | false =>
      rw [rwuio, show s.ofile fd = some fp from hfd]
      dsimp only
      rw [if_pos hwrite]
      exact ⟨show ebadf ≠ 0 by decide, rfl, rfl⟩
    | true =>
      obtain ⟨e, offset, hrw, -, he⟩ := write_refused h c stale hfd hwrite mem iov (href.imp id .inr)
      have hstart : s.start fp < 2 ^ 31 := by
        rw [start]
        split
        · exact h.size fp.fData
        · exact h.offset fd fp hfd
      rw [hrw]
      exact ⟨he (by omega), update_eq_self _ _, rfl⟩
  | truncate i length =>
    rw [exec, truncate]
    split
    · exact ⟨show eacces ≠ 0 by decide, rfl, rfl⟩
    · rename_i hmay
      rw [setattr, if_pos (href.resolve_left hmay)]
      exact ⟨show eperm ≠ 0 by decide, update_eq_self _ _, rfl⟩
  | ftruncate fd length =>
    rw [exec, ftruncate]
    cases hfd : s.ofile fd with
    | none => exact ⟨show ebadf ≠ 0 by decide, rfl, rfl⟩
    | some fp =>
      dsimp only
      split
      · exact ⟨show einval ≠ 0 by decide, rfl, rfl⟩
      · rename_i hwrite
        rw [setattr, if_pos ((href fp hfd).resolve_left hwrite)]
        exact ⟨show eperm ≠ 0 by decide, update_eq_self _ _, rfl⟩

end Calls

/-! ## Whole runs -/

section Runs

variable [DecidableEq ι] [DecidableEq κ]

theorem run_bounded {s s' : Files ι κ} {l : List ℕ} {es : List (SysEvent ι κ)} (h : s.Bounded l)
    (hrun : Run SafeStep s es s') : ∃ l', s'.Bounded l' := by
  refine Run.invariant (I := fun s : Files ι κ => ∃ l, s.Bounded l) ?_ hrun ⟨l, h⟩
  rintro s e s' ⟨l, h⟩ ⟨hsafe, stale, hexec⟩
  have hnext := exec_bounded h e.caller stale hsafe
  rwa [hexec] at hnext

/-- As long as each call that asks for a negative offset or length is turned down by the
checks that there are, the sizes stay non-negative, no data block lies at or beyond the end of
its file, and the calls turned down change nothing. -/
theorem sizes_nonneg_of_safe {s s' : Files ι κ} {l : List ℕ} {es : List (SysEvent ι κ)} (h : s.Bounded l)
    (hrun : Run SafeStep s es s') :
    (∀ i, 0 ≤ signed (s'.volume.files i).iSize ∧ ∀ bn, blocksFor (s'.volume.files i).iSize ≤ bn →
      blockOf s'.volume.filsys.disk (s'.volume.files i).iAddr bn = 0) ∧
    ∀ e s'', SafeStep s' e s'' → e.call.OutOfRange s' → e.reply.error ≠ 0 ∧
      s''.volume.files = s'.volume.files ∧ s''.volume.filsys.disk = s'.volume.filsys.disk := by
  obtain ⟨l', h'⟩ := run_bounded h hrun
  refine ⟨fun i => ⟨?_, fun bn hbn => ?_⟩, ?_⟩
  · rw [signed_of_lt (h'.size i)]
    exact Int.natCast_nonneg _
  · by_contra hne
    exact absurd (h'.below i bn _ (mem_fileNodes_iff.2 ⟨hne, rfl⟩)) (not_lt.2 hbn)
  · rintro e s'' ⟨hsafe, stale, hexec⟩ hout
    have hsame := exec_refused h' e.caller stale hout (hsafe hout)
    rwa [hexec] at hsame

def oneOpen : Files Unit Unit := ⟨oneFile, fun _ => some ⟨(), 0, true, true, false⟩⟩

theorem oneOpen_bounded : oneOpen.Bounded [9, 8, 7, 6, 5] := by
  have hrep := oneFile_represents
  refine ⟨hrep.consistent, hrep.fsize, hrep.tree, hrep.apart, hrep.regular, fun i => ?_, ?_, ?_⟩
  · exact (hrep.size i).2
  · intro i x b hb
    obtain ⟨r, _, hne, _⟩ := (mem_fileNodes_direct fun _ _ _ => rfl).1 hb
    exact absurd rfl hne
  · intro fd fp hfp
    rw [← Option.some.inj hfp]
    decide

def someone : Caller Unit := ⟨⟨2 ^ 31 - 1, 1⟩, fun _ => true, fun _ => true⟩

/-- The file is extended to five bytes and its offset set to 3. -/
theorem sizes_nonneg_of_safe_five : ∃ s', Run SafeStep oneOpen
    [⟨someone, .ftruncate () 5, ⟨0, 0⟩⟩, ⟨someone, .lseek () 3 0, ⟨0, 3⟩⟩] s' ∧ oneOpen.Bounded [9, 8, 7, 6, 5] ∧
    0 ≤ signed (s'.volume.files ()).iSize ∧ ∀ bn, blocksFor (s'.volume.files ()).iSize ≤ bn →
      blockOf s'.volume.filsys.disk (s'.volume.files ()).iAddr bn = 0 := by
  set s₁ := (oneOpen.exec someone (fun _ => zeroBlock) (.ftruncate () 5)).2
  have htrunc : oneOpen.SafeStep ⟨someone, .ftruncate () 5, ⟨0, 0⟩⟩ s₁ := by
    refine ⟨fun hneg => absurd hneg (show ¬ (5 : BitVec 32).toInt < 0 by decide), fun _ => zeroBlock, ?_⟩
    refine Prod.ext ?_ rfl
    decide +kernel
  have hopen : s₁.ofile () = some ⟨(), 0, true, true, false⟩ := rfl
  set s₂ := (s₁.exec someone (fun _ => zeroBlock) (.lseek () 3 0)).2
  have hseek : s₁.SafeStep ⟨someone, .lseek () 3 0, ⟨0, 3⟩⟩ s₂ := by
    refine ⟨?_, fun _ => zeroBlock, ?_⟩
    · rintro ⟨fp, -, w, hw, hneg⟩
      rw [← Option.some.inj hw] at hneg
      exact absurd hneg (by decide)
    · rw [exec, lseek, hopen]
      rfl
  have hrun : Run SafeStep oneOpen
      [⟨someone, .ftruncate () 5, ⟨0, 0⟩⟩, ⟨someone, .lseek () 3 0, ⟨0, 3⟩⟩] s₂ :=
    .cons htrunc (.cons hseek (.nil _))
  exact ⟨s₂, hrun, oneOpen_bounded, (sizes_nonneg_of_safe oneOpen_bounded hrun).1 ()⟩

/-- `ftruncate` to -2 succeeds and leaves a negative size. `lseek` to -1 succeeds too; a byte
written there goes into a block beyond the end of the file. -/
theorem negative_requests_accepted :
    oneOpen.Bounded [9, 8, 7, 6, 5] ∧
    (∃ s', Run Step oneOpen [⟨someone, .ftruncate () (-2), ⟨0, 0⟩⟩] s' ∧
      signed (s'.volume.files ()).iSize < 0) ∧
    ∃ s', Run Step oneOpen [⟨someone, .lseek () (-1) 0, ⟨0, 2 ^ 32 - 1⟩⟩,
        ⟨someone, .write () (fun _ => 7) [⟨0, 1⟩], ⟨0, 1⟩⟩] s' ∧
      (s'.volume.files ()).iSize = 0 ∧ blockOf s'.volume.filsys.disk (s'.volume.files ()).iAddr 4194303 ≠ 0 := by
  refine ⟨oneOpen_bounded, ⟨_, .cons ⟨fun _ => zeroBlock, Prod.ext ?_ rfl⟩ (.nil _), ?_⟩,
    ⟨_, .cons ⟨fun _ => zeroBlock, Prod.ext ?_ rfl⟩ (.cons ⟨fun _ => zeroBlock, Prod.ext ?_ rfl⟩ (.nil _)), ?_, ?_⟩⟩
  all_goals decide +kernel

end Runs

end RetroBSD.Ufs
