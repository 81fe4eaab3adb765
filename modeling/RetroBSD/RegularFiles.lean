import RetroBSD.FileContents
import RetroBSD.UserBuffers

/-!
# Calls on one regular file

What `rwip` and `itrunc` do to the bytes and the size of the file they are called
for. `FileOp` says that the bytes are now `f'` and that only blocks of this file and
free blocks were used.
-/

namespace RetroBSD.Ufs

open LittleEndian RadixTree ByteCopy List Nat

structure FileOp (st st' : Filsys) (ip ip' : Inode) (l l' : List ℕ) (f' : ℕ → UInt8) : Prop where
  touches : Touches st st' l l' (fileNodes st.disk ip.iAddr) (fileNodes st'.disk ip'.iAddr)
  bytes : fileByte st'.disk ip'.iAddr = f'
  type : ip'.iMode &&& ifmt = ip.iMode &&& ifmt
  pipe : ip'.iPipe = ip.iPipe
  append : ip'.iAppend = ip.iAppend
  uError : st'.uError = 0

structure Ready (st : Filsys) (ip : Inode) (l : List ℕ) : Prop where
  consistent : st.Consistent l
  ok : TreeOk st.fs l (fileNodes st.disk ip.iAddr)
  fsize : st.fs.fsFsize ≤ 2 ^ 31
  uError : st.uError = 0

section FileOp

variable {st st' st₁ : Filsys} {ip ip' ip₁ : Inode} {l l' l₁ : List ℕ} {f f' : ℕ → UInt8}

theorem FileOp.ready (h : FileOp st st' ip ip' l l' f') (hr : Ready st ip l) : Ready st' ip' l' :=
  ⟨h.touches.consistent, h.touches.ok, by rw [h.touches.fsize]; exact hr.fsize, h.uError⟩

theorem FileOp.refl (h : Ready st ip l) : FileOp st st ip ip l l (fileByte st.disk ip.iAddr) :=
  ⟨Touches.refl h.consistent h.ok, rfl, rfl, rfl, rfl, h.uError⟩

theorem FileOp.trans (h : FileOp st st₁ ip ip₁ l l₁ f) (h1 : FileOp st₁ st' ip₁ ip' l₁ l' f') :
    FileOp st st' ip ip' l l' f' :=
  ⟨h.touches.trans h1.touches, h1.bytes, h1.type.trans h.type, h1.pipe.trans h.pipe,
    h1.append.trans h.append, h1.uError⟩

end FileOp

section Read

variable {st : Filsys} {ip : Inode} {l : List ℕ}

theorem read_buffer (h : Ready st ip l) {bn : ℕ} (hbn : bn < maxBlocks) :
    ∃ v, bmap st ip bn .read false zeroBlock = (v, ip, st) ∧
      ∀ j, j < devBsize → (if v < 0 then zeroBlock else st.disk v.toNat) j =
        fileByte st.disk ip.iAddr (bn * devBsize + j) := by
  have hdiv : ∀ j, j < devBsize → (bn * devBsize + j) / devBsize = bn ∧
      (bn * devBsize + j) % devBsize = j := by
    simp only [devBsize] at *
    omega
  by_cases hmem : ∃ b, ⟨0, bn, b⟩ ∈ fileNodes st.disk ip.iAddr
  · obtain ⟨b, hb⟩ := hmem
    refine ⟨signed b, bmap_read_of_mem hb _ _, fun j hj => ?_⟩
    have hgood := h.ok.good _ hb
    have hfsize := h.fsize
    have hlt : b < 2 ^ 31 := by
      simp only [badblock] at hgood
      omega
    rw [signed_of_lt hlt, if_neg (by omega), Int.toNat_natCast,
      fileByte_of_mem ((hdiv j hj).1.symm ▸ hb), (hdiv j hj).2]
  · have hno := not_exists.1 hmem
    refine ⟨-1, bmap_read_of_hole hbn hno _ _, fun j hj => ?_⟩
    rw [fileByte_of_hole (by rw [(hdiv j hj).1]; exact hno)]
    rfl

/-- `rwip` delivers the bytes up to the end of the file. -/
theorem readLoop_spec (h : Ready st ip l) (hsize : ip.iSize < 2 ^ 31) (fuel : ℕ) (mem : Memory)
    (uio : Uio) (hroom : uio.uioResid ≤ (addresses uio.uioIov).length) (hfuel : uio.uioResid ≤ fuel)
    (hpos : 0 < uio.uioResid) {k : ℕ}
    (hk : k = min uio.uioResid (ip.iSize - uio.uioOffset)) :
    ∃ uio', readLoop fuel st ip mem uio = ⟨0, ip, st, scatter mem ((addresses uio.uioIov).take k)
        (bytes (fileByte st.disk ip.iAddr) uio.uioOffset k), uio'⟩ ∧
      uio'.uioOffset = uio.uioOffset + k ∧ uio'.uioResid = uio.uioResid - k := by
  induction fuel generalizing mem uio k with
  | zero => omega
  | succ fuel ih =>
    rw [readLoop]
    by_cases hend : ip.iSize ≤ uio.uioOffset
    · obtain rfl : k = 0 := by omega
      rw [if_pos hend]
      exact ⟨uio, rfl, rfl, rfl⟩
    rw [if_neg hend]
    set on := uio.uioOffset % devBsize with hon
    set n := min (min (devBsize - on) uio.uioResid) (ip.iSize - uio.uioOffset)
    have honlt : on < devBsize := hon ▸ mod_lt _ (by decide)
    have hbn : uio.uioOffset / devBsize < maxBlocks := by
      simp only [devBsize, maxBlocks, nindir]
      omega
    obtain ⟨v, hbmap, hbuf⟩ := read_buffer h hbn
    obtain ⟨buf, hbufdef⟩ : ∃ buf, buf = if v < 0 then zeroBlock else st.disk v.toNat := ⟨_, rfl⟩
    obtain ⟨uio1, hmove, haddr, hoff, hresid⟩ :=
      uiomove_spec .read buf on n mem uio (by omega) hroom
    have hroom1 : uio1.uioResid ≤ (addresses uio1.uioIov).length := by
      rw [haddr, length_drop]
      omega
    have hlen : ((addresses uio.uioIov).take n).length = n := by
      rw [length_take]
      omega
    have hmoved : moved .read buf on mem ((addresses uio.uioIov).take n) =
        (buf, scatter mem ((addresses uio.uioIov).take n)
          (bytes (fileByte st.disk ip.iAddr) uio.uioOffset n)) := by
      rw [moved, hlen]
      rw [bytes_congr fun i hi => ?_]
      rw [hbufdef, hbuf (on + i) (by omega), ← add_assoc, mul_comm, div_add_mod]
    rw [hmoved] at hmove
    simp only [hbmap, ← hbufdef, hmove, h.uError, ne_eq, not_true_eq_false, if_false]
    split_ifs with hmore
    · set j := min uio1.uioResid (ip.iSize - uio1.uioOffset) with hj
      obtain ⟨uio', hloop, hoff', hresid'⟩ := ih _ uio1 hroom1 (by omega) (by omega) hj
      have hkj : k = n + j := by omega
      refine ⟨uio', ?_, by omega, by omega⟩
      rw [hloop, haddr, hoff, scatter_append mem (by rw [hlen, length_bytes]), bytes_append]
      rw [hkj, take_add]
    · obtain rfl : k = n := by omega
      exact ⟨uio1, rfl, hoff, hresid⟩

theorem rwip_read (h : Ready st ip l) (hsize : ip.iSize < 2 ^ 31) (u : User) (ioAppend : Bool)
    (stale : Block) (mem : Memory) (uio : Uio) (hroom : uio.uioResid ≤ (addresses uio.uioIov).length) {k : ℕ}
    (hk : k = min uio.uioResid (ip.iSize - uio.uioOffset)) :
    ∃ uio', rwip u st ip .read ioAppend stale mem uio = ⟨0, ip, st, scatter mem (addresses uio.uioIov)
        (bytes (fileByte st.disk ip.iAddr) uio.uioOffset k), uio'⟩ ∧
      uio'.uioOffset = uio.uioOffset + k ∧ uio'.uioResid = uio.uioResid - k := by
  have hscatter := scatter_take mem (addresses uio.uioIov)
    (bytes (fileByte st.disk ip.iAddr) uio.uioOffset k)
  rw [length_bytes] at hscatter
  rw [rwip, ← hscatter]
  by_cases hzero : uio.uioResid = 0
  · obtain rfl : k = 0 := by omega
    rw [if_pos hzero]
    exact ⟨uio, rfl, rfl, rfl⟩
  · rw [if_neg hzero]
    exact readLoop_spec h hsize _ mem uio hroom le_rfl (pos_of_ne_zero hzero) hk

end Read

section Write

variable {st st' : Filsys} {ip : Inode} {l : List ℕ}

theorem notSetid_type (mode : ℕ) : mode &&& notSetid &&& ifmt = mode &&& ifmt := by
  rw [Nat.and_assoc]
  rfl

theorem written_spec (ip : Inode) (u : User) (offset n : ℕ) :
    (ip.written u offset n).iAddr = ip.iAddr ∧ (ip.written u offset n).iPipe = ip.iPipe ∧
      (ip.written u offset n).iAppend = ip.iAppend ∧
      (ip.written u offset n).iMode &&& ifmt = ip.iMode &&& ifmt ∧
      (ip.written u offset n).iSize = max ip.iSize (offset + n) := by
  unfold Inode.written
  split_ifs with hsize huid huid
  · exact ⟨rfl, rfl, rfl, notSetid_type _, (max_eq_right hsize.le).symm⟩
  · exact ⟨rfl, rfl, rfl, rfl, (max_eq_right hsize.le).symm⟩
  · exact ⟨rfl, rfl, rfl, notSetid_type _, (max_eq_left (not_lt.1 hsize)).symm⟩
  · exact ⟨rfl, rfl, rfl, rfl, (max_eq_left (not_lt.1 hsize)).symm⟩

/-- What `rwip` has written when it returns without an error. -/
structure Wrote (st : Filsys) (ip : Inode) (l l' : List ℕ) (mem : Memory) (uio : Uio) (res : RwResult) :
    Prop where
  op : FileOp st res.st ip res.ip l l'
    (place (fileByte st.disk ip.iAddr) uio.uioOffset ((addresses uio.uioIov).map mem))
  error : res.error = 0
  size : res.ip.iSize = max ip.iSize (uio.uioOffset + uio.uioResid)
  mem : res.mem = mem
  resid : res.uio.uioResid = 0
  offset : res.uio.uioOffset = uio.uioOffset + uio.uioResid

theorem writeLoop_round (u : User) (stale : Block) (fuel : ℕ) (h : Ready st ip l) (mem : Memory)
    (uio : Uio) (hvalid : uio.Valid) (hend : uio.uioOffset + uio.uioResid < 2 ^ 31) {n : ℕ}
    (hn : n = min (devBsize - uio.uioOffset % devBsize) uio.uioResid) :
    ((writeLoop u stale (fuel + 1) st ip mem uio).error = enospc ∧ l.length ≤ 4) ∨
    ∃ l₁ st₁ ip₁ uio1, FileOp st st₁ ip ip₁ l l₁ (place (fileByte st.disk ip.iAddr) uio.uioOffset
        (((addresses uio.uioIov).take n).map mem)) ∧
      ip₁.iSize = max ip.iSize (uio.uioOffset + n) ∧ l.length ≤ l₁.length + 4 ∧
      (uio1.Valid ∧ addresses uio1.uioIov = (addresses uio.uioIov).drop n ∧
        uio1.uioOffset = uio.uioOffset + n ∧ uio1.uioResid = uio.uioResid - n) ∧
      writeLoop u stale (fuel + 1) st ip mem uio =
        if uio1.uioResid ≠ 0 ∧ n ≠ 0 then writeLoop u stale fuel st₁ ip₁ mem uio1
        else ⟨0, ip₁, st₁, mem, uio1⟩ := by
  have hx : uio.uioOffset / devBsize < maxBlocks := by
    simp only [devBsize, maxBlocks, nindir]
    omega
  obtain ⟨v, ip₁, st₁, hbmap⟩ : ∃ v ip₁ st₁, (v, ip₁, st₁) =
    bmap st ip (uio.uioOffset / devBsize : ℕ) .write (n ≠ devBsize) stale := ⟨_, _, _, rfl⟩
  rw [writeLoop]
  simp only [← hn, ← hbmap]
  by_cases hfail : st₁.uError ≠ 0 ∨ v < 0
  · left
    rw [if_pos hfail]
    exact bmap_write_fails h.consistent h.ok h.fsize h.uError hx hbmap hfail
  · right
    rw [if_neg hfail]
    obtain ⟨uio1, hmove, haddr, hoff, hresid⟩ := uiomove_spec .write
      (if n = devBsize then stale else st₁.disk v.toNat) (uio.uioOffset % devBsize) n mem uio (by omega)
      hvalid.le
    have huio := And.intro (hvalid.moved haddr hresid) (And.intro haddr (And.intro hoff hresid))
    have hlen : (((addresses uio.uioIov).take n).map mem).length = n := by
      rw [length_map, length_take, ← show uio.uioResid = _ from hvalid]
      omega
    have hin : uio.uioOffset % devBsize + n ≤ devBsize := by
      have := mod_lt uio.uioOffset (show 0 < devBsize by decide)
      omega
    obtain ⟨l₁, htouch, hbytes, hspace, herr, r, p, hip⟩ := write_effect h.consistent h.ok hx hlen
      hin hbmap (by omega) rfl
    obtain ⟨waddr, wpipe, wappend, wtype, wsize⟩ := written_spec ip₁ u uio.uioOffset n
    rw [hmove]
    refine ⟨l₁, _, ip₁.written u uio.uioOffset n, uio1, ⟨by rw [waddr]; exact htouch,
      by rw [waddr]; exact hbytes, by rw [wtype, hip]; rfl, by rw [wpipe, hip]; rfl,
      by rw [wappend, hip]; rfl, ?_⟩, by rw [wsize, hip]; rfl, hspace, huio, rfl⟩
    exact herr.trans h.uError

theorem writeLoop_spec (u : User) (stale : Block) (fuel : ℕ) (h : Ready st ip l) (mem : Memory) (uio : Uio)
    (hvalid : uio.Valid) (hfuel : uio.uioResid ≤ fuel) (hpos : 0 < uio.uioResid)
    (hend : uio.uioOffset + uio.uioResid < 2 ^ 31) {res : RwResult}
    (hres : res = writeLoop u stale fuel st ip mem uio) :
    (∃ l', Wrote st ip l l' mem uio res) ∨
      (res.error = enospc ∧ l.length ≤ 4 * blocksFor (uio.uioOffset % devBsize + uio.uioResid)) := by
  induction fuel generalizing st ip l mem uio with
  | zero => omega
  | succ fuel ih =>
    generalize hn : min (devBsize - uio.uioOffset % devBsize) uio.uioResid = n
    have hone : 0 < blocksFor (uio.uioOffset % devBsize + uio.uioResid) := by
      simp only [blocksFor, devBsize]
      omega
    rcases writeLoop_round u stale fuel h mem uio hvalid hend hn.symm with
      ⟨herr, hlen⟩ | ⟨l₁, st₁, ip₁, uio1, hop, hsize, hspace, ⟨hvalid1, haddr, hoff, hresid⟩, hloop⟩
    · right
      rw [hres]
      exact ⟨herr, by omega⟩
    rw [hloop] at hres
    split_ifs at hres with hmore
    · have hrest : blocksFor (uio1.uioOffset % devBsize + uio1.uioResid) + 1 =
          blocksFor (uio.uioOffset % devBsize + uio.uioResid) := by
        simp only [blocksFor, devBsize] at *
        omega
      rcases ih (hop.ready h) mem uio1 hvalid1 (by omega) (by omega) (by omega) hres with
        ⟨l', hw⟩ | ⟨herr, hlen⟩
      · left
        have hop' := hw.op
        have hlen : (((addresses uio.uioIov).take n).map mem).length = n := by
          rw [length_map, length_take, ← show uio.uioResid = _ from hvalid]
          omega
        have hoff' : uio1.uioOffset = uio.uioOffset + (((addresses uio.uioIov).take n).map mem).length := by
          rw [hlen, hoff]
        rw [hop.bytes, haddr, hoff', place_append, ← map_append, take_append_drop] at hop'
        refine ⟨l', ⟨hop.trans hop', hw.error, ?_, hw.mem, hw.resid, ?_⟩⟩
        · rw [hw.size]
          omega
        · rw [hw.offset]
          omega
      · right
        exact ⟨herr, by omega⟩
    · left
      obtain rfl : n = uio.uioResid := by
        have := mod_lt uio.uioOffset (show 0 < devBsize by decide)
        omega
      rw [show uio.uioResid = _ from hvalid, take_length] at hop
      subst hres
      refine ⟨l₁, ⟨hop, rfl, hsize, rfl, ?_, ?_⟩⟩
      · change uio1.uioResid = 0
        omega
      · exact hoff

end Write

section Truncate

variable {st st₁ st' : Filsys} {ip ip' : Inode} {l taken rest freed : List ℕ} {iAddr₁ iAddr' : ℕ → ℕ}
  {length : ℕ}

def cutBytes (f : ℕ → UInt8) (length : ℕ) : ℕ → UInt8 := fun off => if off < length then f off else 0

theorem trunc_bytes
    (htc : TailCleared st st₁ l taken rest (fileNodes st.disk ip.iAddr) (fileNodes st₁.disk iAddr₁) length)
    (hcut : FileCut st₁ st' rest freed iAddr₁ iAddr' (blocksFor length)) :
    fileByte st'.disk iAddr' = cutBytes (fileByte st.disk ip.iAddr) length := by
  funext off
  rw [cutBytes]
  have hoff : off / devBsize * devBsize + off % devBsize = off := by
    rw [mul_comm, div_add_mod]
  have hj : off % devBsize < devBsize := mod_lt _ (by decide)
  by_cases hx : off / devBsize < blocksFor length
  · by_cases hold : ∃ b, ⟨0, off / devBsize, b⟩ ∈ fileNodes st.disk ip.iAddr
    · obtain ⟨b, hb⟩ := hold
      have hb' : ⟨0, off / devBsize, b⟩ ∈ fileNodes st'.disk iAddr' := by
        rw [hcut.nodes]
        exact ⟨htc.sub hb, hx⟩
      rw [fileByte_of_mem hb', fileByte_of_mem hb, hcut.leaf htc.ok (htc.sub hb) hx,
        htc.data _ b hx hb _ hj, hoff]
    · have hno := not_exists.1 hold
      rw [fileByte_of_hole hno, ite_self]
      by_cases hnew : ∃ b, ⟨0, off / devBsize, b⟩ ∈ fileNodes st'.disk iAddr'
      · obtain ⟨b, hb'⟩ := hnew
        have hb := hb'
        rw [hcut.nodes] at hb
        rw [fileByte_of_mem hb', hcut.leaf htc.ok hb.1 hx, htc.fresh _ b hb.1 (hno b) _ hj]
      · exact fileByte_of_hole (not_exists.1 hnew)
  · rw [fileByte_of_hole, if_neg]
    · simp only [blocksFor, devBsize] at *
      omega
    · intro b hb
      rw [hcut.nodes] at hb
      exact hx hb.2

theorem grow_bytes (h : Ready st ip l) {x : ℕ} (hx : x < maxBlocks) {stale : Block} {v : ℤ}
    (hres : (v, ip', st') = bmap st ip x .write true stale) (hok : ¬ (st'.uError ≠ 0 ∨ v < 0)) :
    ∃ l', FileOp st st' ip ip' l l' (fileByte st.disk ip.iAddr) ∧ ip'.iSize = ip.iSize := by
  obtain ⟨taken, l', _, ⟨r, p, hip⟩, hg, hreach⟩ := bmap_write h.consistent h.ok hx true stale hres
  rcases hreach with ⟨b, hb, hval, herr, hfresh⟩ | ⟨hval, _⟩
  · have hip : ip' = ip.setAddr r p := hip
    refine ⟨l', ⟨hg.touches, ?_, by rw [hip]; rfl, by rw [hip]; rfl, by rw [hip]; rfl,
      herr.trans h.uError⟩, by rw [hip]; rfl⟩
    funext off
    by_cases hold : off / devBsize = x → ∃ b, ⟨0, x, b⟩ ∈ fileNodes st.disk ip.iAddr
    · exact hg.byte h.ok hold
    · obtain ⟨rfl, hno⟩ := Classical.not_imp.1 hold
      have hno := not_exists.1 hno
      have hzero : st'.disk b = zeroBlock := by
        rw [show st'.disk b = _ from hfresh (hno b)]
        simp [freshBlock]
      rw [fileByte_of_hole hno, fileByte_of_mem hb, hzero]
      rfl
  · exact absurd (.inr (by rw [show v = -1 from hval]; decide)) hok

/-- The ways `itrunc` ends: a block cannot be had; the file grows, or stays; or it is cut. -/
theorem itrunc_cases (h : Ready st ip l) (hpipe : ip.iPipe = false) (hlen : length < 2 ^ 31) (stale : ℕ → Block)
    (hres : (ip', st') = itrunc st ip length stale) :
    (∃ x : ℕ, ∃ v, x < maxBlocks ∧ (v, ip', st') = bmap st ip x .write true (stale 0) ∧ (st'.uError ≠ 0 ∨ v < 0)) ∨
    (∃ x : ℕ, ∃ v ip₁, x = (length - 1) / devBsize ∧ x < maxBlocks ∧ ip.iSize < length ∧
      (v, ip₁, st') = bmap st ip x .write true (stale 0) ∧ ¬(st'.uError ≠ 0 ∨ v < 0) ∧ ip' = ip₁.setSize length) ∨
    (ip.iSize = length ∧ ip' = ip ∧ st' = st) ∨
    length < ip.iSize ∧ (length % devBsize ≠ 0 → st.uError = 0 ∧
      0 ≤ (bmap st ip (length / devBsize : ℕ) .write true (stale 0)).1) := by
  have hoip : (if ip.iPipe then ip.setSize maxpipsiz else ip) = ip := if_neg (by simp [hpipe])
  have hx : length / devBsize < maxBlocks ∧ (length - 1) / devBsize < maxBlocks := by
    simp only [devBsize, maxBlocks, ndaddr, nindir]
    omega
  rcases lt_trichotomy ip.iSize length with hgrow | heq | hshrink
  · obtain ⟨v, ip₁, st₁, hbmap⟩ : ∃ v ip₁ st₁, (v, ip₁, st₁) =
      bmap st ip ((length - 1) / devBsize : ℕ) .write true (stale 0) := ⟨_, _, _, rfl⟩
    unfold itrunc at hres
    simp only [hoip, hgrow.ne, and_false, if_pos hgrow, ← hbmap] at hres
    by_cases hfail : st₁.uError ≠ 0 ∨ v < 0
    · rw [if_pos hfail] at hres
      obtain ⟨rfl, rfl⟩ := hres
      exact .inl ⟨_, v, hx.2, hbmap, hfail⟩
    · rw [if_neg hfail] at hres
      obtain ⟨rfl, rfl⟩ := hres
      exact .inr (.inl ⟨_, v, ip₁, rfl, hx.2, hgrow, hbmap, hfail, rfl⟩)
  · unfold itrunc at hres
    simp only [hoip, if_pos (And.intro hpipe heq), Prod.mk.injEq] at hres
    exact .inr (.inr (.inl ⟨heq, hres⟩))
  · by_cases htail : length % devBsize ≠ 0 → st.uError = 0 ∧
        0 ≤ (bmap st ip (length / devBsize : ℕ) .write true (stale 0)).1
    · exact .inr (.inr (.inr ⟨hshrink, htail⟩))
    · obtain ⟨hoff, hno⟩ := Classical.not_imp.1 htail
      obtain ⟨v, ip₁, st₁, hbmap⟩ : ∃ v ip₁ st₁, (v, ip₁, st₁) =
        bmap st ip (length / devBsize : ℕ) .write true (stale 0) := ⟨_, _, _, rfl⟩
      rw [← hbmap] at hno
      have hfail : st₁.uError ≠ 0 ∨ v < 0 := .inr (not_le.1 fun hv => hno ⟨h.uError, hv⟩)
      have hclear : clearTail st ip length stale = (false, ip₁, st₁) := by
        rw [clearTail, if_neg hoff, ← hbmap]
        exact if_pos hfail
      unfold itrunc at hres
      simp only [hoip, hshrink.ne', and_false, if_neg hshrink.not_gt, hclear] at hres
      obtain ⟨rfl, rfl⟩ := hres
      exact .inl ⟨_, v, hx.1, hbmap, hfail⟩

theorem itrunc_spec (h : Ready st ip l) (hpipe : ip.iPipe = false) (hlen : length < 2 ^ 31)
    (hbeyond : ∀ off, ip.iSize ≤ off → fileByte st.disk ip.iAddr off = 0) (stale : ℕ → Block)
    (hres : (ip', st') = itrunc st ip length stale) :
    (∃ l', FileOp st st' ip ip' l l' (cutBytes (fileByte st.disk ip.iAddr) length) ∧
      ip'.iSize = length) ∨ (st'.uError = enospc ∧ l.length ≤ 4) := by
  have hcut : ip.iSize ≤ length → cutBytes (fileByte st.disk ip.iAddr) length = fileByte st.disk ip.iAddr := by
    intro hle
    funext off
    rw [cutBytes]
    split_ifs with hlt
    · rfl
    · exact (hbeyond off (by omega)).symm
  rcases itrunc_cases h hpipe hlen stale hres with ⟨x, v, hx, hbmap, hfail⟩ |
    ⟨x, v, ip₁, -, hx, hgrow, hbmap, hfail, rfl⟩ | ⟨heq, rfl, rfl⟩ | ⟨hshrink, htail⟩
  · exact .inr (bmap_write_fails h.consistent h.ok h.fsize h.uError hx hbmap hfail)
  · obtain ⟨l', hop, _⟩ := grow_bytes h hx hbmap hfail
    refine .inl ⟨l', ?_, rfl⟩
    rw [hcut hgrow.le]
    exact ⟨hop.touches, hop.bytes, hop.type, hop.pipe, hop.append, hop.uError⟩
  · rw [hcut heq.le]
    exact .inl ⟨l, FileOp.refl h, heq⟩
  · obtain ⟨ip₁, st₁, iAddr₁, st2, taken, rest, freed, hit, ⟨hsz, hpipe', hmode, happend⟩, htc, hfc⟩ :=
      itrunc_shrink h.consistent h.ok hlen (by rw [if_neg (by simp [hpipe])]; exact hshrink) stale htail
    rw [hit] at hres
    obtain ⟨rfl, rfl⟩ := hres
    refine .inl ⟨freed ++ rest, ⟨htc.touches.trans (hfc.touches htc.ok), trunc_bytes htc hfc,
      by rw [hmode], hpipe', happend, ?_⟩, hsz⟩
    rw [hfc.uError, htc.uError, h.uError]

end Truncate

end RetroBSD.Ufs
