import RetroBSD.TempDevice

/-!
# Writes to a temporary device

A round of `swcwrite` writes a whole block from a buffer that was not read in. The device
gets what was asked for exactly when every block that is written is filled by the caller.
-/

namespace RetroBSD.TempDevice

open LittleEndian ByteCopy Ufs Function List Nat

variable {T : Units} {unit start left block boff rsize rlen w offset size l total : ℕ}
  {disk disk' : ℕ → Block} {buf stale : Block} {mem : Memory} {uio uio' : Uio} {lens : List ℕ}

def callerByte (mem : Memory) (as : List ℕ) (p : ℕ) : Option UInt8 := as[p]?.map mem

/-! ## Rounds that fill their blocks -/

theorem nextSize_of_le (h : 1024 ≤ rlen) : nextSize rlen = 1024 := if_pos h

theorem writeRounds_round (start left block : ℕ) (buf : Block) (disk : ℕ → Block) (mem : Memory)
    (h : uio.Valid) (hrlen : rlen ≠ 0) (hresid : 1024 ≤ uio.uioResid) :
    ∃ (buf' : Block) (uio' : Uio), writeRounds start mem (left + 1) block 0 1024 rlen buf disk uio =
        writeRounds start mem left (block + 1) 0 (nextSize ((rlen + 2 ^ 32 - 1024) % 2 ^ 32))
          ((rlen + 2 ^ 32 - 1024) % 2 ^ 32) buf' (update disk (start + block) buf') uio' ∧
      (∀ i < 1024, callerByte mem (addresses uio.uioIov) i = some (buf' i)) ∧
      uio'.Valid ∧ addresses uio'.uioIov = (addresses uio.uioIov).drop 1024 ∧
        uio'.uioResid = uio.uioResid - 1024 := by
  obtain ⟨uio', hmove, hvalid, haddr, -, hres⟩ := move_spec .write buf 0 1024 mem h
  rw [min_eq_left hresid] at hmove haddr hres
  refine ⟨place buf 0 (((addresses uio.uioIov).take 1024).map mem), uio', ?_, ?_, hvalid, haddr,
    hres⟩
  · rw [writeRounds, if_neg hrlen, hmove]
    rfl
  · intro i hi
    have hroom : uio.uioResid = (addresses uio.uioIov).length := h
    have hlen : i < (((addresses uio.uioIov).take 1024).map mem).length := by
      rw [length_map, length_take]
      omega
    have hplace := place_of_mem (m := buf) (d := 0) hlen
    rw [zero_add, getElem_map, getElem_take] at hplace
    rw [hplace, callerByte, List.getElem?_eq_getElem (by omega)]
    rfl

/-- The caller's bytes fill the `w` blocks from `n` on, and no other block changes. -/
structure Filled (mem : Memory) (as : List ℕ) (n w : ℕ) (disk disk' : ℕ → Block) : Prop where
  out : ∀ x, x < n ∨ n + w ≤ x → disk' x = disk x
  bytes : ∀ k < w, ∀ i < 1024, callerByte mem as (1024 * k + i) = some (disk' (n + k) i)

theorem Filled.cons {as : List ℕ} {n : ℕ} (hbuf : ∀ i < 1024, callerByte mem as i = some (buf i))
    (h : Filled mem (as.drop 1024) (n + 1) w (update disk n buf) disk') :
    Filled mem as n (w + 1) disk disk' := by
  refine ⟨fun x hx => ?_, fun k hk i hi => ?_⟩
  · rw [h.out x (by omega), update_of_ne (by omega)]
  · cases k with
    | zero =>
      rw [mul_zero, zero_add, add_zero, h.out _ (.inl (lt_add_one n)), update_self]
      exact hbuf i hi
    | succ k =>
      have hk' := h.bytes k (by omega) i hi
      rw [callerByte, List.getElem?_drop] at hk'
      rw [show 1024 * (k + 1) + i = 1024 + (1024 * k + i) by omega,
        show n + (k + 1) = n + 1 + k by omega]
      exact hk'

theorem writeRounds_full (start left block : ℕ) (buf : Block) (disk : ℕ → Block) (mem : Memory)
    (h : uio.Valid) (hrlen : rlen < 2 ^ 32) (hw : 1024 * w ≤ rlen)
    (hresid : 1024 * w ≤ uio.uioResid) :
    ∃ (buf' : Block) (disk' : ℕ → Block) (uio' : Uio),
      writeRounds start mem (w + left) block 0 (nextSize rlen) rlen buf disk uio =
        writeRounds start mem left (block + w) 0 (nextSize (rlen - 1024 * w)) (rlen - 1024 * w)
          buf' disk' uio' ∧
      Filled mem (addresses uio.uioIov) (start + block) w disk disk' ∧
      (w = 0 → buf' = buf) ∧ (0 < w → disk' (start + block + (w - 1)) = buf') ∧
      uio'.Valid ∧ addresses uio'.uioIov = (addresses uio.uioIov).drop (1024 * w) ∧
      uio'.uioResid = uio.uioResid - 1024 * w := by
  induction w generalizing block rlen buf disk uio with
  | zero =>
    refine ⟨buf, disk, uio, ?_, ⟨fun _ _ => rfl, fun k hk => absurd hk (not_lt_zero k)⟩,
      fun _ => rfl, ?_, h, ?_, ?_⟩
    · rw [Nat.zero_add, Nat.sub_zero, Nat.add_zero]
    · exact fun hlt => absurd hlt (lt_irrefl 0)
    · rw [drop_zero]
    · omega
  | succ w ih =>
    obtain ⟨buf1, uio1, hrun, hbuf, hvalid, haddr, hres⟩ := writeRounds_round start (w + left)
      block buf disk mem h (show rlen ≠ 0 by omega) (by omega)
    rw [sub_mod_of_le (by omega) hrlen] at hrun
    have hrlen1 : rlen - 1024 < 2 ^ 32 := (sub_le _ _).trans_lt hrlen
    have hw1 : 1024 * w ≤ rlen - 1024 := le_sub_of_add_le hw
    have hresid1 : 1024 * w ≤ uio1.uioResid := by
      rw [hres]
      exact le_sub_of_add_le hresid
    obtain ⟨buf', disk', uio', hrest, hfill, hnone, hlast, hvalid', haddr', hres'⟩ := ih (block + 1)
      buf1 (update disk (start + block) buf1) hvalid hrlen1 hw1 hresid1
    have hfirst : disk' (start + block) = buf1 := by
      rw [hfill.out _ (.inl (by omega)), update_self]
    rw [haddr] at hfill
    refine ⟨buf', disk', uio', ?_, hfill.cons hbuf, fun hzero => absurd hzero (succ_ne_zero w), ?_,
      hvalid', ?_, ?_⟩
    · rw [nextSize_of_le (by omega), show w + 1 + left = w + left + 1 by omega, hrun, hrest,
        show block + 1 + w = block + (w + 1) by omega,
        show rlen - 1024 - 1024 * w = rlen - 1024 * (w + 1) by omega]
    · intro _
      by_cases hzero : w = 0
      · rw [hzero, hnone hzero]
        exact hfirst
      · have hl := hlast (by omega)
        rw [show start + block + (w + 1 - 1) = start + (block + 1) + (w - 1) by omega]
        exact hl
    · rw [haddr', haddr, drop_drop, show 1024 + 1024 * w = 1024 * (w + 1) by omega]
    · rw [hres', hres]
      omega

/-! ## Which blocks are written -/

def rounds : ℕ → ℕ → ℕ → ℕ
  | 0, _, _ => 0
  | left + 1, rsize, rlen =>
    if rlen = 0 then 0
    else rounds left (nextSize ((rlen + 2 ^ 32 - rsize) % 2 ^ 32))
      ((rlen + 2 ^ 32 - rsize) % 2 ^ 32) + 1

theorem rounds_le (left rsize rlen : ℕ) : rounds left rsize rlen ≤ left := by
  induction left generalizing rsize rlen with
  | zero => exact le_rfl
  | succ left ih =>
    rw [rounds]
    split_ifs
    · exact zero_le _
    · exact succ_le_succ (ih _ _)

theorem rounds_next (hrlen : rlen < 2 ^ 32) :
    rounds left (nextSize rlen) rlen = min left ((rlen + 1023) / 1024) := by
  induction left generalizing rlen with
  | zero => rw [rounds, zero_min]
  | succ left ih =>
    rw [rounds]
    split_ifs with hzero
    · subst hzero
      rfl
    · have hle : nextSize rlen ≤ rlen := by
        unfold nextSize
        split_ifs with h
        · exact h
        · exact le_rfl
      rw [sub_mod_of_le hle hrlen, ih ((sub_le _ _).trans_lt hrlen)]
      unfold nextSize devBsize
      split_ifs with h
      · omega
      · rw [Nat.sub_self]
        omega

theorem writeRounds_blocks {Q : UInt8 → Prop} (start left block boff rsize rlen : ℕ) (buf : Block)
    (disk : ℕ → Block)
    (mem : Memory) (h : uio.Valid) (hmem : ∀ a, Q (mem a)) (hbuf : ∀ i, Q (buf i)) :
    (∀ x, x < start + block ∨ start + block + rounds left rsize rlen ≤ x →
      (writeRounds start mem left block boff rsize rlen buf disk uio).1 x = disk x) ∧
    ∀ x, start + block ≤ x → x < start + block + rounds left rsize rlen → ∀ i,
      Q ((writeRounds start mem left block boff rsize rlen buf disk uio).1 x i) := by
  induction left generalizing block boff rsize rlen buf disk uio with
  | zero =>
    refine ⟨fun _ _ => rfl, ?_⟩
    intro x h1 h2
    rw [rounds] at h2
    omega
  | succ left ih =>
    rw [writeRounds, rounds]
    split_ifs with hzero
    · refine ⟨fun _ _ => rfl, ?_⟩
      omega
    · obtain ⟨uio', hmove, hvalid, -⟩ := move_spec .write buf boff rsize mem h
      set as := (addresses uio.uioIov).take (min rsize uio.uioResid)
      have hbuf' : ∀ i, Q (place buf boff (as.map mem) i) := by
        intro i
        rw [place]
        split_ifs
        · cases hi : (as.map mem)[i - boff]? with
          | none => exact hbuf i
          | some b =>
            obtain ⟨a, -, rfl⟩ := mem_map.1 (mem_of_getElem? hi)
            exact hmem a
        · exact hbuf i
      obtain ⟨hout, hin⟩ := ih (block + 1) 0 (nextSize ((rlen + 2 ^ 32 - rsize) % 2 ^ 32))
        ((rlen + 2 ^ 32 - rsize) % 2 ^ 32) (place buf boff (as.map mem))
        (update disk (start + block) (place buf boff (as.map mem))) hvalid hbuf'
      rw [hmove]
      simp only [moved]
      constructor
      · intro x hx
        rw [hout x (by omega), update_of_ne (by omega)]
      · intro x h1 h2 i
        by_cases hx : x = start + block
        · rw [hx, hout _ (.inl (by omega)), update_self]
          exact hbuf' i
        · exact hin x (by omega) (by omega) i

/-! ## What was asked for -/

/-- A request for the lengths `lens` at `offset` changes the bytes it names to those of the
caller and no others, whatever is on the device, in the buffer and with the caller. -/
def WriteExact (T : Units) (unit offset : ℕ) (lens : List ℕ) : Prop :=
  ∀ (disk : ℕ → Block) (stale : Block) (mem : Memory) (iov : List Iovec) (disk' : ℕ → Block),
    iov.map Iovec.iovLen = lens →
      disk' = (swcwrite T unit disk stale mem ⟨iov, offset, lens.sum⟩).2.1 →
      (∀ x, x < T.tdstart unit ∨ T.tdstart unit + T.tdsize unit ≤ x → disk' x = disk x) ∧
      ∀ a < 1024 * T.tdsize unit,
        (offset ≤ a ∧ a < offset + lens.sum →
          callerByte mem (addresses iov) (a - offset) = some (devByte (T.tdstart unit) disk' a)) ∧
        (a < offset ∨ offset + lens.sum ≤ a →
          devByte (T.tdstart unit) disk' a = devByte (T.tdstart unit) disk a)

/-- A request to read the lengths `lens` at `offset` moves as many bytes as are asked for and
are on the device, they are those of the device, and `uio_resid` is reduced by their number. -/
def ReadExact (T : Units) (unit offset : ℕ) (lens : List ℕ) : Prop :=
  ∀ (disk : ℕ → Block) (mem : Memory) (iov : List Iovec), iov.map Iovec.iovLen = lens →
    ∃ n uio', n = min lens.sum (1024 * T.tdsize unit - offset) ∧
      swcread T unit disk mem ⟨iov, offset, lens.sum⟩ =
        (0, scatter mem ((addresses iov).take n) (bytes (devByte (T.tdstart unit) disk) offset n),
          uio') ∧
      uio'.uioOffset = offset + n ∧ uio'.uioResid = lens.sum - n

/-- The offset is below the size as the code computes it, and the first buffer is the only one,
or it goes to the end of the extent, or it ends in front of the end of its first block. -/
def ReadOk (size offset l total : ℕ) : Prop :=
  offset < 1024 * size % 2 ^ 32 ∧
    (total = l ∨ 1024 * size - offset ≤ l ∨ 0 < l ∧ l < 1024 - offset % 1024)

/-- The request is empty, or it begins at a block and the blocks that are written are those
it fills: it is one buffer of whole blocks, or its first buffer goes beyond the extent, or
the first is less than a block and all of them go beyond the extent. -/
def WriteOk (size offset l total : ℕ) : Prop :=
  total = 0 ∨ offset < 1024 * size % 2 ^ 32 ∧ offset % 1024 = 0 ∧ 0 < l ∧
    (l % 1024 = 0 ∧ total = l ∨ size - offset / 1024 ≤ l / 1024 ∨
      l < 1024 ∧ 1024 * (size - offset / 1024) ≤ total)

def consecutive : ℕ → List ℕ → List Iovec
  | _, [] => []
  | base, l :: lens => ⟨base, l⟩ :: consecutive (base + l) lens

theorem consecutive_lens (base : ℕ) (lens : List ℕ) :
    (consecutive base lens).map Iovec.iovLen = lens := by
  induction lens generalizing base with
  | nil => rfl
  | cons l lens ih => rw [consecutive, map_cons, ih]

theorem addresses_consecutive (base : ℕ) (lens : List ℕ) :
    addresses (consecutive base lens) = List.range' base lens.sum := by
  induction lens generalizing base with
  | nil => rfl
  | cons l lens ih => rw [consecutive, addresses_cons, ih, sum_cons, List.range'_append_1]

theorem length_addresses (iov : List Iovec) :
    (addresses iov).length = (iov.map Iovec.iovLen).sum := by
  induction iov with
  | nil => rfl
  | cons v iov ih => rw [addresses_cons, length_append, length_range', ih, map_cons, sum_cons]

variable {iov : List Iovec}

theorem valid_of_lens (h : iov.map Iovec.iovLen = lens) : Uio.Valid ⟨iov, offset, lens.sum⟩ := by
  rw [Uio.Valid, length_addresses, h]

variable {resid : ℕ} {ls : List ℕ}

theorem iovLen_of_lens (h : iov.map Iovec.iovLen = l :: ls) : iovLen ⟨iov, offset, resid⟩ = l := by
  cases iov with
  | nil => cases h
  | cons v iov =>
    exact (List.cons.inj h).1

theorem exact_of_blocks {as : List ℕ} (halign : offset % 1024 = 0)
    (hend : 1024 * (offset / 1024 + w) = min (offset + total) (1024 * size))
    (hfill : Filled mem as (start + offset / 1024) w disk disk') :
    (∀ x, x < start ∨ start + size ≤ x → disk' x = disk x) ∧
    ∀ a < 1024 * size,
      (offset ≤ a ∧ a < offset + total →
        callerByte mem as (a - offset) = some (devByte start disk' a)) ∧
      (a < offset ∨ offset + total ≤ a → devByte start disk' a = devByte start disk a) := by
  refine ⟨?_, ?_⟩
  · intro x hx
    apply hfill.out
    omega
  · intro a ha
    constructor
    · intro hrange
      obtain ⟨k, hk⟩ : ∃ k, a / 1024 = offset / 1024 + k := Nat.exists_eq_add_of_le (by omega)
      have hlt : k < w := by omega
      have hplace : 1024 * k + a % 1024 = a - offset := by
        omega
      have hbyte := hfill.bytes k hlt (a % 1024) (mod_lt _ (by decide))
      rw [hplace, add_assoc, ← hk] at hbyte
      exact hbyte
    · intro hrange
      rw [devByte, devByte, hfill.out _ (by omega)]

/-! ## Requests that are met -/

theorem refused_none (hunit : unit < ntmp) (hstart : T.tdstart unit ≠ 0)
    (hoffset : offset < 1024 * T.tdsize unit % 2 ^ 32) :
    refused T unit ⟨iov, offset, resid⟩ = none := by
  rw [refused, if_neg (not_le.2 hunit), if_neg hstart, if_neg (not_le.2 hoffset)]

theorem swcwrite_aligned (hunit : unit < ntmp) (hstart : T.tdstart unit ≠ 0)
    (hoffset : offset < 1024 * T.tdsize unit % 2 ^ 32) (halign : offset % 1024 = 0)
    (hlens : iov.map Iovec.iovLen = l :: ls) :
    (swcwrite T unit disk stale mem ⟨iov, offset, resid⟩).2.1 =
      (writeRounds (T.tdstart unit) mem (T.tdsize unit - offset / 1024) (offset / 1024)
        0 1024 l stale disk ⟨iov, offset, resid⟩).1 := by
  have hboff : offset - 1024 * (offset / 1024) = 0 := by omega
  rw [swcwrite, refused_none hunit hstart hoffset]
  dsimp only
  rw [hboff, iovLen_of_lens hlens]
  rfl

theorem writeRounds_done (start block : ℕ) (buf : Block) (disk : ℕ → Block) (mem : Memory)
    (h : uio.Valid)
    (hrlen : rlen < 2 ^ 32) (hw : 1024 * w ≤ rlen) (hresid : 1024 * w ≤ uio.uioResid)
    (hdone : left = w ∨ w ≤ left ∧ rlen = 1024 * w) :
    Filled mem (addresses uio.uioIov) (start + block) w disk
      (writeRounds start mem left block 0 (nextSize rlen) rlen buf disk uio).1 := by
  obtain ⟨more, rfl⟩ : ∃ more, left = w + more := ⟨left - w, by omega⟩
  obtain ⟨buf', disk', uio', hrun, hfill, -⟩ := writeRounds_full start more block
    buf disk mem h hrlen hw hresid
  have hstop : (writeRounds start mem more (block + w) 0 (nextSize (rlen - 1024 * w))
    (rlen - 1024 * w) buf' disk'
      uio').1 = disk' := by
    cases more with
    | zero => rfl
    | succ more =>
      have hzero : rlen - 1024 * w = 0 := by omega
      rw [hzero, writeRounds, if_pos rfl]
  rw [hrun, hstop]
  exact hfill

/-- A first buffer of less than a block makes `rlen` wrap, and the rounds go on to the end of
the extent. -/
theorem writeRounds_wrapped (start block : ℕ) (buf : Block) (disk : ℕ → Block) (mem : Memory)
    (h : uio.Valid)
    (hpos : 0 < l) (hsmall : l < 1024) (hresid : 1024 * (left + 1) ≤ uio.uioResid)
    (hlt : uio.uioResid < 2 ^ 32) :
    Filled mem (addresses uio.uioIov) (start + block) (left + 1) disk
      (writeRounds start mem (left + 1) block 0 1024 l buf disk uio).1 := by
  obtain ⟨buf1, uio1, hrun, hbuf, hvalid, haddr, hres⟩ := writeRounds_round start left
    block buf disk mem h hpos.ne' (by omega)
  set r := (l + 2 ^ 32 - 1024) % 2 ^ 32
  have hrlen : r < 2 ^ 32 := mod_lt _ (by decide)
  have hle : 1024 * left ≤ r := by omega
  have hresid1 : 1024 * left ≤ uio1.uioResid := by omega
  have hfill := writeRounds_done start (block + 1) buf1 (update disk (start + block) buf1)
    mem hvalid hrlen hle hresid1 (.inl rfl)
  rw [haddr] at hfill
  rw [hrun]
  exact hfill.cons hbuf

theorem writeExact_of_ok (hunit : unit < ntmp) (hstart : T.tdstart unit ≠ 0)
    (hoffset : offset < 1024 * T.tdsize unit) (hsum : (l :: ls).sum < 2 ^ 32)
    (h : WriteOk (T.tdsize unit) offset l (l :: ls).sum) : WriteExact T unit offset (l :: ls) := by
  rintro disk stale mem iov disk' hlens rfl
  have hvalid : Uio.Valid ⟨iov, offset, (l :: ls).sum⟩ := valid_of_lens hlens
  have hle : l ≤ (l :: ls).sum := le_add_right _ _
  set total := (l :: ls).sum with htotal
  rcases h with hzero | ⟨hfits, halign, hpos, hcase⟩
  · -- nothing is asked for and nothing is written
    have hsame : (swcwrite T unit disk stale mem ⟨iov, offset, total⟩).2.1 = disk := by
      rw [swcwrite]
      cases refused T unit ⟨iov, offset, total⟩ with
      | some e => rfl
      | none =>
        have hl : iovLen ⟨iov, offset, total⟩ = 0 := by
          rw [iovLen_of_lens hlens]
          omega
        dsimp only
        rw [hl]
        cases T.tdsize unit - offset / 1024 with
        | zero => rfl
        | succ left => rw [writeRounds, if_pos rfl]
    rw [hsame]
    refine ⟨fun _ _ => rfl, ?_⟩
    intro a _
    exact ⟨fun hrange => absurd hrange (by omega), fun _ => rfl⟩
  · rw [swcwrite_aligned hunit hstart hfits halign hlens]
    set size := T.tdsize unit with hsize
    generalize hleft : size - offset / 1024 = left at hcase
    -- the rounds end with the extent, or with a buffer of whole blocks
    have hrounds : ∀ w, 1024 ≤ l → 1024 * w ≤ l → left = w ∨ w ≤ left ∧ l = 1024 * w →
        Filled mem (addresses iov) (T.tdstart unit + offset / 1024) w disk
          (writeRounds (T.tdstart unit) mem left (offset / 1024) 0 1024 l stale disk
            ⟨iov, offset, total⟩).1 := by
      intro w hlarge hw hdone
      have hfill := writeRounds_done (T.tdstart unit) (offset / 1024) stale
        disk mem hvalid (hle.trans_lt hsum) hw (hw.trans hle) hdone
      rwa [nextSize_of_le hlarge] at hfill
    rcases hcase with ⟨hwhole, heq⟩ | hbeyond | ⟨hsmall, hbeyond⟩
    · by_cases hq : l / 1024 ≤ left
      · exact exact_of_blocks halign (by omega)
          (hrounds (l / 1024) (by omega) (by omega) (.inr ⟨hq, by omega⟩))
      · exact exact_of_blocks halign (by omega) (hrounds left (by omega) (by omega) (.inl rfl))
    · exact exact_of_blocks halign (by omega) (hrounds left (by omega) (by omega) (.inl rfl))
    · obtain ⟨more, rfl⟩ : ∃ more, left = more + 1 := ⟨left - 1, by omega⟩
      have hfill := writeRounds_wrapped (T.tdstart unit) (offset / 1024) stale
        disk mem hvalid hpos hsmall hbeyond hsum
      refine exact_of_blocks halign ?_ hfill
      omega

/-! ## Requests that are not -/

section Exact

variable (hunit : unit < ntmp) (hstart : T.tdstart unit ≠ 0)
  (hoffset : offset < 1024 * T.tdsize unit)
  (hsum : (l :: ls).sum < 2 ^ 32) (h : WriteExact T unit offset (l :: ls)) (hne : (l :: ls).sum ≠ 0)

include hoffset h hne

theorem WriteExact.fits : offset < 1024 * T.tdsize unit % 2 ^ 32 := by
  by_contra hlt
  have hsame : (swcwrite T unit (fun _ _ => 2) (fun _ => 0) (fun _ => 1)
      ⟨consecutive 0 (l :: ls), offset, (l :: ls).sum⟩).2.1 = fun _ _ => 2 := by
    rw [swcwrite, refused, if_pos (not_lt.1 hlt)]
    split_ifs
    · rfl
    · rfl
    · rfl
  obtain ⟨-, hbytes⟩ := h (fun _ _ => 2) (fun _ => 0) (fun _ => 1) _ _
    (consecutive_lens 0 (l :: ls)) rfl
  have hbyte := (hbytes offset hoffset).1 ⟨le_rfl, by omega⟩
  rw [hsame, addresses_consecutive, callerByte] at hbyte
  rw [List.getElem?_range' (by omega)] at hbyte
  cases hbyte

include hunit hstart

theorem WriteExact.mem_iff {w a : ℕ}
    (hw : w = rounds (T.tdsize unit - offset / 1024) (devBsize - offset % 1024) l)
    (ha : a < 1024 * T.tdsize unit) :
    offset ≤ a ∧ a < offset + (l :: ls).sum ↔
      offset / 1024 ≤ a / 1024 ∧ a / 1024 < offset / 1024 + w := by
  -- The device, the buffer and the caller have different bytes.
  set uio : Uio := ⟨consecutive 0 (l :: ls), offset, (l :: ls).sum⟩ with huio
  have hvalid : uio.Valid := valid_of_lens (consecutive_lens 0 (l :: ls))
  set disk' := (swcwrite T unit (fun _ _ => 2) (fun _ => 0) (fun _ => 1) uio).2.1 with hdisk'
  have hrun : disk' = (writeRounds (T.tdstart unit) (fun _ => 1) (T.tdsize unit - offset / 1024)
    (offset / 1024)
      (offset % 1024) (devBsize - offset % 1024) l (fun _ => 0) (fun _ _ => 2) uio).1 := by
    have hboff : offset - 1024 * (offset / 1024) = offset % 1024 := by omega
    rw [hdisk', swcwrite, refused_none hunit hstart (h.fits hoffset hne)]
    dsimp only
    rw [hboff, iovLen_of_lens (consecutive_lens 0 (l :: ls))]
  obtain ⟨hout, hin⟩ := writeRounds_blocks (Q := fun b => b ≠ 2) (T.tdstart unit)
    (T.tdsize unit - offset / 1024) (offset / 1024) (offset % 1024) (devBsize - offset % 1024) l
      (fun _ => 0)
    (fun _ _ => 2) (fun _ => 1) hvalid
    (fun _ => by decide) (fun _ => by decide)
  rw [← hrun] at hout hin
  rw [huio] at hdisk'
  obtain ⟨-, hbytes⟩ := h _ _ _ _ disk' (consecutive_lens 0 (l :: ls)) hdisk'
  obtain ⟨hnamed, hothers⟩ := hbytes a ha
  constructor
  · intro hrange
    by_contra hblock
    have hbyte := hnamed hrange
    rw [devByte, hout _ (by omega), callerByte, addresses_consecutive,
      List.getElem?_range' (by omega)] at hbyte
    cases hbyte
  · by_contra hrange
    have hbyte := hothers (by omega)
    exact hin _ (by omega) (by omega) _ hbyte

theorem WriteExact.blocks {w : ℕ}
    (hw : w = rounds (T.tdsize unit - offset / 1024) (devBsize - offset % 1024) l) :
    0 < w ∧ offset % 1024 = 0 ∧
      1024 * (offset / 1024 + w) = min (offset + (l :: ls).sum) (1024 * T.tdsize unit) := by
  have hle : w ≤ T.tdsize unit - offset / 1024 := by
    rw [hw]
    exact rounds_le _ _ _
  have hiff : ∀ a < 1024 * T.tdsize unit, (offset ≤ a ∧ a < offset + (l :: ls).sum ↔
      offset / 1024 ≤ a / 1024 ∧ a / 1024 < offset / 1024 + w) :=
    fun a ha => h.mem_iff hunit hstart hoffset hne hw ha
  have hfirst := hiff offset hoffset
  have hpos : 0 < w := by omega
  have hbegin := hiff (1024 * (offset / 1024)) (by omega)
  have halign : offset % 1024 = 0 := by omega
  have hlast := hiff (1024 * (offset / 1024 + w) - 1) (by omega)
  by_cases hmore : offset / 1024 + w < T.tdsize unit
  · have hnext := hiff (1024 * (offset / 1024 + w)) (by omega)
    omega
  · omega

/-- The last round does not write a block that its first buffer fills in part only: the rest
of the block would be that of the block before. -/
theorem WriteExact.whole {q r : ℕ} (hl : l = 1024 * q + r) (hq : 0 < q) (hr : 0 < r)
    (hr' : r < 1024)
    (hlt : l < 2 ^ 32) (hmore : q < T.tdsize unit - offset / 1024) (halign : offset % 1024 = 0) :
    ¬1024 * (q + 1) ≤ (l :: ls).sum := by
  intro htotal
  set mem : Memory := fun a => if a = 1024 * q + r then 1 else 0 with hmem
  set uio : Uio := ⟨consecutive 0 (l :: ls), offset, (l :: ls).sum⟩ with huio
  have hvalid : uio.Valid := valid_of_lens (consecutive_lens 0 (l :: ls))
  have hbytes : ∀ p < (l :: ls).sum, callerByte mem (addresses uio.uioIov) p = some (mem p) := by
    intro p hp
    rw [callerByte, addresses_consecutive, List.getElem?_range' hp, zero_add, one_mul]
    rfl
  have hresid : uio.uioResid = (l :: ls).sum := by rw [huio]
  obtain ⟨left, hleft⟩ : ∃ left, T.tdsize unit - offset / 1024 = q + (left + 1) :=
    ⟨T.tdsize unit - offset / 1024 - q - 1, by omega⟩
  obtain ⟨buf, disk1, uio1, hrun, hfill, -, hlast, hvalid1, -⟩ := writeRounds_full
    (w := q) (T.tdstart unit) (left + 1) (offset / 1024) (fun _ => 0) (fun _ _ => 0) mem hvalid hlt
      (by omega) (by omega)
  have hrest : l - 1024 * q = r := by omega
  have hnext : nextSize r = r := if_neg (by unfold devBsize; omega)
  rw [hrest, hnext, nextSize_of_le (by omega)] at hrun
  obtain ⟨uio2, hmove, -⟩ := move_spec .write buf 0 r mem hvalid1
  -- the block that is written in part
  set disk' := (swcwrite T unit (fun _ _ => 0) (fun _ => 0) mem uio).2.1 with hdisk'
  have hblock : disk' (T.tdstart unit + (offset / 1024 + q)) r = mem (1024 * (q - 1) + r) := by
    have hswc : disk' = (writeRounds (T.tdstart unit) mem (left + 1) (offset / 1024 + q)
        0 r r buf disk1 uio1).1 := by
      rw [hdisk', swcwrite_aligned hunit hstart (h.fits hoffset hne) halign
        (consecutive_lens 0 (l :: ls)), hleft]
      exact congrArg Prod.fst hrun
    have hzero : (r + 2 ^ 32 - r) % 2 ^ 32 = 0 := by
      rw [Nat.add_sub_cancel_left, Nat.mod_self]
    have hstop : (writeRounds (T.tdstart unit) mem (left + 1) (offset / 1024 + q)
      0 r r buf disk1 uio1).1 =
        update disk1 (T.tdstart unit + (offset / 1024 + q))
          (place buf 0 (((addresses uio1.uioIov).take (min r uio1.uioResid)).map mem)) := by
      rw [writeRounds, if_neg hr.ne']
      rw [hmove, hzero]
      cases left with
      | zero => rfl
      | succ left => rw [writeRounds]; rfl
    have hbuf := hfill.bytes (q - 1) (by omega) r hr'
    rw [hbytes _ (by omega), hlast hq] at hbuf
    rw [hswc, hstop, update_self, place_of_le, ← Option.some.inj hbuf]
    rw [length_map, length_take]
    omega
  rw [huio] at hdisk'
  obtain ⟨-, hexact⟩ := h _ _ _ _ disk' (consecutive_lens 0 (l :: ls)) hdisk'
  have hnamed := (hexact (offset + (1024 * q + r)) (by omega)).1 ⟨by omega, by omega⟩
  have hdiv : (offset + (1024 * q + r)) / 1024 = offset / 1024 + q := by omega
  have hmod : (offset + (1024 * q + r)) % 1024 = r := by omega
  have hcaller := hbytes (1024 * q + r) (by omega)
  rw [huio] at hcaller
  rw [Nat.add_sub_cancel_left, hcaller, devByte, hdiv, hmod, hblock, hmem] at hnamed
  have hvalue := Option.some.inj hnamed
  dsimp only at hvalue
  rw [if_pos rfl, if_neg (by omega)] at hvalue
  exact absurd hvalue (by decide)

end Exact

theorem writeOk_of_exact (hunit : unit < ntmp) (hstart : T.tdstart unit ≠ 0)
    (hoffset : offset < 1024 * T.tdsize unit) (hsum : (l :: ls).sum < 2 ^ 32)
    (h : WriteExact T unit offset (l :: ls)) : WriteOk (T.tdsize unit) offset l (l :: ls).sum := by
  by_cases hne : (l :: ls).sum = 0
  · exact .inl hne
  have hle : l ≤ (l :: ls).sum := le_add_right _ _
  set w := rounds (T.tdsize unit - offset / 1024) (devBsize - offset % 1024) l with hw
  obtain ⟨-, halign, hend⟩ := h.blocks hunit hstart hoffset hne hw
  have hl : 0 < l := by
    rcases Nat.eq_zero_or_pos l with hzero | hlpos
    · rw [hzero] at hw
      cases hleft : T.tdsize unit - offset / 1024 with
      | zero =>
        omega
      | succ left =>
        rw [hleft, rounds, if_pos rfl] at hw
        omega
    · exact hlpos
  have hwhole := fun q r => h.whole (q := q) (r := r) hunit hstart hoffset hne
  have hsize : devBsize - offset % 1024 = 1024 := by
    rw [halign]
    rfl
  refine .inr ⟨h.fits hoffset hne, halign, hl, ?_⟩
  generalize hleft : T.tdsize unit - offset / 1024 = left at hw hwhole
  rw [hsize] at hw
  by_cases hsmall : l < 1024
  · -- `rlen` wraps
    refine .inr (.inr ⟨hsmall, ?_⟩)
    cases left with
    | zero => omega
    | succ left =>
      set r := (l + 2 ^ 32 - 1024) % 2 ^ 32
      have hrlt : r < 2 ^ 32 := mod_lt _ (by decide)
      rw [rounds, if_neg hl.ne', rounds_next hrlt] at hw
      omega
  · rw [← nextSize_of_le (not_lt.1 hsmall), rounds_next (hle.trans_lt hsum)] at hw
    by_cases hbeyond : left ≤ l / 1024
    · exact .inr (.inl hbeyond)
    · by_cases hrem : l % 1024 = 0
      · omega
      · exact absurd (by omega) (hwhole (l / 1024) (l % 1024) (by omega) (by omega) (by omega)
          (by omega) (hle.trans_lt hsum) (by omega) halign)

/-! ## Both calls -/

theorem readCount_eq_min_iff {size : ℕ} (hle : l ≤ total) :
    readCount size offset l total = min total (1024 * size - offset) ↔
      total = l ∨ 1024 * size - offset ≤ l ∨ 0 < l ∧ l < 1024 - offset % 1024 := by
  rw [readCount]
  split_ifs with hshort
  · exact iff_of_true rfl (.inr (.inr hshort))
  · omega

theorem readExact_iff {ls : List ℕ} (hunit : unit < ntmp) (hstart : T.tdstart unit ≠ 0)
    (hsum : (l :: ls).sum < 2 ^ 32) :
    ReadExact T unit offset (l :: ls) ↔ ReadOk (T.tdsize unit) offset l (l :: ls).sum := by
  have hle : l ≤ (l :: ls).sum := by
    rw [sum_cons]
    omega
  constructor
  · intro h
    obtain ⟨n, uio', hn, hrun, -, hresid⟩ :=
      h (fun _ _ => 0) (fun _ => 0) _ (consecutive_lens 0 (l :: ls))
    have hfits : offset < 1024 * T.tdsize unit % 2 ^ 32 := by
      by_contra hbehind
      have hrefused : refused T unit ⟨consecutive 0 (l :: ls), offset, (l :: ls).sum⟩ =
          some eio := by
        rw [refused, if_neg (not_le.2 hunit), if_neg hstart, if_pos (not_lt.1 hbehind)]
      rw [swcread, hrefused] at hrun
      have heio : eio = 0 := congrArg Prod.fst hrun
      exact absurd heio (by decide)
    refine ⟨hfits, (readCount_eq_min_iff hle).1 ?_⟩
    -- both counts are what is missing from `uio_resid` afterwards
    obtain ⟨n', uio'', hn', hn'le, hrun', -, hresid'⟩ := swcread_spec hunit hstart hfits
      (valid_of_lens (consecutive_lens 0 (l :: ls))) hsum
        ((iovLen_of_lens (consecutive_lens 0 (l :: ls))).trans_le hle)
    rw [iovLen_of_lens (consecutive_lens 0 (l :: ls))] at hn'
    obtain rfl : uio' = uio'' := congrArg (fun r => r.2.2) (hrun.symm.trans hrun')
    dsimp only at hn' hn'le hresid'
    omega
  · rintro ⟨hfits, hcount⟩ disk mem iov hiov
    obtain ⟨n, uio', hn, -, hrun, hoff, hresid⟩ :=
      swcread_spec hunit hstart hfits (valid_of_lens hiov) hsum ((iovLen_of_lens hiov).trans_le hle)
    rw [iovLen_of_lens hiov, (readCount_eq_min_iff hle).2 hcount] at hn
    exact ⟨n, uio', hn, hrun, hoff, hresid⟩

end RetroBSD.TempDevice
