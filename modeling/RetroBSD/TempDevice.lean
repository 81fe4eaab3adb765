import RetroBSD.UserBuffers

/-!
# Temporary devices in the swap area

The character devices of pic32/swap.c: each unit has an extent of blocks in the swap area.
A transfer goes block by block through a buffer of the cache. The number of bytes still to
be moved is kept beside the `uio`, as an unsigned number.
-/

namespace RetroBSD.TempDevice

open LittleEndian ByteCopy Ufs List Nat

def ntmp : ℕ := 3

def enodev : ℕ := 19

def eio : ℕ := 5

structure Units where
  tdstart : ℕ → ℕ
  tdsize : ℕ → ℕ

def iovLen (uio : Uio) : ℕ :=
  match uio.uioIov with
  | [] => 0
  | v :: _ => v.iovLen

def nextSize (rlen : ℕ) : ℕ := if devBsize ≤ rlen then devBsize else rlen

/-- The loop of `swcread`, with `left` blocks up to the end of the extent. -/
def readRounds (start : ℕ) (disk : ℕ → Block) : ℕ → ℕ → ℕ → ℕ → ℕ → Memory → Uio → Memory × Uio
  | 0, _, _, _, _, mem, uio => (mem, uio)
  | left + 1, block, boff, rsize, rlen, mem, uio =>
    if rlen = 0 then (mem, uio)
    else
      let m := uiomove .read (disk (start + block)) boff rsize mem uio
      let rlen := (rlen + 2 ^ 32 - rsize) % 2 ^ 32
      readRounds start disk left (block + 1) 0 (nextSize rlen) rlen m.2.1 m.2.2

/-- The loop of `swcwrite`. The buffer is not filled from the device. -/
def writeRounds (start : ℕ) (mem : Memory) : ℕ → ℕ → ℕ → ℕ → ℕ → Block → (ℕ → Block) → Uio → (ℕ → Block) × Uio
  | 0, _, _, _, _, _, disk, uio => (disk, uio)
  | left + 1, block, boff, rsize, rlen, buf, disk, uio =>
    if rlen = 0 then (disk, uio)
    else
      let m := uiomove .write buf boff rsize mem uio
      let rlen := (rlen + 2 ^ 32 - rsize) % 2 ^ 32
      writeRounds start mem left (block + 1) 0 (nextSize rlen) rlen m.1
        (Function.update disk (start + block) m.1) m.2.2

def refused (T : Units) (unit : ℕ) (uio : Uio) : Option ℕ :=
  if ntmp ≤ unit then some enodev
  else if T.tdstart unit = 0 then some eio
  else if 1024 * T.tdsize unit % 2 ^ 32 ≤ uio.uioOffset then some eio
  else none

def swcread (T : Units) (unit : ℕ) (disk : ℕ → Block) (mem : Memory) (uio : Uio) : ℕ × Memory × Uio :=
  match refused T unit uio with
  | some e => (e, mem, uio)
  | none =>
    let block := uio.uioOffset / 1024
    let boff := uio.uioOffset - 1024 * block
    (0, readRounds (T.tdstart unit) disk (T.tdsize unit - block) block boff (devBsize - boff) (iovLen uio) mem uio)

/-- The buffer that `getnewbuf` returns has `stale` in it. -/
def swcwrite (T : Units) (unit : ℕ) (disk : ℕ → Block) (stale : Block) (mem : Memory) (uio : Uio) :
    ℕ × (ℕ → Block) × Uio :=
  match refused T unit uio with
  | some e => (e, disk, uio)
  | none =>
    let block := uio.uioOffset / 1024
    let boff := uio.uioOffset - 1024 * block
    (0, writeRounds (T.tdstart unit) mem (T.tdsize unit - block) block boff (devBsize - boff)
      (iovLen uio) stale disk uio)

def devByte (start : ℕ) (disk : ℕ → Block) (a : ℕ) : UInt8 := disk (start + a / 1024) (a % 1024)

variable {T : Units} {unit start left block boff rlen w n : ℕ} {disk disk' : ℕ → Block} {buf stale : Block}
  {mem : Memory} {uio uio' : Uio}

theorem sub_mod_of_le {a b m : ℕ} (hle : b ≤ a) (ha : a < m) : (a + m - b) % m = a - b := by
  rw [show a + m - b = a - b + m by omega, add_mod_right, mod_eq_of_lt (by omega)]

/-! ## One move -/

theorem uiomove_min (rw : Rw) (buf : Block) (cp n : ℕ) (mem : Memory) (uio : Uio) (h : uio.Valid) :
    uiomove rw buf cp n mem uio = uiomove rw buf cp (min n uio.uioResid) mem uio := by
  induction hk : n + uio.uioIov.length using Nat.strong_induction_on generalizing buf cp n mem uio with
  | _ k ih =>
  rcases uio with ⟨iov, offset, resid⟩
  by_cases hle : n ≤ resid
  · rw [min_eq_left hle]
  rw [min_eq_right (by dsimp only; omega)]
  rw [uiomove.eq_def, uiomove.eq_def rw buf cp]
  by_cases hstop : resid = 0
  · rw [if_pos (.inr hstop), if_pos (.inr hstop)]
  rw [if_neg (by dsimp only; omega), if_neg (by dsimp only; omega)]
  cases iov with
  | nil => rfl
  | cons v iov =>
    have hroom : resid = (addresses (v :: iov)).length := h
    rw [addresses_cons, length_append, length_range'] at hroom
    dsimp only
    rw [length_cons] at hk
    split_ifs with hlen
    · have hvalid : Uio.Valid ⟨iov, offset, resid⟩ := by
        change resid = (addresses iov).length
        omega
      have hrec := ih (n + iov.length) (by omega) buf cp n mem ⟨iov, offset, resid⟩ hvalid rfl
      rw [hrec, min_eq_right (by dsimp only; omega)]
    · rw [min_eq_left (by omega), min_eq_left (by omega)]
      have hvalid : Uio.Valid ⟨⟨v.iovBase + v.iovLen, v.iovLen - v.iovLen⟩ :: iov,
          offset + v.iovLen, resid - v.iovLen⟩ := by
        change resid - v.iovLen = (addresses (_ :: iov)).length
        rw [addresses_cons, length_append, length_range']
        dsimp only
        omega
      have hrec := ih (n - v.iovLen + (iov.length + 1)) (by omega)
        (moveBytes rw buf cp mem v.iovBase v.iovLen).1 (cp + v.iovLen) (n - v.iovLen)
        (moveBytes rw buf cp mem v.iovBase v.iovLen).2 _ hvalid rfl
      rw [hrec, min_eq_right (by dsimp only; omega)]

theorem move_spec (rw : Rw) (buf : Block) (cp n : ℕ) (mem : Memory) (h : uio.Valid) :
    ∃ uio', uiomove rw buf cp n mem uio =
        ((moved rw buf cp mem ((addresses uio.uioIov).take (min n uio.uioResid))).1,
          (moved rw buf cp mem ((addresses uio.uioIov).take (min n uio.uioResid))).2, uio') ∧
      uio'.Valid ∧ addresses uio'.uioIov = (addresses uio.uioIov).drop (min n uio.uioResid) ∧
      uio'.uioOffset = uio.uioOffset + min n uio.uioResid ∧ uio'.uioResid = uio.uioResid - min n uio.uioResid := by
  obtain ⟨uio', hmove, haddr, hoff, hresid⟩ :=
    uiomove_spec rw buf cp (min n uio.uioResid) mem uio (min_le_right _ _) h.le
  refine ⟨uio', ?_, h.moved haddr hresid, haddr, hoff, hresid⟩
  rw [uiomove_min rw buf cp n mem uio h]
  exact hmove

/-! ## Reading -/

theorem bytes_block (hn : boff + n ≤ 1024) :
    bytes (disk (start + block)) boff n = bytes (devByte start disk) (1024 * block + boff) n := by
  apply bytes_congr
  intro i hi
  have hdiv : (1024 * block + boff + i) / 1024 = block := by omega
  have hmod : (1024 * block + boff + i) % 1024 = boff + i := by omega
  rw [devByte, hdiv, hmod]

theorem bytes_rounds {f : Memory} {offset next c e : ℕ} (h : offset + c = next ∨ e = 0) :
    bytes f offset c ++ bytes f next e = bytes f offset (c + e) := by
  rcases h with rfl | rfl
  · exact bytes_append f offset c e
  · exact append_nil _

theorem readRounds_succ (start : ℕ) (disk : ℕ → Block) (left block : ℕ) (mem : Memory) {rsize : ℕ}
    (h : uio.Valid) (hrlen : rlen ≠ 0) (hsize : boff + rsize ≤ 1024) :
    ∃ uio' : Uio, readRounds start disk (left + 1) block boff rsize rlen mem uio =
        readRounds start disk left (block + 1) 0 (nextSize ((rlen + 2 ^ 32 - rsize) % 2 ^ 32))
          ((rlen + 2 ^ 32 - rsize) % 2 ^ 32)
          (scatter mem ((addresses uio.uioIov).take (min rsize uio.uioResid))
            (bytes (devByte start disk) (1024 * block + boff) (min rsize uio.uioResid))) uio' ∧
      uio'.Valid ∧ addresses uio'.uioIov = (addresses uio.uioIov).drop (min rsize uio.uioResid) ∧
      uio'.uioOffset = uio.uioOffset + min rsize uio.uioResid ∧
      uio'.uioResid = uio.uioResid - min rsize uio.uioResid := by
  obtain ⟨uio', hmove, hvalid, haddr, hoff, hresid⟩ := move_spec .read (disk (start + block)) boff rsize mem h
  have hlen : ((addresses uio.uioIov).take (min rsize uio.uioResid)).length = min rsize uio.uioResid := by
    rw [length_take, ← show uio.uioResid = _ from h]
    omega
  refine ⟨uio', ?_, hvalid, haddr, hoff, hresid⟩
  rw [readRounds, if_neg hrlen]
  dsimp only
  rw [hmove]
  simp only [moved]
  rw [hlen, bytes_block (by omega)]

theorem readRounds_spec (start : ℕ) (disk : ℕ → Block) (left block : ℕ) (mem : Memory) (h : uio.Valid)
    (hrlen : rlen < 2 ^ 32) :
    ∃ uio' : Uio, readRounds start disk left block 0 (nextSize rlen) rlen mem uio =
        (scatter mem ((addresses uio.uioIov).take (min (min rlen uio.uioResid) (1024 * left)))
          (bytes (devByte start disk) (1024 * block) (min (min rlen uio.uioResid) (1024 * left))), uio') ∧
      uio'.uioOffset = uio.uioOffset + min (min rlen uio.uioResid) (1024 * left) ∧
      uio'.uioResid = uio.uioResid - min (min rlen uio.uioResid) (1024 * left) := by
  induction left generalizing block rlen mem uio with
  | zero =>
    refine ⟨uio, ?_, ?_, ?_⟩
    · rw [readRounds, mul_zero, min_zero, take_zero]
      rfl
    · omega
    · omega
  | succ left ih =>
    by_cases hzero : rlen = 0
    · subst hzero
      refine ⟨uio, ?_, ?_, ?_⟩
      · rw [readRounds, if_pos rfl, zero_min, zero_min, take_zero]
        rfl
      · omega
      · omega
    · have hsize : nextSize rlen = min 1024 rlen := by
        unfold nextSize devBsize
        split_ifs with hle
        · omega
        · omega
      obtain ⟨uio1, hrun, hvalid, haddr, hoff, hresid⟩ := readRounds_succ start disk left block mem
        h hzero (show 0 + nextSize rlen ≤ 1024 by omega)
      have hmod := sub_mod_of_le (show nextSize rlen ≤ rlen by omega) hrlen
      rw [hmod] at hrun
      obtain ⟨uio', hrest, hoff', hresid'⟩ := ih (block + 1)
        (scatter mem ((addresses uio.uioIov).take (min (nextSize rlen) uio.uioResid))
          (bytes (devByte start disk) (1024 * block + 0) (min (nextSize rlen) uio.uioResid))) hvalid
        (show rlen - nextSize rlen < 2 ^ 32 by omega)
      set c := min (nextSize rlen) uio.uioResid
      obtain ⟨e, he⟩ : ∃ e, e = min (min (rlen - nextSize rlen) uio1.uioResid) (1024 * left) := ⟨_, rfl⟩
      have htotal : min (min rlen uio.uioResid) (1024 * (left + 1)) = c + e := by
        rw [hresid] at he
        omega
      have hroom : uio.uioResid = (addresses uio.uioIov).length := h
      have hnext : 1024 * block + 0 + c = 1024 * (block + 1) ∨ e = 0 := by
        rw [hresid] at he
        omega
      have hlen : ((addresses uio.uioIov).take c).length =
          (bytes (devByte start disk) (1024 * block + 0) c).length := by
        rw [length_bytes, length_take]
        omega
      refine ⟨uio', ?_, ?_, ?_⟩
      · rw [hrun, hrest, ← he, haddr, htotal, scatter_append _ hlen, ← take_add,
          bytes_rounds hnext, add_zero]
      · rw [hoff', hoff, ← he, htotal, add_assoc]
      · rw [hresid', ← he, hresid, htotal, Nat.sub_sub]

/-- How many bytes a call moves, for a request of `l` bytes in the first of its buffers and
`total` in all. -/
def readCount (size offset l total : ℕ) : ℕ :=
  min (if 0 < l ∧ l < 1024 - offset % 1024 then total else l) (1024 * size - offset)

/-- The bytes of the first round and of the others. A first buffer that does not fill the
first round makes `rlen` wrap, and then all that is asked for is moved. -/
theorem readCount_eq {size offset l total block left r c e : ℕ} (hl : l ≠ 0) (hle : l ≤ total)
    (htotal : total < 2 ^ 32) (hblock : block = offset / 1024) (hleft : size - block = left + 1)
    (hr : r = (l + 2 ^ 32 - (devBsize - offset % 1024)) % 2 ^ 32) (hc : c = min (devBsize - offset % 1024) total)
    (he : e = min (min r (total - c)) (1024 * left)) : readCount size offset l total = c + e := by
  unfold devBsize at hr hc
  obtain ⟨q, hq⟩ : ∃ q, q = 1024 - offset % 1024 := ⟨_, rfl⟩
  set M := 2 ^ 32 with hM
  have hlarge : 1024 < M := by
    decide
  have hend : 1024 * size - offset = q + 1024 * left := by omega
  rw [readCount, ← hq, hend]
  rw [← hq] at hr hc
  by_cases hwrap : l < q
  · have hmod : (l + M - q) % M = l + M - q := mod_eq_of_lt (by omega)
    rw [if_pos ⟨pos_of_ne_zero hl, hwrap⟩]
    rw [hmod] at hr
    clear hM hend hleft hblock hq
    omega
  · rw [if_neg (fun hlt => hwrap hlt.2)]
    rw [sub_mod_of_le (not_lt.1 hwrap) (by omega)] at hr
    clear hM hend hleft hblock hq
    omega

theorem swcread_spec (hunit : unit < ntmp) (hstart : T.tdstart unit ≠ 0)
    (hoffset : uio.uioOffset < 1024 * T.tdsize unit % 2 ^ 32) (h : uio.Valid) (hresid : uio.uioResid < 2 ^ 32)
    (hfirst : iovLen uio ≤ uio.uioResid) :
    ∃ n uio', n = readCount (T.tdsize unit) uio.uioOffset (iovLen uio) uio.uioResid ∧ n ≤ uio.uioResid ∧
      swcread T unit disk mem uio =
        (0, scatter mem ((addresses uio.uioIov).take n)
          (bytes (devByte (T.tdstart unit) disk) uio.uioOffset n), uio') ∧
      uio'.uioOffset = uio.uioOffset + n ∧ uio'.uioResid = uio.uioResid - n := by
  have hgo : refused T unit uio = none := by
    rw [refused, if_neg (not_le.2 hunit), if_neg hstart, if_neg (not_le.2 hoffset)]
  have hlt : uio.uioOffset < 1024 * T.tdsize unit := hoffset.trans_le (mod_le _ _)
  obtain ⟨block, hblock⟩ : ∃ b, b = uio.uioOffset / 1024 := ⟨_, rfl⟩
  have hboff : uio.uioOffset - 1024 * block = uio.uioOffset % 1024 := by omega
  obtain ⟨left, hleft⟩ : ∃ left, T.tdsize unit - block = left + 1 := ⟨T.tdsize unit - block - 1, by omega⟩
  rw [swcread, hgo]
  dsimp only
  rw [← hblock, hboff, hleft]
  by_cases hzero : iovLen uio = 0
  · refine ⟨0, uio, ?_, zero_le _, ?_, rfl, rfl⟩
    · rw [readCount, hzero, if_neg (by omega), zero_min]
    · rw [readRounds, if_pos hzero, take_zero]
      rfl
  · have hsize : uio.uioOffset % 1024 + (devBsize - uio.uioOffset % 1024) ≤ 1024 := by
      unfold devBsize
      omega
    obtain ⟨uio1, hrun, hvalid, haddr, hoff1, hresid1⟩ := readRounds_succ (T.tdstart unit) disk left
      block mem h hzero hsize
    obtain ⟨uio', hrest, hoff', hresid'⟩ := readRounds_spec (T.tdstart unit) disk left (block + 1)
      (scatter mem ((addresses uio.uioIov).take (min (devBsize - uio.uioOffset % 1024) uio.uioResid))
        (bytes (devByte (T.tdstart unit) disk) (1024 * block + uio.uioOffset % 1024)
          (min (devBsize - uio.uioOffset % 1024) uio.uioResid)))
      hvalid (Nat.mod_lt (iovLen uio + 2 ^ 32 - (devBsize - uio.uioOffset % 1024)) (Nat.two_pow_pos 32))
    obtain ⟨r, hr⟩ : ∃ r, r = (iovLen uio + 2 ^ 32 - (devBsize - uio.uioOffset % 1024)) % 2 ^ 32 := ⟨_, rfl⟩
    set c := min (devBsize - uio.uioOffset % 1024) uio.uioResid with hc
    obtain ⟨e, he⟩ : ∃ e, e = min (min r uio1.uioResid) (1024 * left) := ⟨_, rfl⟩
    have hbsize : devBsize = 1024 := rfl
    have htotal : readCount (T.tdsize unit) uio.uioOffset (iovLen uio) uio.uioResid = c + e := by
      rw [hresid1] at he
      exact readCount_eq hzero hfirst hresid hblock hleft hr hc he
    have hroom : uio.uioResid = (addresses uio.uioIov).length := h
    rw [← hr, ← he] at hrest
    rw [← hr, ← he] at hoff' hresid'
    rw [← hr] at hrun
    clear hr
    have hfirst' : 1024 * block + uio.uioOffset % 1024 = uio.uioOffset := by omega
    have hnext : uio.uioOffset + c = 1024 * (block + 1) ∨ e = 0 := by
      unfold devBsize at hc
      omega
    have hlen : ((addresses uio.uioIov).take c).length =
        (bytes (devByte (T.tdstart unit) disk) uio.uioOffset c).length := by
      rw [length_bytes, length_take]
      omega
    rw [hfirst'] at hrun hrest
    refine ⟨c + e, uio', htotal.symm, by omega, ?_, ?_, ?_⟩
    · rw [hrun, hrest, haddr, scatter_append _ hlen, ← take_add, bytes_rounds hnext]
    · rw [hoff', hoff1, add_assoc]
    · rw [hresid', hresid1, Nat.sub_sub]

end RetroBSD.TempDevice
