import RetroBSD.TempDeviceWrites

/-!
# Isolation of the temporary devices

Which blocks of the swap area the routines of pic32/swap.c reach, for any offset and any
length. The character routines test every block against the end of the extent. `swstrategy`
tests the first block of a request only, and lets the block behind the extent pass; a request
that it turns down is never completed.
-/

namespace RetroBSD.TempDevice

open LittleEndian ByteCopy Ufs

/-! ## Character requests -/

def visited (start : ℕ) : ℕ → ℕ → ℕ → ℕ → List ℕ
  | 0, _, _, _ => []
  | left + 1, block, rsize, rlen =>
    if rlen = 0 then []
    else
      let rlen := (rlen + 2 ^ 32 - rsize) % 2 ^ 32
      (start + block) % 2 ^ 32 :: visited start left (block + 1) (nextSize rlen) rlen

/-- `uio_offset` where it is compared with an unsigned number. -/
def unsigned (offset : ℤ) : ℕ := (offset % 2 ^ 32).toNat

/-- The error of `swcread` and `swcwrite` and the blocks they reach. The offset is an `off_t`,
so the shift keeps its sign before the result becomes the unsigned `block`. -/
def charAccess (T : Units) (unit : ℕ) (offset : ℤ) (iovLen : ℕ) : ℕ × List ℕ :=
  if ntmp ≤ unit then (enodev, [])
  else if T.tdstart unit = 0 then (eio, [])
  else if 1024 * T.tdsize unit % 2 ^ 32 ≤ unsigned offset then (eio, [])
  else
    let block := unsigned (offset / 1024)
    (0, visited (T.tdstart unit) (T.tdsize unit - block) block (devBsize - unsigned offset % 1024) iovLen)

/-! ## Block requests -/

structure Buf where
  unit : ℕ
  bBlkno : ℤ
  bBcount : ℕ

/-- What it does: a call of `swap`, a request passed on to the swap device as a whole, and
`biodone`. -/
inductive Effect
  | swap (blkno count : ℕ)
  | forward
  | biodone
  deriving DecidableEq

def btod (count : ℕ) : ℕ := (count + (devBsize - 1)) / devBsize

def Effect.blocks : Effect → List ℕ
  | .swap blkno count => (List.range (btod count)).map fun i => (blkno + i) % 2 ^ 32
  | _ => []

def swstrategy (T : Units) (bp : Buf) : List Effect :=
  if bp.unit = 64 then [.forward]
  else if ntmp ≤ bp.unit then []
  else if T.tdstart bp.unit = 0 then []
  else if T.tdsize bp.unit < unsigned bp.bBlkno then []
  else [.swap ((T.tdstart bp.unit + unsigned bp.bBlkno) % 2 ^ 32) bp.bBcount, .biodone]

/-! ## The character routines move the bytes of the blocks they visit -/

variable {T : Units} {unit : ℕ} {mem : Memory} {uio : Uio} {start rsize block rlen left : ℕ}

variable (hstart : start + (block + left) ≤ 2 ^ 32)
include hstart

theorem mem_visited {b : ℕ}
    (hb : b ∈ visited start left block rsize rlen) : start + block ≤ b ∧ b < start + (block + left) := by
  induction left generalizing block rsize rlen with
  | zero => cases hb
  | succ left ih =>
    rw [visited] at hb
    split_ifs at hb with hzero
    · cases hb
    · rcases List.mem_cons.1 hb with rfl | hb
      · omega
      · have := ih (by omega) hb
        omega

theorem readRounds_congr {boff : ℕ} {disk disk' : ℕ → Block} (h : ∀ b ∈ visited start left block rsize rlen, disk b = disk' b) :
    readRounds start disk left block boff rsize rlen mem uio =
      readRounds start disk' left block boff rsize rlen mem uio := by
  induction left generalizing block boff rsize rlen mem uio with
  | zero => rfl
  | succ left ih =>
    rw [readRounds, readRounds]
    rw [visited] at h
    split_ifs at h ⊢ with hzero
    · rfl
    · have hfirst := h _ List.mem_cons_self
      rw [Nat.mod_eq_of_lt (by omega)] at hfirst
      rw [hfirst]
      exact ih (by omega) fun b hb => h b (List.mem_cons_of_mem _ hb)

theorem writeRounds_frame {boff b : ℕ} {buf : Block} {disk : ℕ → Block} (hb : b ∉ visited start left block rsize rlen) :
    (writeRounds start mem left block boff rsize rlen buf disk uio).1 b = disk b := by
  induction left generalizing block boff rsize rlen buf disk uio with
  | zero => rfl
  | succ left ih =>
    rw [writeRounds]
    rw [visited] at hb
    split_ifs at hb ⊢ with hzero
    · rfl
    · rw [List.mem_cons, not_or, Nat.mod_eq_of_lt (by omega)] at hb
      rw [ih (by omega) hb.2, Function.update_of_ne hb.1]

omit hstart

theorem unsigned_natCast {n : ℕ} (h : n < 2 ^ 32) : unsigned n = n := by
  rw [unsigned, Int.emod_eq_of_lt (by omega) (by exact_mod_cast h), Int.toNat_natCast]

/-- For an offset that is not negative `charAccess` tells the error and the blocks of the
two routines. -/
theorem charAccess_sound (hext : T.tdstart unit + T.tdsize unit ≤ 2 ^ 32) (hoffset : uio.uioOffset < 2 ^ 31)
    (disk : ℕ → Block) (stale : Block) (mem : Memory) :
    (swcread T unit disk mem uio).1 = (charAccess T unit uio.uioOffset (iovLen uio)).1 ∧
      (swcwrite T unit disk stale mem uio).1 = (charAccess T unit uio.uioOffset (iovLen uio)).1 ∧
      (∀ disk', (∀ b ∈ (charAccess T unit uio.uioOffset (iovLen uio)).2, disk b = disk' b) →
        swcread T unit disk mem uio = swcread T unit disk' mem uio) ∧
      ∀ b, b ∉ (charAccess T unit uio.uioOffset (iovLen uio)).2 →
        (swcwrite T unit disk stale mem uio).2.1 b = disk b := by
  have hword : unsigned uio.uioOffset = uio.uioOffset := unsigned_natCast (by omega)
  have hblock : unsigned ((uio.uioOffset : ℤ) / 1024) = uio.uioOffset / 1024 := by
    rw [show ((uio.uioOffset : ℤ) / 1024) = ((uio.uioOffset / 1024 : ℕ) : ℤ) by rfl]
    exact unsigned_natCast (by omega)
  have hboff : uio.uioOffset - 1024 * (uio.uioOffset / 1024) = uio.uioOffset % 1024 := by omega
  cases hgo : refused T unit uio with
  | some e =>
    have haccess : charAccess T unit uio.uioOffset (iovLen uio) = (e, []) := by
      rw [refused] at hgo
      rw [charAccess, hword]
      split_ifs at hgo ⊢
      all_goals rw [Option.some.inj hgo]
    simp only [swcread, swcwrite, hgo, haccess]
    exact ⟨trivial, trivial, fun _ _ => trivial, fun _ _ => trivial⟩
  | none =>
    have haccess : charAccess T unit uio.uioOffset (iovLen uio) =
        (0, visited (T.tdstart unit) (T.tdsize unit - uio.uioOffset / 1024) (uio.uioOffset / 1024)
          (devBsize - uio.uioOffset % 1024) (iovLen uio)) := by
      rw [refused] at hgo
      rw [charAccess, hword, hblock]
      split_ifs at hgo ⊢
      rfl
    have hinside : uio.uioOffset < 1024 * T.tdsize unit := by
      rw [refused] at hgo
      split_ifs at hgo with h1 h2 h3
      exact (not_le.1 h3).trans_le (Nat.mod_le _ _)
    have hend : T.tdstart unit + (uio.uioOffset / 1024 + (T.tdsize unit - uio.uioOffset / 1024)) ≤ 2 ^ 32 := by
      have : uio.uioOffset / 1024 + (T.tdsize unit - uio.uioOffset / 1024) = T.tdsize unit := by omega
      rwa [this]
    simp only [swcread, swcwrite, hgo, haccess, hboff]
    refine ⟨trivial, trivial, fun disk' h => ?_, fun b hb => ?_⟩
    · rw [readRounds_congr hend h]
    · exact writeRounds_frame hend hb

/-! ## What is reached -/

def extent (T : Units) (unit : ℕ) : Set ℕ := Set.Ico (T.tdstart unit) (T.tdstart unit + T.tdsize unit)

theorem charAccess_subset (hext : T.tdstart unit + T.tdsize unit ≤ 2 ^ 32) (offset : ℤ) (len : ℕ) :
    ∀ b ∈ (charAccess T unit offset len).2, b ∈ extent T unit := by
  intro b hb
  rw [charAccess] at hb
  split_ifs at hb
  · cases hb
  · cases hb
  · cases hb
  · dsimp only at hb
    by_cases hblock : unsigned (offset / 1024) < T.tdsize unit
    · have hend : T.tdstart unit + (unsigned (offset / 1024) + (T.tdsize unit - unsigned (offset / 1024))) =
          T.tdstart unit + T.tdsize unit := by omega
      have := mem_visited (hend.trans_le hext) hb
      exact ⟨by omega, by omega⟩
    · -- the loop is not entered
      rw [show T.tdsize unit - unsigned (offset / 1024) = 0 by omega] at hb
      cases hb

theorem charAccess_behind {offset : ℤ} (len : ℕ) (hoffset : offset < 2 ^ 31)
    (hbehind : (1024 * T.tdsize unit : ℕ) ≤ offset) :
    (charAccess T unit offset len).1 ≠ 0 ∧ (charAccess T unit offset len).2 = [] := by
  obtain ⟨n, rfl⟩ := Int.eq_ofNat_of_zero_le (show 0 ≤ offset by omega)
  have hle : 1024 * T.tdsize unit ≤ n := by exact_mod_cast hbehind
  have hword : unsigned n = n := unsigned_natCast (by omega)
  rw [charAccess, hword, Nat.mod_eq_of_lt (by omega)]
  split_ifs
  · exact ⟨by decide, rfl⟩
  · exact ⟨by decide, rfl⟩
  · exact ⟨by decide, rfl⟩

/-- A request for blocks of the extent reaches no others and is completed once. -/
theorem swstrategy_inside {bp : Buf} (hunit : bp.unit < ntmp) (hstart : T.tdstart bp.unit ≠ 0)
    (hext : T.tdstart bp.unit + T.tdsize bp.unit ≤ 2 ^ 32) (hblkno : 0 ≤ bp.bBlkno)
    (hend : bp.bBlkno + btod bp.bBcount ≤ T.tdsize bp.unit) :
    (∀ b ∈ (swstrategy T bp).flatMap Effect.blocks, b ∈ extent T bp.unit) ∧
      (swstrategy T bp).count .biodone = 1 := by
  obtain ⟨unit, blkno, bcount⟩ := bp
  dsimp only at *
  obtain ⟨n, rfl⟩ := Int.eq_ofNat_of_zero_le hblkno
  have hword : unsigned n = n := unsigned_natCast (by omega)
  have hrun : swstrategy T ⟨unit, n, bcount⟩ = [.swap ((T.tdstart unit + n) % 2 ^ 32) bcount, .biodone] := by
    rw [swstrategy, hword, if_neg (by rw [ntmp] at hunit; dsimp only; omega), if_neg (not_le.2 hunit), if_neg hstart,
      if_neg (by dsimp only; omega)]
  rw [hrun]
  refine ⟨fun b hb => ?_, rfl⟩
  have hb' : b ∈ (Effect.swap ((T.tdstart unit + n) % 2 ^ 32) bcount).blocks := by
    simpa [Effect.blocks] using hb
  obtain ⟨i, hi, rfl⟩ := List.mem_map.1 hb'
  rw [List.mem_range] at hi
  exact ⟨by omega, by omega⟩

/-- Character requests stay inside the extent of their unit, in what they reach as in what
they read and change, and are refused behind it; block requests for blocks of the extent
stay inside and are completed once. -/
theorem tempDevice_isolated (hunit : unit < ntmp) (hstart : T.tdstart unit ≠ 0)
    (hext : T.tdstart unit + T.tdsize unit ≤ 2 ^ 32) :
    (∀ (offset : ℤ) (len : ℕ), offset < 2 ^ 31 →
      (∀ b ∈ (charAccess T unit offset len).2, b ∈ extent T unit) ∧
        ((1024 * T.tdsize unit : ℕ) ≤ offset → (charAccess T unit offset len).1 ≠ 0)) ∧
    (∀ uio : Uio, uio.uioOffset < 2 ^ 31 → ∀ disk stale mem,
      (∀ disk', (∀ b ∈ extent T unit, disk b = disk' b) →
        swcread T unit disk mem uio = swcread T unit disk' mem uio) ∧
      ∀ b ∉ extent T unit, (swcwrite T unit disk stale mem uio).2.1 b = disk b) ∧
    ∀ bp : Buf, bp.unit = unit → 0 ≤ bp.bBlkno → bp.bBlkno + btod bp.bBcount ≤ T.tdsize unit →
      (∀ b ∈ (swstrategy T bp).flatMap Effect.blocks, b ∈ extent T unit) ∧
        (swstrategy T bp).count .biodone = 1 := by
  refine ⟨fun offset len hoffset => ⟨charAccess_subset hext offset len, fun hbehind => ?_⟩, ?_, ?_⟩
  · exact (charAccess_behind len hoffset hbehind).1
  · intro uio hoffset disk stale mem
    obtain ⟨-, -, hread, hwrite⟩ := charAccess_sound hext hoffset disk stale mem
    have hinside := charAccess_subset hext uio.uioOffset (iovLen uio)
    exact ⟨fun disk' h => hread disk' fun b hb => h b (hinside b hb),
      fun b hb => hwrite b fun hmem => hb (hinside b hmem)⟩
  · rintro bp rfl hblkno hend
    exact swstrategy_inside hunit hstart hext hblkno hend

/-- The second of two units, of four blocks each. -/
theorem tempDevice_isolated_second :
    let T : Units := ⟨fun u => 4 * u + 1, fun _ => 4⟩
    (∀ b ∈ (charAccess T 1 1000 9000).2, b ∈ extent T 1) ∧
      (swstrategy T ⟨1, 2, 2048⟩).count .biodone = 1 := by
  intro T
  obtain ⟨hchar, -, hblock⟩ := tempDevice_isolated (T := T) (show 1 < ntmp by decide) (by decide) (by decide)
  exact ⟨(hchar 1000 9000 (by decide)).1, (hblock ⟨1, 2, 2048⟩ rfl (by decide) (by decide)).2⟩

/-- A read that starts in the middle of the only block of a unit and asks for a whole block:
it is cut at the end of the extent and returns no error. -/
theorem tempDevice_cut_at_end :
    let T : Units := ⟨fun _ => 1, fun _ => 1⟩
    let r := swcread T 0 (fun _ _ => 7) (fun _ => 0) ⟨[⟨0, 1024⟩], 512, 1024⟩
    1024 * T.tdsize 0 < 512 + 1024 ∧ r.1 = 0 ∧ r.2.2.uioResid = 512 ∧ charAccess T 0 512 1024 = (0, [1]) := by
  refine ⟨?_, ?_, ?_, ?_⟩ <;> decide +kernel

-- The block behind the extent is reached, and a request further behind is not completed.
example : swstrategy ⟨fun _ => 1, fun _ => 1⟩ ⟨0, 1, 1024⟩ = [.swap 2 1024, .biodone] := by decide

example : swstrategy ⟨fun _ => 1, fun _ => 1⟩ ⟨0, 2, 1024⟩ = [] := by decide

end RetroBSD.TempDevice
