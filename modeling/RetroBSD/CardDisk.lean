import Mathlib

/-!
# The driver of the SD cards

`sdstrategy` checks a request against the partition and hands it to `card_read` or `card_write`,
whose results it does not look at. The checks are on blocks of two sectors, and the addresses
that reach the card are words that wrap.

Left out are the waits in front of and behind the stop token of `card_write`
(`TIMO_WAIT_WSTOP`, `TIMO_WAIT_WIDLE`), whose time-outs nobody looks at, and what a buffer has
in `b_resid` from its last use, which `sdstrategy` does not clear.
-/

namespace RetroBSD.Sd

def sectsize : ℤ := 512

def int (x : ℤ) : ℤ := (x + 2 ^ 31) % 2 ^ 32 - 2 ^ 31

structure Diskpart where
  dpOffset : ℤ
  dpNsectors : ℤ
  offset_word : 0 ≤ dpOffset ∧ dpOffset < 2 ^ 32
  nsectors_word : 0 ≤ dpNsectors ∧ dpNsectors < 2 ^ 32

/-- A drive, with the partition that a request is for. `sdhc` is `card_type == TYPE_SDHC`. -/
structure Disk where
  sdhc : Bool
  labelWritable : Bool
  part : Diskpart

structure Buf where
  read : Bool
  bBlkno : ℤ
  bBcount : ℤ
  blkno_long : -2 ^ 31 ≤ bBlkno ∧ bBlkno < 2 ^ 31
  bcount_word : 0 ≤ bBcount ∧ bBcount < 2 ^ 32

def btod (x : ℤ) : ℤ := (x + 1023) % 2 ^ 32 / 1024

inductive Request
  | bad
  | eof
  | io (sector bcount : ℤ)

/-- The first sector of a transfer: the argument of the command is a number of sectors or of
bytes. -/
def Disk.sector (d : Disk) (offset : ℤ) : ℤ :=
  if d.sdhc then offset % 2 ^ 32 * 2 % 2 ^ 32
  else offset % 2 ^ 32 * 512 % 2 ^ 32 * 2 % 2 ^ 32 / sectsize

/-- `sdstrategy` up to the transfer. -/
def Disk.request (d : Disk) (b : Buf) : Request :=
  let partSize := d.part.dpNsectors / 2
  let offset := int (b.bBlkno + d.part.dpOffset / 2)
  let nblk := btod b.bBcount
  if offset = 0 ∧ b.read = false ∧ d.labelWritable = false then .bad
  else if partSize < int (b.bBlkno + nblk) then
    if b.bBlkno = partSize then .eof
    else
      let nblk := int (partSize - b.bBlkno)
      if nblk ≤ 0 then .bad else .io (d.sector offset) (nblk * 1024 % 2 ^ 32)
  else .io (d.sector offset) b.bBcount

/-- The rounds of `card_read` and `card_write`, of which there is always one. -/
def rounds (bcount : ℤ) : ℤ := max (bcount - 1) 0 / sectsize + 1

/-- The sectors a request asks for. -/
def Buf.sectors (b : Buf) : ℤ := (b.bBcount + 511) / sectsize

/-! ## Transfers -/

/-- What the card answers: `multiple` to the command, and for each sector whether `DATA_START_BLOCK`
comes in time, the card gets ready in time before and after it, and the reply to the data. -/
structure Card where
  setWbecnt : ℕ
  multiple : ℕ
  start : ℕ → Bool
  ready : ℕ → Bool
  reply : ℕ → ℕ
  done : ℕ → Bool

/-- The rounds of `card_read` and `card_write` from sector `i` on: what is returned, and the sectors
transferred. -/
def transfer (goesOn counts : ℕ → Bool) (i : ℕ) : ℕ → Bool × ℕ
  | 0 => (true, 0)
  | n + 1 =>
    if goesOn i then
      let rest := transfer goesOn counts (i + 1) n
      (rest.1, rest.2 + if counts i then 1 else 0)
    else (false, 0)

def Card.cardRead (card : Card) (bcount : ℤ) : Bool × ℕ :=
  if card.multiple ≠ 0 then (false, 0)
  else transfer card.start (fun _ => true) 0 (rounds bcount).toNat

/-- The loop goes on after a time-out of `card_wait_ready`. -/
def Card.cardWrite (card : Card) (bcount : ℤ) : Bool × ℕ :=
  if card.setWbecnt ≠ 0 then (false, 0)
  else if card.multiple ≠ 0 then (false, 0)
  else transfer (fun i => card.reply i &&& 0x1f == 0x05) (fun i => card.ready i && card.done i) 0
    (rounds bcount).toNat

/-- A buffer after `biodone`: `B_ERROR`, `b_resid` where it has been set, and the sectors
transferred. -/
structure Completion where
  bError : Bool
  bResid : Option ℤ
  sectors : ℕ

def Disk.sdstrategy (d : Disk) (b : Buf) (card : Card) : Completion :=
  match d.request b with
  | .bad => ⟨true, none, 0⟩
  | .eof => ⟨false, some b.bBcount, 0⟩
  | .io _ bcount => ⟨false, none,
      (if b.read then card.cardRead bcount else card.cardWrite bcount).2⟩

/-! ## Partitions -/

/-- All bytes of the request but `moved` are reported as missing, whatever the card does. -/
def Disk.Says (d : Disk) (b : Buf) (moved : ℤ) : Prop :=
  ∀ card, (d.sdstrategy b card).bError = true ∨
    (d.sdstrategy b card).bResid = some (b.bBcount - moved)

/-- Only the sectors of the partition are reached, by their place in it, the label is not written
unless it may be, and a request that is refused or shortened is reported. -/
def Disk.Isolated (d : Disk) (b : Buf) : Prop :=
  match d.request b with
  | .bad => d.Says b 0
  | .eof => d.Says b 0
  | .io sector bcount => sector = d.part.dpOffset + 2 * b.bBlkno ∧
      (bcount ≠ b.bBcount → d.Says b bcount) ∧
      ∀ s, sector ≤ s → s < sector + rounds bcount →
        (d.part.dpOffset ≤ s ∧ s < d.part.dpOffset + d.part.dpNsectors) ∧
        (s = 0 → b.read = false → d.labelWritable = true)

/-- The label may not be written, or the request starts at or behind the end. -/
def Disk.Refuses (d : Disk) (b : Buf) : Prop :=
  ((b.bBlkno + d.part.dpOffset / 2) % 2 ^ 32 = 0 ∧ b.read = false ∧ d.labelWritable = false) ∨
  (d.part.dpNsectors / 2 ≤ b.bBlkno ∧ (d.part.dpNsectors / 2 < b.bBlkno ∨ 0 < btod b.bBcount) ∧
    b.bBlkno + btod b.bBcount < 2 ^ 31)

/-- The request ends in front of the end, or so far behind it that the sum wraps. -/
def Disk.Takes (d : Disk) (b : Buf) : Prop :=
  b.bBlkno + btod b.bBcount ≤ d.part.dpNsectors / 2 ∨ 2 ^ 31 ≤ b.bBlkno + btod b.bBcount

def Disk.Proper (d : Disk) (b : Buf) : Prop :=
  d.Refuses b ∨ (d.Takes b ∧ d.part.dpOffset % 2 = 0 ∧ 0 ≤ b.bBlkno ∧
    2 * b.bBlkno + rounds b.bBcount ≤ d.part.dpNsectors ∧
    d.part.dpOffset + 2 * b.bBlkno < if d.sdhc then 2 ^ 32 else 2 ^ 23)

section Partitions

variable {d : Disk} {b : Buf} {offset : ℤ}

theorem sector_eq (h : 0 ≤ offset) (hlt : 2 * offset < if d.sdhc then 2 ^ 32 else 2 ^ 23) :
    d.sector offset = 2 * offset := by
  unfold Disk.sector sectsize
  split_ifs at hlt ⊢ <;> omega

theorem sector_even (d : Disk) (offset : ℤ) :
    d.sector offset % 2 = 0 ∧ 0 ≤ d.sector offset ∧
      d.sector offset < if d.sdhc then 2 ^ 32 else 2 ^ 23 := by
  unfold Disk.sector sectsize
  split_ifs <;> omega

theorem sector_of_int (d : Disk) (offset : ℤ) : d.sector (int offset) = d.sector offset := by
  have hmod : int offset % 2 ^ 32 = offset % 2 ^ 32 := by
    rw [int]
    omega
  rw [Disk.sector, Disk.sector, hmod]

theorem btod_range (b : Buf) : 0 ≤ btod b.bBcount ∧ btod b.bBcount < 2 ^ 22 ∧
    (0 < btod b.bBcount → 1024 * (btod b.bBcount - 1) < b.bBcount) := by
  have h := b.bcount_word
  unfold btod
  omega

theorem sectors_le_rounds (b : Buf) : b.sectors ≤ rounds b.bBcount := by
  unfold Buf.sectors rounds sectsize
  omega

theorem int_cases {x : ℤ} (h : -2 ^ 31 ≤ x) (h' : x < 2 ^ 31 + 2 ^ 22) :
    x < 2 ^ 31 ∧ int x = x ∨ 2 ^ 31 ≤ x ∧ int x = x - 2 ^ 32 := by
  unfold int
  omega

/-- A request that goes beyond the end is refused, or shortened without a word. -/
theorem request_cases (d : Disk) (b : Buf) :
    (d.Refuses b ∧ (d.request b = .bad ∨ d.request b = .eof)) ∨
    (¬d.Refuses b ∧ d.Takes b ∧
      d.request b = .io (d.sector (b.bBlkno + d.part.dpOffset / 2)) b.bBcount) ∨
    (¬d.Refuses b ∧ ¬d.Takes b ∧ ∃ sector bcount, d.request b = .io sector bcount ∧
      rounds bcount < b.sectors) := by
  have hsect := d.part.nsectors_word
  have hblk := b.blkno_long
  have hnblk := btod_range b
  have hint := int_cases (x := b.bBlkno + btod b.bBcount) (by omega) (by omega)
  have hzero : int (b.bBlkno + d.part.dpOffset / 2) = 0 ↔
      (b.bBlkno + d.part.dpOffset / 2) % 2 ^ 32 = 0 := by
    unfold int
    omega
  unfold Disk.request Disk.Refuses Disk.Takes
  rw [← hzero, ← sector_of_int]
  dsimp only
  split_ifs with hlabel hlt heof hbad
  · exact .inl ⟨.inl hlabel, .inl rfl⟩
  · exact .inl ⟨.inr (by omega), .inr rfl⟩
  · have hleft := int_cases (x := d.part.dpNsectors / 2 - b.bBlkno) (by omega) (by omega)
    exact .inl ⟨.inr (by omega), .inl rfl⟩
  · have hleft := int_cases (x := d.part.dpNsectors / 2 - b.bBlkno) (by omega) (by omega)
    refine .inr (.inr ⟨not_or.2 ⟨hlabel, by omega⟩, by omega, _, _, rfl, ?_⟩)
    unfold rounds Buf.sectors sectsize
    omega
  · exact .inr (.inl ⟨not_or.2 ⟨hlabel, by omega⟩, by omega, rfl⟩)

theorem says_of_refused (h : d.request b = .bad ∨ d.request b = .eof) : d.Says b 0 := by
  intro card
  rw [Disk.sdstrategy, sub_zero]
  rcases h with h | h <;> rw [h]
  · exact .inl rfl
  · exact .inr rfl

/-- The driver does not look at what a transfer returns. -/
theorem not_says_of_io {sector bcount moved : ℤ} (h : d.request b = .io sector bcount) :
    ¬d.Says b moved := by
  intro hsays
  have hcard := hsays ⟨0, 0, fun _ => true, fun _ => true, fun _ => 0x05, fun _ => true⟩
  rw [Disk.sdstrategy, h] at hcard
  rcases hcard with herror | hresid
  · cases herror
  · cases hresid

/-- Each request is isolated exactly if it is proper. -/
theorem isolated_iff (d : Disk) (b : Buf) : d.Isolated b ↔ d.Proper b := by
  obtain ⟨hrefused, hreq⟩ | ⟨hnot, htakes, hreq⟩ | ⟨hnot, htakes, sector, bcount, hreq, hlt⟩ :=
    request_cases d b
  · refine iff_of_true ?_ (.inl hrefused)
    have hsays := says_of_refused hreq
    rcases hreq with hreq | hreq <;> rw [Disk.Isolated, hreq] <;> exact hsays
  · have hoff := d.part.offset_word
    have heven := sector_even d (b.bBlkno + d.part.dpOffset / 2)
    have hrounds : 1 ≤ rounds b.bBcount := by
      unfold rounds sectsize
      omega
    rw [Disk.Isolated, hreq, Disk.Proper, iff_false_intro hnot, false_or]
    constructor
    · rintro ⟨hsector, -, hin⟩
      have hfirst := (hin _ le_rfl (by omega)).1
      have hlast := (hin (d.sector (b.bBlkno + d.part.dpOffset / 2) + rounds b.bBcount - 1)
        (by omega) (by omega)).1
      exact ⟨htakes, by omega, by omega, by omega, hsector ▸ heven.2.2⟩
    · rintro ⟨-, hpar, hblk, hend, haddr⟩
      have hsector : d.sector (b.bBlkno + d.part.dpOffset / 2) =
          d.part.dpOffset + 2 * b.bBlkno := by
        rw [sector_eq (by omega)]
        · omega
        · rw [show 2 * (b.bBlkno + d.part.dpOffset / 2) = d.part.dpOffset + 2 * b.bBlkno by omega]
          exact haddr
      refine ⟨hsector, absurd rfl, fun s hs hs' => ⟨by omega, fun hzero hread => ?_⟩⟩
      by_contra hlabel
      exact hnot (.inl ⟨by omega, hread, Bool.eq_false_iff.2 hlabel⟩)
  · rw [Disk.Isolated, hreq]
    refine iff_of_false (fun h => ?_) fun h => h.elim hnot fun h => htakes h.1
    refine not_says_of_io hreq (h.2.1 ?_)
    rintro rfl
    exact absurd (sectors_le_rounds b) (not_le.2 hlt)

end Partitions

/-- An odd first sector is halved: the sector in front of the partition is written. -/
theorem odd_offset_not_isolated : ¬∀ (d : Disk) (b : Buf), d.Isolated b := by
  intro h
  exact absurd (h ⟨true, false, ⟨63, 1000, by decide, by decide⟩⟩
    ⟨false, 0, 1024, by decide, by decide⟩).1 (by decide)

/-! ## Failures -/

/-- A request of which sectors are missing ends with `B_ERROR`, or `b_resid` is what is missing. -/
def Disk.Reports (d : Disk) (b : Buf) (card : Card) : Prop :=
  (d.sdstrategy b card).sectors < b.sectors → (d.sdstrategy b card).bError = true ∨
    (d.sdstrategy b card).bResid = some (b.bBcount - (d.sdstrategy b card).sectors * sectsize)

/-- The card rejects no command, and every sector is transferred without a time-out. -/
def Card.Works (card : Card) (b : Buf) : Prop :=
  card.multiple = 0 ∧ if b.read then ∀ i : ℕ, i < b.sectors → card.start i = true
    else card.setWbecnt = 0 ∧ ∀ i : ℕ, i < b.sectors →
      card.ready i = true ∧ card.reply i &&& 0x1f = 0x05 ∧ card.done i = true

section Failures

variable {goesOn counts : ℕ → Bool} {card : Card}

theorem transfer_le (i n : ℕ) : (transfer goesOn counts i n).2 ≤ n := by
  induction n generalizing i with
  | zero => exact le_rfl
  | succ n ih =>
    have hrest := ih (i + 1)
    rw [transfer]
    split_ifs with hgoes hcounts
    · exact Nat.succ_le_succ hrest
    · exact hrest.trans (Nat.le_succ n)
    · exact Nat.zero_le _

theorem le_transfer_iff (i n : ℕ) :
    n ≤ (transfer goesOn counts i n).2 ↔ ∀ j < n,
      goesOn (i + j) = true ∧ counts (i + j) = true := by
  induction n generalizing i with
  | zero => exact iff_of_true le_rfl fun _ hj => absurd hj (Nat.not_lt_zero _)
  | succ n ih =>
    have hrest : (transfer goesOn counts (i + 1) n).2 ≤ n := transfer_le _ _
    have hnext := ih (i + 1)
    simp only [Nat.add_assoc, Nat.add_comm 1] at hnext
    rw [Nat.forall_lt_succ_left, ← hnext, transfer]
    split_ifs with hgoes hcounts
    · simp [hgoes, hcounts]
    · simp [hcounts]
      omega
    · simp [hgoes]

theorem works_iff (b : Buf) (hb : b.bBcount ≠ 0) :
    b.sectors ≤ (if b.read then card.cardRead b.bBcount else card.cardWrite b.bBcount).2 ↔
      card.Works b := by
  set n := (rounds b.bBcount).toNat with hn
  have hsectors : b.sectors = n := by
    have hcount := b.bcount_word
    unfold rounds Buf.sectors sectsize at *
    omega
  have hpos : 0 < n := by
    unfold rounds sectsize at hn
    omega
  unfold Card.Works Card.cardRead Card.cardWrite
  rw [hsectors]
  simp only [Nat.cast_le]
  cases b.read with
  | true =>
    simp only [if_true]
    split_ifs with hcmd
    · exact iff_of_false (by omega) fun h => hcmd h.1
    · rw [le_transfer_iff]
      simp [not_not.1 hcmd]
  | false =>
    simp only [Bool.false_eq_true, if_false]
    split_ifs with hwbe hcmd
    · exact iff_of_false (by omega) fun h => hwbe h.2.1
    · exact iff_of_false (by omega) fun h => hcmd h.1
    · rw [le_transfer_iff]
      simp [not_not.1 hwbe, not_not.1 hcmd, and_left_comm]

theorem transferred_le (card : Card) (b : Buf) (bcount : ℤ) :
    (if b.read then card.cardRead bcount else card.cardWrite bcount).2 ≤ (rounds bcount).toNat := by
  unfold Card.cardRead Card.cardWrite
  split_ifs
  all_goals first | exact Nat.zero_le _ | exact transfer_le _ _

/-- Missing sectors are reported exactly if the request is refused or nothing is missing. -/
theorem reports_iff (d : Disk) (b : Buf) (card : Card) :
    d.Reports b card ↔ d.Refuses b ∨ b.bBcount = 0 ∨ d.Takes b ∧ card.Works b := by
  unfold Disk.Reports Disk.sdstrategy
  obtain ⟨hrefused, hreq⟩ | ⟨hnot, htakes, hreq⟩ | ⟨hnot, htakes, sector, bcount, hreq, hlt⟩ :=
    request_cases d b
  · refine iff_of_true (fun _ => ?_) (.inl hrefused)
    rcases hreq with hreq | hreq <;> simp [hreq]
  · rw [hreq]
    by_cases hb : b.bBcount = 0
    · refine iff_of_true (fun hlt => ?_) (.inr (.inl hb))
      unfold Buf.sectors sectsize at hlt
      omega
    · simp [hnot, htakes, hb, ← works_iff b hb]
  · have hle := transferred_le card b bcount
    have hpos : 0 < b.sectors := hlt.trans_le' (by unfold rounds sectsize; omega)
    have hb : b.bBcount ≠ 0 := by
      unfold Buf.sectors sectsize at hpos
      omega
    rw [hreq]
    refine iff_of_false (fun h => ?_) (not_or.2 ⟨hnot, not_or.2 ⟨hb, fun h => htakes h.1⟩⟩)
    have hmiss := h (show
      ((if b.read then card.cardRead bcount else card.cardWrite bcount).2 : ℤ) < b.sectors by omega)
    simp at hmiss

/-- A command that the card rejects is not noticed. -/
theorem rejected_command_unreported : ¬∀ (d : Disk) (b : Buf) (card : Card), d.Reports b card := by
  intro h
  have hmiss := h ⟨true, false, ⟨64, 1000, by decide, by decide⟩⟩
    ⟨true, 0, 1024, by decide, by decide⟩
    ⟨0, 4, fun _ => true, fun _ => true, fun _ => 5, fun _ => true⟩ (by decide)
  exact absurd hmiss (by decide)

end Failures

end RetroBSD.Sd
