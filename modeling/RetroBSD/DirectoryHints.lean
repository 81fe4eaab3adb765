import RetroBSD.DirectoryScan
import Mathlib

/-!
# The hint for name lookups

In a well-formed directory the loop of the search gives what `rangeAnswer` says of the blocks
it goes through, and reads each of them once. The two passes of a `LOOKUP` go through the
same blocks as one scan from the start, in another order, and as no name occurs twice they
give the same answer. The hint that is kept for the next search is the start of a block.
-/

namespace RetroBSD.DirectoryScan

open LittleEndian Tiling List Nat Scan Answer
open Names (Op)

variable {dirchk : Bool} {dp : Inode} {name : Name} {b : Memory} {s s' : Scan} {n k o endsearch : ℕ}

section Loop

theorem load_offset (dp : Inode) (s : Scan) : (s.load dp).offset = s.offset := by
  unfold Scan.load
  split_ifs <;> rfl

@[simp] theorem restart_offset (s : Scan) : s.restart.offset = s.offset := by
  unfold restart
  split_ifs <;> rfl

@[simp] theorem restart_inBlock (s : Scan) : s.restart.inBlock = s.inBlock := by
  unfold restart
  split_ifs <;> rfl

@[simp] theorem restart_bp (s : Scan) : s.restart.bp = s.bp := by
  unfold restart
  split_ifs <;> rfl

@[simp] theorem restart_reads (s : Scan) : s.restart.reads = s.reads := by
  unfold restart
  split_ifs <;> rfl

theorem examine_progress (h : examine dirchk name b s = .next s') : s.offset < s'.offset := by
  unfold examine at h
  dsimp only at h
  split_ifs at h with hmangled hmatches
  · cases h
    have hlt : s.restart.inBlock % dirblksiz < dirblksiz := mod_lt _ (by decide)
    have hoffset := restart_offset s
    simp only [skip]
    omega
  · cases h
    have hpos : (direct b s.restart.inBlock).reclen ≠ 0 := by
      intro hzero
      exact hmangled (by rw [mangled, decide_eq_true_eq]; exact Or.inl hzero)
    have hoffset := restart_offset s
    simp only [advance]
    omega

theorem round_progress (h : round dirchk dp name s = .next s') : s.offset < s'.offset := by
  unfold round at h
  split at h
  · cases h
  · rw [← load_offset dp s]
    exact examine_progress h

theorem rounds_enough {fuel : ℕ} (h : endsearch ≤ s.offset + fuel) :
    rounds dirchk dp name endsearch (fuel + 1) s = rounds dirchk dp name endsearch fuel s := by
  induction fuel generalizing s with
  | zero =>
    rw [rounds, rounds, if_neg (by omega), if_neg (by omega)]
  | succ fuel ih =>
    rw [rounds, rounds]
    split_ifs
    · cases hround : round dirchk dp name s with
      | next s' =>
        have hlt := round_progress hround
        exact ih (by omega)
      | found | bad => rfl
    · rfl

theorem rounds_eq_searchloop {fuel : ℕ} (h : endsearch ≤ s.offset + fuel) :
    rounds dirchk dp name endsearch fuel s = searchloop dirchk dp name endsearch s := by
  obtain ⟨extra, rfl⟩ := Nat.exists_eq_add_of_le (show endsearch - s.offset ≤ fuel by omega)
  clear h
  induction extra with
  | zero => rfl
  | succ extra ih =>
    rw [← ih, ← add_assoc]
    exact rounds_enough (by omega)

theorem searchloop_done (h : endsearch ≤ s.offset) :
    searchloop dirchk dp name endsearch s = some (.next s) := by
  rw [searchloop, Nat.sub_eq_zero_of_le h, rounds, if_neg (by omega)]

theorem searchloop_round (h : s.offset < endsearch) :
    searchloop dirchk dp name endsearch s =
      match round dirchk dp name s with
      | .next s' => searchloop dirchk dp name endsearch s'
      | r => some r := by
  obtain ⟨fuel, hfuel⟩ := Nat.exists_eq_add_of_lt h
  rw [searchloop, show endsearch - s.offset = fuel + 1 by omega, rounds, if_pos h]
  cases hround : round dirchk dp name s with
  | next s' =>
    have hlt := round_progress hround
    exact rounds_eq_searchloop (by omega)
  | found | bad => rfl

end Loop

def recordsFrom (b : Memory) : ℕ → ℕ → List (ℕ × Direct)
  | 0, _ => []
  | fuel + 1, o =>
    if dirblksiz ≤ o then [] else (o, direct b o) :: recordsFrom b fuel (o + (direct b o).reclen)

def records (b : Memory) : List (ℕ × Direct) := recordsFrom b dirblksiz 0

def length (x : ℕ × Direct) : ℕ := x.2.reclen

/-- The length of a record is a positive multiple of 4 and leaves room for a name in use. -/
def Fits (ep : Direct) : Prop :=
  0 < ep.reclen ∧ ep.reclen % 4 = 0 ∧ (ep.ino ≠ 0 → dirsiz ep.namlen ≤ ep.reclen)

instance (ep : Direct) : Decidable (Fits ep) := inferInstanceAs (Decidable (_ ∧ _ ∧ _))

def Tiled (b : Memory) : Prop :=
  Tiles length (fun o x => x.1 = o ∧ Fits x.2) 0 (records b) dirblksiz

instance (b : Memory) : Decidable (Tiled b) := inferInstanceAs (Decidable (Tiles _ _ _ _ _))

def Inode.records (dp : Inode) (n : ℕ) : List (ℕ × Direct) :=
  (dp.block n).elim [] DirectoryScan.records

def Inode.names (dp : Inode) (n : ℕ) : List Name :=
  ((dp.records n).filter fun x => x.2.ino ≠ 0).map fun x => x.2.name

/-- Every block that can be read is filled with records, and no name in use occurs twice. The
offsets fit in an `off_t`. -/
structure Inode.WellFormed (dp : Inode) : Prop where
  fits : dp.nblocks * dirblksiz < 2 ^ 31
  tiled : ∀ n, n < dp.nblocks → ∀ b ∈ dp.block n, Tiled b
  distinct : ((List.range dp.nblocks).flatMap dp.names).Nodup

def Inode.Readable (dp : Inode) : Prop := ∀ n, n < dp.nblocks → (dp.block n).isSome

def seen (dirchk : Bool) (xs : List (ℕ × Direct)) : List (ℕ × Direct) :=
  xs.takeWhile fun x => !mangled dirchk x.2 x.1

def firstMatch (dirchk : Bool) (name : Name) (xs : List (ℕ × Direct)) : Option (ℕ × Direct) :=
  (seen dirchk xs).find? fun x => x.2.Matches name

def blockAnswer (dirchk : Bool) (dp : Inode) (name : Name) (n : ℕ) : Answer :=
  match dp.block n with
  | none => .failed
  | some b =>
    match firstMatch dirchk name (records b) with
    | some (o, ep) => .found (dirblksiz * n + o) o ep
    | none => .absent

def Answer.orElse : Answer → Answer → Answer
  | .absent, a => a
  | a, _ => a

def rangeAnswer (dirchk : Bool) (dp : Inode) (name : Name) : ℕ → ℕ → Answer
  | _, 0 => .absent
  | n, k + 1 => (blockAnswer dirchk dp name n).orElse (rangeAnswer dirchk dp name (n + 1) k)

section Blocks

theorem tiles_recordsFrom {fuel hi : ℕ}
    (h : Tiles length (fun o x => x.1 = o ∧ Fits x.2) o (recordsFrom b fuel o) hi) :
    Tiles length (fun o x => x = (o, direct b o) ∧ Fits x.2) o (recordsFrom b fuel o) hi := by
  induction fuel generalizing o with
  | zero => exact h
  | succ fuel ih =>
    rw [recordsFrom] at h ⊢
    split_ifs at h ⊢ with ho
    · exact h
    · exact ⟨⟨rfl, h.1.2⟩, ih h.2⟩

/-- The loop is at offset `o` of the block `n`, which is in the buffer. -/
structure AtRecord (n : ℕ) (b : Memory) (o : ℕ) (s : Scan) : Prop where
  offset : s.offset = dirblksiz * n + o
  inBlock : s.inBlock = o
  bp : s.bp = some b

theorem AtRecord.load (h : AtRecord n b o s) (hpos : 0 < o) (hlt : o < dirblksiz) :
    s.load dp = s := by
  have hmod : s.offset % dirblksiz = o := by
    rw [h.offset, mul_add_mod, mod_eq_of_lt hlt]
  rw [Scan.load, if_neg (by omega)]

theorem AtRecord.examine (dirchk : Bool) (name : Name) (h : AtRecord n b o s)
    (hlt : o < dirblksiz) :
    (mangled dirchk (direct b o) o ∧ ∃ s', examine dirchk name b s = .next s' ∧
        s'.offset = dirblksiz * (n + 1) ∧ s'.reads = s.reads) ∨
      (¬mangled dirchk (direct b o) o ∧ (direct b o).Matches name ∧
        ∃ s', examine dirchk name b s = .found (direct b o) s' ∧
          AtRecord n b o s' ∧ s'.reads = s.reads) ∨
      (¬mangled dirchk (direct b o) o ∧ ¬(direct b o).Matches name ∧
        ∃ s', examine dirchk name b s = .next s' ∧
          AtRecord n b (o + (direct b o).reclen) s' ∧ s'.reads = s.reads) := by
  have hin : s.restart.inBlock = o := by rw [restart_inBlock, h.inBlock]
  have hoffset : s.restart.offset = dirblksiz * n + o := by rw [restart_offset, h.offset]
  have hbp : s.restart.bp = some b := by rw [restart_bp, h.bp]
  have hreads : s.restart.reads = s.reads := restart_reads s
  unfold DirectoryScan.examine
  dsimp only
  rw [hin]
  by_cases hmangled : mangled dirchk (direct b o) o
  · refine Or.inl ⟨hmangled, _, if_pos hmangled, ?_, hreads⟩
    change s.restart.offset + (dirblksiz - s.restart.inBlock % dirblksiz) = _
    rw [hin, mod_eq_of_lt hlt, mul_succ]
    omega
  · by_cases hmatches : (direct b o).Matches name
    · refine Or.inr (Or.inl ⟨hmangled, hmatches, _, (if_neg hmangled).trans (if_pos hmatches), ?_,
        hreads⟩)
      exact ⟨hoffset, rfl, hbp⟩
    · refine Or.inr (Or.inr ⟨hmangled, hmatches, _, (if_neg hmangled).trans (if_neg hmatches), ?_,
        hreads⟩)
      refine ⟨?_, rfl, hbp⟩
      change s.restart.offset + _ = _
      rw [hoffset, add_assoc]

theorem firstMatch_cons (x : ℕ × Direct) (xs : List (ℕ × Direct)) :
    firstMatch dirchk name (x :: xs) =
      if mangled dirchk x.2 x.1 then none
      else if x.2.Matches name then some x else firstMatch dirchk name xs := by
  unfold firstMatch seen
  by_cases hmangled : mangled dirchk x.2 x.1
  · simp [hmangled]
  · by_cases hmatches : x.2.Matches name <;> simp [hmangled, hmatches]

def resume (dirchk : Bool) (dp : Inode) (name : Name) (endsearch : ℕ) (b : Memory) (s : Scan) :
    Option Round :=
  match examine dirchk name b s with
  | .next s' => searchloop dirchk dp name endsearch s'
  | r => some r

theorem searchloop_resume (h : s.offset < endsearch) (hb : (s.load dp).bp = some b) :
    searchloop dirchk dp name endsearch s = resume dirchk dp name endsearch b (s.load dp) := by
  rw [searchloop_round h, round, hb, resume]

/-- How the loop, with the outcome `out`, leaves the block `n`: with the record found, or
at the start of the next block. -/
def Leaves (dirchk : Bool) (dp : Inode) (name : Name) (endsearch n : ℕ) (reads : List ℕ)
    (out : Option Round) : Option (ℕ × Direct) → Prop
  | some (o, ep) => ∃ s', out = some (.found ep s') ∧ s'.offset = dirblksiz * n + o ∧
      s'.inBlock = o ∧ s'.reads = reads
  | none => ∃ s', out = searchloop dirchk dp name endsearch s' ∧ s'.offset = dirblksiz * (n + 1) ∧
      s'.reads = reads

theorem leaves_record {xs : List (ℕ × Direct)} (hs : AtRecord n b o s) (hlt : o < dirblksiz)
    (hrest : ∀ s', AtRecord n b (o + (direct b o).reclen) s' → s'.reads = s.reads →
      Leaves dirchk dp name endsearch n s.reads (searchloop dirchk dp name endsearch s')
        (firstMatch dirchk name xs)) :
    Leaves dirchk dp name endsearch n s.reads (resume dirchk dp name endsearch b s)
      (firstMatch dirchk name ((o, direct b o) :: xs)) := by
  rw [firstMatch_cons]
  obtain ⟨hm, s', hs', hoffset, hreads⟩ | ⟨hm, hmatches, s', hs', hat, hreads⟩ |
      ⟨hm, hmatches, s', hs', hat, hreads⟩ := hs.examine dirchk name hlt
  · rw [if_pos hm]
    exact ⟨s', by rw [resume, hs'], hoffset, hreads⟩
  · rw [if_neg hm, if_pos hmatches]
    exact ⟨s', by rw [resume, hs'], hat.offset, hat.inBlock, hreads⟩
  · rw [if_neg hm, if_neg hmatches, resume, hs']
    exact hrest s' hat hreads

theorem leaves_records {xs : List (ℕ × Direct)} (hs : AtRecord n b o s) (hpos : 0 < o)
    (htiles : Tiles length (fun o x => x = (o, direct b o) ∧ Fits x.2) o xs dirblksiz)
    (hend : dirblksiz * (n + 1) ≤ endsearch) :
    Leaves dirchk dp name endsearch n s.reads (searchloop dirchk dp name endsearch s)
      (firstMatch dirchk name xs) := by
  induction xs generalizing o s with
  | nil =>
    refine ⟨s, rfl, ?_, rfl⟩
    rw [hs.offset, tiles_nil.1 htiles, mul_succ]
  | cons x xs ih =>
    obtain ⟨⟨rfl, hfits⟩, hxs⟩ := htiles
    have hreclen : 0 < (direct b o).reclen := hfits.1
    have hle : o + (direct b o).reclen ≤ dirblksiz := hxs.le
    have hlt : s.offset < endsearch := by
      rw [hs.offset]
      rw [mul_succ] at hend
      omega
    have hload : s.load dp = s := hs.load hpos (by omega)
    rw [searchloop_resume hlt (by rw [hload]; exact hs.bp), hload]
    apply leaves_record hs (by omega)
    intro s' hs' hreads
    rw [← hreads]
    exact ih hs' (by omega) hxs

theorem load_start (hs : s.offset = dirblksiz * n) (dp : Inode) :
    s.load dp = { s with bp := dp.block n, inBlock := 0, reads := s.reads ++ [n] } := by
  rw [Scan.load, if_pos (by rw [hs, mul_mod_right]), Scan.read, Inode.blkatoff, hs,
    Nat.mul_div_cancel_left n (by decide)]

theorem leaves_block (dirchk : Bool) (name : Name) (hs : s.offset = dirblksiz * n)
    (hb : dp.block n = some b) (htiled : Tiled b) (hend : dirblksiz * (n + 1) ≤ endsearch) :
    Leaves dirchk dp name endsearch n (s.reads ++ [n]) (searchloop dirchk dp name endsearch s)
      (firstMatch dirchk name (records b)) := by
  have htiles : Tiles length (fun o x => x = (o, direct b o) ∧ Fits x.2) 0 (records b) dirblksiz :=
    tiles_recordsFrom htiled
  have hat : AtRecord n b 0 (s.load dp) := by
    rw [load_start hs]
    exact ⟨hs, rfl, hb⟩
  have hlt : s.offset < endsearch := by
    rw [hs]
    exact lt_of_lt_of_le (mul_lt_mul_of_pos_left (lt_succ_self n) (by decide)) hend
  have hreads : (s.load dp).reads = s.reads ++ [n] := by rw [load_start hs]
  rw [searchloop_resume hlt hat.bp, ← hreads]
  obtain ⟨⟨-, hfits⟩, hxs⟩ := htiles
  have hpos : 0 < (direct b 0).reclen := hfits.1
  apply leaves_record hat (by decide)
  intro s' hs' hreads'
  rw [← hreads']
  exact leaves_records hs' (by omega) hxs hend

theorem searchloop_unreadable (hs : s.offset = dirblksiz * n) (hb : dp.block n = none)
    (hend : s.offset < endsearch) :
    searchloop dirchk dp name endsearch s = some (.bad (s.load dp)) ∧
      (s.load dp).reads = s.reads ++ [n] := by
  constructor
  · rw [searchloop_round hend, round, load_start hs, hb]
  · rw [load_start hs]

theorem searchloop_blocks (dirchk : Bool) (name : Name) (k : ℕ) (hs : s.offset = dirblksiz * n)
    (htiled : ∀ j, n ≤ j → j < n + k → ∀ b ∈ dp.block j, Tiled b) :
    ∃ r, searchloop dirchk dp name (dirblksiz * (n + k)) s = some r ∧
      r.answer = rangeAnswer dirchk dp name n k ∧
        ∃ j ≤ k, r.scan.reads = s.reads ++ List.range' n j := by
  induction k generalizing n s with
  | zero =>
    refine ⟨.next s, searchloop_done (by rw [hs, add_zero]), rfl, 0, le_rfl, ?_⟩
    simp [Round.scan]
  | succ k ih =>
    have hend : dirblksiz * (n + 1) ≤ dirblksiz * (n + (k + 1)) := mul_le_mul_left _ (by omega)
    cases hb : dp.block n with
    | none =>
      have hlt : s.offset < dirblksiz * (n + (k + 1)) := by
        rw [hs]
        exact mul_lt_mul_of_pos_left (by omega) (by decide)
      obtain ⟨hloop, hreads⟩ := searchloop_unreadable hs hb hlt
      refine ⟨_, hloop, ?_, 1, by omega, hreads⟩
      simp [Round.answer, rangeAnswer, blockAnswer, hb, orElse]
    | some b =>
      have hblock := leaves_block dirchk name hs hb (htiled n le_rfl (by omega) b hb) hend
      cases hfirst : firstMatch dirchk name (records b) with
      | some x =>
        rw [hfirst] at hblock
        obtain ⟨s', hloop, hoffset, hin, hreads⟩ := hblock
        refine ⟨_, hloop, ?_, 1, by omega, hreads⟩
        simp [Round.answer, rangeAnswer, blockAnswer, hb, hfirst, orElse, hoffset, hin]
      | none =>
        rw [hfirst] at hblock
        obtain ⟨s', hloop, hoffset, hreads⟩ := hblock
        obtain ⟨r, hr, hanswer, j, hj, hrest⟩ := ih hoffset fun j hn hk =>
          htiled j (by omega) (by omega)
        refine ⟨r, ?_, ?_, j + 1, by omega, ?_⟩
        · rw [hloop, ← hr]
          congr 2
          omega
        · simp [rangeAnswer, blockAnswer, hb, hfirst, orElse, hanswer]
        · rw [hrest, hreads, append_assoc]
          rfl

end Blocks

section Answers

theorem Answer.orElse_assoc (x y z : Answer) : (x.orElse y).orElse z = x.orElse (y.orElse z) := by
  cases x <;> rfl

theorem Answer.orElse_ne_failed {x y : Answer} (hx : x ≠ .failed) (hy : y ≠ .failed) :
    x.orElse y ≠ .failed := by
  cases x with
  | failed => exact absurd rfl hx
  | absent => exact hy
  | found off o ep => nofun

theorem Answer.orElse_eq_absent {x y : Answer} (h : x.orElse y = .absent) :
    x = .absent ∧ y = .absent := by
  cases x with
  | failed => cases h
  | absent => exact ⟨rfl, h⟩
  | found off o ep => cases h

theorem rangeAnswer_add (dirchk : Bool) (dp : Inode) (name : Name) (n k l : ℕ) :
    rangeAnswer dirchk dp name n (k + l) =
      (rangeAnswer dirchk dp name n k).orElse (rangeAnswer dirchk dp name (n + k) l) := by
  induction k generalizing n with
  | zero => rw [zero_add, add_zero, rangeAnswer, orElse]
  | succ k ih =>
    rw [succ_add, rangeAnswer, rangeAnswer, ih, orElse_assoc, show n + 1 + k = n + (k + 1) by omega]

theorem mem_names_of_found {off : ℕ} {ep : Direct}
    (h : blockAnswer dirchk dp name n = .found off o ep) : name ∈ dp.names n := by
  unfold blockAnswer at h
  split at h
  · cases h
  · rename_i b hb
    split at h
    · rename_i o' ep' hfirst
      have hmem := mem_of_find?_eq_some hfirst
      have hmatches : ep'.Matches name := by simpa using List.find?_some hfirst
      rw [Inode.names, Inode.records, hb, mem_map]
      refine ⟨(o', ep'), mem_filter.2 ⟨( takeWhile_prefix _).subset hmem, ?_⟩, hmatches.2.2⟩
      simpa using hmatches.1
    · cases h

theorem exists_block_of_found {off : ℕ} {ep : Direct}
    (h : rangeAnswer dirchk dp name n k = .found off o ep) :
    ∃ j, n ≤ j ∧ j < n + k ∧ name ∈ dp.names j := by
  induction k generalizing n with
  | zero => cases h
  | succ k ih =>
    rw [rangeAnswer] at h
    cases hblock : blockAnswer dirchk dp name n with
    | failed =>
      rw [hblock] at h
      cases h
    | absent =>
      rw [hblock] at h
      obtain ⟨j, hn, hk, hj⟩ := ih h
      exact ⟨j, by omega, by omega, hj⟩
    | found off' o' ep' => exact ⟨n, le_rfl, by omega, mem_names_of_found hblock⟩

theorem rangeAnswer_ne_failed (h : ∀ j, n ≤ j → j < n + k → (dp.block j).isSome) :
    rangeAnswer dirchk dp name n k ≠ .failed := by
  induction k generalizing n with
  | zero => nofun
  | succ k ih =>
    have hrest : rangeAnswer dirchk dp name (n + 1) k ≠ .failed :=
      ih fun j hn hk => h j (by omega) (by omega)
    obtain ⟨b, hb⟩ := Option.isSome_iff_exists.1 (h n le_rfl (by omega))
    rw [rangeAnswer, blockAnswer, hb]
    cases hfirst : firstMatch dirchk name (records b) with
    | none => simpa [hfirst, orElse] using hrest
    | some x => simp [hfirst, orElse]

theorem name_length_of_mem_recordsFrom {fuel : ℕ} {x : ℕ × Direct} (h : x ∈ recordsFrom b fuel o) :
    x.2.namlen = x.2.name.length := by
  induction fuel generalizing o with
  | zero => cases h
  | succ fuel ih =>
    rw [recordsFrom] at h
    split_ifs at h
    · cases h
    · rcases mem_cons.1 h with rfl | h
      · simp [direct]
      · exact ih h

/-- Without `dirchk` the search sees every record of a block. -/
theorem seen_records (h : Tiled b) : seen false (records b) = records b := by
  rw [seen, takeWhile_eq_self_iff]
  intro x hx
  obtain ⟨i, -, -, hP⟩ := h.exists_place hx
  have hpos := hP.2.1
  simp [mangled]
  omega

theorem blockAnswer_found (hb : dp.block n = some b) (htiled : Tiled b) (h : name ∈ dp.names n) :
    ∃ off o ep, blockAnswer false dp name n = .found off o ep := by
  rw [Inode.names, Inode.records, hb, mem_map] at h
  obtain ⟨x, hx, rfl⟩ := h
  obtain ⟨hmem, hino⟩ := mem_filter.1 hx
  have hmatches : x.2.Matches x.2.name :=
    ⟨by simpa using hino, name_length_of_mem_recordsFrom hmem, rfl⟩
  have hsome : (firstMatch false x.2.name (records b)).isSome := by
    rw [firstMatch, seen_records htiled, List.find?_isSome]
    exact ⟨x, hmem, by simpa using hmatches⟩
  obtain ⟨⟨o, ep⟩, hfirst⟩ := Option.isSome_iff_exists.1 hsome
  refine ⟨dirblksiz * n + o, o, ep, ?_⟩
  rw [blockAnswer, hb]
  simp only [hfirst]

theorem blockAnswer_of_absent {j : ℕ} (h : rangeAnswer dirchk dp name n k = .absent) (hn : n ≤ j)
    (hj : j < n + k) : blockAnswer dirchk dp name j = .absent := by
  induction k generalizing n with
  | zero => omega
  | succ k ih =>
    obtain ⟨hblock, hrest⟩ := orElse_eq_absent h
    rcases hn.eq_or_lt with rfl | hlt
    · exact hblock
    · exact ih hrest hlt (by omega)

theorem rangeAnswer_found_iff (hdp : dp.WellFormed) (hreadable : dp.Readable) :
    (∃ off o ep, rangeAnswer false dp name 0 dp.nblocks = .found off o ep) ↔
      ∃ n < dp.nblocks, name ∈ dp.names n := by
  constructor
  · rintro ⟨off, o, ep, hfound⟩
    obtain ⟨j, -, hj, hmem⟩ := exists_block_of_found hfound
    exact ⟨j, by omega, hmem⟩
  · rintro ⟨n, hn, hmem⟩
    obtain ⟨b, hb⟩ := Option.isSome_iff_exists.1 (hreadable n hn)
    obtain ⟨off, o, ep, hfound⟩ := blockAnswer_found hb (hdp.tiled n hn b hb) hmem
    cases hrange : rangeAnswer false dp name 0 dp.nblocks with
    | failed => exact absurd hrange (rangeAnswer_ne_failed fun j _ hj => hreadable j (by omega))
    | absent =>
      rw [blockAnswer_of_absent hrange (zero_le n) (by omega)] at hfound
      cases hfound
    | found off o ep => exact ⟨off, o, ep, rfl⟩

theorem Inode.WellFormed.block_unique (hdp : dp.WellFormed) {i j : ℕ} (hij : i < j)
    (hj : j < dp.nblocks) (hi : name ∈ dp.names i) : name ∉ dp.names j := by
  obtain ⟨-, hpair⟩ := nodup_flatMap.1 hdp.distinct
  have hdisj := pairwise_iff_getElem.1 hpair i j (by simpa using hij.trans hj) (by simpa using hj)
    hij
  simp only [getElem_range] at hdisj
  exact hdisj hi

theorem orElse_comm_of_wellFormed (hdp : dp.WellFormed) (hk : n + k ≤ dp.nblocks)
    (x y : Answer) (hx : x = rangeAnswer dirchk dp name 0 n)
    (hy : y = rangeAnswer dirchk dp name n k)
    (hnx : y.orElse x ≠ .failed) (hny : x.orElse y ≠ .failed) : y.orElse x = x.orElse y := by
  cases x with
  | failed => exact absurd rfl hny
  | absent => cases y <;> rfl
  | found off o ep =>
    cases y with
    | failed => exact absurd rfl hnx
    | absent => rfl
    | found off' o' ep' =>
      obtain ⟨i, -, hi, hmem⟩ := exists_block_of_found hx.symm
      obtain ⟨j, hj, hlt, hmem'⟩ := exists_block_of_found hy.symm
      exact absurd hmem' (hdp.block_unique (by omega) (by omega) hmem)

end Answers

section Passes

variable {hint : Nameicache} {op : Op} {last : Bool}

theorem passes_one (dirchk : Bool) (name : Name) (hint : Nameicache) (hdp : dp.WellFormed)
    (hs : s.offset = 0) (hreads : s.reads = []) :
    ∃ r, passes dirchk dp name 1 hint s = some r ∧
      r.answer = rangeAnswer dirchk dp name 0 dp.nblocks ∧ r.scan.reads.Nodup := by
  obtain ⟨r, hr, hanswer, j, -, hread⟩ :=
    searchloop_blocks dirchk name dp.nblocks (hs.trans (mul_zero _).symm) fun j _ hj =>
      hdp.tiled j (by omega)
  rw [zero_add, mul_comm] at hr
  rw [hreads] at hread
  refine ⟨r, ?_, hanswer, ?_⟩
  · rw [passes, hr]
    cases r <;> rfl
  · rw [hread]
    exact nodup_range'

theorem passes_two (dirchk : Bool) (name : Name) (hdp : dp.WellFormed) (hn : n ≤ dp.nblocks)
    (hhint : hint.prevoffset = dirblksiz * n) (hs : s.offset = dirblksiz * n)
    (hreads : s.reads = []) : ∃ r, passes dirchk dp name 2 hint s = some r ∧
      r.answer = (rangeAnswer dirchk dp name n (dp.nblocks - n)).orElse
        (rangeAnswer dirchk dp name 0 n) ∧
      r.scan.reads.Nodup := by
  obtain ⟨r, hr, hanswer, j, -, hread⟩ := searchloop_blocks dirchk name (dp.nblocks - n) hs
    fun j _ hj => hdp.tiled j (by omega)
  rw [show n + (dp.nblocks - n) = dp.nblocks by omega, mul_comm] at hr
  rw [hreads] at hread
  rw [← hanswer, passes, hr]
  cases r with
  | next s1 =>
    obtain ⟨r2, hr2, hanswer2, i, hi, hread2⟩ := searchloop_blocks dirchk name n
      (show ({ s1 with offset := 0 } : Scan).offset = dirblksiz * 0 from rfl)
      fun j _ hj => hdp.tiled j (by omega)
    rw [zero_add, ← hhint] at hr2
    refine ⟨r2, hr2, hanswer2, ?_⟩
    replace hread : s1.reads = List.range' n j := hread
    rw [hread2]
    rw [hread]
    refine List.Nodup.append (nodup_range') (nodup_range') ?_
    intro x hx hx2
    rw [mem_range'_1] at hx hx2
    omega
  | found | bad => exact ⟨_, rfl, rfl, by rw [hread]; exact nodup_range'⟩

theorem size_le_nblocks (dp : Inode) : dp.size ≤ dirblksiz * dp.nblocks := by
  unfold Inode.nblocks dirblksiz
  omega

theorem exists_block_of_within (hhint : hint.prevoffset % dirblksiz = 0) (dp : Inode) :
    ∃ n ≤ dp.nblocks, (hint.within dp.size).prevoffset = dirblksiz * n := by
  unfold Nameicache.within
  split_ifs with hle
  · exact ⟨0, zero_le _, rfl⟩
  · refine ⟨hint.prevoffset / dirblksiz, ?_,
      (Nat.mul_div_cancel' (Nat.dvd_of_mod_eq_zero hhint)).symm⟩
    have hsize := size_le_nblocks dp
    exact Nat.div_le_of_le_mul (by omega)

theorem scanFromStart_answer (dirchk : Bool) (name : Name) (op : Op) (last : Bool)
    (hint : Nameicache) (hdp : dp.WellFormed) :
    ∃ r, scanFromStart dirchk dp name op last hint = some r ∧
      r.answer = rangeAnswer dirchk dp name 0 dp.nblocks ∧ r.size = r.answer.size dp ∧
        r.scan.reads.Nodup := by
  obtain ⟨x, hx, hanswer, hreads⟩ :=
    passes_one dirchk name hint hdp (show (start op last 0).offset = 0 from rfl) rfl
  exact ⟨finish dp op last hint x, by rw [scanFromStart, hx, Option.map_some], hanswer, rfl, hreads⟩

theorem scanFromHint_answer (dirchk : Bool) (name : Name) (op : Op) (last : Bool)
    (hdp : dp.WellFormed) (hn : n ≤ dp.nblocks) (hhint : hint.prevoffset = dirblksiz * n) :
    ∃ r, scanFromHint dirchk dp name op last hint = some r ∧
      r.answer = (rangeAnswer dirchk dp name n (dp.nblocks - n)).orElse
        (rangeAnswer dirchk dp name 0 n) ∧
      r.size = r.answer.size dp ∧ r.scan.reads.Nodup := by
  obtain ⟨x, hx, hanswer, hreads⟩ :=
    passes_two dirchk name hdp hn hhint (show (start op last hint.prevoffset).offset = _ from hhint)
      rfl
  have haligned : (start op last hint.prevoffset).inBlock = 0 := by
    change hint.prevoffset % dirblksiz = 0
    rw [hhint, mul_mod_right]
  refine ⟨finish dp op last hint x, ?_, hanswer, rfl, hreads⟩
  rw [scanFromHint, if_neg (not_not.2 haligned), hx, Option.map_some]

/-- A `LOOKUP` goes through the blocks of the directory, from some block on and then up to it. -/
theorem search_order (dirchk : Bool) (name : Name) (last : Bool) (hdp : dp.WellFormed)
    (hhint : hint.prevoffset % dirblksiz = 0) :
    ∃ r, search dirchk dp name .lookup last hint = some r ∧ r.size = r.answer.size dp ∧
      r.scan.reads.Nodup ∧ ∃ n ≤ dp.nblocks,
        r.answer = (rangeAnswer dirchk dp name n (dp.nblocks - n)).orElse
          (rangeAnswer dirchk dp name 0 n) := by
  unfold search
  split_ifs with hother
  · obtain ⟨r, hr, hanswer, hsize, hreads⟩ := scanFromStart_answer dirchk name .lookup last hint hdp
    refine ⟨r, hr, hsize, hreads, 0, zero_le _, ?_⟩
    rw [hanswer]
    cases rangeAnswer dirchk dp name 0 dp.nblocks <;> rfl
  · obtain ⟨n, hn, hoffset⟩ := exists_block_of_within hhint dp
    obtain ⟨r, hr, hanswer, hsize, hreads⟩ :=
      scanFromHint_answer dirchk name .lookup last hdp hn hoffset
    exact ⟨r, hr, hsize, hreads, n, hn, hanswer⟩

theorem search_answer (dirchk : Bool) (name : Name) (last : Bool) (hdp : dp.WellFormed)
    (hhint : hint.prevoffset % dirblksiz = 0) :
    ∃ r, search dirchk dp name .lookup last hint = some r ∧ r.size = r.answer.size dp ∧
      r.scan.reads.Nodup ∧ (dp.Readable → r.answer ≠ .failed) ∧
      (r.answer ≠ .failed → rangeAnswer dirchk dp name 0 dp.nblocks ≠ .failed →
        r.answer = rangeAnswer dirchk dp name 0 dp.nblocks) := by
  obtain ⟨r, hr, hsize, hreads, n, hn, hanswer⟩ := search_order dirchk name last hdp hhint
  have hsplit := rangeAnswer_add dirchk dp name 0 n (dp.nblocks - n)
  rw [zero_add, show n + (dp.nblocks - n) = dp.nblocks by omega] at hsplit
  refine ⟨r, hr, hsize, hreads, ?_, ?_⟩
  · intro hreadable
    rw [hanswer]
    exact orElse_ne_failed (rangeAnswer_ne_failed fun j _ hj => hreadable j (by omega))
      (rangeAnswer_ne_failed fun j _ hj => hreadable j (by omega))
  · rw [hanswer, hsplit]
    exact orElse_comm_of_wellFormed hdp (by omega) _ _ rfl rfl

/-- Whatever block the hint names, a `LOOKUP` gives the answer of one scan from the start, which
is the first record in use with the name, and asks for no block more than twice. If blocks
cannot be read one of the two may fail where the other does not; they never give different
answers. -/
theorem lookup_hint_transparent (dirchk : Bool) (dp : Inode) (name : Name) (last : Bool)
    (hint : Nameicache) (hdp : dp.WellFormed) (hhint : hint.prevoffset % dirblksiz = 0) :
    ∃ r r₀, search dirchk dp name .lookup last hint = some r ∧
      scanFromStart dirchk dp name .lookup last hint = some r₀ ∧
      r₀.answer = rangeAnswer dirchk dp name 0 dp.nblocks ∧
      (dp.Readable → r.answer = r₀.answer ∧ r.size = r₀.size ∧ r.answer ≠ .failed) ∧
      (r.answer ≠ .failed → r₀.answer ≠ .failed → r.answer = r₀.answer) ∧
      ∀ n, r.scan.reads.count n ≤ 2 := by
  obtain ⟨r, hr, hsize, hreads, hne, hagree⟩ := search_answer dirchk name last hdp hhint
  obtain ⟨r₀, hr₀, hanswer₀, hsize₀, -⟩ := scanFromStart_answer dirchk name .lookup last hint hdp
  rw [← hanswer₀] at hagree
  refine ⟨r, r₀, hr, hr₀, hanswer₀, ?_, hagree, ?_⟩
  · intro hreadable
    have hne₀ : r₀.answer ≠ .failed := by
      rw [hanswer₀]
      exact rangeAnswer_ne_failed fun j _ hj => hreadable j (by omega)
    have heq := hagree (hne hreadable) hne₀
    exact ⟨heq, by rw [hsize, hsize₀, heq], hne hreadable⟩
  · intro j
    exact (nodup_iff_count_le_one.1 hreads j).trans (by decide)

def smallDirectory : Inode where
  number := 2
  dev := 0
  size := 2048
  block
    | 0 => some fun i =>
      (toBytes 4 2 ++ toBytes 2 12 ++ toBytes 2 1 ++ [46, 0, 0, 0] ++
        toBytes 4 2 ++ toBytes 2 1012 ++ toBytes 2 2 ++ [46, 46])[i]?.getD 0
    | 1 => some fun i => (toBytes 4 5 ++ toBytes 2 1024 ++ toBytes 2 1 ++ [97])[i]?.getD 0
    | _ => none

theorem smallDirectory_wellFormed : smallDirectory.WellFormed where
  fits := by decide
  tiled := by
    intro n hn b hb
    have hn : n < 2 := hn
    interval_cases n
    · cases hb
      decide +kernel
    · cases hb
      decide +kernel
  distinct := by decide +kernel

theorem smallDirectory_readable : smallDirectory.Readable := by
  change ∀ n < 2, (smallDirectory.block n).isSome
  decide

/-- The hint names the second block, the name is in the first. -/
theorem lookup_hint_transparent_second_block :
    smallDirectory.WellFormed ∧ smallDirectory.Readable ∧
      ∃ r r₀, search false smallDirectory [46] .lookup true ⟨1024, 2, 0⟩ = some r ∧
        scanFromStart false smallDirectory [46] .lookup true ⟨1024, 2, 0⟩ = some r₀ ∧
        r.answer = rangeAnswer false smallDirectory [46] 0 2 ∧ ∀ n, r.scan.reads.count n ≤ 2 := by
  obtain ⟨r, r₀, hr, hr₀, hanswer₀, hanswer, -, hreads⟩ :=
    lookup_hint_transparent false smallDirectory [46] true ⟨1024, 2, 0⟩ smallDirectory_wellFormed
      (by decide)
  exact ⟨smallDirectory_wellFormed, smallDirectory_readable, r, r₀, hr, hr₀,
    (hanswer smallDirectory_readable).1.trans hanswer₀, hreads⟩

variable (hhint : hint.prevoffset % dirblksiz = 0)
include hhint

theorem finish_hint_aligned (dp : Inode) (op : Op) (last : Bool) (x : Round) :
    (finish dp op last hint x).hint.prevoffset % dirblksiz = 0 := by
  change (x.answer.hint dp op last hint).prevoffset % dirblksiz = 0
  unfold Answer.hint
  split
  · split_ifs
    · exact mul_mod_left _ _
    · exact hhint
  · exact hhint

theorem map_finish_hint_aligned {x : Option Round} {r : Result}
    (hr : x.map (finish dp op last hint) = some r) : r.hint.prevoffset % dirblksiz = 0 := by
  obtain ⟨x, -, rfl⟩ := Option.map_eq_some_iff.1 hr
  exact finish_hint_aligned hhint dp op last x

/-- The hint stays the start of a block, whatever is in the directory. -/
theorem search_hint_aligned {r : Result}
    (hr : search dirchk dp name op last hint = some r) : r.hint.prevoffset % dirblksiz = 0 := by
  have hwithin : (hint.within dp.size).prevoffset % dirblksiz = 0 := by
    obtain ⟨n, -, hn⟩ := exists_block_of_within hhint dp
    rw [hn, mul_mod_right]
  unfold search at hr
  split_ifs at hr with hother
  · exact map_finish_hint_aligned hhint hr
  · have haligned : (start op last (hint.within dp.size).prevoffset).inBlock = 0 := hwithin
    rw [scanFromHint, if_neg (not_not.2 haligned)] at hr
    exact map_finish_hint_aligned hwithin hr

omit hhint

/-- The hints that searches leave, of any directories and from the zeroed user structure on. -/
inductive Reached : Nameicache → Prop
  | boot : Reached ⟨0, 0, 0⟩
  | search {hint : Nameicache} {r : Result} (dirchk : Bool) (dp : Inode) (name : Name) (op : Op)
      (last : Bool) :
    Reached hint → search dirchk dp name op last hint = some r → Reached r.hint

theorem Reached.aligned (h : Reached hint) : hint.prevoffset % dirblksiz = 0 := by
  induction h with
  | boot => rfl
  | search dirchk dp name op last _ hr ih => exact search_hint_aligned ih hr

/-- After any searches, of this directory in any earlier state or of other ones, the hint is the
start of a block, and a `LOOKUP` finds a name exactly if it is in use in the directory. -/
theorem Reached.found_iff (h : Reached hint) (name : Name) (last : Bool) (hdp : dp.WellFormed)
    (hreadable : dp.Readable) :
    hint.prevoffset % dirblksiz = 0 ∧
      ∃ r, DirectoryScan.search false dp name .lookup last hint = some r ∧
        ((∃ off o ep, r.answer = .found off o ep) ↔ ∃ n < dp.nblocks, name ∈ dp.names n) := by
  obtain ⟨r, hr, -, -, hne, hagree⟩ := search_answer false name last hdp h.aligned
  refine ⟨h.aligned, r, hr, ?_⟩
  rw [hagree (hne hreadable) (rangeAnswer_ne_failed fun j _ hj => hreadable j (by omega))]
  exact rangeAnswer_found_iff hdp hreadable

/-- The first search finds a name in the second block and leaves the hint there. -/
theorem reached_second_block : Reached ⟨1024, 2, 0⟩ := by
  have hsearch : (search false smallDirectory [97] .lookup true ⟨0, 0, 0⟩).map Result.hint =
      some ⟨1024, 2, 0⟩ := by
    decide +kernel
  obtain ⟨r, hr, hhint⟩ := Option.map_eq_some_iff.1 hsearch
  exact hhint ▸ .search false smallDirectory [97] .lookup true .boot hr

/-- From there the name in the first block is found by the second pass. -/
theorem found_iff_second_block :
    Reached ⟨1024, 2, 0⟩ ∧ 1024 % dirblksiz = 0 ∧
      ∃ r, search false smallDirectory [46] .lookup true ⟨1024, 2, 0⟩ = some r ∧
        ((∃ off o ep, r.answer = .found off o ep) ↔ ∃ n < 2, [46] ∈ smallDirectory.names n) :=
  ⟨reached_second_block,
    reached_second_block.found_iff [46] true smallDirectory_wellFormed smallDirectory_readable⟩

end Passes

end RetroBSD.DirectoryScan
