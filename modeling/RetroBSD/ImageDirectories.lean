import RetroBSD.ImageNames
import RetroBSD.Tiling
import Mathlib

/-!
# Directories of a file system image

A directory holds records one behind the other. `ValidDir` is what the kernel asks of it,
`names` the map from names to inodes that its live records stand for. The search finds what
`names` says, an insertion adds one pair to it, and a deletion takes one away as long as the
deleted record does not begin a block.
-/

namespace RetroBSD.Fsutil

open LittleEndian ByteCopy Tiling List Nat Dirent File

structure Entry where
  inum : ℕ
  reclen : ℕ
  name : Name
  deriving DecidableEq

namespace Entry

def head (r : Entry) : Dirent := ⟨r.inum, r.reclen, r.name.length⟩

def At (data : Memory) (offset : ℕ) (r : Entry) : Prop :=
  unpack data offset = r.head ∧ bytes data (offset + 8) r.name.length = r.name

/-- The record is large enough for its name and does not cross the end of its block. -/
def Fits (offset : ℕ) (r : Entry) : Prop :=
  direntSize r.name.length ≤ r.reclen ∧ offset % bsize + r.reclen ≤ bsize ∧ r.reclen % 4 = 0

instance (offset : ℕ) (r : Entry) : Decidable (r.Fits offset) := inferInstanceAs (Decidable (_ ∧ _ ∧ _))

def Matches (name : Name) (r : Entry) : Prop := r.inum ≠ 0 ∧ r.name = name

instance (name : Name) (r : Entry) : Decidable (r.Matches name) := inferInstanceAs (Decidable (_ ∧ _))

end Entry

def live (rs : List Entry) : List (Name × ℕ) :=
  rs.filterMap fun r => if r.inum = 0 then none else some (r.name, r.inum)

namespace File

def entriesFrom (f : File) : ℕ → ℕ → List Entry
  | 0, _ => []
  | fuel + 1, offset =>
    if f.size ≤ offset then []
    else
      let e := unpack f.data offset
      ⟨e.inum, e.reclen, bytes f.data (offset + 8) e.namlen⟩ :: f.entriesFrom fuel (offset + e.reclen)

def entries (f : File) : List Entry := f.entriesFrom (f.size + 1) 0

def names (f : File) : Finset (Name × ℕ) := (live f.entries).toFinset

/-- Every block is tiled by records that suit the kernel, and no live name occurs twice. -/
def ValidDir (f : File) : Prop :=
  f.size % bsize = 0 ∧ Tiles Entry.reclen (fun offset r => r.Fits offset) 0 f.entries f.size ∧
    ((live f.entries).map Prod.fst).Nodup

instance (f : File) : Decidable f.ValidDir := inferInstanceAs (Decidable (_ ∧ _ ∧ _))

abbrev Tiled (f : File) (lo : ℕ) (rs : List Entry) (hi : ℕ) : Prop :=
  Tiles Entry.reclen (fun offset r => r.At f.data offset ∧ r.Fits offset) lo rs hi

structure Holds (f : File) (rs : List Entry) : Prop where
  size : f.size % bsize = 0
  tiles : f.Tiled 0 rs f.size
  distinct : ((live rs).map Prod.fst).Nodup

end File

variable {f g : File} {r p : Entry} {rs pre post : List Entry} {name : Name} {offset last hi fuel : ℕ}

theorem direntSize_ge (n : ℕ) : 8 + n + 1 ≤ direntSize n := by
  unfold direntSize
  omega

theorem direntSize_mod (n : ℕ) : direntSize n % 4 = 0 := by
  unfold direntSize
  omega

theorem Entry.Fits.pos (h : r.Fits offset) : 8 + r.name.length < r.reclen := by
  have hsize := direntSize_ge r.name.length
  have hle := h.1
  omega

variable {d : Memory}

theorem Entry.At.congr {d' : Memory} (h : r.At d offset) (hpos : 8 + r.name.length ≤ r.reclen)
    (hd : ∀ i, offset ≤ i → i < offset + r.reclen → d' i = d i) : r.At d' offset := by
  have hbytes : ∀ k n, k + n ≤ 8 + r.name.length → bytes d' (offset + k) n = bytes d (offset + k) n := by
    intro k n hk
    apply bytes_congr
    intro i hi
    exact hd _ (by omega) (by omega)
  constructor
  · rw [← h.1, unpack]
    congr 2
    · exact hbytes 0 4 (by omega)
    · exact hbytes 4 2 (by omega)
    · exact hbytes 6 2 (by omega)
  · rw [hbytes 8 _ le_rfl, h.2]

@[simp] theorem live_nil : live [] = [] := rfl

theorem live_append (rs rs' : List Entry) : live (rs ++ rs') = live rs ++ live rs' :=
  filterMap_append

theorem live_cons_of_ne (h : r.inum ≠ 0) (rs : List Entry) : live (r :: rs) = (r.name, r.inum) :: live rs :=
  filterMap_cons_some (if_neg h)

theorem live_resize (pre post : List Entry) (r : Entry) (n : ℕ) :
    live (pre ++ { r with reclen := n } :: post) = live (pre ++ r :: post) := by
  rw [live_append, live_append]
  rfl

theorem mem_live {x : Name × ℕ} : x ∈ live rs ↔ ∃ r ∈ rs, r.inum ≠ 0 ∧ (r.name, r.inum) = x := by
  rw [live, mem_filterMap]
  apply exists_congr
  intro r
  by_cases h : r.inum = 0
  · simp [h]
  · simp [h]

/-! ## Records as they are read -/

theorem entriesFrom_at
    (h : Tiles Entry.reclen (fun offset r => r.Fits offset) offset (f.entriesFrom fuel offset) f.size) :
    f.Tiled offset (f.entriesFrom fuel offset) f.size := by
  revert h
  induction fuel generalizing offset with
  | zero => exact id
  | succ fuel ih =>
    rw [File.entriesFrom]
    split_ifs with hsize
    · exact id
    · rintro ⟨hfits, htiles⟩
      refine ⟨⟨⟨?_, ?_⟩, hfits⟩, ih htiles⟩
      · rw [Entry.head, length_bytes]
      · rw [length_bytes]

theorem entriesFrom_eq (h : f.Tiled offset rs f.size)
    (hfuel : rs.length < fuel) : f.entriesFrom fuel offset = rs := by
  induction rs generalizing offset fuel with
  | nil =>
    obtain ⟨fuel, rfl⟩ := exists_eq_succ_of_ne_zero (by omega : fuel ≠ 0)
    rw [File.entriesFrom, if_pos (le_of_eq (Eq.symm h))]
  | cons r rs ih =>
    obtain ⟨fuel, rfl⟩ := exists_eq_succ_of_ne_zero (by omega : fuel ≠ 0)
    obtain ⟨⟨hat, hfits⟩, htiles⟩ := h
    have hle := htiles.le
    have hpos := hfits.pos
    rw [length_cons] at hfuel
    rw [File.entriesFrom, if_neg (by omega), hat.1]
    dsimp only [Entry.head]
    rw [hat.2, ih htiles (by omega)]

theorem File.ValidDir.holds (h : f.ValidDir) : f.Holds f.entries := ⟨h.1, entriesFrom_at h.2.1, h.2.2⟩

theorem File.Holds.entries_eq (h : f.Holds rs) : f.entries = rs := by
  apply entriesFrom_eq h.tiles
  have hlen := h.tiles.length_le fun _ _ hr => by
    have hpos := hr.2.pos
    omega
  omega

theorem File.Holds.valid (h : f.Holds rs) : f.ValidDir := by
  refine ⟨h.size, ?_, ?_⟩
  · rw [h.entries_eq]
    exact h.tiles.imp fun _ _ _ _ _ hr => hr.2
  · rw [h.entries_eq]
    exact h.distinct

theorem File.Holds.names_eq (h : f.Holds rs) : f.names = (live rs).toFinset := by
  rw [names, h.entries_eq]

/-! ## The search -/

theorem readDirent_eq (hat : r.At f.data offset) (hsize : offset + 8 ≤ f.size) :
    f.readDirent offset = some r.head := by
  rw [readDirent, if_neg (by omega), hat.1]

theorem searchFrom_step (hat : r.At f.data offset) (hfits : r.Fits offset) (hsize : offset + r.reclen ≤ f.size)
    (hno : ¬r.Matches name) (fuel last : ℕ) (e : Dirent) :
    f.searchFrom name (fuel + 1) offset last e = f.searchFrom name fuel (offset + r.reclen) offset r.head := by
  have hpos := hfits.pos
  rw [searchFrom, if_neg (by omega), readDirent_eq hat (by omega)]
  dsimp only [Entry.head]
  by_cases hskip : r.inum = 0 ∨ r.name.length ≠ name.length
  · rw [if_pos hskip]
  · obtain ⟨hinum, hlen⟩ := not_or.1 hskip
    rw [not_not] at hlen
    have hne : r.name ≠ name := fun h => hno ⟨hinum, h⟩
    rw [if_neg hskip, File.read, if_neg (by omega), ← hlen, hat.2]
    dsimp only
    rw [if_neg hne]

theorem searchFrom_hit (hat : r.At f.data offset) (hfits : r.Fits offset) (hsize : offset + r.reclen ≤ f.size)
    (hyes : r.Matches name) (fuel last : ℕ) (e : Dirent) :
    f.searchFrom name (fuel + 1) offset last e = .found offset last r.head := by
  have hpos := hfits.pos
  have hlen : r.name.length = name.length := by rw [hyes.2]
  rw [searchFrom, if_neg (by omega), readDirent_eq hat (by omega)]
  dsimp only [Entry.head]
  rw [if_neg (by rw [not_or, not_not]; exact ⟨hyes.1, hlen⟩), File.read, if_neg (by omega), ← hlen, hat.2]
  dsimp only
  rw [if_pos hyes.2]

variable {mid : ℕ}

/-- The search goes past records that do not match and comes to `mid` with the last of them. -/
theorem searchFrom_skip (h : f.Tiled offset (pre ++ [p]) mid) (hmid : mid ≤ f.size)
    (hno : ∀ r ∈ pre ++ [p], ¬r.Matches name) (hfuel : pre.length + 1 < fuel) (last : ℕ) (e : Dirent) :
    ∃ left, f.searchFrom name fuel offset last e =
      f.searchFrom name (left + 1) mid (mid - p.reclen) p.head := by
  induction pre generalizing offset fuel last e with
  | nil =>
    obtain ⟨left, rfl⟩ := Nat.exists_eq_add_of_le (by omega : 2 ≤ fuel)
    obtain ⟨⟨hat, hfits⟩, hend⟩ := h
    subst hend
    refine ⟨left, ?_⟩
    rw [show 2 + left = left + 1 + 1 by omega,
      searchFrom_step hat hfits hmid (hno p (mem_append_right _ mem_cons_self)), Nat.add_sub_cancel]
  | cons r pre ih =>
    obtain ⟨fuel, rfl⟩ := exists_eq_succ_of_ne_zero (by omega : fuel ≠ 0)
    obtain ⟨⟨hat, hfits⟩, hrest⟩ := h
    rw [length_cons] at hfuel
    rw [searchFrom_step hat hfits (hrest.le.trans hmid) (hno r mem_cons_self)]
    exact ih hrest (fun s hs => hno s (mem_cons_of_mem _ hs)) (by omega) _ _

theorem exists_first {l : List Entry} (h : ∃ r ∈ l, r.Matches name) :
    ∃ pre r post, l = pre ++ r :: post ∧ r.Matches name ∧ ∀ s ∈ pre, ¬s.Matches name := by
  induction l with
  | nil =>
    obtain ⟨r, hr, _⟩ := h
    exact absurd hr not_mem_nil
  | cons q l ih =>
    by_cases hq : q.Matches name
    · exact ⟨[], q, l, rfl, hq, by simp⟩
    · have hl : ∃ r ∈ l, r.Matches name := by
        obtain ⟨r, hr, hm⟩ := h
        rcases mem_cons.1 hr with rfl | hr
        · exact absurd hm hq
        · exact ⟨r, hr, hm⟩
      obtain ⟨pre, r, post, rfl, hm, hno⟩ := ih hl
      refine ⟨q :: pre, r, post, rfl, hm, ?_⟩
      intro s hs
      rcases mem_cons.1 hs with rfl | hs
      · exact hq
      · exact hno s hs

inductive Searched (f : File) (rs : List Entry) (name : Name) : Search → Prop
  | first {r : Entry} {post : List Entry} : rs = r :: post → r.Matches name → Searched f rs name (.found 0 0 r.head)
  | next {pre post : List Entry} {p r : Entry} {mid : ℕ} :
      rs = pre ++ p :: r :: post → r.Matches name → f.Tiled 0 pre mid →
      f.Tiled mid (p :: r :: post) f.size →
      Searched f rs name (.found (mid + p.reclen) mid r.head)
  | missing {pre : List Entry} {p : Entry} {mid : ℕ} :
      rs = pre ++ [p] → (∀ r ∈ rs, ¬r.Matches name) → f.Tiled 0 pre mid →
      f.Tiled mid [p] f.size → Searched f rs name (.missing mid p.head)

theorem search_spec (h : f.Holds rs) (hsize : 0 < f.size) (name : Name) :
    Searched f rs name (f.search name) := by
  have hlen := h.tiles.length_le fun _ _ hr => by
    have hpos := hr.2.pos
    omega
  rw [search]
  by_cases hex : ∃ r ∈ rs, r.Matches name
  · obtain ⟨pre, r, post, rfl, hyes, hno⟩ := exists_first hex
    obtain ⟨mid, hpre, ⟨hat, hfits⟩, hpost⟩ := tiles_append_cons.1 h.tiles
    rcases eq_nil_or_concat pre with rfl | ⟨pre, p, rfl⟩
    · subst hpre
      rw [searchFrom_hit hat hfits hpost.le hyes]
      exact .first rfl hyes
    · rw [concat_eq_append] at hpre hno hlen ⊢
      have hfuel : pre.length + 1 < f.size + 1 := by
        simp at hlen
        omega
      obtain ⟨left, hskip⟩ :=
        searchFrom_skip hpre ((Nat.le_add_right _ _).trans hpost.le) hno hfuel 0 ⟨0, 0, 0⟩
      rw [hskip, searchFrom_hit hat hfits hpost.le hyes]
      obtain ⟨lo, hlo, hp, hend⟩ := tiles_append_cons.1 hpre
      subst hend
      rw [Nat.add_sub_cancel]
      exact .next (by simp) hyes hlo ⟨hp, ⟨hat, hfits⟩, hpost⟩
  · have hno : ∀ r ∈ rs, ¬r.Matches name := fun r hr hm => hex ⟨r, hr, hm⟩
    rcases eq_nil_or_concat rs with rfl | ⟨pre, p, rfl⟩
    · exact absurd h.tiles (by simp; omega)
    · rw [concat_eq_append] at h hno hlen ⊢
      obtain ⟨lo, hlo, hp, hend⟩ := tiles_append_cons.1 h.tiles
      have hfuel : pre.length + 1 < f.size + 1 := by
        simp at hlen
        omega
      obtain ⟨left, hskip⟩ := searchFrom_skip h.tiles le_rfl hno hfuel 0 ⟨0, 0, 0⟩
      rw [hskip, searchFrom, if_pos le_rfl, ← hend, Nat.add_sub_cancel]
      exact .missing rfl hno hlo ⟨hp, hend⟩

/-! ## Writing records -/

structure Wrote (f : File) (offset : ℕ) (bs : List UInt8) (g : File) : Prop where
  mode : g.mode = f.mode
  nlink : g.nlink = f.nlink
  size : g.size = max f.size (offset + bs.length)
  bytes : bytes g.data offset bs.length = bs
  kept : ∀ i, i < f.nblocks * bsize → i < offset ∨ offset + bs.length ≤ i → g.data i = f.data i

theorem bytes_place_self (m : Memory) (d : ℕ) (l : List UInt8) : bytes (place m d l) d l.length = l := by
  have h := bytes_place m d 0 l
  rw [zero_add] at h
  exact h

theorem place_outside {m : Memory} {d i : ℕ} {l : List UInt8} (h : i < d ∨ d + l.length ≤ i) :
    place m d l i = m i := by
  rcases h with h | h
  · exact place_of_lt h
  · exact place_of_le h

variable {fresh : Option Memory} {bs : List UInt8}

theorem write_spec (hbs : bs ≠ []) (h : f.write fresh offset bs = some g) : Wrote f offset bs g := by
  rw [write, if_neg hbs] at h
  split_ifs at h with hin
  · obtain rfl := Option.some.inj h
    exact ⟨rfl, rfl, rfl, bytes_place_self _ _ _, fun i _ hi => place_outside hi⟩
  · obtain ⟨m, _, rfl⟩ := Option.map_eq_some_iff.1 h
    refine ⟨rfl, rfl, rfl, bytes_place_self _ _ _, ?_⟩
    intro i hi hout
    change place (fun i => if i < f.nblocks * bsize then f.data i else m i) offset bs i = f.data i
    rw [place_outside hout, if_pos hi]

theorem size_le_nblocks (f : File) : f.size ≤ f.nblocks * bsize := by
  unfold nblocks bsize
  omega

theorem nblocks_of_mod (h : f.size % bsize = 0) : f.nblocks * bsize = f.size := by
  unfold nblocks
  unfold bsize at *
  omega

theorem writes_cons_done {ws : List (ℕ × List UInt8)}
    (h : f.writes fresh ((offset, bs) :: ws) = (true, g)) :
    ∃ f', f.write fresh offset bs = some f' ∧ f'.writes fresh ws = (true, g) := by
  rw [writes] at h
  split at h
  · cases h
  · exact ⟨_, by assumption, h⟩

theorem nblocks_mono (h : f.size ≤ g.size) : f.nblocks * bsize ≤ g.nblocks * bsize := by
  unfold nblocks bsize
  omega

theorem Wrote.size_le (h : Wrote f offset bs g) : f.size ≤ g.size := by
  rw [h.size]
  exact le_max_left _ _

theorem Wrote.trans {f' : File} {bs' : List UInt8} (h : Wrote f offset bs f')
    (h' : Wrote f' (offset + bs.length) bs' g) : Wrote f offset (bs ++ bs') g := by
  have hsize := h.size
  have hblocks := size_le_nblocks f'
  have hmono := nblocks_mono h.size_le
  refine ⟨h'.mode.trans h.mode, h'.nlink.trans h.nlink, ?_, ?_, ?_⟩
  · rw [h'.size, length_append]
    omega
  · rw [length_append, ← bytes_append, h'.bytes]
    congr 1
    rw [← h.bytes, length_bytes]
    apply bytes_congr
    intro i hi
    exact h'.kept _ (by omega) (by omega)
  · intro i hi hout
    rw [length_append] at hout
    rw [h'.kept i (by omega) (by omega), h.kept i hi (by omega)]

@[simp] theorem Dirent.length_pack (e : Dirent) : e.pack.length = 8 := by
  simp [pack]

theorem Dirent.pack_ne_nil (e : Dirent) : e.pack ≠ [] := by
  intro h
  have hlen := e.length_pack
  rw [h] at hlen
  cases hlen

variable {e : Dirent}

theorem Dirent.unpack_of_bytes (h : bytes d offset 8 = e.pack)
    (hinum : e.inum < 2 ^ 32) (hreclen : e.reclen < 2 ^ 16) (hnamlen : e.namlen < 2 ^ 16) :
    unpack d offset = e := by
  have hpart : ∀ k n, k + n ≤ 8 → bytes d (offset + k) n = (e.pack.drop k).take n := by
    intro k n hk
    rw [← h, drop_bytes, take_bytes, min_eq_left (by omega)]
  have h1 : bytes d offset 4 = toBytes 4 e.inum := hpart 0 4 (by omega)
  have h2 : bytes d (offset + 4) 2 = toBytes 2 e.reclen := hpart 4 2 (by omega)
  have h3 : bytes d (offset + 6) 2 = toBytes 2 e.namlen := hpart 6 2 (by omega)
  rw [unpack, h1, h2, h3, ofBytes_toBytes hinum, ofBytes_toBytes hreclen, ofBytes_toBytes hnamlen]

variable {inum : ℕ}

theorem entryWrites_spec {reclen : ℕ} (hname : name ≠ [])
    (h : f.writes fresh (entryWrites offset inum reclen name) = (true, g)) :
    Wrote f offset (pack ⟨inum, reclen, name.length⟩ ++ name ++ [0]) g := by
  obtain ⟨f1, h1, h⟩ := writes_cons_done h
  obtain ⟨f2, h2, h⟩ := writes_cons_done h
  obtain ⟨f3, h3, h⟩ := writes_cons_done h
  obtain rfl : f3 = g := congrArg Prod.snd h
  have w1 := write_spec (pack_ne_nil _) h1
  have w2 := write_spec hname h2
  have w3 := write_spec (cons_ne_nil _ _) h3
  apply (w1.trans (by rw [length_pack]; exact w2)).trans
  rw [length_append, length_pack, ← add_assoc]
  exact w3

theorem Wrote.entry_at {reclen : ℕ} {tail : List UInt8}
    (h : Wrote f offset (pack ⟨inum, reclen, name.length⟩ ++ name ++ tail) g)
    (hinum : inum < 2 ^ 32) (hreclen : reclen < 2 ^ 16) (hname : name.length < 2 ^ 16) :
    Entry.At g.data offset ⟨inum, reclen, name⟩ := by
  have hall := h.bytes
  rw [length_append, length_append, length_pack, ← bytes_append, ← bytes_append] at hall
  have hhead := (append_inj hall (by simp)).1
  obtain ⟨h1, h2⟩ := append_inj hhead (by simp)
  exact ⟨unpack_of_bytes h1 hinum hreclen hname, h2⟩

theorem Wrote.resize_at {n : ℕ} (hat : r.At f.data offset) (hpos : offset + 8 + r.name.length ≤ f.size)
    (h : Wrote f offset (pack { r.head with reclen := n }) g)
    (hinum : r.inum < 2 ^ 32) (hn : n < 2 ^ 16) (hname : r.name.length < 2 ^ 16) :
    Entry.At g.data offset { r with reclen := n } := by
  have hblocks := size_le_nblocks f
  constructor
  · apply unpack_of_bytes _ hinum hn hname
    have hbytes := h.bytes
    rwa [length_pack] at hbytes
  · refine Eq.trans ?_ hat.2
    apply bytes_congr
    intro i hi
    dsimp only at hi
    apply h.kept _ (by omega)
    rw [length_pack]
    omega

theorem Tiled.wrote {lo : ℕ} (h : f.Tiled lo rs hi) (hsize : hi ≤ f.size)
    (hw : Wrote f offset bs g) (hout : hi ≤ offset ∨ offset + bs.length ≤ lo) : g.Tiled lo rs hi := by
  have hblocks := size_le_nblocks f
  apply h.imp
  intro i r _ hlo hhi hr
  have hpos := hr.2.pos
  refine ⟨hr.1.congr hpos.le ?_, hr.2⟩
  intro j hj hj'
  exact hw.kept j (by omega) (by omega)

theorem Entry.At.inum_lt (h : r.At d offset) : r.inum < 2 ^ 32 := by
  have hinum : ofBytes (bytes d offset 4) = r.inum := congrArg Dirent.inum h.1
  rw [← hinum]
  have hb := fun i => (d i).toNat_lt
  have h0 := hb offset
  have h1 := hb (offset + 1)
  have h2 := hb (offset + 1 + 1)
  have h3 := hb (offset + 1 + 1 + 1)
  simp only [bytes, List.range'_succ, map_cons, ofBytes, List.range'_zero, map_nil]
  omega

theorem Entry.Fits.name_lt (h : r.Fits offset) : r.name.length < 2 ^ 16 := by
  have hpos := h.pos
  have hle := h.2.1
  unfold bsize at hle
  omega

/-! ## Insertion and removal -/

theorem distinct_insert (h : ((live rs).map Prod.fst).Nodup) (hno : ∀ r ∈ rs, ¬r.Matches name) (inum : ℕ) :
    ((live rs ++ [(name, inum)]).map Prod.fst).Nodup := by
  rw [map_append]
  apply h.append (nodup_singleton _)
  intro n hn hn'
  rw [mem_singleton] at hn'
  obtain ⟨x, hx, rfl⟩ := mem_map.1 hn
  obtain ⟨r, hr, hinum, rfl⟩ := mem_live.1 hx
  exact hno r hr ⟨hinum, hn'⟩

/-- The new record lies in what the last record has to spare. -/
theorem insert_split {slack : ℕ} (hname : name ≠ [])
    (hinum : inum < 2 ^ 32) (hinum' : inum ≠ 0) (h : f.Holds (pre ++ [p])) (hno : ∀ r ∈ pre ++ [p], ¬r.Matches name)
    (hpre : f.Tiled 0 pre mid) (hp : f.Tiled mid [p] f.size)
    (hslack : p.reclen = direntSize p.name.length + slack) (hroom : direntSize name.length ≤ slack)
    (hw : f.writes fresh ((mid, pack { p.head with reclen := direntSize p.name.length }) ::
      entryWrites (mid + direntSize p.name.length) inum slack name) = (true, g)) :
    g.Holds (pre ++ [{ p with reclen := direntSize p.name.length }, ⟨inum, slack, name⟩]) ∧
      g.size = f.size ∧ g.mode = f.mode ∧ g.nlink = f.nlink := by
  obtain ⟨⟨hat, hfits⟩, hend⟩ := hp
  change mid + p.reclen = f.size at hend
  have hpsize := direntSize_ge p.name.length
  have hnsize := direntSize_ge name.length
  have hfit := hfits.2.1
  have hmod := hfits.2.2
  have hmodp := direntSize_mod p.name.length
  have hbsize : bsize = 1024 := rfl
  obtain ⟨f', h1, h2⟩ := writes_cons_done hw
  have w1 := write_spec (pack_ne_nil _) h1
  have w2 := entryWrites_spec hname h2
  have hsize1 : f'.size = f.size := by
    rw [w1.size, length_pack]
    omega
  have hsize2 : g.size = f.size := by
    rw [w2.size, length_append, length_append, length_pack, length_singleton]
    omega
  have hpre1 := Tiled.wrote hpre (by omega) w1 (.inl le_rfl)
  have hpre2 := Tiled.wrote hpre1 (by omega) w2 (.inl (by omega))
  have hat1 := Wrote.resize_at hat (by omega) w1 hat.inum_lt (by omega) hfits.name_lt
  have hfits1 : Entry.Fits mid { p with reclen := direntSize p.name.length } :=
    ⟨le_rfl, by dsimp only; omega, hmodp⟩
  have htile1 : f'.Tiled mid [{ p with reclen := direntSize p.name.length }] (mid + direntSize p.name.length) :=
    ⟨⟨hat1, hfits1⟩, rfl⟩
  have htile2 := Tiled.wrote htile1 (by omega) w2 (.inl le_rfl)
  have hnew := w2.entry_at hinum (by omega) (by omega)
  -- The new record is in the block of the one that is split.
  have hfits2 : Entry.Fits (mid + direntSize p.name.length) ⟨inum, slack, name⟩ := by
    refine ⟨hroom, ?_, ?_⟩
    · dsimp only
      rw [hbsize] at hfit ⊢
      omega
    · dsimp only
      omega
  refine ⟨⟨by rw [hsize2]; exact h.size, ?_, ?_⟩, hsize2, w2.mode.trans w1.mode, w2.nlink.trans w1.nlink⟩
  · rw [hsize2]
    refine tiles_append.2 ⟨mid, hpre2, htile2.1, ⟨hnew, hfits2⟩, ?_⟩
    change mid + direntSize p.name.length + slack = f.size
    omega
  · rw [live_resize, append_cons, live_append, live_cons_of_ne hinum']
    exact distinct_insert h.distinct hno inum

theorem insert_extend (hname : name ≠ []) (hinum : inum < 2 ^ 32)
    (hinum' : inum ≠ 0) (h : f.Holds rs) (hno : ∀ r ∈ rs, ¬r.Matches name) (hfit : direntSize name.length ≤ bsize)
    (hw : f.writes fresh (entryWrites f.size inum bsize name) = (true, g)) :
    Holds { g with size := (g.size + bsize - 1) / bsize * bsize } (rs ++ [⟨inum, bsize, name⟩]) ∧
      (g.size + bsize - 1) / bsize * bsize = f.size + bsize ∧ g.mode = f.mode ∧ g.nlink = f.nlink := by
  have hnsize := direntSize_ge name.length
  have hbsize : bsize = 1024 := rfl
  have hmod := h.size
  have w := entryWrites_spec hname hw
  have hsize : (g.size + bsize - 1) / bsize * bsize = f.size + bsize := by
    rw [w.size, length_append, length_append, length_pack, length_singleton]
    rw [hbsize] at hmod hfit ⊢
    omega
  have hold := Tiled.wrote h.tiles le_rfl w (.inl le_rfl)
  have hnew := w.entry_at hinum (by omega) (by omega)
  refine ⟨⟨?_, ?_, ?_⟩, hsize, w.mode, w.nlink⟩
  · exact mul_mod_left _ _
  · rw [hsize]
    have hfits : Entry.Fits f.size ⟨inum, bsize, name⟩ := by
      refine ⟨hfit, ?_, mod_eq_zero_of_dvd ⟨256, rfl⟩⟩
      rw [hmod, zero_add]
    exact tiles_append.2 ⟨f.size, hold, ⟨hnew, hfits⟩, rfl⟩
  · rw [live_append, live_cons_of_ne hinum']
    exact distinct_insert h.distinct hno inum

structure Inserted (f : File) (name : Name) (inum : ℕ) (g : File) : Prop where
  valid : g.ValidDir
  names : g.names = insert (name, inum) f.names
  size : f.size ≤ g.size
  mode : g.mode = f.mode
  nlink : g.nlink = f.nlink

theorem insertEntry_done {slack : ℕ}
    (hslack : p.reclen = direntSize p.name.length + slack)
    (h : f.insertEntry fresh mid p.head inum name = (true, g)) :
    ∃ dir, g = { dir with size := (dir.size + bsize - 1) / bsize * bsize } ∧
      (if direntSize name.length ≤ slack then
        f.writes fresh ((mid, pack { p.head with reclen := direntSize p.name.length }) ::
          entryWrites (mid + direntSize p.name.length) inum slack name)
      else f.writes fresh (entryWrites (mid + p.reclen) inum bsize name)) = (true, dir) := by
  have hlen : (p.head.reclen : ℤ) - 8 - ((p.head.namlen + 4) / 4 * 4 : ℕ) = slack := by
    dsimp only [Entry.head]
    rw [hslack, direntSize]
    omega
  have hcut : p.head.reclen - slack = direntSize p.name.length := by
    dsimp only [Entry.head]
    omega
  set dir := f.insertRecord fresh mid p.head inum name with hdir
  rw [insertEntry, ← hdir] at h
  split_ifs at h with hdone
  · refine ⟨dir.2, (congrArg Prod.snd h).symm, ?_⟩
    rw [insertRecord, hlen] at hdir
    simp only [cast_le, Int.toNat_natCast, hcut] at hdir
    rw [← hdone]
    exact hdir.symm
  · cases h

theorem insertEntry_spec (hname : name ≠ []) (hinum : inum < 2 ^ 32)
    (hinum' : inum ≠ 0) (h : f.Holds (pre ++ [p])) (hno : ∀ r ∈ pre ++ [p], ¬r.Matches name)
    (hpre : f.Tiled 0 pre mid) (hp : f.Tiled mid [p] f.size) (hfit : direntSize name.length ≤ bsize)
    (hw : f.insertEntry fresh mid p.head inum name = (true, g)) : Inserted f name inum g := by
  obtain ⟨⟨-, hfits⟩, hend⟩ := id hp
  obtain ⟨slack, hslack⟩ := Nat.exists_eq_add_of_le hfits.1
  obtain ⟨dir, rfl, hdir⟩ := insertEntry_done hslack hw
  split_ifs at hdir with hroom
  · obtain ⟨hholds, hsize, hmode, hnlink⟩ := insert_split hname hinum hinum' h hno hpre hp hslack hroom hdir
    have hround : (dir.size + bsize - 1) / bsize * bsize = dir.size := nblocks_of_mod hholds.size
    rw [hround]
    refine ⟨hholds.valid, ?_, hsize.ge, hmode, hnlink⟩
    rw [hholds.names_eq, h.names_eq, live_resize, append_cons, live_append, live_cons_of_ne hinum']
    ext x
    simp [or_comm]
  · rw [hend] at hdir
    obtain ⟨hholds, hsize, hmode, hnlink⟩ := insert_extend hname hinum hinum' h hno hfit hdir
    refine ⟨hholds.valid, ?_, ?_, hmode, hnlink⟩
    · rw [hholds.names_eq, h.names_eq, live_append, live_cons_of_ne hinum']
      ext x
      simp [or_comm]
    · dsimp only
      omega

theorem live_remove (pre post : List Entry) (p : Entry) (n : ℕ) :
    live (pre ++ { p with reclen := n } :: post) = live (pre ++ [p]) ++ live post := by
  rw [live_resize, append_cons, live_append]

theorem live_removed (pre post : List Entry) (p : Entry) (hr : r.inum ≠ 0) :
    live (pre ++ p :: r :: post) = live (pre ++ [p]) ++ (r.name, r.inum) :: live post := by
  rw [append_cons, live_append, live_cons_of_ne hr]

structure Removed (f : File) (name : Name) (inum : ℕ) (g : File) : Prop where
  valid : g.ValidDir
  names : g.names = f.names.erase (name, inum)
  size : g.size = f.size
  mode : g.mode = f.mode
  nlink : g.nlink = f.nlink

theorem removeEntry_spec (h : f.Holds (pre ++ p :: r :: post)) (hr : r.inum ≠ 0)
    (hpre : f.Tiled 0 pre mid) (hp : f.Tiled mid (p :: r :: post) f.size)
    (hstart : (mid + p.reclen) % bsize ≠ 0) (hw : f.removeEntry mid r.head = some g) :
    Removed f r.name r.inum g := by
  obtain ⟨⟨hat, hfits⟩, ⟨-, hfits'⟩, hpost⟩ := hp
  have hle := hpost.le
  have hpos := hfits.pos
  have hbsize : bsize = 1024 := rfl
  have hin := hfits.2.1
  have hin' := hfits'.2.1
  rw [removeEntry, readDirent_eq hat (by omega)] at hw
  have hjoin : mid % bsize + (p.reclen + r.reclen) ≤ bsize := by
    rw [hbsize] at hin hin' hstart ⊢
    omega
  have hlen : (p.head.reclen + r.head.reclen) % 2 ^ 16 = p.reclen + r.reclen := by
    dsimp only [Entry.head]
    omega
  have w : Wrote f mid (pack { p.head with reclen := p.reclen + r.reclen }) g := by
    apply write_spec (pack_ne_nil _)
    rw [← hlen]
    exact hw
  have hsize : g.size = f.size := by
    rw [w.size, length_pack]
    omega
  have hat1 := Wrote.resize_at hat (by omega) w hat.inum_lt (by omega) hfits.name_lt
  have hfits1 : Entry.Fits mid { p with reclen := p.reclen + r.reclen } := by
    refine ⟨?_, hjoin, ?_⟩
    · have hp := hfits.1
      dsimp only
      omega
    · have hm := hfits.2.2
      have hm' := hfits'.2.2
      dsimp only
      omega
  have hholds : g.Holds (pre ++ { p with reclen := p.reclen + r.reclen } :: post) := by
    refine ⟨by rw [hsize]; exact h.size, ?_, ?_⟩
    · rw [hsize]
      refine tiles_append.2 ⟨mid, Tiled.wrote hpre (by omega) w (.inl le_rfl), ⟨hat1, hfits1⟩, ?_⟩
      have htail := Tiled.wrote hpost le_rfl w (.inr (by rw [length_pack]; omega))
      rw [add_assoc] at htail
      exact htail
    · have hdist := h.distinct
      rw [live_removed pre post p hr, map_append] at hdist
      rw [live_remove, map_append]
      exact hdist.sublist (List.Sublist.append_left (sublist_cons_self _ _) _)
  refine ⟨hholds.valid, ?_, hsize, w.mode, w.nlink⟩
  have hdist := h.distinct.of_map
  rw [live_removed pre post p hr, nodup_middle, nodup_cons] at hdist
  rw [hholds.names_eq, h.names_eq, live_remove, live_removed pre post p hr]
  ext x
  simp only [mem_toFinset, Finset.mem_erase, mem_append, mem_cons]
  constructor
  · intro hx
    refine ⟨?_, hx.imp_right .inr⟩
    rintro rfl
    exact hdist.1 (mem_append.2 hx)
  · rintro ⟨hne, hx | hx | hx⟩
    · exact .inl hx
    · exact absurd hx hne
    · exact .inr hx

/-! ## Searching and changing -/

theorem not_mem_names (h : f.Holds rs) (hno : ∀ r ∈ rs, ¬r.Matches name) (i : ℕ) : (name, i) ∉ f.names := by
  rw [h.names_eq, mem_toFinset, mem_live]
  rintro ⟨r, hr, hinum, heq⟩
  exact hno r hr ⟨hinum, congrArg Prod.fst heq⟩

theorem mem_names (h : f.Holds rs) (hr : r ∈ rs) (hyes : r.Matches name) : (name, r.inum) ∈ f.names := by
  rw [h.names_eq, mem_toFinset, mem_live]
  exact ⟨r, hr, hyes.1, by rw [hyes.2]⟩

theorem File.ValidDir.insert (hvalid : f.ValidDir)
    (hsize : 0 < f.size) (hsearch : f.search name = .missing last e) (hname : name ≠ [])
    (hfit : direntSize name.length ≤ bsize) (hinum : inum < 2 ^ 32) (hinum' : inum ≠ 0)
    (hw : f.insertEntry fresh last e inum name = (true, g)) :
    (∀ i, (name, i) ∉ f.names) ∧ Inserted f name inum g := by
  have hspec := search_spec hvalid.holds hsize name
  rw [hsearch] at hspec
  cases hspec with
  | @missing pre p _ hrs hno hpre hp =>
    have hholds := hvalid.holds
    refine ⟨not_mem_names hholds hno, ?_⟩
    rw [hrs] at hholds hno
    exact insertEntry_spec hname hinum hinum' hholds hno hpre hp hfit hw

/-- A record that does not begin a block has one in front of it. -/
theorem File.ValidDir.remove (hvalid : f.ValidDir) (hsize : 0 < f.size)
    (hsearch : f.search name = .found offset last e) (hstart : offset % bsize ≠ 0)
    (hw : f.removeEntry last e = some g) : (name, e.inum) ∈ f.names ∧ Removed f name e.inum g := by
  have hspec := search_spec hvalid.holds hsize name
  rw [hsearch] at hspec
  cases hspec with
  | first hrs hyes => exact absurd rfl hstart
  | @next pre post p r _ hrs hyes hpre hp =>
    have hholds := hvalid.holds
    refine ⟨mem_names hholds (by rw [hrs]; simp) hyes, ?_⟩
    rw [hrs] at hholds
    rw [← hyes.2]
    exact removeEntry_spec hholds hyes.1 hpre hp hstart hw

end RetroBSD.Fsutil
