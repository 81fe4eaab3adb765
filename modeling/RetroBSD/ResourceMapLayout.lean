import RetroBSD.ResourceMap

/-!
# Resource maps as sets of free units

A well-formed map is a separated list of segments followed by the entry `(0, 0)`
and by slots whose contents no longer matter. The set of free units it denotes is
the cover of its segments, and the segments are the maximal intervals of that
set, so first fit can be stated on the set alone.
-/

namespace RetroBSD.ResourceMap

open SeparatedIntervals List Mapent

def Mapent.stop (e : Mapent) : ℕ := e.mAddr + e.mSize

def terminator : Mapent := ⟨0, 0⟩

def Map.segments (mp : Map) : List Mapent := mp.mMap.takeWhile (fun e => e.mSize ≠ 0)

def Map.freeUnits (mp : Map) : Set ℕ := cover mAddr stop mp.segments

/-- Sorted, pairwise non-touching, of positive size, without address 0, and inside
the range of `size_t`. -/
def GoodSegments (segs : List Mapent) : Prop :=
  Separated mAddr stop segs ∧ ∀ e ∈ segs, 0 < e.mAddr ∧ e.stop ≤ sizeMod

structure Map.WellFormed (mp : Map) : Prop where
  good : GoodSegments mp.segments
  ended : mp.mMap[mp.segments.length]? = some terminator

/-- One more segment fits, in the array and below `mLimit`. The two bounds differ:
`swapmap` is declared with a limit one slot beyond its array. -/
def Map.HasRoom (mp : Map) : Prop :=
  mp.segments.length < mp.mLimit ∧ mp.segments.length + 1 < mp.mMap.length

variable {segs : List Mapent}

theorem GoodSegments.size_pos (h : GoodSegments segs) : ∀ e ∈ segs, e.mSize ≠ 0 := by
  intro e he hz
  have := h.1.1 e he
  simp [stop, hz] at this

variable {junk : List Mapent}

theorem takeWhile_size_append (h : ∀ e ∈ segs, e.mSize ≠ 0) :
    (segs ++ terminator :: junk).takeWhile (fun e => e.mSize ≠ 0) = segs := by
  rw [takeWhile_append_of_pos (by simpa using h)]
  simp [terminator]

variable {mp : Map}

theorem segments_of_mMap
    (hm : mp.mMap = segs ++ terminator :: junk) (hg : GoodSegments segs) : mp.segments = segs := by
  rw [Map.segments, hm, takeWhile_size_append hg.size_pos]

theorem wellFormed_iff : mp.WellFormed ↔
    ∃ segs junk, mp.mMap = segs ++ terminator :: junk ∧ GoodSegments segs := by
  constructor
  · intro h
    obtain ⟨hlt, hend⟩ := List.getElem?_eq_some_iff.1 h.ended
    refine ⟨mp.segments, mp.mMap.drop (mp.segments.length + 1), ?_, h.good⟩
    have htake : mp.mMap.take mp.segments.length = mp.segments :=
      (prefix_iff_eq_take.1 ( takeWhile_prefix _)).symm
    conv_lhs => rw [← take_append_drop mp.segments.length mp.mMap, htake]
    rw [drop_eq_getElem_cons hlt, hend]
  · rintro ⟨segs, junk, hm, hg⟩
    have hs := segments_of_mMap hm hg
    refine ⟨by rwa [hs], ?_⟩
    rw [hs, hm]
    simp

theorem freeUnits_of_mMap
    (hm : mp.mMap = segs ++ terminator :: junk) (hg : GoodSegments segs) :
    mp.freeUnits = cover mAddr stop segs := by
  rw [Map.freeUnits, segments_of_mMap hm hg]

/-! ## Moving the array -/

theorem closeGap_append (e : Mapent) (junk : List Mapent)
    (h : ∀ e ∈ segs, e.mSize ≠ 0) :
    closeGap (e :: (segs ++ terminator :: junk)) =
      .ok (segs ++ terminator :: terminator :: junk) := by
  induction segs generalizing e with
  | nil => simp [closeGap, terminator]
  | cons s segs ih =>
    have hs : s.mSize ≠ 0 := h s mem_cons_self
    simp only [cons_append, closeGap, if_neg hs]
    rw [ih s (fun e he => h e (mem_cons_of_mem _ he))]
    rfl

theorem findEnd_append (junk : List Mapent)
    (h : ∀ e ∈ segs, e.mSize ≠ 0) :
    findEnd (segs ++ terminator :: junk) = .ok segs.length := by
  induction segs with
  | nil => simp [findEnd, terminator]
  | cons s segs ih =>
    have hs : s.mSize ≠ 0 := h s mem_cons_self
    simp only [cons_append, findEnd, if_pos hs]
    rw [ih (fun e he => h e (mem_cons_of_mem _ he))]
    rfl

theorem locate_append {addr : ℕ} (junk : List Mapent)
    (h : ∀ e ∈ segs, e.mSize ≠ 0) :
    locate addr (segs ++ terminator :: junk) =
      .ok (segs.takeWhile (fun e => e.mAddr ≤ addr)).length := by
  induction segs with
  | nil => simp [locate, terminator]
  | cons s segs ih =>
    have hs : s.mSize ≠ 0 := h s mem_cons_self
    simp only [cons_append, locate, hs, ne_eq]
    rw [ih (fun e he => h e (mem_cons_of_mem _ he))]
    by_cases ha : s.mAddr ≤ addr
    · simp [ha, Except.map]
    · simp [ha]

/-! ## `malloc` -/

def remainder (s : Mapent) (size : ℕ) : List Mapent :=
  if s.mSize = size then [] else [⟨s.mSize - size, s.mAddr + size⟩]

theorem mallocLoop_append (size : ℕ) (junk : List Mapent)
    (hg : GoodSegments segs) :
    ((∀ e ∈ segs, e.mSize < size) ∧
      mallocLoop size (segs ++ terminator :: junk) = .ok (0, segs ++ terminator :: junk)) ∨
    ∃ l s r junk', segs = l ++ s :: r ∧ (∀ e ∈ l, e.mSize < size) ∧ size ≤ s.mSize ∧
      junk'.length = junk.length + 1 - (remainder s size).length ∧
      mallocLoop size (segs ++ terminator :: junk) =
        .ok (s.mAddr, l ++ remainder s size ++ r ++ terminator :: junk') := by
  induction segs with
  | nil => exact .inl ⟨by simp, by simp [mallocLoop, terminator]⟩
  | cons s segs ih =>
    have hs : s.mSize ≠ 0 := hg.size_pos s mem_cons_self
    have htail : GoodSegments segs :=
      ⟨(separated_cons.1 hg.1).2.2, fun e he => hg.2 e (mem_cons_of_mem _ he)⟩
    by_cases hfit : size ≤ s.mSize
    · refine .inr ⟨[], s, segs, ?_⟩
      by_cases hall : s.mSize = size
      · refine ⟨terminator :: junk, rfl, by simp, hfit, by simp [remainder, hall], ?_⟩
        simp only [cons_append, mallocLoop, if_neg hs, if_pos hfit, remainder, if_pos hall]
        rw [if_neg (by omega), closeGap_append _ _ htail.size_pos]
        simp [Except.map]
      · have hend := (hg.2 s mem_cons_self).2
        have hmod : (s.mAddr + size) % sizeMod = s.mAddr + size :=
          Nat.mod_eq_of_lt (by simp only [stop] at hend; omega)
        refine ⟨junk, rfl, by simp, hfit, by simp [remainder, hall], ?_⟩
        simp only [cons_append, mallocLoop, if_neg hs, if_pos hfit, remainder, if_neg hall]
        rw [if_pos (by omega), hmod]
        simp
    · have hlt : s.mSize < size := by omega
      rcases ih htail with ⟨hsmall, hloop⟩ | ⟨l, t, r, junk', rfl, hl, hfit', hlen, hloop⟩
      · refine .inl ⟨by simpa using ⟨hlt, hsmall⟩, ?_⟩
        simp only [cons_append, mallocLoop, if_neg hs, if_neg hfit, hloop]
        rfl
      · refine .inr ⟨s :: l, t, r, junk', rfl, by simpa using ⟨hlt, hl⟩, hfit', hlen, ?_⟩
        rw [cons_append, mallocLoop, if_neg hs, if_neg hfit, hloop]
        rfl

variable {r l : List Mapent}

theorem goodSegments_append : GoodSegments (l ++ r) ↔
    GoodSegments l ∧ GoodSegments r ∧ ∀ i ∈ l, ∀ j ∈ r, i.stop < j.mAddr := by
  simp only [GoodSegments, separated_append, forall_mem_append]
  tauto

variable {s : Mapent}

theorem goodSegments_cons : GoodSegments (s :: r) ↔
    0 < s.mSize ∧ 0 < s.mAddr ∧ s.stop ≤ sizeMod ∧ (∀ j ∈ r, s.stop < j.mAddr) ∧ GoodSegments r := by
  simp only [GoodSegments, separated_cons, forall_mem_cons, stop]
  constructor
  · rintro ⟨⟨h1, h2, h3⟩, ⟨h4, h5⟩, h6⟩
    exact ⟨by omega, h4, h5, h2, h3, h6⟩
  · rintro ⟨h1, h2, h3, h4, h5, h6⟩
    exact ⟨⟨by omega, h4, h5⟩, ⟨h2, h3⟩, h6⟩

variable {size : ℕ}

theorem remainder_good (hsize : 0 < size)
    (hfit : size ≤ s.mSize) (hg : GoodSegments (l ++ s :: r)) :
    GoodSegments (l ++ remainder s size ++ r) := by
  obtain ⟨hl, hsr, hbefore⟩ := goodSegments_append.1 hg
  obtain ⟨-, -, hstop, hafter, hr⟩ := goodSegments_cons.1 hsr
  simp only [stop] at hstop hafter hbefore
  by_cases hall : s.mSize = size
  · simp only [remainder, if_pos hall, append_nil]
    refine goodSegments_append.2 ⟨hl, hr, fun i hi j hj => ?_⟩
    exact hbefore i hi j (mem_cons_of_mem _ hj)
  · simp only [remainder, if_neg hall, append_assoc]
    refine goodSegments_append.2 ⟨hl, goodSegments_cons.2 ⟨?_, ?_, ?_, fun j hj => ?_, hr⟩, ?_⟩
    · simp only; omega
    · simp only; omega
    · simp only [stop]; omega
    · have := hafter j hj
      simp only [stop]; omega
    · rintro i hi j (_ | ⟨_, hj⟩)
      · have := hbefore i hi s mem_cons_self
        simp only [stop]; omega
      · exact hbefore i hi j (mem_cons_of_mem _ hj)

theorem remainder_cover
    (hfit : size ≤ s.mSize) (hg : GoodSegments (l ++ s :: r)) :
    cover mAddr stop (l ++ remainder s size ++ r) =
      cover mAddr stop (l ++ s :: r) \ Set.Ico s.mAddr (s.mAddr + size) := by
  obtain ⟨_, hsr, hbefore⟩ := goodSegments_append.1 hg
  obtain ⟨_, _, _, hafter, _⟩ := goodSegments_cons.1 hsr
  simp only [stop] at hafter
  have hl : Disjoint (cover mAddr stop l) (Set.Ico s.mAddr (s.mAddr + size)) := by
    rw [Set.disjoint_left]
    rintro x ⟨e, he, _, hx⟩ ⟨hx', _⟩
    have := hbefore e he s mem_cons_self
    omega
  have hr : Disjoint (cover mAddr stop r) (Set.Ico s.mAddr (s.mAddr + size)) := by
    rw [Set.disjoint_left]
    rintro x ⟨e, he, hx, _⟩ ⟨_, hx'⟩
    have := hafter e he
    omega
  have hs : cover mAddr stop (remainder s size) =
      Set.Ico s.mAddr s.stop \ Set.Ico s.mAddr (s.mAddr + size) := by
    ext x
    by_cases hall : s.mSize = size
    · simp [remainder, hall, stop]
    · simp [remainder, stop]
      omega
  simp only [cover_append, cover_cons, Set.union_sdiff_distrib, hs, hl.sdiff_eq_left,
    hr.sdiff_eq_left, Set.union_assoc]

/-- First fit, stated on the set of free units: the lowest maximal interval that is
large enough gives up its front, and 0 is returned exactly when there is none. -/
def FirstFit (F : Set ℕ) (size ret : ℕ) (F' : Set ℕ) : Prop :=
  (ret = 0 ∧ F' = F ∧ ∀ a b, IsMaximal F a b → b - a < size) ∨
  (0 < ret ∧ F' = F \ Set.Ico ret (ret + size) ∧ (∃ b, IsMaximal F ret b ∧ size ≤ b - ret) ∧
    ∀ a b, IsMaximal F a b → size ≤ b - a → ret ≤ a)

theorem malloc_spec (hwf : mp.WellFormed) (hsize : 0 < size) :
    ∃ ret mp', malloc mp size = .ok (ret, mp') ∧ mp'.WellFormed ∧ mp'.mLimit = mp.mLimit ∧
      mp'.mMap.length = mp.mMap.length ∧ FirstFit mp.freeUnits size ret mp'.freeUnits := by
  obtain ⟨segs, junk, hm, hg⟩ := wellFormed_iff.1 hwf
  rw [freeUnits_of_mMap hm hg]
  have hsz : size ≠ 0 := by omega
  rcases mallocLoop_append size junk hg with
    ⟨hsmall, hloop⟩ | ⟨l, s, r, junk', rfl, hl, hfit, hlen, hloop⟩
  · refine ⟨0, mp, ?_, hwf, rfl, rfl, .inl ⟨rfl, freeUnits_of_mMap hm hg, ?_⟩⟩
    · simp only [malloc, if_neg hsz, hm, hloop, Except.map]
      rw [← hm]
    · intro a b hab
      obtain ⟨e, he, rfl, rfl⟩ := hg.1.isMaximal_iff.1 hab
      have := hsmall e he
      simp only [stop]; omega
  · have hg' := remainder_good hsize hfit hg
    let slots := l ++ remainder s size ++ r ++ terminator :: junk'
    have hlen' : slots.length = mp.mMap.length := by
      have hle : (remainder s size).length ≤ 1 := by unfold remainder; split_ifs <;> simp
      simp only [slots, hm, length_append, length_cons]
      omega
    refine ⟨s.mAddr, { mp with mMap := slots }, ?_, ?_, rfl, hlen', .inr ⟨?_, ?_, ?_, ?_⟩⟩
    · simp only [malloc, if_neg hsz, hm, hloop, Except.map, slots]
    · exact wellFormed_iff.2 ⟨_, junk', rfl, hg'⟩
    · exact (hg.2 s (by simp)).1
    · rw [freeUnits_of_mMap rfl hg', remainder_cover hfit hg]
    · refine ⟨s.stop, hg.1.isMaximal_iff.2 ⟨s, by simp, rfl, rfl⟩, ?_⟩
      simp only [stop]; omega
    · intro a b hab hba
      obtain ⟨e, he, rfl, rfl⟩ := hg.1.isMaximal_iff.1 hab
      rcases mem_append.1 he with he | he
      · have := hl e he
        simp only [stop] at hba; omega
      · rcases mem_cons.1 he with rfl | he
        · exact le_rfl
        · have := (goodSegments_cons.1 (goodSegments_append.1 hg).2.1).2.2.2.1 e he
          simp only [stop] at this; omega

end RetroBSD.ResourceMap
