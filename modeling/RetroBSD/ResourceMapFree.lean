import RetroBSD.ResourceMapLayout
import Mathlib

/-!
# Returning a range to a resource map

`mfree` splits the segments into those that start at or before the returned
address and those that start after it. The returned range touches the last of the
former, the first of the latter, both or neither, and each of the four outcomes
leaves a separated list that covers exactly the returned units in addition.
-/

namespace RetroBSD.ResourceMap

open SeparatedIntervals List Set Mapent

variable {r l : List Mapent}

theorem goodSegments_between {s : Mapent} (hl : GoodSegments l)
    (hr : GoodSegments r) (hpos : 0 < s.mSize) (haddr : 0 < s.mAddr) (hstop : s.stop ≤ sizeMod)
    (hbefore : ∀ e ∈ l, e.stop < s.mAddr) (hafter : ∀ e ∈ r, s.stop < e.mAddr) :
    GoodSegments (l ++ s :: r) := by
  refine goodSegments_append.2 ⟨hl, goodSegments_cons.2 ⟨hpos, haddr, hstop, hafter, hr⟩, ?_⟩
  rintro i hi j (_ | ⟨_, hj⟩)
  · exact hbefore i hi
  · have := hbefore i hi
    have := hafter j hj
    simp only [stop] at *
    omega

def Abuts (size addr : ℕ) (segs : List Mapent) : Prop :=
  ∃ e ∈ segs, e.stop = addr ∨ e.mAddr = addr + size

/-- Where a returned range stands among the segments of a map. -/
structure Returned (size addr : ℕ) (l r : List Mapent) : Prop where
  good : GoodSegments (l ++ r)
  size_pos : 0 < size
  addr_pos : 0 < addr
  stop_le : addr + size ≤ sizeMod
  left : ∀ e ∈ l, e.stop ≤ addr
  right : ∀ e ∈ r, addr + size ≤ e.mAddr

variable {size addr : ℕ}

theorem Returned.of_disjoint {segs : List Mapent} (hg : GoodSegments segs)
    (hsize : 0 < size) (haddr : 0 < addr) (hstop : addr + size ≤ sizeMod)
    (hdisj : Disjoint (Set.Ico addr (addr + size)) (cover mAddr stop segs)) :
    ∃ l r, segs = l ++ r ∧ segs.takeWhile (fun e => e.mAddr ≤ addr) = l ∧ Returned size addr l r := by
  have hsplit := takeWhile_append_dropWhile (p := fun e : Mapent => e.mAddr ≤ addr) (l := segs)
  have hg' := hg
  rw [← hsplit] at hg'
  refine ⟨_, _, hsplit.symm, rfl, hg', hsize, haddr, hstop, fun e he => ?_, fun e he => ?_⟩
  · have hle : e.mAddr ≤ addr := by simpa using mem_takeWhile_imp he
    have hmem : e ∈ segs := ( takeWhile_prefix _).subset he
    by_contra! hlt
    exact disjoint_left.1 hdisj ⟨le_rfl, by omega⟩ ⟨e, hmem, hle, hlt⟩
  · have hmem : e ∈ segs := (dropWhile_suffix _).subset he
    -- the first segment of the right part starts after `addr`, hence all of them do
    have hlt : addr < e.mAddr := by
      cases hr : segs.dropWhile (fun e => e.mAddr ≤ addr) with
      | nil => simp [hr] at he
      | cons b r =>
        have hb : addr < b.mAddr := by
          have := List.head?_dropWhile_not (fun e : Mapent => decide (e.mAddr ≤ addr)) segs
          simpa [hr] using this
        rw [hr] at he hg'
        rcases mem_cons.1 he with rfl | he
        · exact hb
        · have := (goodSegments_cons.1 (goodSegments_append.1 hg').2.1).2.2.2.1 e he
          simp only [stop] at this
          omega
    by_contra! hcon
    have hpos : e.mAddr < e.stop := hg.1.1 e hmem
    exact disjoint_left.1 hdisj ⟨hlt.le, hcon⟩ ⟨e, hmem, le_rfl, hpos⟩

variable (h : Returned size addr l r)
include h

theorem Returned.abutsLeft {ep : Mapent} (he : ep ∈ l) :
    addr ≤ (ep.mAddr + ep.mSize) % sizeMod ↔ ep.stop = addr := by
  have hle := h.left ep he
  have hs := h.size_pos
  have ht := h.stop_le
  simp only [stop] at *
  rw [Nat.mod_eq_of_lt (by omega)]
  omega

theorem Returned.abutsRight {bp : Mapent} (hb : bp ∈ r) :
    (bp.mSize ≠ 0 ∧ bp.mAddr ≤ (addr + size) % sizeMod) ↔ bp.mAddr = addr + size := by
  have hle := h.right bp hb
  have hgr := (goodSegments_append.1 h.good).2.1
  have hne := hgr.size_pos bp hb
  have ht := (hgr.2 bp hb).2
  simp only [stop] at *
  rw [Nat.mod_eq_of_lt (by omega)]
  omega

/-- Only the first segment behind the range can touch it. -/
theorem Returned.head_abuts (hne : ¬∀ e ∈ r, e.mAddr ≠ addr + size) :
    ∃ bp r', r = bp :: r' ∧ bp.mAddr = addr + size := by
  push Not at hne
  obtain ⟨e, he, hab⟩ := hne
  cases r with
  | nil => cases he
  | cons bp r =>
    refine ⟨bp, r, rfl, ?_⟩
    rcases mem_cons.1 he with rfl | he
    · exact hab
    · have := (goodSegments_cons.1 (goodSegments_append.1 h.good).2.1).2.2.2.1 e he
      have := h.right bp mem_cons_self
      simp only [stop] at *
      omega

theorem Returned.abuts_right (hab : Abuts size addr (l ++ r)) (hl : ∀ e ∈ l, e.stop ≠ addr) :
    ∃ e ∈ r, e.mAddr = addr + size := by
  obtain ⟨e, he, htouch⟩ := hab
  have hpos := h.good.1.1 e he
  rcases mem_append.1 he with hel | her
  · have := h.left e hel
    have := hl e hel
    omega
  · have := h.right e her
    exact ⟨e, her, by omega⟩

omit h

/-- The outcome `mfree` must reach: the returned units are added and the map stays
well formed, in an array of the same length. -/
def FreedTo (size addr : ℕ) (segs junk : List Mapent)
    (outcome : Except String (List Mapent)) : Prop :=
  ∃ segs' junk', outcome = .ok (segs' ++ terminator :: junk') ∧ GoodSegments segs' ∧
    (segs' ++ terminator :: junk').length = (segs ++ terminator :: junk).length ∧
    cover mAddr stop segs' = cover mAddr stop segs ∪ Set.Ico addr (addr + size)

theorem freedTo_merge {junk : List Mapent} {outcome : Except String (List Mapent)}
    (mid junk' : List Mapent) (s : Mapent)
    (hl : GoodSegments l) (hr : GoodSegments r) (haddr : 0 < s.mAddr) (hstop : s.stop ≤ sizeMod)
    (hpos : 0 < s.mSize) (hbefore : ∀ e ∈ l, e.stop < s.mAddr)
    (hafter : ∀ e ∈ r, s.stop < e.mAddr) (hlen : junk'.length + 1 = mid.length + junk.length)
    (hcover : Set.Ico s.mAddr s.stop = cover mAddr stop mid ∪ Set.Ico addr (addr + size))
    (hout : outcome = .ok (l ++ s :: (r ++ terminator :: junk'))) :
    FreedTo size addr (l ++ (mid ++ r)) junk outcome := by
  refine ⟨l ++ s :: r, junk', by simpa using hout, ?_, ?_, ?_⟩
  · exact goodSegments_between hl hr hpos haddr hstop hbefore hafter
  · simp only [length_append, length_cons]
    omega
  · simp only [cover_append, cover_cons, hcover]
    ext x
    simp only [mem_union]
    tauto

variable {mLimit : ℕ}

theorem mfreeRight_new (hgr : GoodSegments r)
    (j : Mapent) (junk : List Mapent) (hroom : (l ++ r).length < mLimit) :
    (do
      let n ← findEnd (r ++ terminator :: j :: junk)
      if mLimit < l.length + n + 1 then .ok (l ++ (r ++ terminator :: j :: junk))
      else if (r ++ terminator :: j :: junk).tail.length ≤ n then .error offTheMap
      else .ok (l ++ ⟨size, addr⟩ :: (r ++ terminator :: j :: junk).take (n + 1) ++
        (r ++ terminator :: j :: junk).tail.drop (n + 1))) =
      (.ok (l ++ ⟨size, addr⟩ :: (r ++ terminator :: junk)) : Except String (List Mapent)) := by
  rw [findEnd_append _ hgr.size_pos]
  have hlim : ¬ mLimit < l.length + r.length + 1 := by
    simp only [length_append] at hroom
    omega
  have htake : (r ++ terminator :: j :: junk).take (r.length + 1) = r ++ [terminator] := by
    simp [take_append]
  have hdrop : (r ++ terminator :: j :: junk).tail.drop (r.length + 1) = junk := by
    rw [← drop_one, drop_drop, show 1 + (r.length + 1) = r.length + 2 by omega]
    simp
  change (if mLimit < l.length + r.length + 1 then _ else _) = _
  rw [if_neg hlim, htake, hdrop]
  simp

include h

theorem mfreeRight_freedTo (junk : List Mapent) (hl : ∀ e ∈ l, e.stop ≠ addr)
    (hroom : (∃ e ∈ r, e.mAddr = addr + size) ∨ ((l ++ r).length < mLimit ∧ junk ≠ [])) :
    FreedTo size addr (l ++ r) junk (mfreeRight mLimit size addr l (r ++ terminator :: junk)) := by
  obtain ⟨hgl, hgr, _⟩ := goodSegments_append.1 h.good
  have hbefore : ∀ e ∈ l, e.stop < addr := fun e he => lt_of_le_of_ne (h.left e he) (hl e he)
  by_cases hne : ∀ e ∈ r, e.mAddr ≠ addr + size
  · -- with no abutting segment the new entry goes between `l` and `r`
    have hroom' := hroom.resolve_left fun ⟨e, he, hab⟩ => hne e he hab
    obtain ⟨j, junk, rfl⟩ := exists_cons_of_ne_nil hroom'.2
    refine freedTo_merge [] junk ⟨size, addr⟩ hgl hgr h.addr_pos h.stop_le h.size_pos hbefore ?_ (by simp) ?_ ?_
    · intro e he
      exact lt_of_le_of_ne (h.right e he) (hne e he).symm
    · simp [stop]
    · cases r with
      | nil => exact mfreeRight_new hgr j junk hroom'.1
      | cons bp r =>
        simp only [cons_append, mfreeRight]
        rw [if_neg (mt (h.abutsRight mem_cons_self).1 (hne bp mem_cons_self))]
        exact mfreeRight_new hgr j junk hroom'.1
  · obtain ⟨bp, r, rfl, hab⟩ := h.head_abuts hne
    obtain ⟨_, _, hstop, hafter, hr⟩ := goodSegments_cons.1 hgr
    simp only [stop] at hstop hafter
    have haddr := h.addr_pos
    have hsize : (bp.mSize + size) % sizeMod = bp.mSize + size := Nat.mod_eq_of_lt (by omega)
    refine freedTo_merge [bp] junk ⟨bp.mSize + size, addr⟩ hgl hr h.addr_pos
      ?_ ?_ hbefore ?_ (by simp; omega) ?_ ?_
    · simp only [stop]; omega
    · simp only; omega
    · intro e he
      have := hafter e he
      simp only [stop]; omega
    · ext x
      simp only [stop, cover_cons, cover_nil, union_empty, mem_union, mem_Ico]
      omega
    · simp only [cons_append, mfreeRight]
      rw [if_pos ((h.abutsRight mem_cons_self).2 hab), hsize]

/-- With no slot behind the entry that ends the map, a new segment moves that entry off the
array. -/
theorem mfreeRight_offTheMap (hne : ∀ e ∈ r, e.mAddr ≠ addr + size) (hlimit : (l ++ r).length < mLimit) :
    mfreeRight mLimit size addr l (r ++ [terminator]) = .error offTheMap := by
  have hend : findEnd (r ++ [terminator]) = .ok r.length :=
    findEnd_append [] (goodSegments_append.1 h.good).2.1.size_pos
  have hlim : ¬mLimit < l.length + r.length + 1 := by
    rw [length_append] at hlimit
    omega
  cases r with
  | nil =>
    change (if mLimit < l.length + ([] : List Mapent).length + 1 then _ else _) = _
    rw [if_neg hlim]
    rfl
  | cons bp r =>
    simp only [cons_append, mfreeRight] at hend ⊢
    rw [if_neg (mt (h.abutsRight mem_cons_self).1 (hne bp mem_cons_self)), hend]
    change (if mLimit < l.length + (bp :: r).length + 1 then _ else _) = _
    rw [if_neg hlim, if_pos (by simp)]

omit h

theorem mfreeAt_of_not_abutsLeft (mLimit : ℕ) (h : Returned size addr l r)
    (hl : ∀ e ∈ l, e.stop ≠ addr) (junk : List Mapent) :
    mfreeAt mLimit size addr l (r ++ terminator :: junk) =
      mfreeRight mLimit size addr l (r ++ terminator :: junk) := by
  rcases eq_nil_or_concat l with rfl | ⟨l, ep, rfl⟩
  · simp [mfreeAt]
  · rw [concat_eq_append] at h hl ⊢
    have hep : ep ∈ l ++ [ep] := by simp
    have hleft := mt (h.abutsLeft hep).1 (hl ep hep)
    cases r <;> simp [mfreeAt, hleft]

theorem mfreeAt_freedTo (mLimit : ℕ)
    (h : Returned size addr l r) (junk : List Mapent)
    (hroom : Abuts size addr (l ++ r) ∨ ((l ++ r).length < mLimit ∧ junk ≠ [])) :
    FreedTo size addr (l ++ r) junk (mfreeAt mLimit size addr l (r ++ terminator :: junk)) := by
  rcases eq_nil_or_concat l with rfl | ⟨l, ep, rfl⟩
  · simpa [mfreeAt] using mfreeRight_freedTo h junk (by simp) (hroom.imp_left fun hab => h.abuts_right hab (by simp))
  rw [concat_eq_append] at h hroom ⊢
  obtain ⟨hgl, hgr, -⟩ := goodSegments_append.1 h.good
  obtain ⟨hl, hep, hbefore⟩ := goodSegments_append.1 hgl
  obtain ⟨hpos, haddr, _, _, _⟩ := goodSegments_cons.1 hep
  have hmem : ep ∈ l ++ [ep] := by simp
  have hbefore' : ∀ e ∈ l, e.stop < ep.mAddr := fun e he => hbefore e he ep mem_cons_self
  by_cases hab : ep.stop = addr
  · have hle := h.stop_le
    simp only [stop] at hab
    have hsize : (ep.mSize + size) % sizeMod = ep.mSize + size := Nat.mod_eq_of_lt (by omega)
    have hleft := (h.abutsLeft hmem).2 hab
    rw [append_assoc]
    -- the range abuts `ep`
    by_cases hrt : ∀ e ∈ r, e.mAddr ≠ addr + size
    · refine freedTo_merge [ep] junk ⟨ep.mSize + size, ep.mAddr⟩ hl hgr haddr ?_ ?_ hbefore' ?_
        (by simp; omega) ?_ ?_
      · simp only [stop]; omega
      · simp only; omega
      · intro e he
        have := lt_of_le_of_ne (h.right e he) (hrt e he).symm
        simp only [stop]; omega
      · ext x
        simp only [stop, cover_cons, cover_nil, union_empty, mem_union, mem_Ico]
        omega
      · cases r with
        | nil => simp [mfreeAt, hleft, hsize, terminator]
        | cons bp r =>
          have hright := mt (h.abutsRight mem_cons_self).1 (hrt bp mem_cons_self)
          simp [mfreeAt, hleft, hright, hsize]
    · obtain ⟨bp, r, rfl, hfirst⟩ := h.head_abuts hrt
      obtain ⟨_, _, hstop, hafter, hr⟩ := goodSegments_cons.1 hgr
      simp only [stop] at hstop hafter
      have hright := (h.abutsRight mem_cons_self).2 hfirst
      have hsize' : (ep.mSize + size + bp.mSize) % sizeMod = ep.mSize + size + bp.mSize :=
        Nat.mod_eq_of_lt (by omega)
      refine freedTo_merge [ep, bp] (terminator :: junk)
        ⟨ep.mSize + size + bp.mSize, ep.mAddr⟩ hl hr haddr ?_ ?_ hbefore' ?_ (by simp; omega) ?_ ?_
      · simp only [stop]; omega
      · simp only; omega
      · intro e he
        have := hafter e he
        simp only [stop]; omega
      · ext x
        simp only [stop, cover_cons, cover_nil, union_empty, mem_union, mem_Ico]
        omega
      · simp only [mfreeAt, List.getLast?_append, List.getLast?_singleton, Option.some_or,
          cons_append, if_pos hleft, if_pos hright, dropLast_concat, hsize, hsize']
        rw [closeGap_append _ _ hr.size_pos]
        rfl
  · have hne : ∀ e ∈ l ++ [ep], e.stop ≠ addr := by
      intro e he
      rcases mem_append.1 he with he | he
      · have := hbefore' e he
        have := h.left ep hmem
        simp only [stop] at *
        omega
      · rwa [mem_singleton.1 he]
    have hright := mfreeRight_freedTo h junk hne (hroom.imp_left fun hab => h.abuts_right hab hne)
    rwa [mfreeAt_of_not_abutsLeft mLimit h hne]

variable {mp : Map}

theorem mfree_located {junk : List Mapent} (hm : mp.mMap = l ++ r ++ terminator :: junk)
    (hg : GoodSegments (l ++ r)) (hsize : 0 < size) (haddr : 0 < addr)
    (hl : (l ++ r).takeWhile (fun e : Mapent => e.mAddr ≤ addr) = l) {outcome : Except String (List Mapent)}
    (hout : mfreeAt mp.mLimit size addr l (r ++ terminator :: junk) = outcome) :
    mfree mp size addr = outcome.map fun slots => { mp with mMap := slots } := by
  have hloc : locate addr mp.mMap = .ok l.length := by
    rw [hm, locate_append _ hg.size_pos, hl]
  have htake : mp.mMap.take l.length = l := by rw [hm]; simp
  have hdrop : mp.mMap.drop l.length = r ++ terminator :: junk := by
    rw [hm]; simp
  simp only [mfree, if_neg hsize.ne', if_neg haddr.ne', hloc]
  change (mfreeAt mp.mLimit size addr (mp.mMap.take l.length) (mp.mMap.drop l.length) >>= _) = _
  rw [htake, hdrop, hout]
  cases outcome <;> rfl

theorem mfree_spec (hwf : mp.WellFormed) (hsize : 0 < size)
    (haddr : 0 < addr) (hstop : addr + size ≤ sizeMod)
    (hdisj : Disjoint (Set.Ico addr (addr + size)) mp.freeUnits)
    (hroom : Abuts size addr mp.segments ∨ mp.HasRoom) :
    ∃ mp', mfree mp size addr = .ok mp' ∧ mp'.WellFormed ∧ mp'.mLimit = mp.mLimit ∧
      mp'.mMap.length = mp.mMap.length ∧
      mp'.freeUnits = mp.freeUnits ∪ Set.Ico addr (addr + size) := by
  obtain ⟨segs, junk, hm, hg⟩ := wellFormed_iff.1 hwf
  rw [freeUnits_of_mMap hm hg] at hdisj ⊢
  rw [Map.HasRoom, segments_of_mMap hm hg, hm] at hroom
  obtain ⟨l, r, rfl, hl, hret⟩ := Returned.of_disjoint hg hsize haddr hstop hdisj
  have hslot : Abuts size addr (l ++ r) ∨ ((l ++ r).length < mp.mLimit ∧ junk ≠ []) := by
    refine hroom.imp_right fun ⟨hlim, hslot⟩ => ⟨hlim, ?_⟩
    rintro rfl
    simp at hslot
    omega
  obtain ⟨segs', junk', hout, hg', hlen, hcover⟩ := mfreeAt_freedTo mp.mLimit hret junk hslot
  have hlen' : (segs' ++ terminator :: junk').length = mp.mMap.length := by rw [hlen, hm]
  refine ⟨{ mp with mMap := segs' ++ terminator :: junk' }, ?_, ?_, rfl, hlen', ?_⟩
  · rw [mfree_located hm hg hsize haddr hl hout]
    rfl
  · exact wellFormed_iff.2 ⟨segs', junk', rfl, hg'⟩
  · rw [freeUnits_of_mMap rfl hg', hcover]

/-- A full map loses its end when a range that touches no segment is returned. -/
theorem mfree_offTheMap (hwf : mp.WellFormed) (hsize : 0 < size)
    (haddr : 0 < addr) (hstop : addr + size ≤ sizeMod)
    (hdisj : Disjoint (Set.Ico addr (addr + size)) mp.freeUnits) (hab : ¬Abuts size addr mp.segments)
    (hfull : mp.segments.length + 1 = mp.mMap.length) (hlimit : mp.segments.length < mp.mLimit) :
    mfree mp size addr = .error offTheMap := by
  obtain ⟨segs, junk, hm, hg⟩ := wellFormed_iff.1 hwf
  rw [freeUnits_of_mMap hm hg] at hdisj
  rw [segments_of_mMap hm hg] at hab hfull hlimit
  have hjunk : junk = [] := by
    rw [hm, length_append, length_cons] at hfull
    exact eq_nil_of_length_eq_zero (by omega)
  subst hjunk
  obtain ⟨l, r, rfl, hl, hret⟩ := Returned.of_disjoint hg hsize haddr hstop hdisj
  have hl' : ∀ e ∈ l, e.stop ≠ addr := fun e he htouch => hab ⟨e, mem_append_left r he, .inl htouch⟩
  have hr' : ∀ e ∈ r, e.mAddr ≠ addr + size := fun e he htouch =>
    hab ⟨e, mem_append_right l he, .inr htouch⟩
  have hout := mfreeAt_of_not_abutsLeft mp.mLimit hret hl' []
  rw [mfreeRight_offTheMap hret hr' hlimit] at hout
  rw [mfree_located hm hg hsize haddr hl hout]
  rfl

end RetroBSD.ResourceMap
