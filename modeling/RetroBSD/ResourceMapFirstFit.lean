import RetroBSD.ResourceMapTriple

/-!
# The order in which `malloc3` places its requests

`malloc3` holds the requests against the segments from the front of the map on, at each
segment the data first, then the stack, then the user area. A request goes to the first
segment with room for it beside the requests before it. If one finds no segment, the map
is put back as it was.
-/

namespace RetroBSD.ResourceMap

open SeparatedIntervals Function Option

variable {sizes : Fin 3 → ℕ} {orig slots segs junk : List Mapent} {st : Search} {mp mp' : Map}

/-- Units of the entry at index `i` taken by the requests before `n`. -/
def taken (sizes : Fin 3 → ℕ) (madd : Fin 3 → Option ℕ) (n : Fin 3) (i : ℕ) : ℕ :=
  ∑ m, if m < n ∧ madd m = some i then sizes m else 0

/-- Each request is placed at the front of what remains of a segment, the first one that
has room for it. -/
def FirstFits (segs : List Mapent) (sizes : Fin 3 → ℕ) (p : Fin 3 → ℕ) : Prop :=
  ∀ n, (∃ e, segs[p n]? = some e ∧ sizes n + taken sizes (fun m => some (p m)) n (p n) ≤ e.mSize) ∧
    ∀ i e, i < p n → segs[i]? = some e → e.mSize < sizes n + taken sizes (fun m => some (p m)) n i

variable {madd : Fin 3 → Option ℕ} {k : ℕ} {n : Fin 3}

theorem taken_update {m : Fin 3} {i : ℕ} (hnone : madd n = none)
    (h : n < m → i ≠ k) : taken sizes (update madd n (some k)) m i = taken sizes madd m i := by
  refine Finset.sum_congr rfl fun j _ => ?_
  by_cases hj : j = n
  · subst hj
    have hlt : ¬(j < m ∧ update madd j (some k) j = some i) := by
      rintro ⟨hjm, hk⟩
      rw [update_self] at hk
      exact h hjm (some.inj hk).symm
    rw [if_neg hlt, if_neg (by simp [hnone])]
  · rw [update_of_ne hj]

/-- The requests have been held against the entries below `k`, and the first `n` of them
against the entry `k`. -/
structure Tried (sizes : Fin 3 → ℕ) (orig : List Mapent) (k n : ℕ) (madd : Fin 3 → Option ℕ) : Prop where
  placed : ∀ m i, madd m = some i → i < k ∨ i = k ∧ m.val < n
  fits : ∀ m i e, madd m = some i → orig[i]? = some e → sizes m + taken sizes madd m i ≤ e.mSize
  passed : ∀ m i e, (i < k ∨ i = k ∧ m.val < n) → orig[i]? = some e →
    (∀ j, madd m = some j → i < j) → e.mSize < sizes m + taken sizes madd m i

theorem Tried.start : Tried sizes orig 0 0 Search.start.madd where
  placed m i h := by cases h
  fits m i e h := by cases h
  passed m i e h := by omega

theorem Tried.used_eq (h : Tried sizes orig k n.val madd) :
    used sizes madd k = taken sizes madd n k := by
  refine Finset.sum_congr rfl fun m _ => ?_
  by_cases hm : madd m = some k
  · have hlt : m < n := by
      rcases h.placed m k hm with hk | ⟨-, hmn⟩
      · exact absurd hk (lt_irrefl k)
      · exact hmn
    rw [if_pos hm, if_pos ⟨hlt, hm⟩]
  · rw [if_neg hm, if_neg fun hc => hm hc.2]

theorem Tried.tryNext {N : ℕ} {pre rest : List Mapent} {r : Mapent × Search}
    (h : Tried sizes orig k n.val r.2.madd) (hpl : Placing sizes orig N k (pre ++ r.1 :: rest) r.2)
    (hpre : pre.length = k) : Tried sizes orig k (n.val + 1) (ResourceMap.tryNext sizes k r n).2.madd := by
  obtain ⟨e, he, hr⟩ := hpl.current hpre
  have hfit := hpl.fits k e he
  have hsize : r.1.mSize = e.mSize - taken sizes r.2.madd n k := by
    rw [hr, Mapent.shorten, h.used_eq]
  rw [h.used_eq] at hfit
  by_cases hc : r.2.madd n = none ∧ sizes n ≤ r.1.mSize
  · have hmadd : (ResourceMap.tryNext sizes k r n).2.madd = update r.2.madd n (some k) := by
      rw [ResourceMap.tryNext, if_pos hc]
    rw [hmadd]
    refine ⟨fun m i hm => ?_, fun m i e' hm he' => ?_, fun m i e' hi he' hlater => ?_⟩
    · by_cases hmn : m = n
      · subst hmn
        rw [update_self] at hm
        exact .inr ⟨(some.inj hm).symm, Nat.lt_succ_self _⟩
      · rw [update_of_ne hmn] at hm
        exact (h.placed m i hm).imp_right fun hm => ⟨hm.1, hm.2.trans (Nat.lt_succ_self _)⟩
    · by_cases hmn : m = n
      · subst hmn
        rw [update_self] at hm
        obtain rfl := some.inj hm
        obtain rfl := some.inj (he.symm.trans he')
        rw [taken_update hc.1 fun hlt => absurd hlt (lt_irrefl m)]
        omega
      · rw [update_of_ne hmn] at hm
        have hold := h.placed m i hm
        rw [taken_update hc.1 fun hlt hik => ?_]
        · exact h.fits m i e' hm he'
        · rcases hold with hi | ⟨-, hmlt⟩
          · omega
          · exact absurd hmlt (by simpa using hlt.le)
    · by_cases hmn : m = n
      · subst hmn
        have hik : i < k := hlater k (update_self _ _ _)
        rw [taken_update hc.1 fun hlt => absurd hlt (lt_irrefl m)]
        refine h.passed m i e' (.inl hik) he' fun j hj => ?_
        rw [hc.1] at hj
        cases hj
      · have hi' : i < k ∨ i = k ∧ m.val < n.val := by
          omega
        rw [taken_update hc.1 fun hlt hik => ?_]
        · refine h.passed m i e' hi' he' fun j hj => hlater j ?_
          rwa [update_of_ne hmn]
        · rcases hi' with hi' | ⟨-, hmlt⟩
          · omega
          · exact absurd hmlt (by simpa using hlt.le)
  · have hmadd : ResourceMap.tryNext sizes k r n = r := by rw [ResourceMap.tryNext, if_neg hc]
    rw [hmadd]
    refine ⟨fun m i hm => ?_, h.fits, fun m i e' hi he' hlater => ?_⟩
    · exact (h.placed m i hm).imp_right fun hm => ⟨hm.1, hm.2.trans (Nat.lt_succ_self _)⟩
    · by_cases hnew : i = k ∧ m = n
      · obtain ⟨rfl, rfl⟩ := hnew
        obtain rfl := some.inj (he.symm.trans he')
        have hnone : r.2.madd m = none := by
          by_contra hne
          obtain ⟨j, hj⟩ := ne_none_iff_exists'.1 hne
          have := hlater j hj
          have := h.placed m j hj
          omega
        have : ¬sizes m ≤ r.1.mSize := fun hle => hc ⟨hnone, hle⟩
        omega
      · have hi' : i < k ∨ i = k ∧ m.val < n.val := by
          omega
        exact h.passed m i e' hi' he' hlater

theorem Tried.turn {N : ℕ} {pre rest : List Mapent} {bp : Mapent} (h : Tried sizes orig k 0 st.madd)
    (hpl : Placing sizes orig N k (pre ++ bp :: rest) st) (hpre : pre.length = k) (hk : k < N) :
    Tried sizes orig (k + 1) 0 ([0, 1, 2].foldl (ResourceMap.tryNext sizes k) (bp, st)).2.madd := by
  have h0 := Tried.tryNext (r := (bp, st)) (n := 0) h hpl hpre
  obtain ⟨hpl1, -⟩ := Placing.tryNext (r := (bp, st)) hpl hpre hk 0
  have h1 := Tried.tryNext (n := 1) h0 hpl1 hpre
  obtain ⟨hpl2, -⟩ := hpl1.tryNext hpre hk 1
  have h2 := Tried.tryNext (n := 2) h1 hpl2 hpre
  refine ⟨fun m i hm => ?_, h2.fits, fun m i e hi he hlater => ?_⟩
  · have := h2.placed m i hm
    omega
  · exact h2.passed m i e (by omega) he hlater

/-! ## The whole search -/

theorem getElem?_segments {i : ℕ} (hi : i < segs.length) : (segs ++ terminator :: junk)[i]? = segs[i]? :=
  List.getElem?_append_left hi

theorem Tried.firstFits {n : ℕ} {p : Fin 3 → ℕ}
    (h : Tried sizes (segs ++ terminator :: junk) k n madd) (hp : ∀ m, madd m = some (p m))
    (hplaced : ∀ m, p m < segs.length) : FirstFits segs sizes p := by
  obtain rfl : madd = fun m => some (p m) := funext hp
  intro m
  have hm := hplaced m
  have he : (segs ++ terminator :: junk)[p m]? = some segs[p m] := by
    rw [getElem?_segments hm, List.getElem?_eq_getElem hm]
  refine ⟨⟨segs[p m], List.getElem?_eq_getElem hm, h.fits m (p m) _ rfl he⟩, fun i e hi hie => ?_⟩
  refine h.passed m i e ?_ ?_ fun j hj => ?_
  · have := h.placed m (p m) rfl
    omega
  · rwa [getElem?_segments (hi.trans hm)]
  · rwa [← some.inj hj]

theorem FirstFits.placed {p : Fin 3 → ℕ} (hp : FirstFits segs sizes p)
    (h : Tried sizes (segs ++ terminator :: junk) segs.length 0 madd) (n : Fin 3) : madd n = some (p n) := by
  induction n using WellFoundedLT.induction with
  | ind n ih =>
    have htaken : ∀ i, taken sizes (fun m => some (p m)) n i = taken sizes madd n i := by
      intro i
      refine Finset.sum_congr rfl fun m _ => ?_
      by_cases hm : m < n
      · rw [ih m hm]
      · rw [if_neg fun hc => hm hc.1, if_neg fun hc => hm hc.1]
    obtain ⟨⟨e, he, hfit⟩, hfirst⟩ := hp n
    have hlt : p n < segs.length := (List.getElem?_eq_some_iff.1 he).1
    have he' : (segs ++ terminator :: junk)[p n]? = some e := by rwa [getElem?_segments hlt]
    rw [htaken] at hfit
    -- the request has passed its place only if it is placed there
    have hpassed : ¬∀ j, madd n = some j → p n < j := by
      intro hlater
      have := h.passed n (p n) e (.inl hlt) he' hlater
      omega
    push Not at hpassed
    obtain ⟨j, hj, hle⟩ := hpassed
    rcases lt_or_eq_of_le hle with hjp | rfl
    · have hjlt : j < segs.length := hjp.trans hlt
      have hej : segs[j]? = some segs[j] := List.getElem?_eq_getElem hjlt
      have hfits := h.fits n j segs[j] hj (by rwa [getElem?_segments hjlt])
      have hroom := hfirst j segs[j] hjp hej
      rw [htaken] at hroom
      omega
    · exact hj

/-- The search of `malloc3` on a well-formed map. -/
theorem search_tried (sizes : Fin 3 → ℕ) (junk : List Mapent) (hg : GoodSegments segs) :
    ∃ slots st k, search sizes 0 (segs ++ terminator :: junk) .start = .ok (slots, st) ∧
      Placing sizes (segs ++ terminator :: junk) segs.length k slots st ∧
      Tried sizes (segs ++ terminator :: junk) k 0 st.madd ∧ (st.found = 3 ∨ k = segs.length) := by
  obtain ⟨slots, st, k, hsearch, ⟨hpl, htried⟩, hend⟩ :=
    search_invariant (I := fun k slots st => Placing sizes (segs ++ terminator :: junk) segs.length k slots st ∧
        Tried sizes (segs ++ terminator :: junk) k 0 st.madd)
      (fun k pre bp rest st h hpre hk => ⟨h.1.turn hpre hk, h.2.turn h.1 hpre hk⟩)
      segs [] 0 .start ⟨hg.placing, Tried.start⟩ rfl (by simp) hg.size_pos
  exact ⟨slots, st, k, hsearch, hpl, htried, hend⟩

/-- The requests are placed exactly if first fit can place them, and otherwise nothing
changes. -/
theorem malloc3_firstFits (hwf : mp.WellFormed) {r : Option (Fin 3 → ℕ)} (h : malloc3 mp sizes = .ok (r, mp')) :
    (r ≠ none ↔ ∃ p, FirstFits mp.segments sizes p) ∧ (r = none → mp' = mp) := by
  obtain ⟨segs, junk, hm, hg⟩ := wellFormed_iff.1 hwf
  rw [segments_of_mMap hm hg]
  obtain ⟨slots, st, k, hsearch, hpl, htried, hend⟩ := search_tried sizes junk hg
  simp only [malloc3, hm, hsearch, bind, Except.bind] at h
  by_cases hfound : st.found = 3
  · have hr : r ≠ none := by
      rintro rfl
      rw [if_pos hfound] at h
      split at h
      · cases h
      · split at h
        · cases h
        · cases h
    refine ⟨iff_of_true hr ?_, fun hnone => absurd hnone hr⟩
    choose p hp using fun n => ne_none_iff_exists'.1 (hpl.found_eq_three.1 hfound n)
    exact ⟨p, htried.firstFits hp fun n => hpl.placed n (p n) (hp n)⟩
  · rw [if_neg hfound] at h
    have hrest := hpl.restored fun i e hi he => by
      rw [getElem?_segments hi] at he
      have := hg.2 e (List.mem_of_getElem? he)
      simp only [Mapent.stop] at this
      omega
    rw [hrest, ← hm] at h
    cases h
    refine ⟨iff_of_false (fun hne => hne rfl) ?_, fun _ => rfl⟩
    rintro ⟨p, hp⟩
    obtain rfl := hend.resolve_left hfound
    refine hfound (hpl.found_eq_three.2 fun n => ?_)
    rw [hp.placed htried n]
    exact some_ne_none _

/-! ## What the caller gets -/

def malloc3Value : Option (Fin 3 → ℕ) → ℕ
  | none => 0
  | some a => a 2

/-- The map as it was, and no way to place the requests by first fit; or three free ranges
that do not overlap and are exactly what is no longer free. -/
theorem malloc3_all_or_nothing (hwf : mp.WellFormed) (sizes : Fin 3 → ℕ) (hu : 0 < sizes 2) :
    ∃ r mp', malloc3 mp sizes = .ok (r, mp') ∧
      (malloc3Value r = 0 → mp' = mp ∧ ¬∃ p, FirstFits mp.segments sizes p) ∧
      (malloc3Value r ≠ 0 → ∃ a, r = some a ∧ (∀ n, Set.Ico (a n) (a n + sizes n) ⊆ mp.freeUnits) ∧
        Pairwise (fun m n => Disjoint (Set.Ico (a m) (a m + sizes m)) (Set.Ico (a n) (a n + sizes n))) ∧
        mp'.freeUnits = mp.freeUnits \ ⋃ n, Set.Ico (a n) (a n + sizes n)) := by
  obtain ⟨r, mp', hrun, -, -, -, hfit⟩ := malloc3_spec hwf sizes
  obtain ⟨hfirst, hsame⟩ := malloc3_firstFits hwf hrun
  refine ⟨r, mp', hrun, fun hzero => ?_, fun hne => ?_⟩
  · -- the user area is not empty, so its address is that of a free unit
    have hnone : r = none := by
      cases r with
      | none => rfl
      | some a =>
        have hfree : a 2 ∈ mp.freeUnits := hfit.1 2 ⟨le_rfl, by omega⟩
        obtain ⟨e, he, hle, -⟩ := mem_cover.1 hfree
        have hpos := (hwf.good.2 e he).1
        simp only [malloc3Value] at hzero
        omega
    exact ⟨hsame hnone, fun hp => hfirst.2 hp hnone⟩
  · cases r with
    | none => exact absurd rfl hne
    | some a => exact ⟨a, rfl, hfit⟩

/-- Data of three units, no stack and a user area of two, all from one segment. -/
theorem malloc3_all_or_nothing_ten :
    let mp : Map := ⟨[⟨10, 5⟩, terminator], 2⟩
    mp.WellFormed ∧ ∃ a mp', malloc3 mp ![3, 0, 2] = .ok (some a, mp') ∧ a 2 = 8 ∧
      mp'.freeUnits = mp.freeUnits \ ⋃ n, Set.Ico (a n) (a n + ![3, 0, 2] n) := by
  intro mp
  have hwf : mp.WellFormed :=
    ⟨⟨by simp [mp, Separated, Map.segments, terminator, Mapent.stop],
      by simp [mp, Map.segments, terminator, Mapent.stop, sizeMod]⟩, rfl⟩
  obtain ⟨r, mp', hrun, -, hsome⟩ := malloc3_all_or_nothing hwf ![3, 0, 2] (by decide)
  have hvalue : malloc3Value r = 8 := by
    have : (malloc3 mp ![3, 0, 2]).map (fun q => malloc3Value q.1) = .ok 8 := rfl
    rw [hrun] at this
    exact Except.ok.inj this
  obtain ⟨a, rfl, -, -, hfree⟩ := hsome (by rw [hvalue]; decide)
  exact ⟨hwf, a, mp', hrun, hvalue, hfree⟩

end RetroBSD.ResourceMap
