import RetroBSD.ResourceMapPlacing

/-!
# Three allocations at once

Once every request of `malloc3` is placed, each gets its address from the front of
its entry and the used-up entries are squeezed out. An entry that ended at the very
top of the `size_t` range then reads `(0, 0)` and ends the squeeze early; it is the
last segment, so nothing is lost.
-/

namespace RetroBSD.ResourceMap

open SeparatedIntervals Function List Nat Mapent Option Set

variable {sizes : Fin 3 → ℕ} {orig slots segs junk : List Mapent} {st : Search}

/-! ## Handing out the addresses -/

theorem eq_zero_or_one_or_two : ∀ n : Fin 3, n = 0 ∨ n = 1 ∨ n = 2 := by
  decide

def before (sizes : Fin 3 → ℕ) (madd : Fin 3 → Option ℕ) (n : Fin 3) : ℕ :=
  ∑ m, if m < n ∧ madd m = madd n then sizes m else 0

theorem before_zero (madd : Fin 3 → Option ℕ) : before sizes madd 0 = 0 := by
  simp [before]

theorem before_one (madd : Fin 3 → Option ℕ) :
    before sizes madd 1 = if madd 0 = madd 1 then sizes 0 else 0 := by
  simp [before, Fin.sum_univ_three]

theorem before_two (madd : Fin 3 → Option ℕ) : before sizes madd 2 =
    (if madd 0 = madd 2 then sizes 0 else 0) + if madd 1 = madd 2 then sizes 1 else 0 := by
  simp [before, Fin.sum_univ_three]

theorem mem_front_iff (sizes : Fin 3 → ℕ) (madd : Fin 3 → Option ℕ) (A k x : ℕ) :
    (A ≤ x ∧ x < A + used sizes madd k) ↔ ∃ n, madd n = some k ∧
      A + before sizes madd n ≤ x ∧ x < A + before sizes madd n + sizes n := by
  have hex : ∀ P : Fin 3 → Prop, (∃ n, P n) ↔ P 0 ∨ P 1 ∨ P 2 := by
    simp [Fin.exists_fin_succ]
  rw [hex, before_zero, before_one, before_two]
  simp only [used, Fin.sum_univ_three]
  by_cases h0 : madd 0 = some k <;> by_cases h1 : madd 1 = some k <;>
    by_cases h2 : madd 2 = some k <;>
    simp only [h0, h1, h2, if_true, if_false, true_and, false_and, or_false, false_or,
      iff_false] <;>
    omega

variable {madd : Fin 3 → Option ℕ} {k : ℕ} {n : Fin 3}

theorem before_add_le (sizes : Fin 3 → ℕ)
    (hn : madd n = some k) : before sizes madd n + sizes n ≤ used sizes madd k := by
  simp only [used, Fin.sum_univ_three]
  rcases eq_zero_or_one_or_two n with rfl | rfl | rfl
  · rw [before_zero, hn, if_pos rfl]; omega
  · rw [before_one, hn, if_pos rfl]; omega
  · rw [before_two, hn, if_pos rfl]

theorem before_add_le_before (sizes : Fin 3 → ℕ) {m : Fin 3}
    (hmn : m < n) (heq : madd m = madd n) :
    before sizes madd m + sizes m ≤ before sizes madd n := by
  have hcases : ∀ m n : Fin 3, m < n → (m = 0 ∧ n = 1) ∨ (m = 0 ∧ n = 2) ∨ (m = 1 ∧ n = 2) := by
    decide
  rcases hcases m n hmn with ⟨rfl, rfl⟩ | ⟨rfl, rfl⟩ | ⟨rfl, rfl⟩
  · rw [before_zero, before_one, if_pos heq]; omega
  · rw [before_zero, before_two, if_pos heq]; omega
  · rw [before_one, before_two, if_pos heq, heq]

/-- The array while addresses are handed out: the entries below `N` have lost the
front taken by the requests in `done`. -/
structure Resolving (sizes : Fin 3 → ℕ) (orig : List Mapent) (N : ℕ)
    (madd done : Fin 3 → Option ℕ) (slots : List Mapent) : Prop where
  seg : ∀ i : ℕ, i < N → slots[i]? = (orig[i]?).map (fun e =>
    ⟨e.mSize - used sizes madd i, (e.mAddr + used sizes done i) % sizeMod⟩)
  other : ∀ i : ℕ, N ≤ i → slots[i]? = orig[i]?

theorem Resolving.next {N : ℕ} {done : Fin 3 → Option ℕ} {r : List Mapent × (Fin 3 → ℕ)}
    (h : Resolving sizes orig N madd done r.1) {next : Fin 3} {e : Mapent}
    (hk : madd next = some k) (hN : k < N) (he : orig[k]? = some e) (hnone : done next = none) :
    Resolving sizes orig N madd (update done next (some k))
        (resolveNext sizes madd r next).1 ∧
      (resolveNext sizes madd r next).2 =
        update r.2 next ((e.mAddr + used sizes done k) % sizeMod) := by
  have hr : resolveNext sizes madd r next =
      (r.1.modify k (fun e => { e with mAddr := (e.mAddr + sizes next) % sizeMod }),
        update r.2 next (r.1.getD k ⟨0, 0⟩).mAddr) := by
    simp only [resolveNext, hk]
  have hup := used_update sizes hnone k
  simp only [hr]
  refine ⟨⟨fun i hi => ?_, fun i hi => ?_⟩, ?_⟩
  · rw [List.getElem?_modify, h.seg i hi, hup i]
    cases orig[i]? with
    | none => simp
    | some e' =>
      by_cases hik : k = i
      · subst hik
        simp [add_assoc]
      · simp [hik, Ne.symm hik]
  · have hik : k ≠ i := by omega
    rw [List.getElem?_modify, h.other i hi]
    simp [hik]
  · have hget := h.seg k hN
    rw [he] at hget
    rw [getD_eq_getElem?_getD, hget]
    rfl

theorem Placing.resolved {N : ℕ} (h : Placing sizes orig N k slots st)
    (hall : ∀ n, st.madd n ≠ none) (hN : N ≤ orig.length)
    (hsmall : ∀ (i : ℕ) e, i < N → orig[i]? = some e → e.mAddr < sizeMod)
    (hother : ∀ i : ℕ, N ≤ i → slots[i]? = orig[i]?) :
    let r := [0, 1, 2].foldl (resolveNext sizes st.madd) (slots, fun _ => 0)
    Resolving sizes orig N st.madd st.madd r.1 ∧ ∀ n i e, st.madd n = some i →
      orig[i]? = some e → r.2 n = (e.mAddr + before sizes st.madd n) % sizeMod := by
  have hplace : ∀ n, ∃ i e, st.madd n = some i ∧ i < N ∧ orig[i]? = some e := by
    intro n
    obtain ⟨i, hi⟩ := ne_none_iff_exists'.1 (hall n)
    have hlt := h.placed n i hi
    exact ⟨i, orig[i], hi, hlt, List.getElem?_eq_getElem (by omega)⟩
  obtain ⟨i0, e0, hm0, hN0, he0⟩ := hplace 0
  obtain ⟨i1, e1, hm1, hN1, he1⟩ := hplace 1
  obtain ⟨i2, e2, hm2, hN2, he2⟩ := hplace 2
  have hstart : Resolving sizes orig N st.madd (fun _ => none) slots := by
    refine ⟨fun i hi => ?_, hother⟩
    rw [h.slots_eq i]
    cases he : orig[i]? with
    | none => rfl
    | some e => simp [used_none, shorten, mod_eq_of_lt (hsmall i e hi he)]
  obtain ⟨h0, ha0⟩ := Resolving.next (r := (slots, fun _ => 0)) hstart hm0 hN0 he0 rfl
  obtain ⟨h1, ha1⟩ := h0.next hm1 hN1 he1 (by simp)
  obtain ⟨h2, ha2⟩ := h1.next hm2 hN2 he2 (by simp)
  have hdone : update (update (update (fun _ => none) 0 (some i0)) 1
      (some i1)) 2 (some i2) = st.madd := by
    funext n
    rcases eq_zero_or_one_or_two n with rfl | rfl | rfl
    · simp [hm0]
    · simp [hm1]
    · simp [hm2]
  rw [hdone] at h2
  refine ⟨h2, fun n i e hn he => ?_⟩
  rw [show [0, 1, 2].foldl (resolveNext sizes st.madd) (slots, fun _ => 0) = resolveNext sizes
    st.madd (resolveNext sizes st.madd (resolveNext sizes st.madd (slots, fun _ => 0) 0) 1) 2 from
    rfl, ha2, ha1, ha0]
  rcases eq_zero_or_one_or_two n with rfl | rfl | rfl
  · obtain rfl := some.inj (hm0.symm.trans hn)
    obtain rfl := some.inj (he0.symm.trans he)
    simp [before_zero, used_none]
  · obtain rfl := some.inj (hm1.symm.trans hn)
    obtain rfl := some.inj (he1.symm.trans he)
    simp [before_one, used, Fin.sum_univ_three, hm0, hm1]
  · obtain rfl := some.inj (hm2.symm.trans hn)
    obtain rfl := some.inj (he2.symm.trans he)
    simp [before_two, used, Fin.sum_univ_three, hm0, hm1, hm2]

/-! ## The array after a successful search -/

/-- An entry after the requests placed in it have been cut from its front. -/
def cut (sizes : Fin 3 → ℕ) (madd : Fin 3 → Option ℕ) (i : ℕ) (e : Mapent) : Mapent :=
  ⟨e.mSize - used sizes madd i, (e.mAddr + used sizes madd i) % sizeMod⟩

theorem Resolving.layout
    (h : Resolving sizes (segs ++ terminator :: junk) segs.length madd madd slots) :
    slots = segs.mapIdx (cut sizes madd) ++ terminator :: junk := by
  apply ext_getElem?
  intro i
  rcases lt_or_ge i segs.length with hi | hi
  · rw [h.seg i hi, List.getElem?_append_left hi, List.getElem?_append_left (by simpa using hi),
      List.getElem?_mapIdx]
    rfl
  · rw [h.other i hi, List.getElem?_append_right hi,
      List.getElem?_append_right (by simpa using hi), length_mapIdx]

theorem survivors_append {l : List Mapent} (junk : List Mapent)
    (hlive : ∀ e ∈ l, e.mSize ≠ 0 → e.mAddr ≠ 0)
    (hinner : ∀ i (_ : i + 1 < l.length), l[i].mAddr ≠ 0) :
    survivors (l ++ terminator :: junk) = .ok (l.filter (fun e => e.mSize ≠ 0) ++ [terminator]) := by
  induction l with
  | nil => simp [survivors, terminator]
  | cons e l ih =>
    have ih := ih (fun e' he' => hlive e' (mem_cons_of_mem _ he'))
      (fun i hi => hinner (i + 1) (by simpa using hi))
    by_cases hsize : e.mSize = 0
    · by_cases haddr : e.mAddr = 0
      · -- only the last entry can read `(0, 0)`
        have hl : l = [] := by
          cases l with
          | nil => rfl
          | cons f l => exact absurd haddr (hinner 0 (by simp))
        subst hl
        have he : e = terminator := by
          cases e
          simp_all [terminator]
        simp [survivors, he, terminator]
      · simp [survivors, hsize, haddr, ih]
    · have haddr := hlive e mem_cons_self hsize
      simp [survivors, hsize, haddr, ih, Except.map]

theorem squeeze_append {l : List Mapent} (junk : List Mapent) {r : ℕ} (hr : r < l.length)
    (hzero : l[r].mSize = 0) (hbefore : ∀ i (hi : i < r), l[i].mSize ≠ 0)
    (hlive : ∀ e ∈ l, e.mSize ≠ 0 → e.mAddr ≠ 0)
    (hinner : ∀ i (_ : i + 1 < l.length), l[i].mAddr ≠ 0) :
    ∃ junk', squeeze r (l ++ terminator :: junk) =
        .ok (l.filter (fun e => e.mSize ≠ 0) ++ terminator :: junk') ∧
      (l.filter (fun e => e.mSize ≠ 0) ++ terminator :: junk').length =
        (l ++ terminator :: junk).length := by
  have hdrop : (l ++ terminator :: junk).drop (r + 1) = l.drop (r + 1) ++ terminator :: junk :=
    drop_append_of_le_length (by omega)
  have htake : (l ++ terminator :: junk).take r = l.take r :=
    take_append_of_le_length (by omega)
  have hsurv := survivors_append junk (fun e he => hlive e (mem_of_mem_drop he)) (fun i hi => by
      simp only [length_drop] at hi
      simpa using hinner (r + 1 + i) (by omega))
  have hprefix : (l.take r).filter (fun e => e.mSize ≠ 0) = l.take r := by
    rw [filter_eq_self]
    intro e he
    obtain ⟨i, hi, rfl⟩ := mem_iff_getElem.1 he
    simp only [length_take] at hi
    simpa using hbefore i (by omega)
  have hfilter : l.filter (fun e => e.mSize ≠ 0) =
      l.take r ++ (l.drop (r + 1)).filter (fun e => e.mSize ≠ 0) := by
    conv_lhs => rw [← take_append_drop r l, drop_eq_getElem_cons hr]
    rw [filter_append, hprefix, filter_cons_of_neg (by simpa using hzero)]
  refine ⟨(l ++ terminator :: junk).drop (r +
    ((l.drop (r + 1)).filter (fun e => e.mSize ≠ 0) ++ [terminator]).length), ?_, ?_⟩
  · simp only [squeeze, hdrop, hsurv, htake, hfilter]
    change Except.ok _ = _
    simp only [append_assoc, singleton_append]
  · have hle : ((l.drop (r + 1)).filter (fun e => e.mSize ≠ 0)).length ≤ l.length - (r + 1) := by
      simpa using length_filter_le (fun e : Mapent => e.mSize ≠ 0) (l.drop (r + 1))
    rw [hfilter]
    simp only [length_append, length_take, length_cons, length_drop, length_nil]
    omega

def trimmed (sizes : Fin 3 → ℕ) (madd : Fin 3 → Option ℕ) (segs : List Mapent) : List Mapent :=
  (segs.mapIdx (cut sizes madd)).filter (fun e => e.mSize ≠ 0)

variable {i : ℕ}

/-- A cut entry that still has units has not wrapped around. -/
theorem cut_live {e : Mapent} (hstop : e.stop ≤ sizeMod)
    (hlive : (cut sizes madd i e).mSize ≠ 0) :
    (cut sizes madd i e).mAddr = e.mAddr + used sizes madd i ∧
      (cut sizes madd i e).stop = e.stop := by
  simp only [cut, stop] at *
  rw [mod_eq_of_lt (by omega)]
  omega

variable (hg : GoodSegments segs)
include hg

theorem trimmed_good (madd : Fin 3 → Option ℕ) : GoodSegments (trimmed sizes madd segs) := by
  have hcut : ∀ e ∈ trimmed sizes madd segs, ∃ i, ∃ hi : i < segs.length,
      e = cut sizes madd i segs[i] ∧ e.mSize ≠ 0 := by
    intro e he
    obtain ⟨hmem, hsize⟩ := mem_filter.1 he
    obtain ⟨i, hi, rfl⟩ := mem_mapIdx.1 hmem
    exact ⟨i, hi, rfl, by simpa using hsize⟩
  refine ⟨⟨fun e he => ?_, ?_⟩, fun e he => ?_⟩
  · obtain ⟨i, hi, rfl, hsize⟩ := hcut e he
    simp only [stop]
    omega
  · rw [trimmed, pairwise_filter, pairwise_iff_getElem]
    intro i j hi hj hij hli hlj
    simp only [length_mapIdx] at hi hj
    simp only [getElem_mapIdx, decide_eq_true_eq] at hli hlj ⊢
    rw [(cut_live (hg.2 _ (getElem_mem hi)).2 hli).2, (cut_live (hg.2 _ (getElem_mem hj)).2 hlj).1]
    exact (pairwise_iff_getElem.1 hg.1.2 i j hi hj hij).trans_le (le_add_right _ _)
  · obtain ⟨i, hi, rfl, hsize⟩ := hcut e he
    have hb := hg.2 _ (getElem_mem hi)
    obtain ⟨haddr, hstop⟩ := cut_live hb.2 hsize
    omega

theorem mem_trimmed_cover (madd : Fin 3 → Option ℕ) (x : ℕ) :
    x ∈ cover mAddr stop (trimmed sizes madd segs) ↔
      ∃ i, ∃ hi : i < segs.length, segs[i].mAddr + used sizes madd i ≤ x ∧ x < segs[i].stop := by
  simp only [mem_cover, trimmed, mem_filter, mem_mapIdx]
  constructor
  · rintro ⟨e, ⟨⟨i, hi, rfl⟩, hsize⟩, hlo, hhi⟩
    obtain ⟨haddr, hstop⟩ := cut_live (hg.2 _ (getElem_mem hi)).2 (by simpa using hsize)
    exact ⟨i, hi, by omega, by omega⟩
  · rintro ⟨i, hi, hlo, hhi⟩
    have hsize : (cut sizes madd i segs[i]).mSize ≠ 0 := by
      simp only [cut, stop] at *
      omega
    obtain ⟨haddr, hstop⟩ := cut_live (hg.2 _ (getElem_mem hi)).2 hsize
    exact ⟨_, ⟨⟨i, hi, rfl⟩, by simpa using hsize⟩, by omega, by omega⟩

omit hg

/-- Three allocations, stated on the set of free units: all three ranges are free
and disjoint and exactly they are removed, or nothing changes and no maximal
interval could have held the three together. -/
def TripleFit (F : Set ℕ) (sizes : Fin 3 → ℕ) : Option (Fin 3 → ℕ) → Set ℕ → Prop
  | none, F' => F' = F ∧ ∀ a b, IsMaximal F a b → b - a < ∑ n, sizes n
  | some a, F' => (∀ n, Set.Ico (a n) (a n + sizes n) ⊆ F) ∧
      Pairwise (fun m n => Disjoint (Set.Ico (a m) (a m + sizes m)) (Set.Ico (a n) (a n + sizes n))) ∧
      F' = F \ ⋃ n, Set.Ico (a n) (a n + sizes n)

include hg

theorem GoodSegments.index_unique {j x : ℕ} (hi : i < segs.length)
    (hj : j < segs.length) (hxi : x ∈ Set.Ico segs[i].mAddr segs[i].stop)
    (hxj : x ∈ Set.Ico segs[j].mAddr segs[j].stop) : i = j := by
  have hord := pairwise_iff_getElem.1 hg.1.2
  obtain ⟨_, _⟩ := hxi
  obtain ⟨_, _⟩ := hxj
  rcases lt_trichotomy i j with h | h | h
  · have := hord i j hi hj h
    omega
  · exact h
  · have := hord j i hj hi h
    omega

theorem tripleFit_trimmed {a : Fin 3 → ℕ}
    (hfits : ∀ i (hi : i < segs.length), used sizes madd i ≤ segs[i].mSize)
    (hplaced : ∀ n, ∃ i, ∃ hi : i < segs.length, madd n = some i ∧
      a n = (segs[i].mAddr + before sizes madd n) % sizeMod) :
    TripleFit (cover mAddr stop segs) sizes (some a)
      (cover mAddr stop (trimmed sizes madd segs)) := by
  -- each range is a piece of the front of its segment
  have hrange : ∀ n, ∃ i, ∃ hi : i < segs.length, madd n = some i ∧ ∀ x,
      x ∈ Set.Ico (a n) (a n + sizes n) ↔ segs[i].mAddr + before sizes madd n ≤ x ∧
        x < segs[i].mAddr + before sizes madd n + sizes n := by
    intro n
    obtain ⟨i, hi, hn, ha⟩ := hplaced n
    have hle := before_add_le sizes hn
    have hfit := hfits i hi
    have hstop := (hg.2 _ (getElem_mem hi)).2
    refine ⟨i, hi, hn, fun x => ?_⟩
    rcases Nat.eq_zero_or_pos (sizes n) with hz | hpos
    · simp only [mem_Ico]
      omega
    · simp only [stop] at hstop
      rw [ha, mod_eq_of_lt (by omega)]
      rfl
  have hin : ∀ n i, ∀ hi : i < segs.length, madd n = some i → ∀ x,
      segs[i].mAddr + before sizes madd n ≤ x → x < segs[i].mAddr + before sizes madd n + sizes n →
      x ∈ Set.Ico segs[i].mAddr segs[i].stop := by
    intro n i hi hn x hlo hhi
    have hle := before_add_le sizes hn
    have hfit := hfits i hi
    simp only [stop, mem_Ico]
    omega
  refine ⟨fun n x hx => ?_, fun m n hmn => ?_, ?_⟩
  · obtain ⟨i, hi, hn, hiff⟩ := hrange n
    obtain ⟨hlo, hhi⟩ := (hiff x).1 hx
    exact ⟨segs[i], getElem_mem hi, hin n i hi hn x hlo hhi⟩
  · refine disjoint_left.2 fun x hxm hxn => ?_
    obtain ⟨i, hi, hm, hiffm⟩ := hrange m
    obtain ⟨j, hj, hn, hiffn⟩ := hrange n
    obtain ⟨hlom, hhim⟩ := (hiffm x).1 hxm
    obtain ⟨hlon, hhin⟩ := (hiffn x).1 hxn
    obtain rfl := hg.index_unique hi hj (hin m i hi hm x hlom hhim) (hin n j hj hn x hlon hhin)
    rcases lt_or_gt_of_ne hmn with h | h
    · have := before_add_le_before sizes h (hm.trans hn.symm)
      omega
    · have := before_add_le_before sizes h (hn.trans hm.symm)
      omega
  · ext x
    rw [mem_trimmed_cover hg, mem_sdiff, mem_iUnion]
    constructor
    · rintro ⟨i, hi, hlo, hhi⟩
      have hx : x ∈ Set.Ico segs[i].mAddr segs[i].stop := ⟨by omega, hhi⟩
      refine ⟨⟨segs[i], getElem_mem hi, hx⟩, ?_⟩
      rintro ⟨n, hxn⟩
      obtain ⟨j, hj, hn, hiff⟩ := hrange n
      obtain ⟨hlon, hhin⟩ := (hiff x).1 hxn
      obtain rfl := hg.index_unique hi hj hx (hin n j hj hn x hlon hhin)
      have := ((mem_front_iff sizes madd segs[i].mAddr i x).2 ⟨n, hn, hlon, hhin⟩).2
      omega
    · rintro ⟨⟨e, he, hlo, hhi⟩, hnot⟩
      obtain ⟨i, hi, rfl⟩ := mem_iff_getElem.1 he
      refine ⟨i, hi, ?_, hhi⟩
      by_contra! hlt
      obtain ⟨n, hn, hlon, hhin⟩ := (mem_front_iff sizes madd segs[i].mAddr i x).1 ⟨hlo, hlt⟩
      obtain ⟨j, hj, hn', hiff⟩ := hrange n
      obtain rfl := some.inj (hn.symm.trans hn')
      exact hnot ⟨n, (hiff x).2 ⟨hlon, hhin⟩⟩

omit hg

theorem used_eq_zero (h : ∀ n, madd n ≠ some i) : used sizes madd i = 0 := by
  simp [used, h]

theorem add_used_le_sum (hn : madd n = none) (i : ℕ) :
    sizes n + used sizes madd i ≤ ∑ m, sizes m := by
  rw [← Finset.add_sum_erase Finset.univ sizes (Finset.mem_univ n), used,
    ← Finset.add_sum_erase Finset.univ _ (Finset.mem_univ n), hn]
  have : ∑ m ∈ Finset.univ.erase n, (if madd m = some i then sizes m else 0) ≤
      ∑ m ∈ Finset.univ.erase n, sizes m :=
    Finset.sum_le_sum fun m _ => by split_ifs <;> omega
  simpa using this

include hg

theorem squeeze_cut (h : Placing sizes (segs ++ terminator :: junk) segs.length k slots st) :
    ∃ junk', (match st.remap with
      | none => .ok (segs.mapIdx (cut sizes st.madd) ++ terminator :: junk)
      | some r => squeeze r (segs.mapIdx (cut sizes st.madd) ++ terminator :: junk)) =
        (.ok (trimmed sizes st.madd segs ++ terminator :: junk') : Except String (List Mapent)) ∧
      (trimmed sizes st.madd segs ++ terminator :: junk').length =
        (segs ++ terminator :: junk).length := by
  have hget : ∀ i (hi : i < segs.length), (segs ++ terminator :: junk)[i]? = some segs[i] := by
    intro i hi
    rw [List.getElem?_append_left hi, List.getElem?_eq_getElem hi]
  cases hr : st.remap with
  | none =>
    have hall : trimmed sizes st.madd segs = segs.mapIdx (cut sizes st.madd) := by
      rw [trimmed, filter_eq_self]
      intro e he
      obtain ⟨i, hi, rfl⟩ := mem_mapIdx.1 he
      have := h.noRemap hr i _ hi (hget i hi)
      exact decide_eq_true (show segs[i].mSize - used sizes st.madd i ≠ 0 by omega)
    exact ⟨junk, by rw [hall], by simp [hall]⟩
  | some r =>
    obtain ⟨hrN, _, hfull, hbefore⟩ := h.remap r hr
    have hbefore' : ∀ i (hi : i < r), (cut sizes st.madd i segs[i]).mSize ≠ 0 := by
      intro i hi
      have := hbefore i _ hi (hget i (hi.trans hrN))
      simp only [cut]
      omega
    have hlive : ∀ e ∈ segs.mapIdx (cut sizes st.madd), e.mSize ≠ 0 → e.mAddr ≠ 0 := by
      intro e he hne
      obtain ⟨i, hi, rfl⟩ := mem_mapIdx.1 he
      have hb := hg.2 _ (getElem_mem hi)
      have := (cut_live hb.2 hne).1
      omega
    have hinner : ∀ i (hi : i + 1 < segs.length), (cut sizes st.madd i segs[i]).mAddr ≠ 0 := by
      intro i hi
      have hfit := h.fits i _ (hget i (by omega))
      have hsep := pairwise_iff_getElem.1 hg.1.2 i (i + 1) (by omega) hi (lt_succ_self i)
      have hpos := (hg.2 _ (getElem_mem (show i < segs.length by omega))).1
      have hnext := (hg.2 _ (getElem_mem hi)).2
      simp only [stop] at hsep hnext
      simp only [cut]
      rw [mod_eq_of_lt (by omega)]
      omega
    obtain ⟨junk', hsq, hlen⟩ := squeeze_append junk
      (by simpa using hrN)
      (by simp only [getElem_mapIdx, cut, hfull _ (hget r hrN), Nat.sub_self])
      (fun i hi => by simpa only [getElem_mapIdx] using hbefore' i hi) hlive
      (fun i hi => by simpa only [getElem_mapIdx] using hinner i (by simpa using hi))
    exact ⟨junk', hsq, by rw [trimmed, hlen]; simp⟩

theorem GoodSegments.placing :
    Placing sizes (segs ++ terminator :: junk) segs.length 0 (segs ++ terminator :: junk) .start := by
  refine Placing.start _ _ fun i e hi he => pos_of_ne_zero (hg.size_pos e ?_)
  rw [List.getElem?_append_left hi] at he
  exact mem_of_getElem? he

omit hg

theorem malloc3_spec {mp : Map} (hwf : mp.WellFormed) (sizes : Fin 3 → ℕ) :
    ∃ r mp', malloc3 mp sizes = .ok (r, mp') ∧ mp'.WellFormed ∧ mp'.mLimit = mp.mLimit ∧
      mp'.mMap.length = mp.mMap.length ∧ TripleFit mp.freeUnits sizes r mp'.freeUnits := by
  obtain ⟨segs, junk, hm, hg⟩ := wellFormed_iff.1 hwf
  have hget : ∀ i (hi : i < segs.length), (segs ++ terminator :: junk)[i]? = some segs[i] := by
    intro i hi
    rw [List.getElem?_append_left hi, List.getElem?_eq_getElem hi]
  have hentry : ∀ (i : ℕ) e, i < segs.length → (segs ++ terminator :: junk)[i]? = some e →
      e ∈ segs := by
    intro i e hi he
    obtain rfl := some.inj ((hget i hi).symm.trans he)
    exact getElem_mem hi
  obtain ⟨slots, st, k, hsearch, hpl, hend⟩ :=
    search_invariant (I := Placing sizes (segs ++ terminator :: junk) segs.length)
      (fun k pre bp rest st h hpre hk => h.turn hpre hk) segs [] 0 .start hg.placing rfl (by simp) hg.size_pos
  rw [nil_append] at hpl
  rw [freeUnits_of_mMap hm hg]
  by_cases hfound : st.found = 3
  · have hall : ∀ n, st.madd n ≠ none := hpl.found_eq_three.1 hfound
    obtain ⟨hres, ha⟩ := hpl.resolved hall (by simp) (fun i e hi he => by
        have := hg.2 e (hentry i e hi he)
        have := hg.size_pos e (hentry i e hi he)
        simp only [stop] at *
        omega) (fun i hi => by
        have hz : used sizes st.madd i = 0 :=
          used_eq_zero fun n hn => absurd (hpl.placed n i hn) (not_lt_of_ge hi)
        rw [hpl.slots_eq i, hz]
        simp)
    obtain ⟨junk', hsq, hlen⟩ := squeeze_cut hg hpl
    rw [← hres.layout] at hsq
    generalize hr : [0, 1, 2].foldl (resolveNext sizes st.madd) (slots, fun _ => 0) = r at *
    have hlen' : (trimmed sizes st.madd segs ++ terminator :: junk').length = mp.mMap.length := by
      rw [hlen, hm]
    have hg' : GoodSegments (trimmed sizes st.madd segs) := trimmed_good hg st.madd
    refine ⟨some r.2, { mp with mMap := trimmed sizes st.madd segs ++ terminator :: junk' }, ?_, ?_,
      rfl, hlen', ?_⟩
    · simp only [malloc3, hm, hsearch, hr, bind, Except.bind, if_pos hfound]
      cases hrm : st.remap with
      | none => simp only [hrm] at hsq; rw [Except.ok.inj hsq]; rfl
      | some i => simp only [hrm] at hsq; simp only [hsq]; rfl
    · exact wellFormed_iff.2 ⟨_, junk', rfl, hg'⟩
    · rw [freeUnits_of_mMap rfl hg']
      refine tripleFit_trimmed hg (fun i hi => hpl.fits i _ (hget i hi)) (fun n => ?_)
      obtain ⟨i, hi⟩ := ne_none_iff_exists'.1 (hall n)
      have hlt := hpl.placed n i hi
      exact ⟨i, hlt, hi, ha n i _ hi (hget i hlt)⟩
  · have hrest := hpl.restored (fun i e hi he => by
      have := hg.2 e (hentry i e hi he)
      simp only [stop] at this
      omega)
    refine ⟨none, mp, ?_, hwf, rfl, rfl, freeUnits_of_mMap hm hg, ?_⟩
    · simp only [malloc3, hm, hsearch, bind, Except.bind, if_neg hfound, hrest]
      rw [← hm]
      rfl
    · intro a b hab
      obtain ⟨e, he, rfl, rfl⟩ := hg.1.isMaximal_iff.1 hab
      obtain ⟨i, hi, rfl⟩ := mem_iff_getElem.1 he
      obtain ⟨n, hn⟩ : ∃ n, st.madd n = none := by
        by_contra! hall
        exact hfound (hpl.found_eq_three.2 hall)
      obtain rfl := hend.resolve_left hfound
      have := hpl.tight n hn i _ hi (hget i hi)
      have : sizes n + used sizes st.madd i ≤ ∑ m, sizes m := add_used_le_sum hn i
      simp only [stop]
      omega

end RetroBSD.ResourceMap
