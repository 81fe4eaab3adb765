import RetroBSD.ResourceMapLayout
import Mathlib

/-!
# The search of `malloc3`

`malloc3` places its three requests while it walks the map once. `Placing` is the
invariant of the walk: every entry has lost exactly the requests placed in it, and
a request that is still unplaced fits in none of the entries passed so far. When
the walk ends with a request unplaced, the sizes are given back.
-/

namespace RetroBSD.ResourceMap

open SeparatedIntervals Function Finset

variable {sizes : Fin 3 → ℕ} {orig slots segs junk : List Mapent} {st : Search}

/-- Units of the entry at index `i` taken by the requests placed there. -/
def used (sizes : Fin 3 → ℕ) (madd : Fin 3 → Option ℕ) (i : ℕ) : ℕ :=
  ∑ n, if madd n = some i then sizes n else 0

theorem used_update (sizes : Fin 3 → ℕ) {madd : Fin 3 → Option ℕ} {next : Fin 3} (hnone : madd next = none)
    (k i : ℕ) : used sizes (update madd next (some k)) i =
      used sizes madd i + if i = k then sizes next else 0 := by
  unfold used
  rw [← add_sum_erase _ _ (mem_univ next), ← add_sum_erase Finset.univ _ (mem_univ next)]
  have hrest : ∀ n ∈ Finset.univ.erase next,
      (if update madd next (some k) n = some i then sizes n else 0) =
        if madd n = some i then sizes n else 0 := by
    intro n hn
    rw [update_of_ne (ne_of_mem_erase hn)]
  rw [sum_congr rfl hrest, hnone]
  by_cases hik : i = k
  · subst hik
    simp
    omega
  · simp [hik, Ne.symm hik]

theorem used_none (i : ℕ) : used sizes (fun _ => none) i = 0 := by simp [used]

def Mapent.shorten (e : Mapent) (n : ℕ) : Mapent := ⟨e.mSize - n, e.mAddr⟩

@[simp] theorem Mapent.shorten_zero (e : Mapent) : e.shorten 0 = e := rfl

/-- The walk of `malloc3` over the first `k` entries of `orig`, whose first `N`
entries are segments. -/
structure Placing (sizes : Fin 3 → ℕ) (orig : List Mapent) (N k : ℕ) (slots : List Mapent)
    (st : Search) : Prop where
  slots_eq : ∀ i : ℕ, slots[i]? = (orig[i]?).map (fun e => e.shorten (used sizes st.madd i))
  fits : ∀ (i : ℕ) e, orig[i]? = some e → used sizes st.madd i ≤ e.mSize
  placed : ∀ n i, st.madd n = some i → i < N
  found : st.found = (Finset.univ.filter (fun n => st.madd n ≠ none)).card
  noRemap : st.remap = none → ∀ i e, i < N → orig[i]? = some e → used sizes st.madd i < e.mSize
  remap : ∀ r, st.remap = some r → r < N ∧ r ≤ k ∧
    (∀ e, orig[r]? = some e → used sizes st.madd r = e.mSize) ∧
    ∀ i e, i < r → orig[i]? = some e → used sizes st.madd i < e.mSize
  tight : ∀ n, st.madd n = none → ∀ i e, i < k → orig[i]? = some e →
    e.mSize < sizes n + used sizes st.madd i

theorem Placing.start (orig : List Mapent) (N : ℕ)
    (hpos : ∀ (i : ℕ) e, i < N → orig[i]? = some e → 0 < e.mSize) :
    Placing sizes orig N 0 orig .start where
  slots_eq i := by cases orig[i]? <;> simp [Search.start, used_none]
  fits i e _ := by simp [Search.start, used_none]
  placed n i h := by simp [Search.start] at h
  found := by simp [Search.start]
  noRemap _ i e hi he := by simpa [Search.start, used_none] using hpos i e hi he
  remap r h := by simp [Search.start] at h
  tight n _ i e hi := by omega

variable {rest : List Mapent} {N : ℕ} {pre : List Mapent} {k : ℕ} {bp : Mapent}

theorem Placing.current
    (h : Placing sizes orig N k (pre ++ bp :: rest) st) (hpre : pre.length = k) :
    ∃ e, orig[k]? = some e ∧ bp = e.shorten (used sizes st.madd k) := by
  have hk := h.slots_eq k
  rw [← hpre, List.getElem?_append_right le_rfl] at hk
  rw [← hpre]
  cases he : orig[pre.length]? with
  | none => simp [he] at hk
  | some e => exact ⟨e, rfl, by simpa [he] using hk⟩

theorem Placing.tryNext {r : Mapent × Search}
    (h : Placing sizes orig N k (pre ++ r.1 :: rest) r.2) (hpre : pre.length = k) (hk : k < N)
    (next : Fin 3) :
    let r' := ResourceMap.tryNext sizes k r next
    Placing sizes orig N k (pre ++ r'.1 :: rest) r'.2 ∧ r'.1.mSize ≤ r.1.mSize ∧
      (∀ n, r'.2.madd n = none → r.2.madd n = none) ∧
      (r'.2.madd next = none → r'.1.mSize < sizes next) := by
  intro r'
  obtain ⟨e, he, hr⟩ := h.current hpre
  by_cases hc : r.2.madd next = none ∧ sizes next ≤ r.1.mSize
  · obtain ⟨hnone, hle⟩ := hc
    have hr' : r' = (r.1.shorten (sizes next),
        { madd := update r.2.madd next (some k),
          remap := if r.1.mSize - sizes next = 0 ∧ r.2.remap = none then some k else r.2.remap,
          found := r.2.found + 1 }) := if_pos ⟨hnone, hle⟩
    have hsz : r.1.mSize = e.mSize - used sizes r.2.madd k := by rw [hr, Mapent.shorten]
    have hfit := h.fits k e he
    have hup : ∀ i, used sizes (update r.2.madd next (some k)) i =
        used sizes r.2.madd i + if i = k then sizes next else 0 := used_update sizes hnone k
    have hother : ∀ i, i ≠ k →
        used sizes (update r.2.madd next (some k)) i = used sizes r.2.madd i := by
      intro i hi
      rw [hup, if_neg hi, Nat.add_zero]
    have hself : used sizes (update r.2.madd next (some k)) k =
        used sizes r.2.madd k + sizes next := by rw [hup, if_pos rfl]
    have hentry : ∀ i e', orig[i]? = some e' → i = k → e' = e := by
      rintro i e' he' rfl
      exact Option.some.inj (he'.symm.trans he)
    rw [hr']
    dsimp only
    refine ⟨⟨?_, ?_, ?_, ?_, ?_, ?_, ?_⟩, Nat.sub_le _ _, ?_, ?_⟩
    · intro i
      by_cases hi : i = k
      · subst hi
        rw [hself, he]
        simp [hr, hpre, Mapent.shorten, Nat.sub_sub]
      · rw [hother i hi, ← h.slots_eq i]
        rcases lt_or_gt_of_ne hi with hlt | hgt
        · rw [List.getElem?_append_left (by omega), List.getElem?_append_left (by omega)]
        · rw [List.getElem?_append_right (by omega), List.getElem?_append_right (by omega)]
          obtain ⟨m, hm⟩ : ∃ m, i - pre.length = m + 1 := ⟨i - pre.length - 1, by omega⟩
          rw [hm, List.getElem?_cons_succ, List.getElem?_cons_succ]
    · intro i e' he'
      by_cases hi : i = k
      · rw [hentry i e' he' hi, hi, hself]
        omega
      · rw [hother i hi]
        exact h.fits i e' he'
    · intro n i hn
      dsimp only at hn
      by_cases hnn : n = next
      · subst hnn
        simp only [update_self, Option.some.injEq] at hn
        omega
      · rw [update_of_ne hnn] at hn
        exact h.placed n i hn
    · have hset : Finset.univ.filter (fun n => update r.2.madd next (some k) n ≠ none) =
          insert next (Finset.univ.filter (fun n => r.2.madd n ≠ none)) := by
        ext n
        by_cases hnn : n = next
        · simp [hnn]
        · simp [hnn]
      rw [hset, card_insert_of_notMem (by simp [hnone]), ← h.found]
    · intro hnr i e' hi he'
      split_ifs at hnr with hz
      by_cases hik : i = k
      · rw [hentry i e' he' hik, hik, hself]
        have := mt (fun h0 => And.intro h0 hnr) hz
        omega
      · rw [hother i hik]
        exact h.noRemap hnr i e' hi he'
    · intro m hm
      split_ifs at hm with hz
      · obtain rfl := Option.some.inj hm
        refine ⟨hk, le_rfl, fun e' he' => ?_, fun i e' hi he' => ?_⟩
        · rw [hentry k e' he' rfl, hself]
          omega
        · rw [hother i hi.ne]
          exact h.noRemap hz.2 i e' (hi.trans hk) he'
      · obtain ⟨hmN, hmk, hfull, hbefore⟩ := h.remap m hm
        refine ⟨hmN, hmk, fun e' he' => ?_, fun i e' hi he' => ?_⟩
        · by_cases hmk' : m = k
          · have := hfull e' he'
            rw [hentry m e' he' hmk', hmk', hself] at *
            omega
          · rw [hother m hmk']
            exact hfull e' he'
        · rw [hother i (by omega)]
          exact hbefore i e' hi he'
    · intro n hn i e' hi he'
      dsimp only at hn ⊢
      have hnn : n ≠ next := by
        rintro rfl
        simp at hn
      rw [update_of_ne hnn] at hn
      rw [hother i hi.ne]
      exact h.tight n hn i e' hi he'
    · intro n hn
      by_cases hnn : n = next
      · simp [hnn] at hn
      · rwa [update_of_ne hnn] at hn
    · simp
  · have hr' : r' = r := if_neg hc
    rw [hr']
    refine ⟨h, le_rfl, fun _ hn => hn, fun hn => ?_⟩
    by_contra! hle
    exact hc ⟨hn, hle⟩

variable (h : Placing sizes orig N k (pre ++ bp :: rest) st)
include h

theorem Placing.inner (hpre : pre.length = k) (hk : k < N) :
    let r := [0, 1, 2].foldl (ResourceMap.tryNext sizes k) (bp, st)
    Placing sizes orig N k (pre ++ r.1 :: rest) r.2 ∧
      ∀ n, r.2.madd n = none → r.1.mSize < sizes n := by
  obtain ⟨h0, _, _, ht0⟩ := Placing.tryNext (r := (bp, st)) h hpre hk 0
  obtain ⟨h1, hle1, hm1, ht1⟩ := h0.tryNext hpre hk 1
  obtain ⟨h2, hle2, hm2, ht2⟩ := h1.tryNext hpre hk 2
  refine ⟨h2, fun n hn => ?_⟩
  match n with
  | 0 => exact (hle2.trans hle1).trans_lt (ht0 (hm1 0 (hm2 0 hn)))
  | 1 => exact hle2.trans_lt (ht1 (hm2 1 hn))
  | 2 => exact ht2 hn

theorem Placing.advance (hpre : pre.length = k)
    (htight : ∀ n, st.madd n = none → bp.mSize < sizes n) :
    Placing sizes orig N (k + 1) (pre ++ bp :: rest) st := by
  obtain ⟨e, he, hbp⟩ := h.current hpre
  refine { h with remap := fun r hr => ?_, tight := fun n hn i e' hi he' => ?_ }
  · obtain ⟨h1, h2, h3⟩ := h.remap r hr
    exact ⟨h1, h2.trans (Nat.le_succ k), h3⟩
  · rcases Nat.lt_succ_iff_lt_or_eq.1 hi with hlt | rfl
    · exact h.tight n hn i e' hlt he'
    · obtain rfl := Option.some.inj (he'.symm.trans he)
      have hlt := htight n hn
      simp only [hbp, Mapent.shorten] at hlt
      omega

theorem Placing.turn (hpre : pre.length = k) (hk : k < N) :
    let r := [0, 1, 2].foldl (ResourceMap.tryNext sizes k) (bp, st)
    Placing sizes orig N (k + 1) (pre ++ r.1 :: rest) r.2 := by
  obtain ⟨hin, htight⟩ := h.inner hpre hk
  exact hin.advance hpre htight

omit h

/-- What the inner loop keeps holds at the end of the walk: every request is placed, or the
last segment is passed. -/
theorem search_invariant {I : ℕ → List Mapent → Search → Prop} {junk : List Mapent}
    (hinner : ∀ k pre bp rest st, I k (pre ++ bp :: rest) st → pre.length = k → k < N →
      I (k + 1) (pre ++ ([0, 1, 2].foldl (ResourceMap.tryNext sizes k) (bp, st)).1 :: rest)
        ([0, 1, 2].foldl (ResourceMap.tryNext sizes k) (bp, st)).2) :
    ∀ (suffix pre : List Mapent) (k : ℕ) (st : Search), I k (pre ++ (suffix ++ terminator :: junk)) st →
      pre.length = k → k + suffix.length = N → (∀ e ∈ suffix, e.mSize ≠ 0) →
      ∃ slots' st' k', search sizes k (suffix ++ terminator :: junk) st = .ok (slots', st') ∧
        I k' (pre ++ slots') st' ∧ (st'.found = 3 ∨ k' = N) := by
  intro suffix
  induction suffix with
  | nil =>
    intro pre k st h _ hN _
    exact ⟨_, st, k, by simp [search, terminator], h, .inr hN⟩
  | cons bp suffix ih =>
    intro pre k st h hpre hN hne
    have hbp : bp.mSize ≠ 0 := hne bp List.mem_cons_self
    simp only [List.length_cons] at hN
    rw [List.cons_append] at h
    have hin := hinner k pre bp _ st h hpre (by omega)
    generalize hr : [0, 1, 2].foldl (ResourceMap.tryNext sizes k) (bp, st) = r at hin
    by_cases hfound : r.2.found = 3
    · refine ⟨r.1 :: (suffix ++ terminator :: junk), r.2, k + 1, ?_, hin, .inl hfound⟩
      simp only [List.cons_append, search, if_neg hbp, hr, if_pos hfound]
    · rw [show pre ++ r.1 :: (suffix ++ terminator :: junk) =
        (pre ++ [r.1]) ++ (suffix ++ terminator :: junk) by simp] at hin
      obtain ⟨slots', st', k', hs, hp, hend⟩ := ih (pre ++ [r.1]) (k + 1) r.2 hin
        (by simp [hpre]) (by omega) (fun e he => hne e (List.mem_cons_of_mem _ he))
      refine ⟨r.1 :: slots', st', k', ?_, by simpa using hp, hend⟩
      simp only [List.cons_append, search, if_neg hbp, hr, if_neg hfound, hs]
      rfl

theorem Placing.found_eq_three (h : Placing sizes orig N k slots st) :
    st.found = 3 ↔ ∀ n, st.madd n ≠ none := by
  rw [h.found]
  constructor
  · intro hcard n
    have huniv : Finset.univ.filter (fun n => st.madd n ≠ none) = Finset.univ :=
      eq_univ_of_card _ hcard
    have hn := mem_univ n
    rw [← huniv] at hn
    exact (mem_filter.1 hn).2
  · intro hall
    rw [filter_true_of_mem fun n _ => hall n]
    rfl

/-! ## Giving the sizes back -/

theorem restoreNext_undo {madd : Fin 3 → Option ℕ} (madd0 : Fin 3 → Option ℕ)
    (next : Fin 3)
    (hslots : ∀ i : ℕ, slots[i]? = (orig[i]?).map (fun e => e.shorten (used sizes madd i)))
    (hfits : ∀ (i : ℕ) e, orig[i]? = some e → used sizes madd i ≤ e.mSize)
    (hsmall : ∀ (i : ℕ) e, i < N → orig[i]? = some e → e.mSize < sizeMod)
    (hplaced : ∀ i, madd next = some i → i < N) (hsame : madd0 next = madd next) (i : ℕ) :
    (restoreNext sizes madd0 slots next)[i]? =
      (orig[i]?).map (fun e => e.shorten (used sizes (update madd next none) i)) := by
  unfold restoreNext
  cases hk : madd next with
  | none =>
    rw [hsame, hk]
    simpa only [← hk, update_eq_self] using hslots i
  | some k =>
    have hup : ∀ i, used sizes madd i = used sizes (update madd next none) i +
        if i = k then sizes next else 0 := by
      intro i
      have hnone : update madd next none next = none := by simp
      have := used_update sizes hnone k i
      rwa [update_idem, ← hk, update_eq_self] at this
    rw [hsame, hk]
    simp only [List.getElem?_modify, hslots i]
    cases he : orig[i]? with
    | none => simp
    | some e =>
      by_cases hik : k = i
      · subst hik
        have h1 := hup k
        have h2 := hfits k e he
        have h3 := hsmall k e (hplaced k hk) he
        simp only [if_true] at h1
        simp only [if_true, Option.map_eq_map, Option.map_some, Mapent.shorten, Option.some.injEq,
          Mapent.mk.injEq, and_true]
        rw [Nat.mod_eq_of_lt (by omega)]
        omega
      · simp [hik, hup i, Ne.symm hik]

/-- An incomplete search leaves the array as it found it. -/
theorem Placing.restored (h : Placing sizes orig N k slots st)
    (hsmall : ∀ (i : ℕ) e, i < N → orig[i]? = some e → e.mSize < sizeMod) :
    [0, 1, 2].foldl (restoreNext sizes st.madd) slots = orig := by
  let m1 := update st.madd 0 none
  let m2 := update m1 1 none
  have hle : ∀ {m m' : Fin 3 → Option ℕ}, (∀ n, m' n = none ∨ m' n = m n) → ∀ i,
      used sizes m' i ≤ used sizes m i := by
    intro m m' hm i
    refine sum_le_sum fun n _ => ?_
    rcases hm n with h | h <;> simp [h]
  have hsub1 : ∀ n, m1 n = none ∨ m1 n = st.madd n := by
    intro n
    by_cases hn : n = 0
    · exact .inl (by simp [m1, hn])
    · exact .inr (by simp [m1, hn])
  have hsub2 : ∀ n, m2 n = none ∨ m2 n = st.madd n := by
    intro n
    by_cases hn : n = 1
    · exact .inl (by simp [m2, hn])
    · simpa [m2, hn] using hsub1 n
  have h0 := restoreNext_undo st.madd 0 h.slots_eq h.fits hsmall (h.placed 0) rfl
  have h1 := restoreNext_undo st.madd 1 h0
    (fun i e he => (hle hsub1 i).trans (h.fits i e he)) hsmall
    (fun i hi => h.placed 1 i (by simpa using hi)) (by simp)
  have h2 := restoreNext_undo st.madd 2 h1
    (fun i e he => (hle hsub2 i).trans (h.fits i e he)) hsmall
    (fun i hi => h.placed 2 i (by simpa using hi)) (by simp)
  have hnone : update m2 2 none = fun _ => none := by
    funext n
    match n with
    | 0 => simp [m2, m1]
    | 1 => simp [m2]
    | 2 => simp
  apply List.ext_getElem?
  intro i
  have := h2 i
  rw [hnone] at this
  simpa [used_none] using this

end RetroBSD.ResourceMap
