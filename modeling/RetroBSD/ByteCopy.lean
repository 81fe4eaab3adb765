import Mathlib

/-!
# Copying between memories

A memory is a function of its addresses. `copy` is a block copy; `place` puts a
list at consecutive addresses and `scatter` puts one at a list of addresses, in
order. Copies to neighbouring places compose to the copy of the concatenation.
-/

namespace ByteCopy

open Function List

variable {α : Type*}

def copy (src : ℕ → α) (s : ℕ) (dst : ℕ → α) (d n : ℕ) : ℕ → α := fun a =>
  if d ≤ a ∧ a < d + n then src (s + (a - d)) else dst a

def bytes (m : ℕ → α) (s n : ℕ) : List α := (List.range' s n).map m

def place (m : ℕ → α) (d : ℕ) (l : List α) : ℕ → α := fun a =>
  if d ≤ a then l[a - d]?.getD (m a) else m a

def scatter (m : ℕ → α) : List ℕ → List α → ℕ → α
  | a :: as, x :: xs => scatter (update m a x) as xs
  | _, _ => m

@[simp] theorem length_bytes (m : ℕ → α) (s n : ℕ) : (bytes m s n).length = n := by
  simp [bytes]

theorem bytes_append (m : ℕ → α) (s n k : ℕ) :
    bytes m s n ++ bytes m (s + n) k = bytes m s (n + k) := by
  simp only [bytes, ← map_append, List.range'_append_1]

variable {m : ℕ → α}

theorem bytes_congr {m' : ℕ → α} {s s' n : ℕ} (h : ∀ i, i < n → m (s + i) = m' (s' + i)) :
    bytes m s n = bytes m' s' n := by
  apply ext_getElem (by simp)
  intro i hi _
  simp only [length_bytes] at hi
  simp only [bytes, getElem_map, getElem_range', Nat.one_mul]
  exact h i hi

theorem take_bytes (m : ℕ → α) (s n k : ℕ) : (bytes m s n).take k = bytes m s (min k n) := by
  apply ext_getElem (by simp)
  intro i _ _
  simp [bytes]

theorem drop_bytes (m : ℕ → α) (s n k : ℕ) : (bytes m s n).drop k = bytes m (s + k) (n - k) := by
  rw [bytes, bytes, ← map_drop, drop_range', Nat.mul_one]

variable {l : List α} {d : ℕ}

theorem place_of_lt {a : ℕ} (h : a < d) : place m d l a = m a :=
  if_neg (not_le.2 h)

theorem place_of_le {a : ℕ} (h : d + l.length ≤ a) : place m d l a = m a := by
  rw [place, if_pos (by omega), List.getElem?_eq_none (by omega)]
  rfl

theorem place_of_mem {i : ℕ} (h : i < l.length) : place m d l (d + i) = l[i] := by
  rw [place, if_pos (Nat.le_add_right d i), Nat.add_sub_cancel_left, List.getElem?_eq_getElem h]
  rfl

theorem bytes_place (m : ℕ → α) (s n : ℕ) (l : List α) :
    bytes (place m (s + n) l) s (n + l.length) = bytes m s n ++ l := by
  apply ext_getElem (by simp)
  intro i hi _
  rw [length_bytes] at hi
  simp only [bytes, getElem_map, getElem_range', Nat.one_mul]
  by_cases h : i < n
  · rw [place_of_lt (by omega), getElem_append_left (by simpa using h)]
    simp
  · obtain ⟨j, rfl⟩ := Nat.exists_eq_add_of_le (not_lt.1 h)
    rw [← Nat.add_assoc, place_of_mem (by omega)]
    simp

theorem place_append (m : ℕ → α) (d : ℕ) (xs ys : List α) :
    place (place m d xs) (d + xs.length) ys = place m d (xs ++ ys) := by
  funext a
  by_cases h1 : a < d
  · rw [place_of_lt (by omega), place_of_lt h1, place_of_lt h1]
  obtain ⟨i, rfl⟩ := Nat.exists_eq_add_of_le (not_lt.1 h1)
  by_cases h2 : i < xs.length
  · have h3 : i < (xs ++ ys).length := by
      rw [length_append]
      omega
    rw [place_of_lt (by omega), place_of_mem h2, place_of_mem h3, getElem_append_left h2]
  by_cases h3 : i < xs.length + ys.length
  · obtain ⟨j, rfl⟩ := Nat.exists_eq_add_of_le (not_lt.1 h2)
    have hj : j < ys.length := by omega
    have h4 : xs.length + j < (xs ++ ys).length := by
      rw [length_append]
      omega
    rw [← Nat.add_assoc, place_of_mem hj, Nat.add_assoc, place_of_mem h4,
      getElem_append_right (by omega)]
    simp only [Nat.add_sub_cancel_left]
  · rw [place_of_le (by omega), place_of_le (by omega), place_of_le (by rw [length_append]; omega)]

theorem map_place {β : Type*} (g : α → β) (m : ℕ → α) (d : ℕ) (l : List α) (a : ℕ) :
    g (place m d l a) = place (fun a => g (m a)) d (l.map g) a := by
  by_cases h1 : a < d
  · rw [place_of_lt h1, place_of_lt h1]
  obtain ⟨i, rfl⟩ := Nat.exists_eq_add_of_le (not_lt.1 h1)
  by_cases h2 : i < l.length
  · rw [place_of_mem h2, place_of_mem (by rwa [length_map]), getElem_map]
  · rw [place_of_le (by omega), place_of_le (by rw [length_map]; omega)]

theorem copy_eq_place (src : ℕ → α) (s : ℕ) (dst : ℕ → α) (d n : ℕ) :
    copy src s dst d n = place dst d (bytes src s n) := by
  funext a
  rw [copy]
  by_cases h1 : a < d
  · rw [place_of_lt h1, if_neg (by omega)]
  obtain ⟨i, rfl⟩ := Nat.exists_eq_add_of_le (not_lt.1 h1)
  by_cases h2 : i < n
  · have h3 : i < (bytes src s n).length := by rwa [length_bytes]
    rw [place_of_mem h3, if_pos (by omega)]
    simp only [bytes, getElem_map, getElem_range', Nat.one_mul, Nat.add_sub_cancel_left]
  · rw [place_of_le (by rw [length_bytes]; omega), if_neg (by omega)]

theorem scatter_append (m : ℕ → α) {as bs : List ℕ} {xs ys : List α} (h : as.length = xs.length) :
    scatter (scatter m as xs) bs ys = scatter m (as ++ bs) (xs ++ ys) := by
  induction as generalizing m xs with
  | nil =>
    obtain rfl := eq_nil_of_length_eq_zero h.symm
    rfl
  | cons a as ih =>
    cases xs with
    | nil => exact absurd h (Nat.succ_ne_zero _)
    | cons x xs => exact ih _ (Nat.succ.inj h)

theorem scatter_take (m : ℕ → α) (as : List ℕ) (xs : List α) :
    scatter m (as.take xs.length) xs = scatter m as xs := by
  induction xs generalizing m as with
  | nil => cases as <;> rfl
  | cons x xs ih =>
    cases as with
    | nil => rfl
    | cons a as => exact ih _ as

theorem scatter_of_notMem {as : List ℕ} (xs : List α) {a : ℕ} (h : a ∉ as) : scatter m as xs a = m a := by
  induction as generalizing m xs with
  | nil => rfl
  | cons b as ih =>
    cases xs with
    | nil => rfl
    | cons x xs =>
      rw [mem_cons, not_or] at h
      rw [scatter, ih xs h.2, update_of_ne h.1]

theorem map_scatter_of_disjoint {as bs : List ℕ} (xs : List α) (h : ∀ b ∈ bs, b ∉ as) :
    bs.map (scatter m as xs) = bs.map m :=
  map_congr_left fun b hb => scatter_of_notMem xs (h b hb)

theorem map_scatter (m : ℕ → α) {as : List ℕ} {xs : List α} (h : as.Nodup) (hlen : as.length = xs.length) :
    as.map (scatter m as xs) = xs := by
  induction as generalizing m xs with
  | nil => exact (eq_nil_of_length_eq_zero hlen.symm).symm
  | cons a as ih =>
    cases xs with
    | nil => cases hlen
    | cons x xs =>
      rw [nodup_cons] at h
      rw [map_cons, scatter, ih _ h.2 (Nat.succ.inj hlen), scatter_of_notMem xs h.1, update_self]

theorem place_eq_scatter (m : ℕ → α) (d : ℕ) (l : List α) :
    place m d l = scatter m (List.range' d l.length) l := by
  induction l generalizing m d with
  | nil =>
    funext a
    simp [place, scatter]
  | cons x xs ih =>
    have hone : place m d [x] = update m d x := by
      funext a
      by_cases ha : a = d
      · subst ha
        simp [place]
      · rw [update_of_ne ha]
        rcases lt_or_gt_of_ne ha with h | h
        · exact place_of_lt h
        · exact place_of_le h
    change place m d ([x] ++ xs) = _
    rw [← place_append, hone, ih]
    rfl

end ByteCopy
