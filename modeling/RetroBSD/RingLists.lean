import RetroBSD.LinkedQueues
import Mathlib

/-!
# Circular doubly linked lists

Lists with heads of their own, whose cells are linked in both directions and whose last
cell is linked to the head again. A cell that is in no list is linked to itself.
-/

namespace LinkedList

open Function List

structure Ring (κ ι : Type*) where
  forw : Place κ ι → Place κ ι
  back : Place κ ι → Place κ ι

variable {κ ι : Type*} {f f' : Place κ ι → Place κ ι} {w x y : Place κ ι} {i : ι} {l : List ι}

/-- Following `f` from `x` visits the cells `l` and then `y`. -/
def Path (f : Place κ ι → Place κ ι) : Place κ ι → List ι → Place κ ι → Prop
  | x, [], y => f x = y
  | x, i :: l, y => f x = .cell i ∧ Path f (.cell i) l y

theorem Path.next_mem (h : Path f x l y) (hi : i ∈ l) : f (.cell i) = y ∨ ∃ j ∈ l, f (.cell i) = .cell j := by
  induction l generalizing x with
  | nil => exact absurd hi not_mem_nil
  | cons j l ih =>
    rcases mem_cons.1 hi with rfl | hi
    · cases l with
      | nil => exact .inl h.2
      | cons m l => exact .inr ⟨m, by simp, h.2.1⟩
    · rcases ih h.2 hi with hy | ⟨m, hm, hf⟩
      · exact .inl hy
      · exact .inr ⟨m, mem_cons_of_mem _ hm, hf⟩

theorem Path.congr (h : Path f w l y) (hx : f' x = f w) (hl : ∀ i ∈ l, f' (.cell i) = f (.cell i)) :
    Path f' x l y := by
  induction l generalizing w x with
  | nil => exact hx.trans h
  | cons i l ih =>
    refine ⟨hx.trans h.1, ih h.2 (hl i mem_cons_self) ?_⟩
    intro j hj
    exact hl j (mem_cons_of_mem _ hj)

theorem Path.erase [DecidableEq ι] {z : Place κ ι} (h : Path f x l y) (hl : l.Nodup) (hz : ∀ w, f w = .cell i ↔ w = z)
    (hx : x ≠ .cell i) (hy : y ≠ .cell i) (hz' : z ≠ .cell i → f' z = f (.cell i))
    (hf' : ∀ w, w ≠ z → w ≠ .cell i → f' w = f w) : Path f' x (l.erase i) y := by
  induction l generalizing x with
  | nil =>
    have hxz : x ≠ z := fun hxz => hy (h.symm.trans ((hz x).2 hxz))
    exact (hf' x hxz hx).trans h
  | cons j l ih =>
    obtain ⟨hj, hl⟩ := nodup_cons.1 hl
    by_cases hji : j = i
    · subst hji
      obtain rfl : x = z := (hz x).1 h.1
      rw [erase_cons_head]
      apply h.2.congr (hz' hx)
      intro m hm
      -- a later cell that leads to the removed one would make it occur twice
      have hmx : (.cell m : Place κ ι) ≠ x := by
        intro hmx
        have hm' := (hz (.cell m)).2 hmx
        rcases h.2.next_mem hm with hy' | ⟨n, hn, hn'⟩
        · exact hy (hy'.symm.trans hm')
        · rw [hm', Place.cell.injEq] at hn'
          exact hj (hn' ▸ hn)
      exact hf' _ hmx (by simpa using ne_of_mem_of_not_mem hm hj)
    · rw [erase_cons_tail (by simpa using hji)]
      have hxz : x ≠ z := by
        intro hxz
        have hxi := (hz x).2 hxz
        rw [h.1, Place.cell.injEq] at hxi
        exact hji hxi
      exact ⟨(hf' x hxz hx).trans h.1, ih h.2 hl (by simpa using hji)⟩

namespace Ring

variable {r : Ring κ ι} {k : κ} {ls : κ → List ι}

/-- The first cell from `x` on that passes the test, before the head `k` is met again.
There is no result when the fuel is used up or another head is met. -/
def find (r : Ring κ ι) [DecidableEq κ] (k : κ) (test : ι → Bool) : ℕ → Place κ ι → Option (Option ι)
  | _, .head k' => if k' = k then some none else none
  | 0, .cell _ => none
  | fuel + 1, .cell i => if test i then some (some i) else r.find k test fuel (r.forw (.cell i))

theorem find_path [DecidableEq κ] (test : ι → Bool) {fuel : ℕ} (h : Path r.forw x l (.head k))
    (hl : l.length ≤ fuel) : r.find k test fuel (r.forw x) = some (l.find? test) := by
  induction l generalizing x fuel with
  | nil =>
    rw [show r.forw x = .head k from h]
    cases fuel <;> simp [find]
  | cons i l ih =>
    obtain ⟨fuel, rfl⟩ : ∃ n, fuel = n + 1 := Nat.exists_eq_succ_of_ne_zero (by simp at hl; omega)
    rw [h.1, find, List.find?_cons]
    cases htest : test i with
    | true => rfl
    | false => exact ih h.2 (Nat.le_of_succ_le_succ hl)

/-- The lists of the heads, with every other cell linked to itself. -/
structure Holds (r : Ring κ ι) (ls : κ → List ι) : Prop where
  back : ∀ x y, r.forw x = y ↔ r.back y = x
  path : ∀ k, Path r.forw (.head k) (ls k) (.head k)
  nodup : ∀ k, (ls k).Nodup
  apart : ∀ k k' i, i ∈ ls k → i ∈ ls k' → k = k'
  alone : ∀ i, (∀ k, i ∉ ls k) → r.forw (.cell i) = .cell i

theorem Holds.back_forw (h : r.Holds ls) (x : Place κ ι) : r.back (r.forw x) = x := (h.back x _).1 rfl

theorem Holds.forw_back (h : r.Holds ls) (x : Place κ ι) : r.forw (r.back x) = x := (h.back _ x).2 rfl

theorem Holds.find [DecidableEq κ] [Fintype ι] (h : r.Holds ls) (k : κ) (test : ι → Bool) :
    r.find k test (Fintype.card ι) (r.forw (.head k)) = some ((ls k).find? test) :=
  find_path test (h.path k) (h.nodup k).length_le_card

variable [DecidableEq κ] [DecidableEq ι]

def remque (r : Ring κ ι) (e : Place κ ι) : Ring κ ι :=
  let r := { r with forw := update r.forw (r.back e) (r.forw e) }
  { r with back := update r.back (r.forw e) (r.back e) }

def insque (r : Ring κ ι) (e prev : Place κ ι) : Ring κ ι :=
  let r := { r with back := update r.back e prev }
  let r := { r with forw := update r.forw e (r.forw prev) }
  let r := { r with back := update r.back (r.forw prev) e }
  { r with forw := update r.forw prev e }

def selfLink (r : Ring κ ι) (e : Place κ ι) : Ring κ ι :=
  { forw := update r.forw e e, back := update r.back e e }

variable {prev e : Place κ ι}

/-- What the links of the inserted element were does not matter. -/
theorem insque_selfLink (r : Ring κ ι) (h : prev ≠ e) :
    (r.selfLink e).insque e prev = r.insque e prev := by
  simp [insque, selfLink, h]

theorem remque_selfLink_forw (r : Ring κ ι) (e x : Place κ ι) :
    ((r.remque e).selfLink e).forw x = if x = e then e else if x = r.back e then r.forw e else r.forw x := by
  simp [remque, selfLink, update_apply]

theorem remque_selfLink_back (r : Ring κ ι) (e x : Place κ ι) :
    ((r.remque e).selfLink e).back x = if x = e then e else if x = r.forw e then r.back e else r.back x := by
  by_cases hself : e = r.back e
  · simp [remque, selfLink, update_apply]
  · simp [remque, selfLink, update_apply]

theorem insque_forw (r : Ring κ ι) (h : prev ≠ e) (x : Place κ ι) :
    (r.insque e prev).forw x = if x = prev then e else if x = e then r.forw prev else r.forw x := by
  simp [insque, update_apply]

theorem insque_back (r : Ring κ ι) (h : prev ≠ e) (x : Place κ ι) :
    (r.insque e prev).back x = if x = r.forw prev then e else if x = e then prev else r.back x := by
  simp [insque, update_apply]

theorem Holds.remove (h : r.Holds ls) (i : ι) :
    ((r.remque (.cell i)).selfLink (.cell i)).Holds fun k => (ls k).erase i where
  back x y := by
    rw [remque_selfLink_forw, remque_selfLink_back]
    have hback := h.back_forw
    have hforw := h.forw_back
    grind
  path k := by
    have hz : ∀ w, r.forw w = .cell i ↔ w = r.back (.cell i) := fun w => (h.back w _).trans eq_comm
    refine (h.path k).erase (h.nodup k) hz (by simp) (by simp) ?_ ?_
    · intro hne
      rw [remque_selfLink_forw, if_neg hne, if_pos rfl]
    · intro w hw hwi
      rw [remque_selfLink_forw, if_neg hwi, if_neg hw]
  nodup k := (h.nodup k).erase i
  apart k k' j hj hj' := h.apart k k' j (mem_of_mem_erase hj) (mem_of_mem_erase hj')
  alone j hj := by
    rw [remque_selfLink_forw]
    by_cases hji : j = i
    · rw [hji, if_pos rfl]
    · have halone : r.forw (.cell j) = .cell j :=
        h.alone j fun k hjk => hj k ((mem_erase_of_ne hji).2 hjk)
      rw [if_neg (by simpa using hji), if_neg, halone]
      intro hz
      have hji' := (h.back _ _).2 hz.symm
      rw [halone, Place.cell.injEq] at hji'
      exact hji hji'

theorem Holds.insert (h : r.Holds ls) (hi : ∀ k, i ∉ ls k) (k : κ) :
    (r.insque (.cell i) (.head k)).Holds (update ls k (i :: ls k)) where
  back x y := by
    have hne : (.head k : Place κ ι) ≠ .cell i := by simp
    rw [insque_forw r hne, insque_back r hne]
    have hback := h.back_forw
    have hforw := h.forw_back
    have halone := h.alone i hi
    grind
  path k' := by
    have hforw := insque_forw r (by simp : (.head k : Place κ ι) ≠ .cell i)
    have hother : ∀ k', ∀ j ∈ ls k', (r.insque (.cell i) (.head k)).forw (.cell j) = r.forw (.cell j) := by
      intro k' j hj
      rw [hforw, if_neg (by simp), if_neg]
      simpa using ne_of_mem_of_not_mem hj (hi k')
    by_cases hk : k' = k
    · subst hk
      rw [update_self]
      refine ⟨by rw [hforw, if_pos rfl], (h.path k').congr ?_ (hother k')⟩
      rw [hforw, if_neg (by simp), if_pos rfl]
    · rw [update_of_ne hk]
      refine (h.path k').congr ?_ (hother k')
      rw [hforw, if_neg (by simpa using hk), if_neg (by simp)]
  nodup k' := by
    rw [update_apply]
    split_ifs
    · exact nodup_cons.2 ⟨hi k, h.nodup k⟩
    · exact h.nodup k'
  apart := Cells.apart_update h.apart fun j hj => by
    rcases mem_cons.1 hj with rfl | hj
    · exact .inr hi
    · exact .inl hj
  alone j hj := by
    have hjk : ∀ k', j ∉ ls k' := by
      intro k' hjk
      have hj' := hj k'
      rw [update_apply] at hj'
      split_ifs at hj' with hk
      · exact hj' (mem_cons_of_mem _ (hk ▸ hjk))
      · exact hj' hjk
    have hji : j ≠ i := by
      rintro rfl
      have hj' := hj k
      rw [update_self] at hj'
      exact hj' mem_cons_self
    rw [insque_forw r (by simp), if_neg (by simp), if_neg (by simpa using hji)]
    exact h.alone j hjk

/-- The order of the calls when a cell changes its list: its links are written by the
insertion, so that it need not be linked to itself in between. -/
theorem Holds.move (h : r.Holds ls) (i : ι) (k : κ) :
    ((r.remque (.cell i)).insque (.cell i) (.head k)).Holds
      (update (fun k => (ls k).erase i) k (i :: (ls k).erase i)) := by
  rw [← insque_selfLink _ (by simp)]
  exact (h.remove i).insert (fun k => (h.nodup k).not_mem_erase) k

end Ring

/-! ### Hash tables on circular lists -/

namespace Ring

variable {K : Type*} {r : Ring κ ι} {ls : κ → List ι} {hash : K → κ} {key key' : ι → K} {x : K}

/-- The lists are the chains of a hash table, in which no two cells have the same key. -/
structure Hashed (r : Ring κ ι) (hash : K → κ) (key : ι → K) (ls : κ → List ι) : Prop extends r.Holds ls where
  hashed : ∀ k, ∀ i ∈ ls k, hash (key i) = k
  unique : ∀ k, ∀ i ∈ ls k, ∀ j ∈ ls k, key i = key j → i = j

theorem Hashed.eq_of_key_eq {k k' : κ} {i j : ι} (h : r.Hashed hash key ls) (hi : i ∈ ls k) (hj : j ∈ ls k')
    (hkey : key i = key j) : i = j := by
  have hk : k = k' := by rw [← h.hashed k i hi, hkey, h.hashed k' j hj]
  exact h.unique k i hi j (hk ▸ hj) hkey

theorem Hashed.congr (h : r.Hashed hash key ls) (hkey : ∀ i, key' i = key i) : r.Hashed hash key' ls := by
  rwa [show key' = key from funext hkey]

theorem Hashed.find [DecidableEq κ] [Fintype ι] (h : r.Hashed hash key ls) {test : ι → Bool}
    (htest : ∀ i, test i = true ↔ key i = x) :
    (r.find (hash x) test (Fintype.card ι) (r.forw (.head (hash x))) = some none ∧ ∀ j ∈ ls (hash x), key j ≠ x) ∨
      ∃ i ∈ ls (hash x), key i = x ∧
        r.find (hash x) test (Fintype.card ι) (r.forw (.head (hash x))) = some (some i) := by
  rw [h.toHolds.find]
  cases hfind : (ls (hash x)).find? test with
  | none =>
    refine .inl ⟨rfl, fun j hj hkey => ?_⟩
    exact List.find?_eq_none.1 hfind j hj ((htest j).2 hkey)
  | some i => exact .inr ⟨i, mem_of_find?_eq_some hfind, (htest i).1 (List.find?_some hfind), rfl⟩

variable [DecidableEq κ] [DecidableEq ι]

theorem Hashed.remove (h : r.Hashed hash key ls) (i : ι) (hkey : ∀ j, j ≠ i → key' j = key j) :
    ((r.remque (.cell i)).selfLink (.cell i)).Hashed hash key' fun k => (ls k).erase i where
  toHolds := h.toHolds.remove i
  hashed k j hj := by
    obtain ⟨hji, hj⟩ := ((h.nodup k).mem_erase_iff).1 hj
    rw [hkey j hji, h.hashed k j hj]
  unique k j hj m hm heq := by
    obtain ⟨hji, hj⟩ := ((h.nodup k).mem_erase_iff).1 hj
    obtain ⟨hmi, hm⟩ := ((h.nodup k).mem_erase_iff).1 hm
    rw [hkey j hji, hkey m hmi] at heq
    exact h.unique k j hj m hm heq

theorem Hashed.move (h : r.Hashed hash key ls) (i : ι) (hx : ∀ j ∈ ls (hash x), key j ≠ x)
    (hi : key' i = x) (hkey : ∀ j, j ≠ i → key' j = key j) :
    ((r.remque (.cell i)).insque (.cell i) (.head (hash x))).Hashed hash key'
      (update (fun k => (ls k).erase i) (hash x) (i :: (ls (hash x)).erase i)) where
  toHolds := h.toHolds.move i (hash x)
  hashed k j hj := by
    have hrest := (h.remove i hkey).hashed
    rw [update_apply] at hj
    split_ifs at hj with hk
    · rcases mem_cons.1 hj with rfl | hj
      · rw [hi, hk]
      · rw [hk]
        exact hrest _ j hj
    · exact hrest k j hj
  unique k j hj m hm heq := by
    have hrest := (h.remove i hkey).unique
    have hnew : ∀ m ∈ (ls (hash x)).erase i, key' m ≠ x := by
      intro m hm
      obtain ⟨hmi, hm⟩ := ((h.nodup _).mem_erase_iff).1 hm
      rw [hkey m hmi]
      exact hx m hm
    rw [update_apply] at hj hm
    split_ifs at hj hm with hk
    · rcases mem_cons.1 hj with rfl | hj
      · rcases mem_cons.1 hm with rfl | hm
        · rfl
        · exact absurd (heq.symm.trans hi) (hnew m hm)
      · rcases mem_cons.1 hm with rfl | hm
        · exact absurd (heq.trans hi) (hnew j hj)
        · exact hrest _ j hj m hm heq
    · exact hrest k j hj m hm heq

end Ring

end LinkedList
