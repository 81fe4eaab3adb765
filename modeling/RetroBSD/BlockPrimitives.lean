import RetroBSD.PathExpansion

/-!
# Copying, clearing and comparing blocks

`bcopy`, `bzero` and `bcmp` of pic32/machdep.c. Clearing no bytes at an address that is not
that of a word takes one from the count before it is looked at.
-/

namespace RetroBSD.Machdep

open ByteCopy Namei Function Nat

def rounds (body : Memory → ℕ → Memory) (w : ℕ) : ℕ → Memory → ℕ → Memory
  | 0, m, _ => m
  | k + 1, m, dst => rounds body w k (body m dst) (dst + w)

def zeroBytes : ℕ → Memory → ℕ → Memory := rounds (fun m dst => update m dst 0) 1

def zeroWords : ℕ → Memory → ℕ → Memory := rounds (fun m dst => place m dst [0, 0, 0, 0]) 4

def zeroQuads : ℕ → Memory → ℕ → Memory := rounds (zeroWords 4) 16

def bzeroAligned (m : Memory) (dst nbytes : ℕ) : Memory :=
  if 4 ≤ nbytes then
    let quads := nbytes / 16
    let words := nbytes % 16 / 4
    let m := zeroQuads quads m dst
    let m := zeroWords words m (dst + 16 * quads)
    zeroBytes (nbytes % 4) m (dst + 16 * quads + 4 * words)
  else zeroBytes nbytes m dst

/-- `--nbytes` of a `size_t`. -/
def pred (nbytes : ℕ) : ℕ := (nbytes + 4294967295) % 4294967296

/-- `bzero`: the first loop goes on to the address of a word. -/
def bzero (m : Memory) (dst nbytes : ℕ) : Memory :=
  if dst % 4 = 0 then bzeroAligned m dst nbytes
  else if pred nbytes = 0 then update m dst 0
  else bzero (update m dst 0) (dst + 1) (pred nbytes)
termination_by (4 - dst % 4) % 4
decreasing_by omega

def bcmpBytes (m : Memory) : ℕ → ℕ → ℕ → ℤ
  | 0, _, _ => 0
  | n + 1, s1, s2 => if m s1 ≠ m s2 then (m s1).toNat - (m s2).toNat else bcmpBytes m n (s1 + 1) (s2 + 1)

def bcmpWords (m : Memory) (s1 s2 nbytes : ℕ) : ℤ :=
  if 4 ≤ nbytes ∧ bytes m s1 4 = bytes m s2 4 then bcmpWords m (s1 + 4) (s2 + 4) (nbytes - 4)
  else bcmpBytes m nbytes s1 s2
termination_by nbytes
decreasing_by omega

def bcmp (m : Memory) (s1 s2 nbytes : ℕ) : ℤ :=
  if 16 ≤ nbytes ∧ s1 % 4 = 0 ∧ s2 % 4 = 0 then bcmpWords m s1 s2 nbytes else bcmpBytes m nbytes s1 s2

variable {m : Memory} {dst s1 s2 n : ℕ}

/-! ## Clearing -/

def Cleared (m : Memory) (dst n : ℕ) : Memory := place m dst (List.replicate n 0)

variable (m : Memory)

theorem cleared_zero (dst : ℕ) : Cleared m dst 0 = m := by
  funext a
  simp [Cleared, place]

theorem cleared_add (dst n k : ℕ) :
    Cleared (Cleared m dst n) (dst + n) k = Cleared m dst (n + k) := by
  have happend := place_append m dst (List.replicate n 0) (List.replicate k 0)
  rw [List.length_replicate, List.replicate_append_replicate] at happend
  exact happend

theorem cleared_one (dst : ℕ) : update m dst 0 = Cleared m dst 1 := by
  funext a
  rcases lt_trichotomy a dst with h | rfl | h
  · rw [update_of_ne (by omega), Cleared, place_of_lt h]
  · simp [Cleared, place]
  · rw [update_of_ne (by omega), Cleared, place_of_le (by rw [List.length_replicate]; omega)]

theorem rounds_cleared {body : Memory → ℕ → Memory} {w : ℕ} (hbody : ∀ m dst, body m dst = Cleared m dst w)
    (k : ℕ) (m : Memory) (dst : ℕ) : rounds body w k m dst = Cleared m dst (w * k) := by
  induction k generalizing m dst with
  | zero => exact (cleared_zero m dst).symm
  | succ k ih => rw [rounds, ih, hbody, cleared_add, Nat.add_comm w, ← Nat.mul_succ]

theorem zeroBytes_cleared (n : ℕ) (m : Memory) (dst : ℕ) : zeroBytes n m dst = Cleared m dst n := by
  rw [zeroBytes, rounds_cleared cleared_one, Nat.one_mul]

theorem zeroWords_cleared (k : ℕ) (m : Memory) (dst : ℕ) : zeroWords k m dst = Cleared m dst (4 * k) :=
  rounds_cleared (w := 4) (fun _ _ => rfl) k m dst

theorem zeroQuads_cleared (k : ℕ) (m : Memory) (dst : ℕ) : zeroQuads k m dst = Cleared m dst (16 * k) :=
  rounds_cleared (zeroWords_cleared 4) k m dst

theorem bzeroAligned_cleared (dst n : ℕ) : bzeroAligned m dst n = Cleared m dst n := by
  rw [bzeroAligned]
  split_ifs
  · dsimp only
    rw [zeroQuads_cleared, zeroWords_cleared, zeroBytes_cleared, cleared_add, cleared_add,
      show 16 * (n / 16) + (4 * (n % 16 / 4) + n % 4) = n by omega]
  · exact zeroBytes_cleared n m dst

theorem bzero_cleared (dst : ℕ) (hn : n < 4294967296) (h : n = 0 → dst % 4 = 0) :
    bzero m dst n = Cleared m dst n := by
  fun_induction bzero m dst n with
  | case1 m dst n => exact bzeroAligned_cleared m dst n
  | case2 m dst n hdst hlast =>
    obtain rfl : n = 1 := by
      rw [pred] at hlast
      omega
    exact cleared_one m dst
  | case3 m dst n hdst hmore ih =>
    have hpred : pred n = n - 1 := by
      rw [pred]
      omega
    rw [hpred] at hmore ih
    rw [hpred, ih (by omega) (fun h => absurd h hmore), cleared_one, cleared_add, show 1 + (n - 1) = n by omega]

/-- With a count of zero the count underflows. -/
theorem bzero_underflow (h : dst % 4 ≠ 0) : bzero m dst 0 = Cleared m dst 4294967296 := by
  rw [bzero, if_neg h, if_neg (by decide), show pred 0 = 4294967295 from rfl,
    bzero_cleared _ _ (by omega) (by omega), cleared_one, cleared_add]

/-! ## Comparing -/

/-- `r` says how the `n` bytes from `s1` on compare with those from `s2` on. -/
def Compares (m : Memory) (s1 s2 n : ℕ) (r : ℤ) : Prop :=
  (r = 0 ↔ ∀ i < n, m (s1 + i) = m (s2 + i)) ∧
    ∀ i < n, (∀ j < i, m (s1 + j) = m (s2 + j)) → m (s1 + i) ≠ m (s2 + i) →
      r.sign = ((m (s1 + i)).toNat - (m (s2 + i)).toNat : ℤ).sign

theorem bcmpBytes_compares (n s1 s2 : ℕ) : Compares m s1 s2 n (bcmpBytes m n s1 s2) := by
  induction n generalizing s1 s2 with
  | zero => exact ⟨by simp [bcmpBytes], fun i hi => absurd hi (not_lt_zero i)⟩
  | succ n ih =>
    rw [bcmpBytes]
    split_ifs with hne
    · have hdiff : ((m s1).toNat - (m s2).toNat : ℤ) ≠ 0 := by
        intro h
        exact hne (UInt8.toNat_inj.1 (by omega))
      refine ⟨⟨fun h => absurd h hdiff, fun h => absurd (h 0 (succ_pos n)) hne⟩, fun i _ hbefore _ => ?_⟩
      rcases i.eq_zero_or_pos with rfl | hi
      · rfl
      · exact absurd (hbefore 0 hi) hne
    · have heq := not_ne_iff.1 hne
      obtain ⟨hzero, hsign⟩ := ih (s1 + 1) (s2 + 1)
      simp only [Nat.add_assoc, Nat.add_comm 1] at hzero hsign
      refine ⟨hzero.trans ⟨fun h i hi => ?_, fun h i hi => h (i + 1) (by omega)⟩, fun i hi hbefore hdiff => ?_⟩
      · cases i with
        | zero => exact heq
        | succ i => exact h i (by omega)
      · cases i with
        | zero => exact absurd heq hdiff
        | succ i => exact hsign i (by omega) (fun j hj => hbefore (j + 1) (by omega)) hdiff

theorem bcmpWords_eq (s1 s2 n : ℕ) : bcmpWords m s1 s2 n = bcmpBytes m n s1 s2 := by
  fun_induction bcmpWords m s1 s2 n with
  | case1 s1 s2 n h ih =>
    obtain ⟨k, rfl⟩ := Nat.exists_eq_add_of_le' h.1
    have hword := h.2
    simp only [bytes, List.range', List.map_cons, List.cons.injEq] at hword
    rw [ih]
    simp [bcmpBytes, hword]
  | case2 s1 s2 n h => rfl

theorem bcmp_compares (s1 s2 n : ℕ) : Compares m s1 s2 n (bcmp m s1 s2 n) := by
  rw [bcmp, bcmpWords_eq, ite_self]
  exact bcmpBytes_compares m n s1 s2

/-! ## All three -/

/-- The three are exact unless no bytes are to be cleared at an address that is not that of a word. -/
theorem primitives_exact_iff (dst n : ℕ) (hn : n < 2 ^ 32) :
    (∀ m, bzero m dst n = Cleared m dst n ∧
      (∀ src, src + n ≤ dst ∨ dst + n ≤ src → bcopy m src dst n = copy m src m dst n) ∧
      ∀ s1, Compares m s1 dst n (bcmp m s1 dst n)) ↔ (n = 0 → dst % 4 = 0) := by
  constructor
  · rintro h rfl
    by_contra hdst
    have hall := congrFun (h fun _ => 1).1 dst
    rw [bzero_underflow _ hdst, cleared_zero, Cleared, place, if_pos le_rfl, Nat.sub_self] at hall
    exact absurd hall (by decide)
  · intro h m
    refine ⟨bzero_cleared m dst hn h, fun src hsrc => ?_, fun s1 => bcmp_compares m s1 dst n⟩
    rw [bcopy_eq_forward, forward_of_disjoint hsrc]

theorem primitives_exact_five : bzero (fun _ => 1) 3 5 = Cleared (fun _ => 1) 3 5 :=
  ((primitives_exact_iff 3 5 (by decide)).2 (by decide) fun _ => 1).1

/-- Clearing no bytes clears the byte at `dst`. -/
theorem bzero_clears_none : bzero (fun _ => 1) 1 0 1 = 0 ∧ Cleared (fun _ => 1) 1 0 1 = 1 := by
  constructor
  · rw [bzero_underflow _ (by decide)]
    rfl
  · rw [cleared_zero]

end RetroBSD.Machdep
