import RetroBSD.ByteCopy

/-!
# Copies within one memory, upwards

A copy that goes upwards reads what it wrote itself once it comes to its destination. When
the destination is behind the source it repeats the bytes between the two.
-/

namespace ByteCopy

open Function Nat

variable {α : Type*} {m : ℕ → α} {src dst n : ℕ}

def forward : ℕ → (ℕ → α) → ℕ → ℕ → ℕ → α
  | 0, m, _, _ => m
  | n + 1, m, src, dst => forward n (update m dst (m src)) (src + 1) (dst + 1)

theorem forward_add (n k : ℕ) (m : ℕ → α) (src dst : ℕ) :
    forward (n + k) m src dst = forward k (forward n m src dst) (src + n) (dst + n) := by
  induction n generalizing m src dst with
  | zero => rw [Nat.zero_add, Nat.add_zero, Nat.add_zero, forward]
  | succ n ih =>
    rw [Nat.succ_add, forward, ih, Nat.add_right_comm src, Nat.add_right_comm dst]
    rfl

theorem forward_succ (n : ℕ) (m : ℕ → α) (src dst : ℕ) :
    forward (n + 1) m src dst = update (forward n m src dst) (dst + n) (forward n m src dst (src + n)) := by
  rw [forward_add n 1]
  rfl

theorem forward_of_le (h : dst ≤ src) (n : ℕ) : forward n m src dst = copy m src m dst n := by
  induction n with
  | zero =>
    funext a
    rw [forward, copy, if_neg (by omega)]
  | succ n ih =>
    funext a
    rw [forward_succ, ih]
    by_cases ha : a = dst + n
    · subst ha
      rw [update_self, copy, if_neg (by omega), copy, if_pos (by omega), Nat.add_sub_cancel_left]
    · rw [update_of_ne ha, copy, copy]
      by_cases hin : dst ≤ a ∧ a < dst + n
      · rw [if_pos hin, if_pos (by omega)]
      · rw [if_neg hin, if_neg (by omega)]

/-- A copy to a higher address repeats the bytes in front of its destination. -/
theorem forward_of_lt (h : src < dst) (n a : ℕ) :
    forward n m src dst a =
      if dst ≤ a ∧ a < dst + n then m (src + (a - dst) % (dst - src)) else m a := by
  induction n generalizing a with
  | zero => rw [forward, if_neg (by omega)]
  | succ n ih =>
    rw [forward_succ]
    by_cases ha : a = dst + n
    · subst ha
      rw [update_self, ih, Nat.add_sub_cancel_left]
      by_cases hn : src + n < dst
      · rw [if_neg (by omega), if_pos (by omega), mod_eq_of_lt (by omega)]
      · -- The byte to be copied was written by the copy itself.
        rw [if_pos (by omega), if_pos (by omega), show src + n - dst = n - (dst - src) by omega,
          ← mod_eq_sub_mod (by omega)]
    · rw [update_of_ne ha, ih]
      by_cases hin : dst ≤ a ∧ a < dst + n
      · rw [if_pos hin, if_pos (by omega)]
      · rw [if_neg hin, if_neg (by omega)]

theorem forward_of_outside {a : ℕ} (h : a < dst ∨ dst + n ≤ a) : forward n m src dst a = m a := by
  rcases lt_or_ge src dst with hlt | hge
  · rw [forward_of_lt hlt, if_neg (by omega)]
  · rw [forward_of_le hge, copy, if_neg (by omega)]

theorem forward_of_disjoint (h : src + n ≤ dst ∨ dst + n ≤ src) : forward n m src dst = copy m src m dst n := by
  rcases h with h | h
  · rcases lt_or_ge src dst with hlt | hge
    · funext a
      rw [forward_of_lt hlt, copy]
      by_cases ha : dst ≤ a ∧ a < dst + n
      · rw [if_pos ha, if_pos ha, mod_eq_of_lt (by omega)]
      · rw [if_neg ha, if_neg ha]
    · exact forward_of_le hge n
  · exact forward_of_le (by omega) n

/-- A word is read as a whole and then written. -/
def copyWord (m : ℕ → α) (src dst : ℕ) : ℕ → α := copy m src m dst 4

theorem copyWord_eq_forward (hsrc : src % 4 = 0) (hdst : dst % 4 = 0) : copyWord m src dst = forward 4 m src dst := by
  rcases lt_or_ge src dst with h | h
  · rw [copyWord, forward_of_disjoint (by omega)]
  · rw [copyWord, forward_of_le h]

end ByteCopy
