import Mathlib

/-!
# 32-bit little-endian words in byte memory

A memory gives each offset a byte. Word `i` occupies the bytes `4 * i` to
`4 * i + 3`, least significant first. Words written are read back modulo `2 ^ 32`
and leave the other words alone. `toBytes` and `ofBytes` are the same for numbers of
any width in a list of bytes.
-/

namespace LittleEndian

abbrev Memory := ℕ → UInt8

def wordMod : ℕ := 2 ^ 32

def word (m : Memory) (i : ℕ) : ℕ :=
  (m (4 * i)).toNat + 2 ^ 8 * (m (4 * i + 1)).toNat + 2 ^ 16 * (m (4 * i + 2)).toNat +
    2 ^ 24 * (m (4 * i + 3)).toNat

/-- Writes the words `w 0, …, w (n - 1)` to the front of the memory. -/
def setWords (m : Memory) (n : ℕ) (w : ℕ → ℕ) : Memory := fun j =>
  if j / 4 < n then UInt8.ofNat (w (j / 4) / 256 ^ (j % 4)) else m j

def setWord (m : Memory) (i v : ℕ) : Memory := fun j =>
  if j / 4 = i then UInt8.ofNat (v / 256 ^ (j % 4)) else m j

def signed (w : ℕ) : ℤ := if w < 2 ^ 31 then w else w - 2 ^ 32

theorem word_congr {m m' : Memory} {i : ℕ} (h : ∀ j, j / 4 = i → m j = m' j) :
    word m i = word m' i := by
  unfold word
  rw [h (4 * i) (by omega), h (4 * i + 1) (by omega), h (4 * i + 2) (by omega),
    h (4 * i + 3) (by omega)]

theorem word_bytes {m : Memory} {i v : ℕ}
    (h : ∀ j, j / 4 = i → m j = UInt8.ofNat (v / 256 ^ (j % 4))) : word m i = v % wordMod := by
  unfold word wordMod
  rw [h (4 * i) (by omega), h (4 * i + 1) (by omega), h (4 * i + 2) (by omega),
    h (4 * i + 3) (by omega)]
  norm_num
  omega

theorem word_lt (m : Memory) (i : ℕ) : word m i < wordMod := by
  have h := fun j => (m j).toNat_lt
  have h0 := h (4 * i)
  have h1 := h (4 * i + 1)
  have h2 := h (4 * i + 2)
  have h3 := h (4 * i + 3)
  unfold word wordMod
  omega

@[simp] theorem word_zero (i : ℕ) : word (fun _ => 0) i = 0 := rfl

theorem word_setWords (m : Memory) (n : ℕ) (w : ℕ → ℕ) (i : ℕ) :
    word (setWords m n w) i = if i < n then w i % wordMod else word m i := by
  split_ifs with h
  · apply word_bytes
    intro j hj
    rw [setWords, hj, if_pos h]
  · apply word_congr
    intro j hj
    rw [setWords, hj, if_neg h]

theorem word_setWord (m : Memory) (i v k : ℕ) :
    word (setWord m i v) k = if k = i then v % wordMod else word m k := by
  split_ifs with h
  · subst h
    apply word_bytes
    intro j hj
    rw [setWord, if_pos hj]
  · apply word_congr
    intro j hj
    rw [setWord, if_neg (by rw [hj]; exact h)]

theorem signed_of_lt {w : ℕ} (h : w < 2 ^ 31) : signed w = w := if_pos h

def toBytes : ℕ → ℕ → List UInt8
  | 0, _ => []
  | n + 1, v => UInt8.ofNat v :: toBytes n (v / 256)

def ofBytes : List UInt8 → ℕ
  | [] => 0
  | b :: bs => b.toNat + 256 * ofBytes bs

@[simp] theorem length_toBytes (n v : ℕ) : (toBytes n v).length = n := by
  induction n generalizing v with
  | zero => rfl
  | succ n ih => rw [toBytes, List.length_cons, ih]

theorem ofBytes_toBytes {n v : ℕ} (h : v < 256 ^ n) : ofBytes (toBytes n v) = v := by
  induction n generalizing v with
  | zero =>
    rw [toBytes, ofBytes]
    omega
  | succ n ih =>
    have hdiv : v / 256 < 256 ^ n := Nat.div_lt_of_lt_mul (by rwa [pow_succ'] at h)
    rw [toBytes, ofBytes, ih hdiv, UInt8.toNat_ofNat']
    omega

end LittleEndian
