import RetroBSD.ForwardCopy

/-!
# Expansion of a symbolic link in a path

`namei` (kernel/ufs_namei.c) moves the rest of the path behind the place for the text of the
link and copies the text in front of it, both with the `bcopy` of pic32/machdep.c. The rest
is moved within the buffer, and `bcopy` goes upwards.
-/

namespace RetroBSD.Namei

open ByteCopy

abbrev Memory := ℕ → UInt8

def maxpathlen : ℕ := 256

/-- `strlen`, for a string that ends in a path buffer. -/
def strlen (m : Memory) (s : ℕ) : ℕ := (List.range maxpathlen).findIdx fun k => m (s + k) = 0

def copyWords : ℕ → Memory → ℕ → ℕ → Memory
  | 0, m, _, _ => m
  | k + 1, m, src, dst => copyWords k (copyWord m src dst) (src + 4) (dst + 4)

def copyQuads : ℕ → Memory → ℕ → ℕ → Memory
  | 0, m, _, _ => m
  | k + 1, m, src, dst => copyQuads k (copyWords 4 m src dst) (src + 16) (dst + 16)

def bcopy (m : Memory) (src0 dst0 nbytes : ℕ) : Memory :=
  if 16 ≤ nbytes ∧ src0 % 4 = 0 ∧ dst0 % 4 = 0 then
    let quads := nbytes / 16
    let words := nbytes % 16 / 4
    let m := copyQuads quads m src0 dst0
    let m := copyWords words m (src0 + 16 * quads) (dst0 + 16 * quads)
    forward (nbytes % 4) m (src0 + 16 * quads + 4 * words) (dst0 + 16 * quads + 4 * words)
  else forward nbytes m src0 dst0

/-- The check of the length and the two copies. The block of the link is at `addr`. -/
def expandLink (m : Memory) (path cp addr iSize : ℕ) : Option Memory :=
  let pathlen := strlen m cp + 1
  if maxpathlen - 1 ≤ (iSize + pathlen) % 2 ^ 32 then none
  else some (bcopy (bcopy m cp (path + iSize) pathlen) addr path iSize)

variable {m : Memory} {src dst path cp addr iSize n : ℕ}

/-! ## The copy -/

theorem copyWords_eq_forward (hsrc : src % 4 = 0) (hdst : dst % 4 = 0) (k : ℕ) :
    copyWords k m src dst = forward (4 * k) m src dst := by
  induction k generalizing m src dst with
  | zero => rfl
  | succ k ih =>
    have hsrc' : (src + 4) % 4 = 0 := by omega
    have hdst' : (dst + 4) % 4 = 0 := by omega
    rw [copyWords, copyWord_eq_forward hsrc hdst, ih hsrc' hdst', show 4 * (k + 1) = 4 + 4 * k by omega,
      forward_add]

theorem copyQuads_eq_forward (hsrc : src % 4 = 0) (hdst : dst % 4 = 0) (k : ℕ) :
    copyQuads k m src dst = forward (16 * k) m src dst := by
  induction k generalizing m src dst with
  | zero => rfl
  | succ k ih =>
    have hsrc' : (src + 16) % 4 = 0 := by omega
    have hdst' : (dst + 16) % 4 = 0 := by omega
    rw [copyQuads, copyWords_eq_forward hsrc hdst, ih hsrc' hdst', show 16 * (k + 1) = 4 * 4 + 16 * k by omega,
      forward_add]

/-- Whatever the alignment, the bytes are copied upwards. -/
theorem bcopy_eq_forward (m : Memory) (src dst n : ℕ) : bcopy m src dst n = forward n m src dst := by
  rw [bcopy]
  split_ifs with h
  · obtain ⟨-, hsrc, hdst⟩ := h
    have hquads := copyQuads_eq_forward (m := m) hsrc hdst (n / 16)
    have hwords := copyWords_eq_forward (m := forward (16 * (n / 16)) m src dst)
      (show (src + 16 * (n / 16)) % 4 = 0 by omega) (show (dst + 16 * (n / 16)) % 4 = 0 by omega) (n % 16 / 4)
    have hn : 16 * (n / 16) + (4 * (n % 16 / 4) + n % 4) = n := by omega
    dsimp only
    rw [hquads, hwords, ← forward_add, ← forward_add, hn]
  · rfl

/-! ## The string -/

theorem strlen_spec (h : strlen m cp < maxpathlen) :
    m (cp + strlen m cp) = 0 ∧ ∀ k < strlen m cp, m (cp + k) ≠ 0 := by
  have hlen : (List.range maxpathlen).length = maxpathlen := List.length_range
  constructor
  · have hlt : (List.range maxpathlen).findIdx (fun k => m (cp + k) = 0) < (List.range maxpathlen).length := by
      rw [hlen]
      exact h
    have hfound := List.findIdx_getElem (w := hlt)
    rw [List.getElem_range] at hfound
    exact of_decide_eq_true hfound
  · intro k hk
    have hlt : k < (List.range maxpathlen).findIdx (fun k => m (cp + k) = 0) := hk
    have hnot := List.not_of_lt_findIdx hlt
    exact of_decide_eq_false (by simpa using hnot)

/-! ## The path -/

/-- The buffer has the text of the link and behind it the rest of the old path. -/
def Expanded (m m' : Memory) (path cp addr iSize : ℕ) : Prop :=
  (∀ k < iSize, m' (path + k) = m (addr + k)) ∧ ∀ k ≤ strlen m cp, m' (path + iSize + k) = m (cp + k)

/-- The rest of the path behind the text is what the first copy made of it. -/
theorem expandLink_rest (hblock : addr + iSize ≤ path ∨ path + maxpathlen ≤ addr)
    (hcheck : iSize + strlen m cp + 1 < maxpathlen - 1) :
    ∃ m', expandLink m path cp addr iSize = some m' ∧ (∀ k < iSize, m' (path + k) = m (addr + k)) ∧
      ∀ k ≤ strlen m cp, m' (path + iSize + k) =
        forward (strlen m cp + 1) m cp (path + iSize) (path + iSize + k) := by
  have hmod : (iSize + (strlen m cp + 1)) % 2 ^ 32 = iSize + (strlen m cp + 1) := by
    unfold maxpathlen at hcheck
    omega
  refine ⟨_, by rw [expandLink, hmod, if_neg (by omega)], ?_, ?_⟩
  · intro k hk
    rw [bcopy_eq_forward, bcopy_eq_forward, forward_of_disjoint (by omega), copy, if_pos (by omega),
      Nat.add_sub_cancel_left, forward_of_outside (by omega)]
  · intro k hk
    rw [bcopy_eq_forward, bcopy_eq_forward, forward_of_disjoint (by omega), copy, if_neg (by omega)]

/-- The expansion is right exactly when the rest of the path is not moved upwards over
itself. -/
theorem expandLink_iff (hcp : path ≤ cp) (hbuf : cp + strlen m cp < path + maxpathlen)
    (hblock : addr + iSize ≤ path ∨ path + maxpathlen ≤ addr)
    (hcheck : iSize + strlen m cp + 1 < maxpathlen - 1) :
    (∃ m', expandLink m path cp addr iSize = some m' ∧ Expanded m m' path cp addr iSize) ↔
      path + iSize ≤ cp ∨ cp + strlen m cp + 1 ≤ path + iSize := by
  obtain ⟨m', hrun, htext, hrest⟩ := expandLink_rest hblock hcheck
  have hnul := strlen_spec (show strlen m cp < maxpathlen by omega)
  constructor
  · rintro ⟨m'', hrun', -, hexp⟩
    obtain rfl : m' = m'' := Option.some.inj (hrun.symm.trans hrun')
    by_contra hne
    -- The byte that ends the string is a copy of one in front of it.
    have hlast := hexp (strlen m cp) le_rfl
    rw [hrest _ le_rfl, forward_of_lt (by omega), if_pos (by omega), Nat.add_sub_cancel_left, hnul.1] at hlast
    have hlt : strlen m cp % (path + iSize - cp) < path + iSize - cp := Nat.mod_lt _ (by omega)
    exact hnul.2 _ (by omega) hlast
  · intro hok
    refine ⟨m', hrun, htext, ?_⟩
    intro k hk
    rw [hrest k hk]
    rcases hok with hle | hge
    · rw [forward_of_le hle, copy, if_pos (by omega), Nat.add_sub_cancel_left]
    · rw [forward_of_disjoint (by omega), copy, if_pos (by omega), Nat.add_sub_cancel_left]

/-- The path `a/b` at 0, where `a` is a link with the text `x` at 1000. -/
theorem expandLink_short :
    let m := place (place (fun _ => 0) 0 [97, 47, 98]) 1000 [120]
    strlen m 1 = 2 ∧ ∃ m', expandLink m 0 1 1000 1 = some m' ∧ Expanded m m' 0 1 1000 1 := by
  intro m
  have hlen : strlen m 1 = 2 := by decide +kernel
  have hbuf : 1 + strlen m 1 < 0 + maxpathlen := by
    rw [hlen]
    decide
  have hcheck : 1 + strlen m 1 + 1 < maxpathlen - 1 := by
    rw [hlen]
    decide
  exact ⟨hlen, (expandLink_iff (by decide) hbuf (by decide) hcheck).2 (.inl (by decide))⟩

/-- The path `a/bcdefg` at 0, where `a` is a link with the text `xyz` at 1000: the rest of
the path becomes `/b/b/b/b`. -/
theorem expandLink_overlap :
    let m := place (place (fun _ => 0) 0 [97, 47, 98, 99, 100, 101, 102, 103]) 1000 [120, 121, 122]
    strlen m 1 = 7 ∧ 3 + strlen m 1 + 1 < maxpathlen - 1 ∧
      ¬∃ m', expandLink m 0 1 1000 3 = some m' ∧ Expanded m m' 0 1 1000 3 := by
  intro m
  have hlen : strlen m 1 = 7 := by decide +kernel
  have hbyte : (expandLink m 0 1 1000 3).map (fun m' => m' 5) = some 47 := by decide +kernel
  refine ⟨hlen, by rw [hlen]; decide, ?_⟩
  rintro ⟨m', hrun, -, hrest⟩
  have hthird := hrest 2 (by rw [hlen]; decide)
  rw [hrun] at hbyte
  have hslash : m' 5 = 47 := Option.some.inj hbyte
  exact absurd (hslash.symm.trans hthird) (by decide +kernel)

end RetroBSD.Namei
