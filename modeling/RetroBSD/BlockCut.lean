import RetroBSD.BlockRelease

/-!
# Cutting a tree of blocks

`indirtrunc` keeps the first indices below an indirect block and frees the rest:
every node that covers none of the kept indices is freed once, every other node
stays where it was, and the data blocks that stay are not written.
-/

namespace RetroBSD.Ufs

open LittleEndian RadixTree Nat Set Node

variable {i : ℕ}

theorem mem_entriesAbove {last : ℤ} : i ∈ entriesAbove last ↔ i < nindir ∧ last < i := by
  simp [entriesAbove]

theorem nodup_entriesAbove (last : ℤ) : (entriesAbove last).Nodup :=
  List.nodup_reverse.2 (List.nodup_range.filter _)

theorem word_clearEntries (b : Block) (stop : ℕ) (hi : i < nindir) :
    word (clearEntries b (stop - 1)) i = if i < stop then word b i else 0 := by
  have hlt : ∀ j, j / 4 = i → j < devBsize := by
    simp only [nindir, devBsize] at *
    omega
  split_ifs with h
  · apply word_congr
    intro j hj
    exact if_neg (by omega)
  · rw [← word_zero i]
    apply word_congr
    intro j hj
    exact if_pos ⟨by omega, hlt j hj⟩

section

variable {st : Filsys} {l : List ℕ} {k p base : ℕ} {disk : ℕ → Block}

theorem image_nodes_succ (hp : p ≠ 0) :
    block '' treeNodes disk (k + 1) p base = insert p (block '' treeChildren disk k p base) := by
  have : treeNodes disk (k + 1) p base = insert ⟨k + 1, base, p⟩ (treeChildren disk k p base) := by
    ext n
    exact and_iff_right hp
  rw [this, image_insert_eq]

theorem children_subset (hp : p ≠ 0) :
    treeChildren disk k p base ⊆ treeNodes disk (k + 1) p base := fun _ hn => ⟨hp, .inr hn⟩

variable {n : Node}

theorem children_height (hn : n ∈ treeChildren disk k p base) : n.height ≤ k := by
  obtain ⟨i, _, hi⟩ := hn
  exact (nodes_range hi).1

theorem TreeOk.root_notMem (h : TreeOk st.fs l (treeNodes st.disk (k + 1) p base)) (hp : p ≠ 0) :
    ∀ n ∈ treeChildren st.disk k p base, n.block ≠ p := by
  intro n hn heq
  have hroot : (⟨k + 1, base, p⟩ : Node) ∈ treeNodes st.disk (k + 1) p base := nodes_root hp
  have := children_height hn
  rw [h.inj (children_subset hp hn) hroot heq] at this
  exact absurd this (not_succ_le_self k)

theorem TreeOk.entry_block_ne (h : TreeOk st.fs l (treeNodes st.disk (k + 1) p base)) (hp : p ≠ 0)
    {j : ℕ} {m : Node} (hi : i < nindir) (hj : j < nindir) (hij : i ≠ j)
    (hn : n ∈ treeNodes st.disk k (pointers st.disk p i) (base + i * nindir ^ k))
    (hm : m ∈ treeNodes st.disk k (pointers st.disk p j) (base + j * nindir ^ k)) :
    n.block ≠ m.block := by
  intro heq
  have hnm := h.inj (children_subset hp ⟨i, hi, hn⟩) (children_subset hp ⟨j, hj, hm⟩) heq
  subst hnm
  exact hij (entry_unique nindir_pos hn hm)

variable {x b : ℕ}

theorem release_single (stale : ℕ → Block) (h : st.Consistent l)
    (hT : TreeOk st.fs l (treeNodes st.disk 0 x b)) :
    ∃ l', Released st (if x ≠ 0 then free st x (stale x) else st) l l'
      (block '' treeNodes st.disk 0 x b) (block '' treeNodes st.disk 0 x b) := by
  by_cases hx : x = 0
  · rw [hx]
    exact ⟨l, (Released.refl h).mono (by simp) (by simp)⟩
  · have hroot : (⟨0, b, x⟩ : Node) ∈ treeNodes st.disk 0 x b := nodes_root hx
    have hset : block '' treeNodes st.disk 0 x b = {x} := by
      ext y
      simp [mem_nodes_zero, hx, eq_comm]
    rw [if_pos hx, hset]
    exact ⟨_, free_released h (hT.good _ hroot) (hT.unlisted _ hroot) _⟩

/-- What a call of `indirtrunc` does to the tree below `p` of which it keeps the
first `keep` indices. -/
def Cuts (stale : ℕ → Block) (level : ℕ) : Prop :=
  ∀ (st : Filsys) (l : List ℕ) (p base keep : ℕ), st.Consistent l → p ≠ 0 →
    TreeOk st.fs l (treeNodes st.disk (level + 1) p base) → keep ≤ nindir ^ (level + 1) →
    (∃ l', Released st (indirtrunc stale level st p (keep - 1)) l l'
      (block '' {n ∈ treeChildren st.disk level p base | base + keep ≤ n.start})
      (insert p (block '' {n ∈ treeChildren st.disk level p base |
        0 < n.height ∨ base + keep ≤ n.start}))) ∧
    treeChildren (indirtrunc stale level st p (keep - 1)).disk level p base =
      {n ∈ treeChildren st.disk level p base | n.start < base + keep}

variable {stale : ℕ → Block} {level : ℕ}

theorem release_indirect (hcut : Cuts stale level)
    (h : st.Consistent l) (hT : TreeOk st.fs l (treeNodes st.disk (level + 1) x b)) :
    ∃ l', Released st (if x ≠ 0 then free (indirtrunc stale level st x (-1)) x (stale x) else st)
      l l' (block '' treeNodes st.disk (level + 1) x b)
      (block '' treeNodes st.disk (level + 1) x b) := by
  by_cases hx : x = 0
  · rw [hx]
    exact ⟨l, (Released.refl h).mono (by simp) (by simp)⟩
  · have hroot : (⟨level + 1, b, x⟩ : Node) ∈ treeNodes st.disk (level + 1) x b := nodes_root hx
    obtain ⟨⟨l1, h1⟩, -⟩ := hcut st l x b 0 h hx hT (zero_le _)
    have hall : ∀ n ∈ treeChildren st.disk level x b, b + 0 ≤ n.start := by
      rintro n ⟨j, _, hj⟩
      exact (le_add_right _ _).trans (nodes_range hj).2.1
    have hset : {n ∈ treeChildren st.disk level x b | b + 0 ≤ n.start} =
        treeChildren st.disk level x b := sep_eq_self_iff_mem_true.2 hall
    rw [hset] at h1
    have hnot : x ∉ block '' treeChildren st.disk level x b := by
      rintro ⟨n, hn, heq⟩
      exact hT.root_notMem hx n hn heq
    have hgood : ¬ badblock (indirtrunc stale level st x ((0 : ℕ) - 1)).fs x := by
      rw [h1.badblock]
      exact hT.good _ hroot
    have hl1 : x ∉ l1 := by
      rw [h1.mem]
      exact not_or.2 ⟨hnot, hT.unlisted _ hroot⟩
    have h2 := h1.trans (free_released h1.consistent hgood hl1 (stale x))
    rw [if_pos hx]
    refine ⟨_, h2.mono ?_ ?_⟩
    · rw [image_nodes_succ hx, union_singleton]
    · rw [image_nodes_succ hx]
      apply union_subset
      · exact insert_subset_insert (image_mono fun n hn => hn.1)
      · exact singleton_subset_iff.2 (mem_insert _ _)

def nodesFrom (disk : ℕ → Block) (k p base stop : ℕ) : Set Node :=
  {n | ∃ i, stop ≤ i ∧ i < nindir ∧ n ∈ treeNodes disk k (pointers disk p i) (base + i * nindir ^ k)}

theorem release_entries {body : Filsys → ℕ → Filsys} (stop : ℕ)
    (hbody : ∀ (st' : Filsys) l i, st'.Consistent l →
      TreeOk st'.fs l (treeNodes st'.disk k (pointers st.disk p i) (base + i * nindir ^ k)) →
      ∃ l', Released st' (body st' i) l l'
        (block '' treeNodes st'.disk k (pointers st.disk p i) (base + i * nindir ^ k))
        (block '' treeNodes st'.disk k (pointers st.disk p i) (base + i * nindir ^ k)))
    (h : st.Consistent l) (hp : p ≠ 0) (hT : TreeOk st.fs l (treeNodes st.disk (k + 1) p base))
    {st2 : Filsys} (hst2 : st2 = (entriesAbove (stop - 1)).foldl body
      (st.write p (clearEntries (st.disk p) (stop - 1)))) :
    (∃ l', Released st st2 l l' (block '' nodesFrom st.disk k p base stop)
      (insert p (block '' nodesFrom st.disk k p base stop))) ∧
    (∀ i, i < nindir → pointers st2.disk p i = if i < stop then pointers st.disk p i else 0) ∧
    ∀ i, i < nindir → i < stop → treeNodes st2.disk k (pointers st.disk p i) (base + i * nindir ^ k) =
      treeNodes st.disk k (pointers st.disk p i) (base + i * nindir ^ k) := by
  have hroot : (⟨k + 1, base, p⟩ : Node) ∈ treeNodes st.disk (k + 1) p base := nodes_root hp
  have h1 := write_released h (hT.unlisted _ hroot) (clearEntries (st.disk p) (stop - 1))
  set st1 := st.write p (clearEntries (st.disk p) (stop - 1))
  have hsub : nodesFrom st.disk k p base stop ⊆ treeNodes st.disk (k + 1) p base := by
    rintro n ⟨i, _, hi, hn⟩
    exact children_subset hp ⟨i, hi, hn⟩
  have hsame : ∀ i, i < nindir → treeNodes st1.disk k (pointers st.disk p i) (base + i * nindir ^ k) =
      treeNodes st.disk k (pointers st.disk p i) (base + i * nindir ^ k) := by
    intro i hi
    apply treeNodes_frame h1
    intro n hn
    exact hT.root_notMem hp n ⟨i, hi, hn⟩
  have hentries : entryNodes st1.disk k base (pointers st.disk p) (entriesAbove (stop - 1)) =
      nodesFrom st.disk k p base stop := by
    ext n
    refine exists_congr fun i => ?_
    rw [mem_entriesAbove]
    constructor
    · rintro ⟨⟨hi, hstop⟩, hn⟩
      rw [hsame i hi] at hn
      exact ⟨by omega, hi, hn⟩
    · rintro ⟨hstop, hi, hn⟩
      rw [← hsame i hi] at hn
      exact ⟨⟨hi, by omega⟩, hn⟩
  have hT1 : TreeOk st1.fs l (nodesFrom st.disk k p base stop) :=
    (hT.mono hsub).released h1 (by simp)
  have hbody' : ∀ i ∈ entriesAbove (stop - 1), ∀ (st' : Filsys) l, True → st'.Consistent l →
      TreeOk st'.fs l (treeNodes st'.disk k (pointers st.disk p i) (base + i * nindir ^ k)) →
      ∃ l', Released st' (body st' i) l l'
        (block '' treeNodes st'.disk k (pointers st.disk p i) (base + i * nindir ^ k))
        (block '' treeNodes st'.disk k (pointers st.disk p i) (base + i * nindir ^ k)) ∧ True := by
    intro i _ st' l _ hst' hT'
    obtain ⟨l', hl'⟩ := hbody st' l i hst' hT'
    exact ⟨l', hl', trivial⟩
  obtain ⟨l2, h2, -⟩ := release_loop (fun s => s) (fun _ => True) (entriesAbove (stop - 1)) hbody'
    (nodup_entriesAbove _) st1 l trivial h1.consistent (by rwa [hentries])
  rw [hentries, ← hst2] at h2
  have hp2 : st2.disk p = clearEntries (st.disk p) (stop - 1) := by
    rw [h2.frame p, write_disk_self]
    rintro ⟨n, ⟨i, _, hi, hn⟩, heq⟩
    exact hT.root_notMem hp n ⟨i, hi, hn⟩ heq
  refine ⟨⟨l2, (h1.trans h2).mono (by simp) (by simp)⟩, fun i hi => ?_, fun i hi hstop => ?_⟩
  · rw [pointers, hp2, word_clearEntries _ _ hi]
    rfl
  · rw [treeNodes_frame h2, hsame i hi]
    rintro n hn ⟨m, ⟨j, hj, hj', hm⟩, heq⟩
    rw [hsame i hi] at hn
    exact hT.entry_block_ne hp hj' hi (by omega) hm hn heq

theorem entry_start {q : ℕ}
    (hn : n ∈ treeNodes disk k q (base + i * nindir ^ k)) :
    base + i * nindir ^ k ≤ n.start ∧ n.start < base + (i + 1) * nindir ^ k := by
  obtain ⟨_, hlo, hhi⟩ := nodes_range hn
  have hpos : 0 < nindir ^ n.height := Nat.pow_pos nindir_pos
  rw [add_mul]
  omega

theorem mem_children_of_entries {q : ℕ → ℕ} {stop : ℕ}
    (hptr : ∀ i, i < nindir → pointers disk p i = if i < stop then q i else 0) :
    n ∈ treeChildren disk k p base ↔
      ∃ i, i < nindir ∧ i < stop ∧ n ∈ treeNodes disk k (q i) (base + i * nindir ^ k) := by
  refine exists_congr fun i => and_congr_right fun hi => ?_
  rw [hptr i hi]
  split_ifs with hstop
  · exact (and_iff_right hstop).symm
  · simp [hstop]

theorem cuts_single (stale : ℕ → Block) : Cuts stale 0 := by
  intro st l p base keep h hp hT hkeep
  generalize hst' : indirtrunc stale 0 st p (keep - 1) = st'
  obtain ⟨⟨l', hr⟩, hptr, hsame⟩ := release_entries keep
    (fun _ _ _ => release_single stale) h hp hT hst'.symm
  have hmem : ∀ i n, n ∈ treeNodes st.disk 0 (pointers st.disk p i) (base + i * nindir ^ 0) →
      n.start = base + i := by
    rintro i n ⟨_, rfl⟩
    simp
  have hfrom : nodesFrom st.disk 0 p base keep =
      {n ∈ treeChildren st.disk 0 p base | base + keep ≤ n.start} := by
    ext n
    constructor
    · rintro ⟨i, hstop, hi, hn⟩
      exact ⟨⟨i, hi, hn⟩, by rw [hmem i n hn]; omega⟩
    · rintro ⟨⟨i, hi, hn⟩, hstart⟩
      rw [hmem i n hn] at hstart
      exact ⟨i, by omega, hi, hn⟩
  refine ⟨⟨l', hr.mono (by rw [hfrom]) ?_⟩, ?_⟩
  · rw [hfrom]
    exact insert_subset_insert (image_mono fun n hn => ⟨hn.1, .inr hn.2⟩)
  · ext n
    rw [mem_children_of_entries hptr]
    constructor
    · rintro ⟨i, hi, hstop, hn⟩
      rw [hsame i hi hstop] at hn
      exact ⟨⟨i, hi, hn⟩, by rw [hmem i n hn]; omega⟩
    · rintro ⟨⟨i, hi, hn⟩, hstart⟩
      rw [hmem i n hn] at hstart
      exact ⟨i, hi, by omega, by rwa [hsame i hi (by omega)]⟩

theorem cut_tree {keep : ℕ} (hcut : Cuts stale level)
    (h : st.Consistent l) (hT : TreeOk st.fs l (treeNodes st.disk (level + 1) x b))
    (hpos : 0 < keep) (hkeep : keep ≤ nindir ^ (level + 1)) {st' : Filsys}
    (hst' : st' = if x ≠ 0 then indirtrunc stale level st x (keep - 1) else st) :
    (∃ l', Released st st' l l'
      (block '' {n ∈ treeNodes st.disk (level + 1) x b | b + keep ≤ n.start})
      (block '' {n ∈ treeNodes st.disk (level + 1) x b | 0 < n.height ∨ b + keep ≤ n.start})) ∧
    treeNodes st'.disk (level + 1) x b =
      {n ∈ treeNodes st.disk (level + 1) x b | n.start < b + keep} := by
  by_cases hx : x = 0
  · subst hst' hx
    simp only [treeNodes_null, mem_empty_iff_false, false_and, ofPred_false, image_empty, and_true]
    exact ⟨l, Released.refl h⟩
  · rw [if_pos hx] at hst'
    subst hst'
    obtain ⟨⟨l', hr⟩, hchildren⟩ := hcut st l x b keep h hx hT hkeep
    have hroot : (⟨level + 1, b, x⟩ : Node) ∈ treeNodes st.disk (level + 1) x b := nodes_root hx
    refine ⟨⟨l', hr.mono ?_ ?_⟩, ?_⟩
    · congr 1
      ext n
      constructor
      · rintro ⟨hn, hstart⟩
        exact ⟨children_subset hx hn, hstart⟩
      · rintro ⟨⟨_, rfl | hn⟩, hstart⟩
        · simp only at hstart
          omega
        · exact ⟨hn, hstart⟩
    · apply insert_subset
      · exact ⟨_, ⟨hroot, .inl (succ_pos level)⟩, rfl⟩
      · exact image_mono fun n hn => ⟨children_subset hx hn.1, hn.2⟩
    · ext n
      change _ ∧ (_ ∨ n ∈ treeChildren _ _ _ _) ↔ _
      rw [hchildren]
      constructor
      · rintro ⟨_, rfl | ⟨hn, hstart⟩⟩
        · exact ⟨hroot, Nat.lt_add_of_pos_right hpos⟩
        · exact ⟨children_subset hx hn, hstart⟩
      · rintro ⟨⟨_, rfl | hn⟩, hstart⟩
        · exact ⟨hx, .inl rfl⟩
        · exact ⟨hx, .inr ⟨hn, hstart⟩⟩

/-- The first half of `indirtrunc` above the lowest level: the entries of `p` from
`stop` on are cleared and the trees behind them released. -/
def releaseAbove (stale : ℕ → Block) (level : ℕ) (st : Filsys) (p stop : ℕ) : Filsys :=
  (entriesAbove (stop - 1)).foldl (fun st' i =>
    if pointers st.disk p i ≠ 0 then free (indirtrunc stale level st' (pointers st.disk p i) (-1))
      (pointers st.disk p i) (stale (pointers st.disk p i)) else st')
    (st.write p (clearEntries (st.disk p) (stop - 1)))

theorem indirtrunc_none (stale : ℕ → Block) (level : ℕ) (st : Filsys) (p : ℕ) :
    indirtrunc stale (level + 1) st p ((0 : ℕ) - 1) = releaseAbove stale level st p 0 := rfl

theorem indirtrunc_some (stale : ℕ → Block) (level : ℕ) (st : Filsys) (p q : ℕ) {r : ℕ}
    (hr : r < nindir ^ (level + 1)) :
    indirtrunc stale (level + 1) st p ((q * nindir ^ (level + 1) + r + 1 : ℕ) - 1) =
      if pointers st.disk p q ≠ 0 then
        indirtrunc stale level (releaseAbove stale level st p (q + 1)) (pointers st.disk p q)
          ((r + 1 : ℕ) - 1)
      else releaseAbove stale level st p (q + 1) := by
  set f := nindir ^ (level + 1)
  have hlast : (((q * f + r + 1 : ℕ) : ℤ) - 1) = ((q * f + r : ℕ) : ℤ) := by push_cast; ring
  have hdiv : (q * f + r) / f = q := by
    rw [mul_comm, mul_add_div (by omega), div_eq_of_lt hr, add_zero]
  have hmod : (q * f + r) % f = r := by
    rw [mul_comm, mul_add_mod, mod_eq_of_lt hr]
  have hdiv' : ((q * f + r : ℕ) : ℤ) / (nindir : ℤ) ^ (level + 1) = q := by
    rw [← cast_pow, ← Int.natCast_ediv, hdiv]
  have hmod' : ((q * f + r : ℕ) : ℤ) % (nindir : ℤ) ^ (level + 1) = ((r + 1 : ℕ) : ℤ) - 1 := by
    rw [← cast_pow, ← Int.natCast_emod, hmod]
    push_cast
    ring
  have hentry : (if 0 < ((q * f + r : ℕ) : ℤ) then ((q * f + r : ℕ) : ℤ) / (nindir : ℤ) ^ (level + 1)
      else ((q * f + r : ℕ) : ℤ)) = ((q + 1 : ℕ) : ℤ) - 1 := by
    rw [hdiv']
    split_ifs with h
    · push_cast
      ring
    · have hz : q * f + r = 0 := by omega
      have hq : q = 0 := by rw [← hdiv, hz, Nat.zero_div]
      rw [hz, hq]
      rfl
  have hq : (((q + 1 : ℕ) : ℤ) - 1).toNat = q := by omega
  rw [hlast, indirtrunc]
  simp only [hentry, hmod', hq]
  have hnn : 0 ≤ ((q * f + r : ℕ) : ℤ) := Int.natCast_nonneg _
  simp only [hnn, true_and]
  rfl

theorem cuts_indirect (hcut : Cuts stale level) : Cuts stale (level + 1) := by
  intro st l p base keep h hp hT hkeep
  rcases Nat.eq_zero_or_pos keep with rfl | hpos
  · rw [indirtrunc_none]
    obtain ⟨⟨l', hr⟩, hptr, -⟩ := release_entries 0
      (fun _ _ _ => release_indirect hcut) h hp hT
      (rfl : releaseAbove stale level st p 0 = _)
    have hfrom : nodesFrom st.disk (level + 1) p base 0 =
        {n ∈ treeChildren st.disk (level + 1) p base | base + 0 ≤ n.start} := by
      ext n
      constructor
      · rintro ⟨i, -, hi, hn⟩
        exact ⟨⟨i, hi, hn⟩, (le_add_right _ _).trans (entry_start hn).1⟩
      · rintro ⟨⟨i, hi, hn⟩, -⟩
        exact ⟨i, zero_le i, hi, hn⟩
    refine ⟨⟨l', hr.mono (by rw [hfrom]) ?_⟩, ?_⟩
    · rw [hfrom]
      exact insert_subset_insert (image_mono fun n hn => ⟨hn.1, .inr hn.2⟩)
    · ext n
      rw [mem_children_of_entries hptr]
      constructor
      · rintro ⟨i, _, hstop, _⟩
        exact absurd hstop (not_lt_zero i)
      · rintro ⟨⟨i, hi, hn⟩, hstart⟩
        have := (entry_start hn).1
        omega
  · set f := nindir ^ (level + 1) with hf
    have hfpos : 0 < f := Nat.pow_pos nindir_pos
    obtain ⟨q, r, hr, rfl⟩ : ∃ q r, r < f ∧ keep = q * f + r + 1 :=
      ⟨(keep - 1) / f, (keep - 1) % f, mod_lt _ hfpos, by
        have := div_add_mod' (keep - 1) f
        omega⟩
    have hq : q < nindir := by
      rw [Nat.pow_succ', ← hf] at hkeep
      exact Nat.lt_of_mul_lt_mul_right (a := f) (by omega)
    obtain ⟨⟨l2, hr2⟩, hptr, hsame⟩ := release_entries (q + 1)
      (fun _ _ _ => release_indirect hcut) h hp hT
      (rfl : releaseAbove stale level st p (q + 1) = _)
    rw [indirtrunc_some stale level st p q hr]
    set st2 := releaseAbove stale level st p (q + 1)
    generalize hst' : (if pointers st.disk p q ≠ 0 then
      indirtrunc stale level st2 (pointers st.disk p q) ((r + 1 : ℕ) - 1) else st2) = st'
    have hc : base + (q * f + r + 1) = base + q * f + (r + 1) := by ring
    have hbefore : ∀ i n, i < q → n ∈ treeNodes st.disk (level + 1) (pointers st.disk p i)
        (base + i * f) → n.start < base + (q * f + r + 1) := by
      intro i n hi hn
      have hstart := (entry_start hn).2
      rw [← hf] at hstart
      have : (i + 1) * f ≤ q * f := mul_le_mul_right f hi
      omega
    have hafter : ∀ i n, q + 1 ≤ i → n ∈ treeNodes st.disk (level + 1) (pointers st.disk p i)
        (base + i * f) → base + (q * f + r + 1) ≤ n.start := by
      intro i n hi hn
      have hstart := (entry_start hn).1
      rw [← hf] at hstart
      have : (q + 1) * f ≤ i * f := mul_le_mul_right f hi
      rw [add_mul] at this
      omega
    have hTq : TreeOk st2.fs l2 (treeNodes st.disk (level + 1) (pointers st.disk p q)
        (base + q * f)) := by
      refine (hT.mono fun n hn => children_subset hp ⟨q, hq, hn⟩).released hr2 ?_
      rintro n hn ⟨m, ⟨j, hj, hj', hm⟩, heq⟩
      exact hT.entry_block_ne hp hj' hq (by omega) hm hn heq
    have hq' := hsame q hq (lt_succ_self q)
    obtain ⟨⟨l', hr'⟩, htree⟩ := cut_tree hcut hr2.consistent (by rwa [hq']) (succ_pos r) hr hst'.symm
    rw [hq'] at hr' htree
    rw [hc]
    refine ⟨⟨l', (hr2.trans hr').mono ?_ ?_⟩, ?_⟩
    · rw [← image_union]
      congr 1
      ext n
      constructor
      · rintro (⟨i, hi, hi', hn⟩ | ⟨hn, hstart⟩)
        · exact ⟨⟨i, hi', hn⟩, by rw [← hc]; exact hafter i n hi hn⟩
        · exact ⟨⟨q, hq, hn⟩, hstart⟩
      · rintro ⟨⟨i, hi, hn⟩, hstart⟩
        rcases lt_trichotomy i q with hlt | rfl | hgt
        · have := hbefore i n hlt hn
          omega
        · exact .inr ⟨hn, hstart⟩
        · exact .inl ⟨i, hgt, hi, hn⟩
    · apply union_subset
      · apply insert_subset_insert
        apply image_mono
        rintro n ⟨i, hi, hi', hn⟩
        exact ⟨⟨i, hi', hn⟩, .inr (by rw [← hc]; exact hafter i n hi hn)⟩
      · refine Set.Subset.trans (image_mono fun n hn => ?_) (subset_insert _ _)
        exact ⟨⟨q, hq, hn.1⟩, hn.2⟩
    · -- `p` and the earlier entries are not touched by the cut below entry `q`
      have hpW : st'.disk p = st2.disk p := by
        apply hr'.frame
        rintro ⟨n, ⟨hn, _⟩, heq⟩
        exact hT.root_notMem hp n ⟨q, hq, hn⟩ heq
      have hkept : ∀ i, i < q → treeNodes st'.disk (level + 1) (pointers st.disk p i) (base + i * f) =
          treeNodes st.disk (level + 1) (pointers st.disk p i) (base + i * f) := by
        intro i hi
        rw [← hsame i (hi.trans hq) (lt_succ_of_lt hi)]
        apply treeNodes_frame hr'
        rw [hsame i (hi.trans hq) (lt_succ_of_lt hi)]
        rintro n hn ⟨m, ⟨hm, _⟩, heq⟩
        exact hT.entry_block_ne hp hq (hi.trans hq) hi.ne' hm hn heq
      have hptr' : ∀ i, i < nindir →
          pointers st'.disk p i = if i < q + 1 then pointers st.disk p i else 0 := by
        intro i hi
        rw [← hptr i hi, pointers, hpW]
        rfl
      ext n
      rw [mem_children_of_entries hptr']
      constructor
      · rintro ⟨i, hi, hiq, hn⟩
        rcases Nat.lt_succ_iff_lt_or_eq.1 hiq with hlt | rfl
        · rw [hkept i hlt] at hn
          exact ⟨⟨i, hi, hn⟩, by rw [← hc]; exact hbefore i n hlt hn⟩
        · rw [htree] at hn
          exact ⟨⟨i, hi, hn.1⟩, hn.2⟩
      · rintro ⟨⟨i, hi, hn⟩, hstart⟩
        rcases lt_trichotomy i q with hlt | rfl | hgt
        · exact ⟨i, hi, lt_succ_of_lt hlt, by rwa [hkept i hlt]⟩
        · exact ⟨i, hi, lt_succ_self i, by rw [htree]; exact ⟨hn, hstart⟩⟩
        · have := hafter i n hgt hn
          omega

/-- `indirtrunc` cuts a tree exactly, whatever its height. -/
theorem indirtrunc_cuts (stale : ℕ → Block) (level : ℕ) : Cuts stale level := by
  induction level with
  | zero => exact cuts_single stale
  | succ level ih => exact cuts_indirect ih

end

end RetroBSD.Ufs
