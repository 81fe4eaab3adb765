import RetroBSD.InodeTree

/-!
# Growing a tree of blocks

`bmap` for writing takes a block from the free list for every pointer it misses on
the way to an index. `Grows` records what such a call did to a set of nodes: the
old nodes stay, the new ones lie on the path to the index and hold the blocks
taken, and only blocks of pointers were written besides.
-/

namespace RetroBSD.Ufs

open LittleEndian RadixTree List Nat

structure Grows (st st' : Filsys) (l l' taken : List ℕ) (T T' : Set Node) (x : ℕ) : Prop where
  consistent : st'.Consistent l'
  split : l = taken ++ l'
  sub : T ⊆ T'
  new : ∀ n ∈ T', n ∉ T → n.block ∈ taken ∧ n.start ≤ x ∧ x < n.start + nindir ^ n.height
  used : ∀ b ∈ taken, ∃ n ∈ T', n ∉ T ∧ n.block = b
  ok : TreeOk st'.fs l' T'
  frame : ∀ b, b ∉ taken → (∀ n ∈ T, 0 < n.height → n.block ≠ b) → st'.disk b = st.disk b
  isize : st'.fs.fsIsize = st.fs.fsIsize
  fsize : st'.fs.fsFsize = st.fs.fsFsize

section Grows

variable {st st₁ st₂ : Filsys} {l l₁ l₂ t₁ t₂ : List ℕ} {T T₁ T₂ U : Set Node} {x : ℕ}

theorem Grows.refl (h : st.Consistent l) (hT : TreeOk st.fs l T) : Grows st st l l [] T T x :=
  ⟨h, rfl, le_rfl, fun _ hn hn' => absurd hn hn', by simp, hT, fun _ _ _ => rfl, rfl, rfl⟩

theorem Grows.nospace (h : st.Consistent []) (hT : TreeOk st.fs [] T) :
    Grows st st.nospace [] [] [] T T x :=
  ⟨h.nospace, rfl, le_rfl, fun _ hn hn' => absurd hn hn', by simp, ⟨hT.inj, hT.good, hT.unlisted⟩,
    fun _ _ _ => rfl, rfl, rfl⟩

theorem Grows.trans (h : Grows st st₁ l l₁ t₁ T T₁ x) (h1 : Grows st₁ st₂ l₁ l₂ t₂ T₁ T₂ x) :
    Grows st st₂ l l₂ (t₁ ++ t₂) T T₂ x := by
  refine ⟨h1.consistent, by rw [h.split, h1.split, append_assoc], h.sub.trans h1.sub, ?_, ?_,
    h1.ok, ?_, h1.isize.trans h.isize, h1.fsize.trans h.fsize⟩
  · intro n hn hT
    by_cases hn1 : n ∈ T₁
    · obtain ⟨hb, hx⟩ := h.new n hn1 hT
      exact ⟨mem_append_left _ hb, hx⟩
    · obtain ⟨hb, hx⟩ := h1.new n hn hn1
      exact ⟨mem_append_right _ hb, hx⟩
  · intro b hb
    rcases mem_append.1 hb with hb | hb
    · obtain ⟨n, hn, hnT, hbn⟩ := h.used b hb
      exact ⟨n, h1.sub hn, hnT, hbn⟩
    · obtain ⟨n, hn, hnT, hbn⟩ := h1.used b hb
      exact ⟨n, hn, fun hT => hnT (h.sub hT), hbn⟩
  · intro b hb hT
    obtain ⟨hb1, hb2⟩ := not_or.1 (mt mem_append.2 hb)
    rw [h1.frame b hb2 fun n hn hpos heq => ?_, h.frame b hb1 hT]
    by_cases hnT : n ∈ T
    · exact hT n hnT hpos heq
    · exact hb1 (heq ▸ (h.new n hn hnT).1)

theorem Grows.insert (n : Node) (h : st.Consistent (n.block :: l)) (h1 : st₁.Consistent l)
    (hT : TreeOk st.fs (n.block :: l) T) (hx : n.start ≤ x ∧ x < n.start + nindir ^ n.height)
    (hisize : st₁.fs.fsIsize = st.fs.fsIsize) (hfsize : st₁.fs.fsFsize = st.fs.fsFsize)
    (hframe : ∀ c, c ≠ n.block → (∀ m ∈ T, 0 < m.height → m.block ≠ c) → st₁.disk c = st.disk c) :
    Grows st st₁ (n.block :: l) l [n.block] T (T ∪ {n}) x := by
  have hnb : ∀ m ∈ T, m.block ≠ n.block := by
    intro m hm heq
    exact hT.unlisted m hm (heq ▸ mem_cons_self)
  have hbad : ∀ c, badblock st₁.fs c ↔ badblock st.fs c := by
    intro c
    simp only [badblock, hisize, hfsize]
  refine ⟨h1, rfl, Set.subset_union_left, ?_, ?_, ⟨?_, ?_, ?_⟩, ?_, hisize, hfsize⟩
  · rintro m (hm | rfl) hmT
    · exact absurd hm hmT
    · exact ⟨mem_singleton_self _, hx⟩
  · intro c hc
    rw [mem_singleton.1 hc]
    exact ⟨n, .inr rfl, fun hn => hnb n hn rfl, rfl⟩
  · rintro m (hm | rfl) m' (hm' | rfl) heq
    · exact hT.inj hm hm' heq
    · exact absurd heq (hnb m hm)
    · exact absurd heq.symm (hnb m' hm')
    · rfl
  · rintro m (hm | rfl)
    · rw [hbad]
      exact hT.good m hm
    · rw [hbad]
      exact h.valid _ mem_cons_self
  · rintro m (hm | rfl)
    · exact fun hl => hT.unlisted m hm (mem_cons_of_mem _ hl)
    · exact (nodup_cons.1 h.nodup).1
  · intro c hc
    exact hframe c fun hcb => hc (hcb ▸ mem_singleton_self _)

theorem Grows.lift (h : Grows st st₁ l l₁ t₁ T T₁ x) (hU : TreeOk st.fs l U) (hsub : T ⊆ U) :
    Grows st st₁ l l₁ t₁ U (U ∪ T₁) x := by
  have htaken : ∀ b ∈ t₁, b ∈ l := fun b hb => by
    rw [h.split]
    exact mem_append_left _ hb
  have hrest : ∀ b ∈ l₁, b ∈ l := fun b hb => by
    rw [h.split]
    exact mem_append_right _ hb
  refine ⟨h.consistent, h.split, Set.subset_union_left, ?_, ?_, ⟨?_, ?_, ?_⟩, ?_, h.isize, h.fsize⟩
  · rintro n (hn | hn) hnU
    · exact absurd hn hnU
    · exact h.new n hn fun hT => hnU (hsub hT)
  · intro b hb
    obtain ⟨n, hn, -, rfl⟩ := h.used b hb
    exact ⟨n, .inr hn, fun hnU => hU.unlisted n hnU (htaken _ hb), rfl⟩
  · -- old blocks are not free, new ones were
    have hmix : ∀ n ∈ U, ∀ m ∈ T₁, n.block = m.block → n = m := by
      intro n hn m hm heq
      by_cases hmT : m ∈ T
      · exact hU.inj hn (hsub hmT) heq
      · exact absurd (htaken _ (heq ▸ (h.new m hm hmT).1)) (hU.unlisted n hn)
    rintro n (hn | hn) m (hm | hm) heq
    · exact hU.inj hn hm heq
    · exact hmix n hn m hm heq
    · exact (hmix m hm n hn heq.symm).symm
    · exact h.ok.inj hn hm heq
  · rintro n (hn | hn)
    · have := hU.good n hn
      simpa only [badblock, h.isize, h.fsize] using this
    · exact h.ok.good n hn
  · rintro n (hn | hn)
    · exact fun hl => hU.unlisted n hn (hrest _ hl)
    · exact h.ok.unlisted n hn
  · intro b hb hT
    exact h.frame b hb fun n hn => hT n (hsub hn)

end Grows

/-- How a call of `bmap` for writing ends: it reaches the block at index `x`, which
contains `fresh` if it is new, or it finds no free block. -/
def Reaches (st : Filsys) (r : ℤ × Filsys) (l' : List ℕ) (T T' : Set Node) (x : ℕ) (fresh : Block) :
    Prop :=
  (∃ b, ⟨0, x, b⟩ ∈ T' ∧ r.1 = signed b ∧ r.2.uError = st.uError ∧
    (⟨0, x, b⟩ ∉ T → r.2.disk b = fresh)) ∨
  (r.1 = -1 ∧ r.2.uError = enospc ∧ l' = [])

section Fetch

variable {st st' : Filsys} {l l' taken : List ℕ} {k p base i x : ℕ}

theorem Grows.entry (hp : p ≠ 0) (hi : i < nindir)
    (hT : TreeOk st.fs l (treeNodes st.disk (k + 1) p base))
    (h : Grows st st' l l' taken (treeNodes st.disk k (pointers st.disk p i) (base + i * nindir ^ k))
      (treeNodes st'.disk k (pointers st.disk p i) (base + i * nindir ^ k)) x) :
    treeNodes st'.disk (k + 1) p base = treeNodes st.disk (k + 1) p base ∪
        treeNodes st'.disk k (pointers st.disk p i) (base + i * nindir ^ k) ∧
      Grows st st' l l' taken (treeNodes st.disk (k + 1) p base)
        (treeNodes st'.disk (k + 1) p base) x := by
  have hsubset : treeNodes st.disk k (pointers st.disk p i) (base + i * nindir ^ k) ⊆
      treeNodes st.disk (k + 1) p base := fun n hn => children_subset hp ⟨i, hi, hn⟩
  have htaken : ∀ n ∈ treeNodes st.disk (k + 1) p base, n.block ∉ taken := by
    intro n hn hb
    apply hT.unlisted n hn
    rw [h.split]
    exact mem_append_left _ hb
  have hdisk : st'.disk p = st.disk p := by
    apply h.frame p (htaken _ (nodes_root hp))
    intro n hn _
    exact hT.root_notMem hp n ⟨i, hi, hn⟩
  have hptr : ∀ j, pointers st'.disk p j = pointers st.disk p j := by
    intro j
    rw [pointers, hdisk, pointers]
  have heq : treeNodes st'.disk (k + 1) p base = treeNodes st.disk (k + 1) p base ∪
      treeNodes st'.disk k (pointers st.disk p i) (base + i * nindir ^ k) := by
    rw [← hptr i]
    apply nodes_grow_entry hp hi
    · rw [hptr i]
      exact h.sub
    · intro j hj hji
      rw [hptr j]
      apply nodes_congr
      intro n hn _ m _
      rw [pointers, pointers, h.frame n.block (htaken n (children_subset hp ⟨j, hj, hn⟩))]
      intro n' hn' _
      exact hT.entry_block_ne hp hi hj hji.symm hn' hn
  exact ⟨heq, by rw [heq]; exact h.lift hT hsubset⟩

theorem grows_alloc {st₁ : Filsys} {b : ℕ} (h : st.Consistent (b :: l)) (hp : p ≠ 0)
    (hi : i < nindir) (hT : TreeOk st.fs (b :: l) (treeNodes st.disk (k + 1) p base))
    (hz : pointers st.disk p i = 0) (hst1 : st₁.Consistent l) (hdisk : st₁.disk = st.disk)
    (hisize : st₁.fs.fsIsize = st.fs.fsIsize) (hfsize : st₁.fs.fsFsize = st.fs.fsFsize)
    (hx : base + i * nindir ^ k ≤ x ∧ x < base + i * nindir ^ k + nindir ^ k) {st₂ : Filsys}
    (hst2 : st₂ = (st₁.write b zeroBlock).write p (setWord (st.disk p) i b)) :
    pointers st₂.disk p i = b ∧ st₂.disk b = zeroBlock ∧
      Grows st st₂ (b :: l) l [b] (treeNodes st.disk (k + 1) p base)
        (treeNodes st₂.disk (k + 1) p base) x := by
  have hroot : (⟨k + 1, base, p⟩ : Node) ∈ treeNodes st.disk (k + 1) p base := nodes_root hp
  have hbl : b ∉ l := (nodup_cons.1 h.nodup).1
  have hnb : ∀ n ∈ treeNodes st.disk (k + 1) p base, n.block ≠ b := by
    intro n hn heq
    exact hT.unlisted n hn (heq ▸ mem_cons_self)
  have hpb : p ≠ b := hnb _ hroot
  have hb0 : b ≠ 0 := by
    rintro rfl
    exact h.valid 0 mem_cons_self (badblock_zero h.isize_pos)
  have hblt : b < wordMod := h.lt b mem_cons_self
  have hdiskb : st₂.disk b = zeroBlock := by
    rw [hst2, write_disk_of_ne _ _ hpb.symm, write_disk_self]
  have hdiskp : st₂.disk p = setWord (st.disk p) i b := by rw [hst2, write_disk_self]
  have hother : ∀ c, c ≠ b → c ≠ p → st₂.disk c = st.disk c := by
    intro c hcb hcp
    rw [hst2, write_disk_of_ne _ _ hcp, write_disk_of_ne _ _ hcb, hdisk]
  have hptr : ∀ j, pointers st₂.disk p j = if j = i then b else pointers st.disk p j := by
    intro j
    rw [pointers, hdiskp, word_setWord, mod_eq_of_lt hblt]
    rfl
  have hnew : treeNodes st₂.disk k (pointers st₂.disk p i) (base + i * nindir ^ k) =
      {⟨k, base + i * nindir ^ k, b⟩} := by
    rw [hptr i, if_pos rfl]
    apply nodes_of_empty hb0
    intro _ j _
    rw [pointers, hdiskb]
    rfl
  have hset : treeNodes st₂.disk (k + 1) p base =
      treeNodes st.disk (k + 1) p base ∪ {⟨k, base + i * nindir ^ k, b⟩} := by
    rw [← hnew]
    apply nodes_grow_entry hp hi
    · rw [hz, nodes_null]
      exact Set.empty_subset _
    · intro j hj hji
      rw [hptr j, if_neg hji]
      apply nodes_congr
      intro n hn _ m _
      have hmem : n ∈ treeChildren st.disk k p base := ⟨j, hj, hn⟩
      rw [pointers, pointers, hother n.block (hnb n (children_subset hp hmem))
        (hT.root_notMem hp n hmem)]
  refine ⟨by rw [hptr i, if_pos rfl], hdiskb, ?_⟩
  rw [hset]
  have hst2l : st₂.Consistent l := by
    rw [hst2]
    exact (hst1.write hbl zeroBlock).write (fun hl => hT.unlisted _ hroot (mem_cons_of_mem _ hl)) _
  have hfs : st₂.fs = st₁.fs := by rw [hst2]; rfl
  apply Grows.insert ⟨k, base + i * nindir ^ k, b⟩ h hst2l hT hx (by rw [hfs, hisize]) (by rw [hfs, hfsize])
  intro c hc hpos
  exact hother c hc (hpos _ hroot (succ_pos k)).symm

def Fetches (bn k : ℕ) : Prop :=
  ∀ (st : Filsys) (l : List ℕ) (p base : ℕ), st.Consistent l → p ≠ 0 →
    TreeOk st.fs l (treeNodes st.disk k p base) →
    ∃ taken l', taken.length ≤ k ∧
      Grows st (fetch .write bn k st p).2 l l' taken (treeNodes st.disk k p base)
        (treeNodes (fetch .write bn k st p).2.disk k p base) (base + bn % nindir ^ k) ∧
      Reaches st (fetch .write bn k st p) l' (treeNodes st.disk k p base)
        (treeNodes (fetch .write bn k st p).2.disk k p base) (base + bn % nindir ^ k) zeroBlock

theorem index_digit (bn k : ℕ) : bn % nindir ^ (k + 1) / nindir ^ k = bn / nindir ^ k % nindir := by
  have hpos : 0 < nindir ^ k := Nat.pow_pos nindir_pos
  rw [mod_pow_succ, add_mul_div_left _ _ hpos, div_eq_of_lt (mod_lt _ hpos), zero_add]

theorem index_rest (bn k : ℕ) : bn % nindir ^ (k + 1) % nindir ^ k = bn % nindir ^ k :=
  mod_mod_of_dvd _ (pow_dvd_pow nindir k.le_succ)

theorem index_split (bn base k : ℕ) : base + bn % nindir ^ (k + 1) =
    base + (bn / nindir ^ k % nindir) * nindir ^ k + bn % nindir ^ k := by
  rw [mod_pow_succ, mul_comm (nindir ^ k), add_assoc, add_comm (bn % nindir ^ k)]

theorem fetch_succ {bn : ℕ} (h : st.Consistent l) (hp : p ≠ 0)
    (hT : TreeOk st.fs l (treeNodes st.disk (k + 1) p base)) (hi : i = bn / nindir ^ k % nindir) :
    (l = [] ∧ pointers st.disk p i = 0 ∧ fetch .write bn (k + 1) st p = (-1, st.nospace)) ∨
    (∃ b l₁ st₂, l = b :: l₁ ∧ pointers st.disk p i = 0 ∧ b ≠ 0 ∧ pointers st₂.disk p i = b ∧
      st₂.disk b = zeroBlock ∧ st₂.uError = st.uError ∧
      Grows st st₂ l l₁ [b] (treeNodes st.disk (k + 1) p base) (treeNodes st₂.disk (k + 1) p base)
        (base + bn % nindir ^ (k + 1)) ∧
      fetch .write bn (k + 1) st p = fetch .write bn k st₂ b) ∨
    (pointers st.disk p i ≠ 0 ∧
      fetch .write bn (k + 1) st p = fetch .write bn k st (pointers st.disk p i)) := by
  have hlt : i < nindir := hi ▸ mod_lt _ nindir_pos
  by_cases hz : pointers st.disk p i = 0
  · have hz' : word (st.disk p) (bn / nindir ^ k % nindir) = 0 := hi ▸ hz
    rcases balloc_spec h true zeroBlock with ⟨rfl, hfull⟩ | ⟨b, l₁, st₁, rfl, hst1, hdisk, herr, hisize, hfsize, hok⟩
    · refine .inl ⟨rfl, hz, ?_⟩
      rw [fetch]
      simp only [hz', hfull, if_true]
    · set st₂ := (st₁.write b zeroBlock).write p (setWord (st.disk p) i b) with hst2
      have hx : base + i * nindir ^ k ≤ base + bn % nindir ^ (k + 1) ∧
          base + bn % nindir ^ (k + 1) < base + i * nindir ^ k + nindir ^ k := by
        have hrel := Nat.mod_lt bn (Nat.pow_pos nindir_pos : 0 < nindir ^ k)
        rw [index_split, ← hi]
        exact ⟨Nat.le_add_right _ _, Nat.add_lt_add_left hrel _⟩
      obtain ⟨hptr, hzero, hg⟩ := grows_alloc h hp hlt hT hz hst1 hdisk hisize hfsize hx hst2
      have hb0 : b ≠ 0 := by
        rintro rfl
        exact h.valid 0 mem_cons_self (badblock_zero h.isize_pos)
      refine .inr (.inl ⟨b, l₁, st₂, rfl, hz, hb0, hptr, hzero, herr, hg, ?_⟩)
      rw [fetch]
      simp only [hz', hok, if_true]
      rw [hst2, hi]
  · refine .inr (.inr ⟨hz, ?_⟩)
    rw [hi]
    exact if_neg (hi ▸ hz)

theorem fetches_entry {bn : ℕ} (hk : Fetches bn k) (h : st.Consistent l) (hp : p ≠ 0)
    (hT : TreeOk st.fs l (treeNodes st.disk (k + 1) p base))
    (hi : i = bn / nindir ^ k % nindir) (hne : pointers st.disk p i ≠ 0) {r : ℤ × Filsys}
    (hr : r = fetch .write bn k st (pointers st.disk p i)) :
    ∃ taken l', taken.length ≤ k ∧ Grows st r.2 l l' taken (treeNodes st.disk (k + 1) p base)
        (treeNodes r.2.disk (k + 1) p base) (base + bn % nindir ^ (k + 1)) ∧
      Reaches st r l' (treeNodes st.disk (k + 1) p base)
        (treeNodes r.2.disk (k + 1) p base) (base + bn % nindir ^ (k + 1)) zeroBlock := by
  have hlt : i < nindir := hi ▸ mod_lt _ nindir_pos
  have hsub : treeNodes st.disk k (pointers st.disk p i) (base + i * nindir ^ k) ⊆
      treeNodes st.disk (k + 1) p base := fun n hn => children_subset hp ⟨i, hlt, hn⟩
  obtain ⟨taken, l', hlen, hg, hreach⟩ := hk st l _ (base + i * nindir ^ k) h hne (hT.mono hsub)
  rw [index_split, ← hi]
  rw [← hr] at hg hreach
  obtain ⟨heq, hg'⟩ := hg.entry hp hlt hT
  refine ⟨taken, l', hlen, hg', hreach.imp ?_ id⟩
  rintro ⟨b, hb, hval, herr, hfresh⟩
  refine ⟨b, ?_, hval, herr, fun hnot => hfresh fun hold => hnot (hsub hold)⟩
  rw [heq]
  exact .inr hb

theorem fetches_succ {bn : ℕ} (hk : Fetches bn k) : Fetches bn (k + 1) := by
  intro st l p base h hp hT
  set i := bn / nindir ^ k % nindir with hi
  rcases fetch_succ h hp hT hi with
    ⟨rfl, -, hres⟩ | ⟨b, l₁, st₂, rfl, -, hb0, hptr, hzero, herr, hg1, hres⟩ | ⟨hne, hres⟩
  · rw [hres]
    exact ⟨[], [], zero_le _, Grows.nospace h hT, .inr ⟨rfl, rfl, rfl⟩⟩
  · obtain ⟨taken, l', hlen, hg2, hreach⟩ := fetches_entry hk hg1.consistent hp hg1.ok hi
      (by rwa [hptr]) rfl
    rw [hptr, ← hres] at hg2 hreach
    refine ⟨[b] ++ taken, l', succ_le_succ hlen, hg1.trans hg2, hreach.imp ?_ id⟩
    rintro ⟨c, hc, hval, herr', hfresh⟩
    refine ⟨c, hc, hval, herr'.trans herr, fun hnot => ?_⟩
    by_cases hmid : (⟨0, base + bn % nindir ^ (k + 1), c⟩ : Node) ∈ treeNodes st₂.disk (k + 1) p base
    · -- the block just taken is the one looked for
      obtain rfl : c = b := mem_singleton.1 (hg1.new _ hmid hnot).1
      rw [hg2.frame c, hzero]
      · intro hmem
        apply hg1.ok.unlisted _ hmid
        rw [hg2.split]
        exact mem_append_left _ hmem
      · intro n hn hpos heq
        rw [hg1.ok.inj hn hmid heq] at hpos
        exact absurd hpos (lt_irrefl 0)
    · exact hfresh hmid
  · obtain ⟨taken, l', hlen, hg, hreach⟩ := fetches_entry hk h hp hT hi hne hres
    exact ⟨taken, l', hlen.trans (le_succ k), hg, hreach⟩

theorem fetch_write (bn k : ℕ) : Fetches bn k := by
  induction k with
  | zero =>
    intro st l p base h hp hT
    refine ⟨[], l, le_rfl, Grows.refl h hT, .inl ⟨p, ?_, rfl, rfl, fun hnot => absurd ?_ hnot⟩⟩ <;>
      exact ⟨hp, by rw [pow_zero, mod_one, add_zero]⟩
  | succ k ih => exact fetches_succ ih

end Fetch

end RetroBSD.Ufs
