import RetroBSD.ImageInodes
import RetroBSD.ImageFreeList
import RetroBSD.InodeTruncate

/-!
# What the image tool frees when it truncates a file

The routines for indirect blocks free a tree of which nothing is kept as a whole. Of a tree
that is kept in part they free what is behind the entries from the first one with nothing to
keep on, and write nothing. The loop over the addresses of the inode stops at the first tree
that is kept in part.
-/

namespace RetroBSD.Fsutil

open LittleEndian Ufs RadixTree Function List Nat Set Node

/-- What the kernel finds, with some superblock on disk. -/
def Image.view (im : Image) : Filsys := im.toKernel ⟨0, 0, 0, fun _ => 0, 0, false⟩

/-- What is known about an image besides its list. -/
structure Image.Ok (im : Image) : Prop where
  pos : 0 < im.fs.nfree
  le : im.fs.nfree ≤ nicfree
  length : im.fs.fsize ≤ im.length
  small : im.Small

section Release

variable {im im' : Image} {l l' : List ℕ} {k p base b : ℕ} (stale : ℕ → Block)

theorem Image.WellFormed.ok (h : im.WellFormed l) (hsmall : im.Small) : im.Ok :=
  ⟨h.nfree_pos.1, h.nfree_pos.2, h.length, hsmall⟩

theorem Image.Ok.wellFormed (h : im.Ok) (hl : im.view.Consistent l) : im.WellFormed l :=
  .of_consistent hl h.pos h.le h.length

theorem mem_of_good (h : ¬ badblock im.view.fs b) : im.fs.isize ≤ b ∧ b < im.fs.fsize := by
  rw [badblock, not_or, not_lt, not_le] at h
  exact h

theorem freeBlock_released (hok : im.Ok) (h : im.view.Consistent l) (hb : ¬ badblock im.view.fs b) (hl : b ∉ l) :
    Released im.view (im.freeBlock stale b).view l (b :: l) {b} {b} ∧ (im.freeBlock stale b).Ok := by
  obtain ⟨hi, hf⟩ := mem_of_good hb
  obtain ⟨im', heq, hkernel, hpos, hle, -, hfsize, hlen⟩ :=
    Image.blockFree_toKernel (hok.wellFormed h) hok.small hi hf (stale b) ⟨0, 0, 0, fun _ => 0, 0, false⟩
  have him' : im.freeBlock stale b = im' := by rw [Image.freeBlock, heq, Option.getD_some]
  rw [him']
  refine ⟨?_, hpos, hle, ?_, ?_⟩
  · rw [show im'.view = _ from hkernel]
    exact free_released h hb hl (stale b)
  · rw [hfsize]
    exact hok.length.trans hlen
  · rw [Image.Small, hfsize]
    exact hok.small

/-- What a call frees of a tree of height `k` none of whose blocks is to be kept. -/
def FreesTree (k : ℕ) (freeEntry : Image → ℕ → ℤ → Image) : Prop :=
  ∀ (im : Image) (l : List ℕ) (p base : ℕ) (nblk : ℤ), im.Ok → im.view.Consistent l → p ≠ 0 →
    TreeOk im.view.fs l (treeNodes im.disk k p base) → nblk ≤ 0 →
    ∃ l', Released im.view (freeEntry im p nblk).view l l' (block '' treeNodes im.disk k p base)
      (block '' treeNodes im.disk k p base) ∧ (freeEntry im p nblk).Ok

theorem freesTree_freeBlock : FreesTree 0 fun im nb _ => im.freeBlock stale nb := by
  intro im l p base nblk hok h hp hT _
  have hroot : (⟨0, base, p⟩ : Node) ∈ treeNodes im.disk 0 p base := nodes_root hp
  have hset : block '' treeNodes im.disk 0 p base = {p} := by
    ext y
    simp [mem_nodes_zero, hp, eq_comm]
  rw [hset]
  exact ⟨_, freeBlock_released stale hok h (hT.good _ hroot) (hT.unlisted _ hroot)⟩

def entriesFrom (weight : ℕ) (nblk : ℤ) : List ℕ :=
  (List.range nindir).reverse.filter fun i => nblk ≤ (i * weight : ℕ)

variable {nblk : ℤ}

theorem mem_entriesFrom {weight i : ℕ} :
    i ∈ entriesFrom weight nblk ↔ i < nindir ∧ nblk ≤ (i * weight : ℕ) := by
  simp [entriesFrom]

theorem nodup_entriesFrom (weight : ℕ) (nblk : ℤ) : (entriesFrom weight nblk).Nodup :=
  (nodup_reverse.2 nodup_range).filter _

/-- The loop stops at the first entry to keep, since the entries are taken from the end. -/
theorem freeEntries_eq (freeEntry : Image → ℕ → ℤ → Image) (weight : ℕ) (data : Block) (nblk : ℤ) {is : List ℕ}
    (his : is.Pairwise (· > ·)) (im : Image) :
    freeEntries freeEntry weight data nblk is im = (is.all fun i => nblk ≤ (i * weight : ℕ),
      (is.filter fun i => nblk ≤ (i * weight : ℕ)).foldl
        (fun im i => if word data i ≠ 0 then freeEntry im (word data i) (nblk - (i * weight : ℕ)) else im) im) := by
  induction is generalizing im with
  | nil => rfl
  | cons i is ih =>
    obtain ⟨hi, his⟩ := pairwise_cons.1 his
    rw [freeEntries]
    by_cases hlt : (i * weight : ℕ) < nblk
    · have hrest : ∀ j ∈ is, ¬ nblk ≤ (j * weight : ℕ) := by
        intro j hj
        have hle : j * weight ≤ i * weight := mul_le_mul_right _ (hi j hj).le
        omega
      have hnil : (i :: is).filter (fun i => decide (nblk ≤ (i * weight : ℕ))) = [] := by
        rw [filter_eq_nil_iff]
        intro j hj
        rcases mem_cons.1 hj with rfl | hj
        · simpa using hlt
        · simpa using hrest j hj
      rw [if_pos hlt, hnil, all_cons, decide_eq_false (not_le.2 hlt)]
      rfl
    · have hle : nblk ≤ (i * weight : ℕ) := not_lt.1 hlt
      have hcons : (i :: is).filter (fun i => decide (nblk ≤ (i * weight : ℕ))) =
          i :: is.filter (fun i => decide (nblk ≤ (i * weight : ℕ))) := by
        rw [filter_cons, if_pos (decide_eq_true hle)]
      rw [if_neg hlt, ih his, hcons, foldl_cons, all_cons, decide_eq_true hle, Bool.true_and]

theorem pairwise_range_reverse (n : ℕ) : (List.range n).reverse.Pairwise (· > ·) := by
  rw [pairwise_reverse]
  exact pairwise_lt_range

theorem all_range_iff (weight : ℕ) (nblk : ℤ) :
    ((List.range nindir).reverse.all fun i => nblk ≤ (i * weight : ℕ)) = decide (nblk ≤ 0) := by
  rw [Bool.eq_iff_iff, all_eq_true, decide_eq_true_iff]
  constructor
  · intro h
    have hzero := h 0 (by simp [nindir_pos])
    simpa using hzero
  · intro h i _
    rw [decide_eq_true_iff]
    omega

def nodesBeyond (disk : ℕ → Block) (k p base : ℕ) (nblk : ℤ) : Set Node :=
  entryNodes disk k base (pointers disk p) (entriesFrom (nindir ^ k) nblk)

variable {disk : ℕ → Block}

theorem nodesBeyond_of_nonpos (h : nblk ≤ 0) :
    nodesBeyond disk k p base nblk = treeChildren disk k p base := by
  refine Set.ext fun n => exists_congr fun i => and_congr_left fun _ => ?_
  rw [mem_entriesFrom]
  exact and_iff_left (by omega)

theorem nodesBeyond_subset : nodesBeyond disk k p base nblk ⊆ treeChildren disk k p base := by
  rintro n ⟨i, hi, hn⟩
  exact ⟨i, (mem_entriesFrom.1 hi).1, hn⟩

variable {freeEntry : Image → ℕ → ℤ → Image}

theorem freeEntries_spec (hfree : FreesTree k freeEntry) (hok : im.Ok)
    (h : im.view.Consistent l) (hp : p ≠ 0) (hT : TreeOk im.view.fs l (treeNodes im.disk (k + 1) p base)) (nblk : ℤ) :
    ∃ im' l', freeEntries freeEntry (nindir ^ k) (im.disk p) nblk (List.range nindir).reverse im =
        (decide (nblk ≤ 0), im') ∧
      Released im.view im'.view l l' (block '' nodesBeyond im.disk k p base nblk)
        (block '' nodesBeyond im.disk k p base nblk) ∧ im'.Ok := by
  rw [freeEntries_eq _ _ _ _ (pairwise_range_reverse nindir), all_range_iff]
  have hbody : ∀ i ∈ entriesFrom (nindir ^ k) nblk, ∀ (s : Image) (l : List ℕ), s.Ok → s.view.Consistent l →
      TreeOk s.view.fs l (treeNodes s.disk k (pointers im.disk p i) (base + i * nindir ^ k)) →
      ∃ l', Released s.view (if word (im.disk p) i ≠ 0 then
          freeEntry s (word (im.disk p) i) (nblk - (i * nindir ^ k : ℕ)) else s).view l l'
        (block '' treeNodes s.disk k (pointers im.disk p i) (base + i * nindir ^ k))
        (block '' treeNodes s.disk k (pointers im.disk p i) (base + i * nindir ^ k)) ∧
        (if word (im.disk p) i ≠ 0 then
          freeEntry s (word (im.disk p) i) (nblk - (i * nindir ^ k : ℕ)) else s).Ok := by
    intro i hi s l hoks hs hTs
    by_cases hz : word (im.disk p) i = 0
    · rw [pointers, hz, treeNodes_null, image_empty]
      exact ⟨l, .refl hs, hoks⟩
    · rw [if_pos hz]
      refine hfree s l _ _ _ hoks hs hz hTs ?_
      have := (mem_entriesFrom.1 hi).2
      omega
  obtain ⟨l', hl', hok'⟩ := release_loop Image.view Image.Ok (entriesFrom (nindir ^ k) nblk) hbody
    (nodup_entriesFrom _ _) im l hok h (hT.mono (nodesBeyond_subset.trans (children_subset hp)))
  exact ⟨_, l', rfl, hl', hok'⟩

/-- What is freed of the tree at an indirect block of whose first blocks `nblk` are kept. -/
def nodesCut (disk : ℕ → Block) (k p base : ℕ) (nblk : ℤ) : Set Node :=
  if nblk ≤ 0 then treeNodes disk (k + 1) p base else nodesBeyond disk k p base nblk

theorem freeIndirect_spec (hfree : FreesTree k freeEntry) (hok : im.Ok)
    (h : im.view.Consistent l) (hp : p ≠ 0) (hT : TreeOk im.view.fs l (treeNodes im.disk (k + 1) p base)) (nblk : ℤ) :
    ∃ im' l', freeIndirect stale freeEntry (nindir ^ k) im p nblk = (decide (nblk ≤ 0), im') ∧
      Released im.view im'.view l l' (block '' nodesCut im.disk k p base nblk)
        (block '' nodesCut im.disk k p base nblk) ∧ im'.Ok := by
  have hroot : (⟨k + 1, base, p⟩ : Node) ∈ treeNodes im.disk (k + 1) p base := nodes_root hp
  obtain ⟨hi, hf⟩ := mem_of_good (hT.good _ hroot)
  obtain ⟨im1, l1, heq, h1, hok1⟩ := freeEntries_spec hfree hok h hp hT nblk
  rw [freeIndirect, Image.readBlock_of_mem hi hf hok.length hok.small]
  by_cases hn : nblk ≤ 0
  · rw [decide_eq_true hn] at heq
    rw [nodesCut, if_pos hn, image_nodes_succ hp]
    rw [nodesBeyond_of_nonpos hn] at h1
    have hgood : ¬ badblock im1.view.fs p := by
      rw [h1.badblock]
      exact hT.good _ hroot
    have hl1 : p ∉ l1 := by
      rw [h1.mem]
      rintro (⟨n, hn, hnp⟩ | hl)
      · exact hT.root_notMem hp n hn hnp
      · exact hT.unlisted _ hroot hl
    obtain ⟨h2, hok2⟩ := freeBlock_released stale hok1 h1.consistent hgood hl1
    refine ⟨im1.freeBlock stale p, _, ?_, (h1.trans h2).mono ?_ ?_, hok2⟩
    · rw [decide_eq_true hn]
      simp only [heq]
    · rw [union_singleton]
    · rw [union_singleton]
  · rw [decide_eq_false hn] at heq
    rw [nodesCut, if_neg hn, decide_eq_false hn]
    exact ⟨im1, l1, by simp only [heq], h1, hok1⟩

theorem freesTree_freeIndirect (hfree : FreesTree k freeEntry) :
    FreesTree (k + 1) fun im nb nblk => (freeIndirect stale freeEntry (nindir ^ k) im nb nblk).2 := by
  intro im l p base nblk hok h hp hT hn
  obtain ⟨im', l', heq, hrel, hok'⟩ := freeIndirect_spec stale hfree hok h hp hT nblk
  rw [nodesCut, if_pos hn] at hrel
  dsimp only
  rw [heq]
  exact ⟨l', hrel, hok'⟩

end Release

section Roots

variable {im : Image} {l : List ℕ} {addr : ℕ → ℕ} {size r : ℕ} {nblk : ℤ} (stale : ℕ → Block)

def Dead (size : ℕ) (nblk : ℤ) (r : ℕ) : Prop :=
  if r < ndaddr then size ≤ r * bsize else nblk ≤ rootBase r

instance (size : ℕ) (nblk : ℤ) (r : ℕ) : Decidable (Dead size nblk r) := by
  unfold Dead
  infer_instance

/-- What is freed behind the address at index `r`. -/
def rootCut (disk : ℕ → Block) (addr : ℕ → ℕ) (size : ℕ) (nblk : ℤ) (r : ℕ) : Set Node :=
  if Dead size nblk r then rootNodes disk addr r
  else if r < ndaddr then ∅
  else nodesBeyond disk (r - ndaddr) (addr r) (rootBase r) (nblk - rootBase r)

theorem freeRoot_indirect (size : ℕ) (nblk : ℤ) {k : ℕ} (hk : k < 3) : ∃ freeEntry, FreesTree k freeEntry ∧
    ∀ im blk, freeRoot stale size nblk im (ndaddr + k) blk =
      freeIndirect stale freeEntry (nindir ^ k) im blk (nblk - rootBase (ndaddr + k)) := by
  have h0 := freesTree_freeBlock stale
  have h1 := freesTree_freeIndirect stale h0
  have h2 := freesTree_freeIndirect stale h1
  interval_cases k
  · exact ⟨_, h0, fun _ _ => rfl⟩
  · exact ⟨_, h1, fun _ _ => rfl⟩
  · exact ⟨_, h2, fun _ _ => rfl⟩

theorem freeRoot_direct (size : ℕ) (nblk : ℤ) (hr : r < ndaddr) (im : Image) (blk : ℕ) :
    freeRoot stale size nblk im r blk = if r * bsize < size then (false, im) else (true, im.freeBlock stale blk) := by
  rw [freeRoot, if_neg, if_neg, if_neg]
  all_goals
    simp only [ndaddr] at hr
    omega

theorem freeRoot_spec (size : ℕ) (nblk : ℤ) (hok : im.Ok) (h : im.view.Consistent l)
    (hr : r < naddr) (hp : addr r ≠ 0) (hT : TreeOk im.view.fs l (rootNodes im.disk addr r)) :
    ∃ im' l', freeRoot stale size nblk im r (addr r) = (decide (Dead size nblk r), im') ∧
      Released im.view im'.view l l' (block '' rootCut im.disk addr size nblk r)
        (block '' rootCut im.disk addr size nblk r) ∧ im'.Ok := by
  by_cases hd : r < ndaddr
  · have hz : rootHeight r = 0 := by
      simp only [rootHeight] at *
      omega
    have hdead : Dead size nblk r ↔ size ≤ r * bsize := by rw [Dead, if_pos hd]
    rw [freeRoot_direct stale size nblk hd, rootCut]
    by_cases hlt : r * bsize < size
    · have hnot : ¬ Dead size nblk r := by rwa [hdead, not_le]
      rw [if_pos hlt, decide_eq_false hnot, if_neg hnot, if_pos hd, image_empty]
      exact ⟨im, l, rfl, .refl h, hok⟩
    · have hyes : Dead size nblk r := hdead.2 (not_lt.1 hlt)
      rw [if_neg hlt, decide_eq_true hyes, if_pos hyes]
      rw [rootNodes, hz] at hT ⊢
      obtain ⟨l', hrel, hok'⟩ := freesTree_freeBlock stale im l _ _ 0 hok h hp hT le_rfl
      exact ⟨_, l', rfl, hrel, hok'⟩
  · obtain ⟨k, rfl⟩ : ∃ k, r = ndaddr + k := ⟨r - ndaddr, by omega⟩
    have hk : k < 3 := by
      simp only [naddr, ndaddr] at hr
      omega
    have hz : rootHeight (ndaddr + k) = k + 1 := by
      simp only [rootHeight, ndaddr]
      omega
    rw [rootNodes, hz] at hT
    obtain ⟨freeEntry, hfree, heq⟩ := freeRoot_indirect stale size nblk hk
    obtain ⟨im', l', hcall, hrel, hok'⟩ :=
      freeIndirect_spec stale hfree hok h hp hT (nblk - rootBase (ndaddr + k))
    have hdead : Dead size nblk (ndaddr + k) ↔ nblk - rootBase (ndaddr + k) ≤ 0 := by
      rw [Dead, if_neg hd, sub_nonpos]
    have hcut : rootCut im.disk addr size nblk (ndaddr + k) =
        nodesCut im.disk k (addr (ndaddr + k)) (rootBase (ndaddr + k)) (nblk - rootBase (ndaddr + k)) := by
      rw [rootCut, if_neg hd, Nat.add_sub_cancel_left, rootNodes, hz]
      exact if_congr hdead rfl rfl
    refine ⟨im', l', ?_, ?_, hok'⟩
    · rw [heq, hcall, decide_eq_decide.2 hdead]
    · rwa [hcut]

/-- The loop gets as far as a used address at index `r`. -/
def Touched (addr : ℕ → ℕ) (size : ℕ) (nblk : ℤ) (r : ℕ) : Prop :=
  addr r ≠ 0 ∧ ∀ s < naddr, r < s → addr s ≠ 0 → Dead size nblk s

instance (addr : ℕ → ℕ) (size : ℕ) (nblk : ℤ) (r : ℕ) : Decidable (Touched addr size nblk r) :=
  inferInstanceAs (Decidable (_ ∧ _))

/-- What the loop frees behind the addresses below `m`. -/
def loopCut (disk : ℕ → Block) (addr : ℕ → ℕ) (size : ℕ) (nblk : ℤ) (m : ℕ) : Set Node :=
  {n | ∃ r < m, Touched addr size nblk r ∧ n ∈ rootCut disk addr size nblk r}

def loopAddr (addr : ℕ → ℕ) (size : ℕ) (nblk : ℤ) (m : ℕ) (addr₁ : ℕ → ℕ) (r : ℕ) : ℕ :=
  if r < m ∧ Touched addr size nblk r ∧ Dead size nblk r then 0 else addr₁ r

theorem nodesBeyond_frame {st st1 : Filsys} {l1 : List ℕ} {B W : Set ℕ} {k p base : ℕ} (hr : Released st st1 l l1 B W)
    (hp : p ≠ 0) (hW : ∀ n ∈ treeNodes st.disk (k + 1) p base, n.block ∉ W) :
    nodesBeyond st1.disk k p base nblk = nodesBeyond st.disk k p base nblk := by
  have hroot : ∀ i, pointers st1.disk p i = pointers st.disk p i := by
    intro i
    rw [pointers, pointers, hr.frame p (hW _ (nodes_root hp))]
  refine Set.ext fun n => exists_congr fun i => and_congr_right fun hi => ?_
  rw [hroot, treeNodes_frame hr fun n hn => hW n (children_subset hp ⟨i, (mem_entriesFrom.1 hi).1, hn⟩)]

theorem rootHeight_of_le (hd : ¬ r < ndaddr) : rootHeight r = r - ndaddr + 1 := by
  simp only [rootHeight, ndaddr] at *
  omega

theorem rootCut_frame {st st1 : Filsys} {l1 : List ℕ} {B W : Set ℕ} (hr : Released st st1 l l1 B W) (hp : addr r ≠ 0)
    (hW : ∀ n ∈ rootNodes st.disk addr r, n.block ∉ W) :
    rootCut st1.disk addr size nblk r = rootCut st.disk addr size nblk r := by
  rw [rootCut, rootCut, rootNodes, treeNodes_frame hr hW]
  by_cases hd : r < ndaddr
  · rw [if_pos hd, if_pos hd]
  · rw [rootNodes, rootHeight_of_le hd] at hW
    rw [nodesBeyond_frame hr hp hW]

variable {disk : ℕ → Block}

theorem rootCut_subset (hp : addr r ≠ 0) : rootCut disk addr size nblk r ⊆ rootNodes disk addr r := by
  rw [rootCut]
  split_ifs with hdead hd
  · exact subset_rfl
  · exact empty_subset _
  · rw [rootNodes, rootHeight_of_le hd]
    exact nodesBeyond_subset.trans (children_subset hp)

section Step

variable {m : ℕ} {addr₁ : ℕ → ℕ}

theorem loopCut_succ (ht : Touched addr size nblk m) : loopCut disk addr size nblk (m + 1) =
    rootCut disk addr size nblk m ∪ loopCut disk addr size nblk m := by
  ext n
  constructor
  · rintro ⟨r, hr, hrt, hn⟩
    rcases eq_or_lt_of_le (Nat.lt_succ_iff.1 hr) with rfl | hlt
    · exact .inl hn
    · exact .inr ⟨r, hlt, hrt, hn⟩
  · rintro (hn | ⟨r, hr, hrt, hn⟩)
    · exact ⟨m, lt_succ_self m, ht, hn⟩
    · exact ⟨r, hr.trans (lt_succ_self m), hrt, hn⟩

theorem loopCut_succ_of_not (ht : ¬ Touched addr size nblk m) :
    loopCut disk addr size nblk (m + 1) = loopCut disk addr size nblk m := by
  ext n
  refine exists_congr fun r => ⟨fun ⟨hr, hrt, hn⟩ => ⟨?_, hrt, hn⟩, fun ⟨hr, hrn⟩ => ⟨hr.trans (lt_succ_self m), hrn⟩⟩
  rcases eq_or_lt_of_le (Nat.lt_succ_iff.1 hr) with rfl | hlt
  · exact absurd hrt ht
  · exact hlt

theorem loopAddr_succ (ht : Touched addr size nblk m) (hd : Dead size nblk m) :
    loopAddr addr size nblk m (update addr₁ m 0) = loopAddr addr size nblk (m + 1) addr₁ := by
  funext r
  rw [loopAddr, loopAddr]
  rcases lt_trichotomy r m with hr | rfl | hr
  · simp [hr, hr.trans (lt_succ_self m), hr.ne]
  · simp [ht, hd]
  · simp [hr.not_gt, show ¬ r < m + 1 by omega, hr.ne']

theorem loopAddr_succ_of_not (h : ¬ (Touched addr size nblk m ∧ Dead size nblk m)) :
    loopAddr addr size nblk (m + 1) addr₁ = loopAddr addr size nblk m addr₁ := by
  funext r
  refine if_congr (and_congr_left fun hr => ?_) rfl rfl
  have hne : r ≠ m := fun heq => h (heq ▸ hr)
  omega

theorem not_touched_of_lt (hm : m < naddr) (hp : addr m ≠ 0) (hd : ¬ Dead size nblk m) (hr : r < m) :
    ¬ Touched addr size nblk r :=
  fun ht => hd (ht.2 m hm hr hp)

theorem loopCut_of_not_touched (h : ∀ r < m, ¬ Touched addr size nblk r) : loopCut disk addr size nblk m = ∅ :=
  eq_empty_iff_forall_notMem.2 fun _ ⟨r, hr, ht, _⟩ => h r hr ht

theorem loopAddr_of_not_touched (h : ∀ r < m, ¬ Touched addr size nblk r) : loopAddr addr size nblk m addr₁ = addr₁ :=
  funext fun r => if_neg fun ⟨hr, ht, _⟩ => h r hr ht

end Step

theorem truncateLoop_spec (size : ℕ) (nblk : ℤ) {m : ℕ} (hm : m ≤ naddr)
    (hpass : ∀ s < naddr, m ≤ s → addr s ≠ 0 → Dead size nblk s)
    {addr₁ : ℕ → ℕ} (haddr : ∀ r < m, addr₁ r = addr r) (hok : im.Ok) (h : im.view.Consistent l)
    (hT : TreeOk im.view.fs l {n | ∃ r < m, n ∈ rootNodes im.disk addr r}) :
    ∃ im' l', truncateLoop stale size nblk (List.range m).reverse im addr₁ =
        (im', loopAddr addr size nblk m addr₁) ∧
      Released im.view im'.view l l' (block '' loopCut im.disk addr size nblk m)
        (block '' loopCut im.disk addr size nblk m) ∧ im'.Ok := by
  induction m generalizing im l addr₁ with
  | zero =>
    have hnone : ∀ r < 0, ¬ Touched addr size nblk r := fun r hr => absurd hr (not_lt_zero r)
    rw [loopCut_of_not_touched hnone, image_empty]
    exact ⟨im, l, rfl, .refl h, hok⟩
  | succ m ih =>
    have hlist : (List.range (m + 1)).reverse = m :: (List.range m).reverse := by simp [range_succ]
    rw [hlist, truncateLoop, haddr m (lt_succ_self m)]
    have haddr' : ∀ r < m, addr₁ r = addr r := fun r hr => haddr r (hr.trans (lt_succ_self m))
    have hsub : {n | ∃ r < m, n ∈ rootNodes im.disk addr r} ⊆ {n | ∃ r < m + 1, n ∈ rootNodes im.disk addr r} :=
      fun n ⟨r, hr, hn⟩ => ⟨r, hr.trans (lt_succ_self m), hn⟩
    have hpass' : (addr m ≠ 0 → Dead size nblk m) → ∀ s < naddr, m ≤ s → addr s ≠ 0 → Dead size nblk s := by
      intro hdead s hs hms hne
      rcases eq_or_lt_of_le hms with rfl | hlt
      · exact hdead hne
      · exact hpass s hs hlt hne
    by_cases hz : addr m = 0
    · have huntouched : ¬ Touched addr size nblk m := fun ht => ht.1 hz
      rw [if_pos hz, loopCut_succ_of_not huntouched, loopAddr_succ_of_not fun h => huntouched h.1]
      exact ih (by omega) (hpass' (absurd hz)) haddr' hok h (hT.mono hsub)
    · have htouched : Touched addr size nblk m := ⟨hz, hpass⟩
      obtain ⟨im1, l1, heq, h1, hok1⟩ := freeRoot_spec stale size nblk hok h hm hz
        (hT.mono fun n hn => ⟨m, lt_succ_self m, hn⟩)
      rw [if_neg hz, heq]
      by_cases hdead : Dead size nblk m
      · -- the trees behind the other addresses are as they were
        have hother : ∀ r < m, ∀ n ∈ rootNodes im.disk addr r,
            n.block ∉ block '' rootCut im.disk addr size nblk m := by
          rintro r hr n hn ⟨n', hn', hblock⟩
          have hn'' := rootCut_subset hz hn'
          have hnn := hT.inj ⟨m, lt_succ_self m, hn''⟩ (hsub ⟨r, hr, hn⟩) hblock
          subst hnn
          have := root_unique (by omega) (by omega) hn hn''
          omega
        have hsame : {n | ∃ r < m, n ∈ rootNodes im1.disk addr r} = {n | ∃ r < m, n ∈ rootNodes im.disk addr r} := by
          refine Set.ext fun n => exists_congr fun r => and_congr_right fun hr => ?_
          have hframe : rootNodes im1.disk addr r = rootNodes im.disk addr r := treeNodes_frame h1 (hother r hr)
          rw [hframe]
        have hcut : loopCut im1.disk addr size nblk m = loopCut im.disk addr size nblk m := by
          refine Set.ext fun n => exists_congr fun r => and_congr_right fun hr => and_congr_right fun ht => ?_
          have hframe : rootCut im1.disk addr size nblk r = rootCut im.disk addr size nblk r :=
            rootCut_frame h1 ht.1 (hother r hr)
          rw [hframe]
        have hT1 : TreeOk im1.view.fs l1 {n | ∃ r < m, n ∈ rootNodes im1.disk addr r} := by
          rw [hsame]
          exact (hT.mono hsub).released h1 fun n ⟨r, hr, hn⟩ => hother r hr n hn
        have haddr1 : ∀ r < m, update addr₁ m 0 r = addr r := by
          intro r hr
          rw [update_of_ne hr.ne, haddr' r hr]
        obtain ⟨im2, l2, heq2, h2, hok2⟩ := ih (by omega) (hpass' fun _ => hdead) haddr1 hok1 h1.consistent hT1
        rw [hcut] at h2
        rw [decide_eq_true hdead, loopCut_succ htouched, ← loopAddr_succ htouched hdead, image_union]
        exact ⟨im2, l2, heq2, h1.trans h2, hok2⟩
      · have hnone := fun r (hr : r < m) => not_touched_of_lt hm hz hdead hr
        rw [decide_eq_false hdead, loopCut_succ htouched, loopCut_of_not_touched hnone, union_empty,
          loopAddr_succ_of_not fun h => hdead h.2, loopAddr_of_not_touched hnone]
        exact ⟨im1, l1, rfl, h1, hok1⟩

end Roots

end RetroBSD.Fsutil
