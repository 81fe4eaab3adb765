import RetroBSD.ImageRelease

/-!
# Truncation in the image tool

`fs_inode_truncate` releases whole trees correctly. When the new end of the file lies
inside the range of an indirect block it frees entries of that block without clearing
them, and does not look into the entry that is kept in part. So it is exact only when
there is nothing to free in that tree.
-/

namespace RetroBSD.Fsutil

open LittleEndian Ufs RadixTree Function List Nat Set Image Node

section Write

variable {im : Image} {l : List ℕ} {b nb k base : ℕ} {disk : ℕ → Block}

theorem Image.allocLoop_frame (fuel : ℕ) (im : Image) : (allocLoop fuel im).2.disk = im.disk ∧
    (allocLoop fuel im).2.fs.isize = im.fs.isize ∧ (allocLoop fuel im).2.fs.fsize = im.fs.fsize := by
  induction fuel generalizing im with
  | zero => exact ⟨rfl, rfl, rfl⟩
  | succ fuel ih =>
    rw [allocLoop]
    dsimp only
    split_ifs with hfirst hlast hzero hzero
    · exact ⟨rfl, rfl, rfl⟩
    · cases im.takeLast.readBlock (im.fs.free (im.fs.nfree - 1)) with
      | none => exact ⟨rfl, rfl, rfl⟩
      | some buf => exact ih _
    · cases im.takeLast.readBlock (im.fs.free (im.fs.nfree - 1)) with
      | none | some => exact ⟨rfl, rfl, rfl⟩
    · exact ih _
    · exact ⟨rfl, rfl, rfl⟩

theorem Image.writeBlock_spec (h : im.WellFormed l) (hsmall : im.Small) (hgood : ¬ badblock im.view.fs b) (hl : b ∉ l)
    (data : Block) : ∃ im', im.writeBlock b data = some im' ∧ im'.WellFormed l ∧ im'.Small ∧
      im'.disk = update im.disk b data ∧ ∀ x, badblock im'.view.fs x ↔ badblock im.view.fs x := by
  obtain ⟨hi, hf⟩ := mem_of_good hgood
  have haddr := blockAddr_of_lt (hf.trans_le hsmall)
  obtain ⟨im', him'⟩ : ∃ im', im' = { im with
    fs := { im.fs with modified := true }
    disk := update im.disk (blockAddr b) data
    length := max im.length (blockAddr b + 1) } := ⟨_, rfl⟩
  have hok' : im'.Ok := by
    rw [him']
    exact ⟨h.nfree_pos.1, h.nfree_pos.2, h.length.trans (le_max_left _ _), hsmall⟩
  have hview : im'.view = im.view.write b data := by
    rw [him', haddr]
    rfl
  refine ⟨im', ?_, hok'.wellFormed ?_, hok'.small, ?_, ?_⟩
  · rw [writeBlock, if_neg (not_lt.2 hi), him']
  · rw [hview]
    exact (h.consistent _).write hl data
  · rw [him', haddr]
  · intro x
    rw [him']
    rfl

theorem badblock_congr {im1 : Image} (hisize : im1.fs.isize = im.fs.isize) (hfsize : im1.fs.fsize = im.fs.fsize) :
    badblock im1.view.fs b ↔ badblock im.view.fs b := by
  have h1 : im1.view.fs.fsIsize = im.view.fs.fsIsize := hisize
  have h2 : im1.view.fs.fsFsize = im.view.fs.fsFsize := hfsize
  rw [badblock, badblock, h1, h2]

theorem Image.blockAlloc_some {im1 : Image} (h : im.WellFormed l) (hsmall : im.Small)
    (heq : im.blockAlloc = (some b, im1)) : ∃ l1, l = b :: l1 ∧ im1.WellFormed l1 ∧ im1.Small ∧ im1.disk = im.disk ∧
      ∀ x, badblock im1.view.fs x ↔ badblock im.view.fs x := by
  have hframe := allocLoop_frame (im.fs.nfree + 1) im
  rw [← blockAlloc, heq] at hframe
  cases l with
  | nil =>
    obtain ⟨hnone, -⟩ := blockAlloc_nil h
    rw [heq] at hnone
    cases hnone
  | cons b' l1 =>
    obtain ⟨im', hsome, hwf, hsmall'⟩ := blockAlloc_cons h hsmall
    rw [heq] at hsome
    cases hsome
    exact ⟨l1, rfl, hwf, hsmall', hframe.1, fun _ => badblock_congr hframe.2.1 hframe.2.2⟩

/-- A block is one of the file's own, or comes off the free list. -/
structure Lands (l : List ℕ) (T : Set Node) (r : ℕ × Image) : Prop where
  off : ∃ l', r.2.WellFormed l' ∧ r.1 ∉ l'
  own : r.1 ∈ l ∨ r.1 ∈ block '' T

theorem Lands.mono {T T' : Set Node} {l' : List ℕ} {r : ℕ × Image} (h : Lands l T r)
    (hown : ∀ b, b ∈ l ∨ b ∈ block '' T → b ∈ l' ∨ b ∈ block '' T') : Lands l' T' r :=
  ⟨h.off, hown _ h.own⟩

theorem treeNodes_zero (hb : b ≠ 0) (hdisk : disk b = zeroBlock) :
    treeNodes disk k b base = {⟨k, base, b⟩} := by
  refine nodes_of_empty hb fun _ i _ => ?_
  rw [pointers, hdisk]
  rfl

theorem treeOk_fresh {fs : Ufs.Fs} (base : ℕ) (hb : b ≠ 0) (hdisk : disk b = zeroBlock)
    (hgood : ¬ badblock fs b) (hl : b ∉ l) : TreeOk fs l (treeNodes disk k b base) := by
  rw [treeNodes_zero hb hdisk]
  refine ⟨injOn_singleton _ _, fun n hn => ?_, fun n hn => ?_⟩
  · rw [mem_singleton_iff.1 hn]
    exact hgood
  · rw [mem_singleton_iff.1 hn]
    exact hl

theorem Lands.of_fresh {T : Set Node} {r : ℕ × Image} (hb : b ≠ 0) (hdisk : disk b = zeroBlock)
    (h : Lands l (treeNodes disk k b base) r) : Lands (b :: l) T r := by
  refine h.mono fun b' hb' => .inl ?_
  rw [treeNodes_zero hb hdisk, image_singleton] at hb'
  exact hb'.elim (mem_cons_of_mem _) fun heq => heq ▸ mem_cons_self

theorem Image.WellFormed.ne_zero (h : im.WellFormed l) (hb : b ∈ l) : b ≠ 0 := by
  have := h.isize_pos
  have := (h.valid b hb).1
  omega

theorem mapFetch_lands (lbn : ℕ) (h : im.WellFormed l) (hsmall : im.Small) (hnb : nb ≠ 0)
    (hT : TreeOk im.view.fs l (treeNodes im.disk k nb base)) (hne : (mapFetch lbn k im nb).1 ≠ 0) :
    Lands l (treeNodes im.disk k nb base) (mapFetch lbn k im nb) := by
  induction k generalizing im l nb base with
  | zero =>
    have hroot : (⟨0, base, nb⟩ : Node) ∈ treeNodes im.disk 0 nb base := nodes_root hnb
    exact ⟨⟨l, h, hT.unlisted _ hroot⟩, .inr ⟨_, hroot, rfl⟩⟩
  | succ k ih =>
    have hroot : (⟨k + 1, base, nb⟩ : Node) ∈ treeNodes im.disk (k + 1) nb base := nodes_root hnb
    have hgood := hT.good _ hroot
    obtain ⟨hi, hf⟩ := mem_of_good hgood
    rw [mapFetch, readBlock_of_mem hi hf h.length hsmall] at hne ⊢
    dsimp only at hne ⊢
    have hidx : lbn / nindir ^ k % nindir < nindir := mod_lt _ nindir_pos
    generalize lbn / nindir ^ k % nindir = i at hne hidx ⊢
    by_cases hz : word (im.disk nb) i = 0
    · rw [if_neg (not_not.2 hz)] at hne ⊢
      rcases hr : im.blockAlloc with ⟨_ | b, im1⟩
      · rw [hr] at hne
        exact absurd rfl hne
      · rw [hr] at hne
        obtain ⟨l1, rfl, h1, hsmall1, -, hbad1⟩ := blockAlloc_some h hsmall hr
        have hnbl : nb ∉ l1 := fun hmem => hT.unlisted _ hroot (mem_cons_of_mem _ hmem)
        have hbl : b ∉ l1 := (nodup_cons.1 h.nodup).1
        have hbgood : ¬ badblock im.view.fs b := (h.consistent _).valid b mem_cons_self
        obtain ⟨im2, heq2, h2, hsmall2, -, hbad2⟩ := writeBlock_spec h1 hsmall1
          (by rwa [hbad1]) hnbl (setWord (im.disk nb) i b)
        obtain ⟨im3, heq3, h3, hsmall3, hdisk3, hbad3⟩ := writeBlock_spec h2 hsmall2
          (by rwa [hbad2, hbad1]) hbl zeroBlock
        simp only [heq2, heq3] at hne ⊢
        have hb := h.ne_zero mem_cons_self
        have hzero : im3.disk b = zeroBlock := by rw [hdisk3, update_self]
        refine .of_fresh hb hzero (ih h3 hsmall3 hb (treeOk_fresh base hb hzero ?_ hbl) hne)
        rwa [hbad3, hbad2, hbad1]
    · rw [if_pos hz] at hne ⊢
      have hsub : treeNodes im.disk k (word (im.disk nb) i) (base + i * nindir ^ k) ⊆
          treeNodes im.disk (k + 1) nb base := fun n hn => children_subset hnb ⟨i, hidx, hn⟩
      refine (ih h hsmall hz (hT.mono hsub) hne).mono ?_
      exact fun b' => Or.imp_right fun hb' => image_mono hsub hb'

theorem indirection_level {n level rel : ℕ} (h : indirection n = some (level, rel)) : 0 < level ∧ level ≤ 3 := by
  rw [indirection] at h
  split_ifs at h
  all_goals
    cases h
    decide

theorem rootNodes_subset_file {addr : ℕ → ℕ} {r : ℕ} (hr : r < naddr) :
    rootNodes disk addr r ⊆ fileNodes disk addr := fun _ hn => ⟨r, mem_range.2 hr, hn⟩

/-- Where `map_block_write` lands when no pointer of the file leads to a free block. -/
theorem mapBlockWrite_lands {ip : Inode} (lbn : ℕ) (h : im.WellFormed l) (hsmall : im.Small)
    (hT : TreeOk im.view.fs l (fileNodes im.disk ip.addr)) (hne : (mapBlockWrite im ip lbn).1 ≠ 0) :
    Lands l (fileNodes im.disk ip.addr) ((mapBlockWrite im ip lbn).1, (mapBlockWrite im ip lbn).2.1) := by
  rw [mapBlockWrite] at hne ⊢
  by_cases hd : lbn < naddr - 3
  · rw [if_pos hd] at hne ⊢
    by_cases hz : ip.addr lbn = 0
    · rw [if_neg (not_not.2 hz)] at hne ⊢
      rcases hr : im.blockAlloc with ⟨_ | b, im1⟩
      · rw [hr] at hne
        exact absurd rfl hne
      · obtain ⟨l1, rfl, h1, -⟩ := blockAlloc_some h hsmall hr
        exact ⟨⟨l1, h1, (nodup_cons.1 h.nodup).1⟩, .inl mem_cons_self⟩
    · rw [if_pos hz]
      have hr : lbn < naddr := by omega
      have hroot : (⟨rootHeight lbn, rootBase lbn, ip.addr lbn⟩ : Node) ∈ fileNodes im.disk ip.addr :=
        rootNodes_subset_file hr (nodes_root hz)
      exact ⟨⟨l, h, hT.unlisted _ hroot⟩, .inr ⟨_, hroot, rfl⟩⟩
  · rw [if_neg hd] at hne ⊢
    set o := indirection (lbn - (naddr - 3)) with ho
    obtain _ | ⟨level, rel⟩ := o
    · exact absurd rfl hne
    · obtain ⟨-, hle⟩ := indirection_level ho.symm
      dsimp only at hne ⊢
      have hr : ndaddr + level - 1 < naddr := by
        simp only [ndaddr, naddr]
        omega
      have hheight : rootHeight (ndaddr + level - 1) = level := by
        simp only [rootHeight, ndaddr]
        omega
      generalize ndaddr + level - 1 = r at hne hr hheight ⊢
      split_ifs at hne ⊢ with hz
      · rcases hq : im.blockAlloc with ⟨_ | b, im1⟩
        · rw [hq] at hne
          exact absurd rfl hne
        · rw [hq] at hne
          obtain ⟨l1, rfl, h1, hsmall1, -, hbad1⟩ := blockAlloc_some h hsmall hq
          have hbl : b ∉ l1 := (nodup_cons.1 h.nodup).1
          have hbgood : ¬ badblock im.view.fs b := (h.consistent _).valid b mem_cons_self
          obtain ⟨im2, heq2, h2, hsmall2, hdisk2, hbad2⟩ := writeBlock_spec h1 hsmall1
            (by rwa [hbad1]) hbl zeroBlock
          simp only [heq2] at hne ⊢
          have hb := h.ne_zero mem_cons_self
          have hzero : im2.disk b = zeroBlock := by rw [hdisk2, update_self]
          refine .of_fresh hb hzero (mapFetch_lands rel h2 hsmall2 hb
            (treeOk_fresh 0 hb hzero ?_ hbl) hne)
          rwa [hbad2, hbad1]
      · have hsub : treeNodes im.disk level (ip.addr r) (rootBase r) ⊆ fileNodes im.disk ip.addr := by
          rw [← hheight]
          exact rootNodes_subset_file hr
        refine (mapFetch_lands rel h hsmall hz (hT.mono hsub) hne).mono ?_
        exact fun b' => Or.imp_right fun hb' => image_mono hsub hb'

end Write

section Exact

variable {im im' : Image} {ip : Inode} {l l' : List ℕ} {disk : ℕ → Block} {addr : ℕ → ℕ} {size r : ℕ} {nblk : ℤ}
  {n : Node}

theorem loopCut_subset : loopCut disk addr size nblk naddr ⊆ fileNodes disk addr :=
  fun _ ⟨_, hr, ht, hn⟩ => rootNodes_subset_file hr (rootCut_subset ht.1 hn)

theorem mem_loopCut (hr : r < naddr) (hn : n ∈ rootNodes disk addr r) :
    n ∈ loopCut disk addr size nblk naddr ↔ Touched addr size nblk r ∧ n ∈ rootCut disk addr size nblk r := by
  constructor
  · rintro ⟨s, hs, ht, hns⟩
    obtain rfl := root_unique hr hs hn (rootCut_subset ht.1 hns)
    exact ⟨ht, hns⟩
  · rintro ⟨ht, hcut⟩
    exact ⟨r, hr, ht, hcut⟩

theorem addr_ne_zero_of_mem (hn : n ∈ rootNodes disk addr r) : addr r ≠ 0 := by
  intro hz
  rw [rootNodes, hz, treeNodes_null] at hn
  exact hn

theorem lt_blocksFor {i : ℕ} : i < blocksFor size ↔ i * bsize < size := by
  simp only [blocksFor, devBsize, bsize]
  omega

theorem keepBlocks_eq (hc : blocksFor size < 2 ^ 31) : keepBlocks size = blocksFor size := by
  have hsize : size + bsize - 1 < 2 ^ 64 := by
    simp only [blocksFor, devBsize, bsize] at *
    omega
  have hmod : (size + bsize - 1) / bsize % wordMod = blocksFor size := by
    refine mod_eq_of_lt (hc.trans ?_)
    decide
  rw [keepBlocks, mod_eq_of_lt hsize, hmod, signed_of_lt hc]

theorem rootBase_direct (hd : r < ndaddr) : rootBase r = r := if_pos hd.le

theorem dead_direct (hd : r < ndaddr) : Dead size nblk r ↔ blocksFor size ≤ r := by
  rw [Dead, if_pos hd, ← not_lt, ← not_lt, lt_blocksFor]

theorem dead_indirect (hd : ¬ r < ndaddr) : Dead size nblk r ↔ nblk ≤ rootBase r := by
  rw [Dead, if_neg hd]

/-- While the number of blocks fits an `int`, the test is the right one. -/
theorem dead_iff (hc : blocksFor size < 2 ^ 31) : Dead size (keepBlocks size) r ↔ blocksFor size ≤ rootBase r := by
  by_cases hd : r < ndaddr
  · rw [dead_direct hd, rootBase_direct hd]
  · rw [dead_indirect hd, keepBlocks_eq hc, cast_le]

theorem start_lt_of_big (hc : 2 ^ 31 ≤ blocksFor size) (hn : n ∈ fileNodes disk addr) : n.start < blocksFor size := by
  have hlt := leaf_lt_maxBlocks hn
  have hmax : maxBlocks < 2 ^ 31 := by decide
  omega

theorem mem_rootCut_alive (hd : ¬ r < ndaddr) (halive : ¬ Dead size nblk r) : n ∈ rootCut disk addr size nblk r ↔
    ∃ i < nindir, nblk ≤ (rootBase r + i * nindir ^ (r - ndaddr) : ℕ) ∧
      n ∈ treeNodes disk (r - ndaddr) (pointers disk (addr r) i) (rootBase r + i * nindir ^ (r - ndaddr)) := by
  rw [rootCut, if_neg halive, if_neg hd]
  refine exists_congr fun i => ?_
  rw [mem_entriesFrom, and_assoc, cast_add, sub_le_iff_le_add']

theorem mem_rootNodes_indirect (hd : ¬ r < ndaddr) (hp : addr r ≠ 0) : n ∈ rootNodes disk addr r ↔
    n = ⟨r - ndaddr + 1, rootBase r, addr r⟩ ∨ ∃ i < nindir,
      n ∈ treeNodes disk (r - ndaddr) (pointers disk (addr r) i) (rootBase r + i * nindir ^ (r - ndaddr)) := by
  rw [rootNodes, rootHeight_of_le hd]
  exact and_iff_right hp

/-- When `fs_inode_truncate` is exact. The count of blocks is right: then behind the address
where something is kept there is nothing to free. It does not fit an `int`: then the last
tree in use has its root and the blocks its entries point to before the count that remains. -/
structure Clean (disk : ℕ → Block) (addr : ℕ → ℕ) (size : ℕ) : Prop where
  fits : blocksFor size < 2 ^ 31 → ∀ r < naddr, rootBase r < blocksFor size →
    ∀ n ∈ rootNodes disk addr r, n.start < blocksFor size
  wraps : 2 ^ 31 ≤ blocksFor size → ∀ r < naddr, ndaddr ≤ r → (∀ s < naddr, r < s → addr s = 0) →
    ∀ n ∈ rootNodes disk addr r, rootHeight r ≤ n.height + 1 → (n.start : ℤ) < keepBlocks size

theorem exists_last (hr : r < naddr) (hp : addr r ≠ 0) :
    ∃ s < naddr, r ≤ s ∧ addr s ≠ 0 ∧ ∀ t < naddr, s < t → addr t = 0 := by
  have hle : r ≤ naddr - 1 := by omega
  refine ⟨Nat.findGreatest (fun s => addr s ≠ 0) (naddr - 1), ?_, le_findGreatest hle hp,
    findGreatest_spec (P := fun s => addr s ≠ 0) hle hp, ?_⟩
  · have := findGreatest_le (P := fun s => addr s ≠ 0) (naddr - 1)
    omega
  · intro t ht hlt
    by_contra hne
    exact findGreatest_is_greatest hlt (by omega) hne

variable (h : Clean disk addr size)
include h

theorem Clean.alive_of_wraps (hc : 2 ^ 31 ≤ blocksFor size) (hr : r < naddr)
    (hp : addr r ≠ 0) (hlast : ∀ t < naddr, r < t → addr t = 0) : ¬ Dead size (keepBlocks size) r := by
  by_cases hd : r < ndaddr
  · rw [dead_direct hd]
    simp only [ndaddr] at hd
    omega
  · rw [dead_indirect hd, not_le]
    exact h.wraps hc r hr (not_lt.1 hd) hlast ⟨rootHeight r, rootBase r, addr r⟩ (nodes_root hp) (le_succ _)

/-- With a count that does not fit, the loop stops at the last address in use. -/
theorem Clean.last_of_touched (hc : 2 ^ 31 ≤ blocksFor size) (hr : r < naddr)
    (ht : Touched addr size (keepBlocks size) r) : ∀ s < naddr, r < s → addr s = 0 := by
  obtain ⟨s, hs, hrs, hps, hlast⟩ := exists_last hr ht.1
  rcases eq_or_lt_of_le hrs with rfl | hlt
  · exact hlast
  · exact absurd (ht.2 s hs hlt hps) (h.alive_of_wraps hc hs hps hlast)

theorem Clean.rootCut_eq_empty (hr : r < naddr)
    (ht : Touched addr size (keepBlocks size) r) (halive : ¬ Dead size (keepBlocks size) r) :
    rootCut disk addr size (keepBlocks size) r = ∅ := by
  by_cases hd : r < ndaddr
  · rw [rootCut, if_neg halive, if_pos hd]
  · refine eq_empty_iff_forall_notMem.2 fun n hn => ?_
    obtain ⟨i, hi, hle, hentry⟩ := (mem_rootCut_alive hd halive).1 hn
    by_cases hc : blocksFor size < 2 ^ 31
    · have hbase := (dead_iff hc).not.1 halive
      have hlt := h.fits hc r hr (by omega) n (rootCut_subset ht.1 hn)
      rw [keepBlocks_eq hc] at hle
      have := (nodes_range hentry).2.1
      omega
    · have hq : pointers disk (addr r) i ≠ 0 := fun hz => by
        rw [hz, treeNodes_null] at hentry
        exact hentry
      have hroot : (⟨r - ndaddr, rootBase r + i * nindir ^ (r - ndaddr), pointers disk (addr r) i⟩ : Node) ∈
          rootNodes disk addr r := (mem_rootNodes_indirect hd ht.1).2 (.inr ⟨i, hi, nodes_root hq⟩)
      have hlt := h.wraps (not_lt.1 hc) r hr (not_lt.1 hd) (h.last_of_touched (not_lt.1 hc) hr ht) _ hroot
        (rootHeight_of_le hd).le
      exact absurd hle (not_le.2 hlt)

theorem Clean.freed_iff (hr : r < naddr) (hn : n ∈ rootNodes disk addr r) :
    Touched addr size (keepBlocks size) r ∧ Dead size (keepBlocks size) r ↔ blocksFor size ≤ n.start := by
  have hp := addr_ne_zero_of_mem hn
  by_cases hc : blocksFor size < 2 ^ 31
  · constructor
    · rintro ⟨-, hdead⟩
      exact ((dead_iff hc).1 hdead).trans (nodes_range hn).2.1
    · intro hle
      have hbase : blocksFor size ≤ rootBase r := by
        by_contra hlt
        have := h.fits hc r hr (not_le.1 hlt) n hn
        omega
      refine ⟨⟨hp, fun s hs hrs _ => (dead_iff hc).2 ?_⟩, (dead_iff hc).2 hbase⟩
      have := rootBase_next hr hs hrs
      omega
  · have hlt := start_lt_of_big (not_lt.1 hc) (rootNodes_subset_file hr hn)
    refine iff_of_false ?_ (not_le.2 hlt)
    rintro ⟨ht, hdead⟩
    exact h.alive_of_wraps (not_lt.1 hc) hr hp (h.last_of_touched (not_lt.1 hc) hr ht) hdead

theorem Clean.loopCut_eq :
    loopCut disk addr size (keepBlocks size) naddr = {n ∈ fileNodes disk addr | blocksFor size ≤ n.start} := by
  ext n
  refine ⟨fun hn => ⟨loopCut_subset hn, ?_⟩, ?_⟩
  · obtain ⟨r, hr, ht, hcut⟩ := hn
    refine (h.freed_iff hr (rootCut_subset ht.1 hcut)).1 ⟨ht, ?_⟩
    by_contra halive
    rw [h.rootCut_eq_empty hr ht halive] at hcut
    exact hcut
  · rintro ⟨⟨r, hr, hn⟩, hle⟩
    have hr' := mem_range.1 hr
    obtain ⟨ht, hdead⟩ := (h.freed_iff hr' hn).2 hle
    refine ⟨r, hr', ht, ?_⟩
    rwa [rootCut, if_pos hdead]

omit h

theorem block_mem_loopCut (hT : TreeOk im.view.fs l (fileNodes im.disk addr)) (hn : n ∈ fileNodes im.disk addr)
    (hmem : n.block ∈ block '' loopCut im.disk addr size nblk naddr) : n ∈ loopCut im.disk addr size nblk naddr := by
  obtain ⟨n', hn', hblock⟩ := hmem
  rwa [← hT.inj (loopCut_subset hn') hn hblock]

theorem truncate_spec (stale : ℕ → Block) (size : ℕ) (hok : im.Ok) (h : im.view.Consistent l)
    (hT : TreeOk im.view.fs l (fileNodes im.disk ip.addr)) (hchr : fileType ip.mode ≠ modeFchr)
    (hblk : fileType ip.mode ≠ modeFblk) : ∃ im' l', truncate stale im ip size = (im', { ip with
        addr := loopAddr ip.addr size (keepBlocks size) naddr ip.addr, size := size, dirty := true }) ∧
      Released im.view im'.view l l' (block '' loopCut im.disk ip.addr size (keepBlocks size) naddr)
        (block '' loopCut im.disk ip.addr size (keepBlocks size) naddr) ∧ im'.Ok := by
  have hlist : [6, 5, 4, 3, 2, 1, 0] = (List.range naddr).reverse := by decide
  have hT' : TreeOk im.view.fs l {n | ∃ r < naddr, n ∈ rootNodes im.disk ip.addr r} :=
    hT.mono fun n ⟨r, hr, hn⟩ => rootNodes_subset_file hr hn
  obtain ⟨im', l', heq, hrel, hok'⟩ := truncateLoop_spec stale size (keepBlocks size) le_rfl
    (fun s hs hle _ => absurd hs (not_lt.2 hle)) (fun _ _ => rfl) hok h hT'
  refine ⟨im', l', ?_, hrel, hok'⟩
  rw [truncate, if_neg (not_or.2 ⟨hchr, hblk⟩), hlist]
  dsimp only
  rw [heq]

structure ExactCut (im im' : Image) (ip ip' : Inode) (l l' : List ℕ) (size : ℕ) : Prop where
  wellFormed : im'.WellFormed l'
  freed : ∀ b, b ∈ l' ↔ b ∈ l ∨ Uncovered (fileNodes im.disk ip.addr) (blocksFor size) b
  kept : ∀ n ∈ fileNodes im'.disk ip'.addr, n ∈ fileNodes im.disk ip.addr ∧ n.block ∉ l'
  later : ∀ lbn, (mapBlockWrite im' ip' lbn).1 ≠ 0 → Lands l' (fileNodes im'.disk ip'.addr)
    ((mapBlockWrite im' ip' lbn).1, (mapBlockWrite im' ip' lbn).2.1)

theorem mem_fileNodes_loopAddr (h : n ∈ fileNodes disk (loopAddr addr size nblk naddr addr)) :
    ∃ r < naddr, ¬ (Touched addr size nblk r ∧ Dead size nblk r) ∧ n ∈ rootNodes disk addr r := by
  obtain ⟨r, hr, hn⟩ := h
  have hr' := mem_range.1 hr
  have haddr := addr_ne_zero_of_mem hn
  have hkeep : ¬ (r < naddr ∧ Touched addr size nblk r ∧ Dead size nblk r) := fun hc => haddr (if_pos hc)
  rw [rootNodes, loopAddr, if_neg hkeep] at hn
  exact ⟨r, hr', fun hc => hkeep ⟨hr', hc⟩, hn⟩

theorem ExactCut.of_clean {ip' : Inode} (hok' : im'.Ok) (hT : TreeOk im.view.fs l (fileNodes im.disk ip.addr))
    (hrel : Released im.view im'.view l l' (block '' loopCut im.disk ip.addr size (keepBlocks size) naddr)
      (block '' loopCut im.disk ip.addr size (keepBlocks size) naddr))
    (haddr : ip'.addr = loopAddr ip.addr size (keepBlocks size) naddr ip.addr)
    (hclean : Clean im.disk ip.addr size) : ExactCut im im' ip ip' l l' size := by
  have hwf := hok'.wellFormed hrel.consistent
  -- the trees that stay have lost nothing
  have hkept : ∀ n ∈ fileNodes im'.disk ip'.addr, n ∈ fileNodes im.disk ip.addr ∧
      n.block ∉ block '' loopCut im.disk ip.addr size (keepBlocks size) naddr := by
    intro n hn
    rw [haddr] at hn
    obtain ⟨r, hr, hstay, hn⟩ := mem_fileNodes_loopAddr hn
    have hblocks : ∀ m ∈ rootNodes im.disk ip.addr r,
        m.block ∉ block '' loopCut im.disk ip.addr size (keepBlocks size) naddr := by
      intro m hm hmem
      have hmem' := block_mem_loopCut hT (rootNodes_subset_file hr hm) hmem
      rw [hclean.loopCut_eq] at hmem'
      exact hstay ((hclean.freed_iff hr hm).2 hmem'.2)
    have hframe : rootNodes im'.disk ip.addr r = rootNodes im.disk ip.addr r := treeNodes_frame hrel hblocks
    rw [hframe] at hn
    exact ⟨rootNodes_subset_file hr hn, hblocks n hn⟩
  have hT' : TreeOk im'.view.fs l' (fileNodes im'.disk ip'.addr) :=
    (hT.mono fun n hn => (hkept n hn).1).released hrel fun n hn => (hkept n hn).2
  refine ⟨hwf, fun b => ?_, fun n hn => ⟨(hkept n hn).1, hT'.unlisted n hn⟩, fun lbn hne => ?_⟩
  · rw [hrel.mem, or_comm, uncovered_iff, hclean.loopCut_eq]
  · exact mapBlockWrite_lands lbn hwf hok'.small hT' hne

theorem ExactCut.start_of_freed {ip' : Inode} (h : ExactCut im im' ip ip' l l' size)
    (hT : TreeOk im.view.fs l (fileNodes im.disk ip.addr)) (hn : n ∈ fileNodes im.disk ip.addr)
    (hmem : n.block ∈ l') : blocksFor size ≤ n.start := by
  rcases (h.freed n.block).1 hmem with hl | hun
  · exact absurd hl (hT.unlisted n hn)
  · obtain ⟨m, ⟨hm, hle⟩, hblock⟩ := uncovered_iff.1 hun
    rwa [← hT.inj hm hn hblock]

/-- An entry freed of a tree that is kept in part is still there: the indirect block has not
been written. -/
theorem stale_entry {i : ℕ} (hT : TreeOk im.view.fs l (fileNodes im.disk addr))
    (hrel : Released im.view im'.view l l' (block '' loopCut im.disk addr size nblk naddr)
      (block '' loopCut im.disk addr size nblk naddr)) (hr : r < naddr) (hd : ¬ r < ndaddr)
    (ht : Touched addr size nblk r) (halive : ¬ Dead size nblk r) (hi : i < nindir)
    (hq : pointers im.disk (addr r) i ≠ 0) (hle : nblk ≤ (rootBase r + i * nindir ^ (r - ndaddr) : ℕ)) :
    ⟨r - ndaddr, rootBase r + i * nindir ^ (r - ndaddr), pointers im.disk (addr r) i⟩ ∈
        fileNodes im'.disk (loopAddr addr size nblk naddr addr) ∧
      pointers im.disk (addr r) i ∈ l' := by
  have hnode : (⟨r - ndaddr, rootBase r + i * nindir ^ (r - ndaddr), pointers im.disk (addr r) i⟩ : Node) ∈
      rootNodes im.disk addr r := (mem_rootNodes_indirect hd ht.1).2 (.inr ⟨i, hi, nodes_root hq⟩)
  have hcut : (⟨r - ndaddr, rootBase r + i * nindir ^ (r - ndaddr), pointers im.disk (addr r) i⟩ : Node) ∈
      rootCut im.disk addr size nblk r := (mem_rootCut_alive hd halive).2 ⟨i, hi, hle, nodes_root hq⟩
  refine ⟨?_, hrel.mem.2 (.inl ⟨_, (mem_loopCut hr hnode).2 ⟨ht, hcut⟩, rfl⟩)⟩
  have hroot : (⟨r - ndaddr + 1, rootBase r, addr r⟩ : Node) ∈ rootNodes im.disk addr r :=
    (mem_rootNodes_indirect hd ht.1).2 (.inl rfl)
  have hunwritten : addr r ∉ block '' loopCut im.disk addr size nblk naddr := by
    intro hmem
    have hin := block_mem_loopCut hT (rootNodes_subset_file hr hroot) hmem
    obtain ⟨-, hcut'⟩ := (mem_loopCut hr hroot).1 hin
    obtain ⟨j, -, -, hj⟩ := (mem_rootCut_alive hd halive).1 hcut'
    exact absurd (nodes_range hj).1 (not_succ_le_self _)
  have hptr : pointers im'.disk (addr r) i = pointers im.disk (addr r) i := by
    have hframe : im'.disk (addr r) = im.disk (addr r) := hrel.frame _ hunwritten
    rw [pointers, pointers, hframe]
  have haddr : loopAddr addr size nblk naddr addr r = addr r := if_neg fun hc => halive hc.2.2
  refine rootNodes_subset_file hr ((mem_rootNodes_indirect hd ?_).2 (.inr ⟨i, hi, ?_⟩))
  · rw [haddr]
    exact ht.1
  · rw [haddr, hptr]
    exact nodes_root hq

theorem Clean.of_exactCut {ip' : Inode} (hT : TreeOk im.view.fs l (fileNodes im.disk ip.addr))
    (hrel : Released im.view im'.view l l' (block '' loopCut im.disk ip.addr size (keepBlocks size) naddr)
      (block '' loopCut im.disk ip.addr size (keepBlocks size) naddr))
    (haddr : ip'.addr = loopAddr ip.addr size (keepBlocks size) naddr ip.addr)
    (hcut : ExactCut im im' ip ip' l l' size) : Clean im.disk ip.addr size where
  fits := by
    intro hc r hr hbase n hn
    by_contra hlt
    have hle := not_lt.1 hlt
    have hp := addr_ne_zero_of_mem hn
    have hrange := nodes_range hn
    have hpos : 0 < nindir ^ n.height := Nat.pow_pos nindir_pos
    have hd : ¬ r < ndaddr := by
      intro hd
      have hz : rootHeight r = 0 := by
        simp only [rootHeight] at *
        omega
      rw [hz, pow_zero] at hrange
      omega
    have halive : ¬ Dead size (keepBlocks size) r := by
      rw [dead_iff hc, not_le]
      exact hbase
    have ht : Touched ip.addr size (keepBlocks size) r := by
      refine ⟨hp, fun s hs hrs _ => (dead_iff hc).2 ?_⟩
      have := rootBase_next hr hs hrs
      omega
    rcases (mem_rootNodes_indirect hd hp).1 hn with rfl | ⟨i, hi, hentry⟩
    · exact absurd hle (not_le.2 hbase)
    by_cases he : blocksFor size ≤ rootBase r + i * nindir ^ (r - ndaddr)
    · have hq : pointers im.disk (ip.addr r) i ≠ 0 := fun hz => by
        rw [hz, treeNodes_null] at hentry
        exact hentry
      have hkeep : keepBlocks size ≤ (rootBase r + i * nindir ^ (r - ndaddr) : ℕ) := by
        rw [keepBlocks_eq hc, cast_le]
        exact he
      obtain ⟨hfile, hmem⟩ := stale_entry hT hrel hr hd ht halive hi hq hkeep
      rw [← haddr] at hfile
      exact (hcut.kept _ hfile).2 hmem
    · -- the entry is kept in part, and nothing behind it is freed
      have hmem : n.block ∈ l' := (hcut.freed _).2
        (.inr (uncovered_iff.2 ⟨n, ⟨rootNodes_subset_file hr hn, hle⟩, rfl⟩))
      rcases hrel.mem.1 hmem with hfreed | hl
      · have hin := block_mem_loopCut hT (rootNodes_subset_file hr hn) hfreed
        obtain ⟨-, hroot⟩ := (mem_loopCut hr hn).1 hin
        obtain ⟨j, -, hj, hnj⟩ := (mem_rootCut_alive hd halive).1 hroot
        obtain rfl := entry_unique nindir_pos hentry hnj
        rw [keepBlocks_eq hc, cast_le] at hj
        exact he hj
      · exact hT.unlisted n (rootNodes_subset_file hr hn) hl
  wraps := by
    intro hc r hr hd hlast n hn hheight
    by_contra hlt
    have hle := not_lt.1 hlt
    have hp := addr_ne_zero_of_mem hn
    have ht : Touched ip.addr size (keepBlocks size) r := ⟨hp, fun s hs hrs hps => absurd (hlast s hs hrs) hps⟩
    -- nothing may be freed at all
    have hnone : ∀ m ∈ rootNodes im.disk ip.addr r, m ∉ rootCut im.disk ip.addr size (keepBlocks size) r := by
      intro m hm hmcut
      have hfile := rootNodes_subset_file hr hm
      have hmem : m.block ∈ l' := hrel.mem.2 (.inl ⟨m, (mem_loopCut hr hm).2 ⟨ht, hmcut⟩, rfl⟩)
      have := hcut.start_of_freed hT hfile hmem
      have := start_lt_of_big hc hfile
      omega
    have halive : ¬ Dead size (keepBlocks size) r := by
      intro hdead
      refine hnone n hn ?_
      rwa [rootCut, if_pos hdead]
    have hd' : ¬ r < ndaddr := not_lt.2 hd
    have hbase : rootBase r < keepBlocks size := by
      rw [dead_indirect hd', not_le] at halive
      exact halive
    rcases (mem_rootNodes_indirect hd' hp).1 hn with rfl | ⟨i, hi, hentry⟩
    · exact hlt hbase
    · refine hnone n hn ((mem_rootCut_alive hd' halive).2 ⟨i, hi, ?_, hentry⟩)
      obtain ⟨hheight', hlo, hhi⟩ := nodes_range hentry
      have heq : n.height = r - ndaddr := by
        rw [rootHeight_of_le hd'] at hheight
        omega
      rw [heq] at hhi
      have hstart : n.start = rootBase r + i * nindir ^ (r - ndaddr) := by omega
      rwa [← hstart]

/-- `fs_inode_truncate` is exact when there is nothing to free in the tree it keeps in part,
and only then. -/
theorem truncate_exact_iff (stale : ℕ → Block) (h : im.WellFormed l) (hsmall : im.Small)
    (hT : TreeOk im.view.fs l (fileNodes im.disk ip.addr)) (hchr : fileType ip.mode ≠ modeFchr)
    (hblk : fileType ip.mode ≠ modeFblk) (size : ℕ) :
    (∃ l', ExactCut im (truncate stale im ip size).1 ip (truncate stale im ip size).2 l l' size) ↔
      Clean im.disk ip.addr size := by
  obtain ⟨im', l', heq, hrel, hok'⟩ := truncate_spec stale size (h.ok hsmall) (h.consistent _) hT hchr hblk
  rw [heq]
  constructor
  · rintro ⟨l'', hcut⟩
    obtain rfl := hcut.wellFormed.chain.unique (hok'.wellFormed hrel.consistent).chain
    exact .of_exactCut hT hrel rfl hcut
  · intro hclean
    exact ⟨l', .of_clean hok' hT hrel rfl hclean⟩

/-- The new end of a file of `size` bytes is not inside a tree of indirect blocks that goes on
behind it. -/
def CutOk (size newsize : ℕ) : Prop :=
  blocksFor newsize < 2 ^ 31 ∧ ∀ r < naddr, rootBase r < blocksFor newsize →
    min (blocksFor size) (rootBase r + nindir ^ rootHeight r) ≤ blocksFor newsize

theorem CutOk.clean {newsize : ℕ} (h : CutOk size newsize)
    (hbelow : ∀ n ∈ fileNodes disk addr, n.start < blocksFor size) : Clean disk addr newsize where
  fits := by
    intro _ r hr hbase n hn
    have hlt := hbelow n (rootNodes_subset_file hr hn)
    obtain ⟨-, -, hend⟩ := nodes_range hn
    have hpos : 0 < nindir ^ n.height := Nat.pow_pos nindir_pos
    refine lt_of_lt_of_le (lt_min hlt ?_) (h.2 r hr hbase)
    omega
  wraps hc := absurd h.1 (not_lt.2 hc)

/-- Such a truncation is exact. If the blocks of the file were within its size, they still
are. -/
theorem CutOk.exact (stale : ℕ → Block) (h : im.WellFormed l) (hsmall : im.Small)
    (hT : TreeOk im.view.fs l (fileNodes im.disk ip.addr)) (hreg : fileType ip.mode = modeFreg)
    (hbelow : ∀ n ∈ fileNodes im.disk ip.addr, n.start < blocksFor ip.size) (hcut : CutOk ip.size size) :
    ∃ im' ip' l', truncate stale im ip size = (im', ip') ∧ ExactCut im im' ip ip' l l' size ∧
      ∀ n ∈ fileNodes im'.disk ip'.addr, n.start < blocksFor size := by
  obtain ⟨im', l', heq, hrel, hok'⟩ := truncate_spec stale size (h.ok hsmall) (h.consistent _) hT
    (hreg ▸ by decide) (hreg ▸ by decide)
  set ip' : Inode := { ip with
    addr := loopAddr ip.addr size (keepBlocks size) naddr ip.addr, size := size, dirty := true }
  have hexact : ExactCut im im' ip ip' l l' size := .of_clean hok' hT hrel rfl (hcut.clean hbelow)
  refine ⟨im', ip', l', heq, hexact, fun n hn => ?_⟩
  obtain ⟨hold, hlisted⟩ := hexact.kept n hn
  by_contra hle
  exact hlisted ((hexact.freed _).2 (.inr (uncovered_iff.2 ⟨n, ⟨hold, not_lt.1 hle⟩, rfl⟩)))

end Exact

/-- An image with a file of one indirect block, 7, whose first two entries are used. -/
def halfImage : Image where
  fs := ⟨2, 16, 0, 1, fun _ => 0, 0, fun _ => 0, 0, 0, false, false⟩
  disk := fun b => if b = 7 then setWord (setWord zeroBlock 0 8) 1 9 else zeroBlock
  length := 16

def halfFile : Inode := ⟨3, false, modeFreg, 1, 0, 0, 6144, fun i => if i = 4 then 7 else 0, 0, 0, 0, 0⟩

theorem halfImage_wellFormed : halfImage.WellFormed [] :=
  ⟨.last (by decide) rfl, by decide, by decide, by decide, by simp, nodup_nil, rfl⟩

theorem halfImage_small : halfImage.Small := show 16 ≤ 2 ^ 22 by decide

theorem halfImage_pointers (i : ℕ) :
    pointers halfImage.disk 7 i = if i = 1 then 9 else if i = 0 then 8 else 0 := by
  have hdisk : halfImage.disk 7 = setWord (setWord zeroBlock 0 8) 1 9 := rfl
  have hzero : word zeroBlock i = 0 := rfl
  rw [pointers, hdisk, word_setWord, word_setWord]
  rfl

theorem halfFile_nodes : fileNodes halfImage.disk halfFile.addr = {⟨1, 4, 7⟩, ⟨0, 4, 8⟩, ⟨0, 5, 9⟩} := by
  have hroot : ∀ r, r ≠ 4 → rootNodes halfImage.disk halfFile.addr r = ∅ := by
    intro r hr
    have hz : halfFile.addr r = 0 := if_neg hr
    rw [rootNodes, hz, treeNodes_null]
  have hfour : ∀ n, n ∈ rootNodes halfImage.disk halfFile.addr 4 ↔
      n = ⟨1, 4, 7⟩ ∨ ∃ i < nindir, n ∈ treeNodes halfImage.disk 0 (pointers halfImage.disk 7 i)
        (4 + i * nindir ^ 0) :=
    fun n => mem_rootNodes_indirect (by decide) (by decide)
  ext n
  constructor
  · rintro ⟨r, -, hn⟩
    by_cases hr : r = 4
    · subst hr
      rcases (hfour n).1 hn with rfl | ⟨i, -, hi⟩
      · exact .inl rfl
      · rw [halfImage_pointers] at hi
        by_cases h1 : i = 1
        · subst h1
          exact .inr (.inr hi.2)
        · by_cases h0 : i = 0
          · subst h0
            exact .inr (.inl hi.2)
          · rw [if_neg h1, if_neg h0] at hi
            exact absurd rfl hi.1
    · rw [hroot r hr] at hn
      exact absurd hn (notMem_empty n)
  · intro hn
    refine ⟨4, by decide, (hfour n).2 ?_⟩
    rcases hn with rfl | rfl | rfl
    · exact .inl rfl
    · refine .inr ⟨0, by decide, ?_⟩
      exact nodes_root (by decide)
    · refine .inr ⟨1, by decide, ?_⟩
      exact nodes_root (by decide)

theorem halfFile_ok : TreeOk halfImage.view.fs [] (fileNodes halfImage.disk halfFile.addr) := by
  rw [halfFile_nodes]
  refine ⟨?_, ?_, fun n _ => not_mem_nil⟩
  · rintro a (rfl | rfl | rfl) b (rfl | rfl | rfl) hab
    all_goals first | rfl | exact absurd hab (by decide)
  · rintro a (rfl | rfl | rfl)
    all_goals decide

/-- A file cut to nothing is freed whole. -/
theorem truncate_exact_to_zero : Clean halfImage.disk halfFile.addr 0 ∧
    ∃ l', ExactCut halfImage (truncate (fun _ => zeroBlock) halfImage halfFile 0).1 halfFile
      (truncate (fun _ => zeroBlock) halfImage halfFile 0).2 [] l' 0 := by
  have hclean : Clean halfImage.disk halfFile.addr 0 := by
    refine ⟨fun _ r _ hr => absurd hr (not_lt_zero _), fun hc => ?_⟩
    exact absurd hc (by decide)
  exact ⟨hclean, (truncate_exact_iff _ halfImage_wellFormed halfImage_small halfFile_ok (by decide)
    (by decide) 0).2 hclean⟩

/-- Cut from six to five blocks, the file keeps the pointer to block 9, which is on the free
list, and a write at the sixth block goes there. -/
theorem truncate_leaves_pointer : halfImage.WellFormed [] ∧ halfImage.Small ∧
    TreeOk halfImage.view.fs [] (fileNodes halfImage.disk halfFile.addr) ∧
    (∃ l', (truncate (fun _ => zeroBlock) halfImage halfFile 5120).1.WellFormed l' ∧ 9 ∈ l') ∧
    (mapBlockWrite (truncate (fun _ => zeroBlock) halfImage halfFile 5120).1
      (truncate (fun _ => zeroBlock) halfImage halfFile 5120).2 5).1 = 9 ∧
    ¬ ∃ l', ExactCut halfImage (truncate (fun _ => zeroBlock) halfImage halfFile 5120).1 halfFile
      (truncate (fun _ => zeroBlock) halfImage halfFile 5120).2 [] l' 5120 := by
  have hmap : (mapBlockWrite (truncate (fun _ => zeroBlock) halfImage halfFile 5120).1
      (truncate (fun _ => zeroBlock) halfImage halfFile 5120).2 5).1 = 9 := by decide +kernel
  obtain ⟨im', l', heq, hrel, hok'⟩ := truncate_spec (fun _ => zeroBlock) 5120
    (halfImage_wellFormed.ok halfImage_small) (halfImage_wellFormed.consistent _) halfFile_ok (by decide) (by decide)
  have ht : Touched halfFile.addr 5120 (keepBlocks 5120) 4 := by decide
  have hnine : pointers halfImage.disk (halfFile.addr 4) 1 = 9 := halfImage_pointers 1
  obtain ⟨hfile, hmem⟩ := stale_entry (i := 1) halfFile_ok hrel (by decide) (by decide) ht (by decide) (by decide)
    (by decide) (by decide)
  rw [heq] at hmap ⊢
  refine ⟨halfImage_wellFormed, halfImage_small, halfFile_ok, ⟨l', hok'.wellFormed hrel.consistent, hmem⟩, hmap, ?_⟩
  rintro ⟨l'', hcut⟩
  obtain rfl := hcut.wellFormed.chain.unique (hok'.wellFormed hrel.consistent).chain
  refine (hcut.kept _ hfile).2 ?_
  exact hmem

end RetroBSD.Fsutil
