import RetroBSD.SparseFiles

/-!
# One call of `bmap`

What a call of `bmap` does to the map from indices to blocks: for writing it gives the
index a block, if it has none, and leaves the other indices alone; for reading it changes
nothing. How many free blocks it takes is the number of pointers missing on the path.
-/

namespace RetroBSD.Ufs

open LittleEndian RadixTree Nat

variable {st st' : Filsys} {ip ip' : Inode} {l : List ℕ}

def missingBlocks (disk : ℕ → Block) (iAddr : ℕ → ℕ) (bn : ℕ) : ℕ :=
  if bn < ndaddr then missing nindir (pointers disk) 0 (iAddr bn) 0
  else
    match indirection (bn - ndaddr) with
    | none => 0
    | some (level, rel) => missing nindir (pointers disk) level (iAddr (ndaddr + level - 1)) rel

def mapping (st : Filsys) (ip : Inode) (bn : ℤ) : ℤ := (bmap st ip bn .read false zeroBlock).1

theorem missingBlocks_eq (disk : ℕ → Block) (iAddr : ℕ → ℕ) {r rel : ℕ} (hr : r < naddr)
    (hrel : rel < nindir ^ rootHeight r) :
    missingBlocks disk iAddr (rootBase r + rel) = missing nindir (pointers disk) (rootHeight r) (iAddr r) rel := by
  rw [missingBlocks]
  rcases root_cases hr hrel with ⟨-, hbn, hlevel, hind⟩ | ⟨hd, hbn, hh⟩
  · rw [if_neg hbn, hind]
    simp only [hlevel]
  · rw [hh, pow_zero, lt_one_iff] at hrel
    rw [hbn, if_pos hd, hh, hrel]

theorem fetch_disk_root (bn : ℕ) {k p base i : ℕ} (h : st.Consistent l) (hp : p ≠ 0) (hi : i < nindir)
    (hT : TreeOk st.fs l (treeNodes st.disk (k + 1) p base)) (hne : pointers st.disk p i ≠ 0) :
    (fetch .write bn k st (pointers st.disk p i)).2.disk p = st.disk p := by
  have hsub : treeNodes st.disk k (pointers st.disk p i) (base + i * nindir ^ k) ⊆
      treeNodes st.disk (k + 1) p base := fun n hn => children_subset hp ⟨i, hi, hn⟩
  obtain ⟨taken, l', -, hg, -⟩ := fetch_write bn k st l _ (base + i * nindir ^ k) h hne (hT.mono hsub)
  apply hg.frame p
  · intro hmem
    apply hT.unlisted _ (nodes_root hp)
    rw [hg.split]
    exact List.mem_append_left _ hmem
  · intro n hn _
    exact hT.root_notMem hp n ⟨i, hi, hn⟩

theorem fetch_fails (bn k : ℕ) {p base : ℕ} (h : st.Consistent l) (hp : p ≠ 0)
    (hT : TreeOk st.fs l (treeNodes st.disk k p base)) :
    ((fetch .write bn k st p).1 = -1 ↔ l.length < missing nindir (pointers st.disk) k p (bn % nindir ^ k)) ∧
    ((fetch .write bn k st p).1 = -1 →
      lookup nindir (pointers (fetch .write bn k st p).2.disk) k p (bn % nindir ^ k) = 0) := by
  induction k generalizing st l p base with
  | zero =>
    have hne := hT.signed_ne h (nodes_root hp)
    rw [missing, if_neg hp]
    exact ⟨iff_of_false hne (not_lt_zero _), fun hfail => absurd hfail hne⟩
  | succ k ih =>
    set i := bn / nindir ^ k % nindir with hi
    have hlt : i < nindir := hi ▸ mod_lt _ nindir_pos
    rw [missing, if_neg hp, lookup, if_neg hp, index_digit, index_rest]
    -- below an entry that is not empty the call goes on, and the entry stays
    have hentry : ∀ {st' : Filsys} {l' : List ℕ}, st'.Consistent l' →
        TreeOk st'.fs l' (treeNodes st'.disk (k + 1) p base) → pointers st'.disk p i ≠ 0 →
        fetch .write bn (k + 1) st p = fetch .write bn k st' (pointers st'.disk p i) →
        ((fetch .write bn (k + 1) st p).1 = -1 ↔
          l'.length < missing nindir (pointers st'.disk) k (pointers st'.disk p i) (bn % nindir ^ k)) ∧
        ((fetch .write bn (k + 1) st p).1 = -1 →
          lookup nindir (pointers (fetch .write bn (k + 1) st p).2.disk) k
            (pointers (fetch .write bn (k + 1) st p).2.disk p i) (bn % nindir ^ k) = 0) := by
      intro st' l' h' hT' hne hres
      have hroot := congrArg (word · i) (fetch_disk_root bn h' hp hlt hT' hne)
      rw [hres, show pointers (fetch .write bn k st' (pointers st'.disk p i)).2.disk p i =
        pointers st'.disk p i from hroot]
      exact ih h' hne (hT'.mono fun n hn => children_subset hp ⟨i, hlt, hn⟩)
    rcases fetch_succ h hp hT hi with
      ⟨rfl, hz, hres⟩ | ⟨b, l1, st2, rfl, hz, hb0, hptr, hzero, -, hg, hres⟩ | ⟨hne, hres⟩
    · rw [hres, show pointers st.nospace.disk p i = 0 from hz, hz, missing_null, lookup_null]
      exact ⟨iff_of_true rfl (succ_pos k), fun _ => rfl⟩
    · have hnext := hentry hg.consistent hg.ok (by rwa [hptr]) (by rwa [hptr])
      -- the block just taken has no pointers
      have hempty : 0 < k → ∀ j, pointers st2.disk b j = 0 := by
        intro _ j
        rw [pointers, hzero]
        rfl
      rw [hptr, missing_of_empty hb0 hempty] at hnext
      rw [hz, missing_null, List.length_cons, succ_lt_succ_iff]
      exact hnext
    · exact hentry h hT hne hres

theorem bmapAt_fails {r rel : ℕ} {clrbuf : Bool} {stale : Block} (h : st.Consistent l)
    (hT : TreeOk st.fs l (rootNodes st.disk ip.iAddr r)) (hrel : rel < nindir ^ rootHeight r)
    (hclr : 0 < rootHeight r → clrbuf = true) {res : ℤ × Inode × Filsys}
    (hres : res = bmapAt st ip r rel .write clrbuf stale) :
    (res.1 = -1 ↔ l.length < missing nindir (pointers st.disk) (rootHeight r) (ip.iAddr r) rel) ∧
    (res.1 = -1 → lookup nindir (pointers res.2.2.disk) (rootHeight r) (res.2.1.iAddr r) rel = 0) := by
  have hmod : rel % nindir ^ rootHeight r = rel := mod_eq_of_lt hrel
  rw [bmapAt] at hres
  by_cases hz : ip.iAddr r = 0
  · rw [if_pos hz] at hres
    rw [hz, missing_null]
    rcases balloc_spec h clrbuf stale with ⟨rfl, hfull⟩ | ⟨b, l1, st1, rfl, hst1, hdisk, -, hisize, hfsize, hok⟩
    · rw [hfull] at hres
      rw [hres, hz, lookup_null]
      exact ⟨iff_of_true rfl (succ_pos _), fun _ => rfl⟩
    · set st2 := st1.write b (if clrbuf then zeroBlock else stale) with hst2
      obtain ⟨hb0, -, hg⟩ := grows_root (rootBase r) h hst1 hdisk hisize hfsize
        ⟨le_rfl, Nat.lt_add_of_pos_right (Nat.pow_pos nindir_pos)⟩ (fun hk => if_pos (hclr hk)) hst2
      have hempty : 0 < rootHeight r → ∀ j, pointers st2.disk b j = 0 := by
        intro hk j
        rw [pointers, write_disk_self, if_pos (hclr hk)]
        rfl
      have hfetch := fetch_fails rel (rootHeight r) hg.consistent hb0 hg.ok
      rw [hmod, missing_of_empty hb0 hempty] at hfetch
      rw [hok] at hres
      dsimp only at hres
      rw [hres, List.length_cons, succ_lt_succ_iff]
      simp only [Inode.setAddr, Function.update_self]
      exact hfetch
  · have hfetch := fetch_fails rel (rootHeight r) h hz hT
    rw [hmod] at hfetch
    rw [if_neg hz] at hres
    rw [hres]
    exact hfetch

/-- `bmap` for writing fails exactly when there are fewer free blocks than are missing, and
leaves no data block there. -/
theorem bmap_fails {bn : ℕ} (h : st.Consistent l) (hT : TreeOk st.fs l (fileNodes st.disk ip.iAddr))
    (hbn : bn < maxBlocks) (clrbuf : Bool) (stale : Block) {res : ℤ × Inode × Filsys}
    (hres : res = bmap st ip bn .write clrbuf stale) :
    (res.1 = -1 ↔ l.length < missingBlocks st.disk ip.iAddr bn) ∧
    (res.1 = -1 → ∀ b, ⟨0, bn, b⟩ ∉ fileNodes res.2.2.disk res.2.1.iAddr) := by
  obtain ⟨r, hr, rel, hrel, rfl⟩ := exists_root hbn
  have hsub : rootNodes st.disk ip.iAddr r ⊆ fileNodes st.disk ip.iAddr := fun n hn =>
    ⟨r, List.mem_range.2 hr, hn⟩
  rw [bmap_eq st ip .write clrbuf stale hr hrel] at hres
  obtain ⟨hiff, hnone⟩ := bmapAt_fails h (hT.mono hsub) hrel (rootHeight_clears clrbuf) hres
  rw [missingBlocks_eq _ _ hr hrel]
  refine ⟨hiff, fun hfail b => ?_⟩
  rw [mem_fileNodes_leaf hr hrel, hnone hfail]
  exact fun hb => hb.1 hb.2.symm

/-! ## Outside the range -/

theorem indirection_none {bn : ℕ} (h : maxBlocks ≤ bn) : indirection (bn - ndaddr) = none := by
  simp only [maxBlocks, ndaddr, nindir] at h
  rw [indirection, if_neg (by simp only [nindir, ndaddr]; omega), if_neg (by simp only [nindir, ndaddr]; omega),
    if_neg (by simp only [nindir, ndaddr]; omega)]

variable {bn : ℤ}

theorem bmap_efbig (h : ¬(0 ≤ bn ∧ bn < maxBlocks)) (rw : Rw) (clrbuf : Bool) (stale : Block) :
    bmap st ip bn rw clrbuf stale = (0, ip, st.setError efbig) := by
  rw [bmap]
  by_cases hneg : bn < 0
  · rw [if_pos hneg]
  · have hle : maxBlocks ≤ bn.toNat := by omega
    have hd : ndaddr ≤ maxBlocks := by decide
    rw [if_neg hneg, if_neg (by omega), indirection_none hle]

/-! ## Reading -/

theorem bmap_read_eq (h : 0 ≤ bn ∧ bn < maxBlocks) (clrbuf : Bool) (stale : Block) :
    bmap st ip bn .read clrbuf stale = (mapping st ip bn, ip, st) := by
  obtain ⟨n, rfl⟩ := Int.eq_ofNat_of_zero_le h.1
  obtain ⟨r, hr, rel, hrel, rfl⟩ := exists_root (show n < maxBlocks by omega)
  have hread := fun c s => bmap_eq st ip .read c s hr hrel
  rw [mapping, hread, hread, bmapAt_read _ _ _ _ hrel, bmapAt_read _ _ _ _ hrel]

theorem mapping_of_mem {bn b : ℕ} (h : ⟨0, bn, b⟩ ∈ fileNodes st.disk ip.iAddr) : mapping st ip bn = signed b := by
  rw [mapping, bmap_read_of_mem h]

theorem mapping_of_hole {bn : ℕ} (hbn : bn < maxBlocks) (h : ∀ b, ⟨0, bn, b⟩ ∉ fileNodes st.disk ip.iAddr) :
    mapping st ip bn = -1 := by
  rw [mapping, bmap_read_of_hole hbn h]

theorem mapping_eq_iff {bn : ℕ} (h : st.Consistent l) (hT : TreeOk st.fs l (fileNodes st.disk ip.iAddr))
    (hbn : bn < maxBlocks) : mapping st ip bn = -1 ↔ ∀ b, ⟨0, bn, b⟩ ∉ fileNodes st.disk ip.iAddr := by
  constructor
  · intro hnone b hb
    rw [mapping_of_mem hb] at hnone
    exact hT.signed_ne h hb hnone
  · exact mapping_of_hole hbn

theorem mapping_congr
    (h : ∀ b, ⟨0, bn.toNat, b⟩ ∈ fileNodes st'.disk ip'.iAddr ↔ ⟨0, bn.toNat, b⟩ ∈ fileNodes st.disk ip.iAddr) :
    mapping st' ip' bn = mapping st ip bn := by
  by_cases hrange : 0 ≤ bn ∧ bn < maxBlocks
  · obtain ⟨n, rfl⟩ := Int.eq_ofNat_of_zero_le hrange.1
    rw [Int.toNat_natCast] at h
    by_cases hb : ∃ b, ⟨0, n, b⟩ ∈ fileNodes st.disk ip.iAddr
    · obtain ⟨b, hb⟩ := hb
      rw [mapping_of_mem hb, mapping_of_mem ((h b).2 hb)]
    · rw [not_exists] at hb
      have hn : n < maxBlocks := by omega
      rw [mapping_of_hole hn hb, mapping_of_hole hn fun b hb' => hb b ((h b).1 hb')]
  · rw [mapping, mapping, bmap_efbig hrange, bmap_efbig hrange]

theorem Grows.mapping_of_ne {l' taken : List ℕ} {bn : ℕ} {i : ℤ}
    (h : Grows st st' l l' taken (fileNodes st.disk ip.iAddr) (fileNodes st'.disk ip'.iAddr) bn) (hi : i ≠ bn) :
    mapping st' ip' i = mapping st ip i := by
  by_cases hneg : i < 0
  · have hrange : ¬(0 ≤ i ∧ i < maxBlocks) := fun hr => absurd hr.1 (not_le.2 hneg)
    rw [mapping, mapping, bmap_efbig hrange, bmap_efbig hrange]
  · apply mapping_congr
    intro b
    refine ⟨fun hb => ?_, fun hb => h.sub hb⟩
    by_contra hnew
    obtain ⟨-, hle, hlt⟩ := h.new _ hb hnew
    rw [pow_zero] at hlt
    dsimp only at hle hlt
    omega

/-! ## The call -/

/-- A call of `bmap` for writing gives the index a block, the one it had or one from the free
list, when there are enough of them, and changes no other index; a call for reading changes
nothing. -/
theorem bmap_exact {bno bn : ℤ} {ip' : Inode} {st' : Filsys} {clrbuf : Bool} {stale : Block} (h : st.Consistent l)
    (hT : TreeOk st.fs l (fileNodes st.disk ip.iAddr)) (hres : bmap st ip bn .write clrbuf stale = (bno, ip', st')) :
    (¬(0 ≤ bn ∧ bn < maxBlocks) → bno = 0 ∧ ip' = ip ∧ st' = st.setError efbig) ∧
    (0 ≤ bn ∧ bn < maxBlocks → ∃ taken l', l = taken ++ l' ∧ st'.Consistent l' ∧
      TreeOk st'.fs l' (fileNodes st'.disk ip'.iAddr) ∧ (∀ i, i ≠ bn → mapping st' ip' i = mapping st ip i) ∧
      (missingBlocks st.disk ip.iAddr bn.toNat ≤ l.length →
        bno ≠ -1 ∧ st'.uError = st.uError ∧ mapping st' ip' bn = bno ∧
        (mapping st ip bn = bno ∨ mapping st ip bn = -1 ∧ ∃ b ∈ taken, bno = signed b)) ∧
      (l.length < missingBlocks st.disk ip.iAddr bn.toNat → bno = -1 ∧ st'.uError = enospc)) ∧
    ∀ (i : ℤ) (c : Bool) (s : Block),
      (0 ≤ i ∧ i < maxBlocks → bmap st ip i .read c s = (mapping st ip i, ip, st) ∧
        (mapping st ip i = -1 ↔ ∀ b, ⟨0, i.toNat, b⟩ ∉ fileNodes st.disk ip.iAddr)) ∧
      (¬(0 ≤ i ∧ i < maxBlocks) → bmap st ip i .read c s = (0, ip, st.setError efbig)) := by
  refine ⟨?_, ?_, ?_⟩
  · intro hrange
    rw [bmap_efbig hrange, Prod.mk.injEq, Prod.mk.injEq] at hres
    exact ⟨hres.1.symm, hres.2.1.symm, hres.2.2.symm⟩
  · intro hrange
    obtain ⟨n, rfl⟩ := Int.eq_ofNat_of_zero_le hrange.1
    have hn : n < maxBlocks := by omega
    obtain ⟨taken, l', -, -, hgrows, hreach⟩ := bmap_write h hT hn clrbuf stale hres.symm
    have hfails := (bmap_fails h hT hn clrbuf stale hres.symm).1
    refine ⟨taken, l', hgrows.split, hgrows.consistent, hgrows.ok, fun i hi => hgrows.mapping_of_ne hi, ?_, ?_⟩
    · intro henough
      have hne : bno ≠ -1 := fun heq => absurd (hfails.1 heq) (not_lt.2 henough)
      rcases hreach with ⟨b, hb, hval, herr, -⟩ | ⟨hval, -, -⟩
      · refine ⟨hne, herr, (mapping_of_mem hb).trans hval.symm, ?_⟩
        by_cases hold : ⟨0, n, b⟩ ∈ fileNodes st.disk ip.iAddr
        · exact .inl ((mapping_of_mem hold).trans hval.symm)
        · refine .inr ⟨mapping_of_hole hn ?_, b, (hgrows.new _ hb hold).1, hval⟩
          intro c hc
          rw [leaf_unique (hgrows.sub hc) hb] at hc
          exact hold hc
      · exact absurd hval hne
    · intro hfew
      rcases hreach with ⟨b, hb, hval, -, -⟩ | ⟨hval, herr, -⟩
      · have hbad : signed b = -1 := hval.symm.trans (hfails.2 hfew)
        exact absurd hbad (hgrows.ok.signed_ne hgrows.consistent hb)
      · exact ⟨hval, herr⟩
  · intro i c s
    refine ⟨fun hrange => ⟨bmap_read_eq hrange c s, ?_⟩, fun hrange => bmap_efbig hrange .read c s⟩
    obtain ⟨n, rfl⟩ := Int.eq_ofNat_of_zero_le hrange.1
    exact mapping_eq_iff h hT (by omega)

/-- Index 5 of an empty file: block 9 becomes the indirect block and block 8 the data block. -/
theorem bmap_exact_one_file :
    let st := oneFile.filsys
    let ip := oneFile.files ()
    let res := bmap st ip 5 .write false zeroBlock
    st.Consistent [9, 8, 7, 6, 5] ∧ res.1 = 8 ∧ mapping res.2.2 res.2.1 5 = 8 ∧
      mapping res.2.2 res.2.1 4 = mapping st ip 4 := by
  intro st ip res
  have hrep := oneFile_represents
  obtain ⟨-, hwrite, -⟩ := bmap_exact hrep.consistent (hrep.tree ()) (show bmap st ip 5 .write false zeroBlock =
    (res.1, res.2.1, res.2.2) from rfl)
  obtain ⟨taken, -, -, -, -, hother, henough, -⟩ := hwrite ⟨by decide, by decide⟩
  have hval : res.1 = 8 := by decide +kernel
  exact ⟨hrep.consistent, hval, (henough (by decide +kernel)).2.2.1.trans hval, hother 4 (by decide)⟩

end RetroBSD.Ufs
