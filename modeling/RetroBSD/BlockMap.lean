import RetroBSD.BlockGrow

/-!
# The map from indices to blocks

`bmap` reads off the data blocks of an inode's trees, and for writing grows them.
`bmapAt` is `bmap` at a given root; the direct pointers are the roots of height 0.
-/

namespace RetroBSD.Ufs

open LittleEndian RadixTree Function Nat

/-- `bmap` for the index `rel` of root `r`. -/
def bmapAt (st : Filsys) (ip : Inode) (r rel : ℕ) (rw : Rw) (clrbuf : Bool) (stale : Block) :
    ℤ × Inode × Filsys :=
  if ip.iAddr r = 0 then
    match rw with
    | .read => (-1, ip, st)
    | .write =>
      match balloc st clrbuf stale with
      | (none, st) => (-1, ip, st)
      | (some (b, contents), st) =>
        let f := fetch rw rel (rootHeight r) (st.write b contents) b
        (f.1, ip.setAddr r b, f.2)
  else
    let f := fetch rw rel (rootHeight r) st (ip.iAddr r)
    (f.1, ip, f.2)

theorem exists_root {bn : ℕ} (h : bn < maxBlocks) :
    ∃ r < naddr, ∃ rel < nindir ^ rootHeight r, bn = rootBase r + rel := by
  simp only [maxBlocks, ndaddr, nindir] at h
  by_cases h0 : bn < 4
  · refine ⟨bn, by simp only [naddr]; omega, 0, Nat.pow_pos nindir_pos, ?_⟩
    simp only [rootBase, ndaddr]
    exact (if_pos (by omega)).symm
  by_cases h1 : bn < 260
  · exact ⟨4, by decide, bn - 4, by change bn - 4 < 256; omega, by change bn = 4 + (bn - 4); omega⟩
  by_cases h2 : bn < 65796
  · exact ⟨5, by decide, bn - 260, by change bn - 260 < 65536; omega,
      by change bn = 260 + (bn - 260); omega⟩
  · exact ⟨6, by decide, bn - 65796, by change bn - 65796 < 16777216; omega,
      by change bn = 65796 + (bn - 65796); omega⟩

variable {rel r : ℕ}

theorem indirection_eq (hr : r < naddr) (hd : ndaddr ≤ r)
    (hrel : rel < nindir ^ rootHeight r) :
    indirection (rootBase r + rel - ndaddr) = some (rootHeight r, rel) := by
  simp only [naddr, ndaddr] at hr hd
  interval_cases r
  · change rel < nindir at hrel
    change indirection (4 + rel - 4) = some (1, rel)
    rw [Nat.add_sub_cancel_left, indirection, if_pos hrel]
  · change rel < nindir ^ 2 at hrel
    change indirection (260 + rel - 4) = some (2, rel)
    have hn : 260 + rel - 4 - nindir = rel := by simp only [nindir]; omega
    rw [indirection, hn, if_neg (by simp only [nindir]; omega), if_pos hrel]
  · change rel < nindir ^ 3 at hrel
    change indirection (65796 + rel - 4) = some (3, rel)
    have hn : 65796 + rel - 4 - nindir - nindir ^ 2 = rel := by simp only [nindir]; omega
    rw [indirection, hn, if_neg (by simp only [nindir]; omega), if_neg (by simp only [nindir]; omega),
      if_pos hrel]

theorem root_cases (hr : r < naddr) (hrel : rel < nindir ^ rootHeight r) :
    (ndaddr ≤ r ∧ ¬rootBase r + rel < ndaddr ∧ ndaddr + rootHeight r - 1 = r ∧
      indirection (rootBase r + rel - ndaddr) = some (rootHeight r, rel)) ∨
    (r < ndaddr ∧ rootBase r + rel = r ∧ rootHeight r = 0) := by
  by_cases hd : ndaddr ≤ r
  · have hall : ∀ r < naddr, ndaddr ≤ r → ndaddr ≤ rootBase r := by decide
    have hbase := hall r hr hd
    refine .inl ⟨hd, by omega, ?_, indirection_eq hr hd hrel⟩
    simp only [rootHeight, ndaddr] at hd ⊢
    omega
  · have hlt : r < ndaddr := not_le.1 hd
    have hh : rootHeight r = 0 := by
      simp only [rootHeight, ndaddr] at hlt ⊢
      omega
    rw [hh, pow_zero, lt_one_iff] at hrel
    exact .inr ⟨hlt, by rw [rootBase, if_pos hlt.le, hrel, add_zero], hh⟩

/-- Only direct blocks can come uncleared. -/
def freshBlock (clrbuf : Bool) (stale : Block) (bn : ℕ) : Block :=
  if bn < ndaddr ∧ clrbuf = false then stale else zeroBlock

theorem bmap_eq (st : Filsys) (ip : Inode) (rw : Rw) (clrbuf : Bool) (stale : Block)
    (hr : r < naddr) (hrel : rel < nindir ^ rootHeight r) :
    bmap st ip (rootBase r + rel : ℕ) rw clrbuf stale =
      bmapAt st ip r rel rw (clrbuf || decide (ndaddr ≤ r)) (if ndaddr ≤ r then zeroBlock else stale) := by
  unfold bmap bmapAt
  rw [if_neg (by omega)]
  rcases root_cases hr hrel with ⟨hd, hbn, hlevel, hind⟩ | ⟨hd, hbn, hh⟩
  · rw [if_neg (by exact_mod_cast hbn), Int.toNat_natCast, hind]
    simp only [hlevel, hd, decide_true, Bool.or_true] <;> rfl
  · rw [hbn, if_pos (by omega), hh]
    simp only [not_le.2 hd, decide_false, Bool.or_false] <;>
      cases rw <;> rfl

theorem rootHeight_clears (clrbuf : Bool) (hk : 0 < rootHeight r) : (clrbuf || decide (ndaddr ≤ r)) = true := by
  have hd : ndaddr ≤ r := by
    simp only [rootHeight, ndaddr] at *
    omega
  rw [decide_eq_true hd, Bool.or_true]

section Read

variable {st : Filsys} {ip : Inode} {disk : ℕ → Block} {iAddr : ℕ → ℕ} {bn b : ℕ}

theorem fetch_read (st : Filsys) (bn : ℕ) (k : ℕ) {p : ℕ} (hp : p ≠ 0) :
    fetch .read bn k st p = (if lookup nindir (pointers st.disk) k p (bn % nindir ^ k) = 0 then -1
      else signed (lookup nindir (pointers st.disk) k p (bn % nindir ^ k)), st) := by
  induction k generalizing p with
  | zero => rw [fetch, lookup, if_neg hp]
  | succ k ih =>
    rw [lookup, if_neg hp, index_digit, index_rest]
    by_cases hz : pointers st.disk p (bn / nindir ^ k % nindir) = 0
    · rw [hz, lookup_null]
      exact if_pos hz
    · rw [← ih hz]
      exact if_neg hz

theorem mem_fileNodes_leaf (hr : r < naddr) (hrel : rel < nindir ^ rootHeight r) :
    ⟨0, rootBase r + rel, b⟩ ∈ fileNodes disk iAddr ↔
      b ≠ 0 ∧ lookup nindir (pointers disk) (rootHeight r) (iAddr r) rel = b := by
  constructor
  · rintro ⟨s, hs, hn⟩
    obtain ⟨hb, j, hj, hx, hl⟩ := (mem_nodes_iff_lookup nindir_pos).1 hn
    obtain rfl : r = s := by
      have hs := List.mem_range.1 hs
      rcases lt_trichotomy r s with h | h | h
      · have := rootBase_next hr hs h
        omega
      · exact h
      · have := rootBase_next hs hr h
        omega
    exact ⟨hb, by rwa [add_left_cancel hx]⟩
  · rintro ⟨hb, hl⟩
    exact ⟨r, List.mem_range.2 hr, (mem_nodes_iff_lookup nindir_pos).2 ⟨hb, rel, hrel, rfl, hl⟩⟩

theorem leaf_lt_maxBlocks {n : Node} (h : n ∈ fileNodes disk iAddr) : n.start < maxBlocks := by
  obtain ⟨r, hr, hn⟩ := h
  obtain ⟨_, _, hlt⟩ := nodes_range hn
  have hpos : 0 < nindir ^ n.height := Nat.pow_pos nindir_pos
  have hend : ∀ r < naddr, rootBase r + nindir ^ rootHeight r ≤ maxBlocks := by decide
  have := hend r (List.mem_range.1 hr)
  omega

theorem leaf_unique {b' : ℕ} (h : ⟨0, bn, b⟩ ∈ fileNodes disk iAddr)
    (h' : ⟨0, bn, b'⟩ ∈ fileNodes disk iAddr) : b = b' := by
  obtain ⟨r, hr, rel, hrel, rfl⟩ := exists_root (leaf_lt_maxBlocks h)
  rw [mem_fileNodes_leaf hr hrel] at h h'
  rw [← h.2, h'.2]

theorem bmapAt_read (st : Filsys) (ip : Inode) (clrbuf : Bool) (stale : Block)
    (hrel : rel < nindir ^ rootHeight r) :
    bmapAt st ip r rel .read clrbuf stale =
      (if lookup nindir (pointers st.disk) (rootHeight r) (ip.iAddr r) rel = 0 then -1
        else signed (lookup nindir (pointers st.disk) (rootHeight r) (ip.iAddr r) rel), ip, st) := by
  rw [bmapAt]
  by_cases hz : ip.iAddr r = 0
  · rw [hz, lookup_null]
    rfl
  · rw [if_neg hz, fetch_read st rel _ hz, mod_eq_of_lt hrel]

theorem bmap_read_of_mem (h : ⟨0, bn, b⟩ ∈ fileNodes st.disk ip.iAddr) (clrbuf : Bool)
    (stale : Block) : bmap st ip bn .read clrbuf stale = (signed b, ip, st) := by
  obtain ⟨r, hr, rel, hrel, rfl⟩ := exists_root (leaf_lt_maxBlocks h)
  obtain ⟨hb, hl⟩ := (mem_fileNodes_leaf hr hrel).1 h
  rw [bmap_eq st ip .read clrbuf stale hr hrel, bmapAt_read _ _ _ _ hrel, hl, if_neg hb]

theorem bmap_read_of_hole (hbn : bn < maxBlocks) (h : ∀ b, ⟨0, bn, b⟩ ∉ fileNodes st.disk ip.iAddr)
    (clrbuf : Bool) (stale : Block) : bmap st ip bn .read clrbuf stale = (-1, ip, st) := by
  obtain ⟨r, hr, rel, hrel, rfl⟩ := exists_root hbn
  rw [bmap_eq st ip .read clrbuf stale hr hrel, bmapAt_read _ _ _ _ hrel]
  by_cases hl : lookup nindir (pointers st.disk) (rootHeight r) (ip.iAddr r) rel = 0
  · rw [if_pos hl]
  · exact absurd ((mem_fileNodes_leaf hr hrel).2 ⟨hl, rfl⟩) (h _)

end Read

section Write

variable {st st' : Filsys} {ip : Inode} {l l' taken : List ℕ} {x : ℕ}

theorem grows_root {st1 st2 : Filsys} {b k : ℕ} (base : ℕ) {contents : Block} (h : st.Consistent (b :: l))
    (hst1 : st1.Consistent l) (hdisk : st1.disk = st.disk)
    (hisize : st1.fs.fsIsize = st.fs.fsIsize) (hfsize : st1.fs.fsFsize = st.fs.fsFsize)
    (hx : base ≤ x ∧ x < base + nindir ^ k) (hcontents : 0 < k → contents = zeroBlock)
    (hst2 : st2 = st1.write b contents) :
    b ≠ 0 ∧ treeNodes st2.disk k b base = {⟨k, base, b⟩} ∧
      Grows st st2 (b :: l) l [b] ∅ (treeNodes st2.disk k b base) x := by
  have hb0 : b ≠ 0 := by
    rintro rfl
    exact h.valid 0 List.mem_cons_self (badblock_zero h.isize_pos)
  have hnodes : treeNodes st2.disk k b base = {⟨k, base, b⟩} := by
    apply nodes_of_empty hb0
    intro hk i _
    rw [pointers, hst2, write_disk_self, hcontents hk]
    rfl
  have hst2l : st2.Consistent l := by
    rw [hst2]
    exact hst1.write (List.nodup_cons.1 h.nodup).1 contents
  have hfs : st2.fs = st1.fs := by rw [hst2]; rfl
  refine ⟨hb0, hnodes, ?_⟩
  rw [hnodes, ← Set.empty_union {_}]
  apply Grows.insert ⟨k, base, b⟩ h hst2l ⟨by simp, by simp, by simp⟩ hx (by rw [hfs, hisize])
    (by rw [hfs, hfsize])
  intro c hc _
  rw [hst2, write_disk_of_ne _ _ hc, hdisk]

variable {iAddr : ℕ → ℕ}

theorem Grows.file {iAddr' : ℕ → ℕ} (hr : r < naddr)
    (hT : TreeOk st.fs l (fileNodes st.disk iAddr)) (haddr : ∀ s, s ≠ r → iAddr' s = iAddr s)
    (h : Grows st st' l l' taken (rootNodes st.disk iAddr r) (rootNodes st'.disk iAddr' r) x) :
    fileNodes st'.disk iAddr' = fileNodes st.disk iAddr ∪ rootNodes st'.disk iAddr' r ∧
      Grows st st' l l' taken (fileNodes st.disk iAddr) (fileNodes st'.disk iAddr') x := by
  have hsub : rootNodes st.disk iAddr r ⊆ fileNodes st.disk iAddr := fun n hn =>
    ⟨r, List.mem_range.2 hr, hn⟩
  have hother : ∀ s, s < naddr → s ≠ r → rootNodes st'.disk iAddr' s = rootNodes st.disk iAddr s := by
    intro s hs hsr
    rw [rootNodes, haddr s hsr]
    apply nodes_congr
    intro n hn _ m _
    have hmem : n ∈ fileNodes st.disk iAddr := ⟨s, List.mem_range.2 hs, hn⟩
    rw [pointers, pointers, h.frame n.block]
    · intro hb
      apply hT.unlisted n hmem
      rw [h.split]
      exact List.mem_append_left _ hb
    · intro m hm _
      exact hT.root_block_ne (fun s => List.mem_range.1) (List.mem_range.2 hr) (List.mem_range.2 hs)
        hsr.symm hm hn
  have heq : fileNodes st'.disk iAddr' = fileNodes st.disk iAddr ∪ rootNodes st'.disk iAddr' r := by
    ext n
    constructor
    · rintro ⟨s, hs, hn⟩
      by_cases hsr : s = r
      · exact .inr (hsr ▸ hn)
      · exact .inl ⟨s, hs, hother s (List.mem_range.1 hs) hsr ▸ hn⟩
    · rintro (⟨s, hs, hn⟩ | hn)
      · by_cases hsr : s = r
        · subst hsr
          exact ⟨s, hs, h.sub hn⟩
        · exact ⟨s, hs, (hother s (List.mem_range.1 hs) hsr).symm ▸ hn⟩
      · exact ⟨r, List.mem_range.2 hr, hn⟩
  exact ⟨heq, by rw [heq]; exact h.lift hT hsub⟩

theorem bmapAt_write {clrbuf : Bool} {stale : Block} (h : st.Consistent l)
    (hT : TreeOk st.fs l (rootNodes st.disk ip.iAddr r)) (hrel : rel < nindir ^ rootHeight r)
    (hclr : 0 < rootHeight r → clrbuf = true) {res : ℤ × Inode × Filsys}
    (hres : res = bmapAt st ip r rel .write clrbuf stale) :
    ∃ taken l', taken.length ≤ rootHeight r + 1 ∧ (∃ p, res.2.1 = ip.setAddr r p) ∧
      Grows st res.2.2 l l' taken (rootNodes st.disk ip.iAddr r) (rootNodes res.2.2.disk res.2.1.iAddr r)
        (rootBase r + rel) ∧
      Reaches st (res.1, res.2.2) l' (rootNodes st.disk ip.iAddr r)
        (rootNodes res.2.2.disk res.2.1.iAddr r) (rootBase r + rel)
        (if clrbuf then zeroBlock else stale) := by
  have hmod : rel % nindir ^ rootHeight r = rel := mod_eq_of_lt hrel
  rw [bmapAt] at hres
  by_cases hz : ip.iAddr r = 0
  · have hempty : rootNodes st.disk ip.iAddr r = ∅ := by rw [rootNodes, hz, treeNodes_null]
    rw [if_pos hz] at hres
    rcases balloc_spec h clrbuf stale with
      ⟨rfl, hfull⟩ | ⟨b, l1, st1, rfl, hst1, hdisk, herr, hisize, hfsize, hok⟩
    · rw [hfull] at hres
      rw [hres]
      refine ⟨[], [], zero_le _, ⟨0, ?_⟩, Grows.nospace h hT, .inr ⟨rfl, rfl, rfl⟩⟩
      rw [Inode.setAddr, ← hz, update_eq_self]
    · rw [hok] at hres
      set st2 := st1.write b (if clrbuf then zeroBlock else stale) with hst2
      obtain ⟨hb0, hone, hg1⟩ := grows_root (rootBase r) h hst1 hdisk hisize hfsize
        ⟨Nat.le_add_right _ _, Nat.add_lt_add_left hrel _⟩ (fun hk => if_pos (hclr hk)) hst2
      obtain ⟨taken, l', hlen, hg2, hreach⟩ :=
        fetch_write rel (rootHeight r) st2 l1 b (rootBase r) hg1.consistent hb0 hg1.ok
      rw [hmod] at hg2 hreach
      have hres' : res = ((fetch .write rel (rootHeight r) st2 b).1, ip.setAddr r b,
          (fetch .write rel (rootHeight r) st2 b).2) := by rw [hres]
      have hroot : rootNodes res.2.2.disk res.2.1.iAddr r =
          treeNodes (fetch .write rel (rootHeight r) st2 b).2.disk (rootHeight r) b (rootBase r) := by
        rw [hres']
        simp only [rootNodes, Inode.setAddr, update_self]
      rw [hroot, hempty, hres']
      refine ⟨[b] ++ taken, l', succ_le_succ hlen, ⟨b, rfl⟩, hg1.trans hg2, hreach.imp ?_ id⟩
      rintro ⟨c, hc, hval, herr', hfresh⟩
      refine ⟨c, hc, hval, herr'.trans herr, fun _ => ?_⟩
      by_cases hk : 0 < rootHeight r
      · rw [if_pos (hclr hk)]
        apply hfresh
        rw [hone, Set.mem_singleton_iff, Node.mk.injEq]
        exact fun heq => hk.ne heq.1
      · rw [Nat.eq_zero_of_not_pos hk] at hc ⊢
        obtain rfl : c = b := by
          have := hc.2
          rw [Node.mk.injEq] at this
          exact this.2.2
        rw [fetch, write_disk_self]
  · rw [if_neg hz] at hres
    obtain ⟨taken, l', hlen, hg, hreach⟩ :=
      fetch_write rel (rootHeight r) st l (ip.iAddr r) (rootBase r) h hz hT
    rw [hmod] at hg hreach
    rw [hres]
    refine ⟨taken, l', hlen.trans (le_succ _), ⟨ip.iAddr r, ?_⟩, hg, hreach.imp ?_ id⟩
    · rw [Inode.setAddr, update_eq_self]
    · rintro ⟨c, hc, hval, herr, hfresh⟩
      refine ⟨c, hc, hval, herr, fun hnot => ?_⟩
      by_cases hk : 0 < rootHeight r
      · rw [if_pos (hclr hk)]
        exact hfresh hnot
      · rw [Nat.eq_zero_of_not_pos hk] at hc
        rw [rootNodes, Nat.eq_zero_of_not_pos hk] at hnot
        exact absurd hc hnot

theorem bmap_write {bn : ℕ} (h : st.Consistent l) (hT : TreeOk st.fs l (fileNodes st.disk ip.iAddr))
    (hbn : bn < maxBlocks) (clrbuf : Bool) (stale : Block) {res : ℤ × Inode × Filsys}
    (hres : res = bmap st ip bn .write clrbuf stale) :
    ∃ taken l', taken.length ≤ 4 ∧ (∃ r p, res.2.1 = ip.setAddr r p) ∧
      Grows st res.2.2 l l' taken (fileNodes st.disk ip.iAddr) (fileNodes res.2.2.disk res.2.1.iAddr)
        bn ∧
      Reaches st (res.1, res.2.2) l' (fileNodes st.disk ip.iAddr)
        (fileNodes res.2.2.disk res.2.1.iAddr) bn (freshBlock clrbuf stale bn) := by
  obtain ⟨r, hr, rel, hrel, rfl⟩ := exists_root hbn
  have hheight : ∀ r < naddr, rootHeight r + 1 ≤ 4 := by decide
  have hsub : rootNodes st.disk ip.iAddr r ⊆ fileNodes st.disk ip.iAddr := fun n hn =>
    ⟨r, List.mem_range.2 hr, hn⟩
  rw [bmap_eq st ip .write clrbuf stale hr hrel] at hres
  obtain ⟨taken, l', hlen, ⟨p, hp⟩, hg, hreach⟩ := bmapAt_write h (hT.mono hsub) hrel
    (rootHeight_clears clrbuf) hres
  have haddr : ∀ s, s ≠ r → res.2.1.iAddr s = ip.iAddr s := by
    intro s hs
    rw [hp]
    exact update_of_ne hs _ _
  have hfresh : (if (clrbuf || decide (ndaddr ≤ r)) = true then zeroBlock
      else if ndaddr ≤ r then zeroBlock else stale) = freshBlock clrbuf stale (rootBase r + rel) := by
    have hiff : rootBase r + rel < ndaddr ↔ ¬ ndaddr ≤ r := by
      have hall : ∀ r < naddr, if r < ndaddr then rootBase r + nindir ^ rootHeight r ≤ ndaddr
        else ndaddr ≤ rootBase r := by decide
      have := hall r hr
      split_ifs at this <;> omega
    simp only [freshBlock, hiff]
    by_cases hd : ndaddr ≤ r <;> cases clrbuf <;> simp [hd]
  rw [hfresh] at hreach
  obtain ⟨heq, hg'⟩ := hg.file hr hT haddr
  refine ⟨taken, l', hlen.trans (hheight r hr), ⟨r, p, hp⟩, hg', hreach.imp ?_ id⟩
  rintro ⟨b, hb, hval, herr, hnew⟩
  refine ⟨b, ?_, hval, herr, fun hnot => hnew fun hold => hnot (hsub hold)⟩
  rw [heq]
  exact .inr hb

end Write

variable {iAddr : ℕ → ℕ}

theorem fileNodes_congr {disk disk' : ℕ → Block} {iAddr' : ℕ → ℕ}
    (haddr : ∀ r, r < naddr → iAddr' r = iAddr r)
    (hdisk : ∀ n ∈ fileNodes disk iAddr, 0 < n.height → disk' n.block = disk n.block) :
    fileNodes disk' iAddr' = fileNodes disk iAddr := by
  have hroot : ∀ r ∈ List.range naddr, rootNodes disk' iAddr' r = rootNodes disk iAddr r := by
    intro r hr
    rw [rootNodes, haddr r (List.mem_range.1 hr)]
    apply nodes_congr
    intro n hn hpos i _
    rw [pointers, pointers, hdisk n ⟨r, hr, hn⟩ hpos]
  ext n
  exact exists_congr fun r => and_congr_right fun hr => by rw [hroot r hr]

theorem fileNodes_write {st : Filsys} {l : List ℕ} {x b : ℕ}
    (hT : TreeOk st.fs l (fileNodes st.disk iAddr)) (hb : ⟨0, x, b⟩ ∈ fileNodes st.disk iAddr)
    (data : Block) : fileNodes (st.write b data).disk iAddr = fileNodes st.disk iAddr := by
  apply fileNodes_congr fun _ _ => rfl
  intro n hn hpos
  apply write_disk_of_ne
  intro heq
  rw [hT.inj hn hb heq] at hpos
  exact absurd hpos (lt_irrefl 0)

end RetroBSD.Ufs
