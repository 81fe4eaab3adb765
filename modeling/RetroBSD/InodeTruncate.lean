import RetroBSD.BlockMap

/-!
# Truncation of a file

`itrunc` to a shorter length clears the rest of the last block that is kept, which
may have to be allocated first, and then releases every block that covers no kept
index.
-/

namespace RetroBSD.Ufs

open LittleEndian RadixTree List

def blocksFor (length : ℕ) : ℕ := (length + devBsize - 1) / devBsize

def Uncovered (T : Set Node) (c b : ℕ) : Prop :=
  ∃ n ∈ T, n.block = b ∧ ∀ i, n.start ≤ i → i < n.start + nindir ^ n.height → c ≤ i

variable {T : Set Node} {b : ℕ}

theorem uncovered_iff {c : ℕ} : Uncovered T c b ↔ b ∈ Node.block '' {n ∈ T | c ≤ n.start} := by
  constructor
  · rintro ⟨n, hn, rfl, hc⟩
    have hpos : 0 < nindir ^ n.height := Nat.pow_pos nindir_pos
    exact ⟨n, ⟨hn, hc n.start le_rfl (by omega)⟩, rfl⟩
  · rintro ⟨n, ⟨hn, hc⟩, rfl⟩
    exact ⟨n, hn, rfl, fun i hi _ => hc.trans hi⟩

section Cut

variable {st st' : Filsys} {l : List ℕ} {iAddr : ℕ → ℕ} {c : ℕ}

/-- What the releasing part of `itrunc` does. -/
structure FileCut (st st' : Filsys) (l freed : List ℕ) (iAddr iAddr' : ℕ → ℕ) (c : ℕ) : Prop where
  consistent : st'.Consistent (freed ++ l)
  freed : ∀ b, b ∈ freed ↔ Uncovered (fileNodes st.disk iAddr) c b
  nodes : fileNodes st'.disk iAddr' = {n ∈ fileNodes st.disk iAddr | n.start < c}
  frame : ∀ b, (∀ n ∈ fileNodes st.disk iAddr, 0 < n.height ∨ c ≤ n.start → n.block ≠ b) →
    st'.disk b = st.disk b
  isize : st'.fs.fsIsize = st.fs.fsIsize
  fsize : st'.fs.fsFsize = st.fs.fsFsize
  uError : st'.uError = st.uError

theorem rootsNodes_all (disk : ℕ → Block) (iAddr : ℕ → ℕ) :
    rootsNodes disk iAddr [6, 5, 4, 3, 2, 1, 0] = fileNodes disk iAddr := by
  ext n
  refine exists_congr fun r => and_congr_left fun _ => ?_
  rw [mem_range]
  simp only [naddr, mem_cons, not_mem_nil, or_false]
  omega

theorem file_cut (stale : ℕ → Block) (h : st.Consistent l)
    (hT : TreeOk st.fs l (fileNodes st.disk iAddr)) (hc : c ≤ maxBlocks) {r : Bool × Filsys}
    (hr : r = truncLevels stale iAddr (lastiblock (c - 1)) [2, 1, 0] st)
    (hst' : st' = if r.1 then r.2 else truncDirect stale iAddr (c - 1) r.2) :
    ∃ freed, FileCut st st' l freed iAddr (keptAddr iAddr (c - 1)) c := by
  rw [trunc_eq stale iAddr hc st hr] at hst'
  obtain ⟨l', hcut⟩ := truncRoots_spec stale iAddr c [6, 5, 4, 3, 2, 1, 0] (by decide) (by decide) st l h
    (by rwa [rootsNodes_all])
  rw [← hst'] at hcut
  have hrel := hcut.released
  rw [rootsNodes_all] at hrel
  obtain ⟨freed, rfl, hfreed⟩ := hrel.freed
  refine ⟨freed, hrel.consistent, fun b => (hfreed b).trans uncovered_iff.symm, ?_, ?_, hrel.isize,
    hrel.fsize, hrel.uError⟩
  · ext n
    have hroot : ∀ r, r < naddr → rootNodes st'.disk (keptAddr iAddr (c - 1)) r =
        {n ∈ rootNodes st.disk iAddr r | n.start < c} := by
      intro r hr
      rw [← hcut.kept r, rootNodes, keptAddr_eq iAddr c hr]
      simp only [naddr] at hr
      simp only [mem_cons]
      omega
    constructor
    · rintro ⟨r, hr, hn⟩
      rw [hroot r (mem_range.1 hr)] at hn
      exact ⟨⟨r, hr, hn.1⟩, hn.2⟩
    · rintro ⟨⟨r, hr, hn⟩, hlt⟩
      refine ⟨r, hr, ?_⟩
      rw [hroot r (mem_range.1 hr)]
      exact ⟨hn, hlt⟩
  · intro b hb
    apply hrel.frame
    rintro ⟨n, ⟨hn, hor⟩, heq⟩
    exact hb n hn hor heq

end Cut

section Tail

variable {st st' : Filsys} {ip : Inode} {l taken rest : List ℕ} {length : ℕ}

/-- What clearing the rest of the last block does. -/
structure TailCleared (st st' : Filsys) (l taken rest : List ℕ) (T T' : Set Node) (length : ℕ) :
    Prop where
  consistent : st'.Consistent rest
  split : l = taken ++ rest
  sub : T ⊆ T'
  new : ∀ n ∈ T', n ∉ T → n.block ∈ taken ∧ length % devBsize ≠ 0 ∧
    n.start ≤ length / devBsize ∧ length / devBsize < n.start + nindir ^ n.height
  used : ∀ b ∈ taken, ∃ n ∈ T', n ∉ T ∧ n.block = b
  ok : TreeOk st'.fs rest T'
  aligned : length % devBsize = 0 → taken = []
  tail : length % devBsize ≠ 0 → ∃ b, b < 2 ^ 31 ∧ ⟨0, length / devBsize, b⟩ ∈ T'
  data : ∀ i b, i < blocksFor length → ⟨0, i, b⟩ ∈ T → ∀ j, j < devBsize →
    st'.disk b j = if i * devBsize + j < length then st.disk b j else 0
  fresh : ∀ i b, ⟨0, i, b⟩ ∈ T' → ⟨0, i, b⟩ ∉ T → ∀ j, j < devBsize → st'.disk b j = 0
  frame : ∀ b, b ∉ l → (∀ n ∈ T, n.block ≠ b) → st'.disk b = st.disk b
  isize : st'.fs.fsIsize = st.fs.fsIsize
  fsize : st'.fs.fsFsize = st.fs.fsFsize
  uError : st'.uError = st.uError

theorem TailCleared.refl (h : st.Consistent l) (hT : TreeOk st.fs l T)
    (hoff : length % devBsize = 0) : TailCleared st st l [] l T T length := by
  refine ⟨h, rfl, le_rfl, fun _ hn hn' => absurd hn hn', by simp, hT, fun _ => rfl,
    (absurd hoff), ?_, fun _ _ hn hn' => absurd hn hn', fun _ _ _ => rfl, rfl, rfl, rfl⟩
  intro i b hi _ j hj
  have hlt : i * devBsize + j < length := by
    simp only [blocksFor, devBsize] at *
    omega
  rw [if_pos hlt]

variable {n : Node}

theorem TailCleared.start_lt {T' : Set Node}
    (h : TailCleared st st' l taken rest T T' length) (hn : n ∈ T') (hnT : n ∉ T) :
    n.start < blocksFor length := by
  obtain ⟨_, hoff, hle, _⟩ := h.new n hn hnT
  simp only [blocksFor, devBsize] at *
  omega

theorem TailCleared.write {T' : Set Node} (hT : TreeOk st.fs l T)
    (hoff : length % devBsize ≠ 0)
    (hg : Grows st st' l rest taken T T' (length / devBsize)) (herr : st'.uError = st.uError)
    (huniq : ∀ x b c, ⟨0, x, b⟩ ∈ T' → ⟨0, x, c⟩ ∈ T' → b = c)
    (hb : ⟨0, length / devBsize, b⟩ ∈ T') (hlt : b < 2 ^ 31)
    (hfresh : ⟨0, length / devBsize, b⟩ ∉ T → st'.disk b = zeroBlock) :
    TailCleared st (st'.write b (clearFrom (st'.disk b) (length % devBsize))) l taken rest T T' length := by
  have hlast : blocksFor length = length / devBsize + 1 := by
    simp only [blocksFor, devBsize] at *
    omega
  have htaken : ∀ n ∈ T, n.block ∉ taken := by
    intro n hn hmem
    apply hT.unlisted n hn
    rw [hg.split]
    exact mem_append_left _ hmem
  have hleaf : ∀ i c, ⟨0, i, c⟩ ∈ T → st'.disk c = st.disk c := by
    intro i c hc
    apply hg.frame c (htaken _ hc)
    intro n hn hpos heq
    rw [hT.inj hn hc heq] at hpos
    exact absurd hpos (lt_irrefl 0)
  refine ⟨hg.consistent.write (hg.ok.unlisted _ hb) _, hg.split, hg.sub, ?_, hg.used, hg.ok,
    fun h => absurd h hoff, fun _ => ⟨b, hlt, hb⟩, ?_, ?_, ?_, hg.isize, hg.fsize, herr⟩
  · intro n hn hnT
    obtain ⟨hmem, hx⟩ := hg.new n hn hnT
    exact ⟨hmem, hoff, hx⟩
  · intro i c hi hc j hj
    by_cases hx : i = length / devBsize
    · subst hx
      obtain rfl := huniq _ _ _ (hg.sub hc) hb
      rw [write_disk_self, hleaf _ _ hc, clearFrom]
      have hiff : length % devBsize ≤ j ∧ j < devBsize ↔ ¬ length / devBsize * devBsize + j < length := by
        simp only [devBsize] at *
        omega
      simp only [hiff]
      split_ifs <;> rfl
    · rw [write_disk_of_ne, hleaf i c hc, if_pos]
      · simp only [devBsize] at *
        omega
      · intro heq
        have := hg.ok.inj (hg.sub hc) hb heq
        rw [Node.mk.injEq] at this
        exact hx this.2.1
  · intro i c hc hcT j hj
    have hnew := hg.new _ hc hcT
    obtain rfl : i = length / devBsize := by
      have := hnew.2
      simp only [pow_zero] at this
      omega
    obtain rfl := huniq _ _ _ hc hb
    rw [write_disk_self, hfresh hcT]
    exact ite_self _
  · intro c hcl hcT
    have hct : c ∉ taken := fun hmem => hcl (hg.split ▸ mem_append_left _ hmem)
    rw [write_disk_of_ne, hg.frame c hct fun n hn _ => hcT n hn]
    rintro rfl
    by_cases hbT : (⟨0, length / devBsize, c⟩ : Node) ∈ T
    · exact hcT _ hbT rfl
    · exact hct (hg.new _ hb hbT).1

theorem lt_of_signed_nonneg (hb : b < wordMod) (h : 0 ≤ signed b) : b < 2 ^ 31 := by
  simp only [signed, wordMod] at *
  split_ifs at * <;> omega

theorem TreeOk.lt_wordMod (hT : TreeOk st.fs l T)
    (h : st.Consistent rest) (hn : n ∈ T) : n.block < wordMod := by
  have hgood := hT.good n hn
  have := h.fsize_lt
  simp only [badblock] at hgood
  omega

theorem TreeOk.signed_ne (hT : TreeOk st.fs l T)
    (h : st.Consistent rest) (hn : n ∈ T) : signed n.block ≠ -1 := by
  have hgood := hT.good n hn
  have hlt := h.fsize_lt
  simp only [badblock, signed, wordMod] at *
  split_ifs <;> omega

theorem clearTail_spec (h : st.Consistent l) (hT : TreeOk st.fs l (fileNodes st.disk ip.iAddr))
    (hlen : length < 2 ^ 31) (stale : ℕ → Block)
    (htail : length % devBsize ≠ 0 → st.uError = 0 ∧
      0 ≤ (bmap st ip (length / devBsize : ℕ) .write true (stale 0)).1) :
    ∃ ip' st' taken rest, clearTail st ip length stale = (true, ip', st') ∧
      (∃ r p, ip' = ip.setAddr r p) ∧
      TailCleared st st' l taken rest (fileNodes st.disk ip.iAddr) (fileNodes st'.disk ip'.iAddr)
        length := by
  by_cases hoff : length % devBsize = 0
  · refine ⟨ip, st, [], l, if_pos hoff, ⟨0, ip.iAddr 0, ?_⟩, TailCleared.refl h hT hoff⟩
    rw [Inode.setAddr, Function.update_eq_self]
  · obtain ⟨-, hpos⟩ := htail hoff
    have hx : length / devBsize < maxBlocks := by
      simp only [devBsize, maxBlocks, nindir]
      omega
    obtain ⟨v, ip', st', hres⟩ : ∃ v ip' st',
        (v, ip', st') = bmap st ip (length / devBsize : ℕ) .write true (stale 0) := ⟨_, _, _, rfl⟩
    rw [← hres] at hpos
    obtain ⟨taken, rest, _, hip, hg, hreach⟩ := bmap_write h hT hx true (stale 0) hres
    rcases hreach with ⟨b, hb, hval, herr', hfresh⟩ | ⟨hval, _⟩
    · have hlt : b < 2 ^ 31 := by
        apply lt_of_signed_nonneg (hg.ok.lt_wordMod hg.consistent hb)
        rwa [← show v = signed b from hval]
      have hbval : v = b := hval.trans (signed_of_lt hlt)
      have hfresh' : freshBlock true (stale 0) (length / devBsize) = zeroBlock := by
        simp [freshBlock]
      rw [hfresh'] at hfresh
      have hok : ¬ (st'.uError ≠ 0 ∨ v < 0) := by
        rw [show st'.uError = st.uError from herr']
        omega
      refine ⟨ip', st'.write b (clearFrom (st'.disk b) (length % devBsize)), taken, rest, ?_, hip, ?_⟩
      · rw [clearTail, if_neg hoff, ← hres]
        simp only [if_neg hok]
        rw [hbval, Int.toNat_natCast]
      · rw [fileNodes_write hg.ok hb]
        exact TailCleared.write hT hoff hg herr' (fun x b c => leaf_unique) hb hlt hfresh
    · omega

end Tail

variable {n : Node}

theorem mem_fileNodes_direct {disk : ℕ → Block} {iAddr : ℕ → ℕ}
    (h : ∀ r, ndaddr ≤ r → r < naddr → iAddr r = 0) :
    n ∈ fileNodes disk iAddr ↔ ∃ r < ndaddr, iAddr r ≠ 0 ∧ n = ⟨0, r, iAddr r⟩ := by
  constructor
  · rintro ⟨r, hr, hn⟩
    by_cases hd : r < ndaddr
    · have hh : rootHeight r = 0 := by
        simp only [rootHeight, ndaddr] at *
        omega
      have hbase : rootBase r = r := if_pos hd.le
      rw [rootNodes, hh, hbase] at hn
      exact ⟨r, hd, hn⟩
    · rw [rootNodes, h r (not_lt.1 hd) (mem_range.1 hr), treeNodes_null] at hn
      exact absurd hn (Set.notMem_empty n)
  · rintro ⟨r, hd, hne, rfl⟩
    refine ⟨r, mem_range.2 (by simp only [naddr, ndaddr] at *; omega), ?_⟩
    have hh : rootHeight r = 0 := by
      simp only [rootHeight, ndaddr] at *
      omega
    have hbase : rootBase r = r := if_pos hd.le
    rw [rootNodes, hh, hbase]
    exact ⟨hne, rfl⟩

section Itrunc

variable {st st' : Filsys} {ip ip' : Inode} {l : List ℕ} {length : ℕ}

theorem bmap_setSize (st : Filsys) (ip : Inode) (size : ℕ) (bn : ℤ) (rw : Rw) (clrbuf : Bool)
    (stale : Block) : (bmap st (ip.setSize size) bn rw clrbuf stale).1 =
      (bmap st ip bn rw clrbuf stale).1 := by
  have haddr : (ip.setSize size).iAddr = ip.iAddr := rfl
  unfold bmap
  rw [haddr]
  by_cases hneg : bn < 0
  · rw [if_pos hneg, if_pos hneg]
  rw [if_neg hneg, if_neg hneg]
  by_cases hd : bn < ndaddr
  · rw [if_pos hd, if_pos hd]
    by_cases hz : ip.iAddr bn.toNat = 0
    · simp only [hz]
      cases rw
      · rfl
      · rcases balloc st clrbuf stale with ⟨_ | ⟨b, contents⟩, st₁⟩ <;> rfl
    · simp only [hz, if_false]
  · rw [if_neg hd, if_neg hd]
    rcases indirection (bn.toNat - ndaddr) with _ | ⟨level, -⟩
    · rfl
    · by_cases hz : ip.iAddr (ndaddr + level - 1) = 0
      · simp only [hz]
        cases rw
        · rfl
        · rcases balloc st true zeroBlock with ⟨_ | ⟨b, contents⟩, st₁⟩ <;> rfl
      · simp only [hz, if_false]

/-- `itrunc` to a shorter length: the tail is cleared and then the file cut. -/
theorem itrunc_shrink (h : st.Consistent l) (hT : TreeOk st.fs l (fileNodes st.disk ip.iAddr))
    (hlen : length < 2 ^ 31)
    (hshort : if ip.iPipe then length ≤ maxpipsiz else length < ip.iSize) (stale : ℕ → Block)
    (htail : length % devBsize ≠ 0 → st.uError = 0 ∧
      0 ≤ (bmap st ip (length / devBsize : ℕ) .write true (stale 0)).1) :
    ∃ ip' st' iAddr₁ st₁ taken rest freed, itrunc st ip length stale = (ip', st') ∧
      (ip'.iSize = length ∧ ip'.iPipe = ip.iPipe ∧ ip'.iMode = ip.iMode ∧ ip'.iAppend = ip.iAppend) ∧
      TailCleared st st₁ l taken rest (fileNodes st.disk ip.iAddr) (fileNodes st₁.disk iAddr₁) length ∧
      FileCut st₁ st' rest freed iAddr₁ ip'.iAddr (blocksFor length) := by
  set oip := if ip.iPipe then ip.setSize maxpipsiz else ip with hoip
  have hfields : oip.iAddr = ip.iAddr ∧ oip.iPipe = ip.iPipe ∧ oip.iMode = ip.iMode ∧
      oip.iAppend = ip.iAppend := by
    rw [hoip]
    split_ifs <;> exact ⟨rfl, rfl, rfl, rfl⟩
  have hbmap : (bmap st oip (length / devBsize : ℕ) .write true (stale 0)).1 =
      (bmap st ip (length / devBsize : ℕ) .write true (stale 0)).1 := by
    rw [hoip]
    split_ifs
    · exact bmap_setSize ..
    · rfl
  have hsame : ¬ (ip.iPipe = false ∧ oip.iSize = length) := by
    rintro ⟨hp, hs⟩
    rw [hoip, if_neg (by simp [hp])] at hs
    rw [if_neg (by simp [hp])] at hshort
    omega
  have hgrow : ¬ oip.iSize < length := by
    rw [hoip]
    split_ifs with hp
    · rw [if_pos hp] at hshort
      exact not_lt.2 hshort
    · rw [if_neg hp] at hshort
      omega
  rw [← hfields.1] at hT ⊢
  obtain ⟨-, st₁, taken, rest, hclear, ⟨r, p, rfl⟩, htc⟩ := clearTail_spec h hT hlen stale
    (by rwa [hbmap])
  have hmod : (length + devBsize - 1) % wordMod / devBsize = blocksFor length := by
    rw [blocksFor, Nat.mod_eq_of_lt]
    simp only [devBsize, wordMod]
    omega
  have hc : blocksFor length ≤ maxBlocks := by
    simp only [blocksFor, devBsize, maxBlocks, nindir]
    omega
  obtain ⟨freed, hcut⟩ := file_cut stale htc.consistent htc.ok hc rfl rfl
  refine ⟨⟨oip.iMode, length, keptAddr (oip.setAddr r p).iAddr (blocksFor length - 1), oip.iPipe,
    oip.iAppend⟩, _, _, st₁, taken, rest, freed, ?_, ⟨rfl, hfields.2⟩, htc, hcut⟩
  unfold itrunc
  simp only [← hoip, if_neg hsame, if_neg hgrow, hclear, hmod]
  rfl

theorem TailCleared.uncovered_iff {st₁ : Filsys} {taken rest : List ℕ} {T1 : Set Node}
    (htc : TailCleared st st₁ l taken rest T T1 length) (b : ℕ) :
    Uncovered T1 (blocksFor length) b ↔ Uncovered T (blocksFor length) b := by
  rw [Ufs.uncovered_iff, Ufs.uncovered_iff]
  constructor
  · rintro ⟨n, ⟨hn, hc⟩, rfl⟩
    refine ⟨n, ⟨?_, hc⟩, rfl⟩
    by_contra hnT
    exact absurd (htc.start_lt hn hnT) (not_lt.2 hc)
  · rintro ⟨n, ⟨hn, hc⟩, rfl⟩
    exact ⟨n, ⟨htc.sub hn, hc⟩, rfl⟩

theorem FileCut.leaf {rest freed : List ℕ} {iAddr iAddr' : ℕ → ℕ} {c i : ℕ}
    (hcut : FileCut st st' rest freed iAddr iAddr' c)
    (hT : TreeOk st.fs rest (fileNodes st.disk iAddr)) (hb : ⟨0, i, b⟩ ∈ fileNodes st.disk iAddr)
    (hi : i < c) : st'.disk b = st.disk b := by
  apply hcut.frame
  rintro n hn hor heq
  rw [hT.inj hn hb heq] at hor
  exact hor.elim (lt_irrefl 0) (not_le.2 hi)

/-- `itrunc` to a shorter length is exact. It frees every block that covers no kept
index once and no other; afterwards `bmap` finds the same blocks below the new end,
and none behind it; and the last block is zero from the new end on. It needs a block
for the partial last index, which may be a hole. -/
theorem itrunc_exact (h : st.Consistent l) (hT : TreeOk st.fs l (fileNodes st.disk ip.iAddr))
    (hsize : ip.iSize < 2 ^ 31) (hlen : length < ip.iSize)
    (hpipe : ip.iPipe = true → length ≤ maxpipsiz) (stale : ℕ → Block)
    (htail : length % devBsize ≠ 0 → st.uError = 0 ∧
      0 ≤ (bmap st ip (length / devBsize : ℕ) .write true (stale 0)).1)
    (hres : itrunc st ip length stale = (ip', st')) (clrbuf : Bool) (fill : Block) :
    ip'.iSize = length ∧
    (∃ taken rest freed, l = taken ++ rest ∧ st'.Consistent (freed ++ rest) ∧ freed.Nodup ∧
      (∀ b, b ∈ freed ↔ Uncovered (fileNodes st.disk ip.iAddr) (blocksFor length) b) ∧
      (length % devBsize = 0 → taken = []) ∧
      ∀ b ∈ taken, ∃ n ∈ fileNodes st'.disk ip'.iAddr, n ∉ fileNodes st.disk ip.iAddr ∧ n.block = b ∧
        n.start ≤ length / devBsize ∧ length / devBsize < n.start + nindir ^ n.height) ∧
    (∀ i : ℕ, i < blocksFor length → (bmap st ip i .read clrbuf fill).1 ≠ -1 →
      (bmap st' ip' i .read clrbuf fill).1 = (bmap st ip i .read clrbuf fill).1) ∧
    (∀ i : ℕ, i < length / devBsize → (bmap st ip i .read clrbuf fill).1 = -1 →
      (bmap st' ip' i .read clrbuf fill).1 = -1) ∧
    (∀ i : ℕ, blocksFor length ≤ i → i < maxBlocks → (bmap st' ip' i .read clrbuf fill).1 = -1) ∧
    (∀ i b : ℕ, i < blocksFor length → (bmap st ip i .read clrbuf fill).1 = b → ∀ j < devBsize,
      st'.disk b j = if i * devBsize + j < length then st.disk b j else 0) ∧
    (length % devBsize ≠ 0 → ∃ b : ℕ, (bmap st' ip' (length / devBsize : ℕ) .read clrbuf fill).1 = b ∧
      ∀ j, length % devBsize ≤ j → j < devBsize → st'.disk b j = 0) := by
  obtain ⟨ip'', st'', iAddr₁, st₁, taken, rest, freed, hit, ⟨hsz, _⟩, htc, hcut⟩ :=
    itrunc_shrink h hT (hlen.trans hsize) (by split_ifs with hp; exacts [hpipe hp, hlen]) stale htail
  obtain ⟨rfl, rfl⟩ := Prod.mk.injEq .. ▸ hit.symm.trans hres
  have hlast : length / devBsize ≤ blocksFor length := by
    simp only [blocksFor, devBsize]
    omega
  have hmax : blocksFor length ≤ maxBlocks := by
    simp only [blocksFor, devBsize, maxBlocks, nindir]
    omega
  have hmapped : ∀ i : ℕ, i < blocksFor length → (bmap st ip i .read clrbuf fill).1 ≠ -1 →
      ∃ b, ⟨0, i, b⟩ ∈ fileNodes st.disk ip.iAddr := by
    intro i hi hne
    by_contra hno
    rw [bmap_read_of_hole (hi.trans_le hmax) fun b hb => hno ⟨b, hb⟩] at hne
    exact hne rfl
  refine ⟨hsz, ⟨taken, rest, freed, htc.split, hcut.consistent,
    (nodup_append.1 hcut.consistent.nodup).1, ?_, htc.aligned, ?_⟩, ?_, ?_, ?_, ?_, ?_⟩
  · intro b
    rw [hcut.freed, htc.uncovered_iff]
  · intro b hb
    obtain ⟨n, hn, hnT, hbn⟩ := htc.used b hb
    refine ⟨n, ?_, hnT, hbn, (htc.new n hn hnT).2.2⟩
    rw [hcut.nodes]
    exact ⟨hn, htc.start_lt hn hnT⟩
  · intro i hi hne
    obtain ⟨b, hb⟩ := hmapped i hi hne
    have hb' : ⟨0, i, b⟩ ∈ fileNodes st''.disk ip''.iAddr := by
      rw [hcut.nodes]
      exact ⟨htc.sub hb, hi⟩
    rw [bmap_read_of_mem hb, bmap_read_of_mem hb']
  · intro i hi hhole
    rw [bmap_read_of_hole ((hi.trans_le hlast).trans_le hmax)]
    intro b hb
    rw [hcut.nodes] at hb
    by_cases hold : (⟨0, i, b⟩ : Node) ∈ fileNodes st.disk ip.iAddr
    · rw [bmap_read_of_mem hold] at hhole
      exact hT.signed_ne h hold hhole
    · have hx := (htc.new _ hb.1 hold).2.2.2
      simp only [pow_zero] at hx
      omega
  · intro i hi hi'
    rw [bmap_read_of_hole hi']
    intro b hb
    rw [hcut.nodes] at hb
    exact absurd hb.2 (not_lt.2 hi)
  · intro i b hi hval j hj
    obtain ⟨c, hc⟩ := hmapped i hi (by omega)
    obtain rfl : c = b := by
      have hsigned : signed c = b := by
        rw [← hval, bmap_read_of_mem hc]
      have hlt := lt_of_signed_nonneg (hT.lt_wordMod h hc) (hsigned ▸ Int.natCast_nonneg b)
      rw [signed_of_lt hlt] at hsigned
      exact Int.ofNat_inj.1 hsigned
    rw [hcut.leaf htc.ok (htc.sub hc) hi, htc.data i c hi hc j hj]
  · intro hoff
    obtain ⟨b, hlt, hb⟩ := htc.tail hoff
    have hx : length / devBsize < blocksFor length := by
      simp only [blocksFor, devBsize] at *
      omega
    have hb' : ⟨0, length / devBsize, b⟩ ∈ fileNodes st''.disk ip''.iAddr := by
      rw [hcut.nodes]
      exact ⟨hb, hx⟩
    refine ⟨b, by rw [bmap_read_of_mem hb', signed_of_lt hlt], fun j hj hj' => ?_⟩
    rw [hcut.leaf htc.ok hb hx]
    by_cases hold : (⟨0, length / devBsize, b⟩ : Node) ∈ fileNodes st.disk ip.iAddr
    · rw [htc.data _ b hx hold j hj', if_neg]
      have := Nat.div_add_mod length devBsize
      rw [Nat.mul_comm] at this
      omega
    · exact htc.fresh _ b hb hold j hj'

end Itrunc

def shortFile : Inode := ⟨0, 2048, fun i => if i = 0 then 5 else if i = 1 then 6 else 0, false, false⟩

theorem shortFile_nodes (disk : ℕ → Block) :
    fileNodes disk shortFile.iAddr = {⟨0, 0, 5⟩, ⟨0, 1, 6⟩} := by
  have hzero : ∀ r, ndaddr ≤ r → r < naddr → shortFile.iAddr r = 0 := by decide
  ext n
  rw [mem_fileNodes_direct hzero]
  constructor
  · rintro ⟨r, hr, hne, rfl⟩
    simp only [ndaddr] at hr
    interval_cases r
    · exact .inl rfl
    · exact .inr rfl
    · exact absurd rfl hne
    · exact absurd rfl hne
  · rintro (rfl | rfl)
    · exact ⟨0, by decide, by decide, rfl⟩
    · exact ⟨1, by decide, by decide, rfl⟩

theorem shortFile_ok : TreeOk fullVolume.fs [] (fileNodes fullVolume.disk shortFile.iAddr) := by
  rw [shortFile_nodes]
  refine ⟨?_, ?_, by simp⟩
  · rintro n (rfl | rfl) m (rfl | rfl) heq
    exacts [rfl, absurd heq (by decide), absurd heq (by decide), rfl]
  · rintro n (rfl | rfl) <;> decide

/-- Its second block is freed and the first one stays. -/
theorem itrunc_exact_short_file : ∃ ip' st',
    itrunc fullVolume shortFile 500 (fun _ => zeroBlock) = (ip', st') ∧ 500 < shortFile.iSize ∧
    (∃ rest freed, st'.Consistent (freed ++ rest) ∧ 6 ∈ freed) ∧
    (bmap st' ip' 0 .read true zeroBlock).1 = 5 ∧ (bmap st' ip' 1 .read true zeroBlock).1 = -1 := by
  obtain ⟨ip', st', hres⟩ : ∃ ip' st',
    itrunc fullVolume shortFile 500 (fun _ => zeroBlock) = (ip', st') := ⟨_, _, rfl⟩
  obtain ⟨-, ⟨-, rest, freed, -, hst', -, hfreed, -⟩, hkept, -, hnone, -⟩ :=
    itrunc_exact fullVolume_consistent shortFile_ok (by decide) (by decide) (by decide) _
      (fun _ => ⟨rfl, by decide⟩) hres true zeroBlock
  refine ⟨ip', st', hres, by decide, ⟨rest, freed, hst', (hfreed 6).2 ?_⟩, ?_, ?_⟩
  · rw [shortFile_nodes]
    exact ⟨_, .inr rfl, rfl, fun i hi _ => hi⟩
  · exact hkept 0 (by decide) (by decide)
  · exact hnone 1 (by decide) (by decide)

def holedFile : Inode := ⟨0, 3072, fun i => if i = 2 then 5 else 0, false, false⟩

theorem holedFile_nodes (disk : ℕ → Block) : fileNodes disk holedFile.iAddr = {⟨0, 2, 5⟩} := by
  have hzero : ∀ r, ndaddr ≤ r → r < naddr → holedFile.iAddr r = 0 := by decide
  ext n
  rw [mem_fileNodes_direct hzero]
  constructor
  · rintro ⟨r, _, hne, rfl⟩
    obtain rfl : r = 2 := by
      by_contra hr
      exact hne (if_neg hr)
    rfl
  · rintro rfl
    exact ⟨2, by decide, by decide, rfl⟩

/-- The last block that would be kept is a hole, there is no block to fill it, and
`itrunc` returns with the file as it was. -/
theorem itrunc_full_volume :
    fullVolume.Consistent [] ∧ TreeOk fullVolume.fs [] (fileNodes fullVolume.disk holedFile.iAddr) ∧
    500 < holedFile.iSize ∧ Uncovered (fileNodes fullVolume.disk holedFile.iAddr) (blocksFor 500) 5 ∧
    (itrunc fullVolume holedFile 500 fun _ => zeroBlock).2.Consistent [] ∧
    (bmap (itrunc fullVolume holedFile 500 fun _ => zeroBlock).2
      (itrunc fullVolume holedFile 500 fun _ => zeroBlock).1 2 .read true zeroBlock).1 = 5 := by
  have hst : fullVolume.Consistent [] := fullVolume_consistent
  refine ⟨hst, ?_, by decide, ?_, ?_, ?_⟩
  · rw [holedFile_nodes]
    exact ⟨by simp, by simp; decide, by simp⟩
  · rw [holedFile_nodes]
    exact ⟨_, rfl, rfl, fun i hi _ => le_trans (by decide) hi⟩
  · exact hst.nospace
  · rfl

end RetroBSD.Ufs
