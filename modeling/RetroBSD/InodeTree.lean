import RetroBSD.BlockCut
import Mathlib

/-!
# The trees of an inode

The seven pointers of an inode are the roots of trees of heights 0, 0, 0, 0, 1, 2
and 3 whose ranges follow each other. `itrunc` treats the roots one after another,
from the last: a root none of whose indices is kept is released with its tree, one
that is kept in part is cut, and the others are left alone.
-/

namespace RetroBSD.Ufs

open LittleEndian RadixTree List

def rootHeight (r : ℕ) : ℕ := r - (ndaddr - 1)

def rootBase (r : ℕ) : ℕ :=
  if r ≤ ndaddr then r else if r = 5 then ndaddr + nindir else ndaddr + nindir + nindir ^ 2

def maxBlocks : ℕ := ndaddr + nindir + nindir ^ 2 + nindir ^ 3

abbrev rootNodes (disk : ℕ → Block) (iAddr : ℕ → ℕ) (r : ℕ) : Set Node :=
  treeNodes disk (rootHeight r) (iAddr r) (rootBase r)

def rootsNodes (disk : ℕ → Block) (iAddr : ℕ → ℕ) (rs : List ℕ) : Set Node :=
  {n | ∃ r ∈ rs, n ∈ rootNodes disk iAddr r}

def fileNodes (disk : ℕ → Block) (iAddr : ℕ → ℕ) : Set Node :=
  rootsNodes disk iAddr (List.range naddr)

variable {r s : ℕ}

theorem rootBase_next (hr : r < naddr) (hs : s < naddr) (hrs : r < s) :
    rootBase r + nindir ^ rootHeight r ≤ rootBase s := by
  have hall : ∀ r < naddr, ∀ s < naddr, r < s →
      rootBase r + nindir ^ rootHeight r ≤ rootBase s := by decide
  exact hall r hr s hs hrs

variable {iAddr : ℕ → ℕ}

theorem root_unique {disk : ℕ → Block} {n : Node} (hr : r < naddr)
    (hs : s < naddr) (hnr : n ∈ rootNodes disk iAddr r) (hns : n ∈ rootNodes disk iAddr s) :
    r = s := by
  obtain ⟨_, hr1, hr2⟩ := nodes_range hnr
  obtain ⟨_, hs1, hs2⟩ := nodes_range hns
  have hpos : 0 < nindir ^ n.height := Nat.pow_pos nindir_pos
  rcases lt_trichotomy r s with h | h | h
  · have := rootBase_next hr hs h
    omega
  · exact h
  · have := rootBase_next hs hr h
    omega

/-- The treatment of root `r` when the first `c` blocks of the file are kept. -/
def truncRoot (stale : ℕ → Block) (iAddr : ℕ → ℕ) (c : ℕ) (st : Filsys) (r : ℕ) : Filsys :=
  if c ≤ rootBase r then
    if r < ndaddr then
      if iAddr r ≠ 0 then free st (iAddr r) (stale (iAddr r)) else st
    else if iAddr r ≠ 0 then
      free (indirtrunc stale (r - ndaddr) st (iAddr r) (-1)) (iAddr r) (stale (iAddr r))
    else st
  else if r < ndaddr ∨ rootBase r + nindir ^ rootHeight r < c then st
  else if iAddr r ≠ 0 then indirtrunc stale (r - ndaddr) st (iAddr r) ((c - rootBase r : ℕ) - 1)
  else st

/-- The pointer that stays for root `r`. -/
def keptRoot (iAddr : ℕ → ℕ) (c r : ℕ) : ℕ := if c ≤ rootBase r then 0 else iAddr r

/-- What the treatment of the roots `rs` amounts to. -/
structure RootsCut (iAddr : ℕ → ℕ) (c : ℕ) (rs : List ℕ) (st st' : Filsys) (l l' : List ℕ) :
    Prop where
  released : Released st st' l l'
    (Node.block '' {n ∈ rootsNodes st.disk iAddr rs | c ≤ n.start})
    (Node.block '' {n ∈ rootsNodes st.disk iAddr rs | 0 < n.height ∨ c ≤ n.start})
  kept : ∀ r ∈ rs, rootNodes st'.disk (keptRoot iAddr c) r =
    {n ∈ rootNodes st.disk iAddr r | n.start < c}

variable (stale : ℕ → Block)

theorem truncRoot_spec (iAddr : ℕ → ℕ) (c : ℕ) {st : Filsys} {l : List ℕ} (h : st.Consistent l)
    (hT : TreeOk st.fs l (rootNodes st.disk iAddr r)) :
    ∃ l', RootsCut iAddr c [r] st (truncRoot stale iAddr c st r) l l' := by
  have hrange := fun n (hn : n ∈ rootNodes st.disk iAddr r) => nodes_range hn
  have hroots : rootsNodes st.disk iAddr [r] = rootNodes st.disk iAddr r := by
    simp [rootsNodes]
  rw [truncRoot]
  by_cases hc : c ≤ rootBase r
  · rw [if_pos hc]
    have hall : ∀ n ∈ rootNodes st.disk iAddr r, c ≤ n.start := fun n hn =>
      hc.trans (hrange n hn).2.1
    have hset : {n ∈ rootNodes st.disk iAddr r | c ≤ n.start} = rootNodes st.disk iAddr r :=
      Set.sep_eq_self_iff_mem_true.2 hall
    have hset' : {n ∈ rootNodes st.disk iAddr r | n.start < c} = ∅ := by
      apply Set.sep_eq_empty_iff_mem_false.2
      intro n hn
      exact not_lt_of_ge (hall n hn)
    have hrel : ∃ l', Released st (if r < ndaddr then
        (if iAddr r ≠ 0 then free st (iAddr r) (stale (iAddr r)) else st)
        else if iAddr r ≠ 0 then
          free (indirtrunc stale (r - ndaddr) st (iAddr r) (-1)) (iAddr r) (stale (iAddr r))
        else st) l l' (Node.block '' rootNodes st.disk iAddr r)
        (Node.block '' rootNodes st.disk iAddr r) := by
      by_cases hd : r < ndaddr
      · have hz : rootHeight r = 0 := by simp only [rootHeight] at *; omega
        simp only [rootNodes, hz] at hT ⊢
        rw [if_pos hd]
        exact release_single stale h hT
      · have hz : rootHeight r = r - ndaddr + 1 := by simp only [rootHeight, ndaddr] at *; omega
        simp only [rootNodes, hz] at hT ⊢
        rw [if_neg hd]
        exact release_indirect (indirtrunc_cuts stale _) h hT
    obtain ⟨l', hrel⟩ := hrel
    refine ⟨l', ⟨hrel.mono ?_ ?_, ?_⟩⟩
    · rw [hroots, hset]
    · rw [hroots]
      exact Set.image_mono fun n hn => ⟨hn, .inr (hall n hn)⟩
    · simp only [mem_singleton, forall_eq, hset', rootNodes, keptRoot, if_pos hc, treeNodes_null]
  · rw [if_neg hc]
    have hkept : keptRoot iAddr c r = iAddr r := if_neg hc
    by_cases hwhole : r < ndaddr ∨ rootBase r + nindir ^ rootHeight r < c
    · -- nothing of this root lies beyond the kept blocks
      have hall : ∀ n ∈ rootNodes st.disk iAddr r, n.start < c := by
        intro n hn
        have hn' := (hrange n hn).2.2
        have hpos : 0 < nindir ^ n.height := Nat.pow_pos nindir_pos
        rcases hwhole with hd | hlt
        · have hz : rootHeight r = 0 := by simp only [rootHeight] at *; omega
          rw [hz, Nat.pow_zero] at hn'
          omega
        · omega
      have hset : {n ∈ rootNodes st.disk iAddr r | c ≤ n.start} = ∅ := by
        apply Set.sep_eq_empty_iff_mem_false.2
        intro n hn
        exact not_le_of_gt (hall n hn)
      rw [if_pos hwhole]
      refine ⟨l, ⟨(Released.refl h).mono ?_ (Set.empty_subset _), ?_⟩⟩
      · rw [hroots, hset, Set.image_empty]
      · simp only [mem_singleton, forall_eq, rootNodes, hkept]
        exact (Set.sep_eq_self_iff_mem_true.2 hall).symm
    · rw [if_neg hwhole]
      obtain ⟨hd, hle⟩ := not_or.1 hwhole
      have hz : rootHeight r = r - ndaddr + 1 := by simp only [rootHeight, ndaddr] at *; omega
      have hsum : rootBase r + (c - rootBase r) = c := by omega
      simp only [rootNodes, hz] at hT hle hroots ⊢
      obtain ⟨⟨l', hrel⟩, hcut⟩ := cut_tree (indirtrunc_cuts stale (r - ndaddr)) h hT
        (show 0 < c - rootBase r by omega) (by omega) rfl
      rw [hsum] at hrel hcut
      refine ⟨l', ⟨hrel.mono ?_ ?_, ?_⟩⟩
      · rw [hroots]
      · rw [hroots]
      · simp only [mem_singleton, forall_eq, rootNodes, hkept, hz]
        exact hcut

theorem TreeOk.root_block_ne {st : Filsys} {l rs : List ℕ}
    (hT : TreeOk st.fs l (rootsNodes st.disk iAddr rs)) (hlt : ∀ r ∈ rs, r < naddr)
    {n m : Node} (hr : r ∈ rs) (hs : s ∈ rs) (hrs : r ≠ s) (hn : n ∈ rootNodes st.disk iAddr r)
    (hm : m ∈ rootNodes st.disk iAddr s) : n.block ≠ m.block := by
  intro heq
  have hnm := hT.inj ⟨r, hr, hn⟩ ⟨s, hs, hm⟩ heq
  subst hnm
  exact hrs (root_unique (hlt r hr) (hlt s hs) hn hm)

theorem truncRoots_spec (iAddr : ℕ → ℕ) (c : ℕ) (rs : List ℕ) (hnodup : rs.Nodup)
    (hlt : ∀ r ∈ rs, r < naddr) (st : Filsys) (l : List ℕ) (h : st.Consistent l)
    (hT : TreeOk st.fs l (rootsNodes st.disk iAddr rs)) :
    ∃ l', RootsCut iAddr c rs st (rs.foldl (truncRoot stale iAddr c) st) l l' := by
  induction rs generalizing st l with
  | nil =>
    refine ⟨l, ⟨(Released.refl h).mono ?_ (Set.empty_subset _), by simp⟩⟩
    simp [rootsNodes]
  | cons r rs ih =>
    obtain ⟨hr, hnodup⟩ := nodup_cons.1 hnodup
    obtain ⟨l1, h1⟩ := truncRoot_spec stale iAddr c h (hT.mono fun n hn => ⟨r, mem_cons_self, hn⟩)
    set st1 := truncRoot stale iAddr c st r
    have hone : rootsNodes st.disk iAddr [r] = rootNodes st.disk iAddr r := by
      simp [rootsNodes]
    have hrel := h1.released
    rw [hone] at hrel
    have hne : ∀ s ∈ rs, r ≠ s := fun s hs hrs => hr (hrs ▸ hs)
    have hsame : ∀ s ∈ rs, rootNodes st1.disk iAddr s = rootNodes st.disk iAddr s := by
      intro s hs
      apply treeNodes_frame hrel
      rintro n hn ⟨m, ⟨hm, _⟩, heq⟩
      exact hT.root_block_ne hlt mem_cons_self (mem_cons_of_mem _ hs) (hne s hs) hm hn heq
    have hrest : rootsNodes st1.disk iAddr rs = rootsNodes st.disk iAddr rs := by
      ext n
      exact exists_congr fun s => and_congr_right fun hs => by rw [hsame s hs]
    have hT1 : TreeOk st1.fs l1 (rootsNodes st.disk iAddr rs) := by
      refine (hT.mono ?_).released hrel ?_
      · rintro n ⟨s, hs, hn⟩
        exact ⟨s, mem_cons_of_mem _ hs, hn⟩
      · rintro n ⟨s, hs, hn⟩ ⟨m, ⟨hm, _⟩, heq⟩
        exact hT.root_block_ne hlt mem_cons_self (mem_cons_of_mem _ hs) (hne s hs) hm hn heq
    obtain ⟨l2, h2⟩ := ih hnodup (fun s hs => hlt s (mem_cons_of_mem _ hs)) st1 l1
      hrel.consistent (by rwa [hrest])
    have hrel2 := h2.released
    rw [hrest] at hrel2
    have hcons : rootsNodes st.disk iAddr (r :: rs) =
        rootNodes st.disk iAddr r ∪ rootsNodes st.disk iAddr rs := by
      ext n
      simp [rootsNodes]
    refine ⟨l2, ⟨(hrel.trans hrel2).mono ?_ ?_, ?_⟩⟩
    · rw [← Set.image_union, hcons]
      congr 1
      ext n
      exact or_and_right.symm
    · rw [← Set.image_union, hcons]
      apply Set.image_mono
      intro n hn
      exact or_and_right.2 hn
    · intro s hs
      rcases mem_cons.1 hs with rfl | hs
      · rw [← h1.kept s mem_cons_self]
        apply treeNodes_frame hrel2
        rintro n hn ⟨m, ⟨⟨t, ht, hm⟩, _⟩, heq⟩
        change n ∈ rootNodes st1.disk (keptRoot iAddr c) s at hn
        rw [h1.kept s mem_cons_self] at hn
        exact hT.root_block_ne hlt (mem_cons_of_mem _ ht) mem_cons_self (hne t ht).symm hm hn.1 heq
      · rw [foldl_cons, h2.kept s hs, hsame s hs]

/-! ## The order in which `itrunc` treats the roots -/

variable {c : ℕ}

theorem lastiblock_eq {level : ℕ} (hlevel : level < 3) : lastiblock (c - 1) level =
    if c ≤ rootBase (ndaddr + level) then -1 else ((c - rootBase (ndaddr + level) : ℕ) : ℤ) - 1 := by
  have hbase : rootBase 4 = 4 ∧ rootBase 5 = 260 ∧ rootBase 6 = 65796 := by decide
  obtain ⟨h4, h5, h6⟩ := hbase
  interval_cases level <;>
    simp only [lastiblock, ndaddr, nindir, Nat.reduceAdd, h4, h6] <;>
    split_ifs <;> omega

theorem keptAddr_eq (iAddr : ℕ → ℕ) (c : ℕ) (hr : r < naddr) :
    keptAddr iAddr (c - 1) r = keptRoot iAddr c r := by
  rw [keptAddr]
  by_cases hd : r < ndaddr
  · have hbase : rootBase r = r := if_pos hd.le
    congr 1
    simp only [eq_iff_iff]
    omega
  · have hlevel : r - ndaddr < 3 := by simp only [naddr, ndaddr] at *; omega
    have hsum : ndaddr + (r - ndaddr) = r := by omega
    rw [lastiblock_eq hlevel, hsum]
    congr 1
    simp only [eq_iff_iff]
    split_ifs <;> omega

theorem truncRoot_of_lt {stale : ℕ → Block} (hr : r < naddr)
    (hs : s < naddr) (hrs : s < r) (hc : rootBase r < c) (st : Filsys) :
    truncRoot stale iAddr c st s = st := by
  have hnext := rootBase_next hs hr hrs
  rw [truncRoot, if_neg (by omega), if_pos (.inr (by omega))]

theorem truncLevels_cons (iAddr : ℕ → ℕ) {level : ℕ} (hr : r = ndaddr + level)
    (hlevel : level < 3) (hc : c ≤ rootBase r + nindir ^ rootHeight r) (levels : List ℕ)
    (st : Filsys) : truncLevels stale iAddr (lastiblock (c - 1)) (level :: levels) st =
      if rootBase r < c then (true, truncRoot stale iAddr c st r)
      else truncLevels stale iAddr (lastiblock (c - 1)) levels (truncRoot stale iAddr c st r) := by
  have hnd : ¬ r < ndaddr := by omega
  have hsub : r - ndaddr = level := by omega
  rw [truncLevels, lastiblock_eq hlevel, ← hr]
  by_cases hle : c ≤ rootBase r
  · rw [truncRoot]
    simp [hle, hnd, hsub]
  · have hneg : ¬ (((c - rootBase r : ℕ) : ℤ) - 1 < 0) := by omega
    have hpos : 0 ≤ ((c - rootBase r : ℕ) : ℤ) - 1 := by omega
    rw [if_pos (lt_of_not_ge hle), truncRoot]
    simp only [if_neg hle, if_neg hneg, if_pos hpos, hnd, hsub, false_or, if_neg (not_lt_of_ge hc)]

theorem truncDirect_eq (iAddr : ℕ → ℕ) (c : ℕ) (st : Filsys) :
    truncDirect stale iAddr (c - 1) st = [3, 2, 1, 0].foldl (truncRoot stale iAddr c) st := by
  apply foldl_ext
  intro st r hr
  have hd : r < ndaddr := by
    revert r
    decide
  have hbase : rootBase r = r := if_pos hd.le
  rw [truncRoot, hbase]
  by_cases hc : c ≤ r
  · have : (c : ℤ) - 1 < r := by omega
    simp only [this, true_and, if_pos hc, if_pos hd]
  · have : ¬ (c : ℤ) - 1 < r := by omega
    simp [this, hc, hd]

theorem truncRoots_of_lt {stale : ℕ → Block} (hr : r < naddr)
    (hc : rootBase r < c) (rs : List ℕ) (hrs : ∀ s ∈ rs, s < r) (st : Filsys) :
    rs.foldl (truncRoot stale iAddr c) st = st := by
  induction rs with
  | nil => rfl
  | cons s rs ih =>
    have hs := hrs s mem_cons_self
    rw [foldl_cons, truncRoot_of_lt hr (hs.trans hr) hs hc]
    exact ih fun t ht => hrs t (mem_cons_of_mem _ ht)

theorem trunc_eq (iAddr : ℕ → ℕ) (hc : c ≤ maxBlocks) (st : Filsys)
    {r : Bool × Filsys} (hr : r = truncLevels stale iAddr (lastiblock (c - 1)) [2, 1, 0] st) :
    (if r.1 then r.2 else truncDirect stale iAddr (c - 1) r.2) =
      [6, 5, 4, 3, 2, 1, 0].foldl (truncRoot stale iAddr c) st := by
  subst hr
  rw [truncLevels_cons stale iAddr (r := 6) rfl (by decide) hc, foldl_cons]
  by_cases h6 : rootBase 6 < c
  · rw [if_pos h6, truncRoots_of_lt (by decide) h6 _ (by decide)]
    rfl
  rw [if_neg h6, truncLevels_cons stale iAddr (r := 5) rfl (by decide) (not_lt.1 h6), foldl_cons]
  by_cases h5 : rootBase 5 < c
  · rw [if_pos h5, truncRoots_of_lt (by decide) h5 _ (by decide)]
    rfl
  rw [if_neg h5, truncLevels_cons stale iAddr (r := 4) rfl (by decide) (not_lt.1 h5), foldl_cons]
  by_cases h4 : rootBase 4 < c
  · rw [if_pos h4, truncRoots_of_lt (by decide) h4 _ (by decide)]
    rfl
  rw [if_neg h4, ← truncDirect_eq]
  rfl

end RetroBSD.Ufs
