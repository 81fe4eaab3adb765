import Mathlib

/-!
# Trees of directories with link counts

A namespace is a set of entries `(d, n, i)`: in directory `d` the name `n` refers to `i`.
It is consistent when the directories form a tree below the root and the link counts
are right: a file has one link for each entry, a directory one for its entry, one for
itself and one for each directory in it. In a consistent namespace every directory is
reached by one path. The operations of a file system keep consistency.
-/

namespace DirectoryTree

variable {I N : Type*}

/-- The entries a directory has for itself and for its parent are not among `entries`. -/
@[ext]
structure Tree (I N : Type*) where
  root : I
  used : I → Prop
  isDir : I → Prop
  entries : Set (I × N × I)
  parent : I → I
  nlink : I → ℕ

namespace Tree

variable (T : Tree I N)

def links (i : I) : Set (I × N) := {x | (x.1, x.2, i) ∈ T.entries}

def subdirs (d : I) : Set (N × I) := {x | (d, x.1, x.2) ∈ T.entries ∧ T.isDir x.2}

def Reaches : I → List N → I → Prop
  | d, [], i => d = i
  | d, n :: p, i => ∃ j, (d, n, j) ∈ T.entries ∧ Reaches j p i

structure Consistent : Prop where
  root_isDir : T.isDir T.root
  root_not_mem : ∀ d n, (d, n, T.root) ∉ T.entries
  used_of_isDir : ∀ i, T.isDir i → T.used i
  isDir_of_mem : ∀ d n i, (d, n, i) ∈ T.entries → T.isDir d
  used_of_mem : ∀ d n i, (d, n, i) ∈ T.entries → T.used i
  functional : ∀ d n i j, (d, n, i) ∈ T.entries → (d, n, j) ∈ T.entries → i = j
  parent_mem : ∀ i, T.isDir i → i ≠ T.root → ∃ n, (T.parent i, n, i) ∈ T.entries
  dir_unique : ∀ i d n d' n', T.isDir i → (d, n, i) ∈ T.entries → (d', n', i) ∈ T.entries → d = d' ∧ n = n'
  parent_root : T.parent T.root = T.root
  depth : ∃ depth : I → ℕ, ∀ i, T.isDir i → i ≠ T.root → depth (T.parent i) < depth i
  file_nlink : ∀ i, T.used i → ¬T.isDir i → (T.links i).encard = T.nlink i ∧ 0 < T.nlink i
  dir_nlink : ∀ d, T.isDir d → (T.subdirs d).encard + 2 = T.nlink d

structure AgreeAt (T U : Tree I N) (j : I) : Prop where
  used : T.used j ↔ U.used j
  isDir : T.isDir j ↔ U.isDir j
  nlink : T.nlink j = U.nlink j
  entries : ∀ n i, (j, n, i) ∈ T.entries ↔ (j, n, i) ∈ U.entries

end Tree

open DirectoryTree.Tree Function Set

variable {T : Tree I N} {d i j : I} {n m : N} {p : List N}

theorem Tree.AgreeAt.trans {U V : Tree I N} (h : T.AgreeAt U j) (h' : U.AgreeAt V j) : T.AgreeAt V j :=
  ⟨h.used.trans h'.used, h.isDir.trans h'.isDir, h.nlink.trans h'.nlink,
    fun n i => (h.entries n i).trans (h'.entries n i)⟩

theorem Tree.eq_of_agreeAt {U : Tree I N} (hroot : T.root = U.root) (hparent : T.parent = U.parent)
    (h : ∀ j, T.AgreeAt U j) : T = U := by
  apply Tree.ext hroot
  · funext j
    exact propext (h j).used
  · funext j
    exact propext (h j).isDir
  · ext ⟨j, n, i⟩
    exact (h j).entries n i
  · exact hparent
  · funext j
    exact (h j).nlink

theorem reaches_append : ∀ {d : I} {p : List N} {n : N} {i : I},
    T.Reaches d (p ++ [n]) i ↔ ∃ e, T.Reaches d p e ∧ (e, n, i) ∈ T.entries := by
  intro d p
  induction p generalizing d with
  | nil =>
    intro n i
    constructor
    · rintro ⟨j, hj, rfl⟩
      exact ⟨d, rfl, hj⟩
    · rintro ⟨e, rfl, he⟩
      exact ⟨i, he, rfl⟩
  | cons m p ih =>
    intro n i
    constructor
    · rintro ⟨j, hj, hrest⟩
      obtain ⟨e, he, hmem⟩ := ih.1 hrest
      exact ⟨e, ⟨j, hj, he⟩, hmem⟩
    · rintro ⟨e, ⟨j, hj, he⟩, hmem⟩
      exact ⟨j, hj, ih.2 ⟨e, he, hmem⟩⟩

variable (hT : T.Consistent)
include hT

theorem Tree.Consistent.parent_eq (hi : T.isDir i) (h : (d, n, i) ∈ T.entries) : T.parent i = d := by
  have hne : i ≠ T.root := by
    rintro rfl
    exact hT.root_not_mem d n h
  obtain ⟨m, hm⟩ := hT.parent_mem i hi hne
  exact (hT.dir_unique i _ _ _ _ hi hm h).1

theorem Tree.Consistent.parent_isDir (hi : T.isDir i) : T.isDir (T.parent i) := by
  by_cases h : i = T.root
  · rw [h, hT.parent_root]
    exact hT.root_isDir
  · obtain ⟨m, hm⟩ := hT.parent_mem i hi h
    exact hT.isDir_of_mem _ _ _ hm

theorem Tree.Consistent.existsUnique_path (hi : T.isDir i) : ∃! p, T.Reaches T.root p i := by
  obtain ⟨depth, hdepth⟩ := hT.depth
  -- The induction is on the depth of the directory.
  induction hk : depth i using Nat.strong_induction_on generalizing i with
  | _ k ih =>
    by_cases hroot : i = T.root
    · subst hroot
      refine ⟨[], rfl, ?_⟩
      intro q hq
      rcases List.eq_nil_or_concat q with rfl | ⟨q, n, rfl⟩
      · rfl
      · rw [List.concat_eq_append] at hq
        obtain ⟨e, _, hmem⟩ := reaches_append.1 hq
        exact absurd hmem (hT.root_not_mem e n)
    · obtain ⟨n, hn⟩ := hT.parent_mem i hi hroot
      have hlt := hdepth i hi hroot
      rw [hk] at hlt
      obtain ⟨p, hp, huniq⟩ := ih _ hlt (hT.parent_isDir hi) rfl
      refine ⟨p ++ [n], reaches_append.2 ⟨_, hp, hn⟩, ?_⟩
      intro q hq
      rcases List.eq_nil_or_concat q with rfl | ⟨q, m, rfl⟩
      · exact absurd (Eq.symm hq) hroot
      · rw [List.concat_eq_append] at hq ⊢
        obtain ⟨e, he, hmem⟩ := reaches_append.1 hq
        obtain ⟨rfl, rfl⟩ := hT.dir_unique i _ _ _ _ hi hn hmem
        rw [huniq q he]

omit hT

/-! ## Adding and removing an entry -/

theorem reaches_of_entries {T' : Tree I N}
    (hent : ∀ d n j q, (d, n, j) ∈ T.entries → T.Reaches j q i → (d, n, j) ∈ T'.entries) (h : T.Reaches d p i) :
    T'.Reaches d p i := by
  induction p generalizing d with
  | nil => exact h
  | cons n p ih =>
    obtain ⟨j, hj, hrest⟩ := h
    exact ⟨j, hent d n j p hj hrest, ih hrest⟩

theorem isDir_of_reaches (hT : T.Consistent) (hi : T.isDir i) (h : T.Reaches d p i) : T.isDir d := by
  cases p with
  | nil =>
    obtain rfl := h
    exact hi
  | cons n p =>
    obtain ⟨j, hj, -⟩ := h
    exact hT.isDir_of_mem _ _ _ hj

include hT

/-- No path leads from a directory to its parent. -/
theorem Tree.Consistent.not_reaches_parent (hi : T.isDir i) (hroot : i ≠ T.root) (p : List N) :
    ¬T.Reaches i p (T.parent i) := by
  obtain ⟨depth, hdepth⟩ := hT.depth
  have hle : ∀ (p : List N) d e, T.isDir e → T.Reaches d p e → depth d ≤ depth e := by
    intro p
    induction p with
    | nil =>
      rintro d e - rfl
      exact le_rfl
    | cons n p ih =>
      rintro d e he ⟨j, hj, hrest⟩
      have hjdir := isDir_of_reaches hT he hrest
      have hjroot : j ≠ T.root := by
        rintro rfl
        exact hT.root_not_mem d n hj
      have hlt := hdepth j hjdir hjroot
      rw [hT.parent_eq hjdir hj] at hlt
      exact hlt.le.trans (ih j e he hrest)
  intro h
  exact absurd (hle p i _ (hT.parent_isDir hi) h) (Nat.not_le.2 (hdepth i hi hroot))

omit hT in
theorem encard_remove {α : Type*} {S : Set α} {a : α} {c k : ℕ} (ha : a ∈ S) (h : S.encard + c = k) :
    (S \ {a}).encard + c = (k - 1 : ℕ) := by
  rw [← encard_sdiff_singleton_add_one ha] at h
  have hfin : (S \ {a}).encard ≠ ⊤ := by
    intro htop
    rw [htop] at h
    simp at h
  obtain ⟨m, hm⟩ := ENat.ne_top_iff_exists.1 hfin
  rw [← hm] at h ⊢
  norm_cast at h ⊢
  omega

theorem Tree.Consistent.links_eq_empty (hi : ¬T.used i) : T.links i = ∅ := by
  apply eq_empty_of_forall_notMem
  intro x hx
  exact hi (hT.used_of_mem _ _ _ hx)

omit hT

section Changes

variable (T' : Tree I N)

theorem links_insert_self (h : T'.entries = insert (d, n, i) T.entries) :
    T'.links i = insert (d, n) (T.links i) := by
  ext x
  simp [links, h, Prod.ext_iff]

theorem links_remove_self (h : T'.entries = T.entries \ {(d, n, i)}) :
    T'.links i = T.links i \ {(d, n)} := by
  ext x
  simp [links, h, Prod.ext_iff]

theorem functional_insert (hT : T.Consistent) (hn : ∀ j, (d, n, j) ∉ T.entries)
    (h : T'.entries = insert (d, n, i) T.entries) :
    ∀ e m j k, (e, m, j) ∈ T'.entries → (e, m, k) ∈ T'.entries → j = k := by
  intro e m j k hj hk
  rw [h] at hj hk
  rcases hj with hj | hj
  · obtain ⟨rfl, rfl, rfl⟩ := by simpa only [Prod.mk.injEq] using hj
    rcases hk with hk | hk
    · exact ((by simpa only [Prod.mk.injEq] using hk : _ ∧ _ ∧ k = j)).2.2.symm
    · exact absurd hk (hn k)
  · rcases hk with hk | hk
    · obtain ⟨rfl, rfl, rfl⟩ := by simpa only [Prod.mk.injEq] using hk
      exact absurd hj (hn j)
    · exact hT.functional e m j k hj hk

end Changes

/-- `U` differs from `T` only in what concerns `i` and its entries, and in link counts. -/
structure Tree.ApartFrom (T U : Tree I N) (i : I) : Prop where
  root : U.root = T.root
  root_ne : T.root ≠ i
  used : ∀ j, j ≠ i → (U.used j ↔ T.used j)
  isDir : ∀ j, j ≠ i → (U.isDir j ↔ T.isDir j)
  parent : ∀ j, j ≠ i → U.parent j = T.parent j
  entries : ∀ e m j, j ≠ i → ((e, m, j) ∈ U.entries ↔ (e, m, j) ∈ T.entries)
  isDir_self : ∀ m j, (i, m, j) ∈ T.entries → U.isDir i

/-- What consistency says about `i` and its entries. -/
structure Tree.ConsistentAt (T : Tree I N) (i : I) : Prop where
  used_of_isDir : T.isDir i → T.used i
  of_mem : ∀ e m, (e, m, i) ∈ T.entries → T.isDir e ∧ T.used i
  functional : ∀ e m j, (e, m, i) ∈ T.entries → (e, m, j) ∈ T.entries → i = j
  parent_mem : T.isDir i → ∃ n, (T.parent i, n, i) ∈ T.entries
  dir_unique : ∀ d n d' n', T.isDir i → (d, n, i) ∈ T.entries → (d', n', i) ∈ T.entries → d = d' ∧ n = n'
  file_nlink : T.used i → ¬T.isDir i → (T.links i).encard = T.nlink i ∧ 0 < T.nlink i

section ApartFrom

variable {U : Tree I N} (h : T.ApartFrom U i)

include h

theorem Tree.ApartFrom.links_eq (hj : j ≠ i) : U.links j = T.links j := by
  ext x
  exact h.entries _ _ j hj

theorem Tree.ApartFrom.mem_subdirs (hj : j ≠ i) (e : I) (m : N) : (m, j) ∈ U.subdirs e ↔ (m, j) ∈ T.subdirs e :=
  and_congr (h.entries e m j hj) (h.isDir j hj)

theorem Tree.ApartFrom.subdirs_eq {e : I} (hi : ∀ m, (m, i) ∈ U.subdirs e ↔ (m, i) ∈ T.subdirs e) :
    U.subdirs e = T.subdirs e := by
  ext ⟨m, j⟩
  by_cases hj : j = i
  · exact hj ▸ hi m
  · exact h.mem_subdirs hj e m

theorem Tree.Consistent.of_apartFrom (hT : T.Consistent) (hi : U.ConsistentAt i)
    (hdepth : ∃ depth : I → ℕ, ∀ j, U.isDir j → j ≠ U.root → depth (U.parent j) < depth j)
    (hfile : ∀ j, j ≠ i → ¬T.isDir j → U.nlink j = T.nlink j)
    (hdir : ∀ e, U.isDir e → (U.subdirs e).encard + 2 = U.nlink e) : U.Consistent where
  root_isDir := by
    rw [h.root, h.isDir _ h.root_ne]
    exact hT.root_isDir
  root_not_mem := by
    intro e m hm
    rw [h.root, h.entries _ _ _ h.root_ne] at hm
    exact hT.root_not_mem e m hm
  used_of_isDir := by
    intro j hj
    by_cases hji : j = i
    · exact hji ▸ hi.used_of_isDir (hji ▸ hj)
    · exact (h.used j hji).2 (hT.used_of_isDir j ((h.isDir j hji).1 hj))
  isDir_of_mem := by
    intro e m j hm
    by_cases hji : j = i
    · exact (hi.of_mem e m (hji ▸ hm)).1
    · rw [h.entries e m j hji] at hm
      by_cases hei : e = i
      · exact hei ▸ h.isDir_self m j (hei ▸ hm)
      · exact (h.isDir e hei).2 (hT.isDir_of_mem e m j hm)
  used_of_mem := by
    intro e m j hm
    by_cases hji : j = i
    · exact hji ▸ (hi.of_mem e m (hji ▸ hm)).2
    · exact (h.used j hji).2 (hT.used_of_mem e m j ((h.entries e m j hji).1 hm))
  functional := by
    intro e m j k hj hk
    by_cases hji : j = i
    · exact hji ▸ hi.functional e m k (hji ▸ hj) hk
    · by_cases hki : k = i
      · exact hki ▸ (hi.functional e m j (hki ▸ hk) hj).symm
      · exact hT.functional e m j k ((h.entries e m j hji).1 hj) ((h.entries e m k hki).1 hk)
  parent_mem := by
    intro j hj hne
    by_cases hji : j = i
    · exact hji ▸ hi.parent_mem (hji ▸ hj)
    · obtain ⟨m, hm⟩ := hT.parent_mem j ((h.isDir j hji).1 hj) (h.root ▸ hne)
      rw [h.parent j hji]
      exact ⟨m, (h.entries _ m j hji).2 hm⟩
  dir_unique := by
    intro j e m e' m' hj hm hm'
    by_cases hji : j = i
    · exact hi.dir_unique e m e' m' (hji ▸ hj) (hji ▸ hm) (hji ▸ hm')
    · rw [h.entries _ _ j hji] at hm hm'
      exact hT.dir_unique j e m e' m' ((h.isDir j hji).1 hj) hm hm'
  parent_root := by
    rw [h.root, h.parent _ h.root_ne]
    exact hT.parent_root
  depth := hdepth
  file_nlink := by
    intro j hj hjdir
    by_cases hji : j = i
    · exact hji ▸ hi.file_nlink (hji ▸ hj) (hji ▸ hjdir)
    · rw [h.isDir j hji] at hjdir
      rw [h.links_eq hji, hfile j hji hjdir]
      exact hT.file_nlink j ((h.used j hji).1 hj) hjdir
  dir_nlink := hdir

end ApartFrom

/-! ## Operations -/

section Operations

variable [DecidableEq I]

namespace Tree

variable (T)

/-- A name for the file `i`, which may be new, and has `k` links then. -/
def link (d : I) (n : N) (i : I) (k : ℕ) : Tree I N :=
  { T with
    used := fun j => j = i ∨ T.used j
    entries := insert (d, n, i) T.entries
    nlink := update T.nlink i k }

/-- A name of a file is removed, and with the last one the file. -/
def unlink (d : I) (n : N) (i : I) : Tree I N :=
  { T with
    used := fun j => T.used j ∧ (j = i → T.nlink i ≠ 1)
    entries := T.entries \ {(d, n, i)}
    nlink := update T.nlink i (T.nlink i - 1) }

def addDir (d : I) (n : N) (i : I) : Tree I N :=
  { T with
    used := fun j => j = i ∨ T.used j
    isDir := fun j => j = i ∨ T.isDir j
    entries := insert (d, n, i) T.entries
    parent := update T.parent i d
    nlink := update (update T.nlink i 2) d (T.nlink d + 1) }

def removeDir (d : I) (n : N) (i : I) : Tree I N :=
  { T with
    used := fun j => T.used j ∧ j ≠ i
    isDir := fun j => T.isDir j ∧ j ≠ i
    entries := T.entries \ {(d, n, i)}
    nlink := update (update T.nlink i 0) d (T.nlink d - 1) }

def renameDir (d : I) (n m : N) (i : I) : Tree I N :=
  { T with entries := insert (d, m, i) (T.entries \ {(d, n, i)}) }

end Tree

/-! The link counts after each operation. -/

theorem link_nlink_self (d : I) (n : N) (i : I) (k : ℕ) : (T.link d n i k).nlink i = k := update_self _ _ _

theorem link_nlink_of_ne (h : j ≠ i) (d : I) (n : N) (k : ℕ) : (T.link d n i k).nlink j = T.nlink j :=
  update_of_ne h _ _

theorem unlink_nlink_self (d : I) (n : N) (i : I) : (T.unlink d n i).nlink i = T.nlink i - 1 :=
  update_self _ _ _

theorem unlink_nlink_of_ne (h : j ≠ i) (d : I) (n : N) : (T.unlink d n i).nlink j = T.nlink j :=
  update_of_ne h _ _

theorem addDir_nlink_self (h : i ≠ d) (n : N) : (T.addDir d n i).nlink i = 2 :=
  (update_of_ne h _ _).trans (update_self _ _ _)

theorem addDir_nlink_dir (d : I) (n : N) (i : I) : (T.addDir d n i).nlink d = T.nlink d + 1 :=
  update_self _ _ _

theorem addDir_nlink_of_ne (hi : j ≠ i) (hd : j ≠ d) (n : N) : (T.addDir d n i).nlink j = T.nlink j :=
  (update_of_ne hd _ _).trans (update_of_ne hi _ _)

theorem removeDir_nlink_self (h : i ≠ d) (n : N) : (T.removeDir d n i).nlink i = 0 :=
  (update_of_ne h _ _).trans (update_self _ _ _)

theorem removeDir_nlink_dir (d : I) (n : N) (i : I) : (T.removeDir d n i).nlink d = T.nlink d - 1 :=
  update_self _ _ _

theorem removeDir_nlink_of_ne (hi : j ≠ i) (hd : j ≠ d) (n : N) : (T.removeDir d n i).nlink j = T.nlink j :=
  (update_of_ne hd _ _).trans (update_of_ne hi _ _)

/-! Each operation concerns the directory and the inode it is about. -/

theorem agreeAt_link (hd : j ≠ d) (hi : j ≠ i) (n : N) (k : ℕ) : T.AgreeAt (T.link d n i k) j where
  used := (or_iff_right hi).symm
  isDir := Iff.rfl
  nlink := (update_of_ne hi _ _).symm
  entries := by
    simp [Tree.link, hd]

theorem agreeAt_unlink (hd : j ≠ d) (hi : j ≠ i) (n : N) : T.AgreeAt (T.unlink d n i) j where
  used := by simp [Tree.unlink, hi]
  isDir := Iff.rfl
  nlink := (update_of_ne hi _ _).symm
  entries := by
    simp [Tree.unlink, hd]

theorem agreeAt_addDir (hd : j ≠ d) (hi : j ≠ i) (n : N) : T.AgreeAt (T.addDir d n i) j where
  used := (or_iff_right hi).symm
  isDir := (or_iff_right hi).symm
  nlink := by simp [Tree.addDir, hd, hi]
  entries := by
    simp [Tree.addDir, hd]

theorem agreeAt_removeDir (hd : j ≠ d) (hi : j ≠ i) (n : N) : T.AgreeAt (T.removeDir d n i) j where
  used := (and_iff_left hi).symm
  isDir := (and_iff_left hi).symm
  nlink := by simp [Tree.removeDir, hd, hi]
  entries := by
    simp [Tree.removeDir, hd]

omit [DecidableEq I] in
theorem agreeAt_renameDir (hd : j ≠ d) (n m : N) (i : I) : T.AgreeAt (T.renameDir d n m i) j where
  used := Iff.rfl
  isDir := Iff.rfl
  nlink := rfl
  entries := by
    intro k l
    simp [Tree.renameDir, hd]

theorem Tree.Consistent.link {k : ℕ} (hT : T.Consistent) (hd : T.isDir d) (hn : ∀ j, (d, n, j) ∉ T.entries)
    (hi : ¬T.isDir i) (hk : (T.links i).encard + 1 = k) : (T.link d n i k).Consistent := by
  have happart : T.ApartFrom (T.link d n i k) i := by
    refine ⟨rfl, ?_, fun j hj => or_iff_right hj, fun _ _ => Iff.rfl, fun _ _ => rfl, ?_, hT.isDir_of_mem i⟩
    · rintro rfl
      exact hi hT.root_isDir
    · intro e m j hj
      simp [Tree.link, hj]
  refine hT.of_apartFrom happart ?_ hT.depth (fun j hj _ => link_nlink_of_ne hj d n k) ?_
  · refine ⟨fun h => absurd h hi, ?_, fun e m j => functional_insert _ hT hn rfl e m i j, fun h => absurd h hi,
      fun _ _ _ _ h => absurd h hi, fun _ _ => ?_⟩
    · rintro e m (h | h)
      · cases h
        exact ⟨hd, .inl rfl⟩
      · exact ⟨hT.isDir_of_mem e m i h, .inl rfl⟩
    · have hnew : (d, n) ∉ T.links i := hn i
      rw [links_insert_self (T.link d n i k) rfl, link_nlink_self, encard_insert_of_notMem hnew, hk]
      refine ⟨rfl, ?_⟩
      by_contra hzero
      obtain rfl : k = 0 := by omega
      exact absurd hk (by simp)
  · intro e he
    have hei : e ≠ i := by
      rintro rfl
      exact hi he
    rw [happart.subdirs_eq (fun m => iff_of_false (fun h => hi h.2) fun h => hi h.2), link_nlink_of_ne hei]
    exact hT.dir_nlink e he

include hT

theorem Tree.Consistent.unlink (h : (d, n, i) ∈ T.entries) (hi : ¬T.isDir i) :
    (T.unlink d n i).Consistent := by
  obtain ⟨hcard, hpos⟩ := hT.file_nlink i (hT.used_of_mem d n i h) hi
  have hleft : ((T.unlink d n i).links i).encard = (T.nlink i - 1 : ℕ) := by
    rw [← add_zero (T.links i).encard] at hcard
    rw [links_remove_self (T.unlink d n i) rfl, ← add_zero (T.links i \ {(d, n)}).encard]
    exact encard_remove h hcard
  have happart : T.ApartFrom (T.unlink d n i) i := by
    refine ⟨rfl, ?_, fun j hj => and_iff_left fun h => absurd h hj, fun _ _ => Iff.rfl, fun _ _ => rfl, ?_,
      hT.isDir_of_mem i⟩
    · rintro rfl
      exact hi hT.root_isDir
    · intro e m j hj
      simp [Tree.unlink, hj]
  refine hT.of_apartFrom happart ?_ hT.depth (fun j hj _ => unlink_nlink_of_ne hj d n) ?_
  · refine ⟨fun h => absurd h hi, ?_, fun e m j hj hk => hT.functional e m i j hj.1 hk.1, fun h => absurd h hi,
      fun _ _ _ _ h => absurd h hi, fun hused _ => ?_⟩
    · intro e m hm
      refine ⟨hT.isDir_of_mem e m i hm.1, hT.used_of_mem e m i hm.1, ?_⟩
      intro _ hone
      rw [hone, Nat.cast_zero, encard_eq_zero] at hleft
      have hmem : (e, m) ∈ (T.unlink d n i).links i := hm
      rw [hleft] at hmem
      exact hmem
    · rw [unlink_nlink_self, hleft]
      exact ⟨rfl, by have := hused.2 rfl; omega⟩
  · intro e he
    have hei : e ≠ i := by
      rintro rfl
      exact hi he
    rw [happart.subdirs_eq (fun m => iff_of_false (fun h => hi h.2) fun h => hi h.2), unlink_nlink_of_ne hei]
    exact hT.dir_nlink e he

theorem Tree.Consistent.addDir (hd : T.isDir d) (hn : ∀ j, (d, n, j) ∉ T.entries)
    (hi : ¬T.used i) : (T.addDir d n i).Consistent := by
  have hnot : ∀ e m, (e, m, i) ∉ T.entries := fun e m h => hi (hT.used_of_mem e m i h)
  have hnotdir : ¬T.isDir i := fun h => hi (hT.used_of_isDir i h)
  have hne : d ≠ i := by
    rintro rfl
    exact hnotdir hd
  have hparent : (T.addDir d n i).parent i = d := update_self _ _ _
  have honly : ∀ e m, (e, m, i) ∈ (T.addDir d n i).entries → e = d ∧ m = n := by
    rintro e m (h | h)
    · cases h
      exact ⟨rfl, rfl⟩
    · exact absurd h (hnot e m)
  have happart : T.ApartFrom (T.addDir d n i) i := by
    refine ⟨rfl, ?_, fun j hj => or_iff_right hj, fun j hj => or_iff_right hj,
      fun j hj => update_of_ne hj _ _, ?_, fun _ _ _ => .inl rfl⟩
    · rintro rfl
      exact hnotdir hT.root_isDir
    · intro e m j hj
      simp [Tree.addDir, hj]
  refine hT.of_apartFrom happart ?_ ?_ ?_ ?_
  · refine ⟨fun _ => .inl rfl, fun e m h => ⟨.inr ((honly e m h).1 ▸ hd), .inl rfl⟩,
      fun e m j => functional_insert _ hT hn rfl e m i j, fun _ => ⟨n, .inl (by rw [hparent])⟩, ?_,
      fun _ h => absurd (.inl rfl) h⟩
    intro e m e' m' _ h h'
    obtain ⟨rfl, rfl⟩ := honly e m h
    obtain ⟨rfl, rfl⟩ := honly e' m' h'
    exact ⟨rfl, rfl⟩
  · obtain ⟨depth, hdepth⟩ := hT.depth
    refine ⟨update depth i (depth d + 1), ?_⟩
    rintro j hj hjroot
    by_cases hji : j = i
    · subst hji
      rw [hparent, update_self, update_of_ne hne]
      exact Nat.lt_succ_self _
    · have hjdir := hj.resolve_left hji
      have hpne : T.parent j ≠ i := by
        intro heq
        exact hnotdir (heq ▸ hT.parent_isDir hjdir)
      rw [happart.parent j hji, update_of_ne hji, update_of_ne hpne]
      exact hdepth j hjdir hjroot
  · intro j hji hfile
    exact addDir_nlink_of_ne hji (fun h => hfile (h ▸ hd)) n
  · intro e he
    by_cases hei : e = i
    · subst hei
      have hempty : (T.addDir d n e).subdirs e = ∅ := by
        apply eq_empty_of_forall_notMem
        rintro ⟨m, j⟩ ⟨h | h, -⟩
        · exact hne (congrArg (fun x => x.1) h).symm
        · exact hnotdir (hT.isDir_of_mem e m j h)
      rw [hempty, addDir_nlink_self hne.symm, encard_empty]
      rfl
    · have hold := hT.dir_nlink e (he.resolve_left hei)
      by_cases hed : e = d
      · subst hed
        have hsub : (T.addDir e n i).subdirs e = insert (n, i) (T.subdirs e) := by
          ext ⟨m, j⟩
          by_cases hji : j = i
          · subst hji
            refine ⟨fun h => .inl ?_, ?_⟩
            · rw [(honly e m h.1).2]
            · rintro (h | h)
              · cases h
                exact ⟨.inl rfl, .inl rfl⟩
              · exact absurd h.1 (hnot e m)
          · rw [happart.mem_subdirs hji, mem_insert_iff, Prod.mk.injEq, or_iff_right fun h => hji h.2]
        have hmem : (n, i) ∉ T.subdirs e := fun h => hnot e n h.1
        rw [hsub, addDir_nlink_dir, encard_insert_of_notMem hmem, Nat.cast_add, ← hold, Nat.cast_one, add_right_comm]
      · have hsub : (T.addDir d n i).subdirs e = T.subdirs e :=
          happart.subdirs_eq fun m => iff_of_false (fun h => hed (honly e m h.1).1) fun h => hnot e m h.1
        rw [hsub, addDir_nlink_of_ne hei hed]
        exact hold

theorem Tree.Consistent.removeDir (h : (d, n, i) ∈ T.entries) (hi : T.isDir i)
    (hempty : ∀ m j, (i, m, j) ∉ T.entries) : (T.removeDir d n i).Consistent := by
  have hd := hT.isDir_of_mem d n i h
  have honly : ∀ e m, (e, m, i) ∈ T.entries → e = d ∧ m = n := fun e m hm => hT.dir_unique i e m d n hi hm h
  have hgone : ∀ e m, (e, m, i) ∉ (T.removeDir d n i).entries := by
    rintro e m ⟨hm, hnot⟩
    obtain ⟨rfl, rfl⟩ := honly e m hm
    exact hnot rfl
  have hnotdir : ¬(T.removeDir d n i).isDir i := fun h => h.2 rfl
  have happart : T.ApartFrom (T.removeDir d n i) i := by
    refine ⟨rfl, ?_, fun j hj => and_iff_left hj, fun j hj => and_iff_left hj, fun _ _ => rfl, ?_,
      fun m j hm => absurd hm (hempty m j)⟩
    · rintro rfl
      exact hT.root_not_mem d n h
    · intro e m j hj
      simp [Tree.removeDir, hj]
  refine hT.of_apartFrom happart ?_ ?_ ?_ ?_
  · exact ⟨fun h => absurd h hnotdir, fun e m hm => absurd hm (hgone e m), fun e m _ hm => absurd hm (hgone e m),
      fun h => absurd h hnotdir, fun _ _ _ _ h => absurd h hnotdir, fun hused => absurd rfl hused.2⟩
  · obtain ⟨depth, hdepth⟩ := hT.depth
    exact ⟨depth, fun j hj hjroot => hdepth j hj.1 hjroot⟩
  · intro j hji hfile
    exact removeDir_nlink_of_ne hji (fun h => hfile (h ▸ hd)) n
  · rintro e ⟨he, hei⟩
    have hold := hT.dir_nlink e he
    by_cases hed : e = d
    · subst hed
      have hsub : (T.removeDir e n i).subdirs e = T.subdirs e \ {(n, i)} := by
        ext ⟨m, j⟩
        by_cases hji : j = i
        · subst hji
          refine iff_of_false (fun hm => hgone e m hm.1) ?_
          rintro ⟨hm, hnot⟩
          exact hnot (congrArg (·, j) (honly e m hm.1).2)
        · rw [happart.mem_subdirs hji, mem_sdiff, mem_singleton_iff, Prod.mk.injEq,
            and_iff_left fun h => hji h.2]
      rw [hsub, removeDir_nlink_dir]
      exact encard_remove ⟨h, hi⟩ hold
    · have hsub : (T.removeDir d n i).subdirs e = T.subdirs e :=
        happart.subdirs_eq fun m => iff_of_false (fun hm => hgone e m hm.1) fun hm => hed (honly e m hm.1).1
      rw [hsub, removeDir_nlink_of_ne hei hed]
      exact hold

theorem Tree.Consistent.renameDir (h : (d, n, i) ∈ T.entries) (hi : T.isDir i)
    (hm : ∀ j, (d, m, j) ∉ T.entries) : (T.renameDir d n m i).Consistent := by
  have honly : ∀ e k, (e, k, i) ∈ T.entries → e = d ∧ k = n := fun e k hk => hT.dir_unique i e k d n hi hk h
  have hmem : ∀ e k, (e, k, i) ∈ (T.renameDir d n m i).entries ↔ e = d ∧ k = m := by
    intro e k
    refine ⟨?_, ?_⟩
    · rintro (hk | ⟨hk, hnot⟩)
      · cases hk
        exact ⟨rfl, rfl⟩
      · obtain ⟨rfl, rfl⟩ := honly e k hk
        exact absurd rfl hnot
    · rintro ⟨rfl, rfl⟩
      exact .inl rfl
  have happart : T.ApartFrom (T.renameDir d n m i) i := by
    refine ⟨rfl, ?_, fun _ _ => Iff.rfl, fun _ _ => Iff.rfl, fun _ _ => rfl, ?_, hT.isDir_of_mem i⟩
    · rintro rfl
      exact hT.root_not_mem d n h
    · intro e k j hj
      simp [Tree.renameDir, hj]
  refine hT.of_apartFrom happart ?_ hT.depth (fun _ _ _ => rfl) ?_
  · refine ⟨hT.used_of_isDir i, ?_, ?_, fun _ => ⟨m, (hmem _ m).2 ⟨hT.parent_eq hi h, rfl⟩⟩, ?_,
      fun _ hfile => absurd hi hfile⟩
    · intro e k hk
      obtain ⟨rfl, -⟩ := (hmem e k).1 hk
      exact ⟨hT.isDir_of_mem e n i h, hT.used_of_isDir i hi⟩
    · intro e k j hk hj
      obtain ⟨rfl, rfl⟩ := (hmem e k).1 hk
      by_contra hji
      exact hm j ((happart.entries e k j (Ne.symm hji)).1 hj)
    · intro e k e' k' _ hk hk'
      obtain ⟨rfl, rfl⟩ := (hmem e k).1 hk
      obtain ⟨rfl, rfl⟩ := (hmem e' k').1 hk'
      exact ⟨rfl, rfl⟩
  · intro e he
    have hold := hT.dir_nlink e he
    by_cases hed : e = d
    · subst hed
      have hsub : (T.renameDir e n m i).subdirs e = insert (m, i) (T.subdirs e \ {(n, i)}) := by
        ext ⟨k, j⟩
        rw [mem_insert_iff, mem_sdiff, mem_singleton_iff, Prod.mk.injEq, Prod.mk.injEq]
        by_cases hji : j = i
        · subst hji
          refine ⟨fun hk => .inl ⟨((hmem e k).1 hk.1).2, rfl⟩, ?_⟩
          rintro (⟨hk, -⟩ | ⟨hk, hnot⟩)
          · exact ⟨(hmem e k).2 ⟨rfl, hk⟩, hi⟩
          · exact absurd ⟨(honly e k hk.1).2, rfl⟩ hnot
        · rw [happart.mem_subdirs hji, or_iff_right fun h => hji h.2, and_iff_left fun h => hji h.2]
      have hnew : (m, i) ∉ T.subdirs e \ {(n, i)} := fun hx => hm i hx.1.1
      have hback : (T.subdirs e \ {(n, i)}).encard + 1 = (T.subdirs e).encard :=
        encard_sdiff_singleton_add_one ⟨h, hi⟩
      rw [hsub, encard_insert_of_notMem hnew, hback]
      exact hold
    · have hsub : (T.renameDir d n m i).subdirs e = T.subdirs e :=
        happart.subdirs_eq fun k =>
          iff_of_false (fun hk => hed ((hmem e k).1 hk.1).1) fun hk => hed (honly e k hk.1).1
      rw [hsub]
      exact hold

end Operations

end DirectoryTree
