import RetroBSD.ImageRequests
import RetroBSD.DirectoryTree

/-!
# The namespace of a mounted image

The directories of an image as a tree: `Namespace` says that the tree is consistent and
that the entries `.` and `..` are right. What the calls of a request do to the files of the
image is an operation on the tree.
-/

namespace RetroBSD.Fsutil

open DirectoryTree Function Finset

/-- The tree of an image. Inode 1 is reserved. -/
def Volume.tree (v : Volume) (parent : ℕ → ℕ) : Tree ℕ Name where
  root := rootInode
  used i := v.Valid i ∧ i ≠ 1 ∧ (v.file i).mode ≠ 0
  isDir i := v.Valid i ∧ (v.file i).isDir
  entries := {x | v.Valid x.1 ∧ (v.file x.1).isDir ∧ (x.2.1, x.2.2) ∈ (v.file x.1).names ∧
    x.2.1 ≠ dot ∧ x.2.1 ≠ dotdot}
  parent := parent
  nlink i := (v.file i).nlink

structure Namespace (v : Volume) (parent : ℕ → ℕ) : Prop where
  dirs : v.ValidDirs
  tree : (v.tree parent).Consistent
  dots : ∀ d, v.Valid d → (v.file d).isDir → (dot, d) ∈ (v.file d).names ∧ (dotdot, parent d) ∈ (v.file d).names
  reserved : (v.file 1).mode ≠ 0
  nlink_lt : ∀ i, (v.file i).nlink < 2 ^ 16

/-- Two files that are the same for the namespace. -/
structure Same (f g : File) : Prop where
  mode : g.mode = f.mode
  nlink : g.nlink = f.nlink
  names : f.isDir → g.names = f.names

/-- A directory with the names `s` and `k` links. -/
structure Became (f g : File) (s : Finset (Name × ℕ)) (k : ℕ) : Prop where
  mode : g.mode = f.mode
  nlink : g.nlink = k
  names : g.names = s
  valid : g.ValidDir ∧ 0 < g.size

variable {v v' : Volume} {parent parent' : ℕ → ℕ} {path : List UInt8} {name : Name} {d dir inum i j k : ℕ}
  {f g : File} {s : Finset (Name × ℕ)}

theorem Same.refl (f : File) : Same f f := ⟨rfl, rfl, fun _ => rfl⟩

theorem Same.isDir (h : Same f g) : g.isDir ↔ f.isDir := isDir_congr h.mode

theorem not_isDir_of_free (h : f.mode = 0) : ¬f.isDir := by
  rw [File.isDir, h]
  decide

theorem mode_ne_of_isDir (h : f.isDir) : f.mode ≠ 0 := fun h' => not_isDir_of_free h' h

theorem valid_congr (hsize : v'.isize = v.isize) (i : ℕ) : v'.Valid i ↔ v.Valid i := by
  rw [Volume.Valid, Volume.Valid, hsize]

theorem Same.agreeAt (h : Same (v.file j) (v'.file j)) (hsize : v'.isize = v.isize) (parent' : ℕ → ℕ) :
    (v'.tree parent').AgreeAt (v.tree parent) j := by
  have hval := valid_congr hsize j
  refine ⟨?_, ?_, h.nlink, ?_⟩
  · simp only [Volume.tree]
    rw [hval, h.mode]
  · simp only [Volume.tree]
    rw [hval, h.isDir]
  · intro n i
    simp only [Volume.tree, Set.mem_ofPred_eq]
    rw [hval, h.isDir]
    constructor
    · rintro ⟨hv, hdir, hmem, hn⟩
      rw [h.names hdir] at hmem
      exact ⟨hv, hdir, hmem, hn⟩
    · rintro ⟨hv, hdir, hmem, hn⟩
      rw [← h.names hdir] at hmem
      exact ⟨hv, hdir, hmem, hn⟩

theorem agreeAt_of_eq (h : v'.file j = v.file j) (hsize : v'.isize = v.isize) (parent' : ℕ → ℕ) :
    (v'.tree parent').AgreeAt (v.tree parent) j :=
  Same.agreeAt (h ▸ Same.refl _) hsize parent'

theorem mem_tree_entries (hd : v.Valid d) (hdir : (v.file d).isDir) (n : Name) (i : ℕ) :
    (d, n, i) ∈ (v.tree parent).entries ↔ (n, i) ∈ (v.file d).names ∧ n ≠ dot ∧ n ≠ dotdot := by
  simp only [Volume.tree, Set.mem_ofPred_eq]
  rw [and_iff_right hd, and_iff_right hdir]

theorem not_mem_tree_entries (hdir : ¬(v.file d).isDir) (n : Name) (i : ℕ) : (d, n, i) ∉ (v.tree parent).entries :=
  fun h => hdir h.2.1

section Directory

variable (hd : v.Valid dir) (hdir : (v.file dir).isDir)

include hd hdir

theorem mem_insert_iff_tree (hn : name ≠ dot ∧ name ≠ dotdot) (n : Name) (i : ℕ) :
    (n, i) ∈ insert (name, inum) (v.file dir).names ∧ n ≠ dot ∧ n ≠ dotdot ↔
      (dir, n, i) ∈ insert (dir, name, inum) (v.tree parent).entries := by
  rw [Set.mem_insert_iff, mem_tree_entries hd hdir, mem_insert]
  constructor
  · rintro ⟨h | h, hdots⟩
    · exact .inl (by rw [h])
    · exact .inr ⟨h, hdots⟩
  · rintro (h | ⟨h, hdots⟩)
    · cases h
      exact ⟨.inl rfl, hn⟩
    · exact ⟨.inr h, hdots⟩

theorem mem_erase_iff_tree (n : Name) (i : ℕ) :
    (n, i) ∈ (v.file dir).names.erase (name, inum) ∧ n ≠ dot ∧ n ≠ dotdot ↔
      (dir, n, i) ∈ (v.tree parent).entries \ {(dir, name, inum)} := by
  rw [Set.mem_sdiff, mem_tree_entries hd hdir, mem_erase, Set.mem_singleton_iff, Prod.mk.injEq]
  simp only [true_and]
  tauto

variable (hsize : v'.isize = v.isize)

include hsize

theorem agreeAt_dir (hch : Became (v.file dir) (v'.file dir) s k) (parent : ℕ → ℕ) {T : Tree ℕ Name}
    (hused : T.used dir ↔ (v.tree parent).used dir) (hisdir : T.isDir dir) (hnlink : T.nlink dir = k)
    (hnames : ∀ n i, (n, i) ∈ s ∧ n ≠ dot ∧ n ≠ dotdot ↔ (dir, n, i) ∈ T.entries) :
    (v'.tree parent').AgreeAt T dir := by
  have hdir' : (v'.file dir).isDir := (isDir_congr hch.mode).2 hdir
  have hd' : v'.Valid dir := (valid_congr hsize dir).2 hd
  refine ⟨?_, iff_of_true ⟨hd', hdir'⟩ hisdir, hch.nlink.trans hnlink.symm, fun n i => ?_⟩
  · rw [hused]
    simp only [Volume.tree]
    rw [valid_congr hsize, hch.mode]
  · rw [mem_tree_entries hd' hdir', hch.names, hnames]

theorem tree_renameDir {newname : Name} (hn : newname ≠ dot ∧ newname ≠ dotdot)
    (hch : Became (v.file dir) (v'.file dir) ((insert (newname, inum) (v.file dir).names).erase (name, inum))
      (v.file dir).nlink)
    (hne : newname ≠ name) (hother : ∀ j, j ≠ dir → v'.file j = v.file j) :
    v'.tree parent = (v.tree parent).renameDir dir name newname inum := by
  refine Tree.eq_of_agreeAt (by rfl) (by rfl) ?_
  intro j
  by_cases h2 : j = dir
  · subst h2
    refine agreeAt_dir hd hdir hsize hch parent Iff.rfl ⟨hd, hdir⟩ rfl fun n i => ?_
    have hnew : (newname, inum) ≠ (name, inum) := fun h => hne (congrArg Prod.fst h)
    rw [erase_insert_of_ne hnew]
    simp only [Tree.renameDir, Set.mem_insert_iff]
    rw [← mem_erase_iff_tree hd hdir, mem_insert, Prod.mk.injEq, Prod.mk.injEq, Prod.mk.injEq]
    simp only [true_and]
    constructor
    · rintro ⟨h | h, hdots⟩
      · exact .inl h
      · exact .inr ⟨h, hdots⟩
    · rintro (⟨rfl, rfl⟩ | ⟨h, hdots⟩)
      · exact ⟨.inl ⟨rfl, rfl⟩, hn⟩
      · exact ⟨.inr h, hdots⟩
  · exact (agreeAt_of_eq (hother j h2) hsize parent).trans (agreeAt_renameDir h2 name newname inum)

variable (hother : ∀ j, j ≠ dir → j ≠ inum → v'.file j = v.file j)

include hother

omit hd hdir in
theorem tree_eq {T : Tree ℕ Name} (hroot : rootInode = T.root) (hparent : parent' = T.parent)
    (hdir : (v'.tree parent').AgreeAt T dir)
    (hT : ∀ {j}, j ≠ dir → j ≠ inum → (v.tree parent).AgreeAt T j) (hinum : (v'.tree parent').AgreeAt T inum) :
    v'.tree parent' = T := by
  refine Tree.eq_of_agreeAt hroot hparent fun j => ?_
  by_cases h1 : j = inum
  · exact h1 ▸ hinum
  · by_cases h2 : j = dir
    · exact h2 ▸ hdir
    · exact (agreeAt_of_eq (hother j h2 h1) hsize parent').trans (hT h2 h1)

theorem tree_link (hn : name ≠ dot ∧ name ≠ dotdot) (hi : v.Valid inum) (hi' : inum ≠ 1) (hwas : ¬(v.file inum).isDir)
    (hch : Became (v.file dir) (v'.file dir) (insert (name, inum) (v.file dir).names) (v.file dir).nlink)
    (hinum : (v'.file inum).mode ≠ 0 ∧ ¬(v'.file inum).isDir ∧ (v'.file inum).nlink = k) :
    v'.tree parent = (v.tree parent).link dir name inum k := by
  have hne : dir ≠ inum := fun h => hwas (h ▸ hdir)
  refine tree_eq hsize hother (by rfl) (by rfl) (agreeAt_dir hd hdir hsize hch parent (or_iff_right hne) ⟨hd, hdir⟩
    (link_nlink_of_ne hne dir name k) (mem_insert_iff_tree hd hdir hn))
      (fun h2 h1 => agreeAt_link h2 h1 name k) ⟨?_, ?_, ?_, ?_⟩
  · exact iff_of_true ⟨(valid_congr hsize inum).2 hi, hi', hinum.1⟩ (.inl rfl)
  · exact iff_of_false (fun h => hinum.2.1 h.2) (fun h => hwas h.2)
  · rw [link_nlink_self]
    exact hinum.2.2
  · intro n i
    apply iff_of_false (not_mem_tree_entries hinum.2.1 n i)
    rintro (h | h)
    · exact hne (congrArg Prod.fst h).symm
    · exact not_mem_tree_entries hwas n i h

theorem tree_unlink (hwas : ¬(v.file inum).isDir)
    (hch : Became (v.file dir) (v'.file dir) ((v.file dir).names.erase (name, inum)) (v.file dir).nlink)
    (hinum : ((v'.file inum).mode ≠ 0 ↔ (v.file inum).mode ≠ 0 ∧ (v.file inum).nlink ≠ 1) ∧
      ¬(v'.file inum).isDir ∧ (v'.file inum).nlink = (v.file inum).nlink - 1) :
    v'.tree parent = (v.tree parent).unlink dir name inum := by
  have hne : dir ≠ inum := fun h => hwas (h ▸ hdir)
  refine tree_eq hsize hother (by rfl) (by rfl) (agreeAt_dir hd hdir hsize hch parent (by simp [Tree.unlink, hne])
    ⟨hd, hdir⟩ (unlink_nlink_of_ne hne dir name) (mem_erase_iff_tree hd hdir))
    (fun h2 h1 => agreeAt_unlink h2 h1 name) ⟨?_, ?_, ?_, ?_⟩
  · simp only [Volume.tree, Tree.unlink]
    rw [valid_congr hsize, hinum.1]
    simp [and_assoc]
  · exact iff_of_false (fun h => hinum.2.1 h.2) (fun h => hwas h.2)
  · rw [unlink_nlink_self]
    exact hinum.2.2
  · intro n i
    apply iff_of_false (not_mem_tree_entries hinum.2.1 n i)
    rintro ⟨h, -⟩
    exact not_mem_tree_entries hwas n i h

theorem tree_addDir (hn : name ≠ dot ∧ name ≠ dotdot) (hi : v.Valid inum) (hi' : inum ≠ 1)
    (hwas : ¬(v.file inum).isDir)
    (hch : Became (v.file dir) (v'.file dir) (insert (name, inum) (v.file dir).names) ((v.file dir).nlink + 1))
    (hnew : (v'.file inum).isDir) (htwo : (v'.file inum).nlink = 2)
    (hdots : ∀ x ∈ (v'.file inum).names, x.1 = dot ∨ x.1 = dotdot) :
    v'.tree (update parent inum dir) = (v.tree parent).addDir dir name inum := by
  have hne : dir ≠ inum := fun h => hwas (h ▸ hdir)
  have hi'' : v'.Valid inum := (valid_congr hsize inum).2 hi
  refine tree_eq hsize hother (by rfl) (by rfl) (agreeAt_dir hd hdir hsize hch parent (or_iff_right hne)
    (Or.inr ⟨hd, hdir⟩) (addDir_nlink_dir dir name inum) (mem_insert_iff_tree hd hdir hn))
    (fun h2 h1 => agreeAt_addDir h2 h1 name) ⟨?_, ?_, ?_, ?_⟩
  · exact iff_of_true ⟨hi'', hi', mode_ne_of_isDir hnew⟩ (.inl rfl)
  · exact iff_of_true ⟨hi'', hnew⟩ (.inl rfl)
  · rw [addDir_nlink_self hne.symm]
    exact htwo
  · intro n i
    rw [mem_tree_entries hi'' hnew]
    apply iff_of_false
    · rintro ⟨h, h', h''⟩
      exact (hdots _ h).elim h' h''
    · rintro (h | h)
      · exact hne (congrArg Prod.fst h).symm
      · exact not_mem_tree_entries hwas n i h

theorem tree_removeDir (hne : inum ≠ dir) (hempty : ∀ x ∈ (v.file inum).names, x.1 = dot ∨ x.1 = dotdot)
    (hch : Became (v.file dir) (v'.file dir) ((v.file dir).names.erase (name, inum)) ((v.file dir).nlink - 1))
    (hgone : (v'.file inum).mode = 0) (hzero : (v'.file inum).nlink = 0) :
    v'.tree parent = (v.tree parent).removeDir dir name inum := by
  refine tree_eq hsize hother (by rfl) (by rfl) (agreeAt_dir hd hdir hsize hch parent (and_iff_left hne.symm)
    ⟨⟨hd, hdir⟩, hne.symm⟩ (removeDir_nlink_dir dir name inum) (mem_erase_iff_tree hd hdir))
    (fun h2 h1 => agreeAt_removeDir h2 h1 name) ⟨?_, ?_, ?_, ?_⟩
  · exact iff_of_false (fun h => h.2.2 hgone) (fun h => h.2 rfl)
  · exact iff_of_false (fun h => not_isDir_of_free hgone h.2) (fun h => h.2 rfl)
  · rw [removeDir_nlink_self hne]
    exact hzero
  · intro n i
    apply iff_of_false (not_mem_tree_entries (not_isDir_of_free hgone) n i)
    rintro ⟨⟨-, -, hmem, h', h''⟩, -⟩
    exact (hempty _ hmem).elim h' h''

end Directory

/-! ## Operations on a consistent image -/

theorem mem_erase_of_name {n : Name} (hmem : (n, i) ∈ s) (hne : n ≠ name) :
    (n, i) ∈ s.erase (name, j) := by
  rw [mem_erase]
  exact ⟨fun heq => hne (congrArg Prod.fst heq), hmem⟩

/-- A directory `d` in `p`. -/
def DirOk (f : File) (d p : ℕ) : Prop :=
  (f.ValidDir ∧ 0 < f.size) ∧ (dot, d) ∈ f.names ∧ (dotdot, p) ∈ f.names

section Operations

variable (h : Namespace v parent)

include h

theorem Namespace.valid_root : v.Valid rootInode := h.tree.root_isDir.1

theorem Namespace.dir_ne_one (hd : v.Valid d) (hdir : (v.file d).isDir) : d ≠ 1 :=
  (h.tree.used_of_isDir d ⟨hd, hdir⟩).2.1

variable (hent : Entered v path dir name inum f)
include hent

theorem Namespace.entered_name : name ≠ dot ∧ name ≠ dotdot := by
  obtain ⟨h1, h2⟩ := h.dots dir hent.valid hent.leads.isDir
  constructor
  · rintro rfl
    exact hent.absent _ h1
  · rintro rfl
    exact hent.absent _ h2

omit h in
theorem entry_fresh (j : ℕ) :
    (dir, name, j) ∉ (v.tree parent).entries := fun hmem => hent.absent j hmem.2.2.1

omit hent

theorem Namespace.used_of_mem (hd : v.Valid dir) (hdir : (v.file dir).isDir) (hi : (name, i) ∈ (v.file dir).names) :
    v.Valid i ∧ i ≠ 1 ∧ (v.file i).mode ≠ 0 := by
  obtain ⟨h1, h2⟩ := h.dots dir hd hdir
  obtain ⟨hvalid, -⟩ := h.dirs dir hd hdir
  by_cases hdot : name = dot
  · subst hdot
    obtain rfl := names_functional hvalid hi h1
    exact h.tree.used_of_isDir _ ⟨hd, hdir⟩
  · by_cases hdots : name = dotdot
    · subst hdots
      obtain rfl := names_functional hvalid hi h2
      exact h.tree.used_of_isDir _ (h.tree.parent_isDir ⟨hd, hdir⟩)
    · exact h.tree.used_of_mem dir name i ⟨hd, hdir, hi, hdot, hdots⟩

/-- Only the inodes `dir` and `inum` have to be looked at again. -/
theorem Namespace.of_pair (hsize : v'.isize = v.isize) (htree : (v'.tree parent').Consistent)
    (hone : dir ≠ 1 ∧ inum ≠ 1) (hlt : (v'.file dir).nlink < 2 ^ 16 ∧ (v'.file inum).nlink < 2 ^ 16)
    (hdir : (v'.file dir).isDir → DirOk (v'.file dir) dir (parent' dir))
    (hinum : (v'.file inum).isDir → DirOk (v'.file inum) inum (parent' inum))
    (hother : ∀ d, d ≠ dir → d ≠ inum → v'.file d = v.file d ∧ parent' d = parent d) : Namespace v' parent' := by
  have hok : ∀ d, v'.Valid d → (v'.file d).isDir → DirOk (v'.file d) d (parent' d) := by
    intro d hd hisdir
    have hd' := (valid_congr hsize d).1 hd
    by_cases h1 : d = dir
    · exact h1 ▸ hdir (h1 ▸ hisdir)
    · by_cases h2 : d = inum
      · exact h2 ▸ hinum (h2 ▸ hisdir)
      · obtain ⟨hfile, hparent⟩ := hother d h1 h2
        rw [hfile] at hisdir ⊢
        rw [hparent]
        exact ⟨h.dirs d hd' hisdir, h.dots d hd' hisdir⟩
  refine ⟨fun d hd hisdir => (hok d hd hisdir).1, htree, fun d hd hisdir => (hok d hd hisdir).2, ?_, ?_⟩
  · rw [(hother 1 hone.1.symm hone.2.symm).1]
    exact h.reserved
  · intro d
    by_cases h1 : d = dir
    · exact h1 ▸ hlt.1
    · by_cases h2 : d = inum
      · exact h2 ▸ hlt.2
      · rw [(hother d h1 h2).1]
        exact h.nlink_lt d

omit h in
theorem Became.dirOk (hch : Became f g s k) (hdot : (dot, d) ∈ s) (hdots : (dotdot, i) ∈ s) :
    DirOk g d i := by
  rw [DirOk, hch.names]
  exact ⟨hch.valid, hdot, hdots⟩

include hent

theorem Namespace.link (hi : v.Valid inum) (hi' : inum ≠ 1)
    (hwas : ¬(v.file inum).isDir) (hk : ((v.tree parent).links inum).encard + 1 = k)
    (hlt : k < 2 ^ 16) (hsize : v'.isize = v.isize) (hf : v'.file dir = f)
    (hg : (v'.file inum).mode ≠ 0 ∧ ¬(v'.file inum).isDir ∧ (v'.file inum).nlink = k)
    (hother : ∀ j, j ≠ dir → j ≠ inum → v'.file j = v.file j) : Namespace v' parent := by
  have hdir := hent.leads.isDir
  have hins := hent.inserted
  obtain ⟨hdot, hdots⟩ := h.dots dir hent.valid hdir
  have hch : Became (v.file dir) (v'.file dir) (insert (name, inum) (v.file dir).names) (v.file dir).nlink :=
    hf ▸ ⟨hins.mode, hins.nlink, hins.names, hent.validDir h.dirs⟩
  refine h.of_pair hsize ?_ ⟨h.dir_ne_one hent.valid hdir, hi'⟩ ⟨hch.nlink ▸ h.nlink_lt dir, hg.2.2 ▸ hlt⟩
    (fun _ => hch.dirOk (mem_insert_of_mem hdot) (mem_insert_of_mem hdots))
    (fun hisdir => absurd hisdir hg.2.1) fun d h1 h2 => ⟨hother d h1 h2, rfl⟩
  rw [tree_link hent.valid hdir hsize hother (h.entered_name hent) hi hi' hwas hch hg]
  exact h.tree.link ⟨hent.valid, hdir⟩ (entry_fresh hent) (fun hd => hwas hd.2) hk

omit hent in
theorem Namespace.unlink (hvac : Vacated v path dir name inum f) (hwas : ¬(v.file inum).isDir)
    (hsize : v'.isize = v.isize) (hf : v'.file dir = f)
    (hg : ((v'.file inum).mode ≠ 0 ↔ (v.file inum).mode ≠ 0 ∧ (v.file inum).nlink ≠ 1) ∧
      ¬(v'.file inum).isDir ∧ (v'.file inum).nlink = (v.file inum).nlink - 1)
    (hother : ∀ j, j ≠ dir → j ≠ inum → v'.file j = v.file j) : Namespace v' parent := by
  have hdir := hvac.leads.isDir
  have hrem := hvac.removed
  obtain ⟨hi, hi', -⟩ := h.used_of_mem hvac.valid hdir hvac.mem
  -- The name is not that of a directory for itself or its parent, for it is of a file.
  obtain ⟨hdot, hdots⟩ := h.dots dir hvac.valid hdir
  have hparent : (v.file (parent dir)).isDir := (h.tree.parent_isDir ⟨hvac.valid, hdir⟩).2
  have hname : name ≠ dot ∧ name ≠ dotdot := by
    obtain ⟨hvalid, -⟩ := h.dirs dir hvac.valid hdir
    constructor
    · rintro rfl
      exact hwas (names_functional hvalid hvac.mem hdot ▸ hdir)
    · rintro rfl
      exact hwas (names_functional hvalid hvac.mem hdots ▸ hparent)
  have hch : Became (v.file dir) (v'.file dir) ((v.file dir).names.erase (name, inum)) (v.file dir).nlink :=
    hf ▸ ⟨hrem.mode, hrem.nlink, hrem.names, hvac.validDir h.dirs⟩
  refine h.of_pair hsize ?_ ⟨h.dir_ne_one hvac.valid hdir, hi'⟩ ⟨hch.nlink ▸ h.nlink_lt dir, ?_⟩
    (fun _ => hch.dirOk (mem_erase_of_name hdot hname.1.symm) (mem_erase_of_name hdots hname.2.symm))
    (fun hisdir => absurd hisdir hg.2.1) fun d h1 h2 => ⟨hother d h1 h2, rfl⟩
  · rw [tree_unlink hvac.valid hdir hsize hother hwas hch hg]
    exact h.tree.unlink ⟨hvac.valid, hdir, hvac.mem, hname⟩ (fun hd => hwas hd.2)
  · have hlt := h.nlink_lt inum
    omega

theorem Namespace.addDir (hi : v.Valid inum) (hfree : (v.file inum).mode = 0)
    (hlt : (v.file dir).nlink + 1 < 2 ^ 16) (hsize : v'.isize = v.isize)
    (hch : Became (v.file dir) (v'.file dir) (insert (name, inum) (v.file dir).names) ((v.file dir).nlink + 1))
    (hnew : (v'.file inum).isDir) (hch' : Became (v'.file inum) (v'.file inum) {(dot, inum), (dotdot, dir)} 2)
    (hother : ∀ j, j ≠ dir → j ≠ inum → v'.file j = v.file j) :
    Namespace v' (update parent inum dir) := by
  have hdir := hent.leads.isDir
  have hwas := not_isDir_of_free hfree
  obtain ⟨hdot, hdots⟩ := h.dots dir hent.valid hdir
  have hne : dir ≠ inum := fun heq => hwas (heq ▸ hdir)
  have hone : inum ≠ 1 := by
    rintro rfl
    exact h.reserved hfree
  have hpair : ∀ x ∈ (v'.file inum).names, x.1 = dot ∨ x.1 = dotdot := by
    intro x hx
    rw [hch'.names, mem_insert, mem_singleton] at hx
    rcases hx with rfl | rfl
    · exact .inl rfl
    · exact .inr rfl
  refine h.of_pair hsize ?_ ⟨h.dir_ne_one hent.valid hdir, hone⟩ ⟨hch.nlink ▸ hlt, ?_⟩ (fun _ => ?_) (fun _ => ?_)
    fun d h1 h2 => ⟨hother d h1 h2, update_of_ne h2 _ _⟩
  · rw [tree_addDir hent.valid hdir hsize hother (h.entered_name hent) hi hone hwas hch hnew hch'.nlink hpair]
    exact h.tree.addDir ⟨hent.valid, hdir⟩ (entry_fresh hent) (fun hu => hu.2.2 hfree)
  · rw [hch'.nlink]
    decide
  · rw [update_of_ne hne]
    exact hch.dirOk (mem_insert_of_mem hdot) (mem_insert_of_mem hdots)
  · exact hch'.dirOk (by simp) (by simp)

omit hent

theorem Namespace.removeDir (hd : v.Valid dir) (hdir : (v.file dir).isDir) (hname : name ≠ dot ∧ name ≠ dotdot)
    (hmem : (name, inum) ∈ (v.file dir).names) (hi : (v.file inum).isDir)
    (hempty : ∀ x ∈ (v.file inum).names, x.1 = dot ∨ x.1 = dotdot) (hsize : v'.isize = v.isize)
    (hch : Became (v.file dir) (v'.file dir) ((v.file dir).names.erase (name, inum)) ((v.file dir).nlink - 1))
    (hgone : (v'.file inum).mode = 0) (hzero : (v'.file inum).nlink = 0)
    (hother : ∀ j, j ≠ dir → j ≠ inum → v'.file j = v.file j) : Namespace v' parent := by
  obtain ⟨hval, hone, -⟩ := h.used_of_mem hd hdir hmem
  obtain ⟨hdot, hdots⟩ := h.dots dir hd hdir
  have hne : inum ≠ dir := by
    rintro rfl
    exact (hempty _ hmem).elim hname.1 hname.2
  refine h.of_pair hsize ?_ ⟨h.dir_ne_one hd hdir, hone⟩ ⟨?_, ?_⟩
    (fun _ => hch.dirOk (mem_erase_of_name hdot hname.1.symm) (mem_erase_of_name hdots hname.2.symm))
    (fun hisdir => absurd hisdir (not_isDir_of_free hgone)) fun d h1 h2 => ⟨hother d h1 h2, rfl⟩
  · rw [tree_removeDir hd hdir hsize hother hne hempty hch hgone hzero]
    apply h.tree.removeDir ⟨hd, hdir, hmem, hname⟩ ⟨hval, hi⟩
    intro n j hnj
    exact (hempty _ hnj.2.2.1).elim hnj.2.2.2.1 hnj.2.2.2.2
  · have hlt := h.nlink_lt dir
    rw [hch.nlink]
    omega
  · rw [hzero]
    decide

theorem Namespace.renameDir {newname : Name} (hd : v.Valid dir) (hdir : (v.file dir).isDir)
    (hname : name ≠ dot ∧ name ≠ dotdot) (hnew : ∀ j, (newname, j) ∉ (v.file dir).names)
    (hmem : (name, inum) ∈ (v.file dir).names) (hi : (v.file inum).isDir) (hsize : v'.isize = v.isize)
    (hch : Became (v.file dir) (v'.file dir) ((insert (newname, inum) (v.file dir).names).erase (name, inum))
      (v.file dir).nlink)
    (hother : ∀ j, j ≠ dir → v'.file j = v.file j) : Namespace v' parent := by
  obtain ⟨hval, -⟩ := h.used_of_mem hd hdir hmem
  obtain ⟨hdot, hdots⟩ := h.dots dir hd hdir
  have hn : newname ≠ dot ∧ newname ≠ dotdot := by
    constructor
    · rintro rfl
      exact hnew _ hdot
    · rintro rfl
      exact hnew _ hdots
  have hne : newname ≠ name := by
    rintro rfl
    exact hnew _ hmem
  have hlt : (v'.file dir).nlink < 2 ^ 16 := hch.nlink ▸ h.nlink_lt dir
  have hok : DirOk (v'.file dir) dir (parent dir) :=
    hch.dirOk (mem_erase_of_name (mem_insert_of_mem hdot) hname.1.symm)
      (mem_erase_of_name (mem_insert_of_mem hdots) hname.2.symm)
  have hone' := h.dir_ne_one hd hdir
  refine h.of_pair hsize ?_ ⟨hone', hone'⟩ ⟨hlt, hlt⟩ (fun _ => hok) (fun _ => hok) fun d h1 _ => ⟨hother d h1, rfl⟩
  rw [tree_renameDir hd hdir hsize hn hch hne hother]
  exact h.tree.renameDir ⟨hd, hdir, hmem, hname⟩ ⟨hval, hi⟩ fun j hj => hnew j hj.2.2.1

theorem Namespace.of_same (hsize : v'.isize = v.isize) (hdirs : v'.ValidDirs)
    (hsame : ∀ j, Same (v.file j) (v'.file j)) : Namespace v' parent := by
  have htree : v'.tree parent = v.tree parent :=
    Tree.eq_of_agreeAt (by rfl) (by rfl) fun j => (hsame j).agreeAt hsize parent
  refine ⟨hdirs, ?_, ?_, ?_, ?_⟩
  · rw [htree]
    exact h.tree
  · intro d hd hisdir
    have hwas := (hsame d).isDir.1 hisdir
    rw [(hsame d).names hwas]
    exact h.dots d ((valid_congr hsize d).1 hd) hwas
  · rw [(hsame 1).mode]
    exact h.reserved
  · intro i
    rw [(hsame i).nlink]
    exact h.nlink_lt i

end Operations

end RetroBSD.Fsutil
