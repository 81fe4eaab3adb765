import RetroBSD.ImageMountRuns

/-!
# Directories removed and files renamed

`op_rmdir` and `op_rename` change a link count first and the directories after it. The
count does not matter to the walk, so the names are those of the image before.
-/

namespace RetroBSD.Fsutil

open DirectoryTree LittleEndian List Nat

variable {v v' : Volume} {parent : ℕ → ℕ} {path newpath : List UInt8} {name newname : Name} {d dir inum i j k : ℕ}
  {f g : File} {sup : Supply} {p : List Name}

/-- The images differ in link counts only. -/
structure Alike (v v' : Volume) : Prop where
  isize : v'.isize = v.isize
  file : ∀ d, (v'.file d).mode = (v.file d).mode ∧ (v'.file d).size = (v.file d).size ∧
    (v'.file d).data = (v.file d).data

theorem Alike.names (h : Alike v v') (d : ℕ) : (v'.file d).names = (v.file d).names :=
  names_congr (h.file d).2.1 (h.file d).2.2

theorem Alike.isDir (h : Alike v v') (d : ℕ) : (v'.file d).isDir ↔ (v.file d).isDir := isDir_congr (h.file d).1

theorem Alike.valid (h : Alike v v') (d : ℕ) : v'.Valid d ↔ v.Valid d := valid_congr h.isize d

theorem Alike.validDirs (h : Alike v v') (hv : v.ValidDirs) : v'.ValidDirs := by
  intro d hd hdir
  obtain ⟨hvalid, hpos⟩ := hv d ((h.valid d).1 hd) ((h.isDir d).1 hdir)
  refine ⟨validDir_congr (h.file d).2.1 (h.file d).2.2 hvalid, ?_⟩
  rw [(h.file d).2.1]
  exact hpos

theorem Alike.follows (h : Alike v v') (hf : v.Follows d p i) : v'.Follows d p i := by
  refine hf.mono h.isize ?_
  intro d hd
  rw [h.names]
  exact ⟨(h.isDir d).2 hd, Finset.Subset.refl _⟩

theorem Alike.leadsTo (h : Alike v v') (hl : LeadsTo v' path dir name) : LeadsTo v path dir name := by
  obtain ⟨ds, hcomp, hwalk, hdir⟩ := hl
  rw [walk_congr h.isize h.file] at hwalk
  exact ⟨ds, hcomp, hwalk, (h.isDir dir).1 hdir⟩

theorem Alike.deleteSafe (h : Alike v v') (hs : DeleteSafe v path) : DeleteSafe v' path := by
  intro dir offset last e hwalk
  rw [walk_congr h.isize h.file] at hwalk
  exact hs dir offset last e hwalk

theorem alike_save (hmode : g.mode = (v.file i).mode) (hsize : g.size = (v.file i).size) : Alike v (v.save i g) := by
  refine ⟨rfl, ?_⟩
  intro d
  by_cases hd : d = i
  · subst hd
    rw [Volume.save, set_file_self]
    exact ⟨hmode, hsize, rfl⟩
  · rw [Volume.save, set_file_of_ne _ _ hd]
    exact ⟨rfl, rfl, rfl⟩

theorem alike_linkMore (v : Volume) (i : ℕ) : Alike v (v.save i (v.file i).linkMore) := by
  apply alike_save
  · rw [File.linkMore]
  · rw [File.linkMore]

theorem alike_linkLess (v : Volume) (i : ℕ) : Alike v (v.save i (v.file i).linkLess) := by
  apply alike_save
  · rw [File.linkLess]
  · rw [File.linkLess]

theorem linkLess_eq (hpos : 0 < f.nlink) (hlt : f.nlink < 2 ^ 16) :
    f.linkLess = ⟨f.mode, f.nlink - 1, f.size, f.data⟩ := by
  rw [← linkLess_nlink hpos hlt, File.linkLess]

theorem linkMore_eq (hlt : f.nlink + 1 < 2 ^ 16) : f.linkMore = ⟨f.mode, f.nlink + 1, f.size, f.data⟩ := by
  rw [← linkMore_nlink hlt, File.linkMore]

theorem save_file_self (v : Volume) (i : ℕ) (g : File) :
    (v.save i g).file i = ⟨g.mode, g.nlink, g.size, (v.file i).data⟩ := set_file_self _ _ _

theorem save_file_of_ne (v : Volume) (g : File) (h : j ≠ i) : (v.save i g).file j = v.file j := set_file_of_ne _ _ h

theorem valid_save (v : Volume) (i : ℕ) (g : File) (d : ℕ) : (v.save i g).Valid d ↔ v.Valid d := Iff.rfl

def linked (v : Volume) (i dir : ℕ) (f : File) : Volume := (v.save i (v.file i).linkMore).set dir f

/-- `op_rename` enters `newname` in the directory `dir'`, which becomes `f'`, then takes
`name` out of `dir`, which becomes `f`. -/
structure Moving (v : Volume) (path newpath : List UInt8) (i dir dir' : ℕ) (name newname : Name) (f f' : File) :
    Prop where
  entered : Entered (v.save i (v.file i).linkMore) newpath dir' newname i f'
  vacated : Vacated (linked v i dir' f') path dir name i f
  ne : dir' ≠ i
  apart : i ≠ dir

def moved (v : Volume) (i dir dir' : ℕ) (f f' : File) : Volume :=
  ((linked v i dir' f').set dir f).save i ((linked v i dir' f').file i).unlinked

theorem linked_file_self (v : Volume) (i dir : ℕ) (f : File) : (linked v i dir f).file dir = f := set_file_self _ _ _

theorem linked_file_of_ne (f : File) (h : j ≠ dir) (hi : j ≠ i) : (linked v i dir f).file j = v.file j := by
  rw [linked, set_file_of_ne _ _ h, save_file_of_ne _ _ hi]

theorem linked_file_source (f : File) (h : i ≠ dir) (hroom : (v.file i).nlink + 1 < 2 ^ 16) :
    (linked v i dir f).file i = ⟨(v.file i).mode, (v.file i).nlink + 1, (v.file i).size, (v.file i).data⟩ := by
  rw [linked, set_file_of_ne _ _ h, save_file_self, linkMore_eq hroom]

namespace Moving

variable {dir' : ℕ} {f' : File} (m : Moving v path newpath i dir dir' name newname f f')

include m

theorem enteredFirst : Entered v newpath dir' newname i f' := by
  have halike := alike_linkMore v i
  obtain ⟨hleads, hval, habsent, hins⟩ := m.entered
  rw [save_file_of_ne _ _ m.ne] at habsent hins
  exact ⟨halike.leadsTo hleads, hval, habsent, hins⟩

theorem file_source (hpos : 0 < (v.file i).nlink) (hroom : (v.file i).nlink + 1 < 2 ^ 16) :
    (moved v i dir dir' f f').file i = v.file i := by
  have hfile := linked_file_source f' m.ne.symm hroom
  obtain ⟨-, -, hmore, -⟩ :=
    unlinked_file (f := ⟨(v.file i).mode, (v.file i).nlink + 1, (v.file i).size, (v.file i).data⟩)
      (succ_pos _) hroom
  have hunlinked := hmore (succ_ne_succ_iff.2 hpos.ne')
  rw [moved, save_file_self, set_file_of_ne _ _ m.apart, hfile, hunlinked]
  rfl

theorem file_dir : (moved v i dir dir' f f').file dir = f := by
  rw [moved, save_file_of_ne _ _ m.apart.symm, set_file_self]

theorem file_newdir (h : dir' ≠ dir) : (moved v i dir dir' f f').file dir' = f' := by
  rw [moved, save_file_of_ne _ _ m.ne, set_file_of_ne _ _ h, linked_file_self]

omit m in
theorem file_of_ne (h1 : j ≠ dir) (h2 : j ≠ dir') (h3 : j ≠ i) : (moved v i dir dir' f f').file j = v.file j := by
  rw [moved, save_file_of_ne _ _ h3, set_file_of_ne _ _ h1, linked_file_of_ne _ h2 h3]

theorem names_kept (hself : (v.file i).isDir → (moved v i dir dir' f f').file i = v.file i)
    (hdir : (v.file d).isDir) : ((moved v i dir dir' f f').file d).isDir ∧
      ∀ x ∈ (v.file d).names, x.2 ≠ i → x ∈ ((moved v i dir dir' f f').file d).names := by
  have hins := m.enteredFirst.inserted
  have hrem := m.vacated.removed
  by_cases hi : d = i
  · subst hi
    rw [hself hdir]
    exact ⟨hdir, fun x hx _ => hx⟩
  -- The directory of the new name has at least its old names.
  have hlinked : ((linked v i dir' f').file d).isDir ∧ (v.file d).names ⊆ ((linked v i dir' f').file d).names := by
    by_cases hd' : d = dir'
    · subst hd'
      rw [linked_file_self, isDir_congr hins.mode, hins.names]
      exact ⟨hdir, Finset.subset_insert _ _⟩
    · rw [linked_file_of_ne _ hd' hi]
      exact ⟨hdir, Finset.Subset.refl _⟩
  by_cases hd : d = dir
  · subst hd
    rw [m.file_dir, isDir_congr hrem.mode, hrem.names]
    refine ⟨hlinked.1, ?_⟩
    intro x hx hne
    rw [Finset.mem_erase]
    exact ⟨fun heq => hne (congrArg Prod.snd heq), hlinked.2 hx⟩
  · rw [moved, save_file_of_ne _ _ hi, set_file_of_ne _ _ hd]
    exact ⟨hlinked.1, fun x hx _ => hlinked.2 hx⟩

theorem mem_newname (hmem : (name, i) ∈ (v.file dir).names) :
    (newname, i) ∈ ((moved v i dir dir' f f').file dir').names := by
  have hent := m.enteredFirst
  by_cases hd : dir' = dir
  · subst hd
    have hne : newname ≠ name := by
      rintro rfl
      exact hent.absent i hmem
    rw [m.file_dir, m.vacated.removed.names, linked_file_self, hent.inserted.names]
    exact mem_erase_of_name (Finset.mem_insert_self _ _) hne
  · rw [m.file_newdir hd, hent.inserted.names]
    exact Finset.mem_insert_self _ _

end Moving

section Requests

variable (h : Namespace v parent)

include h

/-- The paths of the tree are those that the walk takes. -/
theorem Namespace.reaches_iff (hd : v.Valid d) (hp : ∀ n ∈ p, n ≠ dot ∧ n ≠ dotdot) :
    (v.tree parent).Reaches d p i ↔ v.Follows d p i := by
  induction p generalizing d with
  | nil => rfl
  | cons n p ih =>
    have hn := hp n mem_cons_self
    have hrest : ∀ m ∈ p, m ≠ dot ∧ m ≠ dotdot := fun m hm => hp m (mem_cons_of_mem n hm)
    constructor
    · rintro ⟨j, ⟨-, hdir, hmem, -⟩, hj⟩
      have hval := (h.used_of_mem hd hdir hmem).1
      exact ⟨hdir, j, hmem, hval, (ih hval hrest).1 hj⟩
    · rintro ⟨hdir, j, hmem, hval, hj⟩
      exact ⟨j, ⟨hd, hdir, hmem, hn⟩, (ih hval hrest).2 hj⟩

/-! ## Directories removed -/

theorem Namespace.empty_of_nlink (hi : v.Valid i) (hdir : (v.file i).isDir) (hle : (v.file i).nlink ≤ 2)
    (hfiles : ∀ x ∈ (v.file i).names, (v.file x.2).isDir) :
    (v.file i).nlink = 2 ∧ ∀ x ∈ (v.file i).names, x.1 = dot ∨ x.1 = dotdot := by
  have hcount : ((v.tree parent).subdirs i).encard + 2 = (v.file i).nlink := h.tree.dir_nlink i ⟨hi, hdir⟩
  obtain ⟨c, hc⟩ : ∃ c : ℕ, ((v.tree parent).subdirs i).encard = c := by
    apply ENat.ne_top_iff_exists.1 _ |>.imp fun c hc => hc.symm
    intro htop
    rw [htop] at hcount
    exact absurd hcount (by simp)
  rw [hc] at hcount
  have hnat : c + 2 = (v.file i).nlink := by exact_mod_cast hcount
  have hzero : c = 0 := by omega
  refine ⟨by omega, ?_⟩
  rw [hzero, cast_zero, Set.encard_eq_zero] at hc
  intro x hx
  by_contra hne
  rw [not_or] at hne
  have hval := (h.used_of_mem hi hdir hx).1
  have hsub : x ∈ (v.tree parent).subdirs i := ⟨⟨hi, hdir, hx, hne⟩, hval, hfiles x hx⟩
  rw [hc] at hsub
  exact hsub

theorem Namespace.dir_nlink_pos (hi : v.Valid i) (hdir : (v.file i).isDir) : 0 < (v.file i).nlink := by
  have hcount : ((v.tree parent).subdirs i).encard + 2 = (v.file i).nlink := h.tree.dir_nlink i ⟨hi, hdir⟩
  have hle : (2 : ℕ∞) ≤ (v.file i).nlink := by
    rw [← hcount]
    exact le_add_self
  have hle' : 2 ≤ (v.file i).nlink := by exact_mod_cast hle
  omega

theorem Namespace.not_reaches_of_dir (hd : v.Valid dir) (hdir : (v.file dir).isDir)
    (hname : name ≠ dot ∧ name ≠ dotdot) (hmem : (name, i) ∈ (v.file dir).names)
    (hi : (v.file i).isDir) (q : List Name) : ¬(v.tree parent).Reaches i q dir := by
  have hval := (h.used_of_mem hd hdir hmem).1
  have hent : (dir, name, i) ∈ (v.tree parent).entries := ⟨hd, hdir, hmem, hname⟩
  have hroot : i ≠ (v.tree parent).root := by
    rintro rfl
    exact h.tree.root_not_mem _ _ hent
  have hparent := h.tree.parent_eq ⟨hval, hi⟩ hent
  have hnot := h.tree.not_reaches_parent ⟨hval, hi⟩ hroot q
  rw [hparent] at hnot
  exact hnot

/-- A directory has no entry for itself but its dot. -/
theorem Namespace.ne_of_mem (hd : v.Valid dir) (hdir : (v.file dir).isDir) (hname : name ≠ dot ∧ name ≠ dotdot)
    (hmem : (name, i) ∈ (v.file dir).names) : i ≠ dir := by
  rintro rfl
  exact h.not_reaches_of_dir hd hdir hname hmem hdir [] rfl

theorem Namespace.removed (hent : (name, i) ∈ (v.file dir).names) (hname : name ≠ dot ∧ name ≠ dotdot)
    (hdir : (v.file i).isDir) (hempty : ∀ x ∈ (v.file i).names, x.1 = dot ∨ x.1 = dotdot)
    (htwo : (v.file i).nlink = 2) (hne : i ≠ dir)
    (hvac : Vacated (v.save i (v.file i).linkLess) path dir name i f) :
    Namespace (((v.save i (v.file i).linkLess).set dir f |>.save i
      ((v.save i (v.file i).linkLess).file i).unlinked).save dir f.linkLess) parent := by
  have hdirs := (alike_linkLess v i).validDirs h.dirs
  have hvalid := hvac.validDir hdirs
  obtain ⟨hleads, hval, -, -, hrem⟩ := hvac
  have hisdir : (v.file dir).isDir := ((alike_linkLess v i).leadsTo hleads).isDir
  rw [save_file_of_ne _ _ hne.symm] at hrem
  obtain ⟨inode, hinode⟩ : ∃ inode, inode = ((v.save i (v.file i).linkLess).file i).unlinked := ⟨_, rfl⟩
  have hgone : inode.mode = 0 ∧ inode.nlink = 0 := by
    have hfile : (v.save i (v.file i).linkLess).file i = ⟨(v.file i).mode, 1, (v.file i).size, (v.file i).data⟩ := by
      rw [save_file_self, linkLess_eq (by omega) (h.nlink_lt i), htwo]
    obtain ⟨-, hn, -, hm⟩ := unlinked_file (f := ⟨(v.file i).mode, 1, (v.file i).size, (v.file i).data⟩)
      Nat.one_pos (Nat.one_lt_two_pow (by decide))
    rw [hinode, hfile]
    exact ⟨hm rfl, hn⟩
  have hpos := h.dir_nlink_pos hval hisdir
  have hless : f.linkLess = ⟨f.mode, (v.file dir).nlink - 1, f.size, f.data⟩ := by
    rw [linkLess_eq, hrem.nlink]
    · rw [hrem.nlink]
      exact hpos
    · rw [hrem.nlink]
      exact h.nlink_lt dir
  rw [← hinode, hless]
  refine h.removeDir hval hisdir hname hent hdir hempty rfl ?_ ?_ ?_ ?_
  · rw [save_file_self, save_file_of_ne _ _ hne.symm, set_file_self]
    exact ⟨hrem.mode, rfl, Eq.trans (names_congr (f := f) rfl rfl) hrem.names,
      validDir_congr (f := f) rfl rfl hvalid.1, hvalid.2⟩
  · rw [save_file_of_ne _ _ hne, save_file_self]
    exact hgone.1
  · rw [save_file_of_ne _ _ hne, save_file_self]
    exact hgone.2
  · intro j h1 h2
    rw [save_file_of_ne _ _ h1, save_file_of_ne _ _ h2, set_file_of_ne _ _ h1, save_file_of_ne _ _ h2]

theorem Namespace.rmdir (hpath : PathOk path) (hsafe : DeleteSafe v path)
    (hfiles : ∀ d, v.Follows rootInode (components path) d → ∀ x ∈ (v.file d).names, (v.file x.2).isDir) :
    Namespace (v.opRmdir path).2 parent ∧ ((v.opRmdir path).1 = none →
      ∃ d, v.Follows rootInode (components path) d ∧ (v.file d).isDir ∧
        ∀ x ∈ (v.file d).names, x.1 = dot ∨ x.1 = dotdot) := by
  have hne : path ≠ [] := by
    rintro rfl
    exact hpath.nonempty rfl
  obtain ⟨name, hcomp⟩ := components_parentPath hne hpath.last
  rw [Volume.opRmdir]
  rcases lookup_cases h.dirs h.valid_root path with ⟨i, hi, hres⟩ | ⟨-, hcode⟩
  · rw [hres, if_neg one_ne_zero]
    by_cases hdir : (v.file i).isDir
    · rw [if_neg (not_not.2 hdir)]
      by_cases hmany : 2 < (v.file i).nlink
      · rw [if_pos hmany]
        exact ⟨h, fun hnone => by cases hnone⟩
      · have hi' := hi
        rw [hcomp, follows_append] at hi'
        obtain ⟨dir, hp, hisdir, hmem, hval⟩ := hi'
        obtain ⟨htwo, hempty⟩ := h.empty_of_nlink hval hdir (not_lt.1 hmany) (hfiles i hi)
        have halike := alike_linkLess v i
        have hmem' : (name, i) ∈ ((v.save i (v.file i).linkLess).file dir).names := by
          rw [halike.names]
          exact hmem
        obtain ⟨f, hvac, hdel⟩ := delete_result (halike.validDirs h.dirs) h.valid_root (halike.deleteSafe hsafe)
          hcomp (halike.follows hp) ((halike.isDir dir).2 hisdir) hmem' hval
        have hname : name ≠ dot ∧ name ≠ dotdot := by
          have hn := hpath.names name (by rw [hcomp]; exact mem_concat_self)
          exact ⟨hn.1, hn.2.1⟩
        have happ := h.ne_of_mem (follows_valid h.valid_root hp) hisdir hname hmem
        have hremoved := h.removed hmem hname hdir hempty htwo happ hvac
        rw [if_neg hmany, lookup_found h.dirs h.valid_root hp, if_neg one_ne_zero, hdel]
        dsimp only
        split_ifs with hgood
        · rw [save_file_of_ne _ _ happ.symm, set_file_self]
          exact ⟨hremoved, fun _ => ⟨i, hi, hdir, hempty⟩⟩
        · rw [valid_save] at hgood
          exact absurd hvac.valid hgood
    · rw [if_pos hdir]
      exact ⟨h, fun hnone => by cases hnone⟩
  · rw [if_pos hcode]
    exact ⟨h, fun hnone => by cases hnone⟩

/-! ## Files and directories renamed -/

theorem Namespace.follows_kept (h' : Namespace v' parent) (hsize : v'.isize = v.isize)
    (hp : v.Follows rootInode p dir) (hnames : ∀ n ∈ p, n ≠ dot ∧ n ≠ dotdot)
    (hnot : ∀ q, ¬(v.tree parent).Reaches i q dir)
    (hkept : ∀ d, (v.file d).isDir →
      (v'.file d).isDir ∧ ∀ x ∈ (v.file d).names, x.2 ≠ i → x ∈ (v'.file d).names) :
    v'.Follows rootInode p dir := by
  rw [← h.reaches_iff h.valid_root hnames] at hp
  rw [← h'.reaches_iff h'.valid_root hnames]
  refine reaches_of_entries ?_ hp
  rintro d n j q ⟨hd, hdir, hmem, hn⟩ hq
  obtain ⟨hdir', hmem'⟩ := hkept d hdir
  have hj : j ≠ i := by
    rintro rfl
    exact hnot q hq
  exact ⟨(valid_congr hsize d).2 hd, hdir', hmem' _ hmem hj, hn⟩

theorem Namespace.not_reaches_of_file (hfile : ¬(v.file i).isDir) (hd : v.Valid dir) (hdir : (v.file dir).isDir)
    (q : List Name) : ¬(v.tree parent).Reaches i q dir := by
  intro hq
  have hi : (v.tree parent).isDir i := isDir_of_reaches h.tree ⟨hd, hdir⟩ hq
  exact hfile hi.2

section Moving

variable {dir' : ℕ} {f' : File} (m : Moving v path newpath i dir dir' name newname f f')
  (hmem : (name, i) ∈ (v.file dir).names) (hd : v.Valid dir) (hdir : (v.file dir).isDir)
  (hroom : (v.file i).nlink + 1 < 2 ^ 16)

include m hmem hd hdir hroom

theorem Namespace.movedFile (hfile : ¬(v.file i).isDir) : Namespace (moved v i dir dir' f f') parent := by
  obtain ⟨hi, hi', hmode⟩ := h.used_of_mem hd hdir hmem
  have hself := linked_file_source f' m.ne.symm hroom
  have hlinked : Namespace (linked v i dir' f') parent := by
    refine h.entered m.enteredFirst hi hi' hmode hfile hroom rfl (linked_file_self _ _ _ _) ?_ ?_
    · rw [hself]
      exact ⟨rfl, rfl⟩
    · intro j h1 h2
      exact linked_file_of_ne _ h1 h2
  have hfile' : ¬((linked v i dir' f').file i).isDir := by
    rw [hself]
    exact hfile
  exact hlinked.vacated m.vacated hfile'

theorem Namespace.movedDir (hname : name ≠ dot ∧ name ≠ dotdot) (hi : (v.file i).isDir)
    (hself : (moved v i dir dir' f f').file i = v.file i) (hsame : dir' = dir) :
    Namespace (moved v i dir dir' f f') parent := by
  subst hsame
  have hent := m.enteredFirst
  have hrem := m.vacated.removed
  rw [linked_file_self] at hrem
  have hpos : 0 < f.size := by
    rw [hrem.size]
    exact (hent.validDir h.dirs).2
  refine h.renameDir hd hdir hname hent.absent hmem hi rfl ?_ ?_
  · rw [m.file_dir]
    exact ⟨hrem.mode.trans hent.inserted.mode, hrem.nlink.trans hent.inserted.nlink,
      hrem.names.trans (by rw [hent.inserted.names]), hrem.valid, hpos⟩
  · intro j hj
    by_cases hji : j = i
    · subst hji
      exact hself
    · exact Moving.file_of_ne hj hj hji

end Moving

theorem Namespace.moving {dir' : ℕ} {p' : List Name} (hnew : PathOk newpath) (hfull : sup.dirBlock.isSome)
    (hcomp : components path = p ++ [name]) (hp : v.Follows rootInode p dir) (hdir : (v.file dir).isDir)
    (hmem : (name, i) ∈ (v.file dir).names) (hcomp' : components newpath = p' ++ [newname])
    (hp' : v.Follows rootInode p' dir') (hdir' : (v.file dir').isDir)
    (habsent : ∀ j, (newname, j) ∉ (v.file dir').names) (hne : dir' ≠ i) (happ : i ≠ dir)
    (hsafe : DeleteSafe ((v.save i (v.file i).linkMore).byName sup (.link i) newpath).vol path) :
    ∃ f f', Moving v path newpath i dir dir' name newname f f' ∧
      v.opRename path newpath sup = (none, moved v i dir dir' f f') := by
  have halike := alike_linkMore v i
  have hdirs := halike.validDirs h.dirs
  have hroot : (v.save i (v.file i).linkMore).Valid rootInode := (valid_save _ _ _ _).2 h.valid_root
  have hd := follows_valid h.valid_root hp
  obtain ⟨hlt, hne0⟩ := h.number_lt hd hdir hmem
  have hval := (h.used_of_mem hd hdir hmem).1
  obtain ⟨f', hent, hlink⟩ := link_result hdirs hroot hfull hnew.direntSize hlt hne0 hcomp' (halike.follows hp')
    ((halike.isDir dir').2 hdir') (by
      intro j
      rw [halike.names]
      exact habsent j)
  have hins := hent.inserted
  rw [hlink] at hsafe
  -- The old name is still there.
  have hkeep : ∀ d, (v.file d).isDir →
      ((linked v i dir' f').file d).isDir ∧ (v.file d).names ⊆ ((linked v i dir' f').file d).names := by
    intro d hdd
    by_cases h' : d = dir'
    · subst h'
      rw [linked_file_self, isDir_congr hins.mode, halike.isDir, hins.names, halike.names]
      exact ⟨hdd, Finset.subset_insert _ _⟩
    · rw [linked, set_file_of_ne _ _ h', halike.isDir, halike.names]
      exact ⟨hdd, Finset.Subset.refl _⟩
  have hdirs' : (linked v i dir' f').ValidDirs := hdirs.set fun _ => hent.validDir hdirs
  obtain ⟨f, hvac, hdel⟩ := delete_result hdirs' hroot hsafe hcomp (hp.mono rfl hkeep) (hkeep dir hdir).1
    ((hkeep dir hdir).2 hmem) hval
  refine ⟨f, f', ⟨hent, hvac, hne, happ⟩, ?_⟩
  have hsource : v.Follows rootInode (components path) i := by
    rw [hcomp]
    exact follows_append.2 ⟨dir, hp, hdir, hmem, hval⟩
  rw [Volume.opRename, lookup_found h.dirs h.valid_root hsource, if_neg one_ne_zero, hlink, if_neg two_ne_zero]
  exact hdel

theorem Namespace.rename (hpath : PathOk path) (hnew : PathOk newpath) (hfull : sup.dirBlock.isSome)
    (hfree : (v.lookup newpath).code = 0) (hroom : RoomForLink v (components path))
    (hto : ∃ dir, v.Follows rootInode (components newpath).dropLast dir ∧ (v.file dir).isDir ∧
      ∀ i, v.Follows rootInode (components path) i → (v.file i).isDir →
        v.Follows rootInode (components path).dropLast dir)
    (hsafe : ∀ i, v.Follows rootInode (components path) i →
      DeleteSafe ((v.save i (v.file i).linkMore).byName sup (.link i) newpath).vol path) :
    Namespace (v.opRename path newpath sup).2 parent ∧ ((v.opRename path newpath sup).1 = none →
      ∃ i, v.Follows rootInode (components path) i ∧
        (v.opRename path newpath sup).2.Follows rootInode (components newpath) i) := by
  rcases lookup_cases h.dirs h.valid_root path with ⟨i, hi, -⟩ | ⟨-, hcode⟩
  · obtain ⟨p, name, dir, hcomp, hp, hd, hdir, hmem, hval⟩ := h.entry_of_follows hpath.nonempty hi
    obtain ⟨dir', hp', hdir', hsame⟩ := hto
    rcases eq_nil_or_concat (components newpath) with hnil | ⟨p', newname, hcomp'⟩
    · exact absurd hnil hnew.nonempty
    rw [concat_eq_append] at hcomp'
    rw [hcomp', dropLast_concat] at hp'
    have hd' := follows_valid h.valid_root hp'
    have habsent : ∀ j, (newname, j) ∉ (v.file dir').names := by
      intro j hj
      have hval' := (h.used_of_mem hd' hdir' hj).1
      have hfollows : v.Follows rootInode (components newpath) j := by
        rw [hcomp']
        exact follows_append.2 ⟨dir', hp', hdir', hj, hval'⟩
      rw [lookup_found h.dirs h.valid_root hfollows] at hfree
      cases hfree
    have hname : name ≠ dot ∧ name ≠ dotdot := by
      have hn := hpath.names name (by rw [hcomp]; exact mem_concat_self)
      exact ⟨hn.1, hn.2.1⟩
    have hdots : ∀ n ∈ p', n ≠ dot ∧ n ≠ dotdot := by
      intro n hn
      have hn' := hnew.names n (by rw [hcomp']; exact mem_append_left _ hn)
      exact ⟨hn'.1, hn'.2.1⟩
    have hsamedir : (v.file i).isDir → dir' = dir := by
      intro hidir
      have hdrop := hsame i hi hidir
      rw [hcomp, dropLast_concat] at hdrop
      exact follows_unique h.dirs h.valid_root hdrop hp
    -- The new name's directory is not below the source.
    have hnot : ∀ q, ¬(v.tree parent).Reaches i q dir' := by
      by_cases hidir : (v.file i).isDir
      · rw [hsamedir hidir]
        exact h.not_reaches_of_dir hd hdir hname hmem hidir
      · exact h.not_reaches_of_file hidir hd' hdir'
    have hne : dir' ≠ i := fun heq => hnot [] heq.symm
    obtain ⟨f, f', m, hrun⟩ :=
      h.moving hnew hfull hcomp hp hdir hmem hcomp' hp' hdir' habsent hne (h.ne_of_mem hd hdir hname hmem)
        (hsafe i hi)
    have hself : (v.file i).isDir → (moved v i dir dir' f f').file i = v.file i := fun hidir =>
      m.file_source (h.dir_nlink_pos hval hidir) (hroom i hi)
    have hspace : Namespace (moved v i dir dir' f f') parent := by
      by_cases hidir : (v.file i).isDir
      · exact h.movedDir m hmem hd hdir (hroom i hi) hname hidir (hself hidir) (hsamedir hidir)
      · exact h.movedFile m hmem hd hdir (hroom i hi) hidir
    rw [hrun]
    refine ⟨hspace, fun _ => ⟨i, hi, ?_⟩⟩
    have hkept := h.follows_kept hspace rfl hp' hdots hnot fun _ hdd => m.names_kept hself hdd
    rw [hcomp']
    exact follows_append.2 ⟨dir', hkept, (m.names_kept hself hdir').1, m.mem_newname hmem, hval⟩
  · rw [Volume.opRename, if_pos hcode]
    exact ⟨h, fun hnone => by cases hnone⟩

end Requests

end RetroBSD.Fsutil
