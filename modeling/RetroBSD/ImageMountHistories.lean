import RetroBSD.ImageMoves
import RetroBSD.ImageNameRuns

/-!
# Histories of requests to a fresh image

The image that `fs_create` makes has a consistent namespace: the root, the directory for
lost files and with swap the swap file. Each request that meets its condition keeps it.
-/

namespace RetroBSD.Fsutil

open DirectoryTree Runs LittleEndian ByteCopy

variable {v v' : Volume} {parent : ℕ → ℕ} {path newpath : List UInt8} {d i fsize swapsz : ℕ} {raw : Memory}
  {q : Request} {qs : List Request} {sup : Supply} {n : Name}

/-! ## The fresh image -/

def lostfound : Name := [108, 111, 115, 116, 43, 102, 111, 117, 110, 100]

def swapName : Name := [115, 119, 97, 112]

theorem fsCreate_valid (hsize : 16 ≤ fsize) (hpos : 0 < i) (hle : i ≤ 4) : (fsCreate fsize swapsz raw).Valid i := by
  refine ⟨hpos, ?_⟩
  unfold fsCreate inodesPerBlock
  dsimp only
  omega

theorem fsCreate_root :
    (fsCreate fsize swapsz raw).file 2 =
      ⟨modeFdir ||| 0o777, 3, bsize, place (fun _ => 0) 0 (rootBlock swapsz)⟩ := rfl

theorem fsCreate_lostfound :
    (fsCreate fsize swapsz raw).file 3 = ⟨modeFdir ||| 0o777, 2, bsize, place (fun _ => 0) 0 lostfoundBlock⟩ := rfl

theorem fsCreate_swap (hswap : swapsz ≠ 0) :
    (fsCreate fsize swapsz raw).file 4 = ⟨modeFreg ||| 0o400, 1, swapsz * bsize, raw⟩ := if_pos ⟨rfl, hswap⟩

theorem fsCreate_free (h1 : i ≠ 1) (h2 : i ≠ 2) (h3 : i ≠ 3) (h4 : ¬(i = 4 ∧ swapsz ≠ 0)) :
    (fsCreate fsize swapsz raw).file i = ⟨0, 0, 0, fun _ => 0⟩ := by
  unfold fsCreate rootInode lostfoundInode swapInode
  dsimp only
  rw [if_neg h1, if_neg h2, if_neg h3, if_neg h4]

theorem fsCreate_root_names : ((fsCreate fsize swapsz raw).file 2).names =
    {(dot, 2), (dotdot, 2), (lostfound, 3)} ∪ if swapsz ≠ 0 then {(swapName, 4)} else ∅ := by
  rw [fsCreate_root]
  by_cases hswap : swapsz ≠ 0
  · rw [rootBlock, if_pos hswap, if_pos hswap]
    decide +kernel
  · rw [rootBlock, if_neg hswap, if_neg hswap]
    decide +kernel

theorem fsCreate_lostfound_names :
    ((fsCreate fsize swapsz raw).file 3).names = {(dot, 3), (dotdot, 2)} := by
  rw [fsCreate_lostfound]
  decide +kernel

theorem fsCreate_isDir : ((fsCreate fsize swapsz raw).file i).isDir ↔ i = 2 ∨ i = 3 := by
  constructor
  · intro hdir
    by_contra hne
    rw [not_or] at hne
    by_cases h1 : i = 1
    · rw [h1] at hdir
      exact absurd hdir (by decide : ¬fileType modeFreg = modeFdir)
    by_cases h4 : i = 4 ∧ swapsz ≠ 0
    · rw [h4.1, fsCreate_swap h4.2] at hdir
      exact absurd hdir (by decide : ¬fileType (modeFreg ||| 0o400) = modeFdir)
    · rw [fsCreate_free h1 hne.1 hne.2 h4] at hdir
      exact not_isDir_of_free rfl hdir
  · rintro (rfl | rfl)
    · exact (by decide : fileType (modeFdir ||| 0o777) = modeFdir)
    · exact (by decide : fileType (modeFdir ||| 0o777) = modeFdir)

variable (hsize : 16 ≤ fsize)
include hsize

theorem fsCreate_entries :
    (d, n, i) ∈ ((fsCreate fsize swapsz raw).tree parent).entries ↔
      d = 2 ∧ (n = lostfound ∧ i = 3 ∨ swapsz ≠ 0 ∧ n = swapName ∧ i = 4) := by
  constructor
  · rintro ⟨-, hdir, hmem, h1, h2⟩
    rcases fsCreate_isDir.1 hdir with rfl | rfl
    · rw [fsCreate_root_names] at hmem
      by_cases hswap : swapsz ≠ 0
      · simpa [h1, h2, hswap] using hmem
      · simpa [h1, h2, hswap] using hmem
    · rw [fsCreate_lostfound_names] at hmem
      simp [h1, h2] at hmem
  · rintro ⟨rfl, hn⟩
    have hdir : ((fsCreate fsize swapsz raw).file 2).isDir := fsCreate_isDir.2 (.inl rfl)
    have hval : (fsCreate fsize swapsz raw).Valid 2 := fsCreate_valid hsize (by decide) (by decide)
    rw [mem_tree_entries hval hdir, fsCreate_root_names]
    rcases hn with ⟨rfl, rfl⟩ | ⟨hswap, rfl, rfl⟩
    · exact ⟨by simp, by decide, by decide⟩
    · rw [if_pos hswap]
      exact ⟨by simp, by decide, by decide⟩

theorem fsCreate_tree_isDir :
    ((fsCreate fsize swapsz raw).tree parent).isDir i ↔ i = 2 ∨ i = 3 := by
  constructor
  · exact fun h => fsCreate_isDir.1 h.2
  · intro h
    refine ⟨fsCreate_valid hsize ?_ ?_, fsCreate_isDir.2 h⟩
    · omega
    · omega

theorem fsCreate_tree_used :
    ((fsCreate fsize swapsz raw).tree parent).used i ↔ i = 2 ∨ i = 3 ∨ i = 4 ∧ swapsz ≠ 0 := by
  constructor
  · rintro ⟨-, h1, hmode⟩
    by_contra hne
    rw [not_or, not_or] at hne
    rw [fsCreate_free h1 hne.1 hne.2.1 hne.2.2] at hmode
    exact hmode rfl
  · intro h
    refine ⟨fsCreate_valid hsize ?_ ?_, ?_, ?_⟩
    · omega
    · omega
    · omega
    · rcases h with rfl | rfl | ⟨rfl, hswap⟩
      · exact (by decide : modeFdir ||| 0o777 ≠ 0)
      · exact (by decide : modeFdir ||| 0o777 ≠ 0)
      · rw [fsCreate_swap hswap]
        exact (by decide : modeFreg ||| 0o400 ≠ 0)

theorem fsCreate_consistent :
    ((fsCreate fsize swapsz raw).tree fun _ => rootInode).Consistent := by
  set T := (fsCreate fsize swapsz raw).tree fun _ => rootInode with hT
  have hdir : ∀ i, T.isDir i ↔ i = 2 ∨ i = 3 := fun i => hT ▸ fsCreate_tree_isDir hsize
  have hused : ∀ i, T.used i ↔ i = 2 ∨ i = 3 ∨ i = 4 ∧ swapsz ≠ 0 := fun i => hT ▸ fsCreate_tree_used hsize
  have hentry : ∀ d n i, (d, n, i) ∈ T.entries ↔
      d = 2 ∧ (n = lostfound ∧ i = 3 ∨ swapsz ≠ 0 ∧ n = swapName ∧ i = 4) := fun d n i => hT ▸ fsCreate_entries hsize
  have hroot : T.root = 2 := rfl
  have hparent : ∀ i, T.parent i = 2 := fun _ => rfl
  have hname : swapName ≠ lostfound := by decide
  have hsubdirs : T.subdirs 2 = {(lostfound, 3)} := by
    ext ⟨n, i⟩
    simp only [Tree.subdirs, Set.mem_ofPred_eq]
    grind
  have hlinks : swapsz ≠ 0 → T.links 4 = {(2, swapName)} := by
    simp only [Tree.links]
    grind
  refine ⟨?_, ?_, ?_, ?_, ?_, ?_, ?_, ?_, ?_, ?_, ?_, ?_⟩
  · rw [hroot, hdir]
    exact .inl rfl
  · intro d n hmem
    rw [hentry] at hmem
    omega
  · intro i hi
    rw [hdir] at hi
    rw [hused]
    omega
  · intro d n i hmem
    rw [hentry] at hmem
    rw [hdir]
    exact .inl hmem.1
  · intro d n i hmem
    rw [hentry] at hmem
    rw [hused]
    omega
  · grind
  · intro i hi hne
    rw [hdir] at hi
    rw [hroot] at hne
    refine ⟨lostfound, ?_⟩
    rw [hparent, hentry]
    exact ⟨rfl, .inl ⟨rfl, hi.resolve_left hne⟩⟩
  · grind
  · rw [hparent, hroot]
  · refine ⟨fun i => if i = 2 then 0 else 1, ?_⟩
    intro i _ hne
    rw [hroot] at hne
    dsimp only
    rw [hparent, if_neg hne]
    exact Nat.one_pos
  · intro i hi hfile
    rw [hused] at hi
    rw [hdir] at hfile
    have hswap : i = 4 ∧ swapsz ≠ 0 := by omega
    obtain ⟨rfl, hswap⟩ := hswap
    have hone : T.nlink 4 = 1 := by
      change ((fsCreate fsize swapsz raw).file 4).nlink = 1
      rw [fsCreate_swap hswap]
    rw [hlinks hswap, Set.encard_singleton, hone]
    exact ⟨rfl, Nat.one_pos⟩
  · intro d hd
    rw [hdir] at hd
    rcases hd with rfl | rfl
    · rw [hsubdirs, Set.encard_singleton]
      rfl
    · have hnone : T.subdirs 3 = ∅ := by
        simp [Tree.subdirs, hentry]
      rw [hnone, Set.encard_empty]
      rfl

theorem fsCreate_namespace : Namespace (fsCreate fsize swapsz raw) fun _ => rootInode := by
  refine ⟨fsCreate_validDirs fsize swapsz raw, fsCreate_consistent hsize, ?_, ?_, ?_⟩
  · intro d _ hdir
    rcases fsCreate_isDir.1 hdir with rfl | rfl
    · rw [fsCreate_root_names]
      exact ⟨by simp, by simp [rootInode]⟩
    · rw [fsCreate_lostfound_names]
      exact ⟨by simp, by simp [rootInode]⟩
  · exact (by decide : modeFreg ≠ 0)
  · intro i
    unfold fsCreate
    dsimp only
    split_ifs
    all_goals
      dsimp only
      decide

omit hsize

/-! ## What the namespace says of the image -/

/-- Directories form a tree below the root, and the link counts are right. -/
structure Volume.Sound (v : Volume) : Prop where
  /-- Every directory but the root is reached by one path. -/
  dir_path : ∀ i, v.Valid i → 2 < i → (v.file i).isDir →
    ∃! p : List Name, (∀ n ∈ p, n ≠ dot ∧ n ≠ dotdot) ∧ v.walk false rootInode p = .found i
  /-- Every other inode in use has as many entries as links. -/
  file_links : ∀ i, v.Valid i → 2 < i → (v.file i).mode ≠ 0 → ¬(v.file i).isDir →
    {x : ℕ × Name | v.Valid x.1 ∧ (v.file x.1).isDir ∧ (x.2, i) ∈ (v.file x.1).names}.encard = (v.file i).nlink
  dir_links : ∀ d, v.Valid d → (v.file d).isDir →
    {x : Name × ℕ | x ∈ (v.file d).names ∧ x.1 ≠ dot ∧ x.1 ≠ dotdot ∧ (v.file x.2).isDir}.encard + 2 =
      (v.file d).nlink
  /-- The parent is where the entry of the directory is. -/
  parent : ∀ d, v.Valid d → (v.file d).isDir → ∃ e, (dotdot, e) ∈ (v.file d).names ∧ v.Valid e ∧
    (v.file e).isDir ∧ (d = rootInode → e = rootInode) ∧
      (d ≠ rootInode → ∃ n, n ≠ dot ∧ n ≠ dotdot ∧ (n, d) ∈ (v.file e).names)

theorem Namespace.name_of_file (h : Namespace v parent) (hd : v.Valid d) (hdir : (v.file d).isDir)
    (hmem : (n, i) ∈ (v.file d).names) (hfile : ¬(v.file i).isDir) : n ≠ dot ∧ n ≠ dotdot := by
  obtain ⟨hself, hup⟩ := h.dots d hd hdir
  obtain ⟨hvalid, -⟩ := h.dirs d hd hdir
  constructor
  · rintro rfl
    obtain rfl := names_functional hvalid hmem hself
    exact hfile hdir
  · rintro rfl
    obtain rfl := names_functional hvalid hmem hup
    have hparent : (v.tree parent).isDir (parent d) := h.tree.parent_isDir ⟨hd, hdir⟩
    exact hfile hparent.2

theorem reaches_names {p : List Name} (hp : (v.tree parent).Reaches d p i) : ∀ n ∈ p, n ≠ dot ∧ n ≠ dotdot := by
  induction p generalizing d with
  | nil => exact fun _ hn => absurd hn List.not_mem_nil
  | cons m p ih =>
    obtain ⟨j, ⟨-, -, -, hm⟩, hrest⟩ := hp
    intro n hn
    rcases List.mem_cons.1 hn with rfl | hn
    · exact hm
    · exact ih hrest n hn

theorem Namespace.sound (h : Namespace v parent) : v.Sound := by
  refine ⟨?_, ?_, ?_, ?_⟩
  · intro i hi _ hdir
    obtain ⟨p, hp, huniq⟩ := h.tree.existsUnique_path ⟨hi, hdir⟩
    have hnames := reaches_names hp
    refine ⟨p, ⟨hnames, ?_⟩, ?_⟩
    · exact walk_found h.dirs h.valid_root ((h.reaches_iff h.valid_root hnames).1 hp)
    · rintro q ⟨hq, hwalk⟩
      exact huniq q ((h.reaches_iff h.valid_root hq).2 (follows_of_walk h.dirs h.valid_root hwalk))
  · intro i hi hlt hmode hfile
    obtain ⟨hlinks, -⟩ := h.file_nlink hi (by omega) hmode hfile
    rw [← hlinks]
    congr 1
    ext ⟨d, n⟩
    constructor
    · rintro ⟨hd, hdir, hmem⟩
      exact ⟨hd, hdir, hmem, h.name_of_file hd hdir hmem hfile⟩
    · rintro ⟨hd, hdir, hmem, -⟩
      exact ⟨hd, hdir, hmem⟩
  · intro d hd hdir
    have hcount : ((v.tree parent).subdirs d).encard + 2 = (v.file d).nlink := h.tree.dir_nlink d ⟨hd, hdir⟩
    rw [← hcount]
    congr 2
    ext ⟨n, i⟩
    constructor
    · rintro ⟨hmem, h1, h2, hi⟩
      exact ⟨⟨hd, hdir, hmem, h1, h2⟩, (h.used_of_mem hd hdir hmem).1, hi⟩
    · rintro ⟨⟨-, -, hmem, h1, h2⟩, -, hi⟩
      exact ⟨hmem, h1, h2, hi⟩
  · intro d hd hdir
    have hparent : (v.tree parent).isDir (parent d) := h.tree.parent_isDir ⟨hd, hdir⟩
    refine ⟨parent d, (h.dots d hd hdir).2, hparent.1, hparent.2, ?_, ?_⟩
    · rintro rfl
      exact h.tree.parent_root
    · intro hne
      obtain ⟨n, -, -, hmem, h1, h2⟩ := h.tree.parent_mem d ⟨hd, hdir⟩ hne
      exact ⟨n, h1, h2, hmem⟩

/-! ## Histories -/

theorem safeRequestStep_namespace (h : Namespace v parent) (hstep : SafeRequestStep v q v') :
    ∃ parent', Namespace v' parent' := by
  obtain ⟨⟨hfits, rfl⟩, hsafe⟩ := hstep
  cases q with
  | mkdir path mode sup dots => exact h.mkdir hsafe.1 hsafe.2.1 hfits hsafe.2.2.1 hsafe.2.2.2
  | mknod path mode sup => exact ⟨parent, h.mknod hsafe.1 hsafe.2 hfits⟩
  | create path mode sup => exact ⟨parent, h.create hsafe.1 hsafe.2 hfits⟩
  | link path newpath sup =>
    obtain ⟨hpath, hnew, hfull, hfree, hroom⟩ := hsafe
    exact ⟨parent, h.linkRequest hpath hnew hfull hfree hroom⟩
  | unlink path => exact ⟨parent, h.unlinkRequest hsafe.1 hsafe.2⟩
  | rmdir path => exact ⟨parent, (h.rmdir hsafe.1 hsafe.2.1 hsafe.2.2).1⟩
  | rename path newpath sup =>
    obtain ⟨hpath, hnew, hfull, hfree, hroom, hto, hdel⟩ := hsafe
    exact ⟨parent, (h.rename hpath hnew hfull hfree hroom hto hdel).1⟩
  | symlink text newpath sup fresh => exact ⟨parent, h.symlink hsafe.1 hsafe.2 hfits⟩
  | truncate path newsize => exact ⟨parent, h.truncate⟩

theorem run_namespace (hsize : 16 ≤ fsize) (hrun : Run SafeRequestStep (fsCreate fsize swapsz raw) qs v) :
    ∃ parent, Namespace v parent := by
  refine hrun.invariant (I := fun v => ∃ parent, Namespace v parent) ?_ ⟨_, fsCreate_namespace hsize⟩
  rintro w q w' ⟨parent, h⟩ hstep
  exact safeRequestStep_namespace h hstep

end RetroBSD.Fsutil
