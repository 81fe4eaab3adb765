import RetroBSD.ImageNamespace
import RetroBSD.ImageTruncate
import RetroBSD.Runs

/-!
# Histories of requests to a mounted image

Requests from a fresh image. The namespace stays consistent as long as every request has
what it needs and asks for nothing that the tool leaves half done: names deleted do not
begin a block of their directory, `link` and `rename` get a name that is free, directories
are renamed within their directory, `rmdir` is not asked of a directory with files, and a file
is not cut inside a tree of indirect blocks. After such a cut the file would share blocks with
files made later, which `Volume` does not show; with `CutOk` it is exact by `CutOk.exact`.
-/

namespace RetroBSD.Fsutil

open DirectoryTree Runs LittleEndian Nat Volume

/-- A path as the kernel hands it out, short enough for the buffers of `op_mkdir` and
`op_rmdir`. -/
structure PathOk (path : List UInt8) : Prop where
  last : path.getLast? ≠ some 47
  nonempty : components path ≠ []
  names : ∀ n ∈ components path, n ≠ dot ∧ n ≠ dotdot ∧ n.length ≤ 255
  length : path.length + 4 ≤ 1024

def RoomForLink (v : Volume) (p : List Name) : Prop :=
  ∀ i, v.Follows rootInode p i → (v.file i).nlink + 1 < 2 ^ 16

def Request.Safe (v : Volume) : Request → Prop
  | .mkdir path _ sup dots => PathOk path ∧ sup.Full ∧ dots.dirBlock.isSome ∧
      RoomForLink v (components path).dropLast
  | .mknod path _ sup => PathOk path ∧ sup.Full
  | .create path _ sup => PathOk path ∧ sup.Full
  | .link path newpath sup => PathOk path ∧ PathOk newpath ∧ sup.dirBlock.isSome ∧
      (v.lookup newpath).code = 0 ∧ RoomForLink v (components path)
  | .unlink path => PathOk path ∧ DeleteSafe v path
  | .rmdir path => PathOk path ∧ DeleteSafe v path ∧
      ∀ d, v.Follows rootInode (components path) d → ∀ x ∈ (v.file d).names, (v.file x.2).isDir
  | .rename path newpath sup => PathOk path ∧ PathOk newpath ∧ sup.dirBlock.isSome ∧
      (v.lookup newpath).code = 0 ∧ RoomForLink v (components path) ∧
      (∃ dir, v.Follows rootInode (components newpath).dropLast dir ∧ (v.file dir).isDir ∧
        ∀ i, v.Follows rootInode (components path) i → (v.file i).isDir →
          v.Follows rootInode (components path).dropLast dir) ∧
      ∀ i, v.Follows rootInode (components path) i →
        DeleteSafe ((v.save i (v.file i).linkMore).byName sup (.link i) newpath).vol path
  | .symlink _ newpath sup _ => PathOk newpath ∧ sup.Full
  | .truncate path newsize => PathOk path ∧ ∀ i, v.Follows rootInode (components path) i →
      fileType (v.file i).mode = modeFreg → CutOk (v.file i).size newsize

def Request.Fits (v : Volume) : Request → Prop
  | .mkdir _ _ sup _ => sup.Fits v
  | .mknod _ _ sup => sup.Fits v
  | .create _ _ sup => sup.Fits v
  | .symlink _ _ sup _ => sup.Fits v
  | _ => True

def RequestStep (v : Volume) (q : Request) (v' : Volume) : Prop := q.Fits v ∧ v' = (q.run v).2

def SafeRequestStep (v : Volume) (q : Request) (v' : Volume) : Prop := RequestStep v q v' ∧ q.Safe v

variable {v v' : Volume} {parent : ℕ → ℕ} {path newpath : List UInt8} {name : Name}
  {d dir inum mode i j k : ℕ} {f g : File} {sup : Supply}

/-! ## Modes -/

theorem fileType_or (a t : ℕ) : fileType (a &&& 0o7777 ||| t) = fileType t := by
  rw [fileType, fileType, Nat.and_or_distrib_right, Nat.and_assoc]
  have h : (0o7777 : ℕ) &&& modeFmt = 0 := by decide
  rw [h, and_zero, zero_or]

theorem fileType_createMode (mode : ℕ) :
    fileType (createMode mode) = if fileType mode = 0 then modeFreg else fileType mode := by
  have hcut : fileType (mode &&& (0o7777 ||| modeFmt)) = fileType mode := by
    rw [fileType, Nat.and_assoc]
    congr 1
  rw [createMode, hcut]
  split_ifs with h
  · rw [fileType] at hcut ⊢
    rw [and_or_distrib_right, hcut, h]
    decide
  · exact hcut

theorem createMode_ne_zero (mode : ℕ) : createMode mode ≠ 0 := by
  intro hzero
  have h := fileType_createMode mode
  rw [hzero] at h
  split_ifs at h with hmode
  · exact absurd h (by decide)
  · exact hmode (h.symm.trans (by decide))

/-! ## New files -/

theorem newFile_file (hmode : fileType (createMode mode) ≠ modeFdir) (v : Volume) (sup : Supply)
    (inum : ℕ) :
    v.newFile sup inum mode = some ⟨createMode mode, 1, 0, (v.file inum).data⟩ := if_neg hmode

theorem PathOk.direntSize (h : PathOk path) :
    ∀ n ∈ components path, direntSize n.length ≤ bsize := by
  intro n hn
  have hlen := (h.names n hn).2.2
  unfold Fsutil.direntSize bsize
  omega

theorem names_lt (hvalid : f.ValidDir) {n : Name} (hi : (n, i) ∈ f.names) : i < 2 ^ 32 := by
  rw [File.names, List.mem_toFinset, mem_live] at hi
  obtain ⟨r, hr, -, heq⟩ := hi
  obtain ⟨offset, -, -, hat, -⟩ := hvalid.holds.tiles.exists_place hr
  have hinum : r.inum = i := congrArg Prod.snd heq
  rw [← hinum]
  exact hat.inum_lt

theorem truncated_mode (f : File) (size : ℕ) : (f.truncated size).mode = f.mode := by
  rw [File.truncated]
  split_ifs
  · rfl
  · rfl

theorem truncated_nlink (f : File) (size : ℕ) : (f.truncated size).nlink = f.nlink := by
  rw [File.truncated]
  split_ifs
  · rfl
  · rfl

theorem write_keeps {fresh : Option Memory} {offset : ℕ} {bs : List UInt8}
    (h : f.write fresh offset bs = some g) : g.mode = f.mode ∧ g.nlink = f.nlink := by
  by_cases hbs : bs = []
  · rw [File.write, if_pos hbs] at h
    obtain rfl := Option.some.inj h
    exact ⟨rfl, rfl⟩
  · have w := write_spec hbs h
    exact ⟨w.mode, w.nlink⟩

theorem unlinked_file (hpos : 0 < f.nlink) (hlt : f.nlink < 2 ^ 16) :
    (f.unlinked.mode ≠ 0 ↔ f.mode ≠ 0 ∧ f.nlink ≠ 1) ∧ f.unlinked.nlink = f.nlink - 1 ∧
      (f.nlink ≠ 1 → f.unlinked = { f with nlink := f.nlink - 1 }) ∧
        (f.nlink = 1 → f.unlinked.mode = 0) := by
  have hn : (f.nlink + (2 ^ 16 - 1)) % 2 ^ 16 = f.nlink - 1 := by omega
  rw [File.unlinked, hn]
  by_cases hone : f.nlink = 1
  · rw [if_pos (by omega)]
    refine ⟨?_, ?_, absurd hone, fun _ => rfl⟩
    · simp [hone]
    · dsimp only
      omega
  · rw [if_neg (by omega)]
    simp [hone]

theorem linkMore_nlink (hroom : f.nlink + 1 < 2 ^ 16) : f.linkMore.nlink = f.nlink + 1 :=
  mod_eq_of_lt hroom

theorem linkLess_nlink (hpos : 0 < f.nlink) (hlt : f.nlink < 2 ^ 16) :
    f.linkLess.nlink = f.nlink - 1 := by
  change (f.nlink + (2 ^ 16 - 1)) % 2 ^ 16 = f.nlink - 1
  omega

theorem newFile_dir (hmode : fileType (createMode mode) = modeFdir)
    (h : v.newFile sup inum mode = some g) : g.isDir ∧ g.nlink = 2 := by
  have hdir : File.isDir ⟨createMode mode, 1, 0, (v.file inum).data⟩ := hmode
  rw [newFile, if_pos hdir] at h
  obtain ⟨f, hf, rfl⟩ := Option.map_eq_some_iff.1 h
  obtain ⟨hm, hn⟩ := write_keeps hf
  constructor
  · rw [hm]
    exact hmode
  · rw [hn]

section Requests

variable (h : Namespace v parent)

include h

theorem Namespace.created (hlen : ∀ n ∈ components path, direntSize n.length ≤ bsize)
    (hsup : sup.Fits v) (hmode : fileType (createMode mode) ≠ modeFdir)
    (hcode : (v.byName sup (.create mode) path).code = 2) :
    let r := v.byName sup (.create mode) path
    r.inode.mode ≠ 0 ∧ ¬r.inode.isDir ∧ r.inode.nlink = 1 ∧
      (∀ g : File, g.mode = r.inode.mode → g.nlink = 1 → Namespace (r.vol.set r.number g) parent) ∧
      Namespace r.vol parent := by
  obtain ⟨dir, name, inum, inode, f, hinode, hnew, hne, hent, hres⟩ :=
    create_effect h.dirs hlen hsup hcode
  rw [newFile_file hmode] at hnew
  obtain ⟨hi, -, hfree⟩ := hsup inum hinode
  have hone : inum ≠ 1 := by
    rintro rfl
    exact h.reserved hfree
  have hwas := not_isDir_of_free hfree
  have hlinks : ((v.tree parent).links inum).encard + 1 = (1 : ℕ) := by
    rw [h.tree.links_eq_empty (fun hu => hu.2.2 hfree), Set.encard_empty]
    rfl
  have hfile : ¬inode.isDir := by
    rw [← Option.some.inj hnew]
    exact hmode
  have hmode' : inode.mode ≠ 0 := by
    rw [← Option.some.inj hnew]
    exact createMode_ne_zero mode
  have hnlink : inode.nlink = 1 := by rw [← Option.some.inj hnew]
  have hlink : ∀ v' : Volume, v'.isize = v.isize → v'.file dir = f →
    (v'.file inum).mode = inode.mode →
      (v'.file inum).nlink = 1 → (∀ j, j ≠ dir → j ≠ inum → v'.file j = v.file j) →
        Namespace v' parent := by
    intro v' hsize hf hm hn hother
    refine h.link hent hi hone hwas hlinks (by decide) hsize hf ⟨?_, ?_, hn⟩ hother
    · rw [hm]
      exact hmode'
    · rw [isDir_congr hm]
      exact hfile
  intro r
  rw [show r = _ from hres]
  refine ⟨hmode', hfile, hnlink, ?_, ?_⟩
  · intro g hm hn
    refine hlink _ ?_ ?_ ?_ ?_ ?_
    · rfl
    · rw [set_file_of_ne _ _ hne.symm, set_file_self]
    · rw [set_file_self, hm]
    · rw [set_file_self, hn]
    · intro j h1 h2
      rw [set_file_of_ne _ _ h2, set_file_of_ne _ _ h1, set_file_of_ne _ _ h2]
  · refine hlink _ ?_ ?_ ?_ ?_ ?_
    · rfl
    · exact set_file_self _ _ _
    · rw [set_file_of_ne _ _ hne, set_file_self]
    · rw [set_file_of_ne _ _ hne, set_file_self, hnlink]
    · intro j h1 h2
      rw [set_file_of_ne _ _ h1, set_file_of_ne _ _ h2]

theorem Namespace.mknod (hpath : PathOk path) (hfull : sup.Full) (hsup : sup.Fits v) :
    Namespace (v.opMknod path mode sup).2 parent := by
  rw [opMknod]
  split_ifs with hlook htype
  · exact h
  · have hmode : fileType (createMode (mode &&& 0o7777 ||| fileType mode)) ≠ modeFdir := by
      rw [fileType_createMode, fileType_or]
      rcases htype with ht | ht | ht
      · rw [ht]
        decide
      · rw [ht]
        decide
      · rw [ht]
        decide
    rcases create_cases h.dirs h.valid_root hfull hpath.nonempty
      (mode &&& 0o7777 ||| fileType mode) with
      ⟨i, hi, hres⟩ | ⟨hno, hcode | hres⟩
    · rw [lookup_found h.dirs h.valid_root hi] at hlook
      exact absurd one_ne_zero hlook
    · obtain ⟨-, -, hn, hset, -⟩ := h.created hpath.direntSize hsup hmode hcode
      rw [if_neg (by rw [hcode]; decide)]
      exact hset _ rfl hn
    · rw [hres]
      exact h
  · exact h

theorem Namespace.save_file (hi : v.Valid i) (hfile : ¬(v.file i).isDir)
    (hmode : g.mode = (v.file i).mode)
    (hnlink : g.nlink = (v.file i).nlink) : Namespace (v.save i g) parent := by
  refine h.of_same rfl ?_ ?_
  · refine h.dirs.save hi ?_
    intro hdir
    exact absurd ((isDir_congr hmode).1 hdir) hfile
  · intro j
    by_cases hj : j = i
    · subst hj
      rw [save, set_file_self]
      exact ⟨hmode, hnlink, fun hdir => absurd hdir hfile⟩
    · rw [save, set_file_of_ne _ _ hj]
      exact Same.refl _

theorem Namespace.create (hpath : PathOk path) (hfull : sup.Full) (hsup : sup.Fits v) :
    Namespace (v.opCreate path mode sup).2 parent := by
  have hmode : fileType (createMode (mode &&& 0o7777)) ≠ modeFdir := by
    have htype : fileType (mode &&& 0o7777) = 0 := by
      have h := fileType_or mode 0
      rw [or_zero] at h
      exact h
    rw [fileType_createMode, htype]
    decide
  rw [opCreate]
  rcases create_cases h.dirs h.valid_root hfull hpath.nonempty (mode &&& 0o7777) with
    ⟨i, hi, hres⟩ | ⟨hno, hcode | hres⟩
  · rw [hres]
    rw [if_neg one_ne_zero]
    split_ifs with hdir
    · exact h
    · exact h.save_file (follows_valid h.valid_root hi) hdir (truncated_mode _ _)
        (truncated_nlink _ _)
  · obtain ⟨-, hfile, hn, hset, -⟩ := h.created hpath.direntSize hsup hmode hcode
    rw [if_neg (by rw [hcode]; decide), if_neg hfile]
    exact hset _ (truncated_mode _ _) ((truncated_nlink _ _).trans hn)
  · rw [hres]
    exact h

theorem Namespace.symlink {text : List UInt8} {fresh : Option Memory} (hpath : PathOk newpath)
    (hfull : sup.Full)
    (hsup : sup.Fits v) : Namespace (v.opSymlink text newpath sup fresh).2 parent := by
  rw [opSymlink]
  split_ifs with hlook
  · exact h
  · have hmode : fileType (createMode (0o777 ||| modeFlnk)) ≠ modeFdir := by
      decide
    rcases create_cases h.dirs h.valid_root hfull hpath.nonempty (0o777 ||| modeFlnk) with
      ⟨i, hi, hres⟩ | ⟨hno, hcode | hres⟩
    · rw [lookup_found h.dirs h.valid_root hi] at hlook
      exact absurd one_ne_zero hlook
    · obtain ⟨-, -, hn, hset, hvol⟩ := h.created hpath.direntSize hsup hmode hcode
      rw [if_neg (by rw [hcode]; decide)]
      cases hw : (v.byName sup (.create (0o777 ||| modeFlnk)) newpath).inode.write fresh 0 text with
      | none => exact hvol
      | some inode =>
        obtain ⟨hm, hl⟩ := write_keeps hw
        exact hset inode hm (hl.trans hn)
    · rw [hres]
      exact h

theorem Namespace.truncate {newsize : ℕ} : Namespace (v.opTruncate path newsize).2 parent := by
  rw [opTruncate]
  rcases lookup_cases h.dirs h.valid_root path with ⟨i, hi, hres⟩ | ⟨-, hcode⟩
  · rw [hres]
    by_cases hdir : (v.file i).isDir
    · rw [if_pos (.inr hdir)]
      exact h
    · rw [if_neg (not_or.2 ⟨one_ne_zero, hdir⟩)]
      split_ifs with htype
      · exact h
      · exact h.save_file (follows_valid h.valid_root hi) hdir (truncated_mode _ _)
          (truncated_nlink _ _)
  · rw [if_pos (.inl hcode)]
    exact h

theorem Namespace.entry_of_follows (hne : components path ≠ [])
    (hi : v.Follows rootInode (components path) i) :
    ∃ p n dir, components path = p ++ [n] ∧ v.Follows rootInode p dir ∧ v.Valid dir ∧
      (v.file dir).isDir ∧ (n, i) ∈ (v.file dir).names ∧ v.Valid i := by
  rcases List.eq_nil_or_concat (components path) with hnil | ⟨p, n, hcomp⟩
  · exact absurd hnil hne
  · rw [List.concat_eq_append] at hcomp
    rw [hcomp, follows_append] at hi
    obtain ⟨dir, hp, hisdir, hmem, hval⟩ := hi
    exact ⟨p, n, dir, hcomp, hp, follows_valid h.valid_root hp, hisdir, hmem, hval⟩

theorem Namespace.file_nlink (hi : v.Valid i) (hi' : i ≠ 1) (hmode : (v.file i).mode ≠ 0)
    (hfile : ¬(v.file i).isDir) :
    ((v.tree parent).links i).encard = (v.file i).nlink ∧ 0 < (v.file i).nlink :=
  h.tree.file_nlink i ⟨hi, hi', hmode⟩ fun hd => hfile hd.2

theorem Namespace.vacated (hvac : Vacated v path dir name i f) (hfile : ¬(v.file i).isDir) :
    Namespace ((v.set dir f).save i (v.file i).unlinked) parent := by
  have hne : dir ≠ i := fun heq => hfile (heq ▸ hvac.leads.isDir)
  obtain ⟨hi, hi', hmode⟩ := h.used_of_mem hvac.valid hvac.leads.isDir hvac.mem
  obtain ⟨-, hpos⟩ := h.file_nlink hi hi' hmode hfile
  obtain ⟨hused, hnlink, -, -⟩ := unlinked_file hpos (h.nlink_lt i)
  obtain ⟨inode, hinode⟩ : ∃ inode, inode = (v.file i).unlinked := ⟨_, rfl⟩
  have hnotdir : ¬inode.isDir := by
    rw [hinode]
    exact fun hdir => hfile (unlinked_isDir hdir).1
  rw [← hinode] at hused hnlink ⊢
  have hself : ((v.set dir f).save i inode).file i =
      ⟨inode.mode, inode.nlink, inode.size, ((v.set dir f).file i).data⟩ :=
    set_file_self _ _ _
  refine h.unlink hvac hfile rfl ?_ ?_ ?_
  · rw [save, set_file_of_ne _ _ hne, set_file_self]
  · rw [hself]
    exact ⟨hused, hnotdir, hnlink⟩
  · intro j h1 h2
    rw [save, set_file_of_ne _ _ h2, set_file_of_ne _ _ h1]

theorem Namespace.unlinkRequest (hpath : PathOk path) (hsafe : DeleteSafe v path) :
    Namespace (v.opUnlink path).2 parent := by
  rw [opUnlink]
  rcases lookup_cases h.dirs h.valid_root path with ⟨i, hi, hres⟩ | ⟨-, hcode⟩
  · rw [hres]
    by_cases hdir : (v.file i).isDir
    · rw [if_pos hdir]
      exact h
    · rw [if_neg hdir]
      obtain ⟨p, n, dir, hcomp, hp, -, hisdir, hmem, hval⟩ := h.entry_of_follows hpath.nonempty hi
      obtain ⟨f, hvac, heq⟩ := delete_result h.dirs h.valid_root hsafe hcomp hp hisdir hmem hval
      rw [heq]
      exact h.vacated hvac hdir
  · rw [if_pos hcode]
    exact h

theorem Namespace.entered (hent : Entered v path dir name i f) (hi : v.Valid i) (hi' : i ≠ 1)
    (hmode : (v.file i).mode ≠ 0) (hfile : ¬(v.file i).isDir)
    (hroom : (v.file i).nlink + 1 < 2 ^ 16) (hsize : v'.isize = v.isize) (hf : v'.file dir = f)
    (hg : (v'.file i).mode = (v.file i).mode ∧ (v'.file i).nlink = (v.file i).nlink + 1)
    (hother : ∀ j, j ≠ dir → j ≠ i → v'.file j = v.file j) : Namespace v' parent := by
  obtain ⟨hlinks, -⟩ := h.file_nlink hi hi' hmode hfile
  refine h.link hent hi hi' hfile ?_ hroom hsize hf ⟨?_, ?_, hg.2⟩ hother
  · rw [hlinks]
    rfl
  · rw [hg.1]
    exact hmode
  · rw [isDir_congr hg.1]
    exact hfile

theorem Namespace.number_lt (hd : v.Valid dir) (hdir : (v.file dir).isDir)
    (hi : (name, i) ∈ (v.file dir).names) : i < 2 ^ 32 ∧ i ≠ 0 := by
  have hval := (h.used_of_mem hd hdir hi).1
  exact ⟨names_lt (h.dirs dir hd hdir).1 hi, by have := hval.1; omega⟩

theorem Namespace.linkRequest (hpath : PathOk path) (hnew : PathOk newpath)
    (hfull : sup.dirBlock.isSome)
    (hfree : (v.lookup newpath).code = 0) (hroom : RoomForLink v (components path)) :
    Namespace (v.opLink path newpath sup).2 parent := by
  rw [opLink]
  rcases lookup_cases h.dirs h.valid_root path with ⟨i, hi, hres⟩ | ⟨-, hcode⟩
  · rw [hres, if_neg one_ne_zero]
    by_cases hdir : (v.file i).isDir
    · rw [if_pos hdir]
      exact h
    · rw [if_neg hdir]
      obtain ⟨p, n, dir, -, -, hd, hisdir, hmem, hval⟩ := h.entry_of_follows hpath.nonempty hi
      obtain ⟨-, hi', hmode⟩ := h.used_of_mem hd hisdir hmem
      obtain ⟨hlt, hne0⟩ := h.number_lt hd hisdir hmem
      rcases link_cases h.dirs h.valid_root hfull hnew.nonempty i with ⟨j, hj, -⟩
        | ⟨-, hcode | hfail⟩
      · rw [lookup_found h.dirs h.valid_root hj] at hfree
        cases hfree
      · obtain ⟨dir', name, f, hent, heq⟩ := link_effect h.dirs hnew.direntSize hlt hne0 hcode
        have hne : i ≠ dir' := by
          rintro rfl
          exact hdir hent.leads.isDir
        rw [if_neg (by rw [hcode]; decide), heq]
        refine h.entered hent hval hi' hmode hdir (hroom i hi) rfl ?_ ?_ ?_
        · rw [save, set_file_of_ne _ _ hne.symm, set_file_self]
        · rw [save, set_file_self]
          exact ⟨rfl, linkMore_nlink (hroom i hi)⟩
        · intro j h1 h2
          rw [save, set_file_of_ne _ _ h2, set_file_of_ne _ _ h1]
      · rw [hfail]
        exact h
  · rw [if_pos hcode]
    exact h

theorem Namespace.dir_lt (hd : v.Valid d) (hdir : (v.file d).isDir) : d < 2 ^ 32 ∧ d ≠ 0 :=
  h.number_lt hd hdir (h.dots d hd hdir).1

omit h in
theorem follows_new {p : List Name} {inode : File} (hent : Entered v path dir name inum f)
    (hne : inum ≠ dir) (hfree : (v.file inum).mode = 0) (hp : v.Follows rootInode p dir)
    (hval : v.Valid inum) :
    ((v.set inum inode).set dir f).Follows rootInode (p ++ [name]) inum := by
  have hfile : ((v.set inum inode).set dir f).file dir = f := set_file_self _ _ _
  apply follows_append.2
  refine ⟨dir, hp.mono rfl ?_, ?_, ?_, hval⟩
  · intro d hd
    by_cases h1 : d = dir
    · subst h1
      rw [hfile, isDir_congr hent.inserted.mode, hent.inserted.names]
      exact ⟨hd, Finset.subset_insert _ _⟩
    · have h2 : d ≠ inum := by
        rintro rfl
        exact not_isDir_of_free hfree hd
      rw [set_file_of_ne _ _ h1, set_file_of_ne _ _ h2]
      exact ⟨hd, Finset.Subset.refl _⟩
  · rw [hfile, isDir_congr hent.inserted.mode]
    exact hent.leads.isDir
  · rw [hfile, hent.inserted.names]
    exact Finset.mem_insert_self _ _

theorem Namespace.made {dots : Supply} {p : List Name} {inode : File} (hpath : PathOk path)
    (hdots : dots.dirBlock.isSome) (hcomp : components path = p ++ [name])
    (hp : v.Follows rootInode p dir)
    (hent : Entered v path dir name inum f)
    (hinum : v.Valid inum ∧ inum < 2 ^ 32 ∧ (v.file inum).mode = 0)
    (hnew : inode.isDir ∧ inode.nlink = 2)
    (hspec : inode.ValidDir ∧ 0 < inode.size ∧ inode.names = {(dot, inum)})
    (hroom : (v.file dir).nlink + 1 < 2 ^ 16) :
    ∃ l, ((v.set inum inode).set dir f).byName dots (.link dir) (path ++ [47, 46, 46]) = l ∧
      l.code = 2 ∧ l.vol.Valid dir ∧
        Namespace (l.vol.save dir (l.vol.file dir).linkMore) (Function.update parent inum dir) := by
  obtain ⟨hval, -, hfree⟩ := hinum
  have hdir := hent.leads.isDir
  have hne : inum ≠ dir := by
    rintro rfl
    exact not_isDir_of_free hfree hdir
  set v1 := (v.set inum inode).set dir f
  have hdirs : v1.ValidDirs := by
    have hset : (v.set inum inode).ValidDirs := h.dirs.set fun _ => ⟨hspec.1, hspec.2.1⟩
    exact hset.set fun _ => hent.validDir h.dirs
  have hfollows : v1.Follows rootInode (components path) inum := by
    rw [hcomp]
    exact follows_new hent hne hfree hp hval
  have hinode : v1.file inum = inode := by rw [set_file_of_ne _ _ hne, set_file_self]
  have hlen : ∀ n ∈ components (path ++ [47, 46, 46]), direntSize n.length ≤ bsize := by
    intro n hn
    rw [components_dots, List.mem_append, List.mem_singleton] at hn
    rcases hn with hn | rfl
    · exact hpath.direntSize n hn
    · decide
  have hroot1 : v1.Valid rootInode := h.valid_root
  obtain ⟨hdlt, hd0⟩ := h.dir_lt hent.valid hdir
  obtain ⟨f2, hent2, hres⟩ := link_result hdirs hroot1 hdots hlen hdlt hd0 (components_dots path)
    hfollows (by rw [hinode]; exact hnew.1) (by
      intro i hi
      rw [hinode, hspec.2.2, Finset.mem_singleton] at hi
      have hdd : dotdot = dot := congrArg Prod.fst hi
      exact absurd hdd (by decide))
  have hins2 := hent2.inserted
  rw [hinode] at hins2
  have hfile : (v1.set inum f2).file dir = f := by
    rw [set_file_of_ne _ _ hne.symm, set_file_self]
  have hdirFile : ((v1.set inum f2).save dir ((v1.set inum f2).file dir).linkMore).file dir =
      ⟨f.mode, f.linkMore.nlink, f.size, f.data⟩ := by
    rw [save, set_file_self, hfile]
    rfl
  have hinumFile : ((v1.set inum f2).save dir ((v1.set inum f2).file dir).linkMore).file inum =
      f2 := by
    rw [save, set_file_of_ne _ _ hne, set_file_self]
  have hfn : f.nlink + 1 < 2 ^ 16 := by
    rw [hent.inserted.nlink]
    exact hroom
  refine ⟨_, hres, rfl, ?_, ?_⟩
  · exact hent.valid
  · obtain ⟨hvd, hpos⟩ := hent.validDir h.dirs
    refine h.addDir hent hval hfree hroom ?_ ?_ ?_ ?_ ?_
    · rfl
    · rw [hdirFile]
      refine ⟨hent.inserted.mode, (linkMore_nlink hfn).trans (by rw [hent.inserted.nlink]), ?_,
        validDir_congr (f := f) rfl rfl hvd, hpos⟩
      exact Eq.trans (names_congr (f := f) rfl rfl) hent.inserted.names
    · rw [hinumFile, isDir_congr hins2.mode]
      exact hnew.1
    · rw [hinumFile]
      refine ⟨rfl, hins2.nlink.trans hnew.2, ?_, hent2.validDir hdirs⟩
      rw [hins2.names, hspec.2.2]
      exact Finset.pair_comm _ _
    · intro j h1 h2
      rw [save, set_file_of_ne _ _ h1, set_file_of_ne _ _ h2, set_file_of_ne _ _ h1,
        set_file_of_ne _ _ h2]

theorem Namespace.mkdir {dots : Supply} (hpath : PathOk path) (hfull : sup.Full) (hsup : sup.Fits v)
    (hdots : dots.dirBlock.isSome) (hroom : RoomForLink v (components path).dropLast) :
    ∃ parent', Namespace (v.opMkdir path mode sup dots).2 parent' := by
  have hmode : fileType (createMode (mode &&& 0o7777 ||| modeFdir)) = modeFdir := by
    rw [fileType_createMode, fileType_or]
    decide
  rw [opMkdir]
  have hne : path ≠ [] := by
    rintro rfl
    exact hpath.nonempty rfl
  obtain ⟨name, hcomp⟩ := components_parentPath hne hpath.last
  rcases lookup_cases h.dirs h.valid_root (parentPath path) with ⟨dir, hdir, hres⟩ | ⟨-, hcode⟩
  · rw [hres, if_neg one_ne_zero]
    rcases create_cases h.dirs h.valid_root hfull hpath.nonempty (mode &&& 0o7777 ||| modeFdir) with
      ⟨i, hi, hres⟩ | ⟨hno, hcode | hres⟩
    · rw [hres]
      exact ⟨parent, h⟩
    · obtain ⟨dir', name', inum, inode, f, hinode, hnew, -, hent, hcreate⟩ :=
        create_effect h.dirs hpath.direntSize hsup hcode
      obtain ⟨rfl, rfl⟩ := hent.leads.unique h.dirs h.valid_root hcomp hdir
      have hinum := hsup inum hinode
      have hnewdir := newFile_dir hmode hnew
      have hspec := newFile_spec hinum.2.1 (by have := hinum.1.1; omega) hnew hnewdir.1
      have hroom' : (v.file dir').nlink + 1 < 2 ^ 16 := by
        apply hroom
        rw [hcomp, List.dropLast_concat]
        exact hdir
      obtain ⟨l, hlink, hl, hd, hmade⟩ :=
        h.made hpath hdots hcomp hdir hent hinum hnewdir hspec hroom'
      rw [hcreate, if_neg two_ne_zero, if_neg (OfNat.ofNat_ne_one 2)]
      rw [hlink, if_neg (by rw [hl]; decide), if_neg (not_not.2 hd)]
      exact ⟨_, hmade⟩
    · rw [hres]
      exact ⟨parent, h⟩
  · rw [if_pos hcode]
    exact ⟨parent, h⟩

end Requests

end RetroBSD.Fsutil
