import RetroBSD.ImageDirectories

/-!
# Paths in a file system image

What the walk along a path comes to when all directories are valid: it follows the names,
and it ends at a record or at the last record of the directory that lacks the name. From
this, what the calls of `fs_inode_by_name` that succeed have done to the image.
-/

namespace RetroBSD.Fsutil

open LittleEndian File Volume

def Volume.ValidDirs (v : Volume) : Prop :=
  ∀ d, v.Valid d → (v.file d).isDir → (v.file d).ValidDir ∧ 0 < (v.file d).size

variable {v v' : Volume} {path : List UInt8} {names : List Name} {name : Name} {del : Bool}
  {d dir inum mode offset last : ℕ} {e : Dirent} {f g : File} {sup : Supply}

/-! ## The walk -/

theorem walk_found_cons {ds : List Name} {off lst : ℕ} (hdir : (v.file dir).isDir)
    (hsearch : (v.file dir).search name = .found off lst e) (hvalid : v.Valid e.inum)
    (hrest : v.walk false e.inum ds = .found d) : v.walk false dir (name :: ds) = .found d := by
  rw [walk, if_neg (not_not.2 hdir), hsearch]
  dsimp only
  rw [if_neg (by simp), if_pos hvalid, hrest]

theorem walk_entry (h : v.walk del dir names = .entry d offset last e) (hv : v.Valid dir) :
    del = true ∧ v.Valid d ∧ (v.file d).isDir ∧ ∃ ds name, names = ds ++ [name] ∧
      v.walk false dir ds = .found d ∧ (v.file d).search name = .found offset last e := by
  induction names generalizing dir with
  | nil => cases h
  | cons name rest ih =>
    rw [walk] at h
    by_cases hdir : (v.file dir).isDir
    · rw [if_neg (not_not.2 hdir)] at h
      cases hs : (v.file dir).search name with
      | failed =>
        rw [hs] at h
        cases h
      | found off lst e' =>
        rw [hs] at h
        dsimp only at h
        by_cases hend : del = true ∧ rest = []
        · rw [if_pos hend] at h
          cases h
          exact ⟨hend.1, hv, hdir, [], name, by rw [hend.2]; rfl, rfl, hs⟩
        · rw [if_neg hend] at h
          by_cases hval : v.Valid e'.inum
          · rw [if_pos hval] at h
            obtain ⟨hdel, hd, hisdir, ds, last, rfl, hwalk, hlast⟩ := ih h hval
            exact ⟨hdel, hd, hisdir, name :: ds, last, rfl, walk_found_cons hdir hs hval hwalk,
              hlast⟩
          · rw [if_neg hval] at h
            cases h
      | missing lst e' =>
        rw [hs] at h
        dsimp only at h
        split_ifs at h
    · rw [if_pos hdir] at h
      cases h

theorem walk_absent (h : v.walk del dir names = .absent d last e name) (hv : v.Valid dir) :
    v.Valid d ∧ (v.file d).isDir ∧ (v.file d).search name = .missing last e ∧
      ∃ ds, names = ds ++ [name] ∧ v.walk false dir ds = .found d := by
  induction names generalizing dir with
  | nil => cases h
  | cons name' rest ih =>
    rw [walk] at h
    by_cases hdir : (v.file dir).isDir
    · rw [if_neg (not_not.2 hdir)] at h
      cases hs : (v.file dir).search name' with
      | failed =>
        rw [hs] at h
        cases h
      | found off lst e' =>
        rw [hs] at h
        dsimp only at h
        split_ifs at h with hend hval
        obtain ⟨hd, hisdir, hlast, ds, rfl, hwalk⟩ := ih h hval
        exact ⟨hd, hisdir, hlast, name' :: ds, rfl, walk_found_cons hdir hs hval hwalk⟩
      | missing lst e' =>
        rw [hs] at h
        dsimp only at h
        split_ifs at h with hend
        cases h
        exact ⟨hv, hdir, hs, [], by rw [hend]; rfl, rfl⟩
    · rw [if_pos hdir] at h
      cases h

theorem component_ne_nil (h : name ∈ components path) : name ≠ [] := by
  rw [components, List.mem_filter] at h
  exact of_decide_eq_true h.2

/-! ## What a successful call did -/

theorem byName_two {op : Op} (h : (v.byName sup op path).code = 2) :
    v.Valid rootInode ∧
      v.byName sup op path = v.act sup op (v.walk (op = .delete) rootInode (components path)) := by
  by_cases hroot : v.Valid rootInode
  · refine ⟨hroot, ?_⟩
    rw [byName, if_neg (not_not.2 hroot)] at h ⊢
    by_cases hnil : components path = [] ∧ op ≠ .lookup
    · rw [if_pos hnil] at h
      cases h
    · rw [if_neg hnil]
  · rw [byName, if_pos hroot] at h
    cases h

theorem act_absent {op : Op} {w : Walk} (hw : ∀ d o l e, w ≠ .entry d o l e)
    (h : (v.act sup op w).code = 2) : ∃ dir last e name, w = .absent dir last e name := by
  cases w with
  | failed | found => cases h
  | entry dir offset last e => exact absurd rfl (hw _ _ _ _)
  | absent dir last e name => exact ⟨dir, last, e, name, rfl⟩

theorem byName_absent {op : Op} (hop : op ≠ .delete) (h : (v.byName sup op path).code = 2) :
    v.Valid rootInode ∧ ∃ dir last e name,
      v.walk false rootInode (components path) = .absent dir last e name ∧
      v.byName sup op path = v.act sup op (.absent dir last e name) := by
  obtain ⟨hroot, heq⟩ := byName_two h
  rw [decide_eq_false hop] at heq
  rw [heq] at h
  have hentry : ∀ d o l e, v.walk false rootInode (components path) ≠ .entry d o l e := by
    intro d o l e hw
    exact absurd (walk_entry hw hroot).1 (by decide)
  obtain ⟨dir, last, e, name, hw⟩ := act_absent hentry h
  rw [hw] at heq
  exact ⟨hroot, dir, last, e, name, hw, heq⟩

theorem byName_delete (h : (v.byName sup .delete path).code = 2) :
    v.Valid rootInode ∧ ∃ dir offset last e,
      v.walk true rootInode (components path) = .entry dir offset last e ∧
      v.byName sup .delete path = v.deleteFile dir last e := by
  obtain ⟨hroot, heq⟩ := byName_two h
  refine ⟨hroot, ?_⟩
  rw [heq] at h ⊢
  change (v.act sup .delete (v.walk true rootInode (components path))).code = 2 at h
  change ∃ dir offset last e, _ ∧ v.act sup .delete (v.walk true rootInode (components path)) = _
  cases hw : v.walk true rootInode (components path) with
  | failed =>
    rw [hw] at h
    cases h
  | found inum =>
    rw [hw] at h
    cases h
  | entry dir offset last e => exact ⟨dir, offset, last, e, rfl, rfl⟩
  | absent dir last e name =>
    rw [hw] at h
    cases h

theorem createFile_two (h : (v.createFile sup dir last e name mode).code = 2) :
    ∃ inum inode f, sup.inode = some inum ∧ v.newFile sup inum mode = some inode ∧
      (v.file dir).insertEntry sup.dirBlock last e inum name = (true, f) ∧
      v.createFile sup dir last e name mode = ⟨2, inum, inode, (v.set inum inode).set dir f⟩ := by
  rw [createFile] at h ⊢
  cases hi : sup.inode with
  | none =>
    rw [hi] at h
    cases h
  | some inum =>
    rw [hi] at h
    dsimp only at h ⊢
    cases hn : v.newFile sup inum mode with
    | none =>
      rw [hn] at h
      cases h
    | some inode =>
      rw [hn] at h
      cases hw : (v.file dir).insertEntry sup.dirBlock last e inum name with
      | mk done f =>
        rw [hw] at h
        cases done with
        | false => cases h
        | true => exact ⟨inum, inode, f, rfl, hn, hw, rfl⟩

theorem createLink_two (h : (v.createLink sup dir last e name inum).code = 2) :
    ∃ f, (v.file dir).insertEntry sup.dirBlock last e inum name = (true, f) ∧
      v.createLink sup dir last e name inum = ⟨2, dir, f, v.set dir f⟩ := by
  rw [createLink] at h ⊢
  cases hw : (v.file dir).insertEntry sup.dirBlock last e inum name with
  | mk done f =>
    rw [hw] at h
    cases done with
    | false => cases h
    | true => exact ⟨f, rfl, rfl⟩

theorem deleteFile_two (h : (v.deleteFile dir last e).code = 2) :
    v.Valid e.inum ∧ ∃ f, (v.file dir).removeEntry last e = some f ∧
      v.deleteFile dir last e = ⟨2, e.inum, (v.file e.inum).unlinked, v.set dir f⟩ := by
  rw [deleteFile] at h ⊢
  by_cases hval : v.Valid e.inum
  · refine ⟨hval, ?_⟩
    rw [if_neg (not_not.2 hval)] at h ⊢
    cases hw : (v.file dir).removeEntry last e with
    | none =>
      rw [hw] at h
      cases h
    | some f => exact ⟨f, rfl, rfl⟩
  · rw [if_pos hval] at h
    cases h

theorem unlinked_of_left (h : f.nlink % 2 ^ 16 ≠ 1) :
    f.unlinked = { f with nlink := (f.nlink + (2 ^ 16 - 1)) % 2 ^ 16 } := by
  have hleft : (f.nlink + (2 ^ 16 - 1)) % 2 ^ 16 ≠ 0 := by omega
  rw [unlinked, if_neg hleft]

theorem unlinked_isDir_iff : f.unlinked.isDir ↔ f.isDir ∧ f.nlink % 2 ^ 16 ≠ 1 := by
  by_cases hlast : f.nlink % 2 ^ 16 = 1
  · have hzero : (f.nlink + (2 ^ 16 - 1)) % 2 ^ 16 = 0 := by omega
    rw [unlinked, if_pos hzero]
    exact iff_of_false (by decide : ¬fileType 0 = modeFdir) fun h => h.2 hlast
  · rw [unlinked_of_left hlast, and_iff_left hlast, isDir, isDir]

theorem unlinked_isDir (h : f.unlinked.isDir) : f.isDir ∧ f.unlinked.size = f.size := by
  obtain ⟨hdir, hleft⟩ := unlinked_isDir_iff.1 h
  refine ⟨hdir, ?_⟩
  rw [unlinked_of_left hleft]

theorem newFile_spec (hinum : inum < 2 ^ 32) (hinum' : inum ≠ 0)
    (h : v.newFile sup inum mode = some g)
    (hdir : g.isDir) : g.ValidDir ∧ 0 < g.size ∧ g.names = {([46], inum)} := by
  rw [newFile] at h
  split_ifs at h with hnew
  · obtain ⟨f, hf, rfl⟩ := Option.map_eq_some_iff.1 h
    have hpack : Dirent.pack ⟨inum, bsize, 1⟩ ++ [46, 0, 0, 0] =
        Dirent.pack ⟨inum, bsize, ([46] : Name).length⟩ ++ [46] ++ [0, 0, 0] := by simp
    rw [hpack] at hf
    have w := write_spec (by simp [Dirent.pack_ne_nil]) hf
    have hat : Entry.At f.data 0 ⟨inum, bsize, [46]⟩ := w.entry_at hinum (by decide) (by decide)
    have hfits : Entry.Fits 0 ⟨inum, bsize, [46]⟩ := by
      refine ⟨?_, le_rfl, Nat.mod_eq_zero_of_dvd ⟨256, rfl⟩⟩
      change direntSize 1 ≤ bsize
      decide
    have hlive : live [⟨inum, bsize, [46]⟩] = [([46], inum)] := live_cons_of_ne hinum' _
    have hholds : Holds { f with size := bsize, nlink := f.nlink + 1 } [⟨inum, bsize, [46]⟩] := by
      refine ⟨Nat.mod_self bsize, ⟨⟨hat, hfits⟩, ?_⟩, by rw [hlive]; exact List.nodup_singleton _⟩
      exact Nat.zero_add _
    refine ⟨hholds.valid, by change 0 < bsize; decide, ?_⟩
    rw [hholds.names_eq, hlive]
    rfl
  · obtain rfl := Option.some.inj h
    exact absurd hdir hnew

/-! ## What a file's names depend on -/

theorem set_file_self (v : Volume) (n : ℕ) (f : File) : (v.set n f).file n = f :=
  Function.update_self _ _ _

theorem set_file_of_ne (v : Volume) {n m : ℕ} (f : File) (h : m ≠ n) :
    (v.set n f).file m = v.file m :=
  Function.update_of_ne h _ _

theorem isDir_congr (h : g.mode = f.mode) : g.isDir ↔ f.isDir := by
  rw [isDir, isDir, h]

variable (hsize : g.size = f.size) (hdata : g.data = f.data)
include hsize hdata

theorem entriesFrom_congr (fuel offset : ℕ) :
    g.entriesFrom fuel offset = f.entriesFrom fuel offset := by
  induction fuel generalizing offset with
  | zero => rfl
  | succ fuel ih =>
    rw [File.entriesFrom, File.entriesFrom, hsize, hdata]
    dsimp only
    rw [ih]

theorem entries_congr : g.entries = f.entries := by
  rw [entries, entries, hsize, entriesFrom_congr hsize hdata]

theorem names_congr : g.names = f.names := by
  rw [names, names, entries_congr hsize hdata]

theorem validDir_congr (h : f.ValidDir) : g.ValidDir := by
  rw [ValidDir, entries_congr hsize hdata, hsize]
  exact h

omit hsize hdata

/-! ## Following names -/

def Volume.Follows (v : Volume) : ℕ → List Name → ℕ → Prop
  | d, [], i => d = i
  | d, n :: p, i => (v.file d).isDir ∧ ∃ j, (n, j) ∈ (v.file d).names ∧ v.Valid j ∧ v.Follows j p i

variable {p : List Name} {n : Name} {i : ℕ}

theorem follows_append :
    v.Follows d (p ++ [n]) i ↔
      ∃ j, v.Follows d p j ∧ (v.file j).isDir ∧ (n, i) ∈ (v.file j).names ∧ v.Valid i := by
  induction p generalizing d with
  | nil =>
    constructor
    · rintro ⟨hdir, j, hj, hval, rfl⟩
      exact ⟨d, rfl, hdir, hj, hval⟩
    · rintro ⟨j, rfl, hdir, hmem, hval⟩
      exact ⟨hdir, i, hmem, hval, rfl⟩
  | cons m p ih =>
    constructor
    · rintro ⟨hdir, j, hj, hval, hrest⟩
      obtain ⟨k, hk, h⟩ := ih.1 hrest
      exact ⟨k, ⟨hdir, j, hj, hval, hk⟩, h⟩
    · rintro ⟨k, ⟨hdir, j, hj, hval, hk⟩, h⟩
      exact ⟨hdir, j, hj, hval, ih.2 ⟨k, hk, h⟩⟩

theorem Volume.Follows.mono (h : v.Follows d p i) (hsize : v'.isize = v.isize)
    (hnames : ∀ d, (v.file d).isDir → (v'.file d).isDir ∧ (v.file d).names ⊆ (v'.file d).names) :
    v'.Follows d p i := by
  induction p generalizing d with
  | nil => exact h
  | cons n p ih =>
    obtain ⟨hdir, j, hj, hval, hrest⟩ := h
    obtain ⟨hdir', hsub⟩ := hnames d hdir
    refine ⟨hdir', j, hsub hj, ?_, ih hrest⟩
    rw [Valid, hsize]
    exact hval

theorem names_functional (hvalid : f.ValidDir) {j : ℕ} (hi : (n, i) ∈ f.names)
    (hj : (n, j) ∈ f.names) : i = j := by
  rw [names, List.mem_toFinset] at hi hj
  have heq := List.inj_on_of_nodup_map hvalid.2.2 hi hj rfl
  exact congrArg Prod.snd heq

theorem search_cases (hvalid : f.ValidDir) (hsize : 0 < f.size) (name : Name) :
    (∃ offset last e, f.search name = .found offset last e ∧ (name, e.inum) ∈ f.names) ∨
      ∃ last e, f.search name = .missing last e ∧ ∀ i, (name, i) ∉ f.names := by
  have hholds := hvalid.holds
  have hspec := search_spec hholds hsize name
  generalize f.search name = s at hspec
  cases hspec with
  | first hrs hyes | next hrs hyes =>
    exact .inl ⟨_, _, _, rfl, mem_names hholds (by rw [hrs]; simp) hyes⟩
  | @missing pre p mid hrs hno hpre hp =>
    exact .inr ⟨_, _, rfl, not_mem_names hholds hno⟩

theorem search_congr (hsize : g.size = f.size) (hdata : g.data = f.data) (name : Name) :
    g.search name = f.search name := by
  have hread : ∀ offset n, g.read offset n = f.read offset n := by
    intro offset n
    rw [File.read, File.read, hsize, hdata]
  have hdirent : ∀ offset, g.readDirent offset = f.readDirent offset := by
    intro offset
    rw [readDirent, readDirent, hsize, hdata]
  have hfrom : ∀ fuel offset last e, g.searchFrom name fuel offset last e =
      f.searchFrom name fuel offset last e := by
    intro fuel
    induction fuel with
    | zero => exact fun _ _ _ => rfl
    | succ fuel ih =>
      intro offset last e
      rw [searchFrom, searchFrom, hsize, hdirent]
      simp only [hread, ih]
  rw [search, search, hsize, hfrom]

theorem walk_congr (hisize : v'.isize = v.isize)
    (hfile : ∀ d, (v'.file d).mode = (v.file d).mode ∧ (v'.file d).size = (v.file d).size ∧
      (v'.file d).data = (v.file d).data) (names : List Name) :
        v'.walk del d names = v.walk del d names := by
  induction names generalizing d with
  | nil => rfl
  | cons n p ih =>
    obtain ⟨hmode, hsize, hdata⟩ := hfile d
    have hvalid : ∀ i, v'.Valid i ↔ v.Valid i := by
      intro i
      rw [Valid, Valid, hisize]
    rw [walk, walk, search_congr hsize hdata]
    simp only [isDir_congr hmode, hvalid, ih]

section Walk

variable (hv : v.ValidDirs)

include hv

variable (hd : v.Valid d)
include hd

theorem walk_cons {j : ℕ} (hdir : (v.file d).isDir) (hj : (n, j) ∈ (v.file d).names)
    (hval : v.Valid j) (hgo : del = false ∨ p ≠ []) :
    v.walk del d (n :: p) = v.walk del j p := by
  obtain ⟨hvalid, hsize⟩ := hv d hd hdir
  rcases search_cases hvalid hsize n with ⟨offset, last, e, hs, hmem⟩ | ⟨last, e, hs, hno⟩
  · obtain rfl := names_functional hvalid hmem hj
    rw [walk, if_neg (not_not.2 hdir), hs]
    dsimp only
    rw [if_neg, if_pos hval]
    rintro ⟨hdel, hp⟩
    rcases hgo with hgo | hgo
    · rw [hgo] at hdel
      cases hdel
    · exact hgo hp
  · exact absurd hj (hno j)

theorem walk_append (h : v.Follows d p dir) : v.walk del d (p ++ [n]) = v.walk del dir [n] := by
  induction p generalizing d with
  | nil =>
    obtain rfl := h
    rfl
  | cons m p ih =>
    obtain ⟨hdir, j, hj, hval, hrest⟩ := h
    rw [List.cons_append, walk_cons hv hd hdir hj hval (.inr (by simp)), ih hval hrest]

theorem walk_found (h : v.Follows d p i) : v.walk false d p = .found i := by
  induction p generalizing d with
  | nil =>
    obtain rfl := h
    rfl
  | cons m p ih =>
    obtain ⟨hdir, j, hj, hval, hrest⟩ := h
    rw [walk_cons hv hd hdir hj hval (.inl rfl), ih hval hrest]

theorem follows_of_walk (h : v.walk del d p = .found i) : v.Follows d p i := by
  induction p generalizing d with
  | nil =>
    cases h
    rfl
  | cons m p ih =>
    rw [walk] at h
    by_cases hdir : (v.file d).isDir
    · rw [if_neg (not_not.2 hdir)] at h
      obtain ⟨hvalid, hsize⟩ := hv d hd hdir
      rcases search_cases hvalid hsize m with ⟨offset, last, e, hs, hmem⟩ | ⟨last, e, hs, -⟩
      · rw [hs] at h
        dsimp only at h
        split_ifs at h with hend hval
        exact ⟨hdir, e.inum, hmem, hval, ih hval h⟩
      · rw [hs] at h
        dsimp only at h
        split_ifs at h
    · rw [if_pos hdir] at h
      cases h

theorem walk_entry_of (h : v.Follows d p dir) (hdir : v.Valid dir) (hisdir : (v.file dir).isDir)
    (hi : (n, i) ∈ (v.file dir).names) :
    ∃ offset last e, v.walk true d (p ++ [n]) = .entry dir offset last e ∧ e.inum = i ∧
      (v.file dir).search n = .found offset last e := by
  obtain ⟨hvalid, hsize⟩ := hv dir hdir hisdir
  rcases search_cases hvalid hsize n with ⟨offset, last, e, hs, hmem⟩ | ⟨last, e, hs, hno⟩
  · refine ⟨offset, last, e, ?_, names_functional hvalid hmem hi, hs⟩
    rw [walk_append hv hd h, walk, if_neg (not_not.2 hisdir), hs]
    dsimp only
    rw [if_pos ⟨rfl, rfl⟩]
  · exact absurd hi (hno i)

theorem walk_absent_of (h : v.Follows d p dir) (hdir : v.Valid dir) (hisdir : (v.file dir).isDir)
    (hn : ∀ i, (n, i) ∉ (v.file dir).names) :
    ∃ last e, v.walk del d (p ++ [n]) = .absent dir last e n := by
  obtain ⟨hvalid, hsize⟩ := hv dir hdir hisdir
  rcases search_cases hvalid hsize n with ⟨-, last, e, hs, hmem⟩ | ⟨last, e, hs, -⟩
  · exact absurd hmem (hn e.inum)
  · refine ⟨last, e, ?_⟩
    rw [walk_append hv hd h, walk, if_neg (not_not.2 hisdir), hs]
    dsimp only
    rw [if_pos rfl]

end Walk

/-! ## Entries written and removed -/

def LeadsTo (v : Volume) (path : List UInt8) (d : ℕ) (name : Name) : Prop :=
  ∃ ds, components path = ds ++ [name] ∧ v.walk false rootInode ds = .found d ∧ (v.file d).isDir

/-- The directory `dir` that the path leads to became `f` by an entry for `inum`. -/
structure Entered (v : Volume) (path : List UInt8) (dir : ℕ) (name : Name) (inum : ℕ) (f : File) :
    Prop where
  leads : LeadsTo v path dir name
  valid : v.Valid dir
  absent : ∀ i, (name, i) ∉ (v.file dir).names
  inserted : Inserted (v.file dir) name inum f

/-- The directory `dir` that the path leads to became `f` without its entry for `inum`. -/
structure Vacated (v : Volume) (path : List UInt8) (dir : ℕ) (name : Name) (inum : ℕ) (f : File) :
    Prop where
  leads : LeadsTo v path dir name
  valid : v.Valid dir
  valid_inum : v.Valid inum
  mem : (name, inum) ∈ (v.file dir).names
  removed : Removed (v.file dir) name inum f

theorem LeadsTo.isDir (h : LeadsTo v path dir name) : (v.file dir).isDir := by
  obtain ⟨_, _, _, hdir⟩ := h
  exact hdir

/-- The entry that a deletion takes out does not begin a block. -/
def DeleteSafe (v : Volume) (path : List UInt8) : Prop :=
  ∀ dir offset last e, v.walk true rootInode (components path) = .entry dir offset last e →
    offset % bsize ≠ 0

def Supply.Fits (sup : Supply) (v : Volume) : Prop :=
  ∀ inum ∈ sup.inode, v.Valid inum ∧ inum < 2 ^ 32 ∧ (v.file inum).mode = 0

theorem Volume.ValidDirs.set {n : ℕ} (hv : v.ValidDirs) (hf : f.isDir → f.ValidDir ∧ 0 < f.size) :
    (v.set n f).ValidDirs := by
  intro d hd hdir
  by_cases h : d = n
  · subst h
    rw [set_file_self] at hdir ⊢
    exact hf hdir
  · rw [set_file_of_ne _ _ h] at hdir ⊢
    exact hv d hd hdir

theorem Volume.ValidDirs.save {n : ℕ} (hv : v.ValidDirs) (hn : v.Valid n)
    (hf : f.isDir → (v.file n).isDir ∧ f.size = (v.file n).size) : (v.save n f).ValidDirs := by
  apply hv.set
  intro hdir
  obtain ⟨hwas, hsize⟩ := hf hdir
  obtain ⟨hvalid, hpos⟩ := hv n hn hwas
  refine ⟨validDir_congr hsize rfl hvalid, ?_⟩
  rw [hsize]
  exact hpos

section Effects

variable (hv : v.ValidDirs)

include hv

theorem entered_of_walk {fresh : Option Memory} (hroot : v.Valid rootInode)
    (hlen : ∀ name ∈ components path, direntSize name.length ≤ bsize) (hinum : inum < 2 ^ 32)
    (hinum' : inum ≠ 0) (hwalk : v.walk false rootInode (components path) = .absent dir last e name)
    (hw : (v.file dir).insertEntry fresh last e inum name = (true, f)) :
    Entered v path dir name inum f := by
  obtain ⟨hvalid, hdir, hsearch, ds, hds, hfound⟩ := walk_absent hwalk hroot
  have hmem : name ∈ components path := by
    rw [hds]
    exact List.mem_append_right _ List.mem_cons_self
  obtain ⟨hvd, hsize⟩ := hv dir hvalid hdir
  obtain ⟨hnot, hins⟩ := hvd.insert hsize hsearch (component_ne_nil hmem) (hlen name hmem)
    hinum hinum' hw
  exact ⟨⟨ds, hds, hfound, hdir⟩, hvalid, hnot, hins⟩

theorem Entered.validDir (h : Entered v path dir name inum f) : f.ValidDir ∧ 0 < f.size :=
  ⟨h.inserted.valid, (hv dir h.valid h.leads.isDir).2.trans_le h.inserted.size⟩

theorem Vacated.validDir (h : Vacated v path dir name inum f) : f.ValidDir ∧ 0 < f.size := by
  refine ⟨h.removed.valid, ?_⟩
  rw [h.removed.size]
  exact (hv dir h.valid h.leads.isDir).2

theorem create_effect (hlen : ∀ name ∈ components path, direntSize name.length ≤ bsize)
    (hsup : sup.Fits v) (hcode : (v.byName sup (.create mode) path).code = 2) :
    ∃ dir name inum inode f, sup.inode = some inum ∧ v.newFile sup inum mode = some inode ∧
      inum ≠ dir ∧ Entered v path dir name inum f ∧
      v.byName sup (.create mode) path = ⟨2, inum, inode, (v.set inum inode).set dir f⟩ := by
  obtain ⟨hroot, dir, last, e, name, hwalk, heq⟩ := byName_absent (by simp) hcode
  rw [heq] at hcode ⊢
  obtain ⟨inum, inode, f, hinode, hnew, hw, hres⟩ := createFile_two hcode
  obtain ⟨hinum, hlt, hfree⟩ := hsup inum hinode
  have hentered := entered_of_walk hv hroot hlen hlt (by have := hinum.1; omega) hwalk hw
  refine ⟨dir, name, inum, inode, f, hinode, hnew, ?_, hentered, hres⟩
  rintro rfl
  have hdir := hentered.leads.isDir
  rw [isDir, hfree] at hdir
  exact absurd hdir (by decide)

theorem link_effect (hlen : ∀ name ∈ components path, direntSize name.length ≤ bsize)
    (hinum : inum < 2 ^ 32)
    (hinum' : inum ≠ 0) (hcode : (v.byName sup (.link inum) path).code = 2) :
    ∃ dir name f, Entered v path dir name inum f ∧
      v.byName sup (.link inum) path = ⟨2, dir, f, v.set dir f⟩ := by
  obtain ⟨hroot, dir, last, e, name, hwalk, heq⟩ := byName_absent (by simp) hcode
  rw [heq] at hcode ⊢
  obtain ⟨f, hw, hres⟩ := createLink_two hcode
  exact ⟨dir, name, f, entered_of_walk hv hroot hlen hinum hinum' hwalk hw, hres⟩

theorem delete_effect (hsafe : DeleteSafe v path) (hcode : (v.byName sup .delete path).code = 2) :
    ∃ dir name inum f, Vacated v path dir name inum f ∧
      v.byName sup .delete path = ⟨2, inum, (v.file inum).unlinked, v.set dir f⟩ ∧
      ∃ offset last e, v.walk true rootInode (components path) = .entry dir offset last e ∧
        e.inum = inum := by
  obtain ⟨hroot, dir, offset, last, e, hwalk, heq⟩ := byName_delete hcode
  rw [heq] at hcode ⊢
  obtain ⟨hval, f, hw, hres⟩ := deleteFile_two hcode
  have hstart := hsafe dir offset last e hwalk
  obtain ⟨-, hvalid, hdir, ds, name, hds, hfound, hsearch⟩ := walk_entry hwalk hroot
  obtain ⟨hvd, hsize⟩ := hv dir hvalid hdir
  obtain ⟨hmem, hrem⟩ := hvd.remove hsize hsearch hstart hw
  exact ⟨dir, name, e.inum, f, ⟨⟨ds, hds, hfound, hdir⟩, hvalid, hval, hmem, hrem⟩, hres,
    offset, last, e, hwalk, rfl⟩

end Effects

end RetroBSD.Fsutil
