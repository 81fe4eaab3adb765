import RetroBSD.ImagePaths
import RetroBSD.ImageMount
import Mathlib

/-!
# Requests to a mounted image and the calls they make

The paths that `op_mkdir` and `op_rmdir` build, and what a call of `fs_inode_by_name`
comes to when there are inodes and blocks enough: it succeeds, or it leaves the image as it
was.
-/

namespace RetroBSD.Fsutil

open LittleEndian List Volume

def dot : Name := [46]

def dotdot : Name := [46, 46]

variable {v v' : Volume} {path : List UInt8} {name : Name} {d dir inum mode offset last : ℕ}
  {e : Dirent} {f g : File} {sup : Supply}

/-! ## Paths as strings -/

theorem components_append (xs ys : List UInt8) :
    components (xs ++ 47 :: ys) = components xs ++ components ys := by
  rw [components, components, components, splitOnP_append_cons xs ys (by simp), filter_append]

theorem components_of_no_slash {xs : List UInt8} (hne : xs ≠ []) (h : ∀ x ∈ xs, x ≠ 47) :
    components xs = [xs] := by
  rw [components, splitOnP_eq_singleton (fun x hx => by simpa using h x hx)]
  simp [hne]

theorem components_dots (path : List UInt8) :
    components (path ++ [47, 46, 46]) = components path ++ [dotdot] := by
  rw [components_append]
  rfl

theorem components_parentPath (hne : path ≠ []) (hlast : path.getLast? ≠ some 47) :
    ∃ name, components path = components (parentPath path) ++ [name] := by
  have hsplit := takeWhile_append_dropWhile (p := fun x => decide (x ≠ (47 : UInt8)))
    (l := path.reverse)
  have htake : ∀ x ∈ path.reverse.takeWhile (fun x => decide (x ≠ 47)), x ≠ 47 := by
    intro x hx
    have h := mem_takeWhile_imp hx
    simpa using h
  cases hdrop : path.reverse.dropWhile (fun x => decide (x ≠ 47)) with
  | nil =>
    rw [hdrop, append_nil] at hsplit
    have hno : ∀ x ∈ path, x ≠ 47 := by
      intro x hx
      apply htake
      rw [hsplit]
      exact mem_reverse.2 hx
    refine ⟨path, ?_⟩
    rw [components_of_no_slash hne hno, parentPath, hdrop]
    rfl
  | cons c r =>
    have hc : c = 47 := by
      have hhead := head_dropWhile_not (p := fun x => decide (x ≠ (47 : UInt8))) (l := path.reverse)
      simp only [hdrop, head_cons] at hhead
      simpa using hhead
    subst hc
    generalize ht : path.reverse.takeWhile (fun x => decide (x ≠ 47)) = t at hsplit htake
    rw [hdrop] at hsplit
    have hpath : path = r.reverse ++ 47 :: t.reverse := by
      rw [← reverse_reverse path, ← hsplit]
      simp
    have htne : t ≠ [] := by
      rintro rfl
      apply hlast
      rw [hpath]
      simp
    refine ⟨t.reverse, ?_⟩
    have hparent : parentPath path = r.reverse := by
      rw [parentPath, hdrop]
      rfl
    rw [hparent, hpath, components_append, components_of_no_slash (by simpa using htne)
      (fun x hx => htake x (mem_reverse.1 hx))]

/-! ## Calls that have what they need -/

theorem write_total (f : File) (fresh : Memory) (offset : ℕ) (bs : List UInt8) :
    ∃ g, f.write (some fresh) offset bs = some g := by
  rw [File.write]
  split_ifs
  · exact ⟨_, rfl⟩
  · exact ⟨_, rfl⟩
  · exact ⟨_, rfl⟩

theorem writes_total (fresh : Memory) (f : File) (ws : List (ℕ × List UInt8)) :
    ∃ g, f.writes (some fresh) ws = (true, g) := by
  induction ws generalizing f with
  | nil => exact ⟨f, rfl⟩
  | cons w ws ih =>
    obtain ⟨offset, bs⟩ := w
    obtain ⟨g, hg⟩ := write_total f fresh offset bs
    rw [File.writes, hg]
    exact ih g

theorem insertEntry_total (f : File) (fresh : Memory) (last : ℕ) (e : Dirent) (inum : ℕ)
    (name : Name) : ∃ g, f.insertEntry (some fresh) last e inum name = (true, g) := by
  have hrec : ∃ g, f.insertRecord (some fresh) last e inum name = (true, g) := by
    rw [File.insertRecord]
    split_ifs
    · exact writes_total _ _ _
    · exact writes_total _ _ _
  obtain ⟨g, hg⟩ := hrec
  rw [File.insertEntry, hg]
  exact ⟨_, rfl⟩

def Supply.Full (sup : Supply) : Prop :=
  sup.inode.isSome ∧ sup.dotBlock.isSome ∧ sup.dirBlock.isSome

theorem newFile_total (hfull : sup.Full) (v : Volume) (inum mode : ℕ) :
    ∃ inode, v.newFile sup inum mode = some inode := by
  obtain ⟨-, hdot, -⟩ := hfull
  obtain ⟨fresh, hfresh⟩ := Option.isSome_iff_exists.1 hdot
  rw [newFile, hfresh]
  split_ifs
  · obtain ⟨g, hg⟩ := write_total ⟨createMode mode, 1, 0, (v.file inum).data⟩ fresh 0
      (Dirent.pack ⟨inum, bsize, 1⟩ ++ [46, 0, 0, 0])
    rw [hg]
    exact ⟨_, rfl⟩
  · exact ⟨_, rfl⟩

theorem createFile_total (hfull : sup.Full) (v : Volume) (dir last : ℕ) (e : Dirent) (name : Name)
    (mode : ℕ) : (v.createFile sup dir last e name mode).code = 2 := by
  obtain ⟨inum, hinum⟩ := Option.isSome_iff_exists.1 hfull.1
  obtain ⟨fresh, hfresh⟩ := Option.isSome_iff_exists.1 hfull.2.2
  obtain ⟨inode, hinode⟩ := newFile_total hfull v inum mode
  obtain ⟨g, hg⟩ := insertEntry_total (v.file dir) fresh last e inum name
  rw [createFile, hinum]
  dsimp only
  rw [hinode]
  rw [hfresh, hg]

theorem createLink_total (hfull : sup.dirBlock.isSome) (v : Volume) (dir last : ℕ) (e : Dirent)
    (name : Name) (inum : ℕ) : (v.createLink sup dir last e name inum).code = 2 := by
  obtain ⟨fresh, hfresh⟩ := Option.isSome_iff_exists.1 hfull
  obtain ⟨g, hg⟩ := insertEntry_total (v.file dir) fresh last e inum name
  rw [createLink, hfresh, hg]

/-- A record that the search found has one in front of it that can be made longer. -/
theorem removeEntry_total (hvalid : f.ValidDir) (hsize : 0 < f.size)
    (hs : f.search name = .found offset last e) : ∃ g, f.removeEntry last e = some g := by
  have hspec := search_spec hvalid.holds hsize name
  rw [hs] at hspec
  have hread : ∃ p : Entry, f.readDirent last = some p.head ∧ last + 8 ≤ f.size := by
    have htiles := hvalid.holds.tiles
    cases hspec with
    | @first r post hrs hyes =>
      rw [hrs] at htiles
      obtain ⟨⟨hat, hfits⟩, hrest⟩ := htiles
      have hle := hrest.le
      have hpos := hfits.pos
      exact ⟨r, readDirent_eq hat (by omega), by omega⟩
    | @next pre post p r mid hrs hyes hpre hp =>
      obtain ⟨⟨hat, hfits⟩, hrest⟩ := hp
      have hle := hrest.le
      have hpos := hfits.pos
      exact ⟨p, readDirent_eq hat (by omega), by omega⟩
  obtain ⟨p, hp, hle⟩ := hread
  have hblocks := size_le_nblocks f
  rw [File.removeEntry, hp, Option.bind_eq_bind, Option.bind_some, File.write,
    if_neg (Dirent.pack_ne_nil _), Dirent.length_pack, if_pos (by omega)]
  exact ⟨_, rfl⟩

/-! ## What a call comes to -/

theorem byName_eq_act (hroot : v.Valid rootInode) {op : Op} (hop : op ≠ .delete)
    (h : components path ≠ [] ∨ op = .lookup) :
    v.byName sup op path = v.act sup op (v.walk false rootInode (components path)) := by
  rw [byName, if_neg (not_not.2 hroot), if_neg, decide_eq_false hop]
  rintro ⟨hnil, hlook⟩
  rcases h with h | h
  · exact h hnil
  · exact hlook h

section Outcomes

variable (hv : v.ValidDirs) (hroot : v.Valid rootInode)

include hv hroot

theorem walk_false_cases (path : List UInt8) :
    (∃ i, v.Follows rootInode (components path) i ∧
      v.walk false rootInode (components path) = .found i) ∨
      ((∀ i, ¬v.Follows rootInode (components path) i) ∧
        (v.walk false rootInode (components path) = .failed ∨
          ∃ dir last e name, v.walk false rootInode (components path) =
            .absent dir last e name)) := by
  cases hw : v.walk false rootInode (components path) with
  | found i => exact .inl ⟨i, follows_of_walk hv hroot hw, rfl⟩
  | entry dir offset last e => exact absurd (walk_entry hw hroot).1 (by decide)
  | failed =>
    refine .inr ⟨?_, .inl rfl⟩
    intro i hi
    rw [walk_found hv hroot hi] at hw
    cases hw
  | absent dir last e name =>
    refine .inr ⟨?_, .inr ⟨_, _, _, _, rfl⟩⟩
    intro i hi
    rw [walk_found hv hroot hi] at hw
    cases hw

variable {i : ℕ}

theorem lookup_found (h : v.Follows rootInode (components path) i) :
    v.lookup path = ⟨1, i, v.file i, v⟩ := by
  rw [Volume.lookup, byName_eq_act hroot (by simp) (.inr rfl), walk_found hv hroot h]
  rfl

theorem lookup_cases (path : List UInt8) :
    (∃ i, v.Follows rootInode (components path) i ∧ v.lookup path = ⟨1, i, v.file i, v⟩) ∨
      ((∀ i, ¬v.Follows rootInode (components path) i) ∧ (v.lookup path).code = 0) := by
  rcases walk_false_cases hv hroot path with ⟨i, hi, hw⟩ | ⟨hno, hw | ⟨dir, last, e, name, hw⟩⟩
  · exact .inl ⟨i, hi, lookup_found hv hroot hi⟩
  · refine .inr ⟨hno, ?_⟩
    rw [Volume.lookup, byName_eq_act hroot (by simp) (.inr rfl), hw]
    rfl
  · refine .inr ⟨hno, ?_⟩
    rw [Volume.lookup, byName_eq_act hroot (by simp) (.inr rfl), hw]
    rfl

/-- The path is found, or made, or it cannot be made. -/
def Volume.FindsOrMakes (v : Volume) (sup : Supply) (op : Op) (path : List UInt8) : Prop :=
  (∃ i, v.Follows rootInode (components path) i ∧ v.byName sup op path = ⟨1, i, v.file i, v⟩) ∨
    ((∀ i, ¬v.Follows rootInode (components path) i) ∧
      ((v.byName sup op path).code = 2 ∨ v.byName sup op path = v.failure))

theorem byName_cases {op : Op} (hop : op ≠ .delete) (hcomp : components path ≠ [])
    (htotal : ∀ dir last e name, (v.act sup op (.absent dir last e name)).code = 2) :
    v.FindsOrMakes sup op path := by
  rw [Volume.FindsOrMakes, byName_eq_act hroot hop (.inl hcomp)]
  rcases walk_false_cases hv hroot path with ⟨i, hi, hw⟩ | ⟨hno, hw | ⟨dir, last, e, name, hw⟩⟩
  · refine .inl ⟨i, hi, ?_⟩
    rw [hw]
    rfl
  · refine .inr ⟨hno, .inr ?_⟩
    rw [hw]
    rfl
  · refine .inr ⟨hno, .inl ?_⟩
    rw [hw]
    exact htotal dir last e name

theorem create_cases (hfull : sup.Full) (hcomp : components path ≠ []) (mode : ℕ) :
    v.FindsOrMakes sup (.create mode) path :=
  byName_cases hv hroot (by simp) hcomp
    fun dir last e name => createFile_total hfull v dir last e name mode

theorem link_cases (hfull : sup.dirBlock.isSome) (hcomp : components path ≠ []) (inum : ℕ) :
    v.FindsOrMakes sup (.link inum) path :=
  byName_cases hv hroot (by simp) hcomp
    fun dir last e name => createLink_total hfull v dir last e name inum

variable {p : List Name}

theorem link_two (hfull : sup.dirBlock.isSome) (hcomp : components path = p ++ [name])
    (hp : v.Follows rootInode p dir) (hdir : v.Valid dir) (hisdir : (v.file dir).isDir)
    (hn : ∀ i, (name, i) ∉ (v.file dir).names) (inum : ℕ) :
    (v.byName sup (.link inum) path).code = 2 := by
  have habsent : ∃ last e, v.walk false rootInode (p ++ [name]) = .absent dir last e name :=
    walk_absent_of hv hroot hp hdir hisdir hn
  obtain ⟨last, e, hw⟩ := habsent
  rw [byName_eq_act hroot (by simp) (.inl (by rw [hcomp]; simp)), hcomp, hw]
  exact createLink_total hfull v dir last e name inum

theorem delete_two (hcomp : components path = p ++ [name]) (hp : v.Follows rootInode p dir)
    (hdir : v.Valid dir) (hisdir : (v.file dir).isDir) (hi : (name, i) ∈ (v.file dir).names)
    (hval : v.Valid i) (sup : Supply) : (v.byName sup .delete path).code = 2 := by
  obtain ⟨offset, last, e, hw, he, hs⟩ := walk_entry_of hv hroot hp hdir hisdir hi
  obtain ⟨hvd, hsize⟩ := hv dir hdir hisdir
  obtain ⟨g, hg⟩ := removeEntry_total hvd hsize hs
  have hne : ¬(components path = [] ∧ Op.delete ≠ .lookup) := by
    rw [hcomp]
    simp
  rw [byName, if_neg (not_not.2 hroot), if_neg hne, decide_eq_true rfl, hcomp, hw]
  change (v.deleteFile dir last e).code = 2
  rw [deleteFile, he, if_neg (not_not.2 hval), hg]

omit hv hroot in
theorem follows_valid (hd : v.Valid d) (h : v.Follows d p i) : v.Valid i := by
  induction p generalizing d with
  | nil =>
    obtain rfl := h
    exact hd
  | cons n p ih =>
    obtain ⟨-, j, -, hval, hrest⟩ := h
    exact ih hval hrest

omit hroot in
theorem follows_unique {j : ℕ} (hd : v.Valid d) (hi : v.Follows d p i) (hj : v.Follows d p j) :
    i = j := by
  have h := (walk_found hv hd hi).symm.trans (walk_found hv hd hj)
  cases h
  rfl

theorem LeadsTo.unique {n : Name} {d' : ℕ} (h : LeadsTo v path dir name)
    (hcomp : components path = p ++ [n]) (hp : v.Follows rootInode p d') : dir = d' ∧ name = n := by
  obtain ⟨ds, hds, hwalk, -⟩ := h
  rw [hcomp] at hds
  obtain ⟨rfl, hname⟩ := append_inj' hds rfl
  have hfollows := follows_of_walk hv hroot hwalk
  refine ⟨follows_unique hv hroot hfollows hp, ?_⟩
  cases hname
  rfl

theorem link_result (hfull : sup.dirBlock.isSome)
    (hlen : ∀ n ∈ components path, direntSize n.length ≤ bsize) (hinum : inum < 2 ^ 32)
    (hinum' : inum ≠ 0)
    (hcomp : components path = p ++ [name]) (hp : v.Follows rootInode p dir)
    (hisdir : (v.file dir).isDir) (hn : ∀ i, (name, i) ∉ (v.file dir).names) :
    ∃ f, Entered v path dir name inum f ∧
      v.byName sup (.link inum) path = ⟨2, dir, f, v.set dir f⟩ := by
  have hcode := link_two hv hroot hfull hcomp hp (follows_valid hroot hp) hisdir hn inum
  obtain ⟨dir', name', f, hent, hres⟩ := link_effect hv hlen hinum hinum' hcode
  obtain ⟨rfl, rfl⟩ := hent.leads.unique hv hroot hcomp hp
  exact ⟨f, hent, hres⟩

theorem delete_result (hsafe : DeleteSafe v path) (hcomp : components path = p ++ [name])
    (hp : v.Follows rootInode p dir) (hisdir : (v.file dir).isDir)
    (hi : (name, i) ∈ (v.file dir).names) (hval : v.Valid i) :
    ∃ f, Vacated v path dir name i f ∧
      v.deleteAndSave path = (none, (v.set dir f).save i (v.file i).unlinked) := by
  have hcode := delete_two hv hroot hcomp hp (follows_valid hroot hp) hisdir hi hval noSupply
  obtain ⟨dir', name', i', f, hvac, hres, -⟩ := delete_effect hv hsafe hcode
  obtain ⟨rfl, rfl⟩ := hvac.leads.unique hv hroot hcomp hp
  obtain rfl := names_functional (hv dir' hvac.valid hisdir).1 hvac.mem hi
  refine ⟨f, hvac, ?_⟩
  rw [deleteAndSave, if_neg (by rw [hcode]; decide), hres]

end Outcomes

end RetroBSD.Fsutil
