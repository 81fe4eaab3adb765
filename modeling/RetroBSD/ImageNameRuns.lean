import RetroBSD.ImagePaths
import RetroBSD.Runs

/-!
# Histories of calls of `fs_inode_by_name`

Calls that create, link and delete names, from the image that `fs_create` makes. After a
deletion the caller saves the inode, as the callers in `tools/fsutil` do. Every directory
stays valid, and each call changes the names of one directory by one entry, as long as no
deleted record begins a block and no directory loses its last link with an entry for itself.
-/

namespace RetroBSD.Fsutil

open Runs LittleEndian

inductive Call
  | create (path : List UInt8) (mode : ℕ) (sup : Supply)
  | link (path : List UInt8) (inum : ℕ) (sup : Supply)
  | delete (path : List UInt8)

namespace Call

def path : Call → List UInt8
  | create path _ _ => path
  | link path _ _ => path
  | delete path => path

def run (v : Volume) : Call → Result
  | create path mode sup => v.byName sup (.create mode) path
  | link path inum sup => v.byName sup (.link inum) path
  | delete path =>
    let r := v.byName ⟨none, none, none⟩ .delete path
    { r with vol := r.vol.save r.number r.inode }

def Ok (v : Volume) : Call → Prop
  | create _ _ sup => sup.Fits v
  | link _ inum _ => inum ≠ 0 ∧ inum < 2 ^ 32
  | delete _ => True

instance (v : Volume) : (c : Call) → Decidable (c.Ok v)
  | create _ _ ⟨none, _, _⟩ => isTrue (by simp [Ok, Supply.Fits])
  | create _ _ ⟨some inum, _, _⟩ =>
    decidable_of_iff (v.Valid inum ∧ inum < 2 ^ 32 ∧ (v.file inum).mode = 0)
      (by simp [Ok, Supply.Fits])
  | link _ _ _ => inferInstanceAs (Decidable (_ ∧ _))
  | delete _ => isTrue trivial

end Call

/-- A successful call with names of at most 63 bytes. -/
def CallStep (v : Volume) (c : Call) (v' : Volume) : Prop :=
  c.Ok v ∧ (∀ name ∈ components c.path, name.length ≤ 63) ∧ (c.run v).code = 2 ∧ v' = (c.run v).vol

/-- A deleted entry does not begin a block, and is not the last link of its own directory. -/
def Call.Safe (v : Volume) (c : Call) : Prop :=
  ∀ path, c = .delete path → DeleteSafe v path ∧
    ∀ dir offset last e, v.walk true rootInode (components path) = .entry dir offset last e →
      e.inum = dir → (v.file dir).nlink % 2 ^ 16 ≠ 1

def SafeCallStep (v : Volume) (c : Call) (v' : Volume) : Prop := CallStep v c v' ∧ c.Safe v

/-- The directories but those in `ds` are as before: they stay directories and keep their names,
and no file becomes one. -/
def SameNames (v v' : Volume) (ds : List ℕ) : Prop :=
  ∀ d, d ∉ ds → ((v'.file d).isDir ↔ (v.file d).isDir) ∧
    ((v.file d).isDir → (v'.file d).names = (v.file d).names)

def NameAdded (v v' : Volume) (d : ℕ) (name : Name) (inum : ℕ) : Prop :=
  (∀ i, (name, i) ∉ (v.file d).names) ∧ (v'.file d).isDir ∧
    (v'.file d).names = insert (name, inum) (v.file d).names

/-- What a call does to the names of the directory `d` that the path leads to and to those
of the others. A new directory has one name, for itself, and a directory whose last link is
deleted is one no more. -/
def CallChange (v : Volume) (v' : Volume) (d : ℕ) (name : Name) : Call → Prop
  | .create _ _ sup => ∃ inum, sup.inode = some inum ∧ NameAdded v v' d name inum ∧
      SameNames v v' [d, inum] ∧ ((v'.file inum).isDir → (v'.file inum).names = {([46], inum)})
  | .link _ inum _ => NameAdded v v' d name inum ∧ SameNames v v' [d]
  | .delete _ => ∃ inum, (name, inum) ∈ (v.file d).names ∧ (v'.file d).isDir ∧
      (v'.file d).names = (v.file d).names.erase (name, inum) ∧ SameNames v v' [d, inum] ∧
      (inum ≠ d →
        ((v'.file inum).isDir ↔ (v.file inum).isDir ∧ (v.file inum).nlink % 2 ^ 16 ≠ 1) ∧
        ((v'.file inum).isDir → (v'.file inum).names = (v.file inum).names))

variable {v v' : Volume} {c : Call} {path : List UInt8} {names : List Name} {name : Name}
  {del : Bool} {d dir inum mode offset last : ℕ} {e : Dirent} {f g : File} {sup : Supply}

/-! ## One call -/

theorem direntSize_le (h : name.length ≤ 63) : direntSize name.length ≤ bsize := by
  unfold direntSize bsize
  omega

theorem create_step (hv : v.ValidDirs) (hok : (Call.create path mode sup).Ok v)
    (hlen : ∀ name ∈ components path, name.length ≤ 63)
    (hcode : (v.byName sup (.create mode) path).code = 2) :
    (v.byName sup (.create mode) path).vol.ValidDirs ∧ ∃ d name, LeadsTo v path d name ∧
      CallChange v (v.byName sup (.create mode) path).vol d name (.create path mode sup) := by
  obtain ⟨dir, name, inum, inode, f, hinode, hnew, hne, hentered, hres⟩ :=
    create_effect hv (fun n hn => direntSize_le (hlen n hn)) hok hcode
  rw [hres]
  obtain ⟨hinum, hlt, -⟩ := hok inum hinode
  have hnewspec : inode.isDir → inode.ValidDir ∧ 0 < inode.size ∧ inode.names = {([46], inum)} :=
    newFile_spec hlt (by have := hinum.1; omega) hnew
  have hfile : ((v.set inum inode).set dir f).file dir = f := set_file_self _ _ _
  have hfile' : ((v.set inum inode).set dir f).file inum = inode := by
    rw [set_file_of_ne _ _ hne, set_file_self]
  constructor
  · have hset : (v.set inum inode).ValidDirs := hv.set fun h => ⟨(hnewspec h).1, (hnewspec h).2.1⟩
    exact hset.set fun _ => hentered.validDir hv
  · refine ⟨dir, name, hentered.leads, inum, hinode, ⟨hentered.absent, ?_, ?_⟩, ?_, ?_⟩
    · rw [hfile, isDir_congr hentered.inserted.mode]
      exact hentered.leads.isDir
    · rw [hfile, hentered.inserted.names]
    · intro d hd
      simp only [List.mem_cons, List.not_mem_nil, or_false, not_or] at hd
      rw [set_file_of_ne _ _ hd.1, set_file_of_ne _ _ hd.2]
      exact ⟨.rfl, fun _ => rfl⟩
    · rw [hfile']
      exact fun h => (hnewspec h).2.2

theorem link_step (hv : v.ValidDirs) (hok : (Call.link path inum sup).Ok v)
    (hlen : ∀ name ∈ components path, name.length ≤ 63)
    (hcode : (v.byName sup (.link inum) path).code = 2) :
    (v.byName sup (.link inum) path).vol.ValidDirs ∧ ∃ d name, LeadsTo v path d name ∧
      CallChange v (v.byName sup (.link inum) path).vol d name (.link path inum sup) := by
  obtain ⟨dir, name, f, hentered, hres⟩ := link_effect hv (fun n hn => direntSize_le (hlen n hn))
    hok.2 hok.1 hcode
  rw [hres]
  have hfile : (v.set dir f).file dir = f := set_file_self _ _ _
  refine ⟨hv.set fun _ => hentered.validDir hv, dir, name, hentered.leads,
    ⟨hentered.absent, ?_, ?_⟩, ?_⟩
  · rw [hfile, isDir_congr hentered.inserted.mode]
    exact hentered.leads.isDir
  · rw [hfile, hentered.inserted.names]
  · intro d hd
    rw [List.mem_singleton] at hd
    rw [set_file_of_ne _ _ hd]
    exact ⟨.rfl, fun _ => rfl⟩

theorem delete_step (hv : v.ValidDirs) (hsafe : (Call.delete path).Safe v)
    (hcode : ((Call.delete path).run v).code = 2) :
    ((Call.delete path).run v).vol.ValidDirs ∧ ∃ d name, LeadsTo v path d name ∧
      CallChange v ((Call.delete path).run v).vol d name (.delete path) := by
  obtain ⟨hstart, hlast⟩ := hsafe path rfl
  obtain ⟨dir, name, inum, f, hvac, hres, offset, last, e, hwalk, he⟩ :=
    delete_effect hv hstart hcode
  have hself : inum = dir → (v.file dir).nlink % 2 ^ 16 ≠ 1 :=
    fun h => hlast dir offset last e hwalk (he.trans h)
  obtain ⟨inode, hinode⟩ : ∃ inode, inode = (v.file inum).unlinked := ⟨_, rfl⟩
  have hleft : inode.isDir ↔ (v.file inum).isDir ∧ (v.file inum).nlink % 2 ^ 16 ≠ 1 := by
    rw [hinode]
    exact unlinked_isDir_iff
  -- The inode that lost a link has its bytes still, unless it was cleared.
  have hsize : inode.isDir → inode.size = (v.file inum).size := by
    rw [hinode]
    exact fun h => (unlinked_isDir h).2
  -- The directory has the bytes of `f`, also when it is the one that lost a link.
  have hfile : ∃ n, ((v.set dir f).save inum inode).file dir = ⟨f.mode, n, f.size, f.data⟩ := by
    by_cases heq : inum = dir
    · subst heq
      refine ⟨inode.nlink, ?_⟩
      rw [Volume.save, set_file_self, set_file_self, hinode, unlinked_of_left (hself rfl),
        hvac.removed.size, hvac.removed.mode]
    · exact ⟨f.nlink, by rw [Volume.save, set_file_of_ne _ _ (Ne.symm heq), set_file_self]⟩
  obtain ⟨n, hfile⟩ := hfile
  have hother : inum ≠ dir → ((v.set dir f).save inum inode).file inum =
      ⟨inode.mode, inode.nlink, inode.size, (v.file inum).data⟩ := by
    intro hne
    rw [Volume.save, set_file_self, set_file_of_ne _ _ hne]
  have hvol : ((Call.delete path).run v).vol = (v.set dir f).save inum inode := by
    rw [Call.run, hres, hinode]
  obtain ⟨hdirf, hpos⟩ := hvac.validDir hv
  rw [hvol]
  refine ⟨?_, dir, name, hvac.leads, inum, hvac.mem, ?_, ?_, ?_, fun hne => ⟨?_, fun hdir => ?_⟩⟩
  · intro d hd hdir
    by_cases h1 : d = dir
    · subst h1
      rw [hfile]
      exact ⟨validDir_congr (f := f) rfl rfl hdirf, hpos⟩
    · by_cases h2 : d = inum
      · subst h2
        rw [hother h1] at hdir ⊢
        obtain ⟨hvalid, hpos'⟩ := hv d hd (hleft.1 hdir).1
        exact ⟨validDir_congr (hsize hdir) rfl hvalid, hpos'.trans_eq (hsize hdir).symm⟩
      · rw [Volume.save, set_file_of_ne _ _ h2, set_file_of_ne _ _ h1] at hdir ⊢
        exact hv d hd hdir
  · rw [hfile]
    exact (isDir_congr hvac.removed.mode).2 hvac.leads.isDir
  · rw [hfile, ← hvac.removed.names]
    exact names_congr (f := f) rfl rfl
  · intro d hd
    simp only [List.mem_cons, List.not_mem_nil, or_false, not_or] at hd
    rw [Volume.save, set_file_of_ne _ _ hd.2, set_file_of_ne _ _ hd.1]
    exact ⟨.rfl, fun _ => rfl⟩
  · rw [hother hne]
    exact hleft
  · rw [hother hne] at hdir ⊢
    exact names_congr (hsize hdir) rfl

theorem safeCallStep_spec (hv : v.ValidDirs) (h : SafeCallStep v c v') :
    v'.ValidDirs ∧ ∃ d name, LeadsTo v c.path d name ∧ CallChange v v' d name c := by
  obtain ⟨⟨hok, hlen, hcode, rfl⟩, hsafe⟩ := h
  cases c with
  | create path mode sup => exact create_step hv hok hlen hcode
  | link path inum sup => exact link_step hv hok hlen hcode
  | delete path => exact delete_step hv hsafe hcode

theorem Call.safe_create (v : Volume) (path : List UInt8) (mode : ℕ) (sup : Supply) :
    (Call.create path mode sup).Safe v := by
  intro p hc
  cases hc

theorem Call.safe_delete
    (hwalk : v.walk true rootInode (components path) = .entry dir offset last e)
    (hstart : offset % bsize ≠ 0) (hself : e.inum ≠ dir) : (Call.delete path).Safe v := by
  intro p hc
  cases hc
  refine ⟨fun d o l e' hw => ?_, fun d o l e' hw heq => ?_⟩
  · rw [hwalk] at hw
    cases hw
    exact hstart
  · rw [hwalk] at hw
    cases hw
    exact absurd heq hself

/-! ## Histories -/

theorem fsCreate_validDirs (fsize swapsz : ℕ) (raw : Memory) :
    (fsCreate fsize swapsz raw).ValidDirs := by
  intro d _ hdir
  unfold fsCreate at hdir ⊢
  dsimp only at hdir ⊢
  by_cases h1 : d = 1
  · rw [if_pos h1] at hdir
    exact absurd hdir (by decide : ¬fileType modeFreg = modeFdir)
  rw [if_neg h1] at hdir ⊢
  by_cases h2 : d = rootInode
  · rw [if_pos h2]
    by_cases hswap : swapsz ≠ 0
    · rw [rootBlock, if_pos hswap]
      decide +kernel
    · rw [rootBlock, if_neg hswap]
      decide +kernel
  rw [if_neg h2] at hdir ⊢
  by_cases h3 : d = lostfoundInode
  · rw [if_pos h3]
    decide +kernel
  split_ifs at hdir
  · exact absurd hdir (by decide : ¬fileType (modeFreg ||| 0o400) = modeFdir)
  · exact absurd hdir (by decide : ¬fileType 0 = modeFdir)

/-- In every history of calls that meet the condition the directories are valid, and the
next such call changes the names by one entry. -/
theorem run_keeps_directories {fsize swapsz : ℕ} {raw : Memory} {cs : List Call}
    (hrun : Run SafeCallStep (fsCreate fsize swapsz raw) cs v) :
    v.ValidDirs ∧ ∀ c v', SafeCallStep v c v' →
      ∃ d name, LeadsTo v c.path d name ∧ CallChange v v' d name c := by
  have hv := hrun.invariant (I := Volume.ValidDirs) (fun _ _ _ hs h => (safeCallStep_spec hs h).1)
    (fsCreate_validDirs fsize swapsz raw)
  exact ⟨hv, fun c v' h => (safeCallStep_spec hv h).2⟩

/-- A file in the root directory is created and deleted. -/
theorem run_keeps_directories_file :
    let v := fsCreate 512 0 fun _ => 0
    let c : Call := .create [47, 97] 0o644 ⟨some 4, none, none⟩
    let c' : Call := .delete [47, 97]
    let v' := (c.run v).vol
    Run SafeCallStep v [c] v' ∧ v'.ValidDirs ∧ SafeCallStep v' c' (c'.run v').vol ∧
      ∃ d name, LeadsTo v' c'.path d name ∧ CallChange v' (c'.run v').vol d name c' := by
  intro v c c' v'
  have hcode : (c.run v).code = 2 := by decide +kernel
  have hcode' : (c'.run v').code = 2 := by decide +kernel
  have hwalk : v'.walk true rootInode (components [47, 97]) =
    .entry rootInode 44 24 ⟨4, 980, 1⟩ := by decide +kernel
  have hstep : SafeCallStep v c v' :=
    ⟨⟨by decide +kernel, by decide +kernel, hcode, rfl⟩, Call.safe_create _ _ _ _⟩
  have hstep' : SafeCallStep v' c' (c'.run v').vol :=
    ⟨⟨trivial, by decide +kernel, hcode', rfl⟩, Call.safe_delete hwalk (by decide) (by decide)⟩
  have hrun : Run SafeCallStep v [c] v' := .cons hstep (.nil v')
  obtain ⟨hvalid, hchange⟩ := run_keeps_directories hrun
  exact ⟨hrun, hvalid, hstep', hchange c' _ hstep'⟩

def runCalls : Volume → List Call → Option Volume
  | v, [] => some v
  | v, c :: cs =>
    if c.Ok v ∧ (∀ name ∈ components c.path, name.length ≤ 63) ∧ (c.run v).code = 2 then
      runCalls (c.run v).vol cs
    else none

theorem runCalls_run {cs : List Call} (h : runCalls v cs = some v') : Run CallStep v cs v' := by
  induction cs generalizing v with
  | nil =>
    obtain rfl := Option.some.inj h
    exact .nil v
  | cons c cs ih =>
    rw [runCalls] at h
    split_ifs at h with hstep
    exact .cons ⟨hstep.1, hstep.2.1, hstep.2.2, rfl⟩ (ih h)

def longName (k : ℕ) : Name := UInt8.ofNat (65 + k) :: List.replicate 62 97

/-- Fourteen files with names of 63 bytes, the last of them in a second block, which is then
deleted. -/
def crossCalls : List Call :=
  (List.range 14).map (fun k =>
    .create (47 :: longName k) 0o644 ⟨some (4 + k), none, some fun _ => 0⟩) ++
  [.delete (47 :: longName 13)]

theorem crossCalls_run :
    ∃ v, runCalls (fsCreate 512 0 fun _ => 0) crossCalls = some v ∧
      ¬(v.file rootInode).ValidDir := by
  have h : ((runCalls (fsCreate 512 0 fun _ => 0) crossCalls).map fun v =>
      decide (v.file rootInode).ValidDir) = some false := by decide +kernel
  obtain ⟨v, hv, hvalid⟩ := Option.map_eq_some_iff.1 h
  exact ⟨v, hv, of_decide_eq_false hvalid⟩

/-- The last record of the first block then reaches over the second. -/
theorem deletion_crosses_block :
    ∃ v, Run CallStep (fsCreate 512 0 fun _ => 0) crossCalls v ∧ ¬(v.file rootInode).ValidDir := by
  obtain ⟨v, hv, hvalid⟩ := crossCalls_run
  exact ⟨v, runCalls_run hv, hvalid⟩

end RetroBSD.Fsutil
