import RetroBSD.PathLookup

/-!
# System calls on names

`link`, `maknode`, `mkdir` and `rename` of `sys/kernel/ufs_syscalls.c`, with `direnter`,
`dirremove`, `dirrewrite`, `dirempty` and `checkpath` of `sys/kernel/ufs_namei.c`, each as one
step of a single process. Where an operation on the disk or the allocation of an inode can fail,
the outcome is given by `Faults`. The times, the order of the writes and the groups are left
out; an inode that is neither linked nor held is freed at once.
-/

namespace RetroBSD.Names

open Function

/-- How the parts of a call that depend on the disk end: an error, or 0. `ialloc` is the
number of the inode found on a device, or the error. -/
structure Faults where
  first : ℕ
  second : ℕ
  third : ℕ
  last : ℕ
  ialloc : ℕ → Except ℕ ℕ
  template : ℕ
  enter : ℕ
  rewrite : ℕ
  path : ℕ
  readDotdot : ℕ
  writeDotdot : ℕ
  remove : ℕ

def lookup (s : State) (c : Caller) (fault : ℕ) (nd : Nameiop) (path : Name) : Except ℕ Found :=
  if fault ≠ 0 then .error fault else namei s c nd path

/-- `namei` with `u_error` set to `uError`. If that is an error already, `blkatoff` gives up in
the first directory that is searched, after a read of its own that may fail too. -/
def lookupAgain (uError : ℕ) (s : State) (c : Caller) (fault : ℕ) (nd : Nameiop) (path : Name) :
    Except ℕ Found :=
  if uError ≠ 0 then .error (if fault ≠ 0 then fault else uError) else lookup s c fault nd path

def State.modify (s : State) (id : Id) (f : Inode → Inode) : State :=
  { s with inode := update s.inode id (f (s.inode id)) }

@[simp] theorem inode_modify_self (s : State) (id : Id) (f : Inode → Inode) :
    (s.modify id f).inode id = f (s.inode id) := update_self _ _ _

theorem inode_modify_of_ne (s : State) (f : Inode → Inode) {id i : Id} (h : i ≠ id) :
    (s.modify id f).inode i = s.inode i := update_of_ne h _ _

def Inode.setNlink (ip : Inode) (nlink : UInt16) : Inode := { ip with nlink := nlink }

def Inode.setEntries (ip : Inode) (entries : List Entry) : Inode := { ip with entries := entries }

def Inode.setRename (ip : Inode) (flag : Bool) : Inode := { ip with irename := flag }

def State.incr (s : State) (id : Id) : State := s.modify id fun ip => ip.setNlink (ip.nlink + 1)

def State.decr (s : State) (id : Id) : State := s.modify id fun ip => ip.setNlink (ip.nlink - 1)

def noInode : Inode := ⟨.free, 0, [], [], false, false, false, false, 0⟩

/-- `irele` of the reference the call had: without another one, an inode without links is
freed, and the flags are cleared in any case. -/
def State.irele (s : State) (c : Caller) (id : Id) : State :=
  if c.held id then s
  else s.modify id fun ip => if ip.nlink = 0 then noInode else ip.setRename false

/-! ## Directories -/

/-- `direnter`, when there is room. -/
def State.direnter (s : State) (dp : Id) (name : Name) (ino : ℕ) : State :=
  s.modify dp fun ip => ip.setEntries (ip.entries ++ [⟨name, ino⟩])

def State.dirremove (s : State) (dp : Id) (name : Name) : State :=
  s.modify dp fun ip => ip.setEntries (ip.entries.eraseP fun e => e.name = name)

def rewriteEntry (name : Name) (ino : ℕ) : List Entry → List Entry
  | [] => []
  | e :: es => if e.name = name then ⟨e.name, ino⟩ :: es else e :: rewriteEntry name ino es

def State.dirrewrite (s : State) (dp : Id) (name : Name) (ino : ℕ) : State :=
  s.modify dp fun ip => ip.setEntries (rewriteEntry name ino ip.entries)

/-- `dirempty`: nothing but "." and a ".." that refers to `parentino`. -/
def dirempty (entries : List Entry) (parentino : ℕ) : Bool :=
  entries.all fun e => e.name = dot || (e.name = dotdot && e.ino = parentino)

def dotdotIno : List Entry → Option ℕ
  | _ :: e :: _ => if e.name = dotdot then some e.ino else none
  | _ => none

def setDotdotIno (ino : ℕ) : List Entry → List Entry
  | d :: e :: es => d :: ⟨e.name, ino⟩ :: es
  | es => es

/-- The loop of `checkpath` from `ip` upwards. It ends, if at all, before it has seen every
inode. -/
def checkpathLoop (s : State) (fault source : ℕ) : ℕ → Id → Option ℕ
  | 0, _ => none
  | fuel + 1, ip =>
    if (s.inode ip).type ≠ .dir then some enotdir
    else if fault ≠ 0 then some fault
    else
      match dotdotIno (s.inode ip).entries with
      | none => some enotdir
      | some ino =>
        if ino = source then some einval
        else if ino = rootino then some 0
        else checkpathLoop s fault source fuel (s.iget ip.dev ino)

def checkpath (s : State) (fault : ℕ) (source target : Id) : Option ℕ :=
  if target.ino = source.ino then some eexist
  else if target.ino = rootino then some 0
  else checkpathLoop s fault source.ino s.ninode target

/-! ## Links and files -/

def link (s : State) (c : Caller) (f : Faults) (target linkname : Name) : ℕ × State :=
  match lookup s c f.first ⟨.lookup, false, true⟩ target with
  | .error e => (e, s)
  | .ok ⟨_, _, none⟩ => (enoent, s)
  | .ok ⟨_, _, some ip⟩ =>
    if (s.inode ip).type = .dir ∧ c.uid ≠ 0 then (eperm, s)
    else if (s.inode ip).frozen then (eperm, s)
    else
      let s₁ := s.incr ip
      match lookup s₁ c f.second ⟨.create, false, false⟩ linkname with
      | .error e => (e, (s₁.decr ip).irele c ip)
      | .ok ⟨_, _, some _⟩ => (eexist, (s₁.decr ip).irele c ip)
      | .ok ⟨dp, name, none⟩ =>
        if dp.dev ≠ ip.dev then (exdev, (s₁.decr ip).irele c ip)
        else if f.enter ≠ 0 then (f.enter, (s₁.decr ip).irele c ip)
        else (0, (s₁.direnter dp name ip.ino).irele c ip)

def maknode (s : State) (c : Caller) (f : Faults) (pdir : Id) (name : Name) (type : FileType)
    (text : Name) : ℕ × State :=
  match f.ialloc pdir.dev with
  | .error e => (e, s)
  | .ok n =>
    let ip : Id := ⟨pdir.dev, n⟩
    let s₁ := s.modify ip fun _ => ⟨type, 1, [], text, false, false, false, false, c.uid⟩
    if f.enter ≠ 0 then (f.enter, (s₁.modify ip fun ip => ip.setNlink 0).irele c ip)
    else (0, (s₁.direnter pdir name n).irele c ip)

/-- `mknod` and `symlink` up to the size of the link. -/
def mknod (s : State) (c : Caller) (f : Faults) (fname : Name) (type : FileType) (text : Name) :
    ℕ × State :=
  match lookup s c f.first ⟨.create, false, false⟩ fname with
  | .error e => (e, s)
  | .ok ⟨_, _, some _⟩ => (eexist, s)
  | .ok ⟨pdir, name, none⟩ => maknode s c f pdir name type text

/-! ## Directories as a whole -/

/-- `mkdir`. When the name cannot be entered, it is looked up again, while `u_error` still says
why. -/
def mkdir (s : State) (c : Caller) (f : Faults) (path : Name) : ℕ × State :=
  match lookup s c f.first ⟨.create, false, false⟩ path with
  | .error e => (e, s)
  | .ok ⟨_, _, some _⟩ => (eexist, s)
  | .ok ⟨dp, name, none⟩ =>
    match f.ialloc dp.dev with
    | .error e => (e, s)
    | .ok n =>
      let ip : Id := ⟨dp.dev, n⟩
      let s₁ := (s.modify ip fun _ => ⟨.dir, 2, [], [], false, false, false, false, c.uid⟩).incr dp
      let unlinked (s : State) : State := (s.modify ip fun ip => ip.setNlink 0).irele c ip
      if f.template ≠ 0 then (f.template, unlinked (s₁.decr dp))
      else
        let s₂ := s₁.modify ip fun ip => ip.setEntries [⟨dot, n⟩, ⟨dotdot, dp.ino⟩]
        if f.enter ≠ 0 then
          match lookupAgain f.enter s₂ c f.second ⟨.lookup, false, false⟩ path with
          | .error e => (e, unlinked s₂)
          | .ok ⟨_, _, none⟩ => (f.enter, unlinked s₂)
          | .ok ⟨_, _, some dp⟩ => (f.enter, unlinked (s₂.decr dp))
        else (0, (s₂.direnter dp name n).irele c ip)

/-! ## Rename -/

structure Source where
  dp : Id
  name : Name
  ip : Id
  deriving DecidableEq

def renameSource (s : State) (c : Caller) (f : Faults) (src : Name) : Except ℕ Source :=
  match lookup s c f.first ⟨.delete, true, false⟩ src with
  | .error e => .error e
  | .ok ⟨_, _, none⟩ => .error enoent
  | .ok ⟨dp, name, some ip⟩ =>
    if (s.inode ip).frozen ∨ (s.inode dp).append then .error eperm
    else if (s.inode ip).type = .dir ∧
        (name = dot ∨ name = dotdot ∨ dp = ip ∨ (s.inode ip).irename) then .error einval
    else .ok ⟨dp, name, ip⟩

/-- The target of a rename. `newparent` is 0 when ".." of the source need not change. -/
structure Target where
  dp : Id
  name : Name
  xp : Option Id
  newparent : ℕ
  deriving DecidableEq

/-- The checks of an existing target. An error of 0 is the short circuit for a rename of
an inode to itself. -/
def checkExisting (s : State) (c : Caller) (doingdirectory : Bool) (ip dp xp : Id) : Option ℕ :=
  if xp.dev ≠ dp.dev ∨ xp.dev ≠ ip.dev then some exdev
  else if xp.ino = ip.ino then some 0
  else if s.stickyDenies c dp xp then some eperm
  else if (s.inode xp).type = .dir then
    if dirempty (s.inode xp).entries dp.ino = false ∨ 2 < (s.inode xp).nlink then some enotempty
    else if doingdirectory = false then some enotdir
    else none
  else if doingdirectory then some eisdir
  else none

/-- The test that the source is not above the target, when ".." has to change; the lookup
after it finds what the one before it did. -/
def checkMove (s : State) (c : Caller) (f : Faults) (doingdirectory : Bool) (ip dp : Id)
    (newparent : ℕ) : Option ℕ :=
  if doingdirectory ∧ newparent ≠ 0 then
    if c.access .write ip ≠ 0 then some (c.access .write ip)
    else
      match checkpath s f.path ip dp with
      | none => none
      | some e => if e ≠ 0 then some e else some f.third
  else some 0

/-- The lookup and the checks of the target. There is no answer if `checkpath` does not
end. -/
def renameTarget (s : State) (c : Caller) (f : Faults) (a : Source) (doingdirectory : Bool)
    (dst : Name) : Option (Except ℕ Target) :=
  match lookup s c f.second ⟨.create, true, false⟩ dst with
  | .error e => some (.error e)
  | .ok ⟨dp, name, xp⟩ =>
    if xp.any fun x => (s.inode x).frozen || (s.inode dp).append then some (.error eperm)
    else
      let oldparent := if doingdirectory then a.dp.ino else 0
      let newparent := if oldparent ≠ dp.ino then dp.ino else 0
      match checkMove s c f doingdirectory a.ip dp newparent with
      | none => none
      | some e =>
        if e ≠ 0 then some (.error e)
        else
          match xp with
          | none =>
            if dp.dev ≠ a.ip.dev then some (.error exdev)
            else some (.ok ⟨dp, name, none, newparent⟩)
          | some x =>
            match checkExisting s c doingdirectory a.ip dp x with
            | some e => some (.error e)
            | none => some (.ok ⟨dp, name, some x, newparent⟩)

/-- The labels `bad`, `bad1` and `out`. -/
def giveUp (s : State) (c : Caller) (ip : Id) : State := (s.decr ip).irele c ip

/-- The part of `rename` that gives the source its new name: an error, or the new state. A
target that is a directory with links left would be a panic. -/
def renameEnter (s : State) (c : Caller) (f : Faults) (doingdirectory : Bool) (ip : Id)
    (b : Target) : Option (Except (ℕ × State) State) :=
  match b.xp with
  | none =>
    let s := if doingdirectory ∧ b.newparent ≠ 0 then s.incr b.dp else s
    if f.enter ≠ 0 then some (.error (f.enter, s)) else some (.ok (s.direnter b.dp b.name ip.ino))
  | some x =>
    if f.rewrite ≠ 0 then some (.error (f.rewrite, s))
    else
      let s := (s.dirrewrite b.dp b.name ip.ino).decr x
      if doingdirectory then
        let s := s.decr x
        if (s.inode x).nlink ≠ 0 then none
        else some (.ok ((s.modify x fun xp => xp.setEntries []).irele c x))
      else some (.ok (s.irele c x))

def moveDotdot (s : State) (f : Faults) (ip dp : Id) (newparent : ℕ) : ℕ × State :=
  let s := s.decr dp
  if f.readDotdot ≠ 0 then (f.readDotdot, s)
  else if (dotdotIno (s.inode ip).entries).isSome ∧ f.writeDotdot = 0 then
    (0, s.modify ip fun ip => ip.setEntries (setDotdotIno newparent ip.entries))
  else (0, s)

/-- The part that removes the old name. For a directory that is not found again it is a
panic. -/
def renameLast (s : State) (c : Caller) (f : Faults) (doingdirectory : Bool) (ip : Id)
    (newparent : ℕ) (src : Name) : Option (ℕ × State) :=
  match lookup s c f.last ⟨.delete, true, false⟩ src with
  | .error e => if doingdirectory then none else some (e, s.irele c ip)
  | .ok ⟨dp, name, xp⟩ =>
    if xp ≠ some ip then if doingdirectory then none else some (0, s.irele c ip)
    else
      let r := if doingdirectory ∧ newparent ≠ 0 then moveDotdot s f ip dp newparent else (0, s)
      let s := if f.remove = 0 then (r.2.dirremove dp name).decr ip else r.2
      some (if r.1 = 0 then f.remove else r.1,
        (s.modify ip fun ip => ip.setRename false).irele c ip)

/-- `rename`: the error and the state it leaves, or nothing if it does not return. -/
def rename (s : State) (c : Caller) (f : Faults) (src dst : Name) : Option (ℕ × State) :=
  match renameSource s c f src with
  | .error e => some (e, s)
  | .ok a =>
    let doingdirectory : Bool := (s.inode a.ip).type = .dir
    let s₁ := (s.modify a.ip fun ip => ip.setRename (ip.irename || doingdirectory)).incr a.ip
    match renameTarget s₁ c f a doingdirectory dst with
    | none => none
    | some (.error e) => some (e, giveUp s₁ c a.ip)
    | some (.ok b) =>
      match renameEnter s₁ c f doingdirectory a.ip b with
      | none => none
      | some (.error (e, s₂)) => some (e, giveUp s₂ c a.ip)
      | some (.ok s₂) => renameLast s₂ c f doingdirectory a.ip b.newparent src

end RetroBSD.Names
