import Mathlib

/-!
# Looking up a path

`namei` of `sys/kernel/ufs_namei.c` over the live entries of the directories. A directory is
the list of its entries, the first two of which are "." and ".." as `mkdir` writes them.
The name cache and the hint of where the last search ended are left out, and so are the
counts of references and the locks.
-/

namespace RetroBSD.Names

abbrev Name := List UInt8

def slash : UInt8 := 47

def dot : Name := [46]

def dotdot : Name := [46, 46]

def rootino : ℕ := 2

def maxnamlen : ℕ := 63

def maxpathlen : ℕ := 256

def maxsymlinks : ℕ := 8

def eperm : ℕ := 1
def enoent : ℕ := 2
def eexist : ℕ := 17
def exdev : ℕ := 18
def enotdir : ℕ := 20
def eisdir : ℕ := 21
def einval : ℕ := 22
def eloop : ℕ := 62
def enametoolong : ℕ := 63
def enotempty : ℕ := 66

/-- `free` is the type of an inode that is not in use. -/
inductive FileType
  | free
  | dir
  | lnk
  | other
  deriving DecidableEq

structure Id where
  dev : ℕ
  ino : ℕ
  deriving DecidableEq

structure Entry where
  name : Name
  ino : ℕ
  deriving DecidableEq

/-- `frozen` stands for `IMMUTABLE` or `APPEND` among the flags, `sticky` for `ISVTX`, and
`text` is what a symbolic link contains. -/
structure Inode where
  type : FileType
  nlink : UInt16
  entries : List Entry
  text : Name
  irename : Bool
  frozen : Bool
  append : Bool
  sticky : Bool
  uid : ℕ

/-- The inodes and the mounted devices. `ninode` is more than the number of any inode in
use. -/
structure State where
  inode : Id → Inode
  mountedOn : Id → Option ℕ
  covered : ℕ → Option Id
  rootdir : Id
  ninode : ℕ

inductive Mode
  | exec
  | write
  deriving DecidableEq

/-- What a system call finds in the user structure: the answer of `access`, 0 or an error,
and the directories paths start from. `held` are the inodes to which there are references
from outside the call, and `expand` says what the buffer with the path contains after the
text of a link has been put in front of the rest (see `PathExpansion`). -/
structure Caller where
  uid : ℕ
  cdir : Id
  rdir : Option Id
  access : Mode → Id → ℕ
  held : Id → Bool
  expand : ℕ → Name → Name → Name

inductive Op
  | lookup
  | create
  | delete
  deriving DecidableEq

structure Nameiop where
  op : Op
  lockparent : Bool
  follow : Bool

/-- What `namei` leaves: the directory, the last component and the inode it refers to. -/
structure Found where
  pdir : Id
  name : Name
  target : Option Id
  deriving DecidableEq

def search (entries : List Entry) (name : Name) : Option ℕ :=
  (entries.find? fun e => e.name = name).map Entry.ino

def State.search (s : State) (dp : Id) (name : Name) : Option ℕ :=
  Names.search (s.inode dp).entries name

def State.iget (s : State) (dev ino : ℕ) : Id :=
  match s.mountedOn ⟨dev, ino⟩ with
  | none => ⟨dev, ino⟩
  | some d => ⟨d, rootino⟩

/-- The checks while a component is copied, from the `i`th character on. -/
def nameError (op : Op) : ℕ → Name → Option ℕ
  | _, [] => none
  | i, ch :: rest =>
    if maxnamlen ≤ i then some enametoolong
    else if 128 ≤ ch ∧ (ch = 175 ∨ op ≠ .delete) then some einval
    else nameError op (i + 1) rest

/-- Where ".." is looked up: for the root of a mounted device in the directory it is mounted
on. One such device can be mounted at a time, and not on a mounted one. -/
def State.above (s : State) (c : Caller) (dp : Id) : Id :=
  if c.rdir ≠ some dp ∧ dp.ino = rootino ∧ s.search dp dotdot = some rootino then
    (s.covered dp.dev).getD dp
  else dp

/-- Is deleting from the directory `dp` left to the owners? -/
def State.stickyDenies (s : State) (c : Caller) (dp ip : Id) : Prop :=
  (s.inode dp).sticky ∧ c.uid ≠ 0 ∧ c.uid ≠ (s.inode dp).uid ∧ (s.inode ip).uid ≠ c.uid

instance (s : State) (c : Caller) (dp ip : Id) : Decidable (s.stickyDenies c dp ip) :=
  inferInstanceAs (Decidable (_ ∧ _ ∧ _ ∧ _))

/-- The search for a component ends the lookup or leads on from the directory to an inode. -/
inductive Outcome
  | done (r : Found)
  | next (dp ip : Id)

/-- Where a component is searched for; `last` when the path ends with it. -/
def searched (s : State) (c : Caller) (nd : Nameiop) (last : Bool) (dp : Id) (name : Name) : Id :=
  if name = dotdot ∧ ¬(nd.op = .delete ∧ last) then s.above c dp else dp

/-- From the label `dirloop2` on: the search for the component in `dp`, and what follows. -/
def dirloop2 (s : State) (c : Caller) (nd : Nameiop) (last : Bool) (dp : Id) (name : Name) :
    Except ℕ Outcome :=
  match s.search dp name with
  | none =>
    if nd.op = .create ∧ last ∧ (s.inode dp).nlink ≠ 0 then
      if c.access .write dp ≠ 0 then .error (c.access .write dp) else .ok (.done ⟨dp, name, none⟩)
    else .error enoent
  | some ino =>
    if nd.op = .delete ∧ last then
      if c.access .write dp ≠ 0 then .error (c.access .write dp)
      else if nd.lockparent = false ∨ dp.ino = ino then .ok (.done ⟨dp, name, some dp⟩)
      else if s.stickyDenies c dp (s.iget dp.dev ino) then .error eperm
      else .ok (.done ⟨dp, name, some (s.iget dp.dev ino)⟩)
    else
      let ino := if name = dotdot ∧ c.rdir = some dp then dp.ino else ino
      if nd.op = .create ∧ nd.lockparent ∧ last then
        if c.access .write dp ≠ 0 then .error (c.access .write dp)
        else if dp.ino = ino then .error eisdir
        else .ok (.done ⟨dp, name, some (s.iget dp.dev ino)⟩)
      else if name ≠ dotdot ∧ dp.ino = ino then .ok (.next dp dp)
      else .ok (.next dp (s.iget dp.dev ino))

def component (s : State) (c : Caller) (nd : Nameiop) (last : Bool) (dp : Id) (name : Name) :
    Except ℕ Outcome :=
  dirloop2 s c nd last (searched s c nd last dp name) name

def afterName (path : Name) : Name := path.dropWhile (· ≠ slash)

def dropSlashes (path : Name) : Name := path.dropWhile (· = slash)

theorem length_dropSlashes_lt {path : Name} (h : path.takeWhile (· ≠ slash) ≠ []) :
    (dropSlashes (afterName path)).length < path.length := by
  have hsplit : (path.takeWhile (· ≠ slash)).length + (afterName path).length = path.length := by
    rw [← List.length_append, afterName, List.takeWhile_append_dropWhile]
  have hpos : 0 < (path.takeWhile (· ≠ slash)).length := List.length_pos_of_ne_nil h
  have hle : (dropSlashes (afterName path)).length ≤ (afterName path).length :=
    (List.dropWhile_sublist _).length_le
  omega

/-- From the label `dirloop` on: `links` symbolic links have been followed, and `path` is
what is left to look up from the directory `dp`. -/
def dirloop (s : State) (c : Caller) (nd : Nameiop) (links : ℕ) (path : Name) (dp : Id) :
    Except ℕ Found :=
  if (s.inode dp).type ≠ .dir then .error enotdir
  else if c.access .exec dp ≠ 0 then .error (c.access .exec dp)
  else
    match nameError nd.op 0 (path.takeWhile (· ≠ slash)) with
    | some e => .error e
    | none =>
      if hname : path.takeWhile (· ≠ slash) = [] then
        if nd.op ≠ .lookup ∨ nd.lockparent then .error eisdir else .ok ⟨dp, [], some dp⟩
      else
        match component s c nd (afterName path).isEmpty dp (path.takeWhile (· ≠ slash)) with
        | .error e => .error e
        | .ok (.done r) => .ok r
        | .ok (.next dp ip) =>
          if (s.inode ip).type = .lnk ∧ (nd.follow ∨ afterName path ≠ []) then
            if maxpathlen - 1 ≤ (s.inode ip).text.length + ((afterName path).length + 1)
              then .error enametoolong
            else if hlinks : maxsymlinks < links + 1 then .error eloop
            else
              let path := c.expand links (s.inode ip).text (afterName path)
              if path.head? = some slash then
                dirloop s c nd (links + 1) (dropSlashes path) (c.rdir.getD s.rootdir)
              else dirloop s c nd (links + 1) path dp
          else if afterName path ≠ [] then dirloop s c nd links (dropSlashes (afterName path)) ip
          else .ok ⟨dp, path.takeWhile (· ≠ slash), some ip⟩
termination_by (maxsymlinks - links, path.length)
decreasing_by
  · exact Prod.Lex.left _ _ (by omega)
  · exact Prod.Lex.left _ _ (by omega)
  · exact Prod.Lex.right _ (length_dropSlashes_lt hname)

/-- `namei`. A path that does not fit into the buffer is not found. -/
def namei (s : State) (c : Caller) (nd : Nameiop) (path : Name) : Except ℕ Found :=
  if maxpathlen ≤ path.length then .error enoent
  else if path.head? = some slash then dirloop s c nd 0 (dropSlashes path) (c.rdir.getD s.rootdir)
  else dirloop s c nd 0 path c.cdir

end RetroBSD.Names
