import RetroBSD.InodeTable

/-!
# The cache of names

The cache in which `namei` of `sys/kernel/ufs_namei.c` keeps names it has found, with
`cacheinval` of `sys/include/inode.h` and `cinvalall`. An entry is for a name in a directory,
which it knows by device and number, and points to the slot of an in-core inode. It is valid
as long as the slot has the identifier it had when the name was entered. `i_id` is a `u_int`
and `nc_id` a `u_short`.

A call of `namei` is one step here for each component of the path. For `..` the source unlocks
the directory (`IUNLOCK`) before it waits for the parent: what other processes do in between,
also between a hit in the cache and the check of the identifier that follows, is outside of
the model. The list from `nchhead` is a list of entries, the least recently used first. Mount
points, the root directory of a process and the flushing of a device are left out.
-/

namespace RetroBSD.NameCache

open LinkedList InodeTable Function

def nchhash : ℕ := 16

def nchnamlen : ℕ := 15

def nnamecache : ℕ := ninode * 11 / 10

abbrev Nc := Fin nnamecache

instance : NeZero nnamecache := ⟨by decide⟩

abbrev Name := List UInt8

abbrev Dir := ℤ × ℕ

/-- The sum that `namei` computes while it copies a component. -/
def nameHash (name : Name) : ℕ := (name.zipIdx.map fun c => c.1.toNat * (c.2 + 1)).sum

def nhash (k : Dir × Name) : Fin nchhash :=
  ⟨((nameHash k.2 + k.1.2 + 13 * k.1.1) % nchhash).toNat, by
    have h₀ := Int.emod_nonneg (nameHash k.2 + k.1.2 + 13 * k.1.1) (show (nchhash : ℤ) ≠ 0 by decide)
    have h₁ := Int.emod_lt_of_pos (nameHash k.2 + k.1.2 + 13 * k.1.1) (show (0 : ℤ) < nchhash by decide)
    omega⟩

/-- `struct namecache` without its links. The directory is `nc_dev` and `nc_ino`, and the
length of the name is `nc_nlen`. -/
structure Namecache where
  ncIp : Option Slot
  ncDir : Dir
  ncId : UInt16
  ncName : Name

def Namecache.key (c : Namecache) : Dir × Name := (c.ncDir, c.ncName)

structure State where
  /-- The inode that a slot is for, by device and number. -/
  held : Slot → Option Dir
  iId : Slot → UInt32
  nextinodeid : UInt32
  nc : Nc → Namecache
  /-- `nchash`, `nc_forw` and `nc_back`. -/
  hash : Ring (Fin nchhash) Nc
  /-- `nchhead` and `nc_nxt`. -/
  lru : List Nc
  /-- The entries of the directories. -/
  dir : Dir → Name → Option ℕ
  /-- The slot of the entry has neither been reassigned nor invalidated since the name was
  entered. Nothing in the code depends on this. -/
  fresh : Nc → Bool

namespace State

/-! ## Identifiers -/

def cinvalall (s : State) : State :=
  { s with nc := fun e => { s.nc e with ncId := 0 }, fresh := fun _ => false }

def cacheinval (s : State) (i : Slot) : State :=
  let id := s.nextinodeid + 1
  let s := { s with
    iId := update s.iId i id
    nextinodeid := id
    fresh := fun e => s.fresh e && decide ((s.nc e).ncIp ≠ some i) }
  if id.toUInt16 = 0 then s.cinvalall else s

def holder (s : State) (k : Dir) : Option Slot := (List.finRange ninode).find? fun i => s.held i = some k

/-- `iget`, with the slot `i` for an inode that is not in core. -/
def iget (s : State) (k : Dir) (i : Slot) : Slot × State :=
  match s.holder k with
  | some j => (j, s)
  | none => (i, { s with held := update s.held i (some k) }.cacheinval i)

/-! ## Entries -/

def find (s : State) (k : Dir × Name) : Option Nc :=
  (s.hash.find (nhash k) (fun e => (s.nc e).key = k) (Fintype.card Nc) (s.hash.forw (.head (nhash k)))).join

def valid (s : State) (e : Nc) : Bool :=
  match (s.nc e).ncIp with
  | none => false
  | some i => (s.nc e).ncId.toUInt32 = s.iId i

def touch (s : State) (e : Nc) : State := { s with lru := s.lru.erase e ++ [e] }

/-- The entry is taken off its hash chain and becomes the first one to be used again. -/
def drop (s : State) (e : Nc) : State :=
  { s with hash := (s.hash.remque (.cell e)).selfLink (.cell e), lru := e :: s.lru.erase e }

def forget (s : State) (k : Dir × Name) : State :=
  match s.find k with
  | none => s
  | some e => s.drop e

def enter (s : State) (k : Dir × Name) (i : Slot) : State :=
  match s.lru with
  | [] => s
  | e :: lru =>
    { s with
      nc := update s.nc e ⟨some i, k.1, (s.iId i).toUInt16, k.2⟩
      hash := (s.hash.remque (.cell e)).insque (.cell e) (.head (nhash k))
      lru := lru ++ [e]
      fresh := update s.fresh e true }

/-! ## Lookups -/

def scan (s : State) (k : Dir × Name) (makeentry : Bool) (i : Slot) : Option Slot × State :=
  match s.dir k.1 k.2 with
  | none => (none, s)
  | some ino =>
    let r := s.iget (k.1.1, ino) i
    (some r.1, if makeentry then r.2.enter k r.1 else r.2)

/-- One component in the directory that is in the slot `dp`. -/
def lookup (s : State) (dp : Slot) (name : Name) (makeentry : Bool) (i : Slot) : Option Slot × State :=
  match s.held dp with
  | none => (none, s)
  | some d =>
    if nchnamlen < name.length then s.scan (d, name) false i
    else
      match s.find (d, name) with
      | none => s.scan (d, name) makeentry i
      | some e =>
        if s.valid e ∧ makeentry then ((s.nc e).ncIp, s.touch e)
        else (s.drop e).scan (d, name) makeentry i

def cached (s : State) (dp : Slot) (name : Name) : Option Slot :=
  match s.held dp with
  | none => none
  | some d =>
    if nchnamlen < name.length then none
    else
      match s.find (d, name) with
      | none => none
      | some e => if s.valid e then (s.nc e).ncIp else none

def scanned (s : State) (dp : Slot) (name : Name) : Option Slot :=
  match s.held dp with
  | none => none
  | some d => (s.dir d name).bind fun ino => s.holder (d.1, ino)

end State

/-! ## Steps -/

def dot : Name := [46]

def dotdot : Name := [46, 46]

inductive Event
  /-- A component of a path that `namei` looks up. -/
  | lookup (dp : Slot) (name : Name) (makeentry : Bool) (i : Slot)
  /-- `iget` in another place. -/
  | iget (k : Dir) (i : Slot)
  | cacheinval (i : Slot)
  | cinvalall
  /-- An entry is made, rewritten or removed, after a `namei` for that. -/
  | change (dp : Slot) (name : Name) (ino : Option ℕ)
  /-- The first two entries of a new directory. -/
  | mkdir (k : Dir) (parent : ℕ)
  | rmdir (dp : Slot) (name : Name) (ip : Slot)
  /-- `rename` of the inode `ino` to the name of the empty directory in `xp`. -/
  | replace (dp : Slot) (name : Name) (xp : Slot) (ino : ℕ)
  /-- `rename` of the directory in `xp` from the one in `dp` to another. -/
  | move (dp xp : Slot) (parent : ℕ)

def setEntry (dir : Dir → Name → Option ℕ) (k : Dir) (name : Name) (ino : Option ℕ) : Dir → Name → Option ℕ :=
  update dir k (update (dir k) name ino)

/-- The directory in the slot `ip` is another one than that in `dp`, is on the same device and
has the entries `.` and `..` only, as `dirempty` makes sure. -/
def EmptyIn (s : State) (dp ip : Slot) : Prop :=
  dp ≠ ip ∧ ∃ d ino, s.held dp = some d ∧ s.held ip = some (d.1, ino) ∧
    ∀ name n, s.dir (d.1, ino) name = some n → (name = dot ∧ n = ino) ∨ (name = dotdot ∧ n = d.2)

/-- What holds when the events happen. -/
def Event.Guard (s : State) : Event → Prop
  | .mkdir k _ => ∀ name, s.dir k name = none
  | .rmdir dp _ ip => EmptyIn s dp ip
  | .replace dp _ xp _ => EmptyIn s dp xp
  | .move dp xp _ => ∃ d ino, s.held dp = some d ∧ s.held xp = some (d.1, ino) ∧ s.dir (d.1, ino) dotdot = some d.2
  | _ => True

/-- What a call of `namei` for the removal or the rewriting of a name does to the cache. -/
def State.forgetName (s : State) (dp : Slot) (name : Name) : State :=
  match s.held dp with
  | none => s
  | some d => if nchnamlen < name.length then s else s.forget (d, name)

def State.setName (s : State) (dp : Slot) (name : Name) (ino : Option ℕ) : State :=
  match s.held dp with
  | none => s
  | some d => { s with dir := setEntry s.dir d name ino }

def State.clearDir (s : State) (ip : Slot) : State :=
  match s.held ip with
  | none => s
  | some d => { s with dir := update s.dir d fun _ => none }

def State.exec (s : State) : Event → State
  | .lookup dp name makeentry i => (s.lookup dp name makeentry i).2
  | .iget k i => (s.iget k i).2
  | .cacheinval i => s.cacheinval i
  | .cinvalall => s.cinvalall
  | .change dp name ino => (s.forgetName dp name).setName dp name ino
  | .mkdir k parent =>
    { s with dir := setEntry (setEntry s.dir k dot (some k.2)) k dotdot (some parent) }
  | .rmdir dp name ip =>
    ((((s.forgetName dp name).setName dp name none).cacheinval dp).clearDir ip).cacheinval ip
  | .replace dp name xp ino =>
    -- The slot of the directory that is replaced is not invalidated.
    (((s.forgetName dp name).cacheinval dp).setName dp name (some ino)).clearDir xp
  | .move dp xp parent =>
    match s.held xp with
    | none => s
    | some d => { s with dir := setEntry s.dir d dotdot (some parent) }.cacheinval dp

def Step (s : State) (ev : Event) (s' : State) : Prop := ev.Guard s ∧ s' = s.exec ev

/-- The cache after `nchinit`, with the counter at `id` and the directories on the disk. -/
def boot (id : UInt32) (dir : Dir → Name → Option ℕ) : State where
  held _ := none
  iId _ := 0
  nextinodeid := id
  nc _ := ⟨none, (0, 0), 0, []⟩
  hash := ⟨fun x => x, fun x => x⟩
  lru := List.finRange nnamecache
  dir := dir
  fresh _ := false

end RetroBSD.NameCache
