import Mathlib

/-!
# Descriptors and file structures

The descriptor tables of the processes and the table of file structures, with the calls
of `sys/kernel/kern_descrip.c` and the parts of `copen`, `pipe`, `newproc`, `exit` and
`exec` that work on them. What `vn_open`, `ialloc` and `ino_lock` answer is left open. Of
the flags of a descriptor there is `UF_EXCLOSE`; what closing a file does to its inode,
and all other fields of a file structure, are left out.
-/

namespace RetroBSD.Descrip

open Function

def nofile : ℕ := 30

def nfile : ℕ := 24

def enxio : ℕ := 6
def ebadf : ℕ := 9
def eacces : ℕ := 13
def enodev : ℕ := 19
def einval : ℕ := 22
def enfile : ℕ := 23
def emfile : ℕ := 24

def fread : UInt32 := 0x01
def fwrite : UInt32 := 0x02
def fnonblock : UInt32 := 0x04
def fappend : UInt32 := 0x08
def oShlock : UInt32 := 0x10
def oExlock : UInt32 := 0x20
def fasync : UInt32 := 0x40
def ffsync : UInt32 := 0x80

def fmask : UInt32 := fread ||| fwrite ||| fappend ||| fasync ||| ffsync ||| fnonblock

def fflags (oflags : UInt32) : UInt32 := oflags + 1

def access (flags : UInt32) : UInt32 := flags &&& (fread ||| fwrite)

structure File where
  fCount : ℕ
  fFlag : UInt32
  deriving DecidableEq

structure Files where
  file : Fin nfile → File
  lastf : ℕ

structure User where
  uOfile : Fin nofile → Option (Fin nfile)
  uPofile : Fin nofile → Bool
  uLastfile : ℤ

/-- The file structures, the user structure of the calling process, and the answer of the
call: `u_error`, or `u_rval` when that is 0. -/
structure Answer (α : Type) where
  files : Files
  user : User
  result : Except ℕ α

namespace Files

def setCount (k : Files) (f : Fin nfile) (n : ℕ) : Files :=
  { k with file := update k.file f { k.file f with fCount := n } }

def setFlag (k : Files) (f : Fin nfile) (flag : UInt32) : Files :=
  { k with file := update k.file f { k.file f with fFlag := flag } }

def closef (k : Files) (fp : Option (Fin nfile)) : Files :=
  match fp with
  | none => k
  | some f => if (k.file f).fCount > 1 then k.setCount f ((k.file f).fCount - 1) else k.setCount f 0

def incref (k : Files) (fp : Option (Fin nfile)) : Files :=
  match fp with
  | none => k
  | some f => k.setCount f ((k.file f).fCount + 1)

def scan (k : Files) : List (Fin nfile) :=
  (List.finRange nfile).filter (fun f => k.lastf ≤ f.val) ++ (List.finRange nfile).filter (fun f => f.val < k.lastf)

end Files

namespace User

def setSlot (u : User) (i : Fin nofile) (fp : Option (Fin nfile)) : User :=
  { u with uOfile := update u.uOfile i fp }

def setFlags (u : User) (i : Fin nofile) (exclose : Bool) : User :=
  { u with uPofile := update u.uPofile i exclose }

def raiseLast (u : User) (i : Fin nofile) : User := { u with uLastfile := max u.uLastfile i }

def lastFrom (uOfile : Fin nofile → Option (Fin nfile)) : ℕ → ℤ
  | 0 => -1
  | n + 1 => if h : n < nofile then if uOfile ⟨n, h⟩ = none then lastFrom uOfile n else n else n

def lowerLast (u : User) : User := { u with uLastfile := lastFrom u.uOfile (u.uLastfile + 1).toNat }

def ufalloc (u : User) (i : ℕ) : Option (Fin nofile × User) :=
  match (List.finRange nofile).find? fun j => i ≤ j.val ∧ u.uOfile j = none with
  | some j => some (j, (u.setFlags j false).raiseLast j)
  | none => none

def slot (fd : ℤ) : Option (Fin nofile) := if h : 0 ≤ fd ∧ fd.toNat < nofile then some ⟨fd.toNat, h.2⟩ else none

def getf (u : User) (fd : ℤ) : Option (Fin nofile × Fin nfile) :=
  match slot fd with
  | none => none
  | some i => (u.uOfile i).map fun f => (i, f)

end User

def dupit (k : Files) (u : User) (fd : Fin nofile) (fp : Fin nfile) (flags : Bool) : Files × User :=
  (k.setCount fp ((k.file fp).fCount + 1), ((u.setSlot fd (some fp)).setFlags fd flags).raiseLast fd)

def dup2 (k : Files) (u : User) (i j : ℤ) : Answer ℤ :=
  match u.getf i with
  | none => ⟨k, u, .error ebadf⟩
  | some (_, fp) =>
    match User.slot j with
    | none => ⟨k, u, .error ebadf⟩
    | some d =>
      if i = j then ⟨k, u, .ok j⟩
      else
        let r := dupit (k.closef (u.uOfile d)) u d fp false
        ⟨r.1, r.2, .ok j⟩

/-- `dup`, which calls `dup2` for a number with bits beyond the lowest six. -/
def dup (k : Files) (u : User) (i j : ℤ) : Answer ℤ :=
  if ¬ (0 ≤ i ∧ i < 64) then dup2 k u (i % 64) j
  else
    match u.getf i with
    | none => ⟨k, u, .error ebadf⟩
    | some (_, fp) =>
      match u.ufalloc 0 with
      | none => ⟨k, u, .error emfile⟩
      | some (d, u) =>
        let r := dupit k u d fp false
        ⟨r.1, r.2, .ok d⟩

def fcntlDupfd (k : Files) (u : User) (fdes arg : ℤ) : Answer ℤ :=
  match u.getf fdes with
  | none => ⟨k, u, .error ebadf⟩
  | some (_, fp) =>
    if arg < 0 ∨ arg ≥ nofile then ⟨k, u, .error einval⟩
    else
      match u.ufalloc arg.toNat with
      | none => ⟨k, u, .error emfile⟩
      | some (d, u) =>
        let r := dupit k u d fp false
        ⟨r.1, r.2, .ok d⟩

def fcntlSetfd (k : Files) (u : User) (fdes : ℤ) (exclose : Bool) : Answer ℤ :=
  match u.getf fdes with
  | none => ⟨k, u, .error ebadf⟩
  | some (i, _) => ⟨k, u.setFlags i exclose, .ok 0⟩

def close (k : Files) (u : User) (fd : ℤ) : Answer ℤ :=
  match u.getf fd with
  | none => ⟨k, u, .error ebadf⟩
  | some (i, fp) => ⟨k.closef (some fp), (u.setSlot i none).lowerLast, .ok 0⟩

def falloc (k : Files) (u : User) : Answer (Fin nofile × Fin nfile) :=
  match u.ufalloc 0 with
  | none => ⟨k, u, .error emfile⟩
  | some (i, u) =>
    match k.scan.find? fun f => (k.file f).fCount = 0 with
    | none => ⟨k, u, .error enfile⟩
    | some fp => ⟨{ k.setCount fp 1 with lastf := fp + 1 }, u.setSlot i (some fp), .ok (i, fp)⟩

def dupfdopen (k : Files) (u : User) (indx : Fin nofile) (dfd : ℤ) (mode : UInt32) (error : ℕ) :
    Files × User × ℕ :=
  match u.getf dfd with
  | none => (k, u, ebadf)
  | some (d, wfp) =>
    if u.uOfile indx = some wfp then (k, u, ebadf)
    else if error = enodev then
      if access mode ||| (k.file wfp).fFlag ≠ (k.file wfp).fFlag then (k, u, eacces)
      else (k.setCount wfp ((k.file wfp).fCount + 1),
        ((u.setSlot indx (some wfp)).setFlags indx (u.uPofile d)).raiseLast indx, 0)
    else (k, u, error)

/-- What `vn_open` returns and leaves in `u_dupfd`, where the driver of `/dev/fd` puts the
number of the descriptor to duplicate. -/
structure VnOpen where
  error : ℕ
  dupfd : ℤ

def openReturn (k : Files) (u : User) (indx : Fin nofile) (error : ℕ) : Answer (Fin nofile) :=
  ⟨k, u, if error = 0 then .ok indx else .error error⟩

/-- `copen`, with the answers of `vn_open` and `ino_lock`. -/
def copen (k : Files) (u : User) (mode : UInt32) (vnOpen : VnOpen) (inoLock : ℕ) : Answer (Fin nofile) :=
  match falloc k u with
  | ⟨k, u, .error e⟩ => ⟨k, u, .error e⟩
  | ⟨k, u, .ok (indx, fp)⟩ =>
    let flags := fflags mode
    let k := k.setFlag fp (flags &&& fmask)
    if vnOpen.error ≠ 0 then
      let k := k.setCount fp 0
      if (vnOpen.error = enodev ∨ vnOpen.error = enxio) ∧ vnOpen.dupfd ≥ 0 then
        let r := dupfdopen k u indx vnOpen.dupfd flags vnOpen.error
        -- The assignment binds weaker than the comparison of its right side with 0.
        let error := if r.2.2 = 0 then 1 else 0
        if error ≠ 0 then openReturn r.1 r.2.1 indx 0
        else openReturn r.1 (r.2.1.setSlot indx none) indx error
      else openReturn k (u.setSlot indx none) indx vnOpen.error
    else if flags &&& (oExlock ||| oShlock) ≠ 0 ∧ inoLock ≠ 0 then
      openReturn (k.closef (some fp)) (u.setSlot indx none) indx inoLock
    else openReturn k u indx 0

def pipe (k : Files) (u : User) (ialloc : ℕ) : Answer (Fin nofile × Fin nofile) :=
  if ialloc ≠ 0 then ⟨k, u, .error ialloc⟩
  else
    match falloc k u with
    | ⟨k, u, .error e⟩ => ⟨k, u, .error e⟩
    | ⟨k, u, .ok (r, rf)⟩ =>
      match falloc k u with
      | ⟨k, u, .error e⟩ => ⟨k.setCount rf 0, u.setSlot r none, .error e⟩
      | ⟨k, u, .ok (w, wf)⟩ => ⟨(k.setFlag wf fwrite).setFlag rf fread, u, .ok (r, w)⟩

def User.used (u : User) : List (Fin nofile) := (List.finRange nofile).filter fun i => (i.val : ℤ) ≤ u.uLastfile

def newproc (k : Files) (u : User) : Files := u.used.foldl (fun k i => k.incref (u.uOfile i)) k

def closeSlot (r : Files × User) (i : Fin nofile) : Files × User :=
  (r.1.closef (r.2.uOfile i), (r.2.setSlot i none).setFlags i false)

def execSlot (r : Files × User) (i : Fin nofile) : Files × User := if r.2.uPofile i then closeSlot r i else r

def execClose (k : Files) (u : User) : Files × User :=
  let r := u.used.foldl execSlot (k, u)
  (r.1, r.2.lowerLast)

def exit (k : Files) (u : User) : Files := (u.used.foldl closeSlot (k, u)).1

section System

variable {P : Type} [DecidableEq P]

structure System (P : Type) where
  files : Files
  user : P → Option User

inductive Call (P : Type)
  | open (mode : UInt32) (vnOpen : VnOpen) (inoLock : ℕ)
  | dup (i j : ℤ)
  | dup2 (i j : ℤ)
  | fcntlDupfd (fdes arg : ℤ)
  | fcntlSetfd (fdes : ℤ) (exclose : Bool)
  | close (fd : ℤ)
  | pipe (ialloc : ℕ)
  | exec
  | fork (child : P)
  | exit

def Answer.state {α : Type} (a : Answer α) : Files × User := (a.files, a.user)

def Call.run (k : Files) (u : User) : Call P → Files × User
  | .open mode vnOpen inoLock => (copen k u mode vnOpen inoLock).state
  | .dup i j => (Descrip.dup k u i j).state
  | .dup2 i j => (Descrip.dup2 k u i j).state
  | .fcntlDupfd fdes arg => (Descrip.fcntlDupfd k u fdes arg).state
  | .fcntlSetfd fdes exclose => (Descrip.fcntlSetfd k u fdes exclose).state
  | .close fd => (Descrip.close k u fd).state
  | .pipe ialloc => (Descrip.pipe k u ialloc).state
  | .exec => execClose k u
  | .fork _ => (newproc k u, u)
  | .exit => (Descrip.exit k u, u)

/-- A process makes a call. A fork needs a free place for the child, which starts with a
copy of the user structure; after an exit the process is gone. -/
def Step (s : System P) (ev : P × Call P) (s' : System P) : Prop :=
  ∃ u, s.user ev.1 = some u ∧
    let r := ev.2.run s.files u
    match ev.2 with
    | .fork child => s.user child = none ∧
        s' = ⟨r.1, update s.user child (some u)⟩
    | .exit => s' = ⟨r.1, update s.user ev.1 none⟩
    | _ => s' = ⟨r.1, update s.user ev.1 (some r.2)⟩

end System

end RetroBSD.Descrip
