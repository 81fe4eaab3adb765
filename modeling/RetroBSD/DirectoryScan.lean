import RetroBSD.LittleEndian
import RetroBSD.ByteCopy
import RetroBSD.Tiling
import RetroBSD.PathLookup

/-!
# The search of a directory

The part of `namei` (kernel/ufs_namei.c) that looks for one component in the blocks of a
directory. The loop goes from record to record, reads a block whenever it reaches the start
of one, steps over the rest of a block behind a mangled record, and for `CREATE` watches for
room for a new record. A `LOOKUP` in the directory in which the process found the last name
starts at the block of that name, which `u.u_ncache` remembers, and makes a second pass over
the blocks in front of it. A block that cannot be read, or is not there, ends the search.
-/

namespace RetroBSD.DirectoryScan

open LittleEndian ByteCopy Tiling
open Names (Op)

abbrev Name := List UInt8

def dirblksiz : ℕ := 1024

def maxnamlen : ℕ := 63

/-- `struct direct`, with the bytes of the name and the byte behind them. -/
structure Direct where
  ino : ℕ
  reclen : ℕ
  namlen : ℕ
  name : Name
  past : UInt8
  deriving DecidableEq

def direct (b : Memory) (offset : ℕ) : Direct :=
  let namlen := ofBytes (bytes b (offset + 6) 2)
  { ino := ofBytes (bytes b offset 4)
    reclen := ofBytes (bytes b (offset + 4) 2)
    namlen
    name := bytes b (offset + 8) namlen
    past := b (offset + 8 + namlen) }

def dirsiz (namlen : ℕ) : ℕ := (8 + namlen + 1 + 3) / 4 * 4

def dirbadentry (ep : Direct) (inBlock : ℕ) : Bool :=
  ep.reclen % 4 ≠ 0 ∨ ep.reclen > dirblksiz - inBlock % dirblksiz ∨ ep.reclen < dirsiz ep.namlen ∨
    ep.namlen > maxnamlen ∨ 0 ∈ ep.name ∨ ep.past ≠ 0

def mangled (dirchk : Bool) (ep : Direct) (inBlock : ℕ) : Bool :=
  ep.reclen = 0 ∨ dirchk ∧ dirbadentry ep inBlock

def Direct.Matches (ep : Direct) (name : Name) : Prop :=
  ep.ino ≠ 0 ∧ ep.namlen = name.length ∧ ep.name = name

instance (ep : Direct) (name : Name) : Decidable (ep.Matches name) :=
  inferInstanceAs (Decidable (_ ∧ _ ∧ _))

/-- What the search reads of the inode of the directory. `block` gives the blocks that can
be read. -/
structure Inode where
  number : ℕ
  dev : ℕ
  size : ℕ
  block : ℕ → Option Memory

def Inode.blkatoff (dp : Inode) (offset : ℕ) : Option Memory := dp.block (offset / dirblksiz)

def Inode.nblocks (dp : Inode) : ℕ := (dp.size + (dirblksiz - 1)) / dirblksiz

inductive SlotStatus
  | none
  | compact
  | found
  deriving DecidableEq

/-- The search for room: the area at `offset` of `size` bytes, and the space free in it. -/
structure Slot where
  status : SlotStatus
  offset : ℤ
  size : ℤ
  freespace : ℤ

def Slot.look (slot : Slot) (needed : ℕ) (offset : ℕ) (ep : Direct) : Slot :=
  let size : ℤ := if ep.ino ≠ 0 then ep.reclen - dirsiz ep.namlen else ep.reclen
  if slot.status = .found ∨ size ≤ 0 then slot
  else if needed ≤ size then { slot with status := .found, offset, size := ep.reclen }
  else if slot.status = .none then
    let freespace := slot.freespace + size
    let start : ℤ := if slot.offset = -1 then offset else slot.offset
    if needed ≤ freespace then ⟨.compact, start, offset + ep.reclen - start, freespace⟩
    else { slot with offset := start, freespace }
  else slot

/-- The variables of the search: `ni_offset`, `entryoffsetinblock`, the buffer, the slot, the
offset of the record before and the end of the last record in use. `reads` are the blocks
that were asked for so far. -/
structure Scan where
  offset : ℕ
  inBlock : ℕ
  bp : Option Memory
  slot : Slot
  prevoff : ℕ
  enduseful : ℕ
  reads : List ℕ

namespace Scan

variable (s : Scan)

def read (dp : Inode) : Scan :=
  { s with bp := dp.blkatoff s.offset, reads := s.reads ++ [s.offset / dirblksiz] }

def load (dp : Inode) : Scan :=
  if s.offset % dirblksiz = 0 then { s.read dp with inBlock := 0 } else s

def restart : Scan :=
  if s.slot.status = .none ∧ s.inBlock % dirblksiz = 0 then
    { s with slot := { s.slot with offset := -1, freespace := 0 } }
  else s

def skip : Scan :=
  let i := dirblksiz - s.inBlock % dirblksiz
  { s with offset := s.offset + i, inBlock := s.inBlock + i }

def advance (ep : Direct) : Scan :=
  { s with
    prevoff := s.offset
    offset := s.offset + ep.reclen
    inBlock := s.inBlock + ep.reclen
    enduseful := if ep.ino ≠ 0 then s.offset + ep.reclen else s.enduseful }

end Scan

inductive Round
  | next (s : Scan)
  | found (ep : Direct) (s : Scan)
  | bad (s : Scan)

variable (dirchk : Bool) (dp : Inode) (name : Name)

def examine (b : Memory) (s : Scan) : Round :=
  let s := s.restart
  let ep := direct b s.inBlock
  if mangled dirchk ep s.inBlock then .next s.skip
  else
    let s := { s with slot := s.slot.look (dirsiz name.length) s.offset ep }
    if ep.Matches name then .found ep s else .next (s.advance ep)

def round (s : Scan) : Round :=
  match (s.load dp).bp with
  | none => .bad (s.load dp)
  | some b => examine dirchk name b (s.load dp)

def rounds (endsearch : ℕ) : ℕ → Scan → Option Round
  | 0, s => if s.offset < endsearch then none else some (.next s)
  | fuel + 1, s =>
    if s.offset < endsearch then
      match round dirchk dp name s with
      | .next s => rounds endsearch fuel s
      | r => some r
    else some (.next s)

/-- `searchloop`. Every round moves on, so that there are never more rounds than bytes. -/
def searchloop (endsearch : ℕ) (s : Scan) : Option Round :=
  rounds dirchk dp name endsearch (endsearch - s.offset) s

structure Nameicache where
  prevoffset : ℕ
  inumber : ℕ
  dev : ℕ
  deriving DecidableEq

def passes (numdirpasses : ℕ) (hint : Nameicache) (s : Scan) : Option Round :=
  match searchloop dirchk dp name (dp.nblocks * dirblksiz) s with
  | some (.next s) =>
    if numdirpasses = 2 then searchloop dirchk dp name hint.prevoffset { s with offset := 0 }
    else some (.next s)
  | r => r

inductive Answer
  | failed
  | absent
  | found (offset inBlock : ℕ) (ep : Direct)
  deriving DecidableEq

def Round.answer : Round → Answer
  | .next _ => .absent
  | .found ep s => .found s.offset s.inBlock ep
  | .bad _ => .failed

def Round.scan : Round → Scan
  | .next s => s
  | .found _ s => s
  | .bad s => s

def Answer.size (dp : Inode) : Answer → ℕ
  | .found _ inBlock ep => if inBlock + dirsiz ep.namlen > dp.size then inBlock + dirsiz ep.namlen else dp.size
  | _ => dp.size

/-- The start of the block of the record found is kept for the next `LOOKUP`. -/
def Answer.hint (dp : Inode) (op : Op) (last : Bool) (hint : Nameicache) : Answer → Nameicache
  | .found offset _ _ =>
    if last ∧ op = .lookup then ⟨offset / dirblksiz * dirblksiz, dp.number, dp.dev⟩ else hint
  | _ => hint

/-- What the search leaves: its answer, the hint, the size of the directory and the variables
of the search. -/
structure Result where
  answer : Answer
  hint : Nameicache
  size : ℕ
  scan : Scan

/-- Where the search goes on behind the loop. `last` says whether the component is the last
one of the path. -/
def finish (op : Op) (last : Bool) (hint : Nameicache) (r : Round) : Result where
  answer := r.answer
  hint := r.answer.hint dp op last hint
  size := r.answer.size dp
  scan := r.scan

/-- The search is for a slot only at the end of the path. -/
def Scan.start (op : Op) (last : Bool) (offset : ℕ) : Scan where
  offset
  inBlock := offset % dirblksiz
  bp := none
  slot := ⟨if op = .create ∧ last then .none else .found, -1, 0, 0⟩
  prevoff := 0
  enduseful := 0
  reads := []

def scanFromStart (op : Op) (last : Bool) (hint : Nameicache) : Option Result :=
  (passes dirchk dp name 1 hint (.start op last 0)).map (finish dp op last hint)

def Nameicache.within (hint : Nameicache) (size : ℕ) : Nameicache :=
  if hint.prevoffset > size then { hint with prevoffset := 0 } else hint

def scanFromHint (op : Op) (last : Bool) (hint : Nameicache) : Option Result :=
  let s := Scan.start op last hint.prevoffset
  if s.inBlock ≠ 0 then
    match (s.read dp).bp with
    | none => some (finish dp op last hint (.bad (s.read dp)))
    | some _ => (passes dirchk dp name 2 hint (s.read dp)).map (finish dp op last hint)
  else (passes dirchk dp name 2 hint s).map (finish dp op last hint)

def search (op : Op) (last : Bool) (hint : Nameicache) : Option Result :=
  if op ≠ .lookup ∨ dp.number ≠ hint.inumber ∨ dp.dev ≠ hint.dev then
    scanFromStart dirchk dp name op last hint
  else scanFromHint dirchk dp name op last (hint.within dp.size)

end RetroBSD.DirectoryScan
