import RetroBSD.InodeTableInvariants
import RetroBSD.InodeAlloc
import RetroBSD.FileBlocks

/-!
# The table of in-core inodes in every run
-/

namespace RetroBSD.InodeTable

open LinkedList References Runs Kernel Function List

namespace Kernel

variable {P : Type} [DecidableEq P]

/-- A process goes on to its next point; one that sleeps or is in no call stays. -/
def run (s : Kernel P) (p : P) (dp : Option Dinode) : Except Fault (Kernel P) :=
  match s.point p with
  | .call (.iget dev fs ino) => s.iget p dev fs ino
  | .call (.igrab ip) => s.igrab p ip
  | .call (.ilock ip) => .ok (s.ilock p ip)
  | .igetRead ip => .ok (s.igetRead p ip dp)
  | .itrunc ip => .ok ((s.modify ip fun x => { x with iMode := 0, iRdev := 0 }).goto p (.ifree ip))
  | .ifree ip => .ok (s.goto p (.iupdat ip))
  | .iupdat ip => s.ireleEnd p ip
  | .ret _ | .sleep .. => .ok s

end Kernel

section Events

variable {P : Type} [DecidableEq P]

inductive Event (P : Type)
  | call (p : P) (c : Call)
  | run (p : P) (dp : Option Dinode)
  | iput (p : P) (ip : Slot)
  | irele (p : P) (ip : Slot)
  | iunlock (ip : Slot)
  | dup (ip : Slot)
  | iflush (dev : ℤ)
  | other (s' : Kernel P)

/-- References are given up, and inodes unlocked, by processes that have a reference. -/
def Step (s : Kernel P) (ev : Event P) (s' : Kernel P) : Prop :=
  match ev with
  | .call p c => (∃ r, s.point p = .ret r) ∧ s' = s.goto p (.call c)
  | .run p dp => s.run p dp = .ok s'
  | .iput p ip => (∃ r, s.point p = .ret r) ∧ 0 < s.held ip ∧ s' = (s.drop ip).iput p ip
  | .irele p ip => (∃ r, s.point p = .ret r) ∧ 0 < s.held ip ∧ s' = (s.drop ip).irele p ip
  | .iunlock ip => 0 < s.held ip ∧ s' = s.iunlock ip
  | .dup ip => 0 < s.held ip ∧ s' = (s.modify ip fun x => { x with iCount := x.iCount + 1 }).hold ip
  | .iflush dev => s' = (s.iflush dev).1
  | .other s₁ => s.Elsewhere s₁ ∧ s' = s₁

end Events

variable {P : Type} {s s' : Kernel P} {p : P} {ip : Slot} [DecidableEq P]

theorem Inv.run (h : Inv s) (dp : Option Dinode) :
    s.run p dp = .error .noImt ∨ ∃ s', s.run p dp = .ok s' ∧ Inv s' := by
  have hidle : ∀ x, s.point p = x → x.work = none → (s.point p).work = none :=
    fun x hx hwork => hx ▸ hwork
  rw [Kernel.run]
  cases hp : s.point p with
  | ret | sleep => exact .inr ⟨s, rfl, h⟩
  | call c =>
    have hwork := hidle _ hp rfl
    cases c with
    | iget dev fs ino =>
      rcases h.iget hwork dev fs ino with herr | ⟨s', hs', hinv, -⟩
      · exact .inl herr
      · exact .inr ⟨s', hs', hinv⟩
    | igrab ip => exact .inr (h.igrab hwork ip)
    | ilock ip => exact .inr ⟨_, rfl, h.ilock hwork⟩
  | igetRead ip =>
    cases dp with
    | none => exact .inr ⟨_, rfl, h.igetRead_none hp⟩
    | some dp => exact .inr ⟨_, rfl, h.igetRead_some hp dp⟩
  | itrunc ip =>
    refine .inr ⟨_, rfl, Inv.goto (h.modify rfl rfl id) ?_⟩
    exact (congrArg Point.work hp).symm
  | ifree ip =>
    refine .inr ⟨_, rfl, h.goto ?_⟩
    exact (congrArg Point.work hp).symm
  | iupdat ip => exact .inr (h.ireleEnd hp)

theorem step_inv {ev : Event P} (h : Inv s) (hstep : Step s ev s') : Inv s' := by
  have hret : ∀ p, (∃ r, s.point p = .ret r) → (s.point p).work = none := by
    rintro p ⟨r, hr⟩
    rw [hr]
    rfl
  cases ev with
  | call p c =>
    obtain ⟨hp, rfl⟩ := hstep
    exact h.goto (hret p hp).symm
  | run p dp =>
    rcases h.run dp with herr | ⟨s₁, hs₁, hinv⟩
    · cases herr.symm.trans hstep
    · obtain rfl : s₁ = s' := Except.ok.inj (hs₁.symm.trans hstep)
      exact hinv
  | iput p ip =>
    obtain ⟨hp, hheld, rfl⟩ := hstep
    exact h.iput (hret p hp) hheld
  | irele p ip =>
    obtain ⟨hp, hheld, rfl⟩ := hstep
    exact h.irele (hret p hp) hheld
  | iunlock ip =>
    obtain ⟨hheld, rfl⟩ := hstep
    exact h.iunlock (h.refs.not_work_of_held hheld)
  | dup ip =>
    obtain ⟨hheld, rfl⟩ := hstep
    exact h.dup hheld
  | iflush dev =>
    rw [show s' = (s.iflush dev).1 from hstep]
    exact h.iflushLoop dev _ _
  | other s₁ =>
    obtain ⟨he, rfl⟩ := hstep
    exact h.elsewhere he

/-- In every run of any processes no two slots on the hash chains are for the same
device and number, the free list is doubly linked, has the slots with `i_count` 0 and,
unless it is empty, ends at `ifreet`; `iget` never finds a slot in use on it, and returns
a slot locked and with one reference more, which it has kept while it read the inode. -/
theorem run_keeps_table {mount : List Mount} {fsRonly : ℕ → Bool} {evs : List (Event P)}
    (hrun : Run Step (ihinit mount fsRonly) evs s) :
    (∃ ls, s.hash.Holds ls ∧ ∀ h h', ∀ i ∈ ls h, ∀ j ∈ ls h',
      (s.inode i).iDev = (s.inode j).iDev → (s.inode i).iNumber = (s.inode j).iNumber → i = j) ∧
    (∃ l, s.free.Holds l ∧ ∀ ip, ip ∈ l ↔ (s.inode ip).iCount = 0) ∧
    (∀ p dp e, s.run p dp = .error e → e = .noImt) ∧
    (∀ p dev fs ino, s.point p = .call (.iget dev fs ino) → ∀ dp s', s.run p dp = .ok s' →
      ∀ ip, s'.point p = .ret (some ip) ∨ s'.point p = .igetRead ip → Takes s s' ip) ∧
    (∀ p ip, s.point p = .igetRead ip → (s.inode ip).iCount = 1 ∧ (s.inode ip).ilocked = true ∧
      ∀ dp s', s.run p (some dp) = .ok s' →
        s'.point p = .ret (some ip) ∧ (s'.inode ip).iCount = 1 ∧ (s'.inode ip).ilocked = true) := by
  have hinv : Inv s := hrun.invariant (fun _ _ _ h hstep => step_inv h hstep)
    (ihinit_inv mount fsRonly)
  refine ⟨?_, hinv.free, ?_, ?_, ?_⟩
  · obtain ⟨ls, hls⟩ := hinv.chained
    refine ⟨ls, hls.toHolds, fun h h' i hi j hj hdev hnumber => ?_⟩
    exact hls.eq_of_key_eq hi hj (Prod.ext hdev hnumber)
  · intro p dp e he
    rcases hinv.run dp with herr | ⟨s', hs', -⟩
    · exact Except.error.inj (he.symm.trans herr)
    · cases he.symm.trans hs'
  · intro p dev fs ino hp dp s' hs'
    rw [Kernel.run, hp] at hs'
    rcases hinv.iget (by rw [hp]; rfl) dev fs ino with herr | ⟨s₁, hs₁, -, htakes⟩
    · cases herr.symm.trans hs'
    · obtain rfl : s₁ = s' := Except.ok.inj (hs₁.symm.trans hs')
      exact htakes
  · intro p ip hp
    obtain ⟨hlocked, hone, -⟩ := hinv.refs.worker p ip (by rw [hp]; rfl)
    refine ⟨hone, hlocked, fun dp s' hs' => ?_⟩
    rw [Kernel.run, hp] at hs'
    obtain rfl := Except.ok.inj hs'
    refine ⟨update_self .., ?_, ?_⟩
    · rw [igetRead_some_inode]
      exact hone
    · rw [igetRead_some_inode]
      exact hlocked

/-- One process gets the inodes `l` of the device 0, one after another. -/
def igetEach (dp : Dinode) : List ℕ → Kernel Unit → Except Fault (Kernel Unit)
  | [], s => .ok s
  | ino :: l, s =>
    match (s.goto () (.call (.iget 0 0 ino))).run () none with
    | .error e => .error e
    | .ok s =>
      match s.point (), s.run () (some dp) with
      | .igetRead _, .ok s => igetEach dp l s
      | _, _ => .error .endless

def igetEvents (dp : Dinode) : List ℕ → List (Event Unit)
  | [] => []
  | ino :: l => .call () (.iget 0 0 ino) :: .run () none :: .run () (some dp) :: igetEvents dp l

theorem run_of_igetEach {dp : Dinode} {l : List ℕ} {s s' : Kernel Unit}
    (h : igetEach dp l s = .ok s')
    (hs : ∃ r, s.point () = .ret r) : Run Step s (igetEvents dp l) s' := by
  induction l generalizing s with
  | nil =>
    obtain rfl := Except.ok.inj h
    exact .nil s
  | cons ino l ih =>
    rw [igetEach] at h
    cases h1 : (s.goto () (.call (.iget 0 0 ino))).run () none with
    | error e =>
      rw [h1] at h
      cases h
    | ok s₁ =>
      rw [h1] at h
      cases hp : s₁.point () with
      | igetRead ip =>
        have h2 : s₁.run () (some dp) = .ok (s₁.igetRead () ip (some dp)) := by rw [Kernel.run, hp]
        simp only [hp, h2] at h
        have hcall : Step s (.call () (.iget 0 0 ino)) (s.goto () (.call (.iget 0 0 ino))) :=
          ⟨hs, rfl⟩
        have hread : Step (s.goto () (.call (.iget 0 0 ino))) (.run () none) s₁ := h1
        have hreturn : Step s₁ (.run () (some dp)) (s₁.igetRead () ip (some dp)) := h2
        exact .cons hcall (.cons hread (.cons hreturn (ih h ⟨some ip, rfl⟩)))
      | _ =>
        simp only [hp] at h
        cases h

def freeEnds (r : Except Fault (Kernel Unit)) : Option (Option Slot × Option (Place Unit Slot)) :=
  match r with
  | .ok s => some (s.free.cells.head (), s.free.tail)
  | .error _ => none

theorem freeEnds_full :
    freeEnds (igetEach ⟨1, 1, 0⟩ (List.range ninode) (ihinit [] fun _ => false)) =
      some (none, some (.cell 23)) := by
  decide +kernel

/-- When all slots are in use `ifreet` points into one of them, and not to `ifreeh`. -/
theorem freet_full : ¬∀ (evs : List (Event Unit)) (s : Kernel Unit),
    Run Step (ihinit [] fun _ => false) evs s →
    ∃ l, s.free.Holds l ∧ (∀ ip, ip ∈ l ↔ (s.inode ip).iCount = 0) ∧
      s.free.tail = some (Cells.placeAfter () l) := by
  intro hall
  cases hs : igetEach ⟨1, 1, 0⟩ (List.range ninode) (ihinit [] fun _ => false) with
  | error e =>
    have hfull := freeEnds_full
    rw [hs] at hfull
    cases hfull
  | ok s =>
    have hfull := freeEnds_full
    rw [hs, freeEnds, Option.some.injEq, Prod.mk.injEq] at hfull
    obtain ⟨l, hl, -, htail⟩ := hall _ s (run_of_igetEach hs ⟨none, rfl⟩)
    rw [hl.head_eq_none.1 hfull.1, hfull.2] at htail
    cases htail

/-- The first `iget` takes the first slot. -/
theorem run_keeps_table_first : ∃ s : Kernel Unit,
    Run Step (ihinit [] fun _ => false)
      [.call () (.iget 0 0 rootino), .run () none, .run () (some ⟨1, 1, 0⟩)] s ∧
    s.free.cells.head () = some 1 ∧
      ∃ l, s.free.Holds l ∧ ∀ ip, ip ∈ l ↔ (s.inode ip).iCount = 0 := by
  have hends : freeEnds (igetEach ⟨1, 1, 0⟩ [rootino] (ihinit [] fun _ => false)) =
      some (some 1, some (.cell 23)) := by
    decide +kernel
  cases hs : igetEach ⟨1, 1, 0⟩ [rootino] (ihinit [] fun _ => false) with
  | error e =>
    rw [hs] at hends
    cases hends
  | ok s =>
    rw [hs, freeEnds, Option.some.injEq, Prod.mk.injEq] at hends
    have hrun := run_of_igetEach hs ⟨none, rfl⟩
    exact ⟨s, hrun, hends.1, (run_keeps_table hrun).2.1⟩

end RetroBSD.InodeTable

/-!
## Inodes that cannot be read

The table of in-core inodes together with what `iget` and `irele` do outside of it: the
contents of the inodes, the disk, and the lists of free blocks and free inodes of the
superblocks. When the `bread` of `iget` fails, the slot is given back through `iput` while
it still has the link count, the size and the block addresses of the file that was in it
before. The reads and writes of other blocks than those with inodes do not fail here.
-/

namespace RetroBSD.InodeTable

open LinkedList LittleEndian Ufs Kernel Function
open Ialloc (itod itoo nicinod)

/-- The fields of a slot that the table itself has no use for, with the flags `IACC`, `IUPD`,
`ICHG`, `IMOD` and `IPIPE`. -/
structure File where
  iSize : ℕ
  iAddr : ℕ → ℕ
  iUid : ℕ
  iGid : ℕ
  iFlags : ℕ
  iAtime : ℕ
  iMtime : ℕ
  iCtime : ℕ
  iacc : Bool
  iupd : Bool
  ichg : Bool
  imod : Bool
  ipipe : Bool

def File.stamp (f : File) (time : ℕ) : File :=
  { f with
    iAtime := if f.iacc then time else f.iAtime
    iMtime := if f.iupd then time else f.iMtime
    iCtime := if f.ichg then time else f.iCtime
    iacc := false, iupd := false, ichg := false, imod := false }

/-- A mounted file system: free blocks and disk, and what the superblock knows about free
inodes. The last of `fs_inode[0 .. fs_ninode)` comes first. -/
structure Volume where
  filsys : Filsys
  fsInode : List ℕ
  fsLasti : ℕ
  fsNbehind : ℕ
  fsTinode : ℕ
  fsIlock : Bool

/-- Slots have the volume that `i_fs` tells; the block with a given inode is read from it. -/
structure System (P : Type) where
  kernel : Kernel P
  file : Slot → File
  volume : ℕ → Volume
  /-- The blocks of a volume that cannot be read. -/
  unreadable : ℕ → ℕ → Bool
  time : ℕ

/-- The words of a `struct dinode`; word 11 is reserved. -/
def dinodeWord (x : Inode) (f : File) (i : ℕ) : ℕ :=
  if i = 0 then x.iMode + 2 ^ 16 * x.iNlink
  else if i = 1 then f.iUid
  else if i = 2 then f.iGid
  else if i = 3 then f.iSize
  else if i < 11 then f.iAddr (i - 4)
  else if i = 12 then f.iFlags
  else if i = 13 then f.iAtime
  else if i = 14 then f.iMtime
  else f.iCtime

def storeDinode (b : Block) (off : ℕ) (x : Inode) (f : File) : Block :=
  [0, 1, 2, 3, 4, 5, 6, 7, 8, 9, 10, 12, 13, 14, 15].foldl
    (fun b i => setWord b (16 * off + i) (dinodeWord x f i)) b

namespace System

variable {P : Type} [DecidableEq P]

def setFile (S : System P) (ip : Slot) (f : File) : System P :=
  { S with file := update S.file ip f }

def setVolume (S : System P) (fs : ℕ) (v : Volume) : System P :=
  { S with volume := update S.volume fs v }

def vol (S : System P) (ip : Slot) : Volume := S.volume (S.kernel.inode ip).iFs

def load (S : System P) (ip : Slot) : Option (Dinode × File) :=
  let x := S.kernel.inode ip
  let b := (S.vol ip).filsys.disk (itod x.iNumber)
  let w (i : ℕ) := word b (16 * itoo x.iNumber + i)
  if S.unreadable x.iFs (itod x.iNumber) then none
  else some (⟨w 0 % 2 ^ 16, w 0 / 2 ^ 16, signed (w 5)⟩,
    { S.file ip with
      iSize := w 3, iAddr := fun i => w (4 + i), iUid := w 1, iGid := w 2, iFlags := w 12
      iAtime := w 13, iMtime := w 14, iCtime := w 15 })

def iupdat (S : System P) (ip : Slot) : System P :=
  let x := S.kernel.inode ip
  let f := S.file ip
  if (f.iupd || f.iacc || f.ichg || f.imod) = false then S
  else if S.kernel.fsRonly x.iFs then S
  else if S.unreadable x.iFs (itod x.iNumber) then S
  else
    let f := f.stamp S.time
    let v := S.vol ip
    let b := storeDinode (v.filsys.disk (itod x.iNumber)) (itoo x.iNumber) x f
    (S.setFile ip f).setVolume x.iFs { v with filsys := v.filsys.write (itod x.iNumber) b }

def itrunc (stale : ℕ → Block) (S : System P) (ip : Slot) : System P :=
  let x := S.kernel.inode ip
  let f := S.file ip
  let v := S.vol ip
  let r := Ufs.itrunc v.filsys ⟨x.iMode, f.iSize, f.iAddr, f.ipipe, false⟩ 0 stale
  ((S.setFile ip
    { f with iSize := r.1.iSize, iAddr := r.1.iAddr, ichg := true, iupd := true }).setVolume x.iFs
    { v with filsys := r.2 }).iupdat ip

def ifree (S : System P) (ip : Slot) (ino : ℕ) : System P :=
  let fs := (S.kernel.inode ip).iFs
  let v := S.vol ip
  let v := { v with fsTinode := uincr v.fsTinode }
  S.setVolume fs
    (if v.fsIlock then v
    else if nicinod ≤ v.fsInode.length then
      { v with fsNbehind := if ino < v.fsLasti then uincr v.fsNbehind else v.fsNbehind }
    else { v with fsInode := ino :: v.fsInode })

def clearFlags (S : System P) (ip : Slot) : System P :=
  S.setFile ip
    { S.file ip with iacc := false, iupd := false, ichg := false, imod := false, ipipe := false }

/-- A process goes on to its next point, as in `Kernel.run`. -/
def run (stale : ℕ → Block) (S : System P) (p : P) : Except Fault (System P) :=
  match S.kernel.point p with
  | .igetRead ip =>
    match S.load ip with
    | none => .ok { S with kernel := S.kernel.igetRead p ip none }
    | some (dp, f) => .ok { S.setFile ip f with kernel := S.kernel.igetRead p ip (some dp) }
  | .itrunc ip =>
    (S.kernel.run p none).map fun k =>
      let S := S.itrunc stale ip
      -- `i_rdev` lies over the second address.
      let f := S.file ip
      { S.setFile ip { f with iAddr := update f.iAddr 1 0, iupd := true, ichg := true } with
        kernel := k }
  | .ifree ip =>
    (S.kernel.run p none).map fun k => { S.ifree ip (S.kernel.inode ip).iNumber with kernel := k }
  | .iupdat ip =>
    (S.kernel.run p none).map fun k => { (S.iupdat ip).clearFlags ip with kernel := k }
  | .call _ | .sleep .. | .ret _ =>
    (S.kernel.run p none).map fun k =>
      match k.point p with
      | .igetRead ip => { S.clearFlags ip with kernel := k }
      | _ => { S with kernel := k }

/-- A process runs until the call it is in returns, through at most `n` points. -/
def finish (stale : ℕ → Block) (p : P) : ℕ → System P → Except Fault (System P)
  | 0, S => .ok S
  | n + 1, S =>
    match S.kernel.point p with
    | .ret _ => .ok S
    | _ => (S.run stale p).bind (finish stale p n)

/-- What a call of `iget` should leave behind that could not read the inode: a null pointer is
returned, the slot is at the end of the free list and on no hash chain, and nothing else has
changed. -/
structure Harmless (S S' : System P) (p : P) (ip : Slot) : Prop where
  null : S'.kernel.point p = .ret none
  freed : ∃ l, S.kernel.free.Holds (ip :: l) ∧ S'.kernel.free.Holds (l ++ [ip])
  unhashed : ∃ ls, S'.kernel.hash.Hashed hashKey (fun j => key (S'.kernel.inode j)) ls ∧
    ∀ h, ip ∉ ls h
  others : ∀ j, j ≠ ip → S'.kernel.inode j = S.kernel.inode j ∧ S'.file j = S.file j
  volumes : S'.volume = S.volume

end System

variable {P : Type} {s k : Kernel P} {S : System P} {p : P} {ip : Slot}

/-! ## What changes outside the table -/

namespace System

theorem setVolume_fsTinode {fs : ℕ} {v : Volume} (hv : v.fsTinode = (S.volume fs).fsTinode)
    (fs' : ℕ) : ((S.setVolume fs v).volume fs').fsTinode = (S.volume fs').fsTinode := by
  by_cases hfs : fs' = fs
  · rw [hfs, ← hv]
    exact congrArg Volume.fsTinode (update_self ..)
  · exact congrArg Volume.fsTinode (update_of_ne hfs ..)

theorem iupdat_file {j : Slot} (hj : j ≠ ip) : (S.iupdat ip).file j = S.file j := by
  unfold iupdat
  dsimp only
  split_ifs
  · rfl
  · rfl
  · rfl
  · exact update_of_ne hj ..

theorem iupdat_fsTinode (fs : ℕ) : ((S.iupdat ip).volume fs).fsTinode = (S.volume fs).fsTinode := by
  unfold iupdat
  dsimp only
  split_ifs
  · rfl
  · rfl
  · rfl
  · apply setVolume_fsTinode
    rfl

theorem iupdat_clean (h : S.file ip = (S.clearFlags ip).file ip) : S.iupdat ip = S := by
  have hfile : (S.clearFlags ip).file ip =
      { S.file ip with iacc := false, iupd := false, ichg := false, imod := false, ipipe :=
        false } :=
    update_self ..
  rw [hfile] at h
  unfold iupdat
  rw [if_pos (by rw [h]; rfl)]

variable (stale : ℕ → Block)

theorem itrunc_fsTinode (fs : ℕ) :
    ((S.itrunc stale ip).volume fs).fsTinode = (S.volume fs).fsTinode := by
  refine (iupdat_fsTinode fs).trans ?_
  apply setVolume_fsTinode
  rfl

/-- `ifree` counts the inode, whether or not it gets on the list. -/
theorem ifree_fsTinode (ino : ℕ) : ((S.ifree ip ino).volume (S.kernel.inode ip).iFs).fsTinode =
    uincr (S.volume (S.kernel.inode ip).iFs).fsTinode := by
  unfold ifree
  dsimp only
  refine (congrArg Volume.fsTinode (update_self ..)).trans ?_
  split_ifs <;> rfl

theorem uincr_ne (t : ℕ) : uincr t ≠ t := by
  unfold uincr
  split_ifs with h
  · intro hz
    rw [← hz] at h
    exact absurd h (by decide)
  · exact Nat.succ_ne_self t

end System

/-! ## The way of the slot through the table -/

variable [DecidableEq P]

theorem iget_reads (h : Inv s) {dev : ℤ} {fs ino : ℕ} (hget : s.iget p dev fs ino = .ok k)
    (hpoint : k.point p = .igetRead ip) :
    (∃ l, s.free.Holds (ip :: l) ∧ k.free.Holds l) ∧ k.fsRonly = s.fsRonly ∧
      k.inode = update s.inode ip { s.inode ip with
        iDev := dev, iFs := fs, iNumber := ino
        ilocked := true, iwant := false, imount := false
        iCount := (s.inode ip).iCount + 1 } := by
  have hgoto : ∀ (s : Kernel P) x, (s.goto p x).point p = x := fun s x => update_self ..
  rw [Kernel.iget] at hget
  cases hfind : s.hash.find (inohash dev ino)
    (fun ip => ino = (s.inode ip).iNumber ∧ dev = (s.inode ip).iDev)
      (Fintype.card Slot) (s.hash.forw (.head (inohash dev ino))) with
  | none =>
    simp only [hfind] at hget
    cases hget
  | some found =>
    cases found with
    | some j =>
      -- An inode that is in core is not read.
      simp only [hfind, Kernel.igetFound] at hget
      split_ifs at hget
      · obtain rfl := Except.ok.inj hget
        rw [Kernel.await, hgoto] at hpoint
        cases hpoint
      · cases hmount : s.mount.find? fun mp => decide (mp.mInodp = some j) with
        | none => simp [hmount] at hget
        | some mp =>
          simp only [hmount] at hget
          obtain rfl := Except.ok.inj hget
          rw [hgoto] at hpoint
          cases hpoint
      · cases hgrab : s.grab j with
        | error e => simp [hgrab, Except.map] at hget
        | ok s1 =>
          simp only [hgrab] at hget
          obtain rfl := Except.ok.inj hget
          rw [hgoto] at hpoint
          cases hpoint
    | none =>
      simp only [hfind, Kernel.igetNew] at hget
      cases hhead : s.free.cells.head () with
      | none =>
        simp only [hhead] at hget
        obtain rfl := Except.ok.inj hget
        rw [hgoto] at hpoint
        cases hpoint
      | some j =>
        simp only [hhead] at hget
        split_ifs at hget with hcount
        obtain rfl := Except.ok.inj hget
        rw [hgoto] at hpoint
        obtain rfl := Point.igetRead.inj hpoint
        obtain ⟨l, hl, -⟩ := h.free
        obtain ⟨post, rfl⟩ := hl.of_head hhead
        exact ⟨⟨post, hl, hl.takeHead⟩, rfl, rfl⟩

structure Leaving (s k : Kernel P) (ip : Slot) : Prop where
  freed : ∃ l, s.free.Holds (ip :: l) ∧ k.free.Holds l
  unhashed : ∃ ls, k.hash.Hashed hashKey (fun j => key (k.inode j)) ls ∧ ∀ h, ip ∉ ls h
  others : ∀ j, j ≠ ip → k.inode j = s.inode j

theorem Leaving.goto (h : Leaving s k ip) (x : Point) : Leaving s (k.goto p x) ip :=
  ⟨h.freed, h.unhashed, h.others⟩

omit [DecidableEq P] in
theorem Leaving.modify (h : Leaving s k ip) {f : Inode → Inode}
    (hkey : key (f (k.inode ip)) = key (k.inode ip)) : Leaving s (k.modify ip f) ip where
  freed := h.freed
  unhashed := by
    obtain ⟨ls, hls, hip⟩ := h.unhashed
    exact ⟨ls, hls.congr (k.modify_keep ip hkey), hip⟩
  others j hj := by rw [k.modify_of_ne f hj, h.others j hj]

omit [DecidableEq P] in
theorem FailedRead.leaving {k2 : Kernel P} (h : FailedRead k k2 p ip) (hk : Inv k)
    (hfree : ∃ l, s.free.Holds (ip :: l) ∧ k.free.Holds l)
    (hother : ∀ j, j ≠ ip → k.inode j = s.inode j) : Leaving s k2 ip where
  freed := by rwa [h.free]
  unhashed := by
    obtain ⟨ls, hls⟩ := hk.chained
    rw [h.hash]
    refine ⟨_, hls.remove ip fun j hj => by rw [h.other hj], fun c hc => ?_⟩
    exact ((hls.nodup c).mem_erase_iff.1 hc).1 rfl
  others j hj := (h.other hj).trans (hother j hj)

theorem Leaving.ireleEnd (h : Leaving s k ip) :
    ∃ k', k.ireleEnd p ip = .ok k' ∧ k'.point p = .ret none ∧
    (∃ l, s.free.Holds (ip :: l) ∧ k'.free.Holds (l ++ [ip])) ∧
    (∃ ls, k'.hash.Hashed hashKey (fun j => key (k'.inode j)) ls ∧ ∀ h, ip ∉ ls h) ∧
    ∀ j, j ≠ ip → k'.inode j = s.inode j := by
  obtain ⟨l, hl, hkl⟩ := h.freed
  obtain ⟨k', hk', hfreed⟩ := ireleEnd_freed hkl (List.nodup_cons.1 hl.nodup).1
  refine ⟨k', hk', hfreed.point, ⟨l, hl, hfreed.free⟩, ?_,
    fun j hj => (hfreed.other hj).trans (h.others j hj)⟩
  obtain ⟨ls, hls, hip⟩ := h.unhashed
  refine ⟨ls, ?_, hip⟩
  rw [hfreed.hash, hfreed.inode]
  exact hls.congr (k.modify_keep ip (f := fun x => { x with
    ilocked := false, iwant := false, imount := false, iCount := x.iCount - 1 }) rfl)

/-! ## A failed read -/

namespace System

variable (stale : ℕ → Block)

theorem finish_run {n : ℕ} {S' : System P} (hp : ∀ r, S.kernel.point p ≠ .ret r)
    (hrun : S.run stale p = .ok S') : S.finish stale p (n + 1) = S'.finish stale p n := by
  rw [finish, hrun]
  cases hpoint : S.kernel.point p with
  | ret r => exact absurd hpoint (hp r)
  | _ => rfl

theorem finish_iupdat (n : ℕ) (hleave : Leaving s S.kernel ip)
    (hp : S.kernel.point p = .iupdat ip) :
    ∃ S', S.finish stale p (n + 1) = .ok S' ∧ S'.kernel.point p = .ret none ∧
      (∃ l, s.free.Holds (ip :: l) ∧ S'.kernel.free.Holds (l ++ [ip])) ∧
      (∃ ls, S'.kernel.hash.Hashed hashKey (fun j => key (S'.kernel.inode j)) ls ∧ ∀ h, ip ∉ ls h) ∧
      (∀ j, j ≠ ip → S'.kernel.inode j = s.inode j ∧ S'.file j = S.file j) ∧
        S'.volume = (S.iupdat ip).volume := by
  obtain ⟨k', hk', hnull, hfreed, hunhashed, hothers⟩ := hleave.ireleEnd (p := p)
  have hrun : S.run stale p = .ok { (S.iupdat ip).clearFlags ip with kernel := k' } := by
    rw [run]
    rw [Kernel.run]
    simp only [hp, hk']
    rfl
  refine ⟨{ (S.iupdat ip).clearFlags ip with kernel := k' }, ?_, hnull, hfreed, hunhashed,
    fun j hj => ⟨hothers j hj, ?_⟩,
    rfl⟩
  · rw [finish_run stale (by rw [hp]; exact fun r h => nomatch h) hrun]
    cases n with
    | zero => rfl
    | succ n =>
      rw [finish]
      simp only [hnull]
  · exact (update_of_ne hj ..).trans (iupdat_file hj)

theorem finish_read (n : ℕ) (hinv : Inv S.kernel) {dev : ℤ} {fs ino : ℕ}
    (hp : S.kernel.point p = .call (.iget dev fs ino)) (hget : S.kernel.iget p dev fs ino = .ok k)
    (hread : k.point p = .igetRead ip) (hfail : S.unreadable fs (itod ino) = true) :
    ∃ S₂ : System P, S.finish stale p (n + 2) = S₂.finish stale p n ∧
      Leaving S.kernel S₂.kernel ip ∧
      (S₂.kernel.inode ip).iFs = fs ∧ S₂.file = (S.clearFlags ip).file ∧ S₂.volume = S.volume ∧
      S₂.kernel.point p =
        if (S.kernel.inode ip).iNlink = 0 ∧ S.kernel.fsRonly fs = false then .itrunc ip
          else .iupdat ip := by
  have hwork : (S.kernel.point p).work = none := by rw [hp]; rfl
  have hk : Inv k := by
    rcases hinv.iget hwork dev fs ino with herr | ⟨s', hs', hinv', -⟩
    · rw [herr] at hget
      cases hget
    · obtain rfl := Except.ok.inj (hs'.symm.trans hget)
      exact hinv'
  obtain ⟨hfree, hronly, hinode⟩ := iget_reads hinv hget hread
  have hslot : (k.inode ip).iFs = fs ∧ (k.inode ip).iNumber = ino ∧
      (k.inode ip).iNlink = (S.kernel.inode ip).iNlink := by
    rw [hinode, update_self]
    exact ⟨rfl, rfl, rfl⟩
  have hone : (k.inode ip).iCount = 1 := (hk.refs.worker p ip (by rw [hread]; rfl)).2.1
  have hfailed := InodeTable.igetRead_none (p := p) hone
  refine ⟨{ S.clearFlags ip with kernel := k.igetRead p ip none }, ?_, ?_, ?_, rfl, rfl, ?_⟩
  · have hfirst : S.run stale p = .ok { S.clearFlags ip with kernel := k } := by
      rw [run]
      rw [Kernel.run]
      simp only [hp, hget, Except.map, hread]
    have hsecond : run stale { S.clearFlags ip with kernel := k } p =
        .ok { S.clearFlags ip with kernel := k.igetRead p ip none } := by
      have hload : load { S.clearFlags ip with kernel := k } ip = none := by
        rw [load]
        rw [hslot.1, hslot.2.1]
        exact if_pos hfail
      rw [run]
      simp only [hread, hload]
    rw [finish_run stale (by rw [hp]; exact fun r h => nomatch h) hfirst]
    exact finish_run stale (by rw [hread]; exact fun r h => nomatch h) hsecond
  · exact hfailed.leaving hk hfree fun j hj => by rw [hinode, update_of_ne hj]
  · rw [hfailed.self]
    exact hslot.1
  · rw [hfailed.point, releasePoint, hslot.1, hslot.2.2, hronly]

/-- The slot of an inode that could not be read is given back without a trace, unless the file
that was in it before had no links left and the volume can be written: then an inode number 0
is freed on the volume. -/
theorem failed_read_harmless_iff (stale : ℕ → Block) (hinv : Inv S.kernel) {dev : ℤ} {fs ino : ℕ}
    (hp : S.kernel.point p = .call (.iget dev fs ino)) (hget : S.kernel.iget p dev fs ino = .ok k)
    (hread : k.point p = .igetRead ip) (hfail : S.unreadable fs (itod ino) = true) :
    ∃ S', S.finish stale p 5 = .ok S' ∧
      (Harmless S S' p ip ↔ (S.kernel.inode ip).iNlink ≠ 0 ∨ S.kernel.fsRonly fs = true) := by
  obtain ⟨S₂, hfinish, hleave, hfs, hfile, hvolume, hpoint⟩ :=
    finish_read stale 3 hinv hp hget hread hfail
  rw [hfinish]
  split_ifs at hpoint with hdead
  · -- `itrunc` and `ifree` of the file that was in the slot before.
    obtain ⟨S₃, hS₃⟩ : ∃ S₃ : System P, S₃ = { S₂.itrunc stale ip with
      file := update (S₂.itrunc stale ip).file ip { (S₂.itrunc stale ip).file ip with
        iAddr := update ((S₂.itrunc stale ip).file ip).iAddr 1 0, iupd := true, ichg := true }
      kernel := (S₂.kernel.modify ip fun x =>
        { x with iMode := 0, iRdev := 0 }).goto p (.ifree ip) } := ⟨_, rfl⟩
    have hrun₃ : S₂.run stale p = .ok S₃ := by
      rw [run]
      rw [Kernel.run, hS₃]
      simp only [hpoint]
      rfl
    have hpoint₃ : S₃.kernel.point p = .ifree ip := by
      rw [hS₃]
      exact update_self ..
    have hfs₃ : (S₃.kernel.inode ip).iFs = fs := by
      rw [hS₃]
      exact (congrArg Inode.iFs (S₂.kernel.modify_self ip
        fun x => { x with iMode := 0, iRdev := 0 })).trans hfs
    set S₄ : System P := { S₃.ifree ip (S₃.kernel.inode ip).iNumber with
        kernel := S₃.kernel.goto p (.iupdat ip) } with hS₄
    have hrun₄ : S₃.run stale p = .ok S₄ := by
      rw [run]
      rw [Kernel.run]
      simp only [hpoint₃]
      rfl
    have hpoint₄ : S₄.kernel.point p = .iupdat ip := update_self ..
    have hleave₄ : Leaving S.kernel S₄.kernel ip := by
      rw [hS₄, hS₃]
      exact ((hleave.modify rfl).goto _).goto _
    obtain ⟨S', hS', -, -, -, -, hvolume'⟩ := finish_iupdat stale 0 hleave₄ hpoint₄
    refine ⟨S', ?_, iff_of_false (fun hharm => ?_) ?_⟩
    · rw [finish_run stale (by rw [hpoint]; exact fun r h => nomatch h) hrun₃,
        finish_run stale (by rw [hpoint₃]; exact fun r h => nomatch h) hrun₄, hS']
    · have hcount : (S'.volume fs).fsTinode = uincr (S.volume fs).fsTinode := by
        rw [hvolume', iupdat_fsTinode, ← hfs₃]
        refine (ifree_fsTinode _).trans (congrArg uincr ?_)
        rw [hS₃]
        exact (itrunc_fsTinode stale _).trans (by rw [hvolume])
      rw [hharm.volumes] at hcount
      exact uincr_ne _ hcount.symm
    · rintro (hlink | hronly)
      · exact hlink hdead.1
      · rw [hdead.2] at hronly
        cases hronly
  · obtain ⟨S', hS', hnull, hfreed, hunhashed, hothers, hvolume'⟩ :=
      finish_iupdat stale 2 hleave hpoint
    have hclean : S₂.iupdat ip = S₂ := by
      apply iupdat_clean
      simp [clearFlags, setFile, hfile]
    refine ⟨S', hS', iff_of_true
      ⟨hnull, hfreed, hunhashed, fun j hj => ⟨(hothers j hj).1, ?_⟩, ?_⟩ ?_⟩
    · rw [(hothers j hj).2, hfile]
      exact update_of_ne hj ..
    · rw [hvolume', hclean, hvolume]
    · rw [not_and, Bool.not_eq_false] at hdead
      exact or_iff_not_imp_left.2 fun h => hdead (not_not.1 h)

/-- The system after `ihinit`, with one call of `iget` for inode 2 of a volume that has no free
inodes and whose block 1 cannot be read. -/
def booted (fsRonly : Bool) : System Unit where
  kernel := (ihinit [] fun _ => fsRonly).goto () (.call (.iget 0 0 2))
  file _ := ⟨0, fun _ => 0, 0, 0, 0, 0, 0, 0, false, false, false, false, false⟩
  volume _ := ⟨⟨⟨4, 16, 0, fun _ => 0, 0, false⟩, ⟨4, 16, 0, fun _ => 0, 0, false⟩,
    fun _ => zeroBlock, 0⟩, [], 0, 0, 0, false⟩
  unreadable _ b := b = 1
  time := 7

theorem booted_inv (fsRonly : Bool) : Inv (booted fsRonly).kernel :=
  (ihinit_inv [] fun _ => fsRonly).goto rfl

theorem booted_reads (fsRonly : Bool) :
    ∃ k, (booted fsRonly).kernel.iget () 0 0 2 = .ok k ∧ k.point () = .igetRead 0 := by
  cases fsRonly <;> exact ⟨_, rfl, by decide⟩

/-- The free inodes of the volume, and the time of the last change of the inode at the end of
its block 0. -/
def traces (r : Except Fault (System Unit)) : Option (List ℕ × ℕ) :=
  match r with
  | .ok S => some ((S.volume 0).fsInode, word ((S.volume 0).filsys.disk 0) 254)
  | .error _ => none

/-- On a volume that is mounted read-only the failed read leaves no trace. -/
theorem failed_read_harmless_ronly : ∃ S', (booted true).finish (fun _ => zeroBlock) () 5 = .ok S' ∧
    (Harmless (booted true) S' () 0 ↔ ((booted true).kernel.inode 0).iNlink ≠ 0 ∨
      (booted true).kernel.fsRonly 0 = true) := by
  obtain ⟨k, hget, hread⟩ := booted_reads true
  exact failed_read_harmless_iff _ (booted_inv true) rfl hget hread rfl

/-- The first `iget` on a volume that can be written fails to read inode 2. The number 0 becomes
a free inode of the volume, and an empty inode is written over the end of its block 0, which
is the superblock. -/
theorem failed_read_frees_zero : Inv (booted false).kernel ∧
    (∃ k, (booted false).kernel.iget () 0 0 2 = .ok k ∧ k.point () = .igetRead 0) ∧
    (booted false).unreadable 0 (itod 2) = true ∧
    ∃ S', (booted false).finish (fun _ => zeroBlock) () 5 = .ok S' ∧
      ((booted false).volume 0).fsInode = [] ∧ (S'.volume 0).fsInode = [0] ∧
      word (((booted false).volume 0).filsys.disk 0) 254 = 0 ∧
        word ((S'.volume 0).filsys.disk 0) 254 = 7 ∧
      ¬Harmless (booted false) S' () 0 := by
  refine ⟨booted_inv false, booted_reads false, rfl, ?_⟩
  have htraces : traces ((booted false).finish (fun _ => zeroBlock) () 5) =
    some ([0], 7) := by decide +kernel
  cases hfinish : (booted false).finish (fun _ => zeroBlock) () 5 with
  | error e =>
    rw [hfinish] at htraces
    cases htraces
  | ok S' =>
    rw [hfinish, traces, Option.some.injEq, Prod.mk.injEq] at htraces
    refine ⟨S', rfl, rfl, htraces.1, rfl, htraces.2, fun h => ?_⟩
    rw [h.volumes] at htraces
    cases htraces.1

end System

end RetroBSD.InodeTable
