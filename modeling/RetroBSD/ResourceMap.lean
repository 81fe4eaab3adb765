import RetroBSD.SeparatedIntervals

/-!
# Resource maps

The allocator of `sys/kernel/subr_rmap.c`. A map is an array of segments sorted
by address and ended by an entry of size 0; the loops of the source walk it with
pointers, so here the array is a list and a pointer is a position in it. Reading
or writing past the last slot is the error `offTheMap`; it is not a behaviour the
source checks for. Addresses and sizes are `size_t`, a 32-bit unsigned integer.
-/

namespace RetroBSD.ResourceMap

def sizeMod : ℕ := 2 ^ 32

scoped instance neZero_three : NeZero 3 := ⟨by decide⟩

structure Mapent where
  mSize : ℕ
  mAddr : ℕ
  deriving DecidableEq, Repr

/-- `struct map`: the slots of the array and the index `m_limit` points to. -/
structure Map where
  mMap : List Mapent
  mLimit : ℕ
  deriving DecidableEq, Repr

def offTheMap : String := "off the map"

/-- The move to the left after an entry is used up: each slot from `ep` on
receives its right neighbour, up to and including the entry of size 0. -/
def closeGap : List Mapent → Except String (List Mapent)
  | [] => .error offTheMap
  | [_] => .error offTheMap
  | _ :: next :: rest =>
    if next.mSize = 0 then .ok (next :: next :: rest)
    else (closeGap (next :: rest)).map (next :: ·)

def mallocLoop (size : ℕ) : List Mapent → Except String (ℕ × List Mapent)
  | [] => .error offTheMap
  | bp :: rest =>
    if bp.mSize = 0 then .ok (0, bp :: rest)
    else if size ≤ bp.mSize then
      if bp.mSize - size ≠ 0 then
        .ok (bp.mAddr, ⟨bp.mSize - size, (bp.mAddr + size) % sizeMod⟩ :: rest)
      else (closeGap (⟨0, bp.mAddr⟩ :: rest)).map (bp.mAddr, ·)
    else (mallocLoop size rest).map (fun r => (r.1, bp :: r.2))

def malloc (mp : Map) (size : ℕ) : Except String (ℕ × Map) :=
  if size = 0 then .error "malloc: size = 0"
  else (mallocLoop size mp.mMap).map (fun r => (r.1, { mp with mMap := r.2 }))

def locate (addr : ℕ) : List Mapent → Except String ℕ
  | [] => .error offTheMap
  | bp :: rest =>
    if bp.mSize ≠ 0 ∧ bp.mAddr ≤ addr then (locate addr rest).map (· + 1) else .ok 0

def findEnd : List Mapent → Except String ℕ
  | [] => .error offTheMap
  | bp :: rest => if bp.mSize ≠ 0 then (findEnd rest).map (· + 1) else .ok 0

/-- The end of `mfree`, when the range does not abut on the left: `left` are the
slots before `bp`, the first of the remaining ones. -/
def mfreeRight (mLimit size addr : ℕ) (left : List Mapent) :
    List Mapent → Except String (List Mapent)
  | [] => .error offTheMap
  | bp :: rest =>
    if bp.mSize ≠ 0 ∧ bp.mAddr ≤ (addr + size) % sizeMod then
      .ok (left ++ ⟨(bp.mSize + size) % sizeMod, addr⟩ :: rest)
    else do
      let n ← findEnd (bp :: rest)
      -- too many segments: the range is lost after a warning
      if mLimit < left.length + n + 1 then .ok (left ++ bp :: rest)
      else if rest.length ≤ n then .error offTheMap
      else .ok (left ++ ⟨size, addr⟩ :: (bp :: rest).take (n + 1) ++ rest.drop (n + 1))

/-- `mfree` once `bp` has been located; `ep`, the slot before it, exists unless
`bp` is the start of the map. -/
def mfreeAt (mLimit size addr : ℕ) (left right : List Mapent) : Except String (List Mapent) :=
  match left.getLast?, right with
  | some ep, bp :: rest =>
    if addr ≤ (ep.mAddr + ep.mSize) % sizeMod then
      let size' := (ep.mSize + size) % sizeMod
      if bp.mSize ≠ 0 ∧ bp.mAddr ≤ (addr + size) % sizeMod then
        (closeGap (bp :: rest)).map (left.dropLast ++ ⟨(size' + bp.mSize) % sizeMod, ep.mAddr⟩ :: ·)
      else .ok (left.dropLast ++ ⟨size', ep.mAddr⟩ :: bp :: rest)
    else mfreeRight mLimit size addr left right
  | _, _ => mfreeRight mLimit size addr left right

def mfree (mp : Map) (size addr : ℕ) : Except String Map :=
  if size = 0 then .ok mp
  else if addr = 0 then .error "mfree: addr = 0"
  else do
    let i ← locate addr mp.mMap
    let slots ← mfreeAt mp.mLimit size addr (mp.mMap.take i) (mp.mMap.drop i)
    return { mp with mMap := slots }

/-- The locals of `malloc3` while it looks for room. -/
structure Search where
  madd : Fin 3 → Option ℕ
  remap : Option ℕ
  found : ℕ

def Search.start : Search := ⟨fun _ => none, none, 0⟩

/-- One turn of the inner loop: request `next` against the entry at index `idx`. -/
def tryNext (sizes : Fin 3 → ℕ) (idx : ℕ) (r : Mapent × Search) (next : Fin 3) :
    Mapent × Search :=
  if r.2.madd next = none ∧ sizes next ≤ r.1.mSize then
    let mSize := r.1.mSize - sizes next
    ({ r.1 with mSize }, { madd := Function.update r.2.madd next (some idx),
                           remap := if mSize = 0 ∧ r.2.remap = none then some idx else r.2.remap,
                           found := r.2.found + 1 })
  else r

/-- The search of `malloc3`. Once three requests are placed no further turn can
change anything, so the jump to `resolve` is taken after the inner loop. -/
def search (sizes : Fin 3 → ℕ) : ℕ → List Mapent → Search →
    Except String (List Mapent × Search)
  | _, [], _ => .error offTheMap
  | idx, bp :: rest, st =>
    if bp.mSize = 0 then .ok (bp :: rest, st)
    else
      let r := [0, 1, 2].foldl (tryNext sizes idx) (bp, st)
      if r.2.found = 3 then .ok (r.1 :: rest, r.2)
      else (search sizes (idx + 1) rest r.2).map (fun q => (r.1 :: q.1, q.2))

def restoreNext (sizes : Fin 3 → ℕ) (madd : Fin 3 → Option ℕ) (slots : List Mapent)
    (next : Fin 3) : List Mapent :=
  match madd next with
  | none => slots
  | some i => slots.modify i (fun e => { e with mSize := (e.mSize + sizes next) % sizeMod })

/-- The address of request `next`, taken from the front of its entry. -/
def resolveNext (sizes : Fin 3 → ℕ) (madd : Fin 3 → Option ℕ)
    (r : List Mapent × (Fin 3 → ℕ)) (next : Fin 3) : List Mapent × (Fin 3 → ℕ) :=
  match madd next with
  | none => r
  | some i =>
    (r.1.modify i (fun e => { e with mAddr := (e.mAddr + sizes next) % sizeMod }),
      Function.update r.2 next (r.1.getD i ⟨0, 0⟩).mAddr)

/-- The entries kept when the used-up ones are removed; an address of 0 ends them. -/
def survivors : List Mapent → Except String (List Mapent)
  | [] => .error offTheMap
  | bp :: rest =>
    if bp.mSize ≠ 0 ∨ bp.mAddr = 0 then
      if bp.mAddr = 0 then .ok [bp] else (survivors rest).map (bp :: ·)
    else survivors rest

def squeeze (remap : ℕ) (slots : List Mapent) : Except String (List Mapent) := do
  let kept ← survivors (slots.drop (remap + 1))
  return slots.take remap ++ kept ++ slots.drop (remap + kept.length)

/-- `malloc3`: on success the addresses of the three requests. The C function
returns the third of them, and 0 on failure. -/
def malloc3 (mp : Map) (sizes : Fin 3 → ℕ) : Except String (Option (Fin 3 → ℕ) × Map) := do
  let (slots, st) ← search sizes 0 mp.mMap .start
  if st.found = 3 then
    let (slots, a) := [0, 1, 2].foldl (resolveNext sizes st.madd) (slots, fun _ => 0)
    match st.remap with
    | none => return (some a, { mp with mMap := slots })
    | some i => return (some a, { mp with mMap := ← squeeze i slots })
  else return (none, { mp with mMap := [0, 1, 2].foldl (restoreNext sizes st.madd) slots })

end RetroBSD.ResourceMap
