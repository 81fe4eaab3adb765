import RetroBSD.ResourceMap

/-!
# Swap space

The temporary units of `sys/pic32/swap.c` take extents out of `swapmap`, the map
from which `swapout` of `sys/kernel/vm_swap.c` takes the three segments of a
process and to which `swapin` returns them one by one.
-/

namespace RetroBSD.SwapSpace

open ResourceMap Function

def ntmp : ℕ := 3

def nproc : ℕ := 25

def enodev : ℕ := 19

def einval : ℕ := 22

/-- The commands of `swcioctl`, with the argument found at `addr`. -/
inductive Ioctl
  | tfalloc (offtval : ℤ)
  | diocgetmediasize
  | other

/-- `swapmap`, the tables of the temporary units, and for each process the sizes
and addresses of its data, stack and user areas on the swap device. -/
structure Swap where
  swapmap : Map
  tdstart : Fin ntmp → ℕ
  tdsize : Fin ntmp → ℕ
  pSize : Fin nproc → Fin 3 → ℕ
  pAddr : Fin nproc → Fin 3 → ℕ

/-- The start of `TFALLOC`: an old extent goes back to the map. -/
def freeExtent (s : Swap) (unit : Fin ntmp) : Except String Map :=
  if 0 < s.tdstart unit then mfree s.swapmap (s.tdsize unit) (s.tdstart unit) else .ok s.swapmap

def tfalloc (s : Swap) (unit : Fin ntmp) (offtval : ℤ) : Except String (ℤ × ℕ × Swap) := do
  let freed ← freeExtent s unit
  if 0 < offtval then
    let (start, left) ← malloc freed offtval.toNat
    if 0 < start then
      return (offtval, 0, { s with swapmap := left,
                                   tdstart := update s.tdstart unit start,
                                   tdsize := update s.tdsize unit offtval.toNat })
    else
      return (0, 0, { s with swapmap := left, tdstart := update s.tdstart unit start })
  else return (offtval, einval, { s with swapmap := freed })

def swsize (s : Swap) (unit : Fin ntmp) : ℕ := s.tdsize unit

/-- The value of an unknown command's argument is left alone, so none is given. -/
def swcioctl (s : Swap) (unit : ℕ) (cmd : Ioctl) : Except String (Option ℤ × ℕ × Swap) :=
  if h : unit < ntmp then
    match cmd with
    | .tfalloc offtval => (tfalloc s ⟨unit, h⟩ offtval).map (fun r => (some r.1, r.2))
    | .diocgetmediasize => .ok (some (swsize s ⟨unit, h⟩), einval, s)
    | .other => .ok (none, einval, s)
  else .ok (none, enodev, s)

/-- `swapout`, as far as swap space goes: `sizes` are those of the three areas in
blocks. The test of the source is on the address of the user area. -/
def swapout (s : Swap) (p : Fin nproc) (sizes : Fin 3 → ℕ) : Except String Swap := do
  let (a, left) ← malloc3 s.swapmap sizes
  match a with
  | none => .error "out of swap space"
  | some a =>
    if a 2 = 0 then .error "out of swap space"
    else return { s with swapmap := left, pSize := update s.pSize p sizes,
                         pAddr := update s.pAddr p a }

/-- The return of one area in `swapin`, which sleeps for the transfer before each. -/
def release (s : Swap) (p : Fin nproc) (n : Fin 3) : Except String Swap := do
  let freed ← mfree s.swapmap (s.pSize p n) (s.pAddr p n)
  return { s with swapmap := freed, pSize := update s.pSize p (update (s.pSize p) n 0) }

inductive Event
  | ioctl (unit : ℕ) (cmd : Ioctl)
  | swapout (p : Fin nproc) (sizes : Fin 3 → ℕ)
  | release (p : Fin nproc) (n : Fin 3)

def Swap.exec (s : Swap) : Event → Except String Swap
  | .ioctl unit cmd => (swcioctl s unit cmd).map (fun r => r.2.2)
  | .swapout p sizes => SwapSpace.swapout s p sizes
  | .release p n => SwapSpace.release s p n

/-- A process is swapped out only while it has nothing on the swap device. -/
def Swap.Possible (s : Swap) : Event → Prop
  | .swapout p _ => ∀ n, s.pSize p n = 0
  | _ => True

def Swap.Step (s : Swap) (e : Event) (s' : Swap) : Prop := s.Possible e ∧ s.exec e = .ok s'

def swapstart : ℕ := 1

/-- The swap space at boot: `swapent` is empty, its limit is one slot past the
array, and `main` frees the whole device from block `swapstart` on. -/
def boot (nswap : ℕ) : Except String Swap := do
  let all ← mfree ⟨List.replicate nproc ⟨0, 0⟩, nproc⟩ nswap swapstart
  return ⟨all, fun _ => 0, fun _ => 0, fun _ _ => 0, fun _ _ => 0⟩

end RetroBSD.SwapSpace
