import RetroBSD.ExecImage

/-!
# Access to user memory

`baduaddr`, `copyin` and `copyout` of machdep.c and the part of `select1` that copies the
descriptor sets in. Addresses and lengths are 32-bit words. A copy is recorded as the call of
`bcopy` it makes.

`copyin` and `copyout` look at the first and at the last address of the range only, and the
last address is computed modulo 2^32. What lies between the two is not looked at, and the
last address of an empty range is the one in front of it.
-/

namespace RetroBSD.UserAccess

open Exec UInt32

/-! ## The regions of user memory -/

structure Region where
  start : UInt32
  stop : UInt32

def flash : Region := ⟨0x9d000000 + 192 * 1024, 0x9d000000 + 512 * 1024⟩

def ram : Region := ⟨userDataStart, userDataEnd⟩

def Region.Has (r : Region) (addr : UInt32) : Prop := r.start ≤ addr ∧ addr < r.stop

instance (r : Region) (addr : UInt32) : Decidable (r.Has addr) :=
  inferInstanceAs (Decidable (_ ∧ _))

/-- Every byte of a range lies in the region. The addresses are numbers here: they do not wrap. -/
def Region.Within (r : Region) (addr nbytes : UInt32) : Prop :=
  ∀ i < nbytes.toNat, r.start.toNat ≤ addr.toNat + i ∧ addr.toNat + i < r.stop.toNat

def baduaddr (addr : UInt32) : Bool :=
  if flash.Has addr then false
  else if ram.Has addr then false
  else true

/-! ## Copies -/

def efault : ℕ := 14

structure Copy where
  src : UInt32
  dst : UInt32
  nbytes : UInt32
  deriving DecidableEq

def Copy.written (copy : Copy) : List UInt32 :=
  (List.range copy.nbytes.toNat).map fun i => copy.dst + UInt32.ofNat i

/-- The check of a range of user memory in front of a copy. -/
def checked (user : UInt32) (copy : Copy) : ℕ × List Copy :=
  if baduaddr user ∨ baduaddr (user + copy.nbytes - 1) then (efault, [])
  else (0, [copy])

def copyout (src dst nbytes : UInt32) : ℕ × List Copy := checked dst ⟨src, dst, nbytes⟩

def copyin (src dst nbytes : UInt32) : ℕ × List Copy := checked src ⟨src, dst, nbytes⟩

/-- What a check of a user range promises: success only for a range that lies in one of the
two regions, and success without effect for an empty range at a valid address. -/
def Sound (addr nbytes : UInt32) (result : ℕ × List Copy) : Prop :=
  (result.1 = 0 → flash.Within addr nbytes ∨ ram.Within addr nbytes) ∧
    (nbytes = 0 → baduaddr addr = false → result.1 = 0 ∧ result.2.flatMap Copy.written = [])

/-- The ranges on which looking at the two ends is enough. -/
def EndsDecide (addr nbytes : UInt32) : Prop :=
  if nbytes = 0 then addr ≠ flash.start ∧ addr ≠ ram.start
  else
    baduaddr addr = false → baduaddr (addr + nbytes - 1) = false →
      addr ≤ addr + nbytes - 1 ∧ ¬(ram.Has addr ∧ flash.Has (addr + nbytes - 1))

/-! ## Descriptor sets -/

def nofile : Int32 := 30

/-- `howmany(nd, NFDBITS)`: `NFDBITS` is a `sizeof`, so the sum is unsigned. -/
def howmany (nd : Int32) : UInt32 := (nd.toUInt32 + (32 - 1)) / 32

def maskSize : UInt32 := 4

def setSize : UInt32 := 4

/-- `getbits` for each set in turn: its address in user memory and the array it goes to. -/
def getbits (nbytes : UInt32) : List (UInt32 × UInt32) → ℕ × List Copy
  | [] => (0, [])
  | (name, bits) :: rest =>
    if name = 0 then getbits nbytes rest
    else
      let r := copyin name bits nbytes
      if r.1 ≠ 0 then r
      else ((getbits nbytes rest).1, r.2 ++ (getbits nbytes rest).2)

/-- What `select1` is given, by `select` and by `pselect`. -/
structure SelectArgs where
  nd : Int32
  inSet : UInt32
  ouSet : UInt32
  exSet : UInt32

/-- The number of bytes `select1` copies into an array. -/
def SelectArgs.nbytes (uap : SelectArgs) : UInt32 :=
  howmany (if nofile < uap.nd then nofile else uap.nd) * maskSize

/-- The sets in the order of the calls of `getbits`, with the address of `ibits`. -/
def SelectArgs.sets (uap : SelectArgs) (ibits : UInt32) : List (UInt32 × UInt32) :=
  [(uap.inSet, ibits), (uap.ouSet, ibits + setSize), (uap.exSet, ibits + 2 * setSize)]

/-- The copies into `ibits` at the beginning of `select1`. -/
def select1 (uap : SelectArgs) (ibits : UInt32) : ℕ × List Copy :=
  getbits uap.nbytes (uap.sets ibits)

/-! ## What the two ends decide -/

section Ranges

variable {addr nbytes : UInt32}

theorem Region.has_iff {r : Region} :
    r.Has addr ↔ r.start.toNat ≤ addr.toNat ∧ addr.toNat < r.stop.toNat := by
  rw [Region.Has, le_iff_toNat_le, lt_iff_toNat_lt]

theorem flash_has_iff : flash.Has addr ↔ 0x9d030000 ≤ addr.toNat ∧ addr.toNat < 0x9d080000 :=
  Region.has_iff

theorem ram_has_iff : ram.Has addr ↔ 0x7f008000 ≤ addr.toNat ∧ addr.toNat < 0x7f020000 :=
  Region.has_iff

theorem baduaddr_eq_false_iff : baduaddr addr = false ↔ flash.Has addr ∨ ram.Has addr := by
  unfold baduaddr
  by_cases hflash : flash.Has addr
  · simp [hflash]
  · by_cases hram : ram.Has addr <;> simp [hflash]

/-- A range that is not empty lies in a region when it begins in it and does not run past its end. -/
theorem Region.within_iff {r : Region} (hpos : 0 < nbytes.toNat) :
    r.Within addr nbytes ↔ r.start.toNat ≤ addr.toNat ∧ addr.toNat + nbytes.toNat ≤ r.stop.toNat := by
  constructor
  · intro h
    have hfirst := h 0 hpos
    have hlast := h (nbytes.toNat - 1) (by omega)
    omega
  · rintro ⟨hstart, hstop⟩ i hi
    omega

theorem toNat_last (hpos : 0 < nbytes.toNat) :
    (addr + nbytes - 1).toNat = (addr.toNat + nbytes.toNat - 1) % 2 ^ 32 := by
  rw [UInt32.toNat_sub, UInt32.toNat_add, show (1 : UInt32).toNat = 1 from rfl]
  omega

variable {copy : Copy}

theorem checked_of_good (hfirst : baduaddr addr = false)
    (hlast : baduaddr (addr + copy.nbytes - 1) = false) : checked addr copy = (0, [copy]) := by
  rw [checked, hfirst, hlast]
  rfl

theorem checked_of_bad (h : baduaddr addr ∨ baduaddr (addr + copy.nbytes - 1)) :
    checked addr copy = (efault, []) := if_pos h

theorem checked_eq_zero_iff :
    (checked addr copy).1 = 0 ↔ baduaddr addr = false ∧ baduaddr (addr + copy.nbytes - 1) = false := by
  by_cases h : baduaddr addr ∨ baduaddr (addr + copy.nbytes - 1)
  · rw [checked_of_bad h]
    rcases h with h | h <;> simp [h, efault]
  · rw [not_or, Bool.not_eq_true, Bool.not_eq_true] at h
    simp [checked_of_good h.1 h.2, h]

theorem eq_of_mem_checked {copy' : Copy} (h : copy' ∈ (checked addr copy).2) : copy' = copy := by
  rw [checked] at h
  split_ifs at h
  · cases h
  · exact List.mem_singleton.1 h

/-- The empty range: the address in front of it is a user address too, unless the range is at
the beginning of a region. -/
theorem sound_of_empty (hzero : copy.nbytes = 0) :
    Sound addr copy.nbytes (checked addr copy) ↔ EndsDecide addr copy.nbytes := by
  have hwithin : flash.Within addr copy.nbytes := by
    rw [hzero]
    intro i hi
    exact absurd hi (Nat.not_lt_zero i)
  have hbefore : addr + copy.nbytes - 1 = addr - 1 := by rw [hzero, UInt32.add_zero]
  have hfront : baduaddr addr = false →
      (baduaddr (addr - 1) = false ↔ addr ≠ flash.start ∧ addr ≠ ram.start) := by
    intro hgood
    have hpred : (addr - 1).toNat = (2 ^ 32 - 1 + addr.toNat) % 2 ^ 32 := UInt32.toNat_sub addr 1
    rw [baduaddr_eq_false_iff, flash_has_iff, ram_has_iff] at hgood ⊢
    rw [ne_eq, ne_eq, ← UInt32.toNat_inj, ← UInt32.toNat_inj,
      show flash.start.toNat = 0x9d030000 from rfl, show ram.start.toNat = 0x7f008000 from rfl]
    omega
  rw [EndsDecide, if_pos hzero]
  constructor
  · rintro ⟨-, hempty⟩
    by_cases hgood : baduaddr addr = false
    · have hok := (checked_eq_zero_iff.1 (hempty hzero hgood).1).2
      rw [hbefore] at hok
      exact (hfront hgood).1 hok
    · constructor
      · rintro rfl
        exact hgood (by decide)
      · rintro rfl
        exact hgood (by decide)
  · intro hstart
    refine ⟨fun _ => Or.inl hwithin, fun _ hgood => ?_⟩
    have hok : baduaddr (addr + copy.nbytes - 1) = false := by
      rw [hbefore]
      exact (hfront hgood).2 hstart
    rw [checked_of_good hgood hok]
    simp [Copy.written, hzero]

theorem sound_of_nonempty (hne : copy.nbytes ≠ 0) :
    Sound addr copy.nbytes (checked addr copy) ↔ EndsDecide addr copy.nbytes := by
  have hpos : 0 < copy.nbytes.toNat := by
    rcases Nat.eq_zero_or_pos copy.nbytes.toNat with h | h
    · exact absurd (UInt32.toNat_inj.1 h) hne
    · exact h
  have hlast : (addr + copy.nbytes - 1).toNat = _ := toNat_last hpos
  have hlen := copy.nbytes.toNat_lt
  rw [EndsDecide, if_neg hne, Sound, checked_eq_zero_iff, Region.within_iff hpos, Region.within_iff hpos,
    le_iff_toNat_le, baduaddr_eq_false_iff, baduaddr_eq_false_iff, flash_has_iff, flash_has_iff,
    ram_has_iff, ram_has_iff, show flash.start.toNat = 0x9d030000 from rfl,
    show flash.stop.toNat = 0x9d080000 from rfl, show ram.start.toNat = 0x7f008000 from rfl,
    show ram.stop.toNat = 0x7f020000 from rfl]
  constructor
  · omega
  · intro h
    refine ⟨fun hends => ?_, fun hzero => absurd hzero hne⟩
    omega

variable (addr) in
theorem sound_checked_iff (copy : Copy) :
    Sound addr copy.nbytes (checked addr copy) ↔ EndsDecide addr copy.nbytes := by
  by_cases hzero : copy.nbytes = 0
  · exact sound_of_empty hzero
  · exact sound_of_nonempty hzero

end Ranges

/-! ## What `select1` copies in -/

/-- The first set that is given, which is the first one `getbits` copies. -/
def firstSet (sets : List (UInt32 × UInt32)) : Option UInt32 := (sets.map Prod.fst).find? (· ≠ 0)

variable {copy : Copy} {nbytes : UInt32} {sets : List (UInt32 × UInt32)}

theorem nbytes_of_mem_getbits (h : copy ∈ (getbits nbytes sets).2) : copy.nbytes = nbytes := by
  induction sets with
  | nil => cases h
  | cons set rest ih =>
    obtain ⟨name, bits⟩ := set
    rw [getbits] at h
    dsimp only at h
    have hin : copy ∈ (copyin name bits nbytes).2 → copy.nbytes = nbytes := by
      intro hmem
      rw [eq_of_mem_checked hmem]
    split_ifs at h
    · exact ih h
    · exact hin h
    · rcases List.mem_append.1 h with h | h
      · exact hin h
      · exact ih h

/-- Nothing is copied in when the first set that is given is refused, and only then. -/
theorem getbits_eq_nil_iff :
    (getbits nbytes sets).2 = [] ↔
      ∀ name, firstSet sets = some name → baduaddr name ∨ baduaddr (name + nbytes - 1) := by
  induction sets with
  | nil => simp [getbits, firstSet]
  | cons set rest ih =>
    obtain ⟨name, bits⟩ := set
    rw [getbits]
    split_ifs with hnull
    · rw [ih, firstSet, firstSet, List.map_cons, List.find?_cons_of_neg (by simp [hnull])]
    · rw [firstSet, List.map_cons, List.find?_cons_of_pos (by simp [hnull])]
      by_cases hbad : baduaddr name ∨ baduaddr (name + nbytes - 1)
      · have hin : copyin name bits nbytes = (efault, []) := checked_of_bad hbad
        simp [hin, efault, hbad]
      · have hgood := hbad
        rw [not_or, Bool.not_eq_true, Bool.not_eq_true] at hgood
        have hin : copyin name bits nbytes = (0, [⟨name, bits, nbytes⟩]) := checked_of_good hgood.1 hgood.2
        simp [hin, hbad]

/-- The number of bytes is at most four unless `nd` is below -31, where the sum wraps around
too late. -/
theorem nbytes_le_setSize_iff (uap : SelectArgs) : uap.nbytes ≤ setSize ↔ -32 < uap.nd.toInt := by
  have hint : uap.nd.toInt = if 2 * uap.nd.toUInt32.toNat < 2 ^ 32 then (uap.nd.toUInt32.toNat : ℤ)
      else (uap.nd.toUInt32.toNat : ℤ) - (2 ^ 32 : ℕ) := BitVec.toInt_eq_toNat_cond _
  have hbytes : ∀ nd : Int32, (howmany nd * maskSize).toNat = 4 * ((nd.toUInt32.toNat + 31) % 2 ^ 32 / 32) := by
    intro nd
    rw [UInt32.toNat_mul, howmany, UInt32.toNat_div, UInt32.toNat_add,
      show ((32 - 1 : UInt32)).toNat = 31 from rfl, show (32 : UInt32).toNat = 32 from rfl,
      show maskSize.toNat = 4 from rfl]
    omega
  rw [le_iff_toNat_le, show setSize.toNat = 4 from rfl, SelectArgs.nbytes]
  split_ifs with hmany
  · rw [Int32.lt_iff_toInt_lt, show nofile.toInt = 30 from rfl] at hmany
    exact ⟨fun _ => by omega, fun _ => le_rfl⟩
  · rw [Int32.lt_iff_toInt_lt, show nofile.toInt = 30 from rfl] at hmany
    rw [hbytes]
    split_ifs at hint with hsign
    · omega
    · omega

/-- The check of a user range is sound where looking at its two ends is enough, and `select1`
keeps within its arrays when `nd` is above -32 or the first set that is given is refused. -/
theorem user_checks_sound_iff (addr other nbytes : UInt32) (uap : SelectArgs) (ibits : UInt32) :
    ((Sound addr nbytes (copyin addr other nbytes) ∧ Sound addr nbytes (copyout other addr nbytes)) ↔
        EndsDecide addr nbytes) ∧
      ((∀ copy ∈ (select1 uap ibits).2, copy.nbytes ≤ setSize) ↔
        -32 < uap.nd.toInt ∨ ∀ name, firstSet (uap.sets ibits) = some name →
          baduaddr name ∨ baduaddr (name + uap.nbytes - 1)) := by
  constructor
  · have hin : Sound addr nbytes (copyin addr other nbytes) ↔ EndsDecide addr nbytes :=
      sound_checked_iff addr ⟨addr, other, nbytes⟩
    have hout : Sound addr nbytes (copyout other addr nbytes) ↔ EndsDecide addr nbytes :=
      sound_checked_iff addr ⟨other, addr, nbytes⟩
    rw [hin, hout, and_self]
  · rw [← nbytes_le_setSize_iff, ← getbits_eq_nil_iff]
    constructor
    · intro h
      rcases hcopies : (select1 uap ibits).2 with _ | ⟨copy, rest⟩
      · exact Or.inr hcopies
      · have hmem : copy ∈ (select1 uap ibits).2 := by rw [hcopies]; exact List.mem_cons_self
        rw [← nbytes_of_mem_getbits hmem]
        exact Or.inl (h copy hmem)
    · rintro (hle | hnone) copy hcopy
      · rw [nbytes_of_mem_getbits hcopy]
        exact hle
      · rw [select1, hnone] at hcopy
        cases hcopy

/-- A range from RAM to flash passes `copyin`, so a descriptor set there and a negative `nd`
make `select1` copy 480 megabytes to the kernel stack; and an empty range at the beginning of
the RAM is refused. -/
theorem user_checks_unsound :
    (copyin 0x7f010000 0 0x1e030004).1 = 0 ∧ ¬flash.Within 0x7f010000 0x1e030004 ∧
      ¬ram.Within 0x7f010000 0x1e030004 ∧
      (copyout 0 0x7f008000 0).1 = efault ∧ baduaddr 0x7f008000 = false ∧
      ∃ uap : SelectArgs, uap.nd.toInt = -266862560 ∧
        (select1 uap 0x80000000).2 = [⟨0x7f010000, 0x80000000, 0x1e030004⟩] := by
  refine ⟨by decide, fun h => ?_, fun h => ?_, by decide, by decide, ⟨-266862560, 0x7f010000, 0, 0⟩, by decide,
    by decide⟩
  · exact absurd (h 0 (by decide)).1 (by decide)
  · exact absurd (h 0x20000 (by decide)).2 (by decide)

end RetroBSD.UserAccess
