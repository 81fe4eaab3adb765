import RetroBSD.Runs
import Mathlib

/-!
# Partition tables

The runs of fdisk on one disk. A size is the `unsigned int` that `new_part` is called with, and the
driver tells the size of the disk in blocks of two sectors.

`new_part` and `delete_part` take a partition for present by its type, `set_type` by its length,
and the sum that is compared with the size of the disk wraps.
-/

namespace RetroBSD.Fdisk

open Function

/-! ## The model -/

structure Partition where
  status : UInt8
  type : UInt8
  lbastart : UInt32
  lbalength : UInt32

structure Mbr where
  partitions : Fin 4 → Partition
  bootsig : UInt16

variable (m : Mbr) (i : Fin 4)

def Mbr.set (p : Partition) : Mbr := { m with partitions := update m.partitions i p }

def slot (num : ℤ) : Option (Fin 4) :=
  if h : 1 ≤ num ∧ num ≤ 4 then some ⟨(num - 1).toNat, by omega⟩ else none

def setType (pnum type : ℤ) : Mbr :=
  match slot pnum with
  | none => m
  | some i => if 0 < (m.partitions i).lbalength then m.set i { m.partitions i with type := UInt8.ofInt type } else m

def Partition.cleared (p : Partition) : Partition := { p with type := 0, lbastart := 0, lbalength := 0 }

def deletePart (num : ℤ) : Mbr :=
  match slot num with
  | none => m
  | some i => if (m.partitions i).type = 0 then m else m.set i (m.partitions i).cleared

/-- The loop of `new_part` over the slots from the last one down. -/
def freeFrom : List (Fin 4) → Option (Fin 4) → Option (Fin 4)
  | [], num => num
  | i :: is, num => if (m.partitions i).type = 0 then freeFrom is (some i) else num

def freeSlot : Option (Fin 4) := freeFrom m [3, 2, 1, 0] none

def newStart : UInt32 :=
  let start : UInt32 := if i = 0 then 1
    else ((m.partitions (i - 1)).lbastart >>> 1) + ((m.partitions (i - 1)).lbalength >>> 1)
  if start = 0 then 1 else start

def newPart (blocks size : UInt32) (type : ℤ) : Mbr :=
  if type ≤ 0 ∨ 255 < type then m
  else
    match freeSlot m with
    | none => m
    | some i =>
      let start := newStart m i
      if blocks < start + size then m
      else m.set i { m.partitions i with
        lbastart := start <<< 1
        lbalength := (if size = 0 then blocks - start else size) <<< 1
        type := UInt8.ofInt type }

def wipeMbr : Mbr := ⟨fun i => (m.partitions i).cleared, 0xaa55⟩

def pActive : UInt8 := 0x80

def toggleActive (p : ℤ) : Mbr :=
  match slot p with
  | none => m
  | some i =>
    let status := (m.partitions i).status
    m.set i { m.partitions i with
      status := if status &&& pActive ≠ 0 then status &&& ~~~pActive else status ||| pActive }

inductive Command where
  | print
  | delete (num : ℤ)
  | new (wipe : Bool) (size : UInt32) (type : ℤ)
  | active (num : ℤ)
  | type (num type : ℤ)

/-- The table that `new_part` finds. -/
def prepared (wipe : Bool) : Mbr := if wipe = true ∨ m.bootsig ≠ 0xaa55 then wipeMbr m else m

/-- What a run of the program leaves on a disk of `nsectors` sectors. -/
def main (nsectors : UInt32) : Command → Mbr
  | .print => m
  | .delete num => deletePart m num
  | .new wipe size type => newPart (prepared m wipe) (nsectors >>> 1) size type
  | .active num => toggleActive m num
  | .type num type => setType m num type

/-! ## Sane tables -/

def Partition.stop (p : Partition) : ℕ := p.lbastart.toNat + p.lbalength.toNat

structure Sane (nsectors : UInt32) (m : Mbr) : Prop where
  disjoint : ∀ i j x, i ≠ j → (m.partitions i).type ≠ 0 → (m.partitions j).type ≠ 0 →
    ¬((m.partitions i).lbastart.toNat ≤ x ∧ x < (m.partitions i).stop ∧
      (m.partitions j).lbastart.toNat ≤ x ∧ x < (m.partitions j).stop)
  start : ∀ i, (m.partitions i).type ≠ 0 → 2 ≤ (m.partitions i).lbastart.toNat
  stop : ∀ i, (m.partitions i).type ≠ 0 → (m.partitions i).stop ≤ nsectors.toNat

/-- A new partition ends below the place where the sum wraps, and only a partition that is present
by its type, or absent by its length as well, is given a type. -/
def Careful : Command → Prop
  | .new wipe size _ => ∀ i ∈ freeSlot (prepared m wipe), (newStart (prepared m wipe) i).toNat + size.toNat < 2 ^ 32
  | .type num _ => ∀ i ∈ slot num, (m.partitions i).type ≠ 0 ∨ (m.partitions i).lbalength = 0
  | _ => True

def CarefulRun (nsectors : UInt32) : Mbr → List Command → Mbr → Prop :=
  Runs.Run fun m c m' => Careful m c ∧ m' = main m nsectors c

/-- First sector and length of a partition that is present. -/
def Partition.range (p : Partition) : Option (ℕ × ℕ) :=
  if p.type = 0 then none else some (p.lbastart.toNat, p.lbalength.toNat)

/-- The partitions lie in the order of their slots. -/
structure Ordered (nsectors : UInt32) (m : Mbr) : Prop where
  sorted : ∀ i j, i < j → ∀ r ∈ (m.partitions i).range, ∀ r' ∈ (m.partitions j).range, r.1 + r.2 ≤ r'.1
  inside : ∀ i, ∀ r ∈ (m.partitions i).range, 2 ≤ r.1 ∧ r.1 + r.2 ≤ nsectors.toNat ∧ r.1 % 2 = 0 ∧ r.2 % 2 = 0

variable {m i} {nsectors size : UInt32} {p : Partition}

theorem range_of_present (h : p.type ≠ 0) : p.range = some (p.lbastart.toNat, p.lbalength.toNat) := if_neg h

theorem Ordered.sane (h : Ordered nsectors m) : Sane nsectors m := by
  refine ⟨fun i j x hij hi hj => ?_, fun i hi => (h.inside i _ (range_of_present hi)).1,
    fun i hi => (h.inside i _ (range_of_present hi)).2.1⟩
  unfold Partition.stop
  rcases lt_or_gt_of_ne hij with hlt | hlt
  · have := h.sorted i j hlt _ (range_of_present hi) _ (range_of_present hj)
    omega
  · have := h.sorted j i hlt _ (range_of_present hj) _ (range_of_present hi)
    omega

theorem Mbr.set_partitions (m : Mbr) (i : Fin 4) (p : Partition) (j : Fin 4) :
    (m.set i p).partitions j = if j = i then p else m.partitions j := update_apply ..

theorem Ordered.set (h : Ordered nsectors m) (hp : ∀ r ∈ p.range, r ∈ (m.partitions i).range) :
    Ordered nsectors (m.set i p) := by
  have hsub : ∀ j, ∀ r ∈ ((m.set i p).partitions j).range, r ∈ (m.partitions j).range := by
    intro j r hr
    rw [m.set_partitions] at hr
    split_ifs at hr with hj
    · exact hj ▸ hp r hr
    · exact hr
  exact ⟨fun i j hij r hr r' hr' => h.sorted i j hij r (hsub i r hr) r' (hsub j r' hr'),
    fun i r hr => h.inside i r (hsub i r hr)⟩

theorem Ordered.wipe (nsectors : UInt32) (m : Mbr) : Ordered nsectors (wipeMbr m) :=
  ⟨fun _ _ _ _ hr => (by cases hr), fun _ _ hr => by cases hr⟩

/-! ## New partitions -/

theorem freeSlot_spec (h : freeSlot m = some i) :
    (∀ j, i ≤ j → (m.partitions j).type = 0) ∧ (i ≠ 0 → (m.partitions (i - 1)).type ≠ 0) := by
  simp only [freeSlot, freeFrom] at h
  split_ifs at h with h3 h2 h1 h0
  all_goals
    obtain rfl := Option.some.inj h
    refine ⟨fun j hj => ?_, by simp_all⟩
    fin_cases j <;> simp_all

theorem newStart_spec (h : Ordered nsectors m) (hi : freeSlot m = some i) :
    1 ≤ (newStart m i).toNat ∧ ∀ j < i, ∀ r ∈ (m.partitions j).range, r.1 + r.2 ≤ 2 * (newStart m i).toNat := by
  by_cases hzero : i = 0
  · rw [hzero]
    exact ⟨le_rfl, fun j hj => absurd hj (Fin.not_lt_zero j)⟩
  have hprev := range_of_present ((freeSlot_spec hi).2 hzero)
  obtain ⟨hfirst, hstop, heven, heven'⟩ := h.inside _ _ hprev
  set q := m.partitions (i - 1)
  have hsum : (q.lbastart >>> 1 + q.lbalength >>> 1).toNat = q.lbastart.toNat / 2 + q.lbalength.toNat / 2 := by
    have := nsectors.toNat_lt
    simp [Nat.shiftRight_eq_div_pow]
    omega
  have hstart : newStart m i = q.lbastart >>> 1 + q.lbalength >>> 1 := by
    rw [newStart, if_neg hzero, if_neg]
    intro hnull
    rw [hnull] at hsum
    simp at hsum
    omega
  rw [hstart]
  refine ⟨by omega, fun j hj r hr => ?_⟩
  have hcases : ∀ i : Fin 4, i ≠ 0 → ∀ j < i, j = i - 1 ∨ j < i - 1 := by decide
  rcases hcases i hzero j hj with rfl | hlt
  · rw [hprev, Option.mem_some_iff] at hr
    rw [← hr]
    omega
  · have := h.sorted j _ hlt r hr _ hprev
    omega

theorem toNat_double {x : UInt32} (h : x.toNat < 2 ^ 31) : (x <<< 1).toNat = 2 * x.toNat := by
  simp [Nat.shiftLeft_eq]
  omega

/-- A partition that is accepted without the sum wrapping ends within the disk. -/
theorem accepted_end {start : UInt32} (hsum : start.toNat + size.toNat < 2 ^ 32)
    (hfits : ¬nsectors >>> 1 < start + size) :
    start.toNat + (if size = 0 then nsectors >>> 1 - start else size).toNat ≤ nsectors.toNat / 2 := by
  have hblocks : (nsectors >>> 1).toNat = nsectors.toNat / 2 := rfl
  rw [UInt32.not_lt, UInt32.le_iff_toNat_le, UInt32.toNat_add, Nat.mod_eq_of_lt hsum] at hfits
  split_ifs with hzero
  · rw [UInt32.toNat_sub_of_le]
    · omega
    · rw [UInt32.le_iff_toNat_le]
      omega
  · exact hfits

theorem Ordered.newPart (h : Ordered nsectors m) (type : ℤ)
    (hsize : ∀ i ∈ freeSlot m, (newStart m i).toNat + size.toNat < 2 ^ 32) :
    Ordered nsectors (newPart m (nsectors >>> 1) size type) := by
  rw [Fdisk.newPart]
  by_cases htype : type ≤ 0 ∨ 255 < type
  · rwa [if_pos htype]
  rw [if_neg htype]
  cases hslot : freeSlot m with
  | none => exact h
  | some i =>
    obtain ⟨hpos, hprev⟩ := newStart_spec h hslot
    have hsum := hsize i hslot
    dsimp only
    set start := newStart m i
    by_cases hbig : nsectors >>> 1 < start + size
    · rwa [if_pos hbig]
    rw [if_neg hbig]
    have hend := accepted_end hsum hbig
    have hmax := nsectors.toNat_lt
    set size' := if size = 0 then nsectors >>> 1 - start else size
    set p : Partition := ⟨_, UInt8.ofInt type, start <<< 1, size' <<< 1⟩
    have hnew : ∀ r ∈ p.range, r = (2 * start.toNat, 2 * size'.toNat) := by
      intro r hr
      rw [Partition.range] at hr
      split_ifs at hr
      · cases hr
      · rw [← Option.some.inj hr, toNat_double (by omega), toNat_double (by omega)]
    refine ⟨fun a b hab r hr r' hr' => ?_, fun a r hr => ?_⟩
    · rw [m.set_partitions] at hr hr'
      split_ifs at hr' with hb
      · rw [if_neg (hb ▸ hab.ne)] at hr
        rw [hnew r' hr']
        exact hprev a (hb ▸ hab) r hr
      · have hbi : b < i := by
          by_contra hle
          rw [Partition.range, if_pos ((freeSlot_spec hslot).1 b (not_lt.1 hle))] at hr'
          cases hr'
        rw [if_neg (hab.trans hbi).ne] at hr
        exact h.sorted a b hab r hr r' hr'
    · rw [m.set_partitions] at hr
      split_ifs at hr
      · rw [hnew r hr]
        omega
      · exact h.inside a r hr

/-! ## Runs -/

theorem Ordered.main (h : Ordered nsectors m) (c : Command) (hc : Careful m c) :
    Ordered nsectors (main m nsectors c) := by
  cases c with
  | print => exact h
  | delete num =>
    rw [Fdisk.main, deletePart]
    split
    · exact h
    · split_ifs
      · exact h
      · exact h.set fun _ hr => by cases hr
  | new wipe size type =>
    refine Ordered.newPart ?_ type hc
    rw [prepared]
    split_ifs
    · exact .wipe nsectors m
    · exact h
  | active num =>
    rw [Fdisk.main, toggleActive]
    split
    · exact h
    · exact h.set fun _ hr => hr
  | type num type =>
    rw [Fdisk.main, setType]
    split
    · exact h
    · next i hi =>
      split_ifs with hlength
      · refine h.set fun r hr => ?_
        have hpresent := (hc i hi).resolve_right (UInt32.ne_of_lt hlength).symm
        rw [Partition.range] at hr
        split_ifs at hr
        · cases hr
        · rwa [range_of_present hpresent]
      · exact h

/-- Careful runs of the program keep a table sane that was wiped once. -/
theorem careful_runs_keep_sane (nsectors : UInt32) (m : Mbr) {cs : List Command} {m' : Mbr}
    (hrun : CarefulRun nsectors (wipeMbr m) cs m') : Sane nsectors m' := by
  have hordered : Ordered nsectors m' := by
    refine hrun.invariant ?_ (.wipe nsectors m)
    rintro m c _ h ⟨hc, rfl⟩
    exact h.main c hc
  exact hordered.sane

def blank : Mbr := ⟨fun _ => ⟨0, 0, 0, 0⟩, 0⟩

/-- Three partitions are made, the second gets another type and the first is deleted. -/
theorem careful_runs_keep_sane_five :
    let cs : List Command := [.new false 100 0xb7, .new false 200 0xb7, .new false 300 0xb8, .type 2 0xb8, .delete 1]
    let m' := cs.foldl (main · 2000) (wipeMbr blank)
    CarefulRun 2000 (wipeMbr blank) cs m' ∧ (m'.partitions 0).type = 0 ∧ (m'.partitions 1).type = 0xb8 ∧
      (m'.partitions 2).type = 0xb8 ∧ Sane 2000 m' := by
  intro cs m'
  have hrun : CarefulRun 2000 (wipeMbr blank) cs m' :=
    .cons ⟨by simp only [Careful]; decide, rfl⟩ (.cons ⟨by simp only [Careful]; decide, rfl⟩
      (.cons ⟨by simp only [Careful]; decide, rfl⟩ (.cons ⟨by simp only [Careful]; decide, rfl⟩
        (.cons ⟨trivial, rfl⟩ (.nil _)))))
  exact ⟨hrun, by decide, by decide, by decide, careful_runs_keep_sane 2000 blank hrun⟩

/-- A size of -1, and a partition that gets its type back after its sectors were given away. -/
theorem careless_runs :
    ¬Sane 2000 (main (wipeMbr blank) 2000 (.new false 0xffffffff 0xb7)) ∧
      ¬Sane 2000 ([.new false 100 0xb7, .new false 100 0xb7, .type 2 0, .type 1 0, .new false 300 0xb7,
        .type 2 0xb7].foldl (main · 2000) (wipeMbr blank)) :=
  ⟨fun h => absurd (h.stop 0 (by decide)) (by decide),
    fun h => h.disjoint 0 1 300 (by decide) (by decide) (by decide) (by decide)⟩

end RetroBSD.Fdisk
