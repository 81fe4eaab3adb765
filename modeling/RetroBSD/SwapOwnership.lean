import RetroBSD.ResourceMapFree
import RetroBSD.ResourceMapTriple
import RetroBSD.Ownership
import RetroBSD.Runs
import RetroBSD.SwapSpace

/-!
# Every swap block has one owner

A block of the swap device is free, in the extent of a temporary unit or in an
area of a swapped process. Each call moves blocks between owners, and each block
keeps exactly one of them, as long as no `TFALLOC` of size 0 or less releases an
extent (that branch of the source frees the extent without forgetting it) and
as long as `mfree` has room for what is given back.
-/

namespace RetroBSD.SwapSpace

open ResourceMap Ownership Runs Function Set

inductive Owner
  | free
  | temp (unit : Fin ntmp)
  | proc (p : Fin nproc) (n : Fin 3)

/-- The blocks of one owner. A unit whose `tdstart` is 0 has no extent. -/
def Swap.owned (s : Swap) : Owner → Set ℕ
  | .free => s.swapmap.freeUnits
  | .temp u => if s.tdstart u = 0 then ∅ else Ico (s.tdstart u) (s.tdstart u + s.tdsize u)
  | .proc p n => Ico (s.pAddr p n) (s.pAddr p n + s.pSize p n)

/-- There is nothing to give back, the range touches a free segment, or the map has a slot for
one more. -/
def Swap.Room (s : Swap) (size addr : ℕ) : Prop :=
  size = 0 ∨ Abuts size addr s.swapmap.segments ∨ s.swapmap.HasRoom

/-- The condition under which a call keeps every block with one owner. -/
def Swap.Safe (s : Swap) : Event → Prop
  | .ioctl unit (.tfalloc offtval) => ∀ h : unit < ntmp, 0 < s.tdstart ⟨unit, h⟩ →
      0 < offtval ∧ s.Room (s.tdsize ⟨unit, h⟩) (s.tdstart ⟨unit, h⟩)
  | .release p n => s.Room (s.pSize p n) (s.pAddr p n)
  | _ => True

def Swap.SafeStep (s : Swap) (e : Event) (s' : Swap) : Prop := s.Safe e ∧ s.Step e s'

structure Swap.Sound (s : Swap) (nswap : ℕ) : Prop where
  wellFormed : s.swapmap.WellFormed
  owned : Partitions s.owned (Ico swapstart (swapstart + nswap))

theorem mfree_range {mp : Map} (hwf : mp.WellFormed) {size addr nswap : ℕ}
    (hn : swapstart + nswap ≤ sizeMod)
    (hsub : Ico addr (addr + size) ⊆ Ico swapstart (swapstart + nswap))
    (hdisj : Disjoint (Ico addr (addr + size)) mp.freeUnits)
    (hroom : size = 0 ∨ Abuts size addr mp.segments ∨ mp.HasRoom) :
    ∃ mp', mfree mp size addr = .ok mp' ∧ mp'.WellFormed ∧
      mp'.freeUnits = mp.freeUnits ∪ Ico addr (addr + size) := by
  rcases Nat.eq_zero_or_pos size with rfl | hsize
  · exact ⟨mp, rfl, hwf, by simp⟩
  · have hlo := hsub (left_mem_Ico.2 (Nat.lt_add_of_pos_right hsize))
    have hhi := hsub (show addr + size - 1 ∈ Ico addr (addr + size) by
      simp only [mem_Ico]; omega)
    simp only [mem_Ico, swapstart] at hlo hhi hn
    obtain ⟨mp', hok, hwf', -, -, hfree⟩ :=
      mfree_spec hwf hsize (by omega) (by omega) hdisj (hroom.resolve_left hsize.ne')
    exact ⟨mp', hok, hwf', hfree⟩

variable {s s' : Swap} {nswap : ℕ}

/-- The first half of `TFALLOC`, seen as a call of its own that also forgets the
extent. -/
def Swap.dropExtent (s : Swap) (unit : Fin ntmp) (freed : Map) : Swap :=
  ⟨freed, update s.tdstart unit 0, s.tdsize, s.pSize, s.pAddr⟩

variable (hs : s.Sound nswap)
include hs

theorem Swap.Sound.dropExtent (hn : swapstart + nswap ≤ sizeMod)
    (unit : Fin ntmp) (hroom : 0 < s.tdstart unit → s.Room (s.tdsize unit) (s.tdstart unit)) :
    ∃ freed, freeExtent s unit = .ok freed ∧ (s.dropExtent unit freed).Sound nswap := by
  by_cases hpos : 0 < s.tdstart unit
  · have hext : s.owned (.temp unit) =
        Ico (s.tdstart unit) (s.tdstart unit + s.tdsize unit) := if_neg hpos.ne'
    obtain ⟨freed, hok, hwf, hfree⟩ := mfree_range hs.wellFormed hn
      (hext ▸ hs.owned.1 (.temp unit))
      (hext ▸ hs.owned.disjoint (show Owner.temp unit ≠ .free from nofun)) (hroom hpos)
    refine ⟨freed, by rw [freeExtent, if_pos hpos, hok], hwf, ?_⟩
    refine hs.owned.transfer (j := .free) le_rfl ?_ (by rw [hext]; exact hfree) ?_
    · simp [Swap.owned, Swap.dropExtent]
    · intro o ho hfr
      cases o with
      | free => exact absurd rfl hfr
      | temp v =>
        have hv : v ≠ unit := fun h => ho (by rw [h])
        simp [Swap.owned, Swap.dropExtent, update_of_ne hv]
      | proc p n => rfl
  · refine ⟨s.swapmap, if_neg hpos, hs.wellFormed, ?_⟩
    have hsame : s.dropExtent unit s.swapmap = s := by
      have hz : s.tdstart unit = 0 := by omega
      rw [Swap.dropExtent, ← hz, update_eq_self]
    rw [hsame]
    exact hs.owned

theorem tfalloc_sound (hn : swapstart + nswap ≤ sizeMod) (unit : Fin ntmp)
    (offtval : ℤ)
    (hsafe : 0 < s.tdstart unit → 0 < offtval ∧ s.Room (s.tdsize unit) (s.tdstart unit)) :
    ∃ r, tfalloc s unit offtval = .ok r ∧ r.2.2.Sound nswap := by
  by_cases hoff : 0 < offtval
  · obtain ⟨freed, hok, hs1⟩ := hs.dropExtent hn unit (fun h => (hsafe h).2)
    obtain ⟨start, left, hmalloc, hwf, -, -, hfit⟩ :=
      malloc_spec hs1.wellFormed (show 0 < offtval.toNat by omega)
    change malloc freed offtval.toNat = _ at hmalloc
    simp only [tfalloc, hok, bind, Except.bind, if_pos hoff, hmalloc]
    rcases hfit with ⟨rfl, hF, -⟩ | ⟨hpos, hF, ⟨b, hmax, hle⟩, -⟩
    · refine ⟨_, rfl, hwf, ?_⟩
      convert hs1.owned using 1
      funext o
      cases o with
      | free => exact hF
      | temp | proc => rfl
    · rw [if_pos hpos]
      refine ⟨_, rfl, hwf, ?_⟩
      refine hs1.owned.transfer (i := .free) (j := .temp unit) ?_ hF ?_ ?_
      · exact (Ico_subset_Ico_right (by omega)).trans hmax.2.1
      · simp [Swap.owned, Swap.dropExtent, hpos.ne']
      · intro o hfr ho
        cases o with
        | free => exact absurd rfl hfr
        | temp v =>
          have hv : v ≠ unit := fun h => ho (by rw [h])
          simp [Swap.owned, Swap.dropExtent, update_of_ne hv]
        | proc p n => rfl
  · have hz : ¬ 0 < s.tdstart unit := fun h => hoff (hsafe h).1
    exact ⟨(offtval, einval, s), by simp only [tfalloc, freeExtent, if_neg hz, if_neg hoff]; rfl,
      hs⟩

theorem swapout_sound (p : Fin nproc) (hp : ∀ n, s.pSize p n = 0)
    (sizes : Fin 3 → ℕ) :
    swapout s p sizes = .error "out of swap space" ∨
      ∃ s', swapout s p sizes = .ok s' ∧ s'.Sound nswap := by
  obtain ⟨r, left, hmalloc, hwf, -, -, hfit⟩ := malloc3_spec hs.wellFormed sizes
  simp only [swapout, hmalloc]
  cases r with
  | none => exact .inl rfl
  | some a =>
    by_cases hz : a 2 = 0
    · exact .inl (if_pos hz)
    refine .inr ⟨_, if_neg hz, hwf, ?_⟩
    obtain ⟨hsub, hdisj, hF⟩ := hfit
    refine hs.owned.transferAll (i := .free) (f := fun n => .proc p n) hsub hdisj hF ?_ ?_
    · simp [Swap.owned, hp]
    · intro o hfr ho
      cases o with
      | free => exact absurd rfl hfr
      | temp v => rfl
      | proc q n =>
        have hq : q ≠ p := fun h => ho n (by rw [h])
        simp only [Swap.owned, update_of_ne hq]

theorem release_sound (hn : swapstart + nswap ≤ sizeMod) (p : Fin nproc)
    (n : Fin 3) (hroom : s.Room (s.pSize p n) (s.pAddr p n)) :
    ∃ s', release s p n = .ok s' ∧ s'.Sound nswap := by
  obtain ⟨freed, hok, hwf, hfree⟩ := mfree_range hs.wellFormed hn (hs.owned.1 (.proc p n))
    (hs.owned.disjoint (show Owner.proc p n ≠ .free from nofun)) hroom
  refine ⟨_, by rw [release, hok]; rfl, hwf, ?_⟩
  refine hs.owned.transfer (i := .proc p n) (j := .free) le_rfl ?_ hfree ?_
  · simp [Swap.owned]
  · intro o ho hfr
    cases o with
    | free => exact absurd rfl hfr
    | temp v => rfl
    | proc q m =>
      by_cases hq : q = p
      · subst hq
        have hm : m ≠ n := fun h => ho (by rw [h])
        simp [Swap.owned, update_of_ne hm]
      · simp [Swap.owned, update_of_ne hq]

/-- One safe call: it returns, unless swap space has run out, and owners stay exclusive. -/
theorem exec_sound (hn : swapstart + nswap ≤ sizeMod) {e : Event}
    (hposs : s.Possible e) (hsafe : s.Safe e) :
    s.exec e = .error "out of swap space" ∨ ∃ s', s.exec e = .ok s' ∧ s'.Sound nswap := by
  cases e with
  | ioctl unit cmd =>
    refine .inr ?_
    by_cases hu : unit < ntmp
    · cases cmd with
      | tfalloc offtval =>
        obtain ⟨r, hok, hs'⟩ := tfalloc_sound hs hn ⟨unit, hu⟩ offtval (hsafe hu)
        exact ⟨r.2.2, by simp [Swap.exec, swcioctl, hu, hok, Except.map], hs'⟩
      | diocgetmediasize | other => exact ⟨s, by simp [Swap.exec, swcioctl, hu, Except.map], hs⟩
    · exact ⟨s, by simp [Swap.exec, swcioctl, hu, Except.map], hs⟩
  | swapout p sizes => exact swapout_sound hs p hposs sizes
  | release p n => exact .inr (release_sound hs hn p n hsafe)

omit hs in
theorem boot_sound (hpos : 0 < nswap) (hn : swapstart + nswap ≤ sizeMod) :
    ∃ s, boot nswap = .ok s ∧ s.Sound nswap := by
  set empty : Map := ⟨List.replicate nproc ⟨0, 0⟩, nproc⟩ with hempty
  have hsegs : empty.segments = [] := rfl
  have hfree : empty.freeUnits = ∅ := by rw [Map.freeUnits, hsegs, SeparatedIntervals.cover_nil]
  have hwf : empty.WellFormed :=
    ⟨by rw [hsegs]; exact ⟨⟨by simp, by simp⟩, by simp⟩, rfl⟩
  obtain ⟨all, hok, hwf', -, -, hall⟩ := mfree_spec hwf hpos
    (by decide) hn (by rw [hfree]; exact disjoint_empty _)
    (.inr ⟨by rw [hsegs]; decide, by decide⟩)
  refine ⟨⟨all, fun _ => 0, fun _ => 0, fun _ _ => 0, fun _ _ => 0⟩, ?_, hwf', ?_, ?_⟩
  · rw [boot, hok]
    rfl
  · rintro (_ | u | ⟨p, n⟩)
    · simp [Swap.owned, hall, hfree]
    · simp [Swap.owned]
    · simp [Swap.owned]
  · intro b hb
    refine ⟨.free, by simpa [Swap.owned, hall, hfree] using hb, ?_⟩
    rintro (_ | u | ⟨p, n⟩) ho
    · rfl
    · simp [Swap.owned] at ho
    · simp [Swap.owned] at ho

theorem Swap.SafeStep.sound (hn : swapstart + nswap ≤ sizeMod) {e : Event}
    (h : s.SafeStep e s') : s'.Sound nswap := by
  obtain ⟨hsafe, hposs, hexec⟩ := h
  rcases exec_sound hs hn hposs hsafe with herr | ⟨s1, hok, hs1⟩
  · rw [hexec] at herr
    cases herr
  · rw [hexec] at hok
    cases hok
    exact hs1

omit hs

/-- After any calls that meet the condition, in any order, every swap block has one
owner, nothing that could be freed is already free, and the next such call does not
fail except for lack of space. -/
theorem safe_run_one_owner {t : Swap} {es : List Event} (hpos : 0 < nswap)
    (hn : swapstart + nswap ≤ sizeMod) (hboot : boot nswap = .ok s)
    (hrun : Run Swap.SafeStep s es t) :
    (∀ b ∈ Ico swapstart (swapstart + nswap), ∃! o, b ∈ t.owned o) ∧
      (∀ o, o ≠ .free → Disjoint (t.owned o) (t.owned .free)) ∧
      ∀ e, t.Possible e → t.Safe e →
        t.exec e = .error "out of swap space" ∨ ∃ t', t.exec e = .ok t' := by
  obtain ⟨s₀, hok, hs₀⟩ := boot_sound hpos hn
  obtain rfl := Except.ok.inj (hok.symm.trans hboot)
  have ht : t.Sound nswap :=
    hrun.invariant (I := fun s => s.Sound nswap) (fun _ _ _ hs h => h.sound hs hn) hs₀
  refine ⟨ht.owned.2, fun o ho => ht.owned.disjoint ho, fun e hposs hsafe => ?_⟩
  exact (exec_sound ht hn hposs hsafe).imp id fun ⟨t', hexec, _⟩ => ⟨t', hexec⟩

/-- An extent is allocated and then replaced by a larger one. -/
theorem safe_run_one_owner_ten_blocks :
    ∃ s t, boot 10 = .ok s ∧
      Run Swap.SafeStep s [.ioctl 0 (.tfalloc 3), .ioctl 0 (.tfalloc 5)] t ∧
      ∀ b ∈ Ico swapstart (swapstart + 10), ∃! o, b ∈ t.owned o := by
  have hroom : (⟨⟨7, 4⟩ :: List.replicate 24 ⟨0, 0⟩, nproc⟩ : Map).HasRoom :=
    ⟨by decide, by decide⟩
  obtain ⟨s, t, hboot, hrun⟩ : ∃ s t, boot 10 = .ok s ∧
      Run Swap.SafeStep s [.ioctl 0 (.tfalloc 3), .ioctl 0 (.tfalloc 5)] t :=
    ⟨_, _, rfl, .cons ⟨fun _ h => absurd h (lt_irrefl 0), trivial, rfl⟩
      (.cons ⟨fun _ _ => ⟨by decide, .inr (.inr hroom)⟩, trivial, rfl⟩ (.nil _))⟩
  exact ⟨s, t, hboot, hrun, (safe_run_one_owner (by decide) (by decide) hboot hrun).1⟩

/-- `TFALLOC` of size 0 leaves the extent it frees on record: the same blocks are
free and in the extent, and the next `TFALLOC` frees them again. -/
theorem tfalloc_zero_two_owners :
    ∃ s t b, boot 10 = .ok s ∧ b ∈ Ico swapstart (swapstart + 10) ∧
      Run Swap.Step s [.ioctl 0 (.tfalloc 5), .ioctl 0 (.tfalloc 0)] t ∧
      b ∈ t.owned .free ∧ b ∈ t.owned (.temp ⟨0, by decide⟩) :=
  ⟨_, _, 1, rfl, by decide, .cons ⟨trivial, rfl⟩ (.cons ⟨trivial, rfl⟩ (.nil _)),
    ⟨⟨10, 1⟩, List.mem_cons_self, by decide, by decide⟩, by
      rw [Swap.owned, if_neg (by decide)]
      decide⟩

end RetroBSD.SwapSpace
