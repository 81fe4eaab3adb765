import RetroBSD.Counting
import RetroBSD.Descriptors
import RetroBSD.Flock

/-!
# Advisory locks exclude each other

The counts and flags of the inode and of the file structures always describe one lock
with shared or exclusive holders, and while a process sleeps, the lock is held and
`ILWAIT` says that the one who frees it has to wake the sleepers.
-/

namespace RetroBSD.Flock

open Counting ReadersWriter Runs Function Finset System
open Descrip (nfile)

section Locked

variable {P F : Type} {s s' : System P F} {L : Lock F} {f : F} {p : P}

structure Locked (s : System P F) (L : Lock F) : Prop where
  fshlock : ∀ f, (s.file f).fshlock = true ↔ f ∈ L.shared
  fexlock : ∀ f, (s.file f).fexlock = true ↔ f ∈ L.exclusive
  shlockc : s.inode.iShlockc.toNat = L.shared.card
  exlockc : s.inode.iExlockc.toNat = L.exclusive.card
  ishlock : s.inode.ishlock = true ↔ L.shared.Nonempty
  iexlock : s.inode.iexlock = true ↔ L.exclusive.Nonempty
  awaited : ∀ p, Asleep s p → s.inode.ilwait = true ∧ L.Held

theorem Locked.congr (h : Locked s L) (hinode : s'.inode = s.inode)
    (hfile : ∀ f, (s'.file f).fshlock = (s.file f).fshlock ∧ (s'.file f).fexlock = (s.file f).fexlock)
    (hplace : ∀ p, Asleep s' p → Asleep s p) : Locked s' L where
  fshlock f := by rw [(hfile f).1]; exact h.fshlock f
  fexlock f := by rw [(hfile f).2]; exact h.fexlock f
  shlockc := by rw [hinode]; exact h.shlockc
  exlockc := by rw [hinode]; exact h.exlockc
  ishlock := by rw [hinode]; exact h.ishlock
  iexlock := by rw [hinode]; exact h.iexlock
  awaited p hp := by rw [hinode]; exact h.awaited p (hplace p hp)

@[simp] theorem setFile_file [DecidableEq F] (s : System P F) (f g : F) (fp : File) :
    (s.setFile f fp).file g = if g = f then fp else s.file g :=
  update_apply ..

@[simp] theorem setFile_inode [DecidableEq F] (s : System P F) (f : F) (fp : File) :
    (s.setFile f fp).inode = s.inode := rfl

@[simp] theorem setFile_place [DecidableEq F] (s : System P F) (f : F) (fp : File) :
    (s.setFile f fp).place = s.place := rfl

@[simp] theorem goto_place [DecidableEq P] (s : System P F) (p q : P) (x : Place F) :
    (s.goto p x).place q = if q = p then x else s.place q :=
  update_apply ..

@[simp] theorem wakeWaiting_inode (s : System P F) (flags : Bool) : (s.wakeWaiting flags).inode = s.inode := by
  cases flags <;> rfl

@[simp] theorem wakeWaiting_file (s : System P F) (flags : Bool) : (s.wakeWaiting flags).file = s.file := by
  cases flags <;> rfl

@[simp] theorem wakeWaiting_holds (s : System P F) (flags : Bool) : (s.wakeWaiting flags).holds = s.holds := by
  cases flags <;> rfl

theorem wakeWaiting_request (s : System P F) (flags : Bool) (p : P) :
    ((s.wakeWaiting flags).place p).request = (s.place p).request := by
  cases flags with
  | false => rfl
  | true =>
    show (s.place p).wake.request = _
    cases s.place p <;> rfl

theorem not_asleep_wakeWaiting {flags : Bool} (h : ∀ p, Asleep s p → flags = true) (p : P) :
    ¬ Asleep (s.wakeWaiting flags) p := by
  cases flags with
  | false => exact fun hp => absurd (h p hp) Bool.false_ne_true
  | true =>
    rintro ⟨f, cmd, hp⟩
    replace hp : (s.place p).wake = .asleep f cmd := hp
    cases hs : s.place p <;> rw [hs] at hp <;> cases hp

theorem asleep_goto [DecidableEq P] {x : Place F} (hx : ∀ f cmd, x ≠ .asleep f cmd) {q : P}
    (h : Asleep (s.goto p x) q) :
    Asleep s q := by
  obtain ⟨f, cmd, h⟩ := h
  rw [goto_place] at h
  split_ifs at h
  · exact absurd h (hx f cmd)
  · exact ⟨f, cmd, h⟩

theorem Locked.goto [DecidableEq P] (h : Locked s L) {x : Place F} (hx : ∀ f cmd, x ≠ .asleep f cmd) :
    Locked (s.goto p x) L :=
  h.congr rfl (fun _ => ⟨rfl, rfl⟩) fun _ => asleep_goto hx

theorem toNat_sub_one {c : UInt16} (h : 0 < c.toNat) : (c - 1).toNat = c.toNat - 1 := by
  have hle : (1 : UInt16) ≤ c := UInt16.le_iff_toNat_le.2 h
  rw [UInt16.toNat_sub_of_le _ _ hle]
  rfl

theorem toNat_add_one {c : UInt16} {n : ℕ} (h : c.toNat < n) (hn : n < 2 ^ 16) : (c + 1).toNat = c.toNat + 1 :=
  Nat.mod_eq_of_lt (show c.toNat + 1 < 2 ^ 16 by omega)

theorem unlockShared_inode [DecidableEq F] (s : System P F) (f : F) (flags : Bool) :
    (s.unlockShared f flags).inode =
      { s.inode with
        iShlockc := s.inode.iShlockc - 1
        ishlock := if s.inode.iShlockc - 1 = 0 then false else s.inode.ishlock } := by
  simp only [unlockShared]
  split <;> simp

theorem unlockShared_file [DecidableEq F] (s : System P F) (f g : F) (flags : Bool) :
    (s.unlockShared f flags).file g = if g = f then { s.file f with fshlock := false } else s.file g := by
  simp only [unlockShared]
  split <;> simp

theorem unlockShared_place [DecidableEq F] (s : System P F) (f : F) (flags : Bool) :
    (s.unlockShared f flags).place =
      if s.inode.iShlockc - 1 = 0 then (s.wakeWaiting flags).place else s.place := by
  simp only [unlockShared]
  split
  · cases flags <;> rfl
  · rfl

theorem Locked.unlockShared [DecidableEq F] (h : Locked s L) (hf : f ∈ L.shared) :
    Locked (s.unlockShared f s.inode.ilwait) (L.releaseShared f) := by
  have hpos : 0 < L.shared.card := card_pos.2 ⟨f, hf⟩
  have hcount := toNat_sub_one (h.shlockc ▸ hpos)
  have hcard : (L.releaseShared f).shared.card = L.shared.card - 1 := card_erase_of_mem hf
  rw [h.shlockc, ← hcard] at hcount
  have hzero : s.inode.iShlockc - 1 = 0 ↔ ¬ (L.releaseShared f).shared.Nonempty := by
    rw [← UInt16.toNat_inj, hcount, not_nonempty_iff_eq_empty, ← card_eq_zero]
    rfl
  refine ⟨fun g => ?_, fun g => ?_, ?_, ?_, ?_, ?_, fun q hq => ?_⟩
  · rw [unlockShared_file]
    split_ifs with hg
    · simp [hg, Lock.releaseShared]
    · rw [h.fshlock]
      simp [hg, Lock.releaseShared]
  · rw [unlockShared_file]
    split_ifs with hg
    · rw [hg]
      exact h.fexlock f
    · exact h.fexlock g
  · rw [unlockShared_inode]
    exact hcount
  · rw [unlockShared_inode]
    exact h.exlockc
  · rw [unlockShared_inode]
    split_ifs with hc
    · simpa using hzero.1 hc
    · exact iff_of_true (h.ishlock.2 ⟨f, hf⟩) (not_not.1 (mt hzero.2 hc))
  · rw [unlockShared_inode]
    exact h.iexlock
  · simp only [Asleep, unlockShared_place] at hq
    rw [unlockShared_inode]
    split_ifs at hq with hc
    · exact absurd hq (not_asleep_wakeWaiting (fun p hp => (h.awaited p hp).1) q)
    · exact ⟨(h.awaited q hq).1, .inl (not_not.1 (mt hzero.2 hc))⟩

theorem unlockExclusive_file [DecidableEq F] (s : System P F) (f g : F) (flags : Bool) :
    (s.unlockExclusive f flags).file g = if g = f then { s.file f with fexlock := false } else s.file g := by
  simp only [unlockExclusive]
  split <;> simp

theorem unlockExclusive_inode [DecidableEq F] (s : System P F) (f : F) (flags : Bool) :
    (s.unlockExclusive f flags).inode =
      if s.inode.iExlockc - 1 = 0 then { s.inode with iExlockc := 0, iexlock := false, ilwait := false }
      else { s.inode with iExlockc := s.inode.iExlockc - 1 } := by
  simp only [unlockExclusive]
  split
  · next hc => simp [hc]
  · rfl

theorem unlockExclusive_place [DecidableEq F] (s : System P F) (f : F) (flags : Bool) :
    (s.unlockExclusive f flags).place =
      if s.inode.iExlockc - 1 = 0 then (s.wakeWaiting flags).place else s.place := by
  simp only [unlockExclusive]
  split
  · cases flags <;> rfl
  · rfl

/-- The exclusive holder was alone, so its count always falls to 0. -/
theorem Locked.unlockExclusive [DecidableEq F] (h : Locked s L) (hf : f ∈ L.exclusive) :
    Locked (s.unlockExclusive f s.inode.ilwait) (L.releaseExclusive f) := by
  have hone : L.exclusive.card = 1 := le_antisymm L.one (card_pos.2 ⟨f, hf⟩)
  have hc : s.inode.iExlockc - 1 = 0 := by
    rw [← UInt16.toNat_inj, toNat_sub_one (by rw [h.exlockc, hone]; decide), h.exlockc, hone]
    rfl
  have hcard : (L.releaseExclusive f).exclusive = ∅ := by
    rw [← card_eq_zero, Lock.releaseExclusive, card_erase_of_mem hf, hone]
  have hinode := unlockExclusive_inode s f s.inode.ilwait
  rw [if_pos hc] at hinode
  refine ⟨fun g => ?_, fun g => ?_, ?_, ?_, ?_, ?_, fun q hq => ?_⟩
  · rw [unlockExclusive_file]
    split_ifs with hg
    · rw [hg]
      exact h.fshlock f
    · exact h.fshlock g
  · rw [unlockExclusive_file]
    split_ifs with hg
    · simp [hg, Lock.releaseExclusive]
    · rw [h.fexlock]
      simp [hg, Lock.releaseExclusive]
  · rw [hinode]
    exact h.shlockc
  · simp [hinode, hcard]
  · rw [hinode]
    exact h.ishlock
  · simp [hinode, hcard]
  · simp only [Asleep, unlockExclusive_place, if_pos hc] at hq
    exact absurd hq (not_asleep_wakeWaiting (fun p hp => (h.awaited p hp).1) q)

theorem Locked.inoUnlock [DecidableEq F] (h : Locked s L) (f : F) (sh ex : Bool) :
    ∃ L', Locked (s.inoUnlock f sh ex) L' ∧ L'.shared ⊆ L.shared ∧ L'.exclusive ⊆ L.exclusive ∧
      (sh = true → f ∉ L'.shared) ∧ (ex = true → f ∉ L'.exclusive) := by
  simp only [System.inoUnlock]
  by_cases hsh : f ∈ L.shared
  · have hex : f ∉ L.exclusive := by
      rw [Lock.exclusive_eq_empty ⟨f, hsh⟩]
      exact notMem_empty f
    have hexlock : (s.file f).fexlock = false := Bool.eq_false_iff.2 (mt (h.fexlock f).1 hex)
    rw [hexlock, (h.fshlock f).2 hsh]
    cases sh with
    | false =>
      simp only [Bool.and_false]
      exact ⟨L, h, Finset.Subset.refl _, Finset.Subset.refl _, by simp, fun _ => hex⟩
    | true =>
      simp only [Bool.and_false]
      exact ⟨_, h.unlockShared hsh, erase_subset f _, Finset.Subset.refl _,
        fun _ => notMem_erase f _, fun _ => hex⟩
  · have hshlock : (s.file f).fshlock = false := Bool.eq_false_iff.2 (mt (h.fshlock f).1 hsh)
    rw [hshlock]
    simp only [Bool.and_false, Bool.false_eq_true, if_false]
    split_ifs with hex
    · rw [Bool.and_eq_true] at hex
      exact ⟨_, h.unlockExclusive ((h.fexlock f).1 hex.2), Finset.Subset.refl _, erase_subset f _,
        fun _ => hsh, fun _ => notMem_erase f _⟩
    · rw [Bool.and_eq_true, not_and, h.fexlock] at hex
      exact ⟨L, h, Finset.Subset.refl _, Finset.Subset.refl _, fun _ => hsh, hex⟩

theorem Locked.grantExclusive [DecidableEq F] (h : Locked s L) (f : F) (hshared : L.shared = ∅)
    (hexclusive : L.exclusive = ∅) :
    Locked (s.grantExclusive f) (L.grantExclusive f hshared hexclusive) := by
  have hzero : s.inode.iExlockc.toNat = 0 := by rw [h.exlockc, hexclusive, card_empty]
  refine ⟨fun g => ?_, fun g => ?_, h.shlockc, ?_, h.ishlock, ?_, fun q hq => ?_⟩
  · rw [System.grantExclusive, setFile_file]
    split_ifs with hg
    · rw [hg]
      exact h.fshlock f
    · exact h.fshlock g
  · rw [System.grantExclusive, setFile_file]
    split_ifs with hg
    · simp [hg, Lock.grantExclusive]
    · rw [h.fexlock]
      simp [hg, Lock.grantExclusive]
  · show (s.inode.iExlockc + 1).toNat = (insert f L.exclusive).card
    rw [toNat_add_one (n := 1) (by omega) (by decide), hzero, hexclusive]
    rfl
  · exact iff_of_true rfl ⟨f, mem_insert_self f _⟩
  · exact ⟨(h.awaited q hq).1, .inr ⟨f, mem_insert_self f _⟩⟩

theorem Locked.grantShared [DecidableEq F] [Fintype F] (hF : Fintype.card F < 2 ^ 16) (h : Locked s L) (f : F)
    (hf : f ∉ L.shared) (hexclusive : L.exclusive = ∅) :
    Locked (s.grantShared f) (L.grantShared f hexclusive) := by
  have hcard : (insert f L.shared).card = L.shared.card + 1 := card_insert_of_notMem hf
  have hlt : s.inode.iShlockc.toNat < Fintype.card F := by
    have hle : (insert f L.shared).card ≤ Fintype.card F := card_le_univ _
    rw [h.shlockc]
    omega
  refine ⟨fun g => ?_, fun g => ?_, ?_, h.exlockc, ?_, h.iexlock, fun q hq => ?_⟩
  · rw [System.grantShared, setFile_file]
    split_ifs with hg
    · simp [hg, Lock.grantShared]
    · rw [h.fshlock]
      simp [hg, Lock.grantShared]
  · rw [System.grantShared, setFile_file]
    split_ifs with hg
    · rw [hg]
      exact h.fexlock f
    · exact h.fexlock g
  · show (s.inode.iShlockc + 1).toNat = (insert f L.shared).card
    rw [toNat_add_one hlt hF, h.shlockc, hcard]
  · exact iff_of_true rfl ⟨f, mem_insert_self f _⟩
  · exact ⟨(h.awaited q hq).1, .inl ⟨f, mem_insert_self f _⟩⟩

theorem Locked.block [DecidableEq P] (h : Locked s L) (hheld : L.Held) (p : P) (f : F) (cmd : How) : Locked
    (s.block p f cmd) L := by
  rw [System.block]
  split
  · exact h.goto (by simp)
  · exact ⟨h.fshlock, h.fexlock, h.shlockc, h.exlockc, h.ishlock, h.iexlock, fun _ _ => ⟨rfl, hheld⟩⟩

theorem Locked.inoLockPass [DecidableEq P] [DecidableEq F] [Fintype F] (hF : Fintype.card F < 2 ^ 16)
    (h : Locked s L) (p : P) (f : F) (cmd : How) :
    ∃ L', Locked (s.inoLockPass p f cmd) L' ∧ ∀ g ≠ f, (g ∈ L'.shared → g ∈ L.shared) ∧
      (g ∈ L'.exclusive → g ∈ L.exclusive) := by
  simp only [System.inoLockPass]
  split_ifs with hex hfex hsh hfsh hcmd hcmd
  · obtain ⟨L', h', hshared, hexclusive, _⟩ := h.inoUnlock f false true
    exact ⟨L', h', fun g _ => ⟨fun hg => hshared hg, fun hg => hexclusive hg⟩⟩
  · exact ⟨L, h.block (.inr (h.iexlock.1 hex)) p f cmd, fun _ _ => ⟨id, id⟩⟩
  · obtain ⟨L', h', hshared, hexclusive, _⟩ := h.inoUnlock f true false
    exact ⟨L', h', fun g _ => ⟨fun hg => hshared hg, fun hg => hexclusive hg⟩⟩
  · rw [Bool.and_eq_true] at hsh
    exact ⟨L, h.block (.inl (h.ishlock.1 hsh.2)) p f cmd, fun _ _ => ⟨id, id⟩⟩
  all_goals
    have hgo : Locked (s.goto p .outside) L := h.goto (by simp)
    have hexclusive : L.exclusive = ∅ := by
      rw [h.iexlock, not_nonempty_iff_eq_empty] at hex
      exact hex
  · have hshared : L.shared = ∅ := by
      rw [hcmd, Bool.true_and, h.ishlock, not_nonempty_iff_eq_empty] at hsh
      exact hsh
    refine ⟨_, hgo.grantExclusive f hshared hexclusive, fun g hg => ⟨id, fun hmem => ?_⟩⟩
    exact (mem_insert.1 hmem).resolve_left hg
  · have hf : f ∉ L.shared := by
      rw [Bool.and_eq_true, Bool.not_eq_true'] at hcmd
      exact mt (h.fshlock f).2 (Bool.eq_false_iff.1 hcmd.2)
    refine ⟨_, hgo.grantShared hF f hf hexclusive, fun g hg => ⟨fun hmem => ?_, id⟩⟩
    exact (mem_insert.1 hmem).resolve_left hg
  · exact ⟨L, hgo, fun _ _ => ⟨id, id⟩⟩

/-- What the calls on locks leave alone: the counts of the files, the descriptors, and
the requests of the processes, which may only end. -/
structure Kept (s s' : System P F) : Prop where
  count : ∀ f, (s'.file f).fCount = (s.file f).fCount
  holds : s'.holds = s.holds
  request : ∀ p r, (s'.place p).request = some r → (s.place p).request = some r

theorem Kept.refl (s : System P F) : Kept s s := ⟨fun _ => rfl, rfl, fun _ _ => id⟩

theorem Kept.trans {s1 s2 : System P F} (h : Kept s s1) (h1 : Kept s1 s2) : Kept s s2 :=
  ⟨fun f => (h1.count f).trans (h.count f), h1.holds.trans h.holds,
    fun p r hr => h.request p r (h1.request p r hr)⟩

theorem kept_of_file [DecidableEq F] {fp : File} (hfile : ∀ g, s'.file g = if g = f then fp else s.file g)
    (hcount : fp.fCount = (s.file f).fCount) (hholds : s'.holds = s.holds)
    (hrequest : ∀ p, (s'.place p).request = (s.place p).request) : Kept s s' := by
  refine ⟨fun g => ?_, hholds, fun p r hr => hrequest p ▸ hr⟩
  rw [hfile]
  split_ifs with hg
  · rw [hg, hcount]
  · rfl

theorem kept_goto_outside [DecidableEq P] (s : System P F) (p : P) : Kept s (s.goto p .outside) := by
  refine ⟨fun _ => rfl, rfl, fun q r hr => ?_⟩
  rw [goto_place] at hr
  split_ifs at hr
  · cases hr
  · exact hr

theorem kept_unlockShared [DecidableEq F] (s : System P F) (f : F) (flags : Bool) : Kept s
    (s.unlockShared f flags) := by
  refine kept_of_file (fun g => unlockShared_file s f g flags) rfl ?_ fun p => ?_
  · simp only [unlockShared]
    split <;> simp [setFile]
  · rw [unlockShared_place]
    split
    · exact wakeWaiting_request s flags p
    · rfl

theorem kept_unlockExclusive [DecidableEq F] (s : System P F) (f : F) (flags : Bool) : Kept s
    (s.unlockExclusive f flags) := by
  refine kept_of_file (fun g => unlockExclusive_file s f g flags) rfl ?_ fun p => ?_
  · simp only [unlockExclusive]
    split <;> simp [setFile]
  · rw [unlockExclusive_place]
    split
    · exact wakeWaiting_request s flags p
    · rfl

theorem kept_grantExclusive [DecidableEq F] (s : System P F) (f : F) : Kept s (s.grantExclusive f) :=
  kept_of_file (fun g => setFile_file _ f g _) rfl rfl fun _ => rfl

theorem kept_grantShared [DecidableEq F] (s : System P F) (f : F) : Kept s (s.grantShared f) :=
  kept_of_file (fun g => setFile_file _ f g _) rfl rfl fun _ => rfl

theorem kept_inoUnlock [DecidableEq F] (s : System P F) (f : F) (sh ex : Bool) : Kept s (s.inoUnlock f sh ex) := by
  simp only [System.inoUnlock]
  have hshared : Kept s (if sh && (s.file f).fshlock then s.unlockShared f s.inode.ilwait else s) := by
    split_ifs
    · exact kept_unlockShared s f _
    · exact .refl s
  split_ifs at hshared ⊢
  · exact hshared.trans (kept_unlockExclusive _ f _)
  · exact kept_unlockExclusive _ f _
  · exact hshared
  · exact hshared

theorem kept_block [DecidableEq P] {cmd : How} (hp : s.place p = .again f cmd) : Kept s (s.block p f cmd) := by
  rw [System.block]
  split_ifs
  · exact kept_goto_outside s p
  · refine ⟨fun _ => rfl, rfl, fun q r hr => ?_⟩
    rw [goto_place] at hr
    split_ifs at hr with hq
    · rw [hq, hp]
      exact hr
    · exact hr

theorem kept_inoLockPass [DecidableEq P] [DecidableEq F] {cmd : How} (hp : s.place p = .again f cmd) : Kept s
    (s.inoLockPass p f cmd) := by
  simp only [System.inoLockPass]
  split_ifs
  · exact kept_inoUnlock s f _ _
  · exact kept_block hp
  · exact kept_inoUnlock s f _ _
  · exact kept_block hp
  · exact (kept_goto_outside s p).trans (kept_grantExclusive _ f)
  · exact (kept_goto_outside s p).trans (kept_grantShared _ f)
  · exact kept_goto_outside s p

end Locked

section Invariant

variable {P F : Type} [Fintype P] {s s' : System P F} {L L' : Lock F} {f : F} {p : P}

structure Inv (s : System P F) (L : Lock F) : Prop extends Locked s L where
  counted : ∀ f, (s.file f).fCount = ∑ p, s.holds p f
  busy : ∀ p r, (s.place p).request = some r → 0 < s.holds p r.1
  closed : ∀ f, (s.file f).fCount = 0 → f ∉ L.shared ∧ f ∉ L.exclusive

theorem Inv.holds_le (h : Inv s L) (p : P) (f : F) : s.holds p f ≤ (s.file f).fCount := by
  rw [h.counted]
  exact single_le_sum (f := fun p => s.holds p f) (fun _ _ => Nat.zero_le _) (mem_univ p)

theorem Inv.kept (h : Inv s L) (hlocked : Locked s' L') (hkept : Kept s s')
    (hclosed : ∀ f, (s.file f).fCount = 0 → f ∉ L'.shared ∧ f ∉ L'.exclusive) : Inv s' L' where
  toLocked := hlocked
  counted f := by rw [hkept.count, hkept.holds]; exact h.counted f
  busy p r hr := by rw [hkept.holds]; exact h.busy p r (hkept.request p r hr)
  closed f hf := hclosed f (by rw [← hkept.count]; exact hf)

variable [DecidableEq P] [DecidableEq F]

omit [Fintype P] in
theorem setHolds_holds (s : System P F) (p q : P) (f g : F) (n : ℕ) :
    (s.setHolds p f n).holds q g = if q = p ∧ g = f then n else s.holds q g := by
  rw [setHolds]
  by_cases hq : q = p
  · by_cases hg : g = f <;> simp [hq, hg]
  · simp [hq]

theorem sum_setHolds (s : System P F) (p : P) (f g : F) (n : ℕ) :
    ∑ q, (s.setHolds p f n).holds q g + (if g = f then s.holds p f else 0) =
      ∑ q, s.holds q g + (if g = f then n else 0) := by
  by_cases hg : g = f
  · subst hg
    have hupdate : (fun q => (s.setHolds p g n).holds q g) = update (fun q => s.holds q g) p n := by
      funext q
      rw [setHolds_holds, update_apply]
      simp
    rw [if_pos rfl, if_pos rfl, hupdate]
    exact sum_update_add (fun q => s.holds q g) p n
  · simp [setHolds_holds, hg]

omit [DecidableEq P] in
theorem Inv.inoUnlock (h : Inv s L) (f : F) (sh ex : Bool) :
    ∃ L', Inv (s.inoUnlock f sh ex) L' ∧ (sh = true → f ∉ L'.shared) ∧ (ex = true → f ∉ L'.exclusive) := by
  obtain ⟨L', hlocked, hshared, hexclusive, hsh, hex⟩ := h.toLocked.inoUnlock f sh ex
  refine ⟨L', h.kept hlocked (kept_inoUnlock s f sh ex) fun g hg => ?_, hsh, hex⟩
  obtain ⟨hs, he⟩ := h.closed g hg
  exact ⟨fun hmem => hs (hshared hmem), fun hmem => he (hexclusive hmem)⟩

theorem Inv.recount (h : Inv s L) {n m : ℕ} (hp : (s.place p).request = none)
    (hsum : n + s.holds p f = (s.file f).fCount + m) (hzero : n = 0 → f ∉ L.shared ∧ f ∉ L.exclusive) :
    Inv ((s.setCount f n).setHolds p f m) L := by
  have hfile : ∀ g, ((s.setCount f n).setHolds p f m).file g =
      if g = f then { s.file f with fCount := n } else s.file g := fun g => setFile_file s f g _
  refine ⟨h.toLocked.congr rfl (fun g => ?_) fun _ => id, fun g => ?_, fun q r hr => ?_, fun g hg => ?_⟩
  · rw [hfile]
    split_ifs with hg
    · rw [hg]
      exact ⟨rfl, rfl⟩
    · exact ⟨rfl, rfl⟩
  · have hsums := sum_setHolds (s.setCount f n) p f g m
    replace hsums : ∑ q, ((s.setCount f n).setHolds p f m).holds q g + (if g = f then s.holds p f else 0) =
      ∑ q, s.holds q g + (if g = f then m else 0) := hsums
    rw [← h.counted] at hsums
    rw [hfile]
    split_ifs at hsums ⊢ with hg
    · subst hg
      show n = _
      omega
    · omega
  · have hq : q ≠ p := by
      rintro rfl
      rw [show ((s.setCount f n).setHolds q f m).place q = s.place q from rfl, hp] at hr
      cases hr
    rw [setHolds_holds, if_neg fun hand => hq hand.1]
    exact h.busy q r hr
  · rw [hfile] at hg
    split_ifs at hg with hgf
    · rw [hgf]
      exact hzero hg
    · exact h.closed g hg

theorem Inv.close (h : Inv s L) (hp : (s.place p).request = none) (hf : 0 < s.holds p f) :
    ∃ L', Inv ((s.closef f).setHolds p f (s.holds p f - 1)) L' := by
  have hle := h.holds_le p f
  rw [closef]
  split_ifs with hcount hflag
  · exact ⟨L, h.recount hp (by omega) fun hzero => by omega⟩
  · obtain ⟨L', h', hsh, hex⟩ := h.inoUnlock f true true
    have hkept := kept_inoUnlock s f true true
    have hp' : ((s.inoUnlock f true true).place p).request = none := by
      cases hr : ((s.inoUnlock f true true).place p).request with
      | none => rfl
      | some r => exact absurd (hkept.request p r hr) (by simp [hp])
    refine ⟨L', h'.recount hp' ?_ fun _ => ⟨hsh rfl, hex rfl⟩⟩
    rw [hkept.holds, hkept.count]
    omega
  · rw [Bool.or_eq_true, not_or, h.fshlock, h.fexlock] at hflag
    exact ⟨L, h.recount hp (by omega) fun _ => hflag⟩

theorem Inv.open (h : Inv s L) (hp : (s.place p).request = none) (hf : (s.file f).fCount = 0) :
    Inv ((s.setFile f ⟨1, false, false⟩).setHolds p f (s.holds p f + 1)) L := by
  obtain ⟨hsh, hex⟩ := h.closed f hf
  have hfile : (⟨1, false, false⟩ : File) = { s.file f with fCount := 1 } := by
    simp only [Bool.eq_false_iff.2 (mt (h.fshlock f).1 hsh), Bool.eq_false_iff.2 (mt (h.fexlock f).1 hex)]
  rw [hfile]
  exact h.recount hp (by omega) fun hzero => absurd hzero one_ne_zero

omit [DecidableEq F] in
theorem Inv.fork {q : P} (h : Inv s L) (hq : (s.place q).request = none) (hnone : ∀ f, s.holds q f = 0) :
    Inv { s with
      file := fun f => { s.file f with fCount := (s.file f).fCount + s.holds p f }
      holds := update s.holds q (s.holds p) } L := by
  refine ⟨h.toLocked.congr rfl (fun _ => ⟨rfl, rfl⟩) fun _ => id, fun f => ?_, fun q' r hr => ?_, fun f hf => ?_⟩
  · have hsum : ∀ q', update s.holds q (s.holds p) q' f = s.holds q' f + if q' = q then s.holds p f else 0 := by
      intro q'
      by_cases hq' : q' = q
      · simp [hq', hnone]
      · simp [hq']
    show (s.file f).fCount + s.holds p f = ∑ q', update s.holds q (s.holds p) q' f
    rw [h.counted, sum_congr rfl fun q' _ => hsum q', sum_add_distrib]
    simp
  · have hne : q' ≠ q := by
      rintro rfl
      rw [hq] at hr
      cases hr
    show 0 < update s.holds q (s.holds p) q' r.1
    rw [update_of_ne hne]
    exact h.busy q' r hr
  · exact h.closed f (Nat.eq_zero_of_add_eq_zero_right hf)

omit [DecidableEq F] in
theorem Inv.goto (h : Inv s L) {x : Place F} (hx : ∀ f cmd, x ≠ .asleep f cmd)
    (hbusy : ∀ r, x.request = some r → 0 < s.holds p r.1) : Inv (s.goto p x) L := by
  refine ⟨h.toLocked.goto hx, h.counted, fun q r hr => ?_, h.closed⟩
  rw [goto_place] at hr
  split_ifs at hr with hq
  · rw [hq]
    exact hbusy r hr
  · exact h.busy q r hr

theorem Inv.flock (h : Inv s L) (hf : 0 < s.holds p f) (how : How) : ∃ L', Inv (s.flock p f how) L' := by
  simp only [System.flock]
  split_ifs
  · obtain ⟨L', h', _⟩ := h.inoUnlock f true true
    exact ⟨L', h'⟩
  all_goals first
    | exact ⟨L, h⟩
    | exact ⟨L, h.goto (by simp) (by rintro r ⟨⟩; exact hf)⟩

theorem Inv.step [Fintype F] (hF : Fintype.card F < 2 ^ 16) {ev : Event P F} (h : Inv s L) (hstep : Step s ev s') :
    ∃ L', Inv s' L' := by
  cases ev with
  | «open» p f =>
    obtain ⟨hp, hf, rfl⟩ := hstep
    exact ⟨L, h.open (by rw [hp]; rfl) hf⟩
  | dup p f =>
    obtain ⟨hp, hf, rfl⟩ := hstep
    exact ⟨L, h.recount (by rw [hp]; rfl) (by omega) fun hzero => by omega⟩
  | fork p q =>
    obtain ⟨_, hq, hnone, rfl⟩ := hstep
    exact ⟨L, h.fork (by rw [hq]; rfl) hnone⟩
  | close p f =>
    obtain ⟨hp, hf, rfl⟩ := hstep
    exact h.close (by rw [hp]; rfl) hf
  | flock p f how =>
    obtain ⟨_, hf, rfl⟩ := hstep
    exact h.flock hf how
  | pass p =>
    obtain ⟨f, cmd, hp, rfl⟩ := hstep
    obtain ⟨L', hlocked, hothers⟩ := h.toLocked.inoLockPass hF p f cmd
    refine ⟨L', h.kept hlocked (kept_inoLockPass hp) fun g hg => ?_⟩
    have hne : g ≠ f := by
      rintro rfl
      have hholds : 0 < s.holds p g := h.busy p (g, cmd) (by rw [hp]; rfl)
      have hle := h.holds_le p g
      omega
    exact ⟨mt (hothers g hne).1 (h.closed g hg).1, mt (hothers g hne).2 (h.closed g hg).2⟩
  | resume p =>
    obtain ⟨f, cmd, hp, rfl⟩ := hstep
    refine ⟨L, h.goto (by simp) ?_⟩
    rintro r ⟨⟩
    exact h.busy p (f, cmd) (by rcases hp with hp | hp <;> rw [hp] <;> rfl)
  | interrupt p =>
    obtain ⟨_, rfl⟩ := hstep
    exact ⟨L, h.goto (by simp) (by rintro r ⟨⟩)⟩

end Invariant

section Runs

variable {P : Type} [Fintype P]

def System.start : System P (Fin nfile) where
  inode := ⟨0, 0, false, false, false⟩
  file := fun _ => ⟨0, false, false⟩
  holds := fun _ _ => 0
  place := fun _ => .outside

theorem inv_start : Inv (P := P) .start .free := by
  refine ⟨⟨?_, ?_, rfl, rfl, ?_, ?_, ?_⟩, ?_, ?_, ?_⟩
  all_goals simp [start, Lock.free, Asleep, Place.request]

variable [DecidableEq P]

/-- Whatever the processes do with the files on an inode, the counts are the numbers of
files with the lock, at most one file has it exclusively and then no other has it, the
flags of the inode are set when the counts are positive, and when both counts are 0 no
process is left asleep. -/
theorem run_excludes {es : List (Event P (Fin nfile))} {s : System P (Fin nfile)} (hrun : Run Step .start es s) :
    s.inode.iExlockc.toNat = (Finset.univ.filter fun f => (s.file f).fexlock = true).card ∧
    s.inode.iExlockc.toNat ≤ 1 ∧
    s.inode.iShlockc.toNat = (Finset.univ.filter fun f => (s.file f).fshlock = true).card ∧
    ¬ (0 < s.inode.iExlockc ∧ 0 < s.inode.iShlockc) ∧
    (s.inode.iexlock = true ↔ 0 < s.inode.iExlockc) ∧ (s.inode.ishlock = true ↔ 0 < s.inode.iShlockc) ∧
    (s.inode.iExlockc = 0 → s.inode.iShlockc = 0 → ∀ p, ¬ Asleep s p) := by
  have hinv : ∃ L, Inv s L := by
    refine hrun.invariant (I := fun s => ∃ L, Inv s L) ?_ ⟨_, inv_start⟩
    rintro s ev s' ⟨L, h⟩ hstep
    exact h.step (by decide) hstep
  obtain ⟨L, h⟩ := hinv
  have hex : (Finset.univ.filter fun f => (s.file f).fexlock = true) = L.exclusive := by
    simp [h.fexlock]
  have hsh : (Finset.univ.filter fun f => (s.file f).fshlock = true) = L.shared := by
    simp [h.fshlock]
  have hexpos : 0 < s.inode.iExlockc ↔ L.exclusive.Nonempty := by
    rw [UInt16.lt_iff_toNat_lt, h.exlockc, ← card_pos]
    rfl
  have hshpos : 0 < s.inode.iShlockc ↔ L.shared.Nonempty := by
    rw [UInt16.lt_iff_toNat_lt, h.shlockc, ← card_pos]
    rfl
  refine ⟨by rw [hex, h.exlockc], by rw [h.exlockc]; exact L.one, by rw [hsh, h.shlockc], ?_, ?_, ?_, ?_⟩
  · rw [hexpos, hshpos]
    rintro ⟨hexne, hshne⟩
    rw [L.apart hexne] at hshne
    exact not_nonempty_empty hshne
  · rw [h.iexlock, hexpos]
  · rw [h.ishlock, hshpos]
  · intro hexzero hshzero p hp
    rcases (h.awaited p hp).2 with hne | hne
    · rw [← hshpos, hshzero] at hne
      exact absurd hne (by decide)
    · rw [← hexpos, hexzero] at hne
      exact absurd hne (by decide)

end Runs

/-- A process waits for a shared lock until the exclusive one is closed. -/
theorem run_excludes_two :
    let a : Fin nfile := ⟨3, by decide⟩
    let b : Fin nfile := ⟨5, by decide⟩
    let es : List (Event (Fin 2) (Fin nfile)) :=
      [.open 0 a, .open 1 b, .flock 0 a ⟨false, true, false, false⟩, .pass 0,
      .flock 1 b ⟨true, false, false, false⟩, .pass 1, .close 0 a, .resume 1, .pass 1]
    ∃ s, Run Step .start es s ∧
      s.inode.iExlockc.toNat = (Finset.univ.filter fun f => (s.file f).fexlock = true).card ∧
      s.inode.iExlockc.toNat ≤ 1 ∧
      s.inode.iShlockc.toNat = (Finset.univ.filter fun f => (s.file f).fshlock = true).card ∧
      ¬ (0 < s.inode.iExlockc ∧ 0 < s.inode.iShlockc) ∧
      (s.inode.iexlock = true ↔ 0 < s.inode.iExlockc) ∧ (s.inode.ishlock = true ↔ 0 < s.inode.iShlockc) ∧
      (s.inode.iExlockc = 0 → s.inode.iShlockc = 0 → ∀ p, ¬ Asleep s p) := by
  intro a b es
  have hrun : ∃ s, Run Step .start es s := by
    refine ⟨_, .cons ⟨?_, ?_, rfl⟩ (.cons ⟨?_, ?_, rfl⟩ (.cons ⟨?_, ?_, rfl⟩
      (.cons ⟨a, ⟨false, true, false, false⟩, ?_, rfl⟩ (.cons ⟨?_, ?_, rfl⟩
        (.cons ⟨b, ⟨true, false, false, false⟩, ?_, rfl⟩ (.cons ⟨?_, ?_, rfl⟩
          (.cons ⟨b, ⟨true, false, false, false⟩, .inr ?_, rfl⟩
            (.cons ⟨b, ⟨true, false, false, false⟩, ?_, rfl⟩ (.nil _)))))))))⟩ <;> decide +kernel
  obtain ⟨s, hs⟩ := hrun
  exact ⟨s, hs, run_excludes hs⟩

end RetroBSD.Flock
