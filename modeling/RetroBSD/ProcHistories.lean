import RetroBSD.ProcTableRuns

/-!
# The process table over whole histories

Every history of `fork`, `exit` and `wait` keeps the table in order as long as no live
process has the number after that of its group when `newproc` looks through the table. A
history that gives out a number twice takes the numbers once around.
-/

namespace RetroBSD.Procs

open LinkedList Runs Function List

namespace Table

variable {t t' : Table} {p q c parent : Slot}

/-! ## The first table -/

theorem holds_foldl_push {links : BackLinks Queue Slot} {l : Queue → List Slot} (h : links.Holds Doubly l)
    {ps : List Slot} (hps : ps.Nodup) (hnew : ∀ p ∈ ps, ∀ k, p ∉ l k) :
    (ps.foldl (fun l p => l.pushPlain .freeproc p) links).Holds Doubly
      (update l .freeproc (ps.reverse ++ l .freeproc)) := by
  induction ps generalizing links l with
  | nil =>
    rw [reverse_nil, nil_append, update_eq_self]
    exact h
  | cons p ps ih =>
    obtain ⟨hp, hps⟩ := nodup_cons.1 hps
    have hpush := h.pushPlain (fun hB => hB rfl) (hnew p mem_cons_self)
    have hrest := ih hpush hps ?_
    · rw [update_idem] at hrest
      rw [reverse_cons, append_assoc]
      exact hrest
    · intro q hq k hk
      by_cases hkf : k = .freeproc
      · subst hkf
        rcases mem_cons.1 hk with rfl | hk
        · exact hp hq
        · exact hnew q (mem_cons_of_mem _ hq) _ hk
      · rw [update_of_ne hkf] at hk
        exact hnew q (mem_cons_of_mem _ hq) k hk

def firstLists : Queue → List Slot
  | .allproc => [0]
  | .zombproc => []
  | .freeproc => (List.finRange nproc).tail

theorem pqinit_links : pqinit.links.Holds Doubly firstLists := by
  have hempty : BackLinks.Holds (⟨⟨fun _ => none, fun _ => none⟩, fun _ => none⟩ : BackLinks Queue Slot) Doubly
      fun _ => [] := by
    refine ⟨⟨fun _ => .nil, fun _ _ _ h => absurd h not_mem_nil⟩, fun k _ pre i post h => ?_⟩
    simp at h
  have hnodup : (List.finRange nproc).tail.reverse.Nodup := nodup_reverse.2 (nodup_finRange nproc).tail
  have hfree := holds_foldl_push hempty hnodup fun _ _ _ => not_mem_nil
  rw [reverse_reverse, append_nil] at hfree
  have hzero : ∀ k, (0 : Slot) ∉ update (fun _ => []) Queue.freeproc (List.finRange nproc).tail k := by
    intro k
    cases k <;> decide
  have hall := hfree.pushFront hzero .allproc
  have hlists : update (update (fun _ => []) Queue.freeproc (List.finRange nproc).tail) .allproc
      (0 :: update (fun _ => []) Queue.freeproc (List.finRange nproc).tail .allproc) = firstLists := by
    funext k
    cases k <;> rfl
  rw [hlists] at hall
  refine cast (congrArg (BackLinks.Holds · Doubly firstLists) ?_) hall
  rfl

theorem pqinit_sound : pqinit.Sound := by
  have hlist : pqinit.list = firstLists := list_eq pqinit_links
  have hall : ∀ p, p ∈ pqinit.list .allproc ↔ p = 0 := by
    intro p
    exact mem_singleton
  refine ⟨hlist ▸ pqinit_links, fun p => ?_, (hall 0).2 rfl, ⟨fun _ => [], ?_, ?_⟩, ?_, ?_⟩
  · rw [hlist]
    have hcover : ∀ p : Slot, p = 0 ∨ p ∈ (List.finRange nproc).tail := by decide
    rcases hcover p with rfl | hp
    · exact ⟨.allproc, mem_singleton.2 rfl⟩
    · exact ⟨.freeproc, hp⟩
  · exact ⟨fun _ => .nil, fun _ _ _ h => absurd h not_mem_nil⟩
  · intro b p
    refine iff_of_false not_mem_nil ?_
    rintro ⟨⟨hp, hp0⟩, -⟩
    exact hp0 ((hall p).1 hp)
  · intro p hp q hq _
    rw [(hall p).1 hp, (hall q).1 hq]
  · refine ⟨le_rfl, by decide, by decide, fun p _ => .inl le_rfl⟩

theorem pqinit_safe : pqinit.ForkSafe := fun _ _ _ hpos => absurd hpos (lt_irrefl 0)

theorem boot_forked : Forked pqinit boot 0 1 := by
  have hhead : pqinit.links.cells.head .freeproc = some 1 := by decide
  obtain ⟨t', heq, hf⟩ := newproc_spec pqinit_sound 0 hhead
  have hboot : boot = t' := by rw [boot, heq]
  rwa [hboot]

theorem boot_sound : boot.Sound := boot_forked.sound pqinit_sound (boot_forked.fresh pqinit_safe)

theorem boot_lists : boot.list .allproc = [1, 0] ∧ boot.list .zombproc = [] := by
  have hlist : pqinit.list = firstLists := list_eq pqinit_links
  rw [boot_forked.all, boot_forked.zomb, hlist]
  exact ⟨rfl, rfl⟩

theorem boot_mpid : boot.mpid = 1 ∧ boot.pidchecked = 30000 := by
  have hchoice := boot_forked.choice
  have hcompute : pqinit.choosePid pidRetries (pqinit.mpid + 1) pqinit.pidchecked = some (1, 30000) := rfl
  rw [hcompute, Option.some.injEq, Prod.mk.injEq] at hchoice
  exact ⟨hchoice.1.symm, hchoice.2.symm⟩

theorem boot_family : boot.Family := by
  obtain ⟨hall, hzomb⟩ := boot_lists
  refine ⟨?_, ⟨hall ▸ mem_cons_self, by decide⟩, ?_, fun p hp hp0 hp1 => ?_⟩
  · rfl
  · exact boot_mpid.1
  · rw [Used, hall, hzomb] at hp
    simp [hp0, hp1] at hp

/-! ## Calls -/

theorem fork1_cases (h : t.Sound) (p : Slot) (uid : ℤ) : t.fork1 p uid = some (none, t) ∨
    ∃ c t', t.fork1 p uid = some (some (t'.proc c).pPid, t') ∧ Forked t t' p c := by
  rw [fork1]
  cases hhead : t.links.cells.head .freeproc with
  | none => exact .inl rfl
  | some c =>
    dsimp only
    generalize (if uid ≠ 0 then List.length _ else 0) = a
    split_ifs with hfull
    · exact .inl rfl
    · obtain ⟨t', heq, hf⟩ := newproc_spec h p hhead
      rw [heq]
      exact .inr ⟨c, t', rfl, hf⟩

structure Inv (t : Table) : Prop where
  sound : t.Sound
  family : t.Family

theorem Inv.pid_ne_one (h : t.Inv) (hp : t.Runs p) (hp1 : p ≠ 1) : (t.proc p).pPid ≠ 1 := fun hpid =>
  hp1 (h.sound.unique p hp.1 1 h.family.init.1 (hpid.trans h.family.initPid.symm))

def zombies (t : Table) (x : ℤ) : ℕ := (t.list .zombproc).countP fun p => (t.proc p).pPid = x

end Table

open Table

def Event.Exits (x : ℤ) : Event → Prop
  | .exit _ pid _ => pid = x
  | _ => False

def Event.Returns (x : ℤ) : Event → Prop
  | .wait _ _ (.exited _ pid _) => pid = x
  | _ => False

instance (x : ℤ) : DecidablePred (Event.Exits x) := fun e => by
  unfold Event.Exits
  split <;> infer_instance

instance (x : ℤ) : DecidablePred (Event.Returns x) := fun e => by
  unfold Event.Returns
  split <;> infer_instance

/-- A step in which `newproc` looks through the table only when no live process has the
number after that of its group. -/
def SafeStep (t : Table) (e : Event) (t' : Table) : Prop :=
  Step t e t' ∧ ∀ p uid r, e = .fork p uid r → t.ForkSafe

section Steps

variable {t t' : Table} {e : Event} {p q c : Slot}

theorem Step.inv (hs : SafeStep t e t') (h : t.Inv) : t'.Inv := by
  obtain ⟨hstep, hsafe⟩ := hs
  cases hstep with
  | fork hp heq =>
    rcases fork1_cases h.sound _ _ with hnone | ⟨c, t₁, hsome, hf⟩
    · rw [hnone] at heq
      cases heq
      exact h
    · rw [hsome] at heq
      cases heq
      exact ⟨hf.sound h.sound (hf.fresh (hsafe _ _ _ rfl)), hf.family h.sound h.family hp.1⟩
  | exit hp hp1 heq =>
    obtain ⟨t₁, hsome, he⟩ := exit_spec h.sound hp (h.pid_ne_one hp hp1) _ _
    rw [hsome] at heq
    cases heq
    exact ⟨he.sound h.sound hp, he.family h.family hp hp1⟩
  | wait hq heq =>
    rcases wait1_cases h.sound _ _ with ⟨p, t₁, hsome, hp, -, hr⟩ | ⟨r, t₁, hsome, -, ha, -⟩
    · rw [hsome] at heq
      cases heq
      exact ⟨hr.sound h.sound hp, hr.family h.sound h.family hp⟩
    · rw [hsome] at heq
      cases heq
      exact ⟨ha.sound h.sound, ha.family h.family⟩
  | other hp hpid hppid hpptr =>
    have ha := alike_setProc hpid hppid hpptr
    exact ⟨ha.sound h.sound, ha.family h.family⟩

theorem zombies_congr {x : ℤ} (hzomb : t'.list .zombproc = t.list .zombproc)
    (hpid : ∀ p ∈ t.list .zombproc, (t'.proc p).pPid = (t.proc p).pPid) : t'.zombies x = t.zombies x := by
  rw [zombies, hzomb]
  refine countP_congr fun p hp => ?_
  rw [hpid p hp]

/-- An exit makes a zombie, and only a wait takes one away. -/
theorem Step.count (hs : Step t e t') (h : t.Inv) (x : ℤ) :
    (if e.Exits x then 1 else 0) + t.zombies x = (if e.Returns x then 1 else 0) + t'.zombies x := by
  cases hs with
  | fork hp heq =>
    have hsame : t'.zombies x = t.zombies x := by
      rcases fork1_cases h.sound _ _ with hnone | ⟨c, t₁, hsome, hf⟩
      · rw [hnone] at heq
        cases heq
        rfl
      · rw [hsome] at heq
        cases heq
        refine zombies_congr hf.zomb fun p hp => ?_
        rw [hf.proc_of_ne fun hpc => (hf.child_notMem h.sound).2 (hpc ▸ hp)]
    rw [hsame]
    rfl
  | @exit _ p rv _ hp hp1 heq =>
    obtain ⟨t₁, hsome, he⟩ := exit_spec h.sound hp (h.pid_ne_one hp hp1) rv _
    rw [hsome] at heq
    cases heq
    have hcount : t'.zombies x = (if (t.proc p).pPid = x then 1 else 0) + t.zombies x := by
      rw [zombies, he.zomb, countP_cons, he.pid, Nat.add_comm]
      congr 1
      · simp
      · exact countP_congr fun q _ => by rw [he.pid]
    rw [hcount]
    exact (Nat.zero_add _).symm
  | @wait _ q a r hq heq =>
    rcases wait1_cases h.sound q a with ⟨p, t₁, hsome, hp, -, hr⟩ | ⟨r1, t₁, hsome, hnot, ha, -⟩
    · rw [hsome] at heq
      cases heq
      have hperm := perm_cons_erase hp
      have hcount : t.zombies x = (if (t.proc p).pPid = x then 1 else 0) + t'.zombies x := by
        rw [zombies, hperm.countP_eq, countP_cons, zombies, hr.zomb, Nat.add_comm]
        congr 1
        · simp
        · refine countP_congr fun q hq => ?_
          rw [hr.proc_of_ne]
          rintro rfl
          exact (h.sound.nodup .zombproc).not_mem_erase hq
      rw [hcount]
      exact Nat.zero_add _
    · rw [hsome] at heq
      cases heq
      have hsame : t'.zombies x = t.zombies x := zombies_congr (by rw [ha.list]) fun p _ => ha.pid p
      have hret : ¬ (Event.wait q a r).Returns x := by
        cases r with
        | exited p pid status => exact absurd ⟨p, pid, status, rfl⟩ hnot
        | _ => exact id
      rw [hsame, if_neg hret]
      rfl
  | other hp hpid hppid hpptr =>
    have ha := alike_setProc hpid hppid hpptr
    have hsame : (t.setProc _ _).zombies x = t.zombies x := zombies_congr (by rw [ha.list]) fun p _ => ha.pid p
    rw [hsame]
    rfl

end Steps

def exits (x : ℤ) (es : List Event) : ℕ := es.countP fun e => e.Exits x

def returns (x : ℤ) (es : List Event) : ℕ := es.countP fun e => e.Returns x

theorem run_inv {t t' : Table} {es : List Event} (hrun : Run SafeStep t es t') (h : t.Inv) : t'.Inv :=
  hrun.invariant (fun _ _ _ h hs => Step.inv hs h) h

theorem run_count {t t' : Table} {es : List Event} (hrun : Run SafeStep t es t') (h : t.Inv) (x : ℤ) :
    exits x es + t.zombies x = returns x es + t'.zombies x := by
  induction hrun with
  | nil t => rfl
  | @cons t t₁ t' e es hs _ ih =>
    have hfirst := Step.count hs.1 h x
    have hrest := ih (Step.inv hs h)
    have hexits : exits x (e :: es) = exits x es + if e.Exits x then 1 else 0 := by simp [exits, countP_cons]
    have hreturns : returns x (e :: es) = returns x es + if e.Returns x then 1 else 0 := by
      simp [returns, countP_cons]
    omega

namespace Table

variable {t t' : Table} {p q c : Slot}

/-- The table as the rest of the kernel relies on it. -/
structure Good (t : Table) : Prop where
  partition : ∀ p, ∃! k, p ∈ t.list k
  linked : t.links.Holds Doubly t.list
  pfind : ∀ p pid, t.pfind pid = some p ↔ (p ∈ t.list .allproc ∧ p ≠ 0) ∧ (t.proc p).pPid = pid
  parent : ∀ p, t.Used p → 1 < (t.proc p).pPid →
    ∃ q ∈ t.list .allproc, (t.proc p).pPptr = some q ∧ (t.proc q).pPid = (t.proc p).pPpid

theorem Inv.good (h : t.Inv) : t.Good where
  partition p := by
    obtain ⟨k, hk⟩ := h.sound.cover p
    exact ⟨k, hk, fun k' hk' => h.sound.apart hk' hk⟩
  linked := h.sound.links
  pfind _ _ := h.sound.pfind_eq_some
  parent p hp hpid := by
    refine h.family.parent p hp ?_ ?_
    · rintro rfl
      rw [h.family.zeroPid] at hpid
      omega
    · rintro rfl
      rw [h.family.initPid] at hpid
      omega

theorem Inv.calls (h : t.Inv) (hp : t.Runs p) : (∀ uid, t.fork1 p uid ≠ none) ∧
    (p ≠ 1 → ∀ rv g, t.exit p rv g ≠ none) ∧ ∀ a, t.wait1 p a ≠ none := by
  refine ⟨fun uid => ?_, fun hp1 rv g => ?_, fun a => ?_⟩
  · rcases fork1_cases h.sound p uid with hnone | ⟨c, t', hsome, -⟩
    · simp [hnone]
    · simp [hsome]
  · obtain ⟨t', hsome, -⟩ := exit_spec h.sound hp (h.pid_ne_one hp hp1) rv g
    simp [hsome]
  · rcases wait1_cases h.sound p a with ⟨_, _, hsome, -⟩ | ⟨_, _, hsome, -⟩
    · simp [hsome]
    · simp [hsome]

/-- Only the parent of a zombie gets it from `wait1`, and it is a zombie no more. -/
theorem Inv.wait_exited (h : t.Inv) {a : WaitArgs} {pid status : ℤ}
    (heq : t.wait1 q a = some (.exited p pid status, t')) :
    p ∈ t.list .zombproc ∧ (t.proc p).pPptr = some q ∧ pid = (t.proc p).pPid ∧ p ∉ t'.list .zombproc := by
  rcases wait1_cases h.sound q a with ⟨p', t₁, hsome, hp, hwanted, hr⟩ | ⟨r, t₁, hsome, hnot, -⟩
  · rw [hsome] at heq
    cases heq
    refine ⟨hp, hwanted.1, rfl, ?_⟩
    rw [hr.zomb]
    exact (h.sound.nodup .zombproc).not_mem_erase
  · rw [hsome] at heq
    cases heq
    exact absurd ⟨p, pid, status, rfl⟩ hnot

theorem Inv.wait_any (h : t.Inv) {a : WaitArgs} (hp : p ∈ t.list .zombproc) (hq : (t.proc p).pPptr = some q)
    (ha : a.pid = -1) (hs : a.statusFault = false) (hr : a.rusageFault = false) :
    ∃ p' pid status t', t.wait1 q a = some (.exited p' pid status, t') := by
  rcases wait1_cases h.sound q a with ⟨p', t₁, hsome, -⟩ | ⟨r, t₁, -, -, -, hnone, -⟩
  · exact ⟨p', _, _, t₁, hsome⟩
  · refine absurd ⟨hq, .inl ?_⟩ (hnone hs hr p hp)
    rw [waitPid, ha]
    rfl

end Table

/-- After every history in which no number in use is met by chance, the table is in order,
no call panics, and each exited process has been returned by one `wait` of its parent, or
is still there to be returned. -/
theorem run_keeps_procs {es : List Event} {t : Table} (hrun : Run SafeStep boot es t) :
    t.Good ∧ (∀ x, exits x es = returns x es + t.zombies x) ∧
    (∀ p, t.Runs p → (∀ uid, t.fork1 p uid ≠ none) ∧ (p ≠ 1 → ∀ rv g, t.exit p rv g ≠ none) ∧
      ∀ a, t.wait1 p a ≠ none) ∧
    (∀ q a p pid status t', t.wait1 q a = some (.exited p pid status, t') → p ∈ t.list .zombproc ∧
      (t.proc p).pPptr = some q ∧ pid = (t.proc p).pPid ∧ p ∉ t'.list .zombproc) ∧
    ∀ p ∈ t.list .zombproc, ∀ q, (t.proc p).pPptr = some q → ∀ a : WaitArgs, a.pid = -1 → a.statusFault = false →
      a.rusageFault = false → ∃ p' pid status t', t.wait1 q a = some (.exited p' pid status, t') := by
  have hboot : boot.Inv := ⟨boot_sound, boot_family⟩
  have hinv := run_inv hrun hboot
  refine ⟨hinv.good, fun x => ?_, fun p hp => hinv.calls hp, fun q a p pid status t' heq => hinv.wait_exited heq,
    fun p hp q hq a ha hs hr => hinv.wait_any hp hq ha hs hr⟩
  have hzero : boot.zombies x = 0 := by
    rw [zombies, boot_lists.2]
    rfl
  have hcount := run_count hrun hboot x
  rwa [hzero] at hcount

/-! ## A number given out twice -/

namespace Table

variable {t t' : Table} {ps rest : List Slot} {x : Slot → Proc} {p c : Slot} {n k m k' : ℤ}

/-- A table without zombies in which the next child gets the slot `c`. -/
structure Resting (t : Table) (ps : List Slot) (x : Slot → Proc) (c : Slot) (rest : List Slot) (n k : ℤ) : Prop where
  inv : t.Inv
  all : t.list .allproc = ps
  zomb : t.list .zombproc = []
  free : t.list .freeproc = c :: rest
  proc : ∀ p ∈ ps, t.proc p = x p
  mpid : t.mpid = n
  pidchecked : t.pidchecked = k

variable (h : Resting t ps x c rest n k)
include h

theorem Resting.fork (p : Slot) :
    ∃ t', t.fork1 p 0 = some (some (t'.proc c).pPid, t') ∧ Forked t t' p c := by
  have hhead := h.inv.sound.links.lists.head_eq h.free
  obtain ⟨t', heq, hf⟩ := newproc_spec h.inv.sound p hhead
  refine ⟨t', ?_, hf⟩
  rw [fork1, hhead, heq]
  simp

theorem Resting.child : c ∉ ps ∧ c ≠ 0 ∧ c ≠ 1 := by
  have hc : c ∈ t.list .freeproc := h.free ▸ mem_cons_self
  have hnot : c ∉ t.list .allproc := fun hmem => absurd (h.inv.sound.apart hmem hc) (by decide)
  refine ⟨h.all ▸ hnot, ?_, ?_⟩
  · rintro rfl
    exact hnot h.inv.sound.zero
  · rintro rfl
    exact hnot h.inv.family.init.1

omit h

def waitAny : WaitArgs := ⟨-1, false, false, false, false⟩

include h

theorem Resting.cycle (hx : ∀ p ∈ ps, (x p).pPptr ≠ some c)
    (hchoice : t.choosePid pidRetries (n + 1) k = some (m, k'))
    (hfresh : ∀ p ∈ ps, (x p).pPid < m ∨ k' ≤ (x p).pPid) :
    ∃ es t', Run Step t es t' ∧ Resting t' ps x c rest m k' := by
  obtain ⟨hcall, hc0, hc1⟩ := h.child
  have hinit := h.inv.family.init
  obtain ⟨t₁, hfork, hf⟩ := h.fork 1
  have hnumbers : t₁.mpid = m ∧ t₁.pidchecked = k' := by
    have hc := hf.choice
    rw [h.mpid, h.pidchecked, hchoice, Option.some.injEq, Prod.mk.injEq] at hc
    exact ⟨hc.1.symm, hc.2.symm⟩
  have hinv1 : t₁.Inv := by
    refine ⟨hf.sound h.inv.sound fun p hp => ?_, hf.family h.inv.sound h.inv.family hinit.1⟩
    rw [hnumbers.1, hnumbers.2, h.proc p (h.all ▸ hp)]
    exact hfresh p (h.all ▸ hp)
  have hruns : t₁.Runs c := ⟨hf.all ▸ mem_cons_self, hc0⟩
  obtain ⟨t₂, hexit, he⟩ := exit_spec hinv1.sound hruns (hinv1.pid_ne_one hruns hc1) 0 ⟨none, 0⟩
  have hinv2 : t₂.Inv := ⟨he.sound hinv1.sound hruns, he.family hinv1.family hruns hc1⟩
  have hzomb2 : t₂.list .zombproc = [c] := by rw [he.zomb, hf.zomb, h.zomb]
  have hpptr : (t₂.proc c).pPptr = some 1 := by
    have hchild : (t₁.proc c).pPptr = some 1 := by
      rw [hf.child]
      rfl
    rw [he.pptr c (.inl hruns.1), hchild, if_neg fun heq => hc1 (Option.some.inj heq).symm]
  obtain ⟨p, t₃, hwait, hp, -, hr⟩ :
    ∃ p t₃, t₂.wait1 1 waitAny = some (.exited p (t₂.proc p).pPid (t₂.proc p).pXstat, t₃) ∧
      p ∈ t₂.list .zombproc ∧ Wanted 1 (t₂.waitPid 1 waitAny) (t₂.proc p) ∧ Reaped t₂ t₃ p := by
    rcases wait1_cases hinv2.sound 1 waitAny with hreaped | ⟨-, -, -, -, -, hnone, -⟩
    · exact hreaped
    · exact absurd ⟨hpptr, .inl rfl⟩ (hnone rfl rfl c (hzomb2 ▸ mem_cons_self))
  obtain rfl : p = c := by
    rw [hzomb2] at hp
    exact mem_singleton.1 hp
  have hall2 : t₂.list .allproc = ps := by rw [he.all, hf.all, erase_cons_head, h.all]
  have hrun : Run Step t [.fork 1 0 (some (t₁.proc p).pPid), .exit p (t₁.proc p).pPid 0,
      .wait 1 waitAny (.exited p (t₂.proc p).pPid (t₂.proc p).pXstat)] t₃ :=
    .cons (.fork ⟨hinit.1, hinit.2⟩ hfork)
      (.cons (.exit hruns hc1 hexit) (.cons (.wait hinv2.family.init hwait) (.nil _)))
  refine ⟨_, t₃, hrun, ⟨hr.sound hinv2.sound hp, hr.family hinv2.sound hinv2.family hp⟩, ?_, ?_, ?_, ?_, ?_, ?_⟩
  · rw [hr.all, hall2]
  · rw [hr.zomb, hzomb2]
    simp
  · have hfree := hf.free
    rw [h.free, cons_eq_cons] at hfree
    rw [hr.free, he.free, ← hfree.2]
  · intro q hq
    have hqp : q ≠ p := fun heq => hcall (heq ▸ hq)
    have hq1 : t₁.proc q = x q := (hf.proc_of_ne hqp).trans (h.proc q hq)
    rw [hr.proc_of_ne hqp, he.other q hqp (by rw [hq1]; exact hx q hq), hq1]
  · rw [hr.mpid, he.mpid, hnumbers.1]
  · rw [hr.pidchecked, he.pidchecked, hnumbers.2]

/-- The count goes on as far as the next number to look out for. -/
theorem Resting.cycles (hx : ∀ p ∈ ps, (x p).pPptr ≠ some c) (j : ℕ)
    (hk : n + j < k) (hb : n + j < 30000) : ∃ es t', Run Step t es t' ∧ Resting t' ps x c rest (n + j) k := by
  induction j with
  | zero =>
    refine ⟨[], t, .nil t, ?_⟩
    simpa using h
  | succ j ih =>
    push_cast at hk hb ⊢
    obtain ⟨es, t₁, hrun, h₁⟩ := ih (by omega) (by omega)
    have hchoice : t₁.choosePid pidRetries (n + j + 1) k = some (n + j + 1, k) :=
      choosePid_next t₁ (by omega) (by omega)
    obtain ⟨es', t', hrun', h'⟩ := h₁.cycle hx hchoice fun p hp => by
      have hgap := h₁.inv.sound.counted.gap p (h₁.all ▸ hp)
      rw [h₁.proc p hp, h₁.mpid, h₁.pidchecked] at hgap
      omega
    refine ⟨es ++ es', t', hrun.append hrun', ?_⟩
    rwa [← add_assoc]

omit h

theorem Resting.grow {c' : Slot} (h : Resting t ps x c (c' :: rest) n k) (hp : p ∈ ps) (hp0 : p ≠ 0) (hk : n + 1 < k)
    (hb : n + 1 < 30000) : ∃ e t', Step t e t' ∧ Resting t' (c :: ps) t'.proc c' rest (n + 1) k ∧
      (∀ q ∈ ps, t'.proc q = x q) ∧ t'.proc c = t.childOf p c (n + 1) := by
  obtain ⟨t', hfork, hf⟩ := h.fork p
  have hnumbers : t'.mpid = n + 1 ∧ t'.pidchecked = k := by
    have hc := hf.choice
    rw [h.mpid, h.pidchecked, choosePid_next t hk hb, Option.some.injEq, Prod.mk.injEq] at hc
    exact ⟨hc.1.symm, hc.2.symm⟩
  have hsafe : t.ForkSafe := by
    rintro (hscan | hscan)
    · rw [h.mpid, h.pidchecked] at hscan
      omega
    · rw [h.mpid] at hscan
      omega
  have hp' : p ∈ t.list .allproc := h.all ▸ hp
  refine ⟨_, t', .fork ⟨hp', hp0⟩ hfork, ⟨⟨hf.sound h.inv.sound (hf.fresh hsafe),
    hf.family h.inv.sound h.inv.family hp'⟩, ?_, ?_, ?_, fun _ _ => rfl, hnumbers.1, hnumbers.2⟩, fun q hq => ?_, ?_⟩
  · rw [hf.all, h.all]
  · rw [hf.zomb, h.zomb]
  · have hfree := hf.free
    rw [h.free, cons_eq_cons] at hfree
    exact hfree.2.symm
  · rw [hf.proc_of_ne fun hqc => h.child.1 (hqc ▸ hq), h.proc q hq]
  · rw [hf.child, hnumbers.1]

theorem boot_resting : Resting boot [1, 0] boot.proc 2 ((List.finRange nproc).drop 3) 1 30000 := by
  refine ⟨⟨boot_sound, boot_family⟩, boot_lists.1, boot_lists.2, ?_, fun _ _ => rfl, boot_mpid.1, boot_mpid.2⟩
  have hfree := boot_forked.free
  rw [list_eq pqinit_links] at hfree
  exact (cons_eq_cons.1 hfree).2.symm

/-- Process 1, a process that leads group 200, and a child of it in that group. -/
structure Pair (x : Slot → Proc) : Prop where
  pid : (x 3).pPid = 201 ∧ (x 2).pPid = 200 ∧ (x 1).pPid = 1 ∧ (x 0).pPid = 0
  pgrp : (x 3).pPgrp = 200 ∧ (x 2).pPgrp = 200 ∧ (x 1).pPgrp = 0 ∧ (x 0).pPgrp = 0
  pptr : ∀ p ∈ [3, 2, 1, 0], (x p).pPptr ≠ some 4

theorem exists_pair : ∃ es t x, Run Step boot es t ∧ Pair x ∧
    Resting t [3, 2, 1, 0] x 4 ((List.finRange nproc).drop 5) 201 30000 := by
  have hone : boot.proc 1 = pqinit.childOf 0 1 boot.mpid := boot_forked.child
  have hzero : boot.proc 0 = pqinit.proc 0 := boot_forked.proc_of_ne (by decide)
  have hpptr : ∀ p ∈ [(1 : Slot), 0], (boot.proc p).pPptr ≠ some 2 := by
    intro p hp
    simp only [mem_cons, not_mem_nil, or_false] at hp
    rcases hp with rfl | rfl
    · decide
    · decide
  obtain ⟨es, t₁, hrun, h₁⟩ := boot_resting.cycles hpptr 198 (by decide) (by decide)
  obtain ⟨e2, t₂, hstep2, h₂, hold2, hnew2⟩ := h₁.grow (p := 1) (by decide) (by decide) (by decide) (by decide)
  -- the process in slot 2 makes itself the leader of a group
  set y := { t₂.proc 2 with pPgrp := 200 }
  have halike : Alike t₂ (t₂.setProc 2 y) := alike_setProc rfl rfl rfl
  have hruns : t₂.Runs 2 := ⟨h₂.all ▸ mem_cons_self, by decide⟩
  have hstep3 : Step t₂ (.other 2) (t₂.setProc 2 y) := .other hruns rfl rfl rfl
  have h₃ : Resting (t₂.setProc 2 y) [2, 1, 0] (t₂.setProc 2 y).proc 3
      (4 :: (List.finRange nproc).drop 5) 200 30000 := by
    refine ⟨⟨halike.sound h₂.inv.sound, halike.family h₂.inv.family⟩, ?_, ?_, ?_,
      fun _ _ => rfl, h₂.mpid, h₂.pidchecked⟩
    · exact h₂.all
    · exact h₂.zomb
    · exact h₂.free
  obtain ⟨e4, t₄, hstep4, h4, hold4, hnew4⟩ := h₃.grow (p := 2) (by decide) (by decide) (by decide) (by decide)
  have hproc3 : ∀ p : Slot, p ≠ 2 → (t₂.setProc 2 y).proc p = t₂.proc p := fun p hp => setProc_of_ne t₂ y hp
  have hself3 : (t₂.setProc 2 y).proc 2 = { t₂.proc 2 with pPgrp := 200 } := by
    rw [setProc_self]
  have hx3 : t₄.proc 3 = (t₂.setProc 2 y).childOf 2 3 201 := hnew4
  have hx2 : t₄.proc 2 = { t₁.childOf 1 2 200 with pPgrp := 200 } := by
    rw [hold4 2 (by decide), hself3, hnew2]
    rfl
  have hx1 : t₄.proc 1 = boot.proc 1 := by rw [hold4 1 (by decide), hproc3 1 (by decide), hold2 1 (by decide)]
  have hx0 : t₄.proc 0 = boot.proc 0 := by rw [hold4 0 (by decide), hproc3 0 (by decide), hold2 0 (by decide)]
  refine ⟨es ++ [e2, .other 2, e4], t₄, t₄.proc,
    hrun.append (.cons hstep2 (.cons hstep3 (.cons hstep4 (.nil _)))), ?_, h4⟩
  refine ⟨?_, ?_, ?_⟩
  · rw [hx3, hx2, hx1, hx0, hone, hzero, boot_mpid.1]
    exact ⟨rfl, rfl, rfl, rfl⟩
  · have hgroup : (t₄.proc 3).pPgrp = 200 := by
      rw [hx3, childOf, hself3]
    rw [hgroup, hx2, hx1, hx0]
    exact ⟨rfl, rfl, rfl, rfl⟩
  · intro p hp
    simp only [mem_cons, not_mem_nil, or_false] at hp
    rcases hp with rfl | rfl | rfl | rfl
    · rw [hx3]
      exact show some (2 : Slot) ≠ some 4 by decide
    · rw [hx2]
      exact show some (1 : Slot) ≠ some 4 by decide
    · rw [hx1, hone]
      exact show some (0 : Slot) ≠ some 4 by decide
    · rw [hx0]
      decide

/-- The scan of a table with the pair: from 100 on the number to look out for is that of
the group, and from there on the number of the child is taken for free. -/
theorem pidScan_pair (h : Pair x) (hproc : ∀ p ∈ [3, 2, 1, 0], t.proc p = x p) :
    t.pidScan [3, 2, 1, 0] 100 30000 = (false, 100, 200) ∧
      t.pidScan [3, 2, 1, 0] 200 30000 = (false, 201, 30000) := by
  obtain ⟨h3, h2, h1, h0⟩ := h.pid
  obtain ⟨g3, g2, g1, g0⟩ := h.pgrp
  simp [pidScan, hproc, h3, h2, h1, h0, g3, g2, g1, g0]

end Table

theorem boot_safe : boot.ForkSafe := by
  rintro (hscan | hscan)
  · rw [boot_mpid.1, boot_mpid.2] at hscan
    exact absurd hscan (by decide)
  · rw [boot_mpid.1] at hscan
    exact absurd hscan (by decide)

/-- Process 1 makes a child. -/
theorem run_keeps_procs_first : ∃ e t, Run SafeStep boot [e] t ∧ t.list .allproc = [2, 1, 0] ∧ t.Good ∧
    (∀ x, exits x [e] = returns x [e] + t.zombies x) ∧ t.Runs 2 ∧ ∀ rv g, t.exit 2 rv g ≠ none := by
  have hrest : Resting boot [1, 0] boot.proc 2 (3 :: (List.finRange nproc).drop 4) 1 30000 := boot_resting
  obtain ⟨e, t, hstep, h, -, -⟩ := hrest.grow (p := 1) (by decide) (by decide) (by decide) (by decide)
  have hrun : Run SafeStep boot [e] t := .cons ⟨hstep, fun _ _ _ _ => boot_safe⟩ (.nil t)
  obtain ⟨hgood, hcount, hcalls, -⟩ := run_keeps_procs hrun
  have hruns : t.Runs 2 := ⟨h.all ▸ mem_cons_self, by decide⟩
  exact ⟨e, t, hrun, h.all, hgood, hcount, hruns, (hcalls 2 hruns).2.1 (by decide)⟩

/-- Once the numbers have gone around, the number 201 is given to a second process while the
first one that has it is alive: `pfind` does not find both. -/
theorem number_given_twice : ∃ es t, Run Step boot es t ∧ (3 : Slot) ∈ t.list .allproc ∧
    (4 : Slot) ∈ t.list .allproc ∧ (t.proc 3).pPid = 201 ∧ (t.proc 4).pPid = 201 ∧ ¬ t.Good := by
  obtain ⟨es₀, t₀, x, hrun₀, hpair, h₀⟩ := exists_pair
  obtain ⟨es₁, t₁, hrun₁, h₁⟩ := h₀.cycles hpair.pptr 29798 (by decide) (by decide)
  have hwrap : t₁.choosePid pidRetries (201 + (29798 : ℕ) + 1) 30000 = some (100, 200) := by
    refine choosePid_of_scan (r := (100, 0)) (by decide) (by decide) ?_
    rw [h₁.all, h₁.zomb]
    exact (pidScan_pair hpair h₁.proc).1
  obtain ⟨es₂, t₂, hrun₂, h₂⟩ := h₁.cycle hpair.pptr hwrap (by
    obtain ⟨h3, h2, h1, h0⟩ := hpair.pid
    simp [h3, h2, h1, h0])
  obtain ⟨es₃, t₃, hrun₃, h₃⟩ := h₂.cycles hpair.pptr 99 (by decide) (by decide)
  obtain ⟨t₄, hfork, hf⟩ := h₃.fork 1
  have hnumber : t₄.mpid = 201 := by
    have htaken : t₃.choosePid pidRetries (100 + (99 : ℕ) + 1) 200 = some (201, 30000) := by
      refine choosePid_of_scan (r := (200, 200)) (by decide) (by decide) ?_
      rw [h₃.all, h₃.zomb]
      exact (pidScan_pair hpair h₃.proc).2
    have hchoice := hf.choice
    rw [h₃.mpid, h₃.pidchecked, htaken] at hchoice
    exact (Prod.mk.inj (Option.some.inj hchoice)).1.symm
  have hstep : Step t₃ _ t₄ := .fork ⟨h₃.all ▸ by decide, by decide⟩ hfork
  have hfirst : (3 : Slot) ∈ t₄.list .allproc := by
    rw [hf.all, h₃.all]
    decide
  have hsecond : (4 : Slot) ∈ t₄.list .allproc := hf.all ▸ mem_cons_self
  have hpid₃ : (t₄.proc 3).pPid = 201 := by
    rw [hf.proc_of_ne (by decide), h₃.proc 3 (by decide)]
    exact hpair.pid.1
  have hpid₄ : (t₄.proc 4).pPid = 201 := by
    rw [hf.child]
    exact hnumber
  refine ⟨_, t₄, hrun₀.append (hrun₁.append (hrun₂.append (hrun₃.append (.cons hstep (.nil _))))), hfirst, hsecond,
    hpid₃, hpid₄, fun hgood => ?_⟩
  have hfind₃ := (hgood.pfind 3 201).2 ⟨⟨hfirst, by decide⟩, hpid₃⟩
  have hfind₄ := (hgood.pfind 4 201).2 ⟨⟨hsecond, by decide⟩, hpid₄⟩
  rw [hfind₃] at hfind₄
  exact absurd hfind₄ (by decide)

end RetroBSD.Procs
