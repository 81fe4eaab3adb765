import RetroBSD.ProcHistories

/-!
# Numbers of new processes and process groups

A new process gets a number that no process, live or zombie, has or has for its group, as
long as no group gets a number that `newproc` has looked at already: between `mpid` and
`pidchecked` it does not look again.
-/

namespace RetroBSD.Procs

open LinkedList Runs

namespace Table

variable {t t' : Table} {p q c : Slot}

def esrch : ℕ := 3

def eperm : ℕ := 1

def inferior (t : Table) (caller : Slot) : ℕ → Slot → Bool
  | 0, _ => false
  | fuel + 1, p =>
    if p = caller then true
    else if (t.proc p).pPpid = 0 then false
    else
      match (t.proc p).pPptr with
      | none => false
      | some q => inferior t caller fuel q

/-- `setpgrp` by a process whose effective user is `uid`. A group number is a `short`. -/
def setpgrp (t : Table) (caller : Slot) (uid pid pgrp : ℤ) : Except ℕ Table :=
  let pid := if pid = 0 then (t.proc caller).pPid else pid
  match t.pfind pid with
  | none => .error esrch
  | some p =>
    if (t.proc p).pUid ≠ uid ∧ uid ≠ 0 ∧ ¬t.inferior caller nproc p then .error eperm
    else .ok (t.setProc p { t.proc p with pPgrp := pgrp.bmod 65536 })

theorem setpgrp_step (h : t.Sound) {uid pid pgrp : ℤ} (heq : t.setpgrp q uid pid pgrp = .ok t') :
    ∃ p, Step t (.other p) t' ∧ (t'.proc p).pPgrp = pgrp.bmod 65536 := by
  rw [setpgrp] at heq
  cases hfind : t.pfind (if pid = 0 then (t.proc q).pPid else pid) with
  | none =>
    rw [hfind] at heq
    cases heq
  | some p =>
    rw [hfind] at heq
    dsimp only at heq
    split_ifs at heq
    cases heq
    exact ⟨p, .other (h.pfind_eq_some.1 hfind).1 rfl rfl rfl, by rw [setProc_self]⟩

/-- `newproc` does not look at the number again. -/
def Settled (t : Table) (x : ℤ) : Prop := t.mpid < x ∧ x < t.pidchecked

/-- No process has a number, or a group, that is not looked at again. -/
def Unclaimed (t : Table) : Prop := ∀ p, t.Used p → ¬t.Settled (t.proc p).pPid ∧ ¬t.Settled (t.proc p).pPgrp

/-- When the table is looked through, no process has a number next to that of its group. -/
def ScanSafe (t : Table) : Prop := t.Scans → ∀ p, t.Used p → Spaced (t.proc p)

theorem ScanSafe.forkSafe (h : t.ScanSafe) : t.ForkSafe := fun hscan p hp => (h hscan p (.inl hp)).1

theorem choosePid_clear (h : t.Counted) (hu : t.Unclaimed) (hsafe : t.ScanSafe) :
    ∃ m c, t.choosePid pidRetries (t.mpid + 1) t.pidchecked = some (m, c) ∧ 1 ≤ m ∧ m < 30000 ∧
      ∀ p, t.Used p → ((t.proc p).pPid < m ∨ c ≤ (t.proc p).pPid) ∧
        ((t.proc p).pPgrp < m ∨ c ≤ (t.proc p).pPgrp) := by
  have hnonneg := h.nonneg
  by_cases hscan : t.Scans
  · obtain ⟨m, c, heq, hm⟩ := choosePid_chosen h hscan
    exact ⟨m, c, heq, hm.pos, hm.bound, fun p hp => hm.clear p hp (hsafe hscan p hp)⟩
  · obtain ⟨hc, hb⟩ := not_or.1 hscan
    refine ⟨_, _, choosePid_next t (not_le.1 hc) (not_le.1 hb), by omega, by omega, fun p hp => ?_⟩
    obtain ⟨hpid, hgrp⟩ := hu p hp
    simp only [Settled] at hpid hgrp
    omega

theorem Forked.unclaimed (hf : Forked t t' p c) (h : t.Sound) (hp : p ∈ t.list .allproc) (hu : t.Unclaimed)
    (hsafe : t.ScanSafe) : t'.Unclaimed := by
  obtain ⟨m, k, heq, -, -, hclear⟩ := choosePid_clear h.counted hu hsafe
  rw [hf.choice] at heq
  obtain ⟨rfl, rfl⟩ := heq
  intro q hq
  simp only [Settled]
  by_cases hqc : q = c
  · have := (hclear p (.inl hp)).2
    rw [hqc, hf.child]
    simp only [childOf]
    omega
  · have hold : t.Used q := by
      rw [Used, hf.all, hf.zomb, List.mem_cons, or_iff_right hqc] at hq
      exact hq
    have := hclear q hold
    rw [hf.proc_of_ne hqc]
    omega

theorem Exited.unclaimed (he : Exited t t' p) (hp : t.Runs p) (hu : t.Unclaimed)
    (hgrp : ¬t.Settled (t'.proc p).pPgrp) : t'.Unclaimed := by
  intro q hq
  rw [Settled, Settled, he.pid, he.mpid, he.pidchecked]
  by_cases hqp : q = p
  · rw [hqp]
    exact ⟨(hu p (.inl hp.1)).1, hgrp⟩
  · rw [he.pgrp q hqp]
    refine hu q (hq.imp (fun hq => ?_) fun hq => ?_)
    · rw [he.all] at hq
      exact List.mem_of_mem_erase hq
    · rw [he.zomb, List.mem_cons, or_iff_right hqp] at hq
      exact hq

theorem Reaped.unclaimed (hr : Reaped t t' p) (h : t.Sound) (hp : p ∈ t.list .zombproc) (hu : t.Unclaimed) :
    t'.Unclaimed := by
  intro q hq
  rw [Used, hr.all, hr.zomb, (h.nodup .zombproc).mem_erase_iff] at hq
  have hqp : q ≠ p := by
    rintro rfl
    rcases hq with hq | hq
    · exact absurd (h.apart hq hp) (by decide)
    · exact hq.1 rfl
  rw [Settled, Settled, hr.proc_of_ne hqp, hr.mpid, hr.pidchecked]
  exact hu q (hq.imp id And.right)

theorem Alike.unclaimed (ha : Alike t t') (hu : t.Unclaimed)
    (hgrp : ∀ p, (t'.proc p).pPgrp = (t.proc p).pPgrp ∨ ¬t.Settled (t'.proc p).pPgrp) : t'.Unclaimed := by
  intro q hq
  rw [Used, ha.list] at hq
  rw [Settled, Settled, ha.pid, ha.mpid, ha.pidchecked]
  refine ⟨(hu q hq).1, ?_⟩
  rcases hgrp q with heq | hnot
  · rw [heq]
    exact (hu q hq).2
  · exact hnot

end Table

open Table

/-- The process of which the event may change the group. -/
def Event.Regroups (p : Slot) : Event → Prop
  | .exit q _ _ => q = p
  | .other q => q = p
  | _ => False

/-- A step in which the table is looked through only when no number is next to that of its
group, and no group gets a number that is not looked at again. -/
structure GroupStep (t : Table) (e : Event) (t' : Table) : Prop where
  step : Step t e t'
  forks : ∀ p uid r, e = .fork p uid r → t.ScanSafe
  groups : ∀ p, e.Regroups p → ¬t.Settled (t'.proc p).pPgrp

variable {t t' : Table} {e : Event}

theorem GroupStep.safe (hs : GroupStep t e t') : SafeStep t e t' :=
  ⟨hs.step, fun p uid r he => (hs.forks p uid r he).forkSafe⟩

theorem GroupStep.unclaimed (hs : GroupStep t e t') (h : t.Inv) (hu : t.Unclaimed) : t'.Unclaimed := by
  obtain ⟨hstep, hforks, hgroups⟩ := hs
  cases hstep with
  | fork hp heq =>
    rcases fork1_cases h.sound _ _ with hnone | ⟨c, t1, hsome, hf⟩
    · rw [hnone] at heq
      cases heq
      exact hu
    · rw [hsome] at heq
      cases heq
      exact hf.unclaimed h.sound hp.1 hu (hforks _ _ _ rfl)
  | exit hp hp1 heq =>
    obtain ⟨t1, hsome, he⟩ := exit_spec h.sound hp (h.pid_ne_one hp hp1) _ _
    rw [hsome] at heq
    cases heq
    exact he.unclaimed hp hu (hgroups _ rfl)
  | wait hq heq =>
    rcases wait1_cases h.sound _ _ with ⟨p, t1, hsome, hp, -, hr⟩ | ⟨r, t1, hsome, -, ha, -, hgrp⟩
    · rw [hsome] at heq
      cases heq
      exact hr.unclaimed h.sound hp hu
    · rw [hsome] at heq
      cases heq
      exact ha.unclaimed hu fun p => .inl (hgrp p)
  | @other p x hp hpid hppid hpptr =>
    refine (alike_setProc hpid hppid hpptr).unclaimed hu fun q => ?_
    by_cases hqp : q = p
    · exact .inr (hqp ▸ hgroups p rfl)
    · exact .inl (by rw [setProc_of_ne t x hqp])

theorem boot_unclaimed : boot.Unclaimed := by
  obtain ⟨hall, hzomb⟩ := boot_lists
  obtain ⟨hmpid, -⟩ := boot_mpid
  intro p hp
  have h0 : boot.proc 0 = pqinit.proc 0 := boot_forked.proc_of_ne (by decide)
  have h1 := boot_forked.child
  rw [Used, hall, hzomb, List.mem_cons, List.mem_singleton] at hp
  rw [Settled, Settled, hmpid]
  rcases hp with (rfl | rfl) | hp
  · rw [h1, hmpid]
    decide
  · rw [h0]
    decide
  · exact absurd hp List.not_mem_nil

/-- After any calls, `newproc` finds a number from 1 to 29999 that is neither the number nor
the group of a process. -/
theorem run_chooses_fresh {es : List Event} (hrun : Run GroupStep boot es t) (hsafe : t.ScanSafe) :
    ∃ m c, t.choosePid pidRetries (t.mpid + 1) t.pidchecked = some (m, c) ∧ 1 ≤ m ∧ m < 30000 ∧
      ∀ p, t.Used p → (t.proc p).pPid ≠ m ∧ (t.proc p).pPgrp ≠ m := by
  have hinv : t.Inv ∧ t.Unclaimed := hrun.invariant (I := fun t => t.Inv ∧ t.Unclaimed)
    (fun _ _ _ h hs => ⟨Step.inv hs.safe h.1, hs.unclaimed h.1 h.2⟩) ⟨⟨boot_sound, boot_family⟩, boot_unclaimed⟩
  obtain ⟨m, c, heq, hpos, hbound, hclear⟩ := choosePid_clear hinv.1.sound.counted hinv.2 hsafe
  have hlt : m < c := by
    obtain ⟨m', c', heq', -, -, hlt, -⟩ := choosePid_total hinv.1.sound.counted
    rw [heq] at heq'
    obtain ⟨rfl, rfl⟩ := heq'
    exact hlt
  refine ⟨m, c, heq, hpos, hbound, fun p hp => ?_⟩
  have := hclear p hp
  omega

def grouped (pgrp : ℤ) : Table := boot.setProc 1 { boot.proc 1 with pPgrp := pgrp }

theorem boot_runs : boot.Runs 1 := ⟨boot_lists.1 ▸ List.mem_cons_self, by decide⟩

theorem grouped_used (pgrp : ℤ) : (grouped pgrp).Used 1 := .inl boot_runs.1

theorem boot_setpgrp : boot.setpgrp 1 0 0 2 = .ok (grouped 2) := rfl

/-- Process 1 makes itself the leader of a group; the next process gets number 2. -/
theorem run_chooses_fresh_leader : Run GroupStep boot [.other 1] (grouped 1) ∧
    ∃ m c, (grouped 1).choosePid pidRetries ((grouped 1).mpid + 1) (grouped 1).pidchecked = some (m, c) ∧ 1 ≤ m ∧
      m < 30000 ∧ ∀ p, (grouped 1).Used p → ((grouped 1).proc p).pPid ≠ m ∧ ((grouped 1).proc p).pPgrp ≠ m := by
  obtain ⟨hmpid, hchecked⟩ := boot_mpid
  have hstep : GroupStep boot (.other 1) (grouped 1) := by
    refine ⟨.other boot_runs rfl rfl rfl, fun _ _ _ h => (nomatch h), ?_⟩
    rintro p rfl ⟨hlt, -⟩
    exact absurd hlt (by decide)
  have hrun : Run GroupStep boot [.other 1] (grouped 1) := .cons hstep (.nil _)
  refine ⟨hrun, run_chooses_fresh hrun fun hscan => ?_⟩
  have hmp : (grouped 1).mpid = 1 := hmpid
  have hch : (grouped 1).pidchecked = 30000 := hchecked
  rw [Scans] at hscan
  exact absurd hscan (by decide)

/-- Process 1 makes 2 its group, and 2 becomes the number of its next child. -/
theorem number_of_group_given : boot.setpgrp 1 0 0 2 = .ok (grouped 2) ∧
    (grouped 2).choosePid pidRetries ((grouped 2).mpid + 1) (grouped 2).pidchecked = some (2, 30000) ∧
    (grouped 2).Used 1 ∧ ((grouped 2).proc 1).pPgrp = 2 := by
  have hmp : (grouped 2).mpid = 1 := boot_mpid.1
  have hch : (grouped 2).pidchecked = 30000 := boot_mpid.2
  refine ⟨boot_setpgrp, ?_, grouped_used 2, by rw [grouped, setProc_self]⟩
  rw [hmp, hch]
  exact choosePid_next _ (by decide) (by decide)

end RetroBSD.Procs
