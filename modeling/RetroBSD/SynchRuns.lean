import RetroBSD.SynchQueues
import RetroBSD.Runs

/-!
# The queues over whole runs

`Standing` says what a process may be, given whether it is on the run queue and whether
it runs. Every event changes the standing of one process and may then wake others. While
`tsleep` or a stop asks for signals, the process that called it is still running and may
already be on a sleep queue; this is the window `w`. The swapper is woken in the window if
the parent that gets the signal is not loaded, and `wakeup` then panics when the process
is on the queue of `runout`.
-/

namespace RetroBSD.Synch

open LinkedList Cells Kernel Runs Function Option

variable {ι : Type} {a : Addrs ι} {s s' : Kernel ι} {l l' : Queue → List ι} {w w' : Option ι}
  {p parent : ι}
  {chan : ℕ} {x : Proc} {queued running window : Prop} {W : ι → Prop} {chld : Sigchld}

structure Standing (a : Addrs ι) (x : Proc) (queued running window : Prop) : Prop where
  ofQueued : queued → x.pStat = .srun ∧ x.sload = true
  ofRunning : running → x.pStat = .srun ∧ x.sload = true ∧ x.pWchan = 0 ∧ ¬ queued
  asleep : x.pWchan ≠ 0 → x.pStat = .ssleep ∨ x.pStat = .sstop ∨ window
  ready : x.pStat = .srun → x.sload = true → queued ∨ running ∨ window
  apart : window → ¬ queued ∧ ¬ running
  /-- The swapper cannot be interrupted. -/
  swapper : x.sintr = true → x.pWchan ≠ a.runout

theorem Standing.of_not_run (hqueued : ¬ queued) (hrunning : ¬ running) (hstat : x.pStat ≠ .srun)
    (hasleep : x.pWchan ≠ 0 → x.pStat = .ssleep ∨ x.pStat = .sstop)
    (hswapper : x.sintr = true → x.pWchan ≠ a.runout) : Standing a x queued running window where
  ofQueued h := absurd h hqueued
  ofRunning h := absurd h hrunning
  asleep h := or_assoc.1 (.inl (hasleep h))
  ready h := absurd h hstat
  apart _ := ⟨hqueued, hrunning⟩
  swapper := hswapper

theorem Standing.of_run (hstat : x.pStat = .srun) (hchan : x.pWchan = 0)
    (hload : x.sload = true ↔ queued ∨ running)
    (hapart : running → ¬ queued) (hwindow : ¬ window) : Standing a x queued running window where
  ofQueued h := ⟨hstat, hload.2 (.inl h)⟩
  ofRunning h := ⟨hstat, hload.2 (.inr h), hchan, hapart h⟩
  asleep h := absurd hchan h
  ready _ h := or_assoc.1 (.inl (hload.1 h))
  apart h := absurd h hwindow
  swapper _ h := a.runout_ne (h.symm.trans hchan)

theorem Standing.of_window (hqueued : ¬ queued) (hrunning : ¬ running) (hwindow : window)
    (hswapper : x.sintr = true → x.pWchan ≠ a.runout) : Standing a x queued running window where
  ofQueued h := absurd h hqueued
  ofRunning h := absurd h hrunning
  asleep _ := .inr (.inr hwindow)
  ready _ _ := .inr (.inr hwindow)
  apart _ := ⟨hqueued, hrunning⟩
  swapper := hswapper

theorem Standing.not_running (h : Standing a x queued running window) (hstat : x.pStat ≠ .srun) :
    ¬ queued ∧ ¬ running :=
  ⟨fun hqueued => hstat (h.ofQueued hqueued).1, fun hrunning => hstat (h.ofRunning hrunning).1⟩

structure Sane (a : Addrs ι) (w : Option ι) (s : Kernel ι) (l : Queue → List ι) : Prop where
  linked : Linked s l
  standing : ∀ p, Standing a (s.proc p) (p ∈ l .qs) (s.current = some p) (w = some p)

theorem Sane.woken (h : Sane a w s l) (hw : Woken W s s' l l')
    (hwindow : ∀ p, w = some p → ¬ W p) : Sane a w s' l' where
  linked := hw.linked
  standing p := by
    have hp := h.standing p
    have hrun := hw.run p
    rw [hw.current]
    by_cases hW : W p
    · have hchan := hw.asleep p hW
      have hrunning : s.current ≠ some p := fun hcurrent => hchan (hp.ofRunning hcurrent).2.2.1
      have hqueued : p ∉ l .qs := fun hmem => hchan (h.linked.chan_eq_zero hmem)
      have hstat := or_assoc.2 (hp.asleep hchan) |>.resolve_right fun h => hwindow p h hW
      rw [hw.proc p hW]
      rcases hstat with hsleep | hstop
      · have hwoken : (s.proc p).woken.pStat = .srun := by simp [Proc.woken, hsleep]
        refine .of_run hwoken rfl ?_ (fun hcurrent => absurd hcurrent hrunning)
          fun h => hwindow p h hW
        rw [hrun, or_iff_left hrunning, or_iff_right hqueued]
        exact ⟨fun hload => ⟨hW, hsleep, hload⟩, fun hand => hand.2.2⟩
      · have hwoken : (s.proc p).woken.pStat = .sstop := by simp [Proc.woken, hstop]
        refine .of_not_run ?_ hrunning (by simp [hwoken]) (fun _ => .inr hwoken)
          fun _ hzero => a.runout_ne hzero.symm
        rw [hrun, or_iff_right hqueued, hstop]
        simp
    · rw [hw.frame p hW, hrun]
      simpa only [hW, false_and, or_false] using hp

theorem Sane.settled (h : Sane a w s l) (hwindow : ∀ p, w = some p → (s.proc p).pWchan ≠ 0 →
    hash (s.proc p).pWchan ≠ hash chan) : Settled s chan := by
  intro p hp hhash
  exact or_assoc.2 ((h.standing p).asleep hp) |>.resolve_right fun heq => hwindow p heq hp hhash

theorem Sigchld.Fits.congr (h : chld.Fits s parent) (hproc : s'.proc parent = s.proc parent) :
    chld.Fits s' parent := by
  unfold Sigchld.Fits at h ⊢
  rwa [hproc]

theorem Sane.congr (h : Sane a w s l) (hqueues : s'.queues = s.queues) (hproc : s'.proc = s.proc)
    (hcurrent : s'.current = s.current) : Sane a w s' l where
  linked := h.linked.congr hqueues fun _ => by rw [hproc]
  standing p := by
    rw [hproc, hcurrent]
    exact h.standing p

theorem Sane.idle (h : Sane a none s l) (hrun : (s.proc p).pStat ≠ .srun)
    (hsleep : (s.proc p).pStat ≠ .ssleep) (hstop : (s.proc p).pStat ≠ .sstop) :
    (s.proc p).pWchan = 0 ∧ p ∉ l .qs ∧ s.current ≠ some p := by
  refine ⟨by_contra fun hne => ?_, (h.standing p).not_running hrun⟩
  rcases (h.standing p).asleep hne with h' | h' | h'
  · exact hsleep h'
  · exact hstop h'
  · cases h'

/-- What a call may do to the processes other than `p`: wake the swapper. -/
structure OnlyRunout (a : Addrs ι) (p : ι) (s s' : Kernel ι) : Prop where
  proc : ∀ q, q ≠ p → (s.proc q).pWchan ≠ a.runout → s'.proc q = s.proc q
  current : s'.current = s.current

variable [DecidableEq ι]

theorem Sane.update (h : Sane a w s l) (hlinked : Linked s' l') (p : ι)
    (hproc : ∀ q, q ≠ p → s'.proc q = s.proc q)
    (hrun : ∀ q, q ≠ p → (q ∈ l' .qs ↔ q ∈ l .qs))
    (hcurrent : ∀ q, q ≠ p → (s'.current = some q ↔ s.current = some q))
    (hwindow : ∀ q, q ≠ p → (w' = some q ↔ w = some q))
    (hp : Standing a (s'.proc p) (p ∈ l' .qs) (s'.current = some p) (w' = some p)) :
    Sane a w' s' l' where
  linked := hlinked
  standing q := by
    by_cases hq : q = p
    · rw [hq]
      exact hp
    · rw [hproc q hq, hrun q hq, hcurrent q hq, hwindow q hq]
      exact h.standing q

theorem Sane.setProc (h : Sane a w s l) (hx : x.pWchan = (s.proc p).pWchan)
    (hp : Standing a x (p ∈ l .qs) (s.current = some p) (w = some p)) :
    Sane a w (s.setProc p x) l := by
  refine h.update (h.linked.setProc hx) p (fun q hq => ?_) (fun _ _ => .rfl) (fun _ _ => .rfl)
    (fun _ _ => .rfl) ?_
  · rw [setProc_proc, if_neg hq]
  · rw [setProc_proc, if_pos rfl]
    exact hp

theorem Sane.readied (h : Sane a w s l) (hr : Readied p s s' l l')
    (hp : (s.proc p).pStat ≠ .srun) (hwindow : w ≠ some p) : Sane a w s' l' := by
  obtain ⟨hqueued, hrunning⟩ := (h.standing p).not_running hp
  have hproc : s'.proc p = { s.proc p with pWchan := 0, pStat := .srun } := by
    rw [hr.proc, update_self]
  refine h.update hr.linked p (fun q hq => ?_) (fun q hq => ?_) (fun q _ => by rw [hr.current])
    (fun _ _ => .rfl) ?_
  · rw [hr.proc, update_of_ne hq]
  · rw [hr.run, or_iff_left fun hand => hq hand.1]
  · rw [hproc]
    rw [← hr.current] at hrunning
    refine .of_run rfl rfl ?_ (fun hcurrent => absurd hcurrent hrunning) hwindow
    rw [hr.run, or_iff_left hrunning, or_iff_right hqueued, and_iff_right rfl]

theorem tsleepEnter_proc (s : Kernel ι) (p q : ι) (chan : ℕ) (catch' : Bool) :
    (tsleepEnter s p chan catch').proc q =
      if q = p then { s.proc p with pWchan := chan, sintr := catch' } else s.proc q :=
  setProc_proc ..

section Running

variable (h : Sane a none s l)
include h

theorem Sane.reap (hp : (s.proc p).pStat = .szomb) :
    Sane a none (s.setProc p { s.proc p with pStat := .free, pWchan := 0 }) l := by
  obtain ⟨hzero, hqueued, hrunning⟩ := h.idle (p := p) (by simp [hp]) (by simp [hp]) (by simp [hp])
  exact h.setProc hzero.symm
    (.of_not_run hqueued hrunning (by simp) (fun hne => absurd rfl hne)
      fun _ heq => a.runout_ne heq.symm)

theorem Sane.swapinEnd (hstat : (s.proc p).pStat = .srun) (hload : (s.proc p).sload = false) :
    ∃ l', Sane a none (swapinEnd s p) l' := by
  have hstanding := h.standing p
  have hqueued : p ∉ l .qs := fun hmem => by simp [(hstanding.ofQueued hmem).2] at hload
  have hrunning : s.current ≠ some p :=
    fun hcur => by simp [(hstanding.ofRunning hcur).2.1] at hload
  have hzero : (s.proc p).pWchan = 0 := by
    by_contra hne
    rcases hstanding.asleep hne with h' | h' | h'
    · simp [hstat] at h'
    · simp [hstat] at h'
    · cases h'
  have hpush := h.linked.push_qs hqueued hzero
  rw [Synch.swapinEnd, if_pos hstat]
  have hlinked : Linked ((s.setrq p).setProc p { (s.setrq p).proc p with sload := true }) _ :=
    hpush.setProc rfl
  refine ⟨_, h.update hlinked p (fun q hq => ?_) (fun q hq => ?_) (fun _ _ => .rfl)
    (fun _ _ => .rfl) ?_⟩
  · rw [setProc_proc, if_neg hq]
    rfl
  · simp [hq]
  · rw [setProc_proc, if_pos rfl]
    exact .of_run hstat hzero (by simp) (fun hcur => absurd hcur hrunning) (by simp)

variable (hp : s.current = some p)
include hp

theorem Sane.enter (hchan : chan ≠ 0) (catch' : Bool) :
    ∃ l', Linked (tsleepEnter s p chan catch') l' ∧ l' .qs = l .qs := by
  obtain ⟨_, _, hzero, hqueued⟩ := (h.standing p).ofRunning hp
  refine ⟨_, h.linked.push_sleep hqueued hzero rfl hchan, ?_⟩
  exact update_of_ne (hash_ne_qs chan).symm _ _

theorem Sane.leave (hlinked : Linked s' l') (hcurrent : s'.current = none)
    (hproc : ∀ q, q ≠ p → s'.proc q = s.proc q) (hrun : ∀ q, q ≠ p → (q ∈ l' .qs ↔ q ∈ l .qs))
    (hwindow : ∀ q, q ≠ p → w' ≠ some q)
    (hstanding : Standing a (s'.proc p) (p ∈ l' .qs) False (w' = some p)) : Sane a w' s' l' := by
  refine h.update hlinked p hproc hrun (fun q hq => ?_) (fun q hq => ?_) ?_
  · rw [hcurrent, hp]
    simp [Ne.symm hq]
  · simp [hwindow q hq]
  · rw [hcurrent]
    simpa using hstanding

theorem Sane.preempt : ∃ l', Sane a none { s.setrq p with current := none } l' := by
  obtain ⟨hstat, hload, hzero, hqueued⟩ := (h.standing p).ofRunning hp
  refine ⟨_, h.leave hp ((h.linked.push_qs hqueued hzero).congr rfl fun _ => rfl) rfl
    (fun _ _ => rfl) (fun q hq => ?_) (fun _ _ => by simp) ?_⟩
  · simp [hq]
  · have hload' : ((s.setrq p).proc p).sload = true := hload
    exact .of_run hstat hzero (by simp [hload']) False.elim (by simp)

theorem Sane.exit :
    Sane a none { s.setProc p { s.proc p with pStat := .szomb } with current := none } l := by
  obtain ⟨_, _, hzero, hqueued⟩ := (h.standing p).ofRunning hp
  have hlinked : Linked (s.setProc p { s.proc p with pStat := .szomb }) l := h.linked.setProc rfl
  refine h.leave hp (hlinked.congr rfl fun _ => rfl) rfl (fun q hq => ?_) (fun _ _ => .rfl)
    (fun _ _ => by simp) ?_
  · exact (setProc_proc ..).trans (if_neg hq)
  · show Standing a ((s.setProc p _).proc p) _ _ _
    rw [setProc_proc, if_pos rfl]
    exact .of_not_run hqueued id (by simp) (fun hne => absurd hzero hne) (h.standing p).swapper

end Running

def boot (a : Addrs ι) : Kernel ι where
  proc p := if p = a.proc0 then ⟨.srun, 0, 0, true, false⟩ else ⟨.free, 0, 0, false, false⟩
  queues := { head := fun _ => none, next := fun _ => none }
  runout := 0
  current := some a.proc0

theorem boot_proc (a : Addrs ι) (p : ι) :
    (boot a).proc p = if p = a.proc0 then ⟨.srun, 0, 0, true, false⟩
      else ⟨.free, 0, 0, false, false⟩ := rfl

theorem boot_sane (a : Addrs ι) : Sane a none (boot a) fun _ => [] where
  linked :=
    { lists := ⟨fun _ => .nil, fun _ _ _ hmem => by cases hmem⟩
      sleep := fun p chan => by
        rw [boot_proc]
        split_ifs <;> simp }
  standing p := by
    rw [boot_proc]
    split_ifs with hp
    · exact .of_run rfl rfl (by simp [hp, boot]) (fun _ => List.not_mem_nil) (by simp)
    · have hcurrent : some a.proc0 ≠ some p := fun heq => hp (some.inj heq).symm
      exact .of_not_run List.not_mem_nil hcurrent (by simp) (fun hne => absurd rfl hne) (by simp)

variable [Fintype ι]

theorem Sane.wakeup (h : Sane a none s l) (hchan : chan ≠ 0) :
    ∃ s' l', wakeup a s chan = some s' ∧ WakeupResult a chan s s' l l' ∧ Sane a none s' l' := by
  have hsettled : ∀ chan, Settled s chan := fun chan => h.settled fun p hp => by cases hp
  obtain ⟨s', l', hs', hw⟩ := wakeup_spec h.linked hchan (hsettled chan) fun _ => hsettled a.runout
  exact ⟨s', l', hs', hw, h.woken hw.toWoken fun p hp => by cases hp⟩

theorem Sane.setrun (h : Sane a w s l) (hp : (s.proc p).pStat = .ssleep ∨ (s.proc p).pStat = .sstop)
    (hsafe : s.runout ≠ 0 → (s.proc p).sload = false → Settled s a.runout)
    (hwindow : ∀ q, w = some q → q ≠ p ∧ (s.proc q).pWchan ≠ a.runout) :
    ∃ s' l', setrun a s p = some s' ∧ Sane a w s' l' ∧ OnlyRunout a p s s' := by
  have hstat : (s.proc p).pStat ≠ .srun := by
    rcases hp with hp | hp <;> simp [hp]
  obtain ⟨s1, l1, s', l', hs', hr, hw⟩ :=
    setrun_spec h.linked hp ((h.standing p).not_running hstat).1 hsafe
  have hother : ∀ q, q ≠ p → s1.proc q = s.proc q := fun q hq => by rw [hr.proc, update_of_ne hq]
  have hsane := h.readied hr hstat fun hq => (hwindow p hq).1 rfl
  refine ⟨s', l', hs', hsane.woken hw fun q hq hW => ?_,
    fun q hq hne => ?_, hw.current.trans hr.current⟩
  · obtain ⟨hqp, hne⟩ := hwindow q hq
    rw [hother q hqp] at hW
    exact hne hW.2
  · rw [hw.frame q fun hW => hne (hother q hq ▸ hW.2), hother q hq]

theorem Sane.unsleep (h : Sane a w s l) (hp : (s.proc p).pStat = .sstop) :
    ∃ s' l', unsleep s p = some s' ∧ Sane a w s' l' ∧ OnlyRunout a p s s' := by
  obtain ⟨s', l', hs', hlinked, hsame, hqs, hproc⟩ := unsleep_spec h.linked p
  have hother : ∀ q, q ≠ p → s'.proc q = s.proc q := fun q hq => by rw [hproc, update_of_ne hq]
  obtain ⟨hqueued, hrunning⟩ := (h.standing p).not_running (by simp [hp])
  refine ⟨s', l', hs', h.update hlinked p hother (fun q _ => by rw [hqs])
    (fun q _ => by rw [hsame.current])
    (fun _ _ => .rfl) ?_, fun q hq _ => hother q hq, hsame.current⟩
  rw [hproc, update_self, hqs, hsame.current]
  exact .of_not_run hqueued hrunning (by simp [hp]) (fun _ => .inr hp)
    fun _ hzero => a.runout_ne hzero.symm

theorem Sane.sigchld (h : Sane a w s l) (hfits : chld.Fits s parent)
    (hsafe : chld = .run → s.runout ≠ 0 → (s.proc parent).sload = false → Settled s a.runout)
    (hwindow : ∀ q, w = some q → q ≠ parent ∧ (s.proc q).pWchan ≠ a.runout) :
    ∃ s' l', sigchld a s parent chld = some s' ∧ Sane a w s' l' ∧ OnlyRunout a parent s s' := by
  cases chld with
  | nothing => exact ⟨s, l, rfl, h, fun _ _ _ => rfl, rfl⟩
  | run => exact h.setrun (.inl hfits.1) (hsafe rfl) hwindow
  | unsleep => exact h.unsleep hfits.1

theorem Sane.stop (h : Sane a w s l) (hp : w = some p ∨ w = none ∧ (s.proc p).pStat = .ssleep)
    (parent : ι) : ∃ s' l', stop a s p parent = some s' ∧ Sane a none s' l' := by
  have hstanding := h.standing p
  obtain ⟨hqueued, hrunning⟩ : p ∉ l .qs ∧ s.current ≠ some p := by
    rcases hp with hp | ⟨_, hp⟩
    · exact hstanding.apart hp
    · exact hstanding.not_running (by simp [hp])
  have hwindow : ∀ q, q ≠ p → w ≠ some q := by
    intro q hq
    rcases hp with hp | ⟨hp, _⟩ <;> rw [hp]
    · exact fun heq => hq (some.inj heq).symm
    · simp
  have hsane : Sane a none (s.setProc p { s.proc p with pStat := .sstop }) l := by
    refine h.update (h.linked.setProc rfl) p (fun q hq => ?_) (fun _ _ => .rfl) (fun _ _ => .rfl)
      (fun q hq => ?_) ?_
    · rw [setProc_proc, if_neg hq]
    · simp [hwindow q hq]
    · rw [setProc_proc, if_pos rfl]
      exact .of_not_run hqueued hrunning (by simp) (fun _ => .inr rfl) hstanding.swapper
  obtain ⟨s', l', hs', _, hsane'⟩ := hsane.wakeup (a.proc_ne parent)
  exact ⟨s', l', hs', hsane'⟩

theorem Sane.notifyStop (h : Sane a w s l) (hp : w = some p ∨ w = none ∧ (s.proc p).pStat = .ssleep)
    (hparent : p ≠ parent) (hchan : (s.proc p).pWchan ≠ a.runout) (hfits : chld.Fits s parent)
    (hsafe : chld = .run → s.runout ≠ 0 → (s.proc parent).sload = false → Settled s a.runout) :
    ∃ s' l', notifyStop a s p parent chld = some s' ∧ Sane a none s' l' := by
  have hwindow : ∀ q, w = some q → q ≠ parent ∧ (s.proc q).pWchan ≠ a.runout := by
    intro q hq
    rcases hp with hp | ⟨hp, _⟩ <;> rw [hp] at hq
    · rw [← some.inj hq]
      exact ⟨hparent, hchan⟩
    · cases hq
  obtain ⟨s1, l1, hs1, hsane, honly⟩ := h.sigchld hfits hsafe hwindow
  have hp1 : w = some p ∨ w = none ∧ (s1.proc p).pStat = .ssleep := by
    rw [honly.proc p hparent hchan]
    exact hp
  obtain ⟨s', l', hs', hsane'⟩ := hsane.stop hp1 parent
  refine ⟨s', l', ?_, hsane'⟩
  rw [Synch.notifyStop, hs1]
  exact hs'

/-- When a process that stops in `tsleep` makes a parent run that is not loaded, the swapper
does not wait for one, or its queue is not the one of the process. -/
def Safe (a : Addrs ι) (s : Kernel ι) : Event ι → Prop
  | .tsleepStop chan parent .run =>
    s.runout ≠ 0 → (s.proc parent).sload = false → hash chan ≠ hash a.runout
  | _ => True

def SafeStep (a : Addrs ι) (s : Kernel ι) (ev : Event ι) (s' : Kernel ι) : Prop :=
  Safe a s ev ∧ Step a s ev s'

section Calls

variable (h : Sane a none s l)
include h

theorem Sane.endtsleep : ∃ s' l', endtsleep a s p = some s' ∧ Sane a none s' l' := by
  rw [Synch.endtsleep]
  split_ifs with hchan hstat
  · obtain ⟨s', l', hs', hsane, _⟩ :=
      h.setrun (.inl hstat) (fun _ _ => h.settled fun q hq => by cases hq) fun q hq => by cases hq
    exact ⟨s', l', hs', hsane⟩
  · have hstop : (s.proc p).pStat = .sstop := by
      rcases (h.standing p).asleep hchan with h' | h' | h'
      · exact absurd h' hstat
      · exact h'
      · cases h'
    obtain ⟨s', l', hs', hsane, _⟩ := h.unsleep hstop
    exact ⟨s', l', hs', hsane⟩
  · exact ⟨s, l, rfl, h⟩

theorem Sane.swapoutEnd : ∃ s' l', swapoutEnd a s = some s' ∧ Sane a none s' l' := by
  rw [Synch.swapoutEnd]
  split_ifs
  · have hsane : Sane a none { s with runout := 0 } l := h.congr rfl rfl rfl
    obtain ⟨s', l', hs', _, hsane'⟩ := hsane.wakeup a.runout_ne
    exact ⟨s', l', hs', hsane'⟩
  · exact ⟨s, l, rfl, h⟩

theorem Sane.newproc {child : ι} (hchild : (s.proc child).pStat = .free) :
    ∃ s' l', newproc a s child = some s' ∧ Sane a none s' l' := by
  obtain ⟨hzero, hqueued, hrunning⟩ := h.idle (p := child) (by simp [hchild]) (by simp [hchild])
    (by simp [hchild])
  refine Sane.swapoutEnd (h.setProc hzero.symm ?_)
  exact .of_run rfl rfl (by simp [hqueued, hrunning]) (fun hcurrent => absurd hcurrent hrunning)
    (by simp)

theorem Sane.swapoutDecision (hcurrent : s.current ≠ some p) (hload : (s.proc p).sload = true) :
    ∃ s' l', swapoutDecision s p = some s' ∧ Sane a none s' l' := by
  have hlinked : Linked (s.setProc p { s.proc p with sload := false }) l := h.linked.setProc rfl
  rw [Synch.swapoutDecision]
  split_ifs with hstat
  · have hmem : p ∈ l .qs := by
      rcases (h.standing p).ready hstat hload with hmem | hcur | hwin
      · exact hmem
      · exact absurd hcur hcurrent
      · cases hwin
    obtain ⟨s', l', hs', hun, hsame⟩ := remrq_spec hlinked hmem
    have hproc : ∀ q, s'.proc q = if q = p then { s.proc p with sload := false } else s.proc q := by
      rw [hun.proc]
      exact fun q => setProc_proc ..
    replace hsame : s'.current = s.current := hsame
    refine ⟨s', l', hs', h.update hun.linked p (fun q hq => by rw [hproc, if_neg hq])
      (fun q hq => ?_) (fun _ _ => by rw [hsame]) (fun _ _ => .rfl) ?_⟩
    · rw [hun.run, and_iff_left hq]
    · rw [hproc, if_pos rfl, hsame]
      refine .of_run hstat (h.linked.chan_eq_zero hmem) ?_ (fun hcur => absurd hcur hcurrent)
        (by simp)
      simp [hcurrent, hun.run]
  · refine ⟨_, l, rfl, h.setProc rfl ?_⟩
    obtain ⟨hqueued, hrunning⟩ := (h.standing p).not_running hstat
    refine .of_not_run hqueued hrunning hstat (fun hne => ?_) (h.standing p).swapper
    exact or_assoc.2 ((h.standing p).asleep hne) |>.resolve_right (by simp)

theorem Sane.swtch (hcurrent : s.current = none) (hs' : swtch s = some s') :
    ∃ l', Sane a none s' l' := by
  obtain ⟨p, l', hmem, hload, hun, hcur⟩ := swtch_spec h.linked hs'
  refine ⟨l', h.update hun.linked p (fun q _ => by rw [hun.proc]) (fun q hq => ?_) (fun q hq => ?_)
    (fun _ _ => .rfl) ?_⟩
  · rw [hun.run, and_iff_left hq]
  · rw [hcur, hcurrent]
    simp [Ne.symm hq]
  · rw [hun.proc, hcur]
    have hqueued : p ∉ l' .qs := fun hmem' => ((hun.run p).1 hmem').2 rfl
    exact .of_run ((h.standing p).ofQueued hmem).1 (h.linked.chan_eq_zero hmem) (by simp [hload])
      (fun _ => hqueued) (by simp)

section Running

variable (hp : s.current = some p)
include hp

theorem Sane.tsleep (hchan : chan ≠ 0) {catch' : Bool}
    (hswapper : catch' = true → chan ≠ a.runout) :
    ∃ s' l', tsleep a s p chan catch' = some s' ∧ Sane a none s' l' := by
  obtain ⟨l1, hlinked, hqs⟩ := h.enter hp hchan catch'
  set s1 := tsleepEnter s p chan catch' with hs1
  have hproc : ∀ q, s1.proc q = if q = p then { s.proc p with pWchan := chan, sintr := catch' }
      else s.proc q := by
    rw [hs1]
    exact fun q => tsleepEnter_proc s p q chan catch'
  have hqueued := ((h.standing p).ofRunning hp).2.2.2
  have hsane : Sane a none { s1.setProc p { s1.proc p with pStat := .ssleep } with current := none }
      l1 := by
    have hlinked' : Linked (s1.setProc p { s1.proc p with pStat := .ssleep }) l1 :=
      hlinked.setProc rfl
    refine h.leave hp (hlinked'.congr rfl fun _ => rfl) rfl (fun q hq => ?_)
      (fun q _ => by rw [hqs]) (fun _ _ => by simp) ?_
    · exact (setProc_proc ..).trans (by rw [if_neg hq, hproc, if_neg hq])
    · rw [setProc_proc, if_pos rfl, hproc, if_pos rfl, hqs]
      exact .of_not_run hqueued id (by simp) (fun _ => .inl rfl) hswapper
  rw [Synch.tsleep]
  split_ifs with hzero
  · obtain ⟨s', l', hs', _, hsane'⟩ := hsane.wakeup a.runin_ne
    exact ⟨s', l', hs', hsane'⟩
  · exact ⟨_, _, rfl, hsane⟩

theorem Sane.tsleepSignal (hchan : chan ≠ 0) :
    ∃ s' l', tsleepSignal s p chan = some s' ∧ Sane a none s' l' := by
  obtain ⟨l1, hlinked, hqs⟩ := h.enter hp hchan true
  obtain ⟨s2, l2, hs2, hlinked2, hsame, hqs2, hproc⟩ := unsleep_spec hlinked p
  have hproc2 : ∀ q, s2.proc q = if q = p then { s.proc p with pWchan := 0, sintr := true }
      else s.proc q := by
    intro q
    rw [hproc, update_apply]
    split_ifs with hq
    · rw [tsleepEnter_proc, if_pos rfl]
    · rw [tsleepEnter_proc, if_neg hq]
  have hcurrent : s2.current = s.current := hsame.current
  obtain ⟨-, hload, -, hqueued⟩ := (h.standing p).ofRunning hp
  have hrun : ∀ q, q ∈ l2 .qs ↔ q ∈ l .qs := fun q => by rw [hqs2, hqs]
  have hlinked3 : Linked (s2.setProc p { s2.proc p with pStat := .srun }) l2 := hlinked2.setProc rfl
  refine ⟨_, l2, ?_, h.update hlinked3 p (fun q hq => ?_) (fun q _ => hrun q) (fun q _ => ?_)
    (fun _ _ => .rfl) ?_⟩
  · rw [Synch.tsleepSignal, hs2]
  · rw [setProc_proc, if_neg hq, hproc2, if_neg hq]
  · show s2.current = _ ↔ _
    rw [hcurrent]
  · show Standing a _ _ (s2.current = some p) _
    rw [setProc_proc, if_pos rfl, hproc2, if_pos rfl, hrun, hcurrent]
    exact .of_run rfl rfl (by simp [hload, hp]) (fun _ => hqueued) (by simp)

theorem Sane.tsleepStop (hchan : chan ≠ 0) (hne : chan ≠ a.runout)
    (hparent : p ≠ parent) (hfits : chld.Fits s parent)
    (hsafe : chld = .run → s.runout ≠ 0 → (s.proc parent).sload = false →
      hash chan ≠ hash a.runout) :
    ∃ s' l', Synch.notifyStop a { tsleepEnter s p chan true with current := none } p parent chld =
      some s' ∧ Sane a none s' l' := by
  obtain ⟨l1, hlinked, hqs⟩ := h.enter hp hchan true
  set s1 := { tsleepEnter s p chan true with current := none } with hs1
  have hproc : ∀ q, s1.proc q = if q = p then { s.proc p with pWchan := chan, sintr := true }
      else s.proc q := by
    rw [hs1]
    exact fun q => tsleepEnter_proc s p q chan true
  have hqueued := ((h.standing p).ofRunning hp).2.2.2
  have hp1 : s1.proc p = { s.proc p with pWchan := chan, sintr := true } := by
    rw [hproc, if_pos rfl]
  have hparent1 : s1.proc parent = s.proc parent := by rw [hproc, if_neg (Ne.symm hparent)]
  have hsane : Sane a (some p) s1 l1 := by
    have hlinked' : Linked s1 l1 := by
      rw [hs1]
      exact hlinked.congr rfl fun _ => rfl
    have hcurrent : s1.current = none := by rw [hs1]
    refine h.leave hp hlinked' hcurrent (fun q hq => by rw [hproc, if_neg hq])
      (fun q _ => by rw [hqs]) (fun q hq => by simp [Ne.symm hq]) ?_
    rw [hqs, hp1]
    exact .of_window hqueued id rfl fun _ => hne
  refine hsane.notifyStop (.inl rfl) hparent (by rw [hp1]; exact hne) (hfits.congr hparent1)
    fun hrun hout hload => ?_
  have hout' : s.runout ≠ 0 := by
    rw [hs1] at hout
    exact hout
  have hhash := hsafe hrun hout' (hparent1 ▸ hload)
  refine hsane.settled fun q hq _ => ?_
  rw [← some.inj hq, hp1]
  exact hhash

theorem Sane.stopSelf (hparent : p ≠ parent)
    (hfits : chld.Fits s parent) :
    ∃ s' l', Synch.notifyStop a { s with current := none } p parent chld = some s' ∧
      Sane a none s' l' := by
  obtain ⟨_, _, hzero, hqueued⟩ := (h.standing p).ofRunning hp
  have hsane : Sane a (some p) { s with current := none } l := by
    refine h.leave hp (h.linked.congr rfl fun _ => rfl) rfl (fun _ _ => rfl) (fun _ _ => .rfl)
      (fun q hq => by simp [Ne.symm hq]) ?_
    exact .of_window hqueued id rfl (h.standing p).swapper
  have hne : (s.proc p).pWchan ≠ a.runout := fun heq => a.runout_ne (heq.symm.trans hzero)
  refine hsane.notifyStop (.inl rfl) hparent hne (hfits.congr rfl) fun _ _ _ =>
    hsane.settled fun q hq hchan => ?_
  rw [← some.inj hq] at hchan
  exact absurd hzero hchan

end Running

theorem Sane.exec {ev : Event ι} (henabled : Enabled a s ev) (hsafe : Safe a s ev) :
    ∃ s' l', exec a s ev = some s' ∧ Sane a none s' l' := by
  cases ev with
  | tsleep chan catch' =>
    obtain ⟨hcur, hchan, hne⟩ := henabled
    obtain ⟨p, hp⟩ := ne_none_iff_exists'.1 hcur
    simp only [Synch.exec, hp]
    exact h.tsleep hp hchan fun _ => hne
  | tsleepSignal chan =>
    obtain ⟨hcur, hchan, _⟩ := henabled
    obtain ⟨p, hp⟩ := ne_none_iff_exists'.1 hcur
    simp only [Synch.exec, hp]
    exact h.tsleepSignal hp hchan
  | tsleepStop chan parent chld =>
    obtain ⟨hcur, hparent, hchan, hne, hfits⟩ := henabled
    obtain ⟨p, hp⟩ := ne_none_iff_exists'.1 hcur
    simp only [Synch.exec, hp]
    refine h.tsleepStop hp hchan hne (fun heq => hparent (hp.trans (congrArg some heq))) hfits ?_
    intro hrun
    rw [hrun] at hsafe
    exact hsafe
  | stop parent chld =>
    obtain ⟨hcur, hparent, hfits⟩ := henabled
    obtain ⟨p, hp⟩ := ne_none_iff_exists'.1 hcur
    simp only [Synch.exec, hp]
    exact h.stopSelf hp (fun heq => hparent (hp.trans (congrArg some heq))) hfits
  | preempt =>
    obtain ⟨p, hp⟩ := ne_none_iff_exists'.1 henabled
    simp only [Synch.exec, hp]
    obtain ⟨l', hsane⟩ := h.preempt hp
    exact ⟨_, l', rfl, hsane⟩
  | exit =>
    obtain ⟨p, hp⟩ := ne_none_iff_exists'.1 henabled
    simp only [Synch.exec, hp]
    exact ⟨_, l, rfl, h.exit hp⟩
  | newproc child => exact h.newproc henabled.2
  | reap p => exact ⟨_, l, rfl, h.reap henabled⟩
  | wakeup chan =>
    obtain ⟨s', l', hs', _, hsane⟩ := h.wakeup henabled
    exact ⟨s', l', hs', hsane⟩
  | setrun p =>
    obtain ⟨s', l', hs', hsane, _⟩ :=
      h.setrun henabled (fun _ _ => h.settled fun q hq => by cases hq) fun q hq => by cases hq
    exact ⟨s', l', hs', hsane⟩
  | unsleep p =>
    obtain ⟨s', l', hs', hsane, _⟩ := h.unsleep henabled
    exact ⟨s', l', hs', hsane⟩
  | endtsleep p => exact h.endtsleep
  | stopSleeping p parent chld =>
    obtain ⟨hparent, hstat, hintr, hfits⟩ := henabled
    exact h.notifyStop (.inr ⟨rfl, hstat⟩) hparent ((h.standing p).swapper hintr) hfits
      fun _ _ _ => h.settled fun q hq => by cases hq
  | «continue» p =>
    obtain ⟨hqueued, hrunning⟩ := (h.standing p).not_running (by simp [henabled.1])
    refine ⟨_, l, rfl, h.setProc rfl ?_⟩
    exact .of_not_run hqueued hrunning (by simp) (fun _ => .inl rfl) (h.standing p).swapper
  | setpri p n =>
    have hp := h.standing p
    exact ⟨_, l, rfl, h.setProc rfl
      ⟨hp.ofQueued, hp.ofRunning, hp.asleep, hp.ready, hp.apart, hp.swapper⟩⟩
  | schedWait =>
    have hsane : Sane a none { s with runout := s.runout + 1 } l := h.congr rfl rfl rfl
    exact hsane.tsleep henabled a.runout_ne fun hfalse => by cases hfalse
  | swapoutDecision p =>
    obtain ⟨hcur, hp, hload, _⟩ := henabled
    refine h.swapoutDecision (fun heq => hp ?_) hload
    exact some.inj (heq.symm.trans hcur)
  | swapoutEnd => exact h.swapoutEnd
  | swapinEnd p =>
    obtain ⟨l', hsane⟩ := h.swapinEnd henabled.2.1 henabled.2.2
    exact ⟨_, l', rfl, hsane⟩
  | swtch =>
    obtain ⟨s', hs'⟩ := ne_none_iff_exists'.1 henabled.2
    obtain ⟨l', hsane⟩ := h.swtch henabled.1 hs'
    exact ⟨s', l', hs', hsane⟩

end Calls

theorem run_sane {evs : List (Event ι)} (hrun : Run (SafeStep a) (boot a) evs s) :
    ∃ l, Sane a none s l := by
  refine hrun.invariant (I := fun s => ∃ l, Sane a none s l) ?_ ⟨_, boot_sane a⟩
  rintro s ev s' ⟨l, h⟩ ⟨hsafe, henabled, hs'⟩
  obtain ⟨s1, l1, hs1, h1⟩ := h.exec henabled hsafe
  rw [hs'] at hs1
  cases hs1
  exact ⟨l1, h1⟩

/-- In every run without the unsafe stops, each process is on at most one queue: on the
sleep queue of its channel exactly when it has one, and on the run queue only if it is
ready and loaded. `wakeup` takes exactly the processes of its channel from their queue, and
with them the swapper if it waits at `&runout` and one of them is not loaded: then `wakeup` calls
itself for that channel too. No call panics. -/
theorem run_keeps_queues (a : Addrs ι) {evs : List (Event ι)}
    (hrun : Run (SafeStep a) (boot a) evs s) :
    ∃ l : Queue → List ι, (∀ k, Chain s.queues.next (s.queues.head k) (l k)) ∧
      (∀ p k k', p ∈ l k → p ∈ l k' → k = k') ∧
      (∀ p b, p ∈ l (.slpque b) ↔ (s.proc p).pWchan ≠ 0 ∧ hash (s.proc p).pWchan = .slpque b) ∧
      (∀ p ∈ l .qs, (s.proc p).pStat = .srun ∧ (s.proc p).sload = true) ∧
      (∀ chan ≠ 0, ∃ s' l', wakeup a s chan = some s' ∧ WakeupResult a chan s s' l l') ∧
      ∀ ev, Enabled a s ev → Safe a s ev → exec a s ev ≠ none := by
  obtain ⟨l, h⟩ := run_sane hrun
  refine ⟨l, h.linked.lists.chain, fun p k k' => h.linked.lists.apart k k' p, fun p b => ?_,
    fun p hp => (h.standing p).ofQueued hp, fun chan hchan => ?_, fun ev henabled hsafe => ?_⟩
  · have hb := h.linked.sleep p (b.val * 32)
    rwa [hash_mul] at hb
  · obtain ⟨s', l', hs', hw, _⟩ := h.wakeup hchan
    exact ⟨s', l', hs', hw⟩
  · obtain ⟨s', _, hs', _⟩ := h.exec henabled hsafe
    rw [hs']
    simp

def demo : Addrs (Fin 3) where
  proc0 := 0
  runout := 32
  runin := 64
  proc p := 96 + 32 * p
  runout_ne := by decide
  runin_ne := by decide
  proc_ne p := by omega

theorem run_keeps_queues_stop :
    ∃ s, Run (SafeStep demo) (boot demo)
      [.newproc 1, .swapinEnd 1, .schedWait, .swtch, .tsleepStop 160 0 .nothing] s ∧
      ∃ l : Queue → List (Fin 3), (∀ k, Chain s.queues.next (s.queues.head k) (l k)) ∧
        (∀ p k k', p ∈ l k → p ∈ l k' → k = k') ∧
        (∀ p b, p ∈ l (.slpque b) ↔ (s.proc p).pWchan ≠ 0 ∧ hash (s.proc p).pWchan = .slpque b) ∧
        (∀ p ∈ l .qs, (s.proc p).pStat = .srun ∧ (s.proc p).sload = true) ∧
        (∀ chan ≠ 0, ∃ s' l', wakeup demo s chan = some s' ∧ WakeupResult demo chan s s' l l') ∧
        ∀ ev, Enabled demo s ev → Safe demo s ev → exec demo s ev ≠ none := by
  have hrun : ∃ s, Run (SafeStep demo) (boot demo)
      [.newproc 1, .swapinEnd 1, .schedWait, .swtch, .tsleepStop 160 0 .nothing] s := by
    refine ⟨_, .cons ⟨trivial, ?_, rfl⟩ (.cons ⟨trivial, ?_, rfl⟩ (.cons ⟨trivial, ?_, rfl⟩
      (.cons ⟨trivial, ?_, rfl⟩ (.cons ⟨trivial, ?_, rfl⟩ (.nil _)))))⟩ <;> decide +kernel
  obtain ⟨s, hs⟩ := hrun
  exact ⟨s, hs, run_keeps_queues demo hs⟩

/-- Process 2 stops in `tsleep` while its parent sleeps outside and the swapper waits: the
signal to the parent wakes the swapper, and `wakeup` finds the running process 2 on the
queue. -/
theorem tsleepStop_panics :
    ∃ evs s, Run (Step demo) (boot demo) evs s ∧ Enabled demo s (.tsleepStop 544 1 .run) ∧
      exec demo s (.tsleepStop 544 1 .run) = none := by
  refine ⟨[.newproc 1, .swapinEnd 1, .schedWait, .swtch, .newproc 2, .tsleep 160 true, .swtch,
    .swapoutDecision 1, .swapinEnd 2, .schedWait, .swtch], _,
      .cons ⟨?_, rfl⟩ (.cons ⟨?_, rfl⟩ (.cons ⟨?_, rfl⟩ (.cons ⟨?_, rfl⟩ (.cons ⟨?_, rfl⟩
        (.cons ⟨?_, rfl⟩ (.cons ⟨?_, rfl⟩ (.cons ⟨?_, rfl⟩ (.cons ⟨?_, rfl⟩ (.cons ⟨?_, rfl⟩
        (.cons ⟨?_, rfl⟩ (.nil _))))))))))), ?_, ?_⟩ <;> decide +kernel

/-- In every such run no ready process is lost: those that are ready and loaded are on the
run queue or running, and not both. -/
theorem run_loses_no_process (a : Addrs ι) {evs : List (Event ι)}
    (hrun : Run (SafeStep a) (boot a) evs s) :
    ∃ l, Linked s l ∧ ∀ p,
      ((s.proc p).pStat = .srun ∧ (s.proc p).sload = true ↔ p ∈ l .qs ∨ s.current = some p) ∧
        (s.current = some p → p ∉ l .qs) := by
  obtain ⟨l, h⟩ := run_sane hrun
  refine ⟨l, h.linked, fun p => ⟨⟨fun hp => ?_, ?_⟩, fun hp => ?_⟩⟩
  · simpa using (h.standing p).ready hp.1 hp.2
  · rintro (hp | hp)
    · exact (h.standing p).ofQueued hp
    · obtain ⟨hstat, hload, -⟩ := (h.standing p).ofRunning hp
      exact ⟨hstat, hload⟩
  · exact ((h.standing p).ofRunning hp).2.2.2

/-- A process is made and loaded, sleeps, is woken from an interrupt and runs again. -/
theorem run_loses_no_process_woken :
    ∃ s, Run (SafeStep demo) (boot demo)
      [.newproc 1, .swapinEnd 1, .schedWait, .swtch, .tsleep 160 true, .wakeup 160, .swtch] s ∧
      s.current = some 1 ∧ ∃ l, Linked s l ∧ ∀ p,
        ((s.proc p).pStat = .srun ∧ (s.proc p).sload = true ↔ p ∈ l .qs ∨ s.current = some p) ∧
          (s.current = some p → p ∉ l .qs) := by
  have hrun : ∃ s, Run (SafeStep demo) (boot demo)
      [.newproc 1, .swapinEnd 1, .schedWait, .swtch, .tsleep 160 true, .wakeup 160, .swtch] s ∧
      s.current = some 1 := by
    refine ⟨_, .cons ⟨trivial, ?_, rfl⟩ (.cons ⟨trivial, ?_, rfl⟩ (.cons ⟨trivial, ?_, rfl⟩
      (.cons ⟨trivial, ?_, rfl⟩ (.cons ⟨trivial, ?_, rfl⟩ (.cons ⟨trivial, ?_, rfl⟩
        (.cons ⟨trivial, ?_, rfl⟩ (.nil _))))))), ?_⟩ <;> decide +kernel
  obtain ⟨s, hs, hcurrent⟩ := hrun
  exact ⟨s, hs, hcurrent, run_loses_no_process demo hs⟩

end RetroBSD.Synch
