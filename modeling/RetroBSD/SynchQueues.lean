import RetroBSD.Synch

/-!
# What the calls do to the queues

`Linked s l` names the processes on each queue. Those on a sleep queue are the processes
whose channel belongs to it. The specifications say for each call that it has a result,
which processes change and who is on the run queue afterwards.
-/

namespace RetroBSD.Synch

open LinkedList Cells Kernel Function List Nat Fintype

variable {ι : Type} {a : Addrs ι} {s s₁ s₂ s' : Kernel ι} {l l₁ l₂ l' : Queue → List ι} {p q : ι} {k : Queue}
  {pre mid post : List ι} {chan fuel : ℕ} {x : Proc} {W W₁ W₂ : ι → Prop}

section Linked

structure Linked (s : Kernel ι) (l : Queue → List ι) : Prop where
  lists : s.queues.Lists l
  sleep : ∀ p chan, p ∈ l (hash chan) ↔ (s.proc p).pWchan ≠ 0 ∧ hash (s.proc p).pWchan = hash chan

theorem hash_ne_qs (chan : ℕ) : hash chan ≠ .qs := by
  rw [hash]
  simp

theorem hash_mul (b : Fin sqsize) : hash (b.val * 32) = .slpque b := by
  rw [hash]
  congr 1
  apply Fin.ext
  show b.val * 32 / 32 % sqsize = b.val
  rw [Nat.mul_div_cancel _ (by decide), Nat.mod_eq_of_lt b.isLt]

variable (h : Linked s l)
include h

theorem Linked.mem (hp : (s.proc p).pWchan ≠ 0) : p ∈ l (hash (s.proc p).pWchan) :=
  (h.sleep p _).2 ⟨hp, rfl⟩

theorem Linked.chan_eq_zero (hp : p ∈ l .qs) : (s.proc p).pWchan = 0 := by
  by_contra hne
  exact hash_ne_qs _ (h.lists.apart _ _ p (h.mem hne) hp)

theorem Linked.notMem (hrun : p ∉ l .qs) (hchan : (s.proc p).pWchan = 0) (k : Queue) : p ∉ l k := by
  cases k with
  | qs => exact hrun
  | slpque b =>
    rw [← hash_mul, h.sleep]
    exact fun hmem => hmem.1 hchan

theorem Linked.congr (hqueues : s'.queues = s.queues)
    (hchan : ∀ p, (s'.proc p).pWchan = (s.proc p).pWchan) : Linked s' l where
  lists := hqueues ▸ h.lists
  sleep p chan := by rw [hchan]; exact h.sleep p chan

theorem Linked.nodup (k : Queue) : (l k).Nodup := (h.lists.chain k).nodup

theorem Linked.length_le [Fintype ι] (k : Queue) : (l k).length ≤ card ι := (h.nodup k).length_le_card

variable [DecidableEq ι]

omit h in
theorem setProc_proc (s : Kernel ι) (p q : ι) (x : Proc) :
    (s.setProc p x).proc q = if q = p then x else s.proc q :=
  update_apply ..

theorem Linked.setProc (hchan : x.pWchan = (s.proc p).pWchan) : Linked (s.setProc p x) l :=
  h.congr rfl fun q => by
    rw [setProc_proc]
    split_ifs with hq
    · rw [hq, hchan]
    · rfl

theorem Linked.push_qs (hrun : p ∉ l .qs) (hchan : (s.proc p).pWchan = 0) :
    Linked (s.setrq p) (update l .qs (p :: l .qs)) where
  lists := h.lists.push (h.notMem hrun hchan) .qs
  sleep := h.sleep

theorem Linked.push_sleep (hrun : p ∉ l .qs) (hzero : (s.proc p).pWchan = 0)
    (hx : x.pWchan = chan) (hchan : chan ≠ 0) :
    Linked ((s.setProc p x).push (hash chan) p) (update l (hash chan) (p :: l (hash chan))) where
  lists := h.lists.push (h.notMem hrun hzero) (hash chan)
  sleep q c := by
    show _ ↔ ((s.setProc p x).proc q).pWchan ≠ 0 ∧ hash ((s.setProc p x).proc q).pWchan = hash c
    rw [setProc_proc, update_apply]
    by_cases hq : q = p
    · subst hq
      rw [if_pos rfl, hx]
      split_ifs with hc
      · simp [hc, hchan]
      · refine iff_of_false (h.notMem hrun hzero _) fun hand => hc hand.2.symm
    · split_ifs with hc
      · rw [mem_cons, or_iff_right hq, hc]
        exact h.sleep q chan
      · exact h.sleep q c

theorem Linked.remove_qs (hl : l .qs = pre ++ p :: post) :
    Linked (s.setLink (placeAfter .qs pre) (s.queues.next p)) (update l .qs (pre ++ post)) where
  lists := h.lists.remove hl
  sleep := h.sleep

theorem Linked.remove_sleep (hl : l (hash chan) = pre ++ p :: post) (hx : x.pWchan = 0) :
    Linked ((s.setLink (placeAfter (hash chan) pre) (s.queues.next p)).setProc p x)
      (update l (hash chan) (pre ++ post)) where
  lists := h.lists.remove hl
  sleep q c := by
    have hnodup := h.nodup (hash chan)
    rw [hl] at hnodup
    have hp : p ∉ pre ++ post := (nodup_middle.1 hnodup).notMem
    rw [setProc_proc, update_apply]
    by_cases hq : q = p
    · subst hq
      rw [if_pos rfl, hx]
      refine iff_of_false ?_ (by simp)
      split_ifs with hc
      · exact hp
      · intro hmem
        exact hc (h.lists.apart _ _ q hmem (hl ▸ mem_append_right _ mem_cons_self))
    · split_ifs with hc
      · have hold := h.sleep q chan
        rw [hl] at hold
        rw [hc]
        refine Iff.trans ?_ hold
        simp [hq]
      · exact h.sleep q c

end Linked

/-- Only `proc` and `queues` are changed by the calls below. -/
structure SameControl (s s' : Kernel ι) : Prop where
  runout : s'.runout = s.runout
  current : s'.current = s.current

def Proc.woken (x : Proc) : Proc := { x with pWchan := 0, pStat := if x.pStat = .ssleep then .srun else x.pStat }

section Wakeup

/-- The processes `W` are woken, and those that sleep and are loaded enter the run queue. -/
structure Woken (W : ι → Prop) (s s' : Kernel ι) (l l' : Queue → List ι) : Prop where
  linked : Linked s' l'
  asleep : ∀ p, W p → (s.proc p).pWchan ≠ 0
  proc : ∀ p, W p → s'.proc p = (s.proc p).woken
  frame : ∀ p, ¬ W p → s'.proc p = s.proc p
  run : ∀ p, p ∈ l' .qs ↔ p ∈ l .qs ∨ W p ∧ (s.proc p).pStat = .ssleep ∧ (s.proc p).sload = true
  current : s'.current = s.current

theorem Woken.refl (h : Linked s l) (hW : ∀ p, ¬ W p) : Woken W s s l l where
  linked := h
  asleep p hp := absurd hp (hW p)
  proc p hp := absurd hp (hW p)
  frame _ _ := rfl
  run p := by simp [hW p]
  current := rfl

theorem Woken.congr (h : Woken W₁ s s' l l') (hW : ∀ p, W₁ p ↔ W p) : Woken W s s' l l' := by
  rwa [show W = W₁ from funext fun p => propext (hW p).symm]

theorem Woken.not_again (h : Woken W₁ s s₁ l l₁) (hp : (s₁.proc p).pWchan ≠ 0) : ¬ W₁ p := by
  intro hW
  rw [h.proc p hW] at hp
  exact hp rfl

theorem Woken.trans (h1 : Woken W₁ s s₁ l l₁) (h2 : Woken W₂ s₁ s₂ l₁ l₂) :
    Woken (fun p => W₁ p ∨ W₂ p) s s₂ l l₂ where
  linked := h2.linked
  asleep p hp := by
    rcases hp with hp | hp
    · exact h1.asleep p hp
    · have hchan := h2.asleep p hp
      rwa [h1.frame p (h1.not_again hchan)] at hchan
  proc p hp := by
    by_cases hp2 : W₂ p
    · rw [h2.proc p hp2, h1.frame p (h1.not_again (h2.asleep p hp2))]
    · rw [h2.frame p hp2, h1.proc p (hp.resolve_right hp2)]
  frame p hp := by rw [h2.frame p fun h => hp (.inr h), h1.frame p fun h => hp (.inl h)]
  run p := by
    rw [h2.run, h1.run]
    by_cases hp2 : W₂ p
    · rw [h1.frame p (h1.not_again (h2.asleep p hp2))]
      have hp1 : ¬ W₁ p := h1.not_again (h2.asleep p hp2)
      simp [hp1]
    · simp [hp2]
  current := h2.current.trans h1.current

def Settled (s : Kernel ι) (chan : ℕ) : Prop :=
  ∀ p, (s.proc p).pWchan ≠ 0 → hash (s.proc p).pWchan = hash chan →
    (s.proc p).pStat = .ssleep ∨ (s.proc p).pStat = .sstop

theorem Settled.woken (h : Settled s chan) (hw : Woken W s s' l l') : Settled s' chan := by
  intro p hp hhash
  have hsame := hw.frame p (hw.not_again hp)
  rw [hsame] at hp hhash ⊢
  exact h p hp hhash

/-- The swapper is woken along with the processes that sleep on a channel. -/
def WakesRunout (s : Kernel ι) (chan : ℕ) : Prop :=
  s.runout ≠ 0 ∧ ∃ p, (s.proc p).pWchan = chan ∧ (s.proc p).pStat = .ssleep ∧ (s.proc p).sload = false

structure WakeupResult (a : Addrs ι) (chan : ℕ) (s s' : Kernel ι) (l l' : Queue → List ι) : Prop
    extends Woken
      (fun p => (s.proc p).pWchan = chan ∨ WakesRunout s chan ∧ (s.proc p).pWchan = a.runout)
      s s' l l' where
  runout : s'.runout = s.runout ∨ WakesRunout s chan ∧ s'.runout = 0

/-- A specification of the inner call of `wakeup`. -/
def RunoutSpec (a : Addrs ι) (wakeRunout : Kernel ι → Option (Kernel ι)) : Prop :=
  ∀ s l, Linked s l → s.runout = 0 → Settled s a.runout →
    ∃ s' l', wakeRunout s = some s' ∧ Woken (fun p => (s.proc p).pWchan = a.runout) s s' l l' ∧ s'.runout = 0

theorem WakeupResult.after (h1 : Woken W₁ s s₁ l l₁)
    (h : WakeupResult a chan s₁ s' l₁ l') (hchan : chan ≠ 0)
    (hW1 : ∀ q, W₁ q → (s.proc q).pWchan = chan ∨ WakesRunout s chan ∧ (s.proc q).pWchan = a.runout)
    (hback : WakesRunout s₁ chan → WakesRunout s chan)
    (hrest : WakesRunout s chan → WakesRunout s₁ chan ∨ ∀ q, (s.proc q).pWchan = a.runout → W₁ q)
    (hrunout : s₁.runout = s.runout ∨ WakesRunout s chan ∧ s₁.runout = 0) : WakeupResult a chan s s' l l' where
  toWoken := by
    refine (h1.trans h.toWoken).congr fun q => ?_
    constructor
    · rintro (hq | hq)
      · exact hW1 q hq
      · have hne : (s₁.proc q).pWchan ≠ 0 := by
          rcases hq with hq | ⟨_, hq⟩ <;> rw [hq]
          · exact hchan
          · exact a.runout_ne
        rw [h1.frame q (h1.not_again hne)] at hq
        exact hq.imp_right fun hq => ⟨hback hq.1, hq.2⟩
    · intro hq
      by_cases hq1 : W₁ q
      · exact .inl hq1
      · right
        rw [h1.frame q hq1]
        rcases hq with hq | ⟨hwakes, hq⟩
        · exact .inl hq
        · rcases hrest hwakes with hwakes1 | hall
          · exact .inr ⟨hwakes1, hq⟩
          · exact absurd (hall q hq) hq1
  runout := by
    rcases h.runout with hsame | ⟨hwakes, hzero⟩
    · rw [hsame]
      exact hrunout
    · exact .inr ⟨hback hwakes, hzero⟩

theorem WakesRunout.of_woken (hw : Woken W s s₁ l l₁)
    (hchan : chan ≠ 0) (hrunout : s₁.runout ≠ 0 → s.runout ≠ 0) (h : WakesRunout s₁ chan) : WakesRunout s chan := by
  obtain ⟨hne, q, hq, hstat, hload⟩ := h
  have hsame := hw.frame q (hw.not_again (hq ▸ hchan))
  exact ⟨hrunout hne, q, hsame ▸ hq, hsame ▸ hstat, hsame ▸ hload⟩

theorem WakeupResult.after_stopped (h1 : Woken (fun q => q = p) s s₁ l l₁)
    (h : WakeupResult a chan s₁ s' l₁ l') (hchan : chan ≠ 0) (hp : (s.proc p).pWchan = chan)
    (hstat : (s.proc p).pStat = .sstop) (hrunout : s₁.runout = s.runout) : WakeupResult a chan s s' l l' := by
  refine h.after h1 hchan (fun q hq => .inl (hq ▸ hp))
    (fun hw => hw.of_woken h1 hchan (hrunout ▸ id)) ?_ (.inl hrunout)
  rintro ⟨hne, q, hq, hsleep, hload⟩
  have hqp : q ≠ p := fun heq => by
    rw [heq, hstat] at hsleep
    cases hsleep
  have hsame := h1.frame q hqp
  exact .inl ⟨hrunout ▸ hne, q, hsame ▸ hq, hsame ▸ hsleep, hsame ▸ hload⟩

theorem WakeupResult.after_sleeping
    (h1 : Woken (fun q => q = p ∨ (s.runout ≠ 0 ∧ (s.proc p).sload = false) ∧ (s.proc q).pWchan = a.runout) s s₁ l l₁)
    (h : WakeupResult a chan s₁ s' l₁ l') (hchan : chan ≠ 0) (hp : (s.proc p).pWchan = chan)
    (hstat : (s.proc p).pStat = .ssleep)
    (hrunout : s₁.runout = if (s.proc p).sload = false then 0 else s.runout) : WakeupResult a chan s s' l l' := by
  have hne : s₁.runout ≠ 0 → s.runout ≠ 0 := by
    rw [hrunout]
    split_ifs
    · exact fun hzero => absurd rfl hzero
    · exact id
  have hwakes : s.runout ≠ 0 → (s.proc p).sload = false → WakesRunout s chan := fun hne hload =>
    ⟨hne, p, hp, hstat, hload⟩
  refine h.after h1 hchan ?_ (fun hw => hw.of_woken h1 hchan hne) ?_ ?_
  · rintro q (hq | ⟨⟨hne, hload⟩, hq⟩)
    · exact .inl (hq ▸ hp)
    · exact .inr ⟨hwakes hne hload, hq⟩
  · rintro ⟨hne, q, hq, hsleep, hload⟩
    by_cases hp' : (s.proc p).sload = false
    · exact .inr fun i hi => .inr ⟨⟨hne, hp'⟩, hi⟩
    · have hsame : s₁.proc q = s.proc q := h1.frame q <| by
        rintro (hqp | ⟨⟨_, hp''⟩, _⟩)
        · exact hp' (hqp ▸ hload)
        · exact hp' hp''
      refine .inl ⟨?_, q, hsame ▸ hq, hsame ▸ hsleep, hsame ▸ hload⟩
      rwa [hrunout, if_neg hp']
  · rw [hrunout]
    split_ifs with hload
    · by_cases hzero : s.runout = 0
      · exact .inl hzero.symm
      · exact .inr ⟨hwakes hzero hload, rfl⟩
    · exact .inl rfl

end Wakeup

theorem fuel_enough {w w1 n m c : ℕ} (hw : w1 < w) (hn : n ≤ c) (hfuel : w * (c + 1) + m < fuel + 1) :
    w1 * (c + 1) + n < fuel := by
  have hle := mul_le_mul_right (c + 1) (succ_le_of_lt hw)
  rw [succ_mul] at hle
  omega

structure Unqueued (p : ι) (s s' : Kernel ι) (l l' : Queue → List ι) : Prop where
  linked : Linked s' l'
  proc : s'.proc = s.proc
  run : ∀ q, q ∈ l' .qs ↔ q ∈ l .qs ∧ q ≠ p

/-- What the search of `swtch` may choose: a loaded process of the run queue and the one
before it. -/
def Choice (s : Kernel ι) (l : Queue → List ι) (c : ι × Option ι) : Prop :=
  ∃ pre post, l .qs = pre ++ c.1 :: post ∧ c.2 = pre.getLast? ∧ (s.proc c.1).sload = true

theorem swtchLoop_spec (h : s.queues.Lists l) (fuel n : ℕ) {best : Option (ι × Option ι)}
    (hl : l .qs = pre ++ post) (hbest : ∀ c ∈ best, Choice s l c) :
    ∀ c ∈ swtchLoop s fuel (s.queues.get (placeAfter .qs pre)) pre.getLast? n best, Choice s l c := by
  induction fuel generalizing pre post n best with
  | zero => simpa [swtchLoop] using hbest
  | succ fuel ih =>
    cases post with
    | nil =>
      rw [h.get_nil (hl.trans (append_nil _))]
      simpa [swtchLoop] using hbest
    | cons p post =>
      have hl' : l .qs = pre ++ [p] ++ post := by rw [hl, append_assoc]; rfl
      have hnext : s.queues.next p = s.queues.get (placeAfter .qs (pre ++ [p])) := by
        rw [placeAfter_append]
        rfl
      have hlast : some p = (pre ++ [p]).getLast? := by rw [List.getLast?_concat]
      rw [h.get_cons hl, swtchLoop]
      split_ifs with hgood
      · rw [hnext, hlast]
        refine ih _ hl' fun c hc => ?_
        rw [Option.mem_some_iff] at hc
        exact hc ▸ ⟨pre, post, hl, rfl, hgood.1⟩
      · rw [hnext, hlast]
        exact ih _ hl' hbest

variable [DecidableEq ι]

structure Readied (p : ι) (s s' : Kernel ι) (l l' : Queue → List ι) : Prop where
  linked : Linked s' l'
  proc : s'.proc = update s.proc p { s.proc p with pWchan := 0, pStat := .srun }
  run : ∀ q, q ∈ l' .qs ↔ q ∈ l .qs ∨ q = p ∧ (s.proc p).sload = true
  current : s'.current = s.current

theorem unsleepLoop_spec (h : s.queues.Lists l) (hl : l k = pre ++ (mid ++ p :: post)) (hp : p ∉ mid)
    (hfuel : mid.length < fuel) :
    unsleepLoop s.queues p fuel (placeAfter k pre) = some (placeAfter k (pre ++ mid)) := by
  induction fuel generalizing pre mid with
  | zero => omega
  | succ fuel ih =>
    rw [unsleepLoop]
    cases mid with
    | nil =>
      rw [h.get_cons hl, append_nil]
      simp
    | cons i mid =>
      rw [h.get_cons hl]
      have hi : i ≠ p := fun heq => hp (heq ▸ mem_cons_self)
      simp only [if_neg hi]
      have hl' : l k = pre ++ [i] ++ (mid ++ p :: post) := by rw [hl, append_assoc]; rfl
      have hrest := ih hl' (fun hmem => hp (mem_cons_of_mem _ hmem)) (lt_of_succ_lt_succ hfuel)
      rw [placeAfter_append] at hrest
      rw [hrest, append_assoc]
      rfl

theorem remrqLoop_spec {i : ι} (h : s.queues.Lists l) (hl : l .qs = pre ++ i :: (mid ++ p :: post))
    (hp : p ∉ mid) (hfuel : mid.length < fuel) :
    ∃ q, remrqLoop s.queues p fuel (some i) = some q ∧ placeAfter Queue.qs (pre ++ i :: mid) = .cell q := by
  induction fuel generalizing pre mid i with
  | zero => omega
  | succ fuel ih =>
    rw [remrqLoop]
    cases mid with
    | nil => exact ⟨i, if_pos (h.next_eq hl), placeAfter_append _ _ _⟩
    | cons j mid =>
      have hj : j ≠ p := fun heq => hp (heq ▸ mem_cons_self)
      have hl' : l .qs = pre ++ [i] ++ j :: (mid ++ p :: post) := by rw [hl, append_assoc]; rfl
      obtain ⟨q, hq, hcell⟩ :=
        ih hl' (fun hmem => hp (mem_cons_of_mem _ hmem)) (lt_of_succ_lt_succ hfuel)
      refine ⟨q, ?_, ?_⟩
      · rw [h.next_eq hl, if_neg fun heq => hj (Option.some.inj heq), hq]
      · rw [← hcell, append_assoc]
        rfl

variable {wakeRunout : Kernel ι → Option (Kernel ι)}

theorem makeReady_eq {t : Kernel ι}
    (ht : t = s.setProc p { s.proc p with pStat := .srun }) :
    makeReady wakeRunout s p = if (s.proc p).sload = true then some (t.setrq p)
      else if s.runout ≠ 0 then wakeRunout { t with runout := 0 } else some t := by
  have hload : (t.proc p).sload = (s.proc p).sload := by rw [ht, setProc_proc, if_pos rfl]
  have hout : t.runout = s.runout := by rw [ht]; rfl
  simp only [makeReady, ← ht, hload, hout]

/-- The process is made ready, loaded ones on the run queue, and then the swapper may be
woken. -/
theorem makeReady_spec (h : Linked s l) (hrun : p ∉ l .qs)
    (hchan : (s.proc p).pWchan = 0) (hspec : s.runout ≠ 0 → RunoutSpec a wakeRunout)
    (hsettled : s.runout ≠ 0 → (s.proc p).sload = false →
      Settled (s.setProc p { s.proc p with pStat := .srun }) a.runout) :
    ∃ s₁ l₁ s' l', makeReady wakeRunout s p = some s' ∧ Linked s₁ l₁ ∧
      s₁.proc = update s.proc p { s.proc p with pStat := .srun } ∧ s₁.current = s.current ∧
      (∀ q, q ∈ l₁ .qs ↔ q ∈ l .qs ∨ q = p ∧ (s.proc p).sload = true) ∧
      Woken (fun q => (s.runout ≠ 0 ∧ (s.proc p).sload = false) ∧ (s₁.proc q).pWchan = a.runout) s₁ s' l₁ l' ∧
      s'.runout = if (s.proc p).sload = false then 0 else s.runout := by
  obtain ⟨t, ht⟩ : ∃ t, t = s.setProc p { s.proc p with pStat := .srun } := ⟨_, rfl⟩
  have hlinked : Linked t l := ht ▸ h.setProc rfl
  have hproc : t.proc = update s.proc p { s.proc p with pStat := .srun } := by rw [ht]; rfl
  have hcurrent : t.current = s.current := by rw [ht]; rfl
  rw [makeReady_eq ht]
  by_cases hload : (s.proc p).sload = true
  · have hzero : (t.proc p).pWchan = 0 := by
      rw [hproc, update_self]
      exact hchan
    have hpush := hlinked.push_qs hrun hzero
    rw [if_pos hload]
    refine ⟨t.setrq p, _, t.setrq p, _, rfl, hpush, hproc, hcurrent, fun q => ?_, .refl hpush ?_, ?_⟩
    · rw [update_self, mem_cons, or_comm]
      simp [hload]
    · simp [hload]
    · rw [hload, if_neg Bool.true_eq_false.mp, ht]
      rfl
  · rw [if_neg hload]
    rw [Bool.not_eq_true] at hload
    split_ifs with hout
    · obtain ⟨s', l', hs', hw, hrunout⟩ := hspec hout { t with runout := 0 } l (hlinked.congr rfl fun _ => rfl) rfl
        (ht ▸ hsettled hout hload)
      refine ⟨{ t with runout := 0 }, l, s', l', hs', hlinked.congr rfl fun _ => rfl, hproc, hcurrent,
        fun q => by simp [hload], hw.congr fun q => ?_, hrunout⟩
      simp [hout, hload]
    · rw [not_not] at hout
      refine ⟨t, l, t, l, rfl, hlinked, hproc, hcurrent, fun q => by simp [hload], .refl hlinked ?_, ?_⟩
      · intro q hq
        exact hq.1.1 hout
      · rw [ht]
        exact hout

def takeOff (s : Kernel ι) (q : Place Queue ι) (p : ι) : Kernel ι :=
  (s.setLink q (s.queues.next p)).setProc p { s.proc p with pWchan := 0 }

theorem takeOff_proc (s : Kernel ι) (q : Place Queue ι) (p i : ι) :
    (takeOff s q p).proc i = if i = p then { s.proc p with pWchan := 0 } else s.proc i :=
  setProc_proc ..

section Member

variable (h : Linked s l)
include h

theorem woken_stopped (hl : l (hash chan) = pre ++ p :: post) (hp : (s.proc p).pStat = .sstop) :
    Woken (fun q => q = p) s (takeOff s (placeAfter (hash chan) pre) p) l (update l (hash chan) (pre ++ post)) where
  linked := h.remove_sleep hl rfl
  asleep q hq := by
    rw [hq]
    exact ((h.sleep p chan).1 (hl ▸ mem_append_right _ mem_cons_self)).1
  proc q hq := by
    rw [hq, takeOff_proc, if_pos rfl]
    simp [Proc.woken, hp]
  frame q hq := by rw [takeOff_proc, if_neg hq]
  run q := by
    rw [update_of_ne (hash_ne_qs chan).symm]
    refine ⟨.inl, ?_⟩
    rintro (hq | ⟨rfl, hq, _⟩)
    · exact hq
    · rw [hp] at hq
      cases hq
  current := rfl

theorem woken_sleeping (hl : l (hash chan) = pre ++ p :: post) (hp : (s.proc p).pStat = .ssleep)
    (hspec : s.runout ≠ 0 → RunoutSpec a wakeRunout)
    (hsettled : s.runout ≠ 0 → Settled s a.runout) :
    ∃ s' l', makeReady wakeRunout (takeOff s (placeAfter (hash chan) pre) p) p = some s' ∧
      Woken (fun q => q = p ∨ (s.runout ≠ 0 ∧ (s.proc p).sload = false) ∧ (s.proc q).pWchan = a.runout) s s' l l' ∧
      s'.runout = if (s.proc p).sload = false then 0 else s.runout := by
  have hmem : p ∈ l (hash chan) := hl ▸ mem_append_right _ mem_cons_self
  obtain ⟨s₁, hs1⟩ : ∃ s₁, s₁ = takeOff s (placeAfter (hash chan) pre) p := ⟨_, rfl⟩
  have hproc1 : ∀ q, s₁.proc q = if q = p then { s.proc p with pWchan := 0 } else s.proc q := by
    rw [hs1]
    exact takeOff_proc s _ p
  have hlinked1 : Linked s₁ (update l (hash chan) (pre ++ post)) := hs1 ▸ h.remove_sleep hl rfl
  have hqs : update l (hash chan) (pre ++ post) .qs = l .qs :=
    update_of_ne (hash_ne_qs chan).symm _ _
  have hrun : p ∉ update l (hash chan) (pre ++ post) .qs := by
    rw [hqs]
    exact fun hqs => hash_ne_qs chan (h.lists.apart _ _ p hmem hqs)
  have hzero : (s₁.proc p).pWchan = 0 := by rw [hproc1, if_pos rfl]
  have hout : s₁.runout = s.runout := by rw [hs1]; rfl
  have hload : (s₁.proc p).sload = (s.proc p).sload := by rw [hproc1, if_pos rfl]
  have hsettled1 : s₁.runout ≠ 0 → (s₁.proc p).sload = false →
      Settled (s₁.setProc p { s₁.proc p with pStat := .srun }) a.runout := by
    intro hne _ q hq hhash
    rw [setProc_proc] at hq hhash ⊢
    split_ifs at hq hhash ⊢ with hqp
    · exact absurd hzero hq
    · rw [hproc1, if_neg hqp] at hq hhash ⊢
      exact hsettled (hout ▸ hne) q hq hhash
  obtain ⟨s₂, l₂, s', l', hmake, hlinked2, hproc2, hcurrent2, hrun2, hw, hrunout⟩ :=
    makeReady_spec hlinked1 hrun hzero (fun hne => hspec (hout ▸ hne)) hsettled1
  rw [hout, hload] at hrunout
  have hproc : ∀ q, s₂.proc q = if q = p then { s.proc p with pWchan := 0, pStat := .srun } else s.proc q := by
    intro q
    rw [hproc2, update_apply]
    split_ifs with hq
    · rw [hproc1, if_pos rfl]
    · rw [hproc1, if_neg hq]
  have hone : Woken (fun q => q = p) s s₂ l l₂ :=
    { linked := hlinked2
      asleep := fun q hq => by
        rw [hq]
        exact ((h.sleep p chan).1 hmem).1
      proc := fun q hq => by rw [hq, hproc, if_pos rfl, Proc.woken, hp, if_pos rfl]
      frame := fun q hq => by rw [hproc, if_neg hq]
      run := fun q => by
        rw [hrun2, hqs, hload]
        refine or_congr_right (and_congr_right fun hq => ?_)
        rw [hq, hp]
        simp
      current := by rw [hcurrent2, hs1]; rfl }
  refine ⟨s', l', hs1 ▸ hmake, (hone.trans hw).congr fun q => ?_, hrunout⟩
  by_cases hq : q = p
  · simp [hq]
  · rw [hout, hload, hproc, if_neg hq]

theorem Linked.unqueue (hl : l .qs = pre ++ p :: post) :
    Unqueued p s (s.setLink (placeAfter .qs pre) (s.queues.next p)) l (update l .qs (pre ++ post)) where
  linked := h.remove_qs hl
  proc := rfl
  run q := by
    have hnodup := h.nodup .qs
    rw [hl] at hnodup
    have hp : p ∉ pre ++ post := (nodup_middle.1 hnodup).notMem
    rw [update_self, hl]
    constructor
    · intro hq
      refine ⟨?_, fun heq => hp (heq ▸ hq)⟩
      rw [mem_append, mem_cons]
      exact (mem_append.1 hq).imp_right .inr
    · rintro ⟨hq, hne⟩
      rw [mem_append, mem_cons, or_iff_right hne] at hq
      exact mem_append.2 hq

end Member

variable [Fintype ι]

theorem unsleep_spec (h : Linked s l) (p : ι) :
    ∃ s' l', unsleep s p = some s' ∧ Linked s' l' ∧ SameControl s s' ∧ l' .qs = l .qs ∧
      s'.proc = update s.proc p { s.proc p with pWchan := 0 } := by
  rw [unsleep]
  split_ifs with hchan
  · refine ⟨s, l, rfl, h, ⟨rfl, rfl⟩, rfl, ?_⟩
    rw [← hchan, update_eq_self]
  · obtain ⟨pre, post, hl⟩ := append_of_mem (h.mem hchan)
    have hnodup := h.nodup (hash (s.proc p).pWchan)
    have hlen := h.length_le (hash (s.proc p).pWchan)
    rw [hl] at hnodup hlen
    have hp : p ∉ pre := fun hmem => (nodup_middle.1 hnodup).notMem (mem_append_left _ hmem)
    have hlt : pre.length < card ι := by
      rw [length_append, length_cons] at hlen
      omega
    have hloop := unsleepLoop_spec h.lists (show l _ = [] ++ (pre ++ p :: post) from hl) hp hlt
    rw [placeAfter_nil] at hloop
    rw [hloop]
    refine ⟨_, _, rfl, h.remove_sleep hl rfl, ⟨rfl, rfl⟩, ?_, rfl⟩
    exact update_of_ne (hash_ne_qs _).symm _ _

def waiters (s : Kernel ι) (chan : ℕ) : ℕ := (Finset.univ.filter fun p => (s.proc p).pWchan = chan).card

omit [DecidableEq ι] in
theorem waiters_lt (h : Woken W s s₁ l l₁) (hchan : chan ≠ 0)
    (hp : (s.proc p).pWchan = chan) (hW : W p) : waiters s₁ chan < waiters s chan := by
  apply Finset.card_lt_card
  rw [Finset.ssubset_iff_of_subset]
  · refine ⟨p, by simpa using hp, ?_⟩
    rw [Finset.mem_filter, h.proc p hW]
    exact fun hmem => hchan hmem.2.symm
  · intro q hq
    have hq' : (s₁.proc q).pWchan = chan := (Finset.mem_filter.1 hq).2
    rw [h.frame q (h.not_again (hq' ▸ hchan))] at hq'
    simpa using hq'

theorem wakeupLoop_spec (hchan : chan ≠ 0) (fuel : ℕ) (h : Linked s l)
    (hl : l (hash chan) = pre ++ post) (hpre : ∀ p ∈ pre, (s.proc p).pWchan ≠ chan) (hsettled : Settled s chan)
    (hspec : s.runout ≠ 0 → RunoutSpec a wakeRunout) (hout : s.runout ≠ 0 → Settled s a.runout)
    (hfuel : waiters s chan * (card ι + 1) + post.length < fuel) :
    ∃ s' l', wakeupLoop wakeRunout chan fuel s (placeAfter (hash chan) pre) = some s' ∧
      WakeupResult a chan s s' l l' := by
  induction fuel generalizing s l pre post with
  | zero => omega
  | succ fuel ih =>
    rw [wakeupLoop]
    cases post with
    | nil =>
      rw [append_nil] at hl
      have hnone : ∀ p, (s.proc p).pWchan ≠ chan := by
        intro p hp
        exact hpre p (hl ▸ (h.sleep p chan).2 ⟨hp ▸ hchan, by rw [hp]⟩) hp
      rw [h.lists.get_nil hl]
      refine ⟨s, l, rfl, .refl h fun p hp => ?_, .inl rfl⟩
      rcases hp with hp | ⟨⟨_, q, hq, _⟩, _⟩
      · exact hnone p hp
      · exact hnone q hq
    | cons p post =>
      have hmem : p ∈ l (hash chan) := hl ▸ mem_append_right _ mem_cons_self
      obtain ⟨hne, hhash⟩ := (h.sleep p chan).1 hmem
      have hstat := hsettled p hne hhash
      rw [h.lists.get_cons hl]
      have hpanic : ¬ ((s.proc p).pStat ≠ .ssleep ∧ (s.proc p).pStat ≠ .sstop) :=
        fun hand => hstat.elim hand.1 hand.2
      simp only [if_neg hpanic]
      by_cases hp : (s.proc p).pWchan = chan
      · rw [if_pos hp]
        split_ifs with hsleep
        · obtain ⟨s₁, l₁, hmake, hw, hrunout⟩ := woken_sleeping h hl hsleep hspec hout
          have hne : s₁.runout ≠ 0 → s.runout ≠ 0 := by
            rw [hrunout]
            split_ifs
            · exact absurd rfl
            · exact id
          have hlt := waiters_lt hw hchan hp (.inl rfl)
          have hlen := hw.linked.length_le (hash chan)
          obtain ⟨s', l', hs', hrest⟩ := ih hw.linked (nil_append _).symm (by simp) (hsettled.woken hw)
            (fun h => hspec (hne h)) (fun h => (hout (hne h)).woken hw) (fuel_enough hlt hlen hfuel)
          refine ⟨s', l', ?_, hrest.after_sleeping hw hchan hp hsleep hrunout⟩
          rw [takeOff] at hmake
          simp only [hmake]
          exact hs'
        · have hstop := hstat.resolve_left hsleep
          have hw := woken_stopped h hl hstop
          have hlt := waiters_lt hw hchan hp rfl
          have hlen : post.length ≤ card ι := by
            have hle := h.length_le (hash chan)
            rw [hl, length_append, length_cons] at hle
            omega
          have hpre' : ∀ q ∈ pre, ((takeOff s (placeAfter (hash chan) pre) p).proc q).pWchan ≠ chan := by
            intro q hq hq'
            rw [hw.frame q (hw.not_again (hq' ▸ hchan))] at hq'
            exact hpre q hq hq'
          obtain ⟨s', l', hs', hrest⟩ := ih hw.linked (update_self _ _ _) hpre'
            (hsettled.woken hw) hspec (fun h => (hout h).woken hw) (fuel_enough hlt hlen hfuel)
          exact ⟨s', l', hs', hrest.after_stopped hw hchan hp hstop rfl⟩
      · rw [if_neg hp]
        have hl' : l (hash chan) = pre ++ [p] ++ post := by rw [hl, append_assoc]; rfl
        have hrest := ih h hl' ?_ hsettled hspec hout ?_
        · rwa [placeAfter_append] at hrest
        · intro q hq
          rcases mem_append.1 hq with hq | hq
          · exact hpre q hq
          · rw [mem_singleton.1 hq]
            exact hp
        · rw [length_cons] at hfuel
          omega

section Calls

variable (h : Linked s l)
include h

omit [DecidableEq ι] in
theorem wakeupFuel_enough (chan : ℕ) :
    waiters s chan * (card ι + 1) + (l (hash chan)).length < wakeupFuel ι := by
  have hle : waiters s chan ≤ card ι := Finset.card_le_univ _
  exact fuel_enough (m := 0) (lt_succ_of_le hle) (h.length_le _) (lt_succ_self _)

omit h in
theorem wakeupRunout_spec (a : Addrs ι) : RunoutSpec a (wakeupRunout a) := by
  intro s l h hzero hsettled
  have hspec : s.runout ≠ 0 → RunoutSpec a fun _ => none := absurd hzero
  obtain ⟨s', l', hs', hw⟩ := wakeupLoop_spec a.runout_ne (wakeupFuel ι) h (nil_append _).symm (by simp) hsettled
    hspec (fun _ => hsettled) (wakeupFuel_enough h _)
  have hwakes : ¬ WakesRunout s a.runout := fun hwakes => hwakes.1 hzero
  refine ⟨s', l', hs', hw.toWoken.congr fun q => ?_, ?_⟩
  · simp [hwakes]
  · rcases hw.runout with hsame | ⟨hwakes', _⟩
    · rw [hsame, hzero]
    · exact absurd hwakes' hwakes

theorem wakeup_spec (hchan : chan ≠ 0) (hsettled : Settled s chan)
    (hout : s.runout ≠ 0 → Settled s a.runout) : ∃ s' l', wakeup a s chan = some s' ∧ WakeupResult a chan s s' l l' :=
  wakeupLoop_spec hchan (wakeupFuel ι) h (nil_append _).symm (by simp) hsettled (fun _ => wakeupRunout_spec a)
    hout (wakeupFuel_enough h chan)

theorem remrq_spec (hp : p ∈ l .qs) :
    ∃ s' l', remrq s p = some s' ∧ Unqueued p s s' l l' ∧ s'.current = s.current := by
  obtain ⟨pre, post, hl⟩ := append_of_mem hp
  have hnodup := h.nodup .qs
  rw [hl] at hnodup
  have hnot : p ∉ pre := fun hmem => (nodup_middle.1 hnodup).notMem (mem_append_left _ hmem)
  refine ⟨_, _, ?_, h.unqueue hl, rfl⟩
  rw [remrq]
  cases pre with
  | nil => rw [if_pos (h.lists.head_eq hl), placeAfter_nil]
  | cons i mid =>
    have hlen := h.length_le .qs
    rw [hl, length_append, length_cons] at hlen
    have hi : i ≠ p := fun heq => hnot (heq ▸ mem_cons_self)
    have hl' : l .qs = [] ++ i :: (mid ++ p :: post) := hl
    obtain ⟨q, hq, hcell⟩ := remrqLoop_spec h.lists hl' (fun hmem => hnot (mem_cons_of_mem _ hmem))
      (show mid.length < card ι by omega)
    rw [nil_append] at hcell
    rw [h.lists.head_eq hl, if_neg fun heq => hi (Option.some.inj heq), hq, hcell]
    rfl

end Calls

/-- `setrun` makes the process ready and then wakes the swapper, if it waits for one that
is not loaded. -/
theorem setrun_spec (h : Linked s l) (hp : (s.proc p).pStat = .ssleep ∨ (s.proc p).pStat = .sstop) (hrun : p ∉ l .qs)
    (hsettled : s.runout ≠ 0 → (s.proc p).sload = false → Settled s a.runout) :
    ∃ s₁ l₁ s' l', setrun a s p = some s' ∧ Readied p s s₁ l l₁ ∧
      Woken (fun q => (s.runout ≠ 0 ∧ (s.proc p).sload = false) ∧ (s₁.proc q).pWchan = a.runout) s₁ s' l₁ l' := by
  obtain ⟨t, lt, ht, hlinked, hsame, hqs, hproc⟩ := unsleep_spec h p
  have hset : setrun a s p = makeReady (wakeupRunout a) t p := by
    rw [setrun]
    rcases hp with hp | hp <;> rw [hp] <;> simp only [ht]
  have hproc' : ∀ q, t.proc q = if q = p then { s.proc p with pWchan := 0 } else s.proc q := by
    intro q
    rw [hproc, update_apply]
  have hzero : (t.proc p).pWchan = 0 := by rw [hproc', if_pos rfl]
  have hload : (t.proc p).sload = (s.proc p).sload := by rw [hproc', if_pos rfl]
  have hsettled' : t.runout ≠ 0 → (t.proc p).sload = false →
      Settled (t.setProc p { t.proc p with pStat := .srun }) a.runout := by
    rw [hsame.runout, hload]
    intro hne hnot q hq hhash
    rw [setProc_proc] at hq hhash ⊢
    split_ifs at hq hhash ⊢ with hqp
    · exact absurd hzero hq
    · rw [hproc', if_neg hqp] at hq hhash ⊢
      exact hsettled hne hnot q hq hhash
  obtain ⟨s₁, l₁, s', l', hmake, hlinked1, hproc1, hcurrent1, hrun1, hw, _⟩ :=
    makeReady_spec hlinked (hqs ▸ hrun) hzero (fun _ => wakeupRunout_spec a) hsettled'
  rw [hload, hqs] at hrun1
  rw [hsame.runout, hload] at hw
  refine ⟨s₁, l₁, s', l', hset.trans hmake, ⟨hlinked1, ?_, hrun1, hcurrent1.trans hsame.current⟩, hw⟩
  rw [hproc1, hproc, update_self, update_idem]

theorem swtch_spec (h : Linked s l) (hs' : swtch s = some s') :
    ∃ p l', p ∈ l .qs ∧ (s.proc p).sload = true ∧ Unqueued p s s' l l' ∧ s'.current = some p := by
  have hchoice : ∀ c ∈ swtchLoop s (card ι) (s.queues.head .qs) none 128 none, Choice s l c :=
    swtchLoop_spec h.lists (card ι) 128 (nil_append _).symm fun c hc => by cases hc
  rw [swtch] at hs'
  cases hloop : swtchLoop s (card ι) (s.queues.head .qs) none 128 none with
  | none => simp [hloop] at hs'
  | some c =>
    obtain ⟨pre, post, hl, hlast, hload⟩ := hchoice c hloop
    obtain ⟨p, q⟩ := c
    have hmem : p ∈ l .qs := hl ▸ mem_append_right _ mem_cons_self
    have hun := h.unqueue hl
    have hplace : s' = { s.setLink (placeAfter .qs pre) (s.queues.next p) with current := some p } := by
      rw [hloop] at hs'
      rw [placeAfter, ← hlast]
      cases q with
      | none | some => exact (Option.some.inj hs').symm
    refine ⟨p, _, hmem, hload, ⟨?_, ?_, hun.run⟩, ?_⟩
    · rw [hplace]
      exact hun.linked.congr rfl fun _ => rfl
    · rw [hplace]
      rfl
    · rw [hplace]

end RetroBSD.Synch
