import RetroBSD.ProcNumbers

/-!
# Histories of the process table

What `fork1`, `exit` and `wait1` do to the lists, the hash table and the families, and that
the table stays in order over whole histories as long as no number in use is given out.
-/

namespace RetroBSD.Procs

open LinkedList Runs Function List

def Doubly (k : Queue) : Prop := k ≠ .freeproc

namespace Table

variable {t t' : Table} {l : Queue → List Slot} {p q c parent : Slot} {k : Queue}

theorem list_eq (h : t.links.Holds Doubly l) : t.list = l := by
  funext k
  have hwalk := h.lists.walk k
  rwa [Fintype.card_fin] at hwalk

structure Sound (t : Table) : Prop where
  links : t.links.Holds Doubly t.list
  cover : ∀ p, ∃ k, p ∈ t.list k
  zero : 0 ∈ t.list .allproc
  hashed : ∃ h, t.hash.Lists h ∧ ∀ b p, p ∈ h b ↔ t.Runs p ∧ pidHash (t.proc p).pPid = b
  unique : ∀ p ∈ t.list .allproc, ∀ q ∈ t.list .allproc, (t.proc p).pPid = (t.proc q).pPid → p = q
  counted : t.Counted

theorem Sound.apart (h : t.Sound) {k k' : Queue} (hk : p ∈ t.list k) (hk' : p ∈ t.list k') : k = k' :=
  h.links.lists.apart k k' p hk hk'

theorem Sound.nodup (h : t.Sound) (k : Queue) : (t.list k).Nodup := h.links.lists.nodup k

/-! ## `pfind` -/

theorem Sound.pfind_eq_some (h : t.Sound) {pid : ℤ} :
    t.pfind pid = some p ↔ t.Runs p ∧ (t.proc p).pPid = pid := by
  obtain ⟨hl, hlists, hmem⟩ := h.hashed
  have hwalk := hlists.walk (pidHash pid)
  rw [Fintype.card_fin] at hwalk
  rw [pfind, hwalk]
  constructor
  · intro hfind
    have hpid : (t.proc p).pPid = pid := by simpa using List.find?_some hfind
    exact ⟨((hmem _ _).1 (mem_of_find?_eq_some hfind)).1, hpid⟩
  · rintro ⟨hruns, hpid⟩
    have hin : p ∈ hl (pidHash pid) := (hmem _ _).2 ⟨hruns, congrArg pidHash hpid⟩
    obtain ⟨q, hq⟩ : ∃ q, (hl (pidHash pid)).find? (fun p => (t.proc p).pPid = pid) = some q := by
      rw [← Option.isSome_iff_exists, List.find?_isSome]
      exact ⟨p, hin, by simpa using hpid⟩
    have hqpid : (t.proc q).pPid = pid := by simpa using List.find?_some hq
    have hqruns := ((hmem _ _).1 (mem_of_find?_eq_some hq)).1
    rw [hq, h.unique q hqruns.1 p hruns.1 (hqpid.trans hpid.symm)]

/-! ## `fork1` -/

structure Forked (t t' : Table) (parent c : Slot) : Prop where
  links : t'.links.Holds Doubly t'.list
  all : t'.list .allproc = c :: t.list .allproc
  zomb : t'.list .zombproc = t.list .zombproc
  free : t.list .freeproc = c :: t'.list .freeproc
  proc : t'.proc = update t.proc c (t.childOf parent c t'.mpid)
  hashed : ∃ h, t'.hash.Lists h ∧ ∀ b p, p ∈ h b ↔ t'.Runs p ∧ pidHash (t'.proc p).pPid = b
  choice : t.choosePid pidRetries (t.mpid + 1) t.pidchecked = some (t'.mpid, t'.pidchecked)
  pos : 0 < t'.mpid
  bound : t'.mpid < 30000
  checked : t'.mpid < t'.pidchecked ∧ t'.pidchecked ≤ 30000
  fresh : t.ForkSafe → ∀ p ∈ t.list .allproc, (t.proc p).pPid < t'.mpid ∨ t'.pidchecked ≤ (t.proc p).pPid

theorem newproc_spec (h : t.Sound) (parent : Slot) (hfree : t.links.cells.head .freeproc = some c) :
    ∃ t', t.newproc parent = some (c, t') ∧ Forked t t' parent c := by
  obtain ⟨m, k, heq, hpos, hbound, hlt, hchecked, hfresh⟩ := choosePid_total h.counted
  obtain ⟨t', ht'⟩ : ∃ t', t' = ({
    links := (t.links.popPlain .freeproc c).pushFront .allproc c
    hash := (t.hash.set (.cell c) (t.hash.head (pidHash m))).set (.head (pidHash m)) (some c)
    proc := update t.proc c (t.childOf parent c m)
    mpid := m
    pidchecked := k } : Table) := ⟨_, rfl⟩
  have hcall : t.newproc parent = some (c, t') := by
    rw [newproc, heq, hfree, ht']
  have hchain := h.links.lists.chain .freeproc
  rw [hfree] at hchain
  obtain ⟨rest, hrest, -⟩ := hchain.uncons
  have hcfree : c ∈ t.list .freeproc := hrest ▸ mem_cons_self
  have hpop := h.links.popPlain (fun hB => hB rfl) hrest
  have hnone : ∀ k, c ∉ update t.list .freeproc rest k := by
    intro k hk
    by_cases hkf : k = .freeproc
    · subst hkf
      have hnodup := h.nodup .freeproc
      rw [hrest] at hnodup
      exact (nodup_cons.1 hnodup).1 hk
    · rw [update_of_ne hkf] at hk
      exact hkf (h.apart hk hcfree)
  have hpush := hpop.pushFront hnone .allproc
  have hlist : t'.list = _ := list_eq (by rw [ht']; exact hpush)
  have hall : t'.list .allproc = c :: t.list .allproc := by
    rw [hlist]
    rfl
  have hmpid : t'.mpid = m := by rw [ht']
  have hpidchecked : t'.pidchecked = k := by rw [ht']
  have hproc : t'.proc = update t.proc c (t.childOf parent c t'.mpid) := by rw [ht']
  have hcpid : (t'.proc c).pPid = m := by
    rw [hproc, update_self, hmpid]
    rfl
  have hother : ∀ p, p ≠ c → t'.proc p = t.proc p := by
    intro p hp
    rw [hproc, update_of_ne hp]
  have hcall' : c ∉ t.list .allproc := fun hc => absurd (h.apart hc hcfree) (by decide)
  have hc0 : c ≠ 0 := fun hc => hcall' (hc ▸ h.zero)
  refine ⟨t', hcall, ?_, hall, ?_, ?_, hproc, ?_, ?_, ?_, ?_, ?_, ?_⟩
  · rw [hlist, ht']
    exact hpush
  · rw [hlist]
    rfl
  · rw [hlist, hrest]
    rfl
  · -- the child becomes the first process of its bucket
    obtain ⟨hl, hlists, hmem⟩ := h.hashed
    have hcl : ∀ b, c ∉ hl b := fun b hb => hcall' ((hmem b c).1 hb).1.1
    refine ⟨update hl (pidHash m) (c :: hl (pidHash m)), ?_, ?_⟩
    · rw [ht']
      exact hlists.push hcl (pidHash m)
    · intro b p
      rw [Runs, hall, mem_cons]
      by_cases hpc : p = c
      · subst hpc
        rw [hcpid]
        by_cases hb : b = pidHash m
        · subst hb
          simp [hc0]
        · rw [update_of_ne hb]
          refine iff_of_false (hcl b) fun hc => hb hc.2.symm
      · rw [hother p hpc]
        have hp : p ∈ update hl (pidHash m) (c :: hl (pidHash m)) b ↔ p ∈ hl b := by
          by_cases hb : b = pidHash m
          · subst hb
            rw [update_self, mem_cons, or_iff_right hpc]
          · rw [update_of_ne hb]
        rw [hp, hmem, Runs, or_iff_right hpc]
  · rw [hmpid, hpidchecked, heq]
  · rwa [hmpid]
  · rwa [hmpid]
  · rw [hmpid, hpidchecked]
    exact ⟨hlt, hchecked⟩
  · rw [hmpid, hpidchecked]
    exact hfresh

variable (hf : Forked t t' parent c)
include hf

theorem Forked.child_notMem (h : t.Sound) : c ∉ t.list .allproc ∧ c ∉ t.list .zombproc := by
  have hc : c ∈ t.list .freeproc := hf.free ▸ mem_cons_self
  exact ⟨fun hmem => absurd (h.apart hmem hc) (by decide), fun hmem => absurd (h.apart hmem hc) (by decide)⟩

theorem Forked.proc_of_ne (hp : p ≠ c) : t'.proc p = t.proc p := by
  rw [hf.proc, update_of_ne hp]

theorem Forked.child : t'.proc c = t.childOf parent c t'.mpid := by
  rw [hf.proc, update_self]

theorem Forked.sound (h : t.Sound)
    (hfresh : ∀ p ∈ t.list .allproc, (t.proc p).pPid < t'.mpid ∨ t'.pidchecked ≤ (t.proc p).pPid) : t'.Sound := by
  obtain ⟨hcall, -⟩ := hf.child_notMem h
  have hpid : (t'.proc c).pPid = t'.mpid := by
    rw [hf.child]
    rfl
  have hpos := hf.pos
  obtain ⟨hlt, hchecked⟩ := hf.checked
  have hold : ∀ p ∈ t.list .allproc, t'.proc p = t.proc p := fun p hp =>
    hf.proc_of_ne fun hpc => hcall (hpc ▸ hp)
  have hne : ∀ p ∈ t.list .allproc, (t.proc p).pPid ≠ (t'.proc c).pPid := by
    intro p hp
    have := hfresh p hp
    omega
  have hgap : ∀ p ∈ t'.list .allproc, (t'.proc p).pPid ≤ t'.mpid ∨ t'.pidchecked ≤ (t'.proc p).pPid := by
    intro p hp
    rw [hf.all] at hp
    rcases mem_cons.1 hp with hpc | hp
    · rw [hpc]
      omega
    · rw [hold p hp]
      have := hfresh p hp
      omega
  refine ⟨hf.links, fun p => ?_, ?_, hf.hashed, ?_, ⟨hpos.le, hf.bound, hchecked, hgap⟩⟩
  · obtain ⟨k, hk⟩ := h.cover p
    cases k with
    | allproc => exact ⟨.allproc, hf.all ▸ mem_cons_of_mem _ hk⟩
    | zombproc => exact ⟨.zombproc, hf.zomb ▸ hk⟩
    | freeproc =>
      rw [hf.free] at hk
      rcases mem_cons.1 hk with rfl | hk
      · exact ⟨.allproc, hf.all ▸ mem_cons_self⟩
      · exact ⟨.freeproc, hk⟩
  · rw [hf.all]
    exact mem_cons_of_mem _ h.zero
  · intro p hp q hq hpq
    rw [hf.all] at hp hq
    rcases mem_cons.1 hp with hpc | hp
    · rcases mem_cons.1 hq with hqc | hq
      · rw [hpc, hqc]
      · rw [hold q hq, hpc] at hpq
        exact absurd hpq.symm (hne q hq)
    · rw [hold p hp] at hpq
      rcases mem_cons.1 hq with hqc | hq
      · rw [hqc] at hpq
        exact absurd hpq (hne p hp)
      · rw [hold q hq] at hpq
        exact h.unique p hp q hq hpq

omit hf

/-! ## `exit` -/

theorem foldl_orphan (proc : Slot → Proc) (p q : Slot) {ps : List Slot} (hps : ps.Nodup) :
    ps.foldl (fun proc q => update proc q (orphan p (proc q))) proc q =
      if q ∈ ps then orphan p (proc q) else proc q := by
  induction ps generalizing proc with
  | nil => rfl
  | cons r ps ih =>
    obtain ⟨hr, hps⟩ := nodup_cons.1 hps
    rw [foldl_cons, ih _ hps]
    by_cases hqr : q = r
    · subst hqr
      rw [if_neg hr, if_pos mem_cons_self, update_self]
    · simp only [update_of_ne hqr, mem_cons, hqr, false_or]

theorem orphans_proc (t : Table) (p q : Slot) {ps : List Slot} (hps : ps.Nodup) :
    (t.orphans p ps).proc q = if q ∈ ps then orphan p (t.proc q) else t.proc q :=
  foldl_orphan t.proc p q hps

structure Exited (t t' : Table) (p : Slot) : Prop where
  links : t'.links.Holds Doubly t'.list
  all : t'.list .allproc = (t.list .allproc).erase p
  zomb : t'.list .zombproc = p :: t.list .zombproc
  free : t'.list .freeproc = t.list .freeproc
  pid : ∀ q, (t'.proc q).pPid = (t.proc q).pPid
  pgrp : ∀ q, q ≠ p → (t'.proc q).pPgrp = (t.proc q).pPgrp
  pptr : ∀ q, t.Used q → (t'.proc q).pPptr = if (t.proc q).pPptr = some p then some 1 else (t.proc q).pPptr
  ppid : ∀ q, t.Used q → (t'.proc q).pPpid = if (t.proc q).pPptr = some p then 1 else (t.proc q).pPpid
  other : ∀ q, q ≠ p → (t.proc q).pPptr ≠ some p → t'.proc q = t.proc q
  hashed : ∃ h, t'.hash.Lists h ∧ ∀ b q, q ∈ h b ↔ t'.Runs q ∧ pidHash (t'.proc q).pPid = b
  mpid : t'.mpid = t.mpid
  pidchecked : t'.pidchecked = t.pidchecked

theorem Sound.unhash (h : t.Sound) (hp : t.Runs p) (v : Option Slot) :
    ∃ pp hl, t.hash.findLink p nproc (.head (pidHash (t.proc p).pPid)) = some pp ∧
      ((t.hash.set pp (t.hash.next p)).set (.cell p) v).Lists hl ∧
      ∀ b q, q ∈ hl b ↔ q ≠ p ∧ t.Runs q ∧ pidHash (t.proc q).pPid = b := by
  obtain ⟨hl, hlists, hmem⟩ := h.hashed
  obtain ⟨pre, post, hsplit, hfind⟩ := hlists.findLink ((hmem _ p).2 ⟨hp, rfl⟩)
  have hnodup := hlists.nodup (pidHash (t.proc p).pPid)
  rw [hsplit] at hnodup
  have hnot : p ∉ pre ++ post := (nodup_cons.1 (nodup_middle.1 hnodup)).1
  have hnew : ∀ b q, q ∈ update hl (pidHash (t.proc p).pPid) (pre ++ post) b ↔
      q ≠ p ∧ t.Runs q ∧ pidHash (t.proc q).pPid = b := by
    intro b q
    rw [← hmem]
    by_cases hb : b = pidHash (t.proc p).pPid
    · rw [hb, update_self, hsplit, perm_middle.mem_iff, mem_cons]
      constructor
      · intro hq
        exact ⟨ne_of_mem_of_not_mem hq hnot, .inr hq⟩
      · rintro ⟨hne, hq⟩
        exact hq.resolve_left hne
    · rw [update_of_ne hb]
      refine (and_iff_right_of_imp fun hq => ?_).symm
      rintro rfl
      exact hb ((hmem b q).1 hq).2.symm
  refine ⟨_, _, hfind, (hlists.remove hsplit).set_other (fun b hb => ((hnew b p).1 hb).1 rfl) v, hnew⟩

theorem exit_spec (h : t.Sound) (hp : t.Runs p) (hpid : (t.proc p).pPid ≠ 1) (rv : ℤ) (g : Overlay) :
    ∃ t', t.exit p rv g = some t' ∧ Exited t t' p := by
  obtain ⟨links, hunlink, hlinks⟩ := h.links.unlink (by simp [Doubly]) hp.1
  obtain ⟨pp, hl, hfind, hhash, hmem⟩ := h.unhash hp g.pHash
  have hnone : ∀ k, p ∉ update t.list .allproc ((t.list .allproc).erase p) k := by
    intro k hk
    by_cases hka : k = .allproc
    · subst hka
      exact (h.nodup .allproc).not_mem_erase hk
    · rw [update_of_ne hka] at hk
      exact hka (h.apart hk hp.1)
  have hpush := hlinks.pushFront hnone .zombproc
  -- the table before the children are given to process 1
  obtain ⟨t1, ht1⟩ : ∃ t1, t1 = ({ t with
    links := links.pushFront .zombproc p
    hash := (t.hash.set pp (t.hash.next p)).set (.cell p) g.pHash
    proc := update t.proc p { t.proc p with
      traced := false, pStat := .szomb, pXstat := rv, pPgrp := g.pPgrp } } : Table) := ⟨_, rfl⟩
  have hlist1 : t1.list = _ := list_eq (by rw [ht1]; exact hpush)
  have hall1 : t1.list .allproc = (t.list .allproc).erase p := by
    rw [hlist1]
    rfl
  have hzomb1 : t1.list .zombproc = p :: t.list .zombproc := by
    rw [hlist1]
    rfl
  have hcall : t.exit p rv g = some (t1.orphans p (t1.list .allproc ++ t1.list .zombproc)) := by
    rw [ht1, exit]
    simp only [setProc, update_self, update_idem, hunlink, hfind, if_neg hpid]
  have hnodup : (t1.list .allproc ++ t1.list .zombproc).Nodup := by
    have hholds : t1.links.Holds Doubly t1.list := by
      rw [hlist1, ht1]
      exact hpush
    refine nodup_append'.2 ⟨hholds.lists.nodup _, hholds.lists.nodup _, fun q hq hq' => ?_⟩
    exact absurd (hholds.lists.apart _ _ q hq hq') (by decide)
  have hused : ∀ q, t.Used q → q ∈ t1.list .allproc ++ t1.list .zombproc := by
    intro q hq
    rw [hall1, hzomb1, mem_append, mem_cons]
    by_cases hqp : q = p
    · exact .inr (.inl hqp)
    · rcases hq with hq | hq
      · exact .inl ((mem_erase_of_ne hqp).2 hq)
      · exact .inr (.inr hq)
  have hproc := fun q => orphans_proc t1 p q hnodup
  have hfields : ∀ q, (t1.proc q).pPid = (t.proc q).pPid ∧ (t1.proc q).pPptr = (t.proc q).pPptr ∧
      (t1.proc q).pPpid = (t.proc q).pPpid := by
    intro q
    rw [ht1]
    by_cases hqp : q = p
    · subst hqp
      simp
    · simp [update_of_ne hqp]
  have hpid' : ∀ q, ((t1.orphans p (t1.list .allproc ++ t1.list .zombproc)).proc q).pPid = (t.proc q).pPid := by
    intro q
    rw [hproc, ← (hfields q).1, orphan]
    split_ifs <;> rfl
  refine ⟨_, hcall, ?_, hall1, hzomb1, ?_, hpid', ?_, ?_, ?_, ?_, ?_, ?_, ?_⟩
  · show t1.links.Holds Doubly t1.list
    rw [hlist1, ht1]
    exact hpush
  · show t1.list .freeproc = _
    rw [hlist1]
    rfl
  · intro q hqp
    have hq : t1.proc q = t.proc q := by
      rw [ht1]
      exact update_of_ne hqp _ _
    rw [hproc, hq, orphan]
    split_ifs <;> rfl
  · intro q hq
    rw [hproc, if_pos (hused q hq), orphan, (hfields q).2.1]
    split_ifs
    · rfl
    · exact (hfields q).2.1
  · intro q hq
    rw [hproc, if_pos (hused q hq), orphan, (hfields q).2.1]
    split_ifs
    · rfl
    · exact (hfields q).2.2
  · intro q hqp hq
    rw [hproc, orphan, (hfields q).2.1, if_neg hq, ite_self, ht1]
    exact update_of_ne hqp _ _
  · refine ⟨hl, ?_, fun b q => ?_⟩
    · rw [ht1]
      exact hhash
    · rw [hmem, hpid', Runs, Runs, show (t1.orphans p _).list .allproc = (t.list .allproc).erase p from hall1,
        (h.nodup .allproc).mem_erase_iff]
      tauto
  · show t1.mpid = _
    rw [ht1]
  · show t1.pidchecked = _
    rw [ht1]

theorem Exited.sound (he : Exited t t' p) (h : t.Sound) (hp : t.Runs p) : t'.Sound := by
  have hsub : ∀ q ∈ t'.list .allproc, q ∈ t.list .allproc := by
    intro q hq
    rw [he.all] at hq
    exact mem_of_mem_erase hq
  refine ⟨he.links, fun q => ?_, ?_, he.hashed, ?_, ?_⟩
  · by_cases hqp : q = p
    · exact ⟨.zombproc, he.zomb ▸ hqp ▸ mem_cons_self⟩
    · obtain ⟨k, hk⟩ := h.cover q
      cases k with
      | allproc => exact ⟨.allproc, he.all ▸ (mem_erase_of_ne hqp).2 hk⟩
      | zombproc => exact ⟨.zombproc, he.zomb ▸ mem_cons_of_mem _ hk⟩
      | freeproc => exact ⟨.freeproc, he.free ▸ hk⟩
  · rw [he.all]
    exact (mem_erase_of_ne hp.2.symm).2 h.zero
  · intro q hq r hr hqr
    rw [he.pid, he.pid] at hqr
    exact h.unique q (hsub q hq) r (hsub r hr) hqr
  · have hc := h.counted
    refine ⟨?_, ?_, ?_, fun q hq => ?_⟩
    · rw [he.mpid]
      exact hc.nonneg
    · rw [he.mpid]
      exact hc.bound
    · rw [he.pidchecked]
      exact hc.checked
    · rw [he.mpid, he.pidchecked, he.pid]
      exact hc.gap q (hsub q hq)

/-! ## `wait1` -/

/-- Nothing has changed but states, flags, users and groups. -/
structure Alike (t t' : Table) : Prop where
  links : t'.links = t.links
  hash : t'.hash = t.hash
  mpid : t'.mpid = t.mpid
  pidchecked : t'.pidchecked = t.pidchecked
  pid : ∀ p, (t'.proc p).pPid = (t.proc p).pPid
  ppid : ∀ p, (t'.proc p).pPpid = (t.proc p).pPpid
  pptr : ∀ p, (t'.proc p).pPptr = (t.proc p).pPptr

theorem Alike.refl (t : Table) : Alike t t := ⟨rfl, rfl, rfl, rfl, fun _ => rfl, fun _ => rfl, fun _ => rfl⟩

theorem setProc_self (t : Table) (p : Slot) (x : Proc) : (t.setProc p x).proc p = x := by
  simp [setProc]

theorem setProc_of_ne (t : Table) (x : Proc) (hq : q ≠ p) : (t.setProc p x).proc q = t.proc q := by
  simp [setProc, hq]

theorem alike_setProc {x : Proc} (hpid : x.pPid = (t.proc p).pPid) (hppid : x.pPpid = (t.proc p).pPpid)
    (hpptr : x.pPptr = (t.proc p).pPptr) : Alike t (t.setProc p x) := by
  refine ⟨rfl, rfl, rfl, rfl, fun q => ?_, fun q => ?_, fun q => ?_⟩
  all_goals
    by_cases hqp : q = p
    · rw [hqp, setProc_self]
      assumption
    · rw [setProc_of_ne t x hqp]

theorem Alike.list (h : Alike t t') : t'.list = t.list := by
  funext k
  rw [Table.list, Table.list, h.links]

theorem Alike.sound (ha : Alike t t') (h : t.Sound) : t'.Sound := by
  refine ⟨?_, ?_, ?_, ?_, ?_, ?_⟩
  · rw [ha.links, ha.list]
    exact h.links
  · rw [ha.list]
    exact h.cover
  · rw [ha.list]
    exact h.zero
  · obtain ⟨hl, hlists, hmem⟩ := h.hashed
    refine ⟨hl, ha.hash ▸ hlists, fun b p => ?_⟩
    rw [hmem, Runs, Runs, ha.list, ha.pid]
  · intro p hp q hq hpq
    rw [ha.list] at hp hq
    rw [ha.pid, ha.pid] at hpq
    exact h.unique p hp q hq hpq
  · have hc := h.counted
    refine ⟨ha.mpid ▸ hc.nonneg, ha.mpid ▸ hc.bound, ha.pidchecked ▸ hc.checked, fun p hp => ?_⟩
    rw [ha.list] at hp
    rw [ha.pid, ha.mpid, ha.pidchecked]
    exact hc.gap p hp

structure Reaped (t t' : Table) (p : Slot) : Prop where
  links : t'.links.Holds Doubly t'.list
  all : t'.list .allproc = t.list .allproc
  zomb : t'.list .zombproc = (t.list .zombproc).erase p
  free : t'.list .freeproc = p :: t.list .freeproc
  proc : t'.proc = update t.proc p (reaped (t.proc p))
  hash : t'.hash = t.hash
  mpid : t'.mpid = t.mpid
  pidchecked : t'.pidchecked = t.pidchecked

theorem reaped_spec (h : t.Sound) (hp : p ∈ t.list .zombproc) :
    ∃ links, t.links.unlink p = some links ∧
      Reaped t (({ t with links := links.pushPlain .freeproc p } : Table).setProc p (reaped (t.proc p))) p := by
  obtain ⟨links, hunlink, hlinks⟩ := h.links.unlink (by simp [Doubly]) hp
  have hnone : ∀ k, p ∉ update t.list .zombproc ((t.list .zombproc).erase p) k := by
    intro k hk
    by_cases hkz : k = .zombproc
    · subst hkz
      exact (h.nodup .zombproc).not_mem_erase hk
    · rw [update_of_ne hkz] at hk
      exact hkz (h.apart hk hp)
  have hpush := hlinks.pushPlain (fun hB => hB rfl) hnone
  set t' := ({ t with links := links.pushPlain .freeproc p } : Table).setProc p (reaped (t.proc p)) with ht'
  have hlist : t'.list = _ := list_eq hpush
  refine ⟨links, hunlink, ?_⟩
  rw [← ht']
  refine ⟨?_, ?_, ?_, ?_, ?_, ?_, ?_, ?_⟩
  · rw [hlist]
    exact hpush
  · rw [hlist]
    rfl
  · rw [hlist]
    rfl
  · rw [hlist]
    rfl
  all_goals
    rfl

theorem Reaped.proc_of_ne (hr : Reaped t t' p) (hq : q ≠ p) : t'.proc q = t.proc q := by
  rw [hr.proc, update_of_ne hq]

theorem Reaped.live (hr : Reaped t t' p) (h : t.Sound) (hp : p ∈ t.list .zombproc) (hq : q ∈ t.list .allproc) :
    t'.proc q = t.proc q := by
  refine hr.proc_of_ne ?_
  rintro rfl
  exact absurd (h.apart hq hp) (by decide)

theorem Reaped.sound (hr : Reaped t t' p) (h : t.Sound) (hp : p ∈ t.list .zombproc) : t'.Sound := by
  refine ⟨hr.links, fun q => ?_, ?_, ?_, ?_, ?_⟩
  · by_cases hqp : q = p
    · exact ⟨.freeproc, hr.free ▸ hqp ▸ mem_cons_self⟩
    · obtain ⟨k, hk⟩ := h.cover q
      cases k with
      | allproc => exact ⟨.allproc, hr.all ▸ hk⟩
      | zombproc => exact ⟨.zombproc, hr.zomb ▸ (mem_erase_of_ne hqp).2 hk⟩
      | freeproc => exact ⟨.freeproc, hr.free ▸ mem_cons_of_mem _ hk⟩
  · rw [hr.all]
    exact h.zero
  · obtain ⟨hl, hlists, hmem⟩ := h.hashed
    refine ⟨hl, hr.hash ▸ hlists, fun b q => ?_⟩
    rw [hmem, Runs, Runs, hr.all]
    refine and_congr_right fun hq => ?_
    rw [hr.live h hp hq.1]
  · intro q hq r hr' hqr
    rw [hr.all] at hq hr'
    rw [hr.live h hp hq, hr.live h hp hr'] at hqr
    exact h.unique q hq r hr' hqr
  · have hc := h.counted
    refine ⟨hr.mpid ▸ hc.nonneg, hr.mpid ▸ hc.bound, hr.pidchecked ▸ hc.checked, fun q hq => ?_⟩
    rw [hr.all] at hq
    rw [hr.live h hp hq, hr.mpid, hr.pidchecked]
    exact hc.gap q hq

def waitPid (t : Table) (q : Slot) (a : WaitArgs) : ℤ := if a.pid = 0 then -(t.proc q).pPgrp else a.pid

def WaitResult.Exited (r : WaitResult) : Prop := ∃ p pid status, r = .exited p pid status

/-- Either a zombie child is returned and its slot is freed, or the table is as it was. -/
theorem wait1_cases (h : t.Sound) (q : Slot) (a : WaitArgs) :
    (∃ p t', t.wait1 q a = some (.exited p (t.proc p).pPid (t.proc p).pXstat, t') ∧ p ∈ t.list .zombproc ∧
      Wanted q (t.waitPid q a) (t.proc p) ∧ Reaped t t' p) ∨
    ∃ r t', t.wait1 q a = some (r, t') ∧ ¬ r.Exited ∧ Alike t t' ∧
      (a.statusFault = false → a.rusageFault = false → ∀ p ∈ t.list .zombproc,
        ¬ Wanted q (t.waitPid q a) (t.proc p)) ∧
      ∀ p, (t'.proc p).pPgrp = (t.proc p).pPgrp := by
  rw [wait1]
  rw [← waitPid]
  cases hfind : (t.list .zombproc).find? fun p => Wanted q (t.waitPid q a) (t.proc p) with
  | some p =>
    have hp := mem_of_find?_eq_some hfind
    have hwanted : Wanted q (t.waitPid q a) (t.proc p) := by simpa using List.find?_some hfind
    dsimp only
    by_cases hfault : a.statusFault ∨ a.rusageFault
    · rw [if_pos hfault]
      refine .inr ⟨_, t, rfl, ?_, .refl t, fun hs hr => ?_, fun _ => rfl⟩
      · rintro ⟨_, _, _, hr⟩
        cases hr
      · rw [hs, hr] at hfault
        simp at hfault
    · rw [if_neg hfault]
      obtain ⟨links, hunlink, hreaped⟩ := reaped_spec h hp
      rw [hunlink]
      exact .inl ⟨p, _, rfl, hp, hwanted, hreaped⟩
  | none =>
    have hnone : ∀ p ∈ t.list .zombproc, ¬ Wanted q (t.waitPid q a) (t.proc p) := by
      intro p hp
      simpa using List.find?_eq_none.1 hfind p hp
    refine .inr ?_
    dsimp only
    split
    · refine ⟨_, _, rfl, ?_, alike_setProc rfl rfl rfl, fun _ _ => hnone, fun p => ?_⟩
      · rintro ⟨_, _, _, hr⟩
        split_ifs at hr
      · simp only [setProc, update_apply]
        split_ifs with hp
        · rw [hp]
        · rfl
    · split_ifs
      all_goals
        refine ⟨_, t, rfl, ?_, .refl t, fun _ _ => hnone, fun _ => rfl⟩
        rintro ⟨_, _, _, hr⟩
        cases hr

/-! ## Families -/

structure Family (t : Table) : Prop where
  zeroPid : (t.proc 0).pPid = 0
  init : t.Runs 1
  initPid : (t.proc 1).pPid = 1
  parent : ∀ p, t.Used p → p ≠ 0 → p ≠ 1 →
    ∃ q ∈ t.list .allproc, (t.proc p).pPptr = some q ∧ (t.proc q).pPid = (t.proc p).pPpid

include hf

theorem Forked.family (h : t.Sound) (hfam : t.Family) (hparent : parent ∈ t.list .allproc) :
    t'.Family := by
  obtain ⟨hcall, -⟩ := hf.child_notMem h
  have hlive : ∀ q ∈ t.list .allproc, q ∈ t'.list .allproc ∧ t'.proc q = t.proc q := by
    intro q hq
    refine ⟨hf.all ▸ mem_cons_of_mem _ hq, hf.proc_of_ne fun hqc => hcall (hqc ▸ hq)⟩
  refine ⟨?_, ⟨(hlive 1 hfam.init.1).1, hfam.init.2⟩, ?_, fun p hp hp0 hp1 => ?_⟩
  · rw [(hlive 0 h.zero).2]
    exact hfam.zeroPid
  · rw [(hlive 1 hfam.init.1).2]
    exact hfam.initPid
  · by_cases hpc : p = c
    · subst hpc
      refine ⟨parent, (hlive parent hparent).1, ?_, ?_⟩
      · rw [hf.child]
        rfl
      · rw [(hlive parent hparent).2, hf.child]
        rfl
    · have hused : t.Used p := by
        rcases hp with hp | hp
        · rw [hf.all] at hp
          exact .inl ((mem_cons.1 hp).resolve_left hpc)
        · exact .inr (hf.zomb ▸ hp)
      obtain ⟨q, hq, hpptr, hpid⟩ := hfam.parent p hused hp0 hp1
      rw [hf.proc_of_ne hpc]
      refine ⟨q, (hlive q hq).1, hpptr, ?_⟩
      rw [(hlive q hq).2]
      exact hpid

omit hf

theorem Exited.family (he : Exited t t' p) (hfam : t.Family) (hp : t.Runs p) (hp1 : p ≠ 1) : t'.Family := by
  have hlive : ∀ q ∈ t.list .allproc, q ≠ p → q ∈ t'.list .allproc := by
    intro q hq hqp
    rw [he.all]
    exact (mem_erase_of_ne hqp).2 hq
  have hinit := hlive 1 hfam.init.1 hp1.symm
  refine ⟨?_, ⟨hinit, hfam.init.2⟩, ?_, fun q hq hq0 hq1 => ?_⟩
  · rw [he.pid]
    exact hfam.zeroPid
  · rw [he.pid]
    exact hfam.initPid
  · have hused : t.Used q := by
      rcases hq with hq | hq
      · rw [he.all] at hq
        exact .inl (mem_of_mem_erase hq)
      · rw [he.zomb] at hq
        rcases mem_cons.1 hq with rfl | hq
        · exact .inl hp.1
        · exact .inr hq
    obtain ⟨r, hr, hpptr, hpid⟩ := hfam.parent q hused hq0 hq1
    rw [he.pptr q hused, he.ppid q hused, hpptr]
    by_cases hrp : r = p
    · rw [hrp, if_pos rfl, if_pos rfl]
      exact ⟨1, hinit, rfl, (he.pid 1).trans hfam.initPid⟩
    · have hne : some r ≠ some p := fun heq => hrp (Option.some.inj heq)
      rw [if_neg hne, if_neg hne]
      exact ⟨r, hlive r hr hrp, rfl, (he.pid r).trans hpid⟩

theorem Reaped.family (hr : Reaped t t' p) (h : t.Sound) (hfam : t.Family)
    (hp : p ∈ t.list .zombproc) : t'.Family := by
  refine ⟨?_, ⟨hr.all ▸ hfam.init.1, hfam.init.2⟩, ?_, fun q hq hq0 hq1 => ?_⟩
  · rw [hr.live h hp h.zero]
    exact hfam.zeroPid
  · rw [hr.live h hp hfam.init.1]
    exact hfam.initPid
  · have hqp : q ≠ p := by
      rintro rfl
      rcases hq with hq | hq
      · exact absurd (h.apart (hr.all ▸ hq) hp) (by decide)
      · rw [hr.zomb] at hq
        exact (h.nodup .zombproc).not_mem_erase hq
    have hused : t.Used q := by
      rcases hq with hq | hq
      · exact .inl (hr.all ▸ hq)
      · rw [hr.zomb] at hq
        exact .inr (mem_of_mem_erase hq)
    obtain ⟨r, hr', hpptr, hpid⟩ := hfam.parent q hused hq0 hq1
    rw [hr.proc_of_ne hqp]
    refine ⟨r, hr.all ▸ hr', hpptr, ?_⟩
    rw [hr.live h hp hr']
    exact hpid

theorem Alike.family (ha : Alike t t') (hfam : t.Family) : t'.Family := by
  refine ⟨?_, ⟨ha.list ▸ hfam.init.1, hfam.init.2⟩, ?_, fun p hp hp0 hp1 => ?_⟩
  · rw [ha.pid]
    exact hfam.zeroPid
  · rw [ha.pid]
    exact hfam.initPid
  · rw [Used, ha.list] at hp
    obtain ⟨q, hq, hpptr, hpid⟩ := hfam.parent p hp hp0 hp1
    rw [ha.list, ha.pptr, ha.ppid]
    exact ⟨q, hq, hpptr, (ha.pid q).trans hpid⟩

end Table

end RetroBSD.Procs
