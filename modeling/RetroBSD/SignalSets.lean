import RetroBSD.Runs
import Mathlib

/-!
# The signal sets of a process

`p_sigmask`, `p_sigignore` and `p_sigcatch` of the process structure, and the handlers in the
user area which the last two repeat bit by bit. Masks that come from user memory lose `SIGKILL`
and `SIGSTOP` on the way in, and so every mask that is ever saved is without them.

`sa_flags` and what `osa` and `oset` are given are left out but for the errors of `copyout`.
-/

namespace RetroBSD.Signal

open Function Runs

abbrev Sigset := BitVec 32

def nsig : ℕ := 32
def sigill : ℕ := 4
def sigkill : ℕ := 9
def sigstop : ℕ := 17
def sigcont : ℕ := 19

def sigDfl : BitVec 32 := 0
def sigIgn : BitVec 32 := 1

def sigmask (signum : ℕ) : Sigset := 1#32 <<< (signum - 1)

def sigcantmask : Sigset := sigmask sigkill ||| sigmask sigstop

def saIgnore : ℕ := 0x10

def sigprop (signum : ℕ) : ℕ :=
  [0, 0x01, 0x01, 0x03, 0x03, 0x03, 0x03, 0x03, 0x03, 0x01, 0x03, 0x03,
    0x03, 0x01, 0x01, 0x01, 0x10, 0x04, 0x0c, 0x30, 0x10, 0x0c, 0x0c, 0x10,
    0x01, 0x01, 0x01, 0x01, 0x10, 0x10, 0x01, 0x01].getD signum 0

/-- The fields of `struct proc` and `struct user` about signals. `sasOldmask` is a bit of `u_psflags`. -/
structure Proc where
  pSig : Sigset
  pSigmask : Sigset
  pSigignore : Sigset
  pSigcatch : Sigset
  uSignal : ℕ → BitVec 32
  uSigmask : ℕ → Sigset
  uOldmask : Sigset
  sasOldmask : Bool

structure Sigaction where
  saHandler : BitVec 32
  saMask : Sigset

def einval : ℕ := 22
def efault : ℕ := 14

namespace Proc

variable (s : Proc)

def setsigvec (signum : ℕ) (sa : Sigaction) : Proc :=
  let bit := sigmask signum
  let s := { s with
    uSignal := update s.uSignal signum sa.saHandler
    uSigmask := update s.uSigmask signum (sa.saMask &&& ~~~sigcantmask) }
  if sa.saHandler = sigIgn ∨ sigprop signum &&& saIgnore ≠ 0 ∧ sa.saHandler = sigDfl then
    { s with
      pSig := s.pSig &&& ~~~bit
      pSigignore := if signum ≠ sigcont then s.pSigignore ||| bit else s.pSigignore
      pSigcatch := s.pSigcatch &&& ~~~bit }
  else
    { s with
      pSigignore := s.pSigignore &&& ~~~bit
      pSigcatch := if sa.saHandler = sigDfl then s.pSigcatch &&& ~~~bit else s.pSigcatch ||| bit }

/-- `osa` is the error of its `copyout`. A pointer may be null, and what it points to may not be readable. -/
def sigaction (signum : ℤ) (nsa : Option (Option Sigaction)) (osa : ℕ) : ℕ × Proc :=
  if signum ≤ 0 ∨ nsig ≤ signum then (einval, s)
  else if nsa.isSome ∧ (signum = sigkill ∨ signum = sigstop) then (einval, s)
  else if osa ≠ 0 then (osa, s)
  else
    match nsa with
    | none => (0, s)
    | some none => (efault, s)
    | some (some sa) => (0, s.setsigvec signum.toNat sa)

/-- `fatalsig`, whose signal is not ignored any more when `psignal` gets it. -/
def fatalsig (signum : ℕ) : Proc :=
  let mask := sigmask signum
  { s with
    pSig := s.pSig ||| mask
    pSigmask := s.pSigmask &&& ~~~mask
    pSigignore := s.pSigignore &&& ~~~mask
    pSigcatch := s.pSigcatch &&& ~~~mask
    uSignal := update s.uSignal signum sigDfl }

def sigprocmask (how : ℤ) (set : Option (Option Sigset)) (oset : ℕ) : ℕ × Proc :=
  match set with
  | none => (oset, s)
  | some none => (efault, s)
  | some (some newmask) =>
    if how = 1 then (oset, { s with pSigmask := s.pSigmask ||| newmask &&& ~~~sigcantmask })
    else if how = 2 then (oset, { s with pSigmask := s.pSigmask &&& ~~~newmask })
    else if how = 3 then (oset, { s with pSigmask := newmask &&& ~~~sigcantmask })
    else (einval, s)

/-- The mask for a sleep, in `sigsuspend` and `select1`. -/
def suspend (nmask : Sigset) : Proc :=
  { s with uOldmask := s.pSigmask, sasOldmask := true, pSigmask := nmask &&& ~~~sigcantmask }

def sigsuspend (set : Option (Option Sigset)) : Proc := s.suspend (set.join.getD 0)

/-- `select1` after its `tsleep`. -/
def restore : Proc := { s with pSigmask := s.uOldmask }

def sigreturn (scMask : Sigset) : Proc := { s with pSigmask := scMask &&& ~~~sigcantmask }

/-- `postsig` of a signal that has a handler, with the mask for `sendsig`. -/
def postsig (sig : ℕ) : Sigset × Proc :=
  (if s.sasOldmask then s.uOldmask else s.pSigmask,
    { s with
      pSig := s.pSig &&& ~~~sigmask sig
      pSigmask := s.pSigmask ||| (s.uSigmask sig ||| sigmask sig)
      sasOldmask := false })

def reset (nc : ℕ) : Proc :=
  let mask := sigmask nc
  { s with
    pSig := if sigprop nc &&& saIgnore ≠ 0 then s.pSig &&& ~~~mask else s.pSig
    pSigignore := if sigprop nc &&& saIgnore ≠ 0 ∧ nc ≠ sigcont then s.pSigignore ||| mask else s.pSigignore
    pSigcatch := s.pSigcatch &&& ~~~mask
    uSignal := update s.uSignal nc sigDfl }

/-- The loop takes the signals of `p_sigcatch` from the lowest on. -/
def execsigs : Proc :=
  let s := (List.range' 1 32).foldl (fun s nc => if s.pSigcatch.getLsbD (nc - 1) then s.reset nc else s) s
  { s with sasOldmask := false }

end Proc

def siginit : Sigset :=
  (List.range nsig).foldl (fun m i => if sigprop i &&& saIgnore ≠ 0 ∧ i ≠ sigcont then m ||| sigmask i else m) 0

/-! ## Bits -/

def Has (m : Sigset) (n : ℕ) : Prop := m.getLsbD (n - 1) = true

instance (m : Sigset) (n : ℕ) : Decidable (Has m n) := inferInstanceAs (Decidable (_ = _))

section Bits

variable {m m' : Sigset} {n k : ℕ}

theorem has_sigmask (hn : 0 < n) (hk : 0 < k) (hk' : k < nsig) : Has (sigmask n) k ↔ k = n := by
  rw [Has, sigmask, BitVec.getLsbD_shiftLeft, BitVec.getLsbD_one]
  simp only [Bool.and_eq_true, decide_eq_true_eq, Bool.not_eq_true', decide_eq_false_iff_not, nsig] at *
  omega

theorem has_or : Has (m ||| m') k ↔ Has m k ∨ Has m' k := by
  simp [Has]

theorem has_diff (hk : k < nsig) : Has (m &&& ~~~m') k ↔ Has m k ∧ ¬Has m' k := by
  have hlt : k - 1 < 32 := Nat.lt_of_le_of_lt (Nat.sub_le k 1) hk
  simp [Has, hlt]

theorem has_set (hn : 0 < n) (hk : 0 < k) (hk' : k < nsig) :
    Has (m ||| sigmask n) k ↔ if k = n then True else Has m k := by
  rw [has_or, has_sigmask hn hk hk']
  split_ifs with heq <;> simp [heq]

theorem has_clear (hn : 0 < n) (hk : 0 < k) (hk' : k < nsig) :
    Has (m &&& ~~~sigmask n) k ↔ if k = n then False else Has m k := by
  rw [has_diff hk', has_sigmask hn hk hk']
  split_ifs with heq <;> simp [heq]

/-- `SIGKILL` and `SIGSTOP` are not in the set. -/
def Legal (m : Sigset) : Prop := ¬Has m sigkill ∧ ¬Has m sigstop

theorem legal_cut (m : Sigset) : Legal (m &&& ~~~sigcantmask) := by
  have hkill : Has sigcantmask sigkill := by decide
  have hstop : Has sigcantmask sigstop := by decide
  exact ⟨fun h => ((has_diff (by decide)).1 h).2 hkill, fun h => ((has_diff (by decide)).1 h).2 hstop⟩

theorem Legal.or (h : Legal m) (h' : Legal m') : Legal (m ||| m') :=
  ⟨fun hh => (has_or.1 hh).elim h.1 h'.1, fun hh => (has_or.1 hh).elim h.2 h'.2⟩

theorem Legal.diff (h : Legal m) (m' : Sigset) : Legal (m &&& ~~~m') :=
  ⟨fun hh => h.1 ((has_diff (by decide)).1 hh).1, fun hh => h.2 ((has_diff (by decide)).1 hh).1⟩

end Bits

/-! ## Runs -/

def Ignores (n : ℕ) (action : BitVec 32) : Prop :=
  n ≠ sigcont ∧ (action = sigIgn ∨ action = sigDfl ∧ sigprop n &&& saIgnore ≠ 0)

instance (n : ℕ) (action : BitVec 32) : Decidable (Ignores n action) := inferInstanceAs (Decidable (_ ∧ _))

structure Proc.Consistent (s : Proc) : Prop where
  legal : Legal s.pSigmask ∧ Legal s.pSigignore ∧ Legal s.pSigcatch
  caught : ∀ n, 0 < n → n < nsig → n ≠ sigkill → n ≠ sigstop →
    (Has s.pSigcatch n ↔ s.uSignal n ≠ sigDfl ∧ s.uSignal n ≠ sigIgn)
  ignored : ∀ n, 0 < n → n < nsig → n ≠ sigkill → n ≠ sigstop → (Has s.pSigignore n ↔ Ignores n (s.uSignal n))

inductive Call (P : Type*)
  | sigaction (signum : ℤ) (nsa : Option (Option Sigaction)) (osa : ℕ)
  | sigprocmask (how : ℤ) (set : Option (Option Sigset)) (oset : ℕ)
  | sigsuspend (set : Option (Option Sigset))
  | pselect (sigmsk : Sigset)
  | wakeup
  | sigreturn (scMask : Sigset)
  | postsig (sig : ℕ)
  | fatalsig
  | exec
  | fork (child : P)

/-- The caller after a call. A sleep in `select1` begins and ends; `sendsig` alone calls `fatalsig`. -/
def Call.run {P : Type*} (s : Proc) : Call P → Proc
  | .sigaction signum nsa osa => (s.sigaction signum nsa osa).2
  | .sigprocmask how set oset => (s.sigprocmask how set oset).2
  | .sigsuspend set => s.sigsuspend set
  | .pselect sigmsk => s.suspend sigmsk
  | .wakeup => s.restore
  | .sigreturn scMask => s.sigreturn scMask
  | .postsig sig => (s.postsig sig).2
  | .fatalsig => s.fatalsig sigill
  | .exec => s.execsigs
  | .fork _ => s

abbrev System (P : Type*) := P → Option Proc

section System

variable {P : Type*} [DecidableEq P]

inductive Step : System P → P × Call P → System P → Prop
  | call {S : System P} {p : P} {s : Proc} {c : Call P} : S p = some s → (∀ child, c ≠ .fork child) →
      (∀ sig, c = .postsig sig → 0 < sig ∧ sig < nsig ∧ s.uSignal sig ≠ sigDfl) →
      Step S (p, c) (update S p (some (c.run s)))
  | fork {S : System P} {p child : P} {s : Proc} : S p = some s → S child = none →
      Step S (p, .fork child) (update S child (some { s with pSig := 0 }))

def boot (p : P) : System P := update (fun _ => none) p
    (some ⟨0, 0, siginit, 0, fun _ => sigDfl, fun _ => 0, 0, false⟩)

end System

/-- What is kept: also by the masks that are saved, and for all signals. -/
structure Proc.Inv (s : Proc) : Prop where
  mask : Legal s.pSigmask
  oldmask : Legal s.uOldmask
  masks : ∀ n, Legal (s.uSigmask n)
  kill : s.uSignal sigkill = sigDfl
  stop : s.uSignal sigstop = sigDfl
  caught : ∀ n, 0 < n → n < nsig → (Has s.pSigcatch n ↔ s.uSignal n ≠ sigDfl ∧ s.uSignal n ≠ sigIgn)
  ignored : ∀ n, 0 < n → n < nsig → (Has s.pSigignore n ↔ Ignores n (s.uSignal n))

section Invariant

variable {s : Proc} {signum : ℕ}

variable (h : s.Inv)
include h

theorem Proc.Inv.consistent : s.Consistent := by
  have hcatch : ∀ n, 0 < n → n < nsig → s.uSignal n = sigDfl → ¬Has s.pSigcatch n :=
    fun n hn hn' hdfl hhas => ((h.caught n hn hn').1 hhas).1 hdfl
  have hignore : ∀ n, 0 < n → n < nsig → s.uSignal n = sigDfl → sigprop n &&& saIgnore = 0 → ¬Has s.pSigignore n := by
    intro n hn hn' hdfl hprop hhas
    obtain ⟨-, hign | ⟨-, hne⟩⟩ := (h.ignored n hn hn').1 hhas
    · rw [hdfl] at hign
      exact absurd hign (by decide)
    · exact hne hprop
  refine ⟨⟨h.mask, ⟨?_, ?_⟩, ?_, ?_⟩, fun n hn hn' _ _ => h.caught n hn hn', fun n hn hn' _ _ => h.ignored n hn hn'⟩
  · exact hignore _ (by decide) (by decide) h.kill (by decide)
  · exact hignore _ (by decide) (by decide) h.stop (by decide)
  · exact hcatch _ (by decide) (by decide) h.kill
  · exact hcatch _ (by decide) (by decide) h.stop

theorem Proc.Inv.setHandler {s' : Proc} {action : BitVec 32}
    (hcant : action = sigDfl ∨ signum ≠ sigkill ∧ signum ≠ sigstop) (hmask : Legal s'.pSigmask)
    (hold : s'.uOldmask = s.uOldmask) (hmasks : ∀ n, Legal (s'.uSigmask n))
    (hsignal : s'.uSignal = update s.uSignal signum action)
    (hcatch : ∀ n, 0 < n → n < nsig →
      (Has s'.pSigcatch n ↔ if n = signum then action ≠ sigDfl ∧ action ≠ sigIgn else Has s.pSigcatch n))
    (hignore : ∀ n, 0 < n → n < nsig →
      (Has s'.pSigignore n ↔ if n = signum then Ignores n action else Has s.pSigignore n)) : s'.Inv := by
  have hdfl : ∀ n, s.uSignal n = sigDfl → n = sigkill ∨ n = sigstop → s'.uSignal n = sigDfl := by
    intro n hn hcases
    rw [hsignal, update_apply]
    split_ifs with heq
    · refine hcant.resolve_right fun hne => ?_
      exact hcases.elim (fun hkill => hne.1 (heq.symm.trans hkill)) fun hstop => hne.2 (heq.symm.trans hstop)
    · exact hn
  refine ⟨hmask, hold ▸ h.oldmask, hmasks, hdfl _ h.kill (.inl rfl), hdfl _ h.stop (.inr rfl), ?_, ?_⟩
  · intro n hn hn'
    rw [hcatch n hn hn', h.caught n hn hn', hsignal, update_apply]
    split_ifs <;> rfl
  · intro n hn hn'
    rw [hignore n hn hn', h.ignored n hn hn', hsignal, update_apply]
    split_ifs <;> rfl

theorem Proc.Inv.not_sigcont : ¬Has s.pSigignore sigcont := fun hhas =>
  ((h.ignored sigcont (by decide) (by decide)).1 hhas).1 rfl

theorem Proc.Inv.setsigvec (hs : 0 < signum) (hkill : signum ≠ sigkill) (hstop : signum ≠ sigstop)
    (sa : Sigaction) : (s.setsigvec signum sa).Inv := by
  have hmasks : ∀ n, Legal (update s.uSigmask signum (sa.saMask &&& ~~~sigcantmask) n) := by
    intro n
    rw [update_apply]
    split_ifs
    · exact legal_cut _
    · exact h.masks n
  rw [Proc.setsigvec]
  by_cases hign : sa.saHandler = sigIgn ∨ sigprop signum &&& saIgnore ≠ 0 ∧ sa.saHandler = sigDfl
  · have hcaught : ¬(sa.saHandler ≠ sigDfl ∧ sa.saHandler ≠ sigIgn) :=
      fun hne => hign.elim hne.2 fun hdfl => hne.1 hdfl.2
    rw [if_pos hign]
    refine h.setHandler (.inr ⟨hkill, hstop⟩) h.mask rfl hmasks rfl (fun n hn hn' => ?_) fun n hn hn' => ?_
    · rw [has_clear hs hn hn', iff_false_intro hcaught]
    · by_cases hcont : signum = sigcont
      · rw [if_neg (not_not.2 hcont)]
        split_ifs with heq
        · rw [heq, hcont]
          exact iff_of_false h.not_sigcont fun hign => hign.1 rfl
        · rfl
      · rw [if_pos hcont, has_set hs hn hn']
        split_ifs with heq
        · rw [heq]
          exact iff_of_true trivial ⟨hcont, hign.imp_right And.symm⟩
        · rfl
  · rw [if_neg hign]
    refine h.setHandler (.inr ⟨hkill, hstop⟩) h.mask rfl hmasks rfl (fun n hn hn' => ?_) fun n hn hn' => ?_
    · by_cases hdfl : sa.saHandler = sigDfl
      · rw [if_pos hdfl, has_clear hs hn hn']
        simp [hdfl]
      · have hne : sa.saHandler ≠ sigIgn := fun heq => hign (.inl heq)
        rw [if_neg hdfl, has_set hs hn hn']
        simp [hdfl, hne]
    · rw [has_clear hs hn hn']
      split_ifs with heq
      · rw [heq]
        exact iff_of_false id fun hig => hign (hig.2.imp_right And.symm)
      · rfl

theorem Proc.Inv.fatalsig : (s.fatalsig sigill).Inv := by
  refine h.setHandler (.inl rfl) (h.mask.diff _) rfl h.masks rfl (fun n hn hn' => ?_) fun n hn hn' => ?_
  · rw [Proc.fatalsig, has_clear (by decide) hn hn']
    simp
  · rw [Proc.fatalsig, has_clear (by decide) hn hn']
    split_ifs with heq
    · subst heq
      decide
    · rfl

/-- A signal that is caught is not ignored: its bit in `p_sigignore` need not be cleared. -/
theorem Proc.Inv.reset (hs : 0 < signum) (hcaught : Has s.pSigcatch signum) : (s.reset signum).Inv := by
  refine h.setHandler (.inl rfl) h.mask rfl h.masks rfl (fun n hn hn' => ?_) fun n hn hn' => ?_
  · rw [Proc.reset, has_clear hs hn hn']
    simp
  · rw [Proc.reset]
    by_cases hprop : sigprop signum &&& saIgnore ≠ 0 ∧ signum ≠ sigcont
    · rw [if_pos hprop, has_set hs hn hn']
      split_ifs with heq
      · rw [heq]
        exact iff_of_true trivial ⟨hprop.2, .inr ⟨rfl, hprop.1⟩⟩
      · rfl
    · rw [if_neg hprop]
      by_cases heq : n = signum
      · subst heq
        obtain ⟨hdfl, hign⟩ := (h.caught n hn hn').1 hcaught
        rw [if_pos rfl, h.ignored n hn hn']
        refine iff_of_false (fun hig => ?_) fun hig => ?_
        · exact hig.2.elim hign fun hsig => hdfl hsig.1
        · exact hig.2.elim (by decide) fun hsig => hprop ⟨hsig.2, hig.1⟩
      · rw [if_neg heq]

theorem Proc.Inv.execsigs : s.execsigs.Inv := by
  have hfold : ∀ ns : List ℕ, (∀ n ∈ ns, 0 < n) → ∀ {s : Proc}, s.Inv →
      (ns.foldl (fun s nc => if s.pSigcatch.getLsbD (nc - 1) then s.reset nc else s) s).Inv := by
    intro ns
    induction ns with
    | nil => exact fun _ _ h => h
    | cons n ns ih =>
      intro hns s h
      rw [List.foldl_cons]
      refine ih (fun k hk => hns k (List.mem_cons_of_mem n hk)) ?_
      split_ifs with hcaught
      · exact h.reset (hns n List.mem_cons_self) hcaught
      · exact h
  have h' := hfold (List.range' 1 32) (by decide) h
  exact ⟨h'.mask, h'.oldmask, h'.masks, h'.kill, h'.stop, h'.caught, h'.ignored⟩

theorem Proc.Inv.withMask {m old : Sigset} {pending : Sigset} {sas : Bool} (hm : Legal m)
    (hold : Legal old) :
    Proc.Inv { s with pSig := pending, pSigmask := m, uOldmask := old, sasOldmask := sas } :=
  ⟨hm, hold, h.masks, h.kill, h.stop, h.caught, h.ignored⟩

/-- Only a signal with a handler gets to `sendsig`, and `SIGKILL` and `SIGSTOP` have none. -/
theorem Proc.Inv.postsig (hs : 0 < signum) (hsig : s.uSignal signum ≠ sigDfl) :
    (s.postsig signum).2.Inv := by
  have hbit : Legal (sigmask signum) := by
    refine ⟨fun hhas => hsig ?_, fun hhas => hsig ?_⟩
    · rw [← (has_sigmask hs (by decide) (by decide)).1 hhas, h.kill]
    · rw [← (has_sigmask hs (by decide) (by decide)).1 hhas, h.stop]
  exact h.withMask (h.mask.or ((h.masks signum).or hbit)) h.oldmask

theorem Proc.Inv.sigaction (sig : ℤ) (nsa : Option (Option Sigaction)) (osa : ℕ) :
    (s.sigaction sig nsa osa).2.Inv := by
  unfold Proc.sigaction
  split_ifs with hrange hcant hosa
  · exact h
  · exact h
  · exact h
  · match nsa with
    | none | some none => exact h
    | some (some sa) =>
      have hne : sig ≠ sigkill ∧ sig ≠ sigstop := by simpa [not_or] using hcant
      refine h.setsigvec ?_ ?_ ?_ sa <;> omega

theorem Proc.Inv.sigprocmask (how : ℤ) (set : Option (Option Sigset)) (oset : ℕ) :
    (s.sigprocmask how set oset).2.Inv := by
  match set with
  | none | some none => exact h
  | some (some newmask) =>
    rw [Proc.sigprocmask]
    split_ifs
    · exact h.withMask (h.mask.or (legal_cut _)) h.oldmask
    · exact h.withMask (h.mask.diff _) h.oldmask
    · exact h.withMask (legal_cut _) h.oldmask
    · exact h

theorem Proc.Inv.call {P : Type*} {c : Call P}
    (hpost : ∀ sig, c = .postsig sig → 0 < sig ∧ sig < nsig ∧ s.uSignal sig ≠ sigDfl) : (c.run s).Inv := by
  cases c with
  | sigaction signum nsa osa => exact h.sigaction signum nsa osa
  | sigprocmask how set oset => exact h.sigprocmask how set oset
  | sigsuspend | pselect => exact h.withMask (legal_cut _) h.mask
  | wakeup => exact h.withMask h.oldmask h.oldmask
  | sigreturn scMask => exact h.withMask (legal_cut _) h.oldmask
  | postsig sig => exact h.postsig (hpost sig rfl).1 (hpost sig rfl).2.2
  | fatalsig => exact h.fatalsig
  | exec => exact h.execsigs
  | fork child => exact h

end Invariant

theorem inv_boot : Proc.Inv ⟨0, 0, siginit, 0, fun _ => sigDfl, fun _ => 0, 0, false⟩ := by
  have hzero : Legal 0 := ⟨by decide, by decide⟩
  refine ⟨hzero, hzero, fun _ => hzero, rfl, rfl, ?_, ?_⟩
  · exact fun n hn hn' => iff_of_false (by simp [Has]) fun hne => hne.1 rfl
  · have hinit : ∀ n < nsig, 0 < n → (Has siginit n ↔ Ignores n sigDfl) := by decide
    exact fun n hn hn' => hinit n hn' hn

variable {P : Type*} [DecidableEq P]

theorem step_inv {S S' : System P} {c : P × Call P} (hstep : Step S c S') (hS : ∀ q s, S q = some s → s.Inv) :
    ∀ q s, S' q = some s → s.Inv := by
  have hset : ∀ p t, t.Inv → ∀ q s, update S p (some t) q = some s → s.Inv := by
    intro p t ht q s hq
    rw [update_apply] at hq
    split_ifs at hq
    · exact Option.some.inj hq ▸ ht
    · exact hS q s hq
  cases hstep with
  | call hp _ hpost => exact hset _ _ ((hS _ _ hp).call hpost)
  | fork hp _ => exact hset _ _ ((hS _ _ hp).withMask (hS _ _ hp).mask (hS _ _ hp).oldmask)

/-- The sets agree with the handlers in every process, whatever the processes called and whatever masks they gave. -/
theorem run_keeps_sets {p : P} {calls : List (P × Call P)} {S : System P} (hrun : Run Step (boot p) calls S) :
    ∀ q s, S q = some s → s.Consistent := by
  have hboot : ∀ q s, boot p q = some s → s.Inv := by
    intro q s hq
    rw [boot, update_apply] at hq
    split_ifs at hq
    exact Option.some.inj hq ▸ inv_boot
  have hinv := hrun.invariant (fun _ _ _ hS hstep => step_inv hstep hS) hboot
  exact fun q s hq => (hinv q s hq).consistent

/-- A process that catches signal 2 with every signal in the mask forks, and its child gets the signal. -/
theorem run_keeps_sets_forked : ∃ S : System Bool, Run Step (boot false)
      [(false, .sigaction 2 (some (some ⟨64, -1⟩)) 0), (false, .fork true), (true, .postsig 2)] S ∧
    ∃ s, S true = some s ∧ s.pSigmask = ~~~sigcantmask ∧ s.Consistent := by
  have hrun : ∃ S : System Bool, Run Step (boot false)
      [(false, .sigaction 2 (some (some ⟨64, -1⟩)) 0), (false, .fork true), (true, .postsig 2)] S ∧
      ∃ s, S true = some s ∧ s.pSigmask = ~~~sigcantmask := by
    refine ⟨_, .cons (.call rfl nofun nofun)
      (.cons (.fork rfl rfl) (.cons (.call rfl nofun ?_) (.nil _))), _, rfl, by decide⟩
    rintro sig ⟨⟩
    decide
  obtain ⟨S, hrun, s, hs, hmask⟩ := hrun
  exact ⟨S, hrun, s, hs, hmask, run_keeps_sets hrun true s hs⟩

end RetroBSD.Signal
