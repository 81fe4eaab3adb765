import RetroBSD.UserAccess

/-!
# Tracing

`ptrace` and `procxmt` of sys_process.c for a parent and its traced child. The memory is given by
the words at its aligned addresses, the u area and the frame in it among them. A load or store at
any other address raises an address error in kernel mode, which is a panic: there is no result.

`procxmt` writes to every word of the frame alike, tests an address by its first byte, and lets the
child go on with any number up to `NSIG`.
-/

namespace RetroBSD.Ptrace

open UserAccess Function

/-! ## The model -/

def u : UInt32 := 0x80007400

def usize : Int32 := 3072

def frameWords : ℕ := 33

def frameStatus : Fin frameWords := ⟨31, by decide⟩

def framePc : Fin frameWords := ⟨32, by decide⟩

def stRp : UInt32 := 0x08000000

def nsig : ℕ := 32

def esrch : ℕ := 3

/-- `u.u_frame`: the registers are saved on the kernel stack, which is a part of the u area. -/
structure Frame where
  addr : UInt32
  aligned : addr.toNat % 4 = 0
  inside : u.toNat ≤ addr.toNat ∧ addr.toNat + 4 * frameWords ≤ u.toNat + usize.toInt

def Frame.word (f : Frame) (i : Fin frameWords) : UInt32 := f.addr + 4 * UInt32.ofNat i

inductive Stat where
  | sstop
  | srun
  | szomb
  deriving DecidableEq

structure State where
  mem : UInt32 → UInt32
  ptracesig : Int8
  stat : Stat
  callerTraced : Bool
  /-- The words that instruction and data requests have read or written. -/
  touched : List UInt32

def State.store (s : State) (a w : UInt32) : State := { s with mem := update s.mem a w }

def State.touch (s : State) (a : UInt32) : State := { s with touched := a :: s.touched }

structure Request where
  req : Int32
  addr : UInt32
  data : Int32

def ptReadI : Int32 := 1
def ptReadD : Int32 := 2
def ptReadU : Int32 := 3
def ptWriteI : Int32 := 4
def ptWriteD : Int32 := 5
def ptWriteU : Int32 := 6
def ptContinue : Int32 := 7
def ptKill : Int32 := 8
def ptStep : Int32 := 9

/-- The word of the u area that a request names. -/
def Request.uWord (r : Request) : UInt32 := u + 4 * (r.addr / 4)

/-- The frame of a child that is let go. -/
def resume (f : Frame) (s : State) (r : Request) : State :=
  let s := if r.req = ptStep then s.store (f.word frameStatus) (s.mem (f.word frameStatus) ||| stRp) else s
  if r.addr = 1 then s else s.store (f.word framePc) r.addr

/-- The child's part of a request: the state, `ip_data`, and whether `ip_req` is negative. -/
def procxmt (f : Frame) (s : State) (r : Request) : Option (State × Int32 × Bool) :=
  if r.req = ptReadI ∨ r.req = ptReadD then
    if baduaddr r.addr then some (s, r.data, true)
    else if r.addr % 4 ≠ 0 then none
    else some (s.touch r.addr, (s.mem r.addr).toInt32, false)
  else if r.req = ptReadU then
    if r.addr.toInt32 < 0 ∨ usize ≤ r.addr.toInt32 then some (s, r.data, true)
    else some (s, (s.mem r.uWord).toInt32, false)
  else if r.req = ptWriteI ∨ r.req = ptWriteD then
    if baduaddr r.addr then some (s, r.data, true)
    else if r.addr % 4 ≠ 0 then none
    else some ((s.touch r.addr).store r.addr r.data.toUInt32, r.data, false)
  else if r.req = ptWriteU then
    if ∃ i, r.uWord = f.word i then some (s.store r.uWord r.data.toUInt32, r.data, false)
    else some (s, r.data, true)
  else if r.req = ptStep ∨ r.req = ptContinue then
    if nsig < r.data.toInt then some (resume f s r, r.data, true)
    else some ({ resume f s r with ptracesig := r.data.toInt8, stat := .srun }, r.data, false)
  else if r.req = ptKill then some ({ s with stat := .szomb }, r.data, false)
  else some (s, r.data, true)

/-- `ptrace` with the state, `u_rval` and `u_error`. -/
def ptrace (f : Frame) (s : State) (r : Request) : Option (State × Int32 × ℕ) :=
  if r.req ≤ 0 then some ({ s with callerTraced := true }, 0, 0)
  else if s.stat ≠ .sstop then some (s, 0, esrch)
  else (procxmt f s r).map fun (s, data, failed) => (s, data, if failed then Exec.eio else 0)

/-! ## What a request may do -/

/-- Nothing but user memory, the saved registers and the single-step flag has changed, and the
signal is an entry of the tables of `issignal`. -/
structure Kept (f : Frame) (s₀ s : State) : Prop where
  caller : s.callerTraced = s₀.callerTraced
  mem : ∀ a, baduaddr a = true → (∀ i, a ≠ f.word i) → s.mem a = s₀.mem a
  status : s.mem (f.word frameStatus) ||| stRp = s₀.mem (f.word frameStatus) ||| stRp
  touched : ∀ a ∈ s.touched, flash.Within a 4 ∨ ram.Within a 4
  signal : ∃ n : Fin nsig, s.ptracesig.toInt = n

/-- The address of a data or instruction request is refused or aligned, the status word is not
written but for the single-step flag, and the child goes on with a signal that exists. -/
def Request.Fits (f : Frame) (s : State) (r : Request) : Prop :=
  if r.req = ptReadI ∨ r.req = ptReadD then baduaddr r.addr = false → r.addr % 4 = 0
  else if r.req = ptReadU then True
  else if r.req = ptWriteI ∨ r.req = ptWriteD then baduaddr r.addr = false → r.addr % 4 = 0
  else if r.req = ptWriteU then
    r.uWord = f.word frameStatus → r.data.toUInt32 ||| stRp = s.mem (f.word frameStatus) ||| stRp
  else if r.req = ptStep ∨ r.req = ptContinue then
    r.data.toInt ≤ nsig → ∃ n : Fin nsig, r.data.toInt8.toInt = n
  else True

/-- A caller that asks to be traced is so already, and a request for the stopped child is fit. -/
def Request.Harmless (f : Frame) (s : State) (r : Request) : Prop :=
  if r.req ≤ 0 then s.callerTraced = true else s.stat = .sstop → r.Fits f s

instance (f : Frame) (s : State) (r : Request) : Decidable (r.Harmless f s) := by
  unfold Request.Harmless Request.Fits
  infer_instance

/-- Every state of the run has the property, and no request of it ends in a panic. -/
def Always (P : State → Prop) (f : Frame) : State → List Request → Prop
  | s, [] => P s
  | s, r :: rs => P s ∧ ∃ x, ptrace f s r = some x ∧ Always P f x.1 rs

def AllHarmless (f : Frame) : State → List Request → Prop
  | _, [] => True
  | s, r :: rs => r.Harmless f s ∧ ∀ x, ptrace f s r = some x → AllHarmless f x.1 rs

variable {f : Frame} {s s₀ : State} {r : Request} {a w : UInt32} {i j : Fin frameWords}

/-! ## Addresses -/

theorem Frame.toNat_word (f : Frame) (i : Fin frameWords) : (f.word i).toNat = f.addr.toNat + 4 * i := by
  have hinside := f.inside
  have hi := i.isLt
  simp only [u, usize] at hinside hi
  rw [Frame.word]
  simp at *
  omega

theorem Frame.word_injective (h : f.word i = f.word j) : i = j := by
  have := congrArg UInt32.toNat h
  rw [f.toNat_word, f.toNat_word] at this
  omega

theorem Frame.word_bad (f : Frame) (i : Fin frameWords) : baduaddr (f.word i) = true := by
  rw [← Bool.not_eq_false, baduaddr_eq_false_iff, flash_has_iff, ram_has_iff, f.toNat_word]
  have hinside := f.inside
  have hi := i.isLt
  simp [u, usize] at hinside hi
  omega

theorem within_of_aligned (hgood : baduaddr a = false) (halign : a % 4 = 0) :
    flash.Within a 4 ∨ ram.Within a 4 := by
  have hmod : a.toNat % 4 = 0 := congrArg UInt32.toNat halign
  rw [baduaddr_eq_false_iff, flash_has_iff, ram_has_iff] at hgood
  rw [Region.within_iff (by decide), Region.within_iff (by decide)]
  have hflash : flash.start.toNat = 0x9d030000 ∧ flash.stop.toNat = 0x9d080000 := ⟨rfl, rfl⟩
  have hram : ram.start.toNat = 0x7f008000 ∧ ram.stop.toNat = 0x7f020000 := ⟨rfl, rfl⟩
  rw [show (4 : UInt32).toNat = 4 from rfl]
  omega

variable (h : Kept f s₀ s)
include h

/-! ## Requests -/

theorem Kept.store (w : UInt32) (ha : baduaddr a = false ∨ ∃ i, i ≠ frameStatus ∧ a = f.word i) :
    Kept f s₀ (s.store a w) := by
  refine ⟨h.caller, fun b hb hframe => ?_, ?_, h.touched, h.signal⟩
  · refine (update_of_ne ?_ ..).trans (h.mem b hb hframe)
    rintro rfl
    rcases ha with hgood | ⟨i, -, hi⟩
    · rw [hb] at hgood
      cases hgood
    · exact hframe i hi
  · refine (congrArg (· ||| stRp) (update_of_ne ?_ ..)).trans h.status
    rintro rfl
    rcases ha with hgood | ⟨i, hi, hword⟩
    · rw [f.word_bad] at hgood
      cases hgood
    · exact hi (Frame.word_injective hword).symm

theorem Kept.store_status_iff : Kept f s₀ (s.store (f.word frameStatus) w) ↔
    w ||| stRp = s.mem (f.word frameStatus) ||| stRp := by
  have hself : (s.store (f.word frameStatus) w).mem (f.word frameStatus) = w := update_self ..
  constructor
  · intro h'
    rw [h.status, ← h'.status, hself]
  · intro hw
    refine ⟨h.caller, fun b hb hframe => ?_, by rw [hself, hw, h.status], h.touched, h.signal⟩
    exact (update_of_ne (hframe frameStatus) ..).trans (h.mem b hb hframe)

theorem Kept.touch (hgood : baduaddr a = false) (halign : a % 4 = 0) : Kept f s₀ (s.touch a) := by
  refine ⟨h.caller, h.mem, h.status, fun b hb => ?_, h.signal⟩
  rcases List.mem_cons.1 hb with rfl | hb
  · exact within_of_aligned hgood halign
  · exact h.touched b hb

theorem Kept.resume (r : Request) : Kept f s₀ (resume f s r) := by
  have hstep : Kept f s₀ (if r.req = ptStep then s.store (f.word frameStatus) (s.mem (f.word frameStatus) ||| stRp)
      else s) := by
    split_ifs
    · refine h.store_status_iff.2 ?_
      rw [UInt32.or_assoc, UInt32.or_self]
    · exact h
  rw [Ptrace.resume]
  by_cases haddr : r.addr = 1
  · rwa [if_pos haddr]
  · rw [if_neg haddr]
    exact hstep.store r.addr (.inr ⟨framePc, by decide, rfl⟩)

theorem access_keeps_iff {s' : State} {refused reply : Int32 × Bool}
    (h' : baduaddr a = false → a % 4 = 0 → Kept f s₀ s') :
    (∃ x, (if baduaddr a then some (s, refused) else if a % 4 ≠ 0 then none else some (s', reply)) = some x ∧
      Kept f s₀ x.1) ↔ (baduaddr a = false → a % 4 = 0) := by
  split_ifs with hbad halign
  · exact iff_of_true ⟨_, rfl, h⟩ fun hgood => absurd hbad (by rw [hgood]; decide)
  · refine iff_of_false (fun ⟨_, hx, _⟩ => hx) fun himp => ?_
    exact halign (himp (Bool.eq_false_of_not_eq_true hbad))
  · have hgood := Bool.eq_false_of_not_eq_true hbad
    exact iff_of_true ⟨_, rfl, h' hgood (not_not.1 halign)⟩ fun _ => not_not.1 halign

/-- What the child does for a request keeps the property exactly if the request is fit. -/
theorem procxmt_keeps_iff : (∃ x, procxmt f s r = some x ∧ Kept f s₀ x.1) ↔ r.Fits f s := by
  rw [procxmt, Request.Fits]
  by_cases hread : r.req = ptReadI ∨ r.req = ptReadD
  · rw [if_pos hread, if_pos hread]
    exact access_keeps_iff h h.touch
  rw [if_neg hread, if_neg hread]
  by_cases hreadU : r.req = ptReadU
  · rw [if_pos hreadU, if_pos hreadU]
    split_ifs
    · exact iff_of_true ⟨_, rfl, h⟩ trivial
    · exact iff_of_true ⟨_, rfl, h⟩ trivial
  rw [if_neg hreadU, if_neg hreadU]
  by_cases hwrite : r.req = ptWriteI ∨ r.req = ptWriteD
  · rw [if_pos hwrite, if_pos hwrite]
    exact access_keeps_iff h fun hgood halign => (h.touch hgood halign).store _ (.inl hgood)
  rw [if_neg hwrite, if_neg hwrite]
  by_cases hwriteU : r.req = ptWriteU
  · rw [if_pos hwriteU, if_pos hwriteU]
    split_ifs with hframe
    · obtain ⟨i, hi⟩ := hframe
      simp only [Option.some.injEq, exists_eq_left']
      by_cases hstatus : i = frameStatus
      · rw [hi, hstatus, h.store_status_iff]
        exact ⟨fun hw _ => hw, fun hw => hw rfl⟩
      · refine iff_of_true (h.store _ (.inr ⟨i, hstatus, hi⟩)) fun hword => ?_
        exact absurd (Frame.word_injective (hi.symm.trans hword)) hstatus
    · exact iff_of_true ⟨_, rfl, h⟩ fun hword => absurd ⟨_, hword⟩ hframe
  rw [if_neg hwriteU]
  by_cases hgo : r.req = ptStep ∨ r.req = ptContinue
  · rw [if_pos hgo]
    have hkept := h.resume r
    split_ifs with hsig
    · exact iff_of_true ⟨_, rfl, hkept⟩ fun hle => absurd hsig (not_lt.2 hle)
    · rw [forall_prop_of_true (not_lt.1 hsig)]
      simp only [Option.some.injEq, exists_eq_left']
      exact ⟨fun h' => h'.signal, fun hn => ⟨hkept.caller, hkept.mem, hkept.status, hkept.touched, hn⟩⟩
  rw [if_neg hgo]
  split_ifs
  · exact iff_of_true ⟨_, rfl, h.caller, h.mem, h.status, h.touched, h.signal⟩ trivial
  · exact iff_of_true ⟨_, rfl, h⟩ trivial

theorem ptrace_keeps_iff : (∃ x, ptrace f s r = some x ∧ Kept f s₀ x.1) ↔ r.Harmless f s := by
  rw [ptrace, Request.Harmless]
  by_cases hreq : r.req ≤ 0
  · rw [if_pos hreq, if_pos hreq]
    simp only [Option.some.injEq, exists_eq_left']
    constructor
    · intro h'
      exact h.caller.trans h'.caller.symm
    · intro hcaller
      exact ⟨hcaller.symm.trans h.caller, h.mem, h.status, h.touched, h.signal⟩
  rw [if_neg hreq, if_neg hreq]
  by_cases hstat : s.stat = .sstop
  · rw [if_neg (not_not.2 hstat), forall_prop_of_true hstat, ← procxmt_keeps_iff h]
    simp only [Option.map_eq_some_iff, exists_exists_and_eq_and]
  · rw [if_pos hstat]
    exact iff_of_true ⟨_, rfl, h⟩ fun hstop => absurd hstop hstat

omit h

/-! ## Runs -/

theorem Always.head {P : State → Prop} {rs : List Request} (h : Always P f s rs) : P s := by
  cases rs with
  | nil => exact h
  | cons r rs => exact h.1

theorem always_kept_iff (rs : List Request) (h : Kept f s₀ s) : Always (Kept f s₀) f s rs ↔ AllHarmless f s rs := by
  induction rs generalizing s with
  | nil => exact iff_of_true h trivial
  | cons r rs ih =>
    rw [AllHarmless, ← ptrace_keeps_iff h]
    constructor
    · rintro ⟨-, x, hx, halways⟩
      refine ⟨⟨x, hx, halways.head⟩, fun y hy => ?_⟩
      obtain rfl := Option.some.inj (hx.symm.trans hy)
      exact (ih halways.head).1 halways
    · rintro ⟨⟨x, hx, hkept⟩, hall⟩
      exact ⟨h, x, hx, (ih hkept).2 (hall x hx)⟩

theorem Kept.refl (f : Frame) (hsig : ∃ n : Fin nsig, s.ptracesig.toInt = n)
    (htouched : s.touched = []) : Kept f s s :=
  ⟨rfl, fun _ _ _ => rfl, rfl, fun a ha => absurd ha (by rw [htouched]; exact List.not_mem_nil), hsig⟩

/-- The parent of a stopped child gains nothing by a sequence of requests exactly if each of them
is harmless where it is made. -/
theorem requests_confined_iff (f : Frame) (hsig : ∃ n : Fin nsig, s.ptracesig.toInt = n) (htouched : s.touched = [])
    (rs : List Request) : Always (Kept f s) f s rs ↔ AllHarmless f s rs :=
  always_kept_iff rs (.refl f hsig htouched)

def sampleFrame : Frame := ⟨0x80007f00, by decide, by decide⟩

/-- A child in user mode that a breakpoint has stopped. -/
def sample : State := ⟨fun _ => 0x10, 5, .sstop, false, []⟩

theorem requests_confined_iff_sample :
    Always (Kept sampleFrame sample) sampleFrame sample [⟨ptWriteD, 0x7f008000, 7⟩] :=
  (requests_confined_iff sampleFrame ⟨⟨5, by decide⟩, rfl⟩ rfl _).2 ⟨by decide, fun _ _ => trivial⟩

/-- A parent takes its child out of user mode, lets it go on with signal 32, or stops the machine. -/
theorem requests_unconfined :
    ¬Always (Kept sampleFrame sample) sampleFrame sample [⟨ptWriteU, 0xb7c, 0⟩] ∧
      ¬Always (Kept sampleFrame sample) sampleFrame sample [⟨ptContinue, 1, 32⟩] ∧
      ¬Always (Kept sampleFrame sample) sampleFrame sample [⟨ptReadD, 0x7f008001, 0⟩] := by
  have hkept : Kept sampleFrame sample sample := .refl _ ⟨⟨5, by decide⟩, rfl⟩ rfl
  simp only [always_kept_iff _ hkept]
  exact ⟨fun h => absurd h.1 (by decide), fun h => absurd h.1 (by decide), fun h => absurd h.1 (by decide)⟩

end RetroBSD.Ptrace
