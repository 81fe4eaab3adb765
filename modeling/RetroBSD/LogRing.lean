import RetroBSD.ByteCopy
import RetroBSD.Runs
import Mathlib

/-!
# The ring of the kernel's messages

`msg_bufr` and `msg_bufx` run from 0 to `MSG_BSIZE`, both included, and the ring is empty
when they are equal. `logwrt` lets the writer come up to the reader, so that a write that
fills the ring leaves it empty, and takes a full ring whose writer is at the end for an
empty one. Every other write is a write to a queue of bytes.
-/

namespace RetroBSD.Log

open ByteCopy Runs List Nat

abbrev msgBsize : ℕ := 2048

abbrev msgMagic : ℕ := 0x063061

structure Msgbuf where
  magic : ℕ
  bufx : ℕ
  bufr : ℕ
  bufc : ℕ → UInt8
  /-- `sc_overrun` of the device. -/
  overrun : ℕ

def loginit (m : Msgbuf) : Msgbuf := { m with magic := msgMagic, bufx := 0, bufr := 0 }

/-- From the label `again` to the test of `len`: `infront` and `writer`. -/
def again (m : Msgbuf) : Msgbuf × ℕ × ℕ :=
  let (m, infront) :=
    if msgBsize ≤ m.bufx then ({ m with bufx := 0 }, msgBsize - m.bufr) else (m, msgBsize - m.bufx)
  if m.bufr < m.bufx then (m, infront, msgBsize - m.bufx + m.bufr)
  else if m.bufr = m.bufx then (m, infront, msgBsize)
  else (m, m.bufr - m.bufx, m.bufr - m.bufx)

/-- There is no result when a copy leaves `msg_bufc`. -/
def logwrtLoop : ℕ → Msgbuf → List UInt8 → Option Msgbuf
  | 0, _, _ => none
  | fuel + 1, m, buf =>
    if buf = [] then some m
    else
      let (m, infront, writer) := again m
      if writer < buf.length then logwrtLoop fuel { m with overrun := m.overrun + 1, bufx := m.bufr } buf
      else
        let infront := min infront buf.length
        if m.bufx + infront ≤ msgBsize then
          logwrtLoop fuel { m with bufc := place m.bufc m.bufx (buf.take infront), bufx := m.bufx + infront }
            (buf.drop infront)
        else none

def logwrt (m : Msgbuf) (buf : List UInt8) : Option (Msgbuf × ℤ) :=
  if m.magic ≠ msgMagic ∨ msgBsize < buf.length then some (m, -1) else (logwrtLoop 4 m buf).map (·, 0)

/-- The bytes `uiomove` gives to a reader that asks for `resid`, by pieces of at most 128. -/
def logreadLoop : ℕ → Msgbuf → ℕ → Option (Msgbuf × List UInt8)
  | 0, _, _ => none
  | fuel + 1, m, resid =>
    if resid = 0 ∨ m.bufx = m.bufr then some (m, [])
    else if m.bufx < m.bufr ∧ msgBsize - m.bufr = 0 then logreadLoop fuel { m with bufr := 0 } resid
    else
      let l := min (min (if m.bufx < m.bufr then msgBsize - m.bufr else m.bufx - m.bufr) resid) 128
      if m.bufr + l ≤ msgBsize then
        (logreadLoop fuel { m with bufr := m.bufr + l } (resid - l)).map fun r =>
          (r.1, bytes m.bufc m.bufr l ++ r.2)
      else none

/-- A reader that finds nothing is refused or sleeps. -/
def logread (m : Msgbuf) (resid : ℕ) : Option (Msgbuf × Option (List UInt8)) :=
  if m.bufr = m.bufx then some (m, none)
  else (logreadLoop (msgBsize + 2) m resid).map fun r => (r.1, some r.2)

def fionread (m : Msgbuf) : ℤ :=
  let l : ℤ := m.bufx - m.bufr
  if l < 0 then l + msgBsize else l

inductive Call
  | logwrt (buf : List UInt8)
  | logread (resid : ℕ) (out : Option (List UInt8))

def Step (m : Msgbuf) : Call → Msgbuf → Prop
  | .logwrt buf, m' => buf.length ≤ msgBsize ∧ logwrt m buf = some (m', 0)
  | .logread resid out, m' => logread m resid = some (m', out)

/-- A queue of bytes with a count of the times it was emptied to make room. -/
def QueueStep (q : List UInt8 × ℕ) : Call → List UInt8 × ℕ → Prop
  | .logwrt buf, q' => q' = (q.1 ++ buf, q.2) ∨ msgBsize < q.1.length + buf.length ∧ q' = (buf, q.2 + 1)
  | .logread resid out, q' =>
    q.1 = out.getD [] ++ q'.1 ∧ (out.getD []).length = min resid q.1.length ∧ q'.2 = q.2

/-- The write does not bring the writer up to the reader, and does not start from the end of a full ring. -/
def Fits (m : Msgbuf) (buf : List UInt8) : Prop :=
  buf = [] ∨ if m.bufr = 0 then m.bufx ≠ msgBsize else fionread m + buf.length ≠ msgBsize ∧ buf.length ≠ msgBsize

def SafeStep (m : Msgbuf) (call : Call) (m' : Msgbuf) : Prop :=
  (∀ buf, call = .logwrt buf → Fits m buf) ∧ Step m call m'

/-! ## The bytes that wait -/

def unread (m : Msgbuf) : List UInt8 :=
  if m.bufr ≤ m.bufx then bytes m.bufc m.bufr (m.bufx - m.bufr)
  else bytes m.bufc m.bufr (msgBsize - m.bufr) ++ bytes m.bufc 0 m.bufx

structure Msgbuf.Valid (m : Msgbuf) : Prop where
  bufx_le : m.bufx ≤ msgBsize
  bufr_le : m.bufr ≤ msgBsize
  magic : m.magic = msgMagic

/-- Room for `n` bytes, such that the ring does not look empty then. -/
def Msgbuf.Room (m : Msgbuf) (n : ℕ) : Prop :=
  (unread m).length + n ≤ msgBsize ∧ (m.bufr ≠ 0 → (unread m).length + n ≠ msgBsize)

variable {m m' : Msgbuf} {buf : List UInt8} {fuel : ℕ}

theorem length_unread (m : Msgbuf) :
    (unread m).length = if m.bufr ≤ m.bufx then m.bufx - m.bufr else msgBsize - m.bufr + m.bufx := by
  rw [unread]
  split_ifs <;> simp

theorem fionread_eq (h : m.Valid) : fionread m = (unread m).length := by
  obtain ⟨-, hr, -⟩ := h
  rw [length_unread, fionread]
  split_ifs <;> omega

theorem unread_nil (h : m.bufx = m.bufr) : unread m = [] := by
  rw [unread, if_pos (Nat.le_of_eq h.symm), h, Nat.sub_self]
  rfl

theorem unread_put (h : m.bufr ≤ m.bufx ∨ m.bufx + buf.length < m.bufr) :
    unread { m with bufc := place m.bufc m.bufx buf, bufx := m.bufx + buf.length } = unread m ++ buf := by
  by_cases hle : m.bufr ≤ m.bufx
  · obtain ⟨k, hk⟩ := Nat.exists_eq_add_of_le hle
    rw [unread, unread, if_pos (Nat.le_add_right_of_le hle), if_pos hle, hk, Nat.add_sub_cancel_left, Nat.add_assoc,
      Nat.add_sub_cancel_left, bytes_place]
  · have hlt := h.resolve_left hle
    rw [unread, unread, if_neg (not_le.2 hlt), if_neg hle, append_assoc]
    have hold : bytes (place m.bufc m.bufx buf) m.bufr (msgBsize - m.bufr) =
        bytes m.bufc m.bufr (msgBsize - m.bufr) :=
      bytes_congr fun i _ => place_of_le (by omega)
    have hnew := bytes_place m.bufc 0 m.bufx buf
    rw [Nat.zero_add] at hnew
    rw [hold, hnew]

theorem unread_wrapx (hx : m.bufx = msgBsize) (hr : m.bufr ≠ 0) (h : m.bufr ≤ msgBsize) :
    unread { m with bufx := 0 } = unread m := by
  rw [unread, unread, if_neg (by simpa using hr), hx, if_pos h]
  exact append_nil _

theorem unread_wrapr (hr : m.bufr = msgBsize) (h : m.bufx < m.bufr) : unread { m with bufr := 0 } = unread m := by
  rw [unread, unread, if_neg (not_le.2 h), hr]
  rfl

theorem unread_take {l : ℕ} (hl : m.bufr + l ≤ if m.bufx < m.bufr then msgBsize else m.bufx) :
    unread m = bytes m.bufc m.bufr l ++ unread { m with bufr := m.bufr + l } := by
  split_ifs at hl with hlt
  · rw [unread, unread, if_neg (not_le.2 hlt), if_neg (by simp only; omega), ← append_assoc, bytes_append]
    congr 2
    simp only
    omega
  · rw [unread, unread, if_pos (not_lt.1 hlt), if_pos hl, bytes_append]
    congr 1
    simp only
    omega

/-! ## Writing -/

theorem again_eq (h : m.Valid) (hfull : m.bufr = 0 → m.bufx ≠ msgBsize) :
    ∃ x infront, again m = ({ m with bufx := x }, infront, msgBsize - (unread m).length) ∧
      unread { m with bufx := x } = unread m ∧ x + infront ≤ msgBsize ∧
      (x < m.bufr ∧ infront = m.bufr - x ∨ m.bufr ≤ x ∧ infront = msgBsize - x ∧ m.bufx = x ∧ x ≠ msgBsize) := by
  obtain ⟨hx, hr, -⟩ := h
  by_cases hend : m.bufx = msgBsize
  · have hne : m.bufr ≠ 0 := fun hzero => hfull hzero hend
    refine ⟨0, m.bufr, ?_, unread_wrapx hend hne hr, by omega, .inl ⟨by omega, rfl⟩⟩
    simp only [again, length_unread, hend, le_refl, if_true, if_pos hr, if_neg hne, Nat.not_lt_zero,
      if_false, Nat.sub_zero, Nat.sub_sub_self hr]
  · refine ⟨m.bufx, if m.bufr ≤ m.bufx then msgBsize - m.bufx else m.bufr - m.bufx, ?_, rfl, ?_, ?_⟩
    · simp only [again, if_neg (show ¬msgBsize ≤ m.bufx by omega), length_unread]
      split_ifs <;> simp only [Prod.mk.injEq, true_and] <;> omega
    all_goals split_ifs <;> omega

structure Wrote (m m' : Msgbuf) (buf : List UInt8) : Prop where
  valid : m'.Valid
  bufr : m'.bufr = m.bufr
  overrun : m'.overrun = m.overrun
  unread : unread m' = unread m ++ buf

variable (h : m.Valid)
include h

theorem logwrtLoop_copy (hroom : m.Room buf.length) (hne : buf ≠ []) (fuel : ℕ) :
    ∃ n m', logwrtLoop (fuel + 1) m buf = logwrtLoop fuel m' (buf.drop n) ∧ Wrote m m' (buf.take n) ∧
      (buf.drop n = [] ∨ m.bufx ≠ msgBsize ∧ m'.bufx = msgBsize) := by
  have hpos := length_pos_iff.2 hne
  obtain ⟨hle, hfull⟩ := hroom
  obtain ⟨x, infront, hagain, hsame, hin, hcases⟩ := again_eq h fun hr hx => by
    rw [length_unread, hr, if_pos (zero_le _)] at hle
    omega
  set n := min infront buf.length
  have hlen : (buf.take n).length = n := by
    rw [length_take]
    omega
  have hput : m.bufr ≤ x ∨ x + (buf.take n).length < m.bufr := by
    rw [← hsame, length_unread] at hle hfull
    dsimp only at hle hfull
    split_ifs at hle hfull <;> omega
  have hwrite := unread_put (m := { m with bufx := x }) hput
  rw [hlen, hsame] at hwrite
  refine ⟨n, { m with bufc := place m.bufc x (buf.take n), bufx := x + n }, ?_,
    ⟨⟨by show x + n ≤ _; omega, h.bufr_le, h.magic⟩, rfl, rfl, hwrite⟩, ?_⟩
  · have hwriter : ¬msgBsize - (unread m).length < buf.length := by omega
    simp only [logwrtLoop, if_neg hne, hagain, if_neg hwriter]
    exact if_pos (by omega)
  · rw [drop_eq_nil_iff]
    show _ ∨ _ ∧ x + n = msgBsize
    omega

/-- The ring takes two copies, or one when the writer is at the end. -/
theorem logwrtLoop_room (hroom : m.Room buf.length)
    (hfuel : 3 ≤ fuel ∨ 2 ≤ fuel ∧ m.bufx = msgBsize ∨ 1 ≤ fuel ∧ buf = []) :
    ∃ m', logwrtLoop fuel m buf = some m' ∧ Wrote m m' buf := by
  induction fuel generalizing m buf with
  | zero => omega
  | succ fuel ih =>
    by_cases hne : buf = []
    · exact ⟨m, by simp [logwrtLoop, hne], h, rfl, rfl, by simp [hne]⟩
    replace hfuel := hfuel.imp_right fun h => h.resolve_right fun hnil => hne hnil.2
    obtain ⟨n, m1, hm1, hw, hrest⟩ := logwrtLoop_copy h hroom hne fuel
    have hlen := congrArg List.length hw.unread
    rw [length_append, length_take] at hlen
    have hroom1 : m1.Room (buf.drop n).length := by
      rw [Msgbuf.Room, hw.bufr, length_drop]
      have heq : (unread m1).length + (buf.length - n) = (unread m).length + buf.length := by omega
      rwa [heq]
    obtain ⟨m2, hm2, hw2⟩ := ih hw.valid hroom1 (by
      rcases hrest with hrest | ⟨hx, hx1⟩
      · exact .inr (.inr ⟨by omega, hrest⟩)
      · exact .inr (.inl ⟨by omega, hx1⟩))
    refine ⟨m2, hm1.trans hm2, hw2.valid, hw2.bufr.trans hw.bufr, hw2.overrun.trans hw.overrun, ?_⟩
    rw [hw2.unread, hw.unread, append_assoc, take_append_drop]

theorem logwrt_spec (hlen : buf.length ≤ msgBsize) (hfits : Fits m buf) :
    ∃ m', logwrt m buf = some (m', 0) ∧ m'.Valid ∧
      QueueStep (unread m, m.overrun) (.logwrt buf) (unread m', m'.overrun) := by
  have heq : logwrt m buf = (logwrtLoop 4 m buf).map (·, 0) := if_neg (by simp [h.magic, hlen])
  rw [heq]
  by_cases hroom : m.Room buf.length
  · obtain ⟨m', hm', hw⟩ := logwrtLoop_room h hroom (.inl (by decide : 3 ≤ 4))
    exact ⟨m', by rw [hm']; rfl, hw.valid, .inl (by rw [hw.unread, hw.overrun])⟩
  by_cases hne : buf = []
  · exact ⟨m, by simp [logwrtLoop, hne], h, .inl (by simp [hne])⟩
  -- The bytes that wait are thrown away first.
  replace hfits := hfits.resolve_left hne
  rw [fionread_eq h] at hfits
  have hover : msgBsize < (unread m).length + buf.length := by
    rw [Msgbuf.Room] at hroom
    split_ifs at hfits <;> omega
  obtain ⟨x, infront, hagain, -⟩ := again_eq h fun hr => by rwa [if_pos hr] at hfits
  have hempty : unread { m with overrun := m.overrun + 1, bufx := m.bufr } = [] := unread_nil rfl
  have hvalid : Msgbuf.Valid { m with overrun := m.overrun + 1, bufx := m.bufr } := ⟨h.bufr_le, h.bufr_le, h.magic⟩
  have hroom1 : Msgbuf.Room { m with overrun := m.overrun + 1, bufx := m.bufr } buf.length := by
    rw [Msgbuf.Room, hempty, length_nil]
    dsimp only
    split_ifs at hfits <;> omega
  obtain ⟨m', hm', hw⟩ := logwrtLoop_room hvalid hroom1 (.inl le_rfl)
  refine ⟨m', ?_, hw.valid, .inr ⟨hover, by rw [hw.unread, hw.overrun, hempty]; rfl⟩⟩
  have hwriter : msgBsize - (unread m).length < buf.length := by
    have hpos := length_pos_iff.2 hne
    omega
  rw [logwrtLoop, if_neg hne, hagain]
  simp only [if_pos hwriter, hm', Option.map_some]

/-! ## Reading -/

theorem logreadLoop_spec (hfuel : (unread m).length + (if m.bufx < m.bufr then 1 else 0) < fuel)
    (resid : ℕ) :
    ∃ m' out, logreadLoop fuel m resid = some (m', out) ∧ m'.Valid ∧ unread m = out ++ unread m' ∧
      out.length = min resid (unread m).length ∧ m'.overrun = m.overrun := by
  induction fuel generalizing m resid with
  | zero => omega
  | succ fuel ih =>
    obtain ⟨hx, hr, hmagic⟩ := id h
    by_cases hstop : resid = 0 ∨ m.bufx = m.bufr
    · refine ⟨m, [], by simp [logreadLoop, hstop], h, rfl, ?_, rfl⟩
      rcases hstop with hstop | hstop
      · simp [hstop]
      · simp [unread_nil hstop]
    by_cases hwrap : m.bufx < m.bufr ∧ msgBsize - m.bufr = 0
    · have hsame := unread_wrapr (by omega) hwrap.1
      rw [if_pos hwrap.1, ← hsame] at hfuel
      obtain ⟨m', out, hm', hrest⟩ := ih (m := { m with bufr := 0 }) ⟨hx, zero_le _, hmagic⟩
        (by simpa using hfuel) resid
      rw [hsame] at hrest
      exact ⟨m', out, by simp only [logreadLoop, if_neg hstop, if_pos hwrap, hm'], hrest⟩
    set l := min (min (if m.bufx < m.bufr then msgBsize - m.bufr else m.bufx - m.bufr) resid) 128 with hl
    have hpos : 0 < l := by
      split_ifs at hl <;> omega
    have hle : m.bufr + l ≤ if m.bufx < m.bufr then msgBsize else m.bufx := by
      split_ifs at hl ⊢ <;> omega
    have hend : m.bufr + l ≤ msgBsize := by
      split_ifs at hle <;> omega
    have htake := unread_take hle
    have hlen := congrArg List.length htake
    rw [length_append, length_bytes] at hlen
    obtain ⟨m', out, hm', hv, hout, hcount, hover⟩ := ih (m := { m with bufr := m.bufr + l })
      ⟨hx, hend, hmagic⟩ (by split_ifs at hfuel hle ⊢ <;> simp only at * <;> omega) (resid - l)
    refine ⟨m', bytes m.bufc m.bufr l ++ out, ?_, hv, ?_, ?_, hover⟩
    · simp only [logreadLoop, if_neg hstop, if_neg hwrap, ← hl, if_pos hend, hm', Option.map_some]
    · rw [htake, hout, append_assoc]
    · rw [length_append, length_bytes]
      split_ifs at hl <;> omega

theorem logread_spec (resid : ℕ) :
    ∃ m' out, logread m resid = some (m', out) ∧ m'.Valid ∧
      QueueStep (unread m, m.overrun) (.logread resid out) (unread m', m'.overrun) := by
  obtain ⟨hx, -⟩ := id h
  by_cases hempty : m.bufr = m.bufx
  · refine ⟨m, none, if_pos hempty, h, rfl, ?_, rfl⟩
    simp [unread_nil hempty.symm]
  · have hfuel : (unread m).length + (if m.bufx < m.bufr then 1 else 0) < msgBsize + 2 := by
      rw [length_unread]
      split_ifs <;> omega
    obtain ⟨m', out, hm', hv, hout, hcount, hover⟩ := logreadLoop_spec h hfuel resid
    refine ⟨m', some out, ?_, hv, hout, hcount, hover⟩
    rw [logread, if_neg hempty, hm']
    rfl

/-! ## Runs -/

theorem SafeStep.queueStep {call : Call} (hstep : SafeStep m call m') :
    m'.Valid ∧ QueueStep (unread m, m.overrun) call (unread m', m'.overrun) := by
  obtain ⟨hsafe, hstep⟩ := hstep
  cases call with
  | logwrt buf =>
    obtain ⟨m1, hm1, hspec⟩ := logwrt_spec h hstep.1 (hsafe buf rfl)
    cases hm1.symm.trans hstep.2
    exact hspec
  | logread resid out =>
    obtain ⟨m1, out1, hm1, hspec⟩ := logread_spec h resid
    cases hm1.symm.trans hstep
    exact hspec

omit h

/-- In a run in which no write brings the writer up to the reader or starts from the end of
a full ring, the calls are those of a queue that loses bytes only when `sc_overrun` counts,
`FIONREAD` gives its length, and no copy leaves the buffer. -/
theorem run_is_queue {m₀ m : Msgbuf} {calls : List Call} (hrun : Run SafeStep (loginit m₀) calls m) :
    (∃ q, Run QueueStep ([], m₀.overrun) calls (q, m.overrun) ∧ fionread m = q.length) ∧
      m.bufx ≤ msgBsize ∧ m.bufr ≤ msgBsize ∧
      (∀ buf, buf.length ≤ msgBsize → Fits m buf → ∃ m', logwrt m buf = some (m', 0)) ∧
      ∀ resid, ∃ m' out, logread m resid = some (m', out) := by
  have hinit : (loginit m₀).Valid := ⟨zero_le _, zero_le _, rfl⟩
  obtain ⟨q, hq, hv, rfl⟩ : ∃ q, Run QueueStep ([], m₀.overrun) calls q ∧ m.Valid ∧ q = (unread m, m.overrun) := by
    refine hrun.simulation (R := fun m q => m.Valid ∧ q = (unread m, m.overrun)) ?_ ⟨hinit, rfl⟩
    rintro m call m' q ⟨hv, rfl⟩ hstep
    exact ⟨_, (hstep.queueStep hv).2, (hstep.queueStep hv).1, rfl⟩
  refine ⟨⟨unread m, hq, fionread_eq hv⟩, hv.bufx_le, hv.bufr_le, fun buf hlen hfits => ?_, fun resid => ?_⟩
  · obtain ⟨m', hm', -⟩ := logwrt_spec hv hlen hfits
    exact ⟨m', hm'⟩
  · obtain ⟨m', out, hm', -⟩ := logread_spec hv resid
    exact ⟨m', out, hm'⟩

def boot : Msgbuf := loginit ⟨0, 0, 0, fun _ => 0, 0⟩

theorem run_is_queue_two :
    ∃ m, Run SafeStep boot [.logwrt [1, 2], .logread 1 (some [1])] m ∧
      ∃ q, Run QueueStep ([], 0) [.logwrt [1, 2], .logread 1 (some [1])] (q, m.overrun) ∧ fionread m = q.length := by
  have hrun : ∃ m, Run SafeStep boot [.logwrt [1, 2], .logread 1 (some [1])] m :=
    ⟨_, .cons ⟨fun _ h => .inr (by cases h; decide), by decide, rfl⟩ (.cons ⟨fun _ h => (by cases h), rfl⟩ (.nil _))⟩
  obtain ⟨m, hm⟩ := hrun
  exact ⟨m, hm, (run_is_queue hm).1⟩

/-- A write of `MSG_BSIZE` bytes after one byte was read is lost, and `sc_overrun` stays 0. -/
theorem full_write_lost :
    ∃ calls m, Run Step boot calls m ∧ m.overrun = 0 ∧
      ¬∃ q, Run QueueStep ([], 0) calls (q, m.overrun) ∧ fionread m = q.length := by
  obtain ⟨m1, hm1, hr⟩ : ∃ m1, Run Step boot [.logwrt [0], .logread 1 (some [0])] m1 ∧
      (logwrt m1 (.replicate msgBsize 0)).map (fun r => (r.1.overrun, fionread r.1, r.2)) = some (0, 0, 0) :=
    ⟨_, .cons ⟨by decide, rfl⟩ (.cons rfl (.nil _)), by decide +kernel⟩
  obtain ⟨⟨m, ret⟩, hm, heq⟩ := Option.map_eq_some_iff.1 hr
  simp only [Prod.mk.injEq] at heq
  obtain ⟨hover, hread, rfl⟩ := heq
  have hstep : Step m1 (.logwrt (.replicate msgBsize 0)) m := ⟨by rw [length_replicate], hm⟩
  refine ⟨_, m, hm1.append (.cons hstep (.nil m)), hover, ?_⟩
  rintro ⟨q, hq, hlen⟩
  obtain ⟨q1, -, hq⟩ := hq.split
  obtain _ | ⟨hlast, _ | _⟩ := hq
  have hge : msgBsize ≤ q.length := by
    rcases hlast with hlast | ⟨-, hlast⟩ <;> simp [(Prod.mk.inj hlast).1]
  have hzero : q.length = 0 := by omega
  exact absurd (hzero ▸ hge) (by decide)

end RetroBSD.Log
