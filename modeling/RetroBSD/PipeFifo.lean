import RetroBSD.PipeLog
import Mathlib

/-!
# A pipe is a queue of bytes

The bytes that `rwip` accepted are those that reads returned, those that a read has copied
to its caller so far and those that the pipe contains. While a process is in `rwip` it has the
inode locked, so that at most one call is under way.
-/

namespace RetroBSD.Pipe

open LittleEndian RadixTree ByteCopy Ufs Runs State List Nat Option

namespace Point

def busy : Point → Bool
  | readRound .. | readBuf .. | writeRound _ | writeBuf .. => true
  | _ => false

/-- The write a process is in. -/
def call : Point → Option WriteCall
  | writep w | writeAgain w | writeWait w | writeRound w | writeBuf w _ _ => some w
  | _ => none

def Waits (l : Log) : Point → Prop
  | readp _ uio | readWait _ uio => uio.Valid ∧ (addresses uio.uioIov).Nodup
  | writep w | writeAgain w | writeWait w => l.Waiting w
  | _ => True

/-- A point that differs at most in that its process has been woken up. -/
structure Woken (x y : Point) : Prop where
  busy : y.busy = x.busy
  call : y.call = x.call
  waits : ∀ l, x.Waits l → y.Waits l

theorem woken_wakeReader (x : Point) : Woken x x.wakeReader := by
  cases x <;> exact ⟨rfl, rfl, fun _ => id⟩

theorem woken_wakeWriter (x : Point) : Woken x x.wakeWriter := by
  cases x <;> exact ⟨rfl, rfl, fun _ => id⟩

theorem Waits.only {l l' : Log} {n : ℕ} {x : Point} (h : x.Waits l) (ho : Log.Only n l l')
    (hx : ∀ w, x.call = some w → w.number ≠ n) : x.Waits l' := by
  cases x with
  | writep w | writeAgain w | writeWait w => exact Log.Waiting.only h ho (hx w rfl)
  | _ => exact h

theorem Waits.call {l : Log} {x : Point} (h : x.Waits l) (data : List UInt8) :
    x.Waits (l.call data) := by
  cases x with
  | writep w | writeAgain w | writeWait w => exact Log.Waiting.call h data
  | _ => exact h

end Point

variable {P : Type} {s s' : State P} {p : P} {x : Point} {mem : Memory} {uio : Uio} {as : List ℕ}
  {w : WriteCall} {bn : ℤ} {n : ℕ} {u : User} {stale : Block} {b : ℕ}

structure Rest (s : State P) : Prop where
  contents : ∃ q, Contents s.st s.ip.iAddr s.cleared s.fOffset s.ip.iSize q ∧
    s.log.stream = s.returned ++ q
  size : s.ip.iSize < 2 * maxpipsiz

/-- `rwip` has filled the addresses `done` for a read. -/
structure Reading (s : State P) (mem : Memory) (uio : Uio) (as : List ℕ) : Prop where
  contents : ∃ done q, as = done ++ addresses uio.uioIov ∧
    Contents s.st s.ip.iAddr s.cleared uio.uioOffset s.ip.iSize q ∧
      s.log.stream = s.returned ++ done.map mem ++ q
  size : s.ip.iSize < 2 * maxpipsiz
  room : uio.Valid
  nodup : as.Nodup

/-- A write is in `rwip`. -/
structure Writing (s : State P) (w : WriteCall) : Prop where
  contents : ∃ q, Contents s.st s.ip.iAddr s.cleared s.fOffset w.uio.uioOffset q ∧
    s.log.stream = s.returned ++ q
  size : w.uio.uioOffset + w.uio.uioResid < 2 * maxpipsiz
  isOpen : s.log.Open w
  last : s.log.Last w.number
  room : (addresses w.uio.uioIov).length = w.c + w.uio.uioResid
  pos : 0 < w.uio.uioResid
  single : w.data.length ≤ maxpipsiz → w.c = 0

def InCall (s : State P) : Point → Prop
  | .readRound mem uio as => Reading s mem uio as
  | .readBuf mem uio as bn n => Reading s mem uio as ∧ uio.uioOffset < s.ip.iSize ∧
      n = min (min (devBsize - uio.uioOffset % devBsize) uio.uioResid)
        (s.ip.iSize - uio.uioOffset) ∧
      ∃ b : ℕ, bn = b ∧ ⟨0, uio.uioOffset / devBsize, b⟩ ∈ fileNodes s.st.disk s.ip.iAddr
  | .writeRound w => Writing s w ∧ s.ip.iSize = w.uio.uioOffset
  | .writeBuf w bn n => Writing s w ∧ s.ip.iSize = w.uio.uioOffset + n ∧
      n = min (devBsize - w.uio.uioOffset % devBsize) w.uio.uioResid ∧
      ∃ b : ℕ, bn = b ∧ ⟨0, w.uio.uioOffset / devBsize, b⟩ ∈ fileNodes s.st.disk s.ip.iAddr
  | _ => False

/-- The record, and the processes other than `p`, of which none is in `rwip`. -/
structure Apart (s : State P) (p : P) : Prop where
  log : s.log.Ok
  idle : ∀ q, q ≠ p → (s.point q).busy = false
  waits : ∀ q, q ≠ p → (s.point q).Waits s.log
  distinct : ∀ q r w v, q ≠ p → r ≠ p → (s.point q).call = some w → (s.point r).call = some v →
    w.number = v.number → q = r

/-- No process but `p` is in the write with the number of `w`. -/
def Alone (s : State P) (p : P) (w : WriteCall) : Prop :=
  ∀ q v, q ≠ p → (s.point q).call = some v → v.number ≠ w.number

structure Inv (s : State P) : Prop where
  log : s.log.Ok
  waits : ∀ p, (s.point p).Waits s.log
  distinct : ∀ p q w v, (s.point p).call = some w → (s.point q).call = some v →
    w.number = v.number → p = q
  state : (s.ilocked = false ∧ (∀ p, (s.point p).busy = false) ∧ Rest s) ∨
    ∃ p, s.ilocked = true ∧ (∀ q, q ≠ p → (s.point q).busy = false) ∧ InCall s (s.point p)

theorem Apart.woken (h : Apart s p) (hlog : s'.log = s.log)
    (hpoint : ∀ q, (s.point q).Woken (s'.point q)) : Apart s' p where
  log := hlog ▸ h.log
  idle q hq := (hpoint q).busy.trans (h.idle q hq)
  waits q hq := hlog ▸ (hpoint q).waits _ (h.waits q hq)
  distinct q r w v hq hr hw hv :=
    h.distinct q r w v hq hr ((hpoint q).call ▸ hw) ((hpoint r).call ▸ hv)

theorem Apart.same (h : Apart s p) (hlog : s'.log = s.log) (hpoint : s'.point = s.point) :
    Apart s' p :=
  h.woken hlog fun q => by rw [hpoint]; exact ⟨rfl, rfl, fun _ => id⟩

theorem Alone.woken (h : Alone s p w) (hpoint : ∀ q, (s.point q).Woken (s'.point q)) :
    Alone s' p w :=
  fun q v hq hv => h q v hq ((hpoint q).call ▸ hv)

/-- The call of `p` goes on in the record. -/
theorem Apart.only (h : Apart s p) (halone : Alone s p w) (ho : Log.Only w.number s.log s'.log)
    (hok : s'.log.Ok) (hpoint : s'.point = s.point) : Apart s' p where
  log := hok
  idle q hq := hpoint ▸ h.idle q hq
  waits q hq := hpoint ▸ (h.waits q hq).only ho fun v => halone q v hq
  distinct := hpoint ▸ h.distinct

section Environment

/-- Nothing has changed that the calls of `rwip` depend on. -/
structure Alike (s s' : State P) : Prop where
  contents : ∀ {lo hi q}, Contents s.st s.ip.iAddr s.cleared lo hi q →
    Contents s'.st s'.ip.iAddr s'.cleared lo hi q
  leaf : ∀ {lo hi q x b}, Contents s.st s.ip.iAddr s.cleared lo hi q →
    ⟨0, x, b⟩ ∈ fileNodes s.st.disk s.ip.iAddr → ⟨0, x, b⟩ ∈ fileNodes s'.st.disk s'.ip.iAddr
  size : s'.ip.iSize = s.ip.iSize
  fOffset : s'.fOffset = s.fOffset
  accepted : s'.log.accepted = s.log.accepted
  isOpen : ∀ w, s.log.Open w → s'.log.Open w
  returned : s'.returned = s.returned
  ilocked : s'.ilocked = s.ilocked

theorem Alike.stream (hs : Alike s s') : s'.log.stream = s.log.stream := by
  rw [Log.stream, hs.accepted, Log.stream]

theorem Rest.alike (h : Rest s) (hs : Alike s s') : Rest s' := by
  obtain ⟨q, hq, hstream⟩ := h.contents
  refine ⟨⟨q, ?_, ?_⟩, hs.size ▸ h.size⟩
  · rw [hs.fOffset, hs.size]
    exact hs.contents hq
  · rw [hs.stream, hs.returned]
    exact hstream

theorem Reading.alike (h : Reading s mem uio as) (hs : Alike s s') : Reading s' mem uio as := by
  obtain ⟨done, q, has, hq, hstream⟩ := h.contents
  refine ⟨⟨done, q, has, ?_, ?_⟩, hs.size ▸ h.size, h.room, h.nodup⟩
  · rw [hs.size]
    exact hs.contents hq
  · rw [hs.stream, hs.returned]
    exact hstream

theorem Writing.alike (h : Writing s w) (hs : Alike s s') : Writing s' w := by
  obtain ⟨q, hq, hstream⟩ := h.contents
  have hlast : s'.log.Last w.number := by
    rw [Log.Last, hs.accepted]
    exact h.last
  refine ⟨⟨q, ?_, ?_⟩, h.size, hs.isOpen w h.isOpen, hlast, h.room, h.pos, h.single⟩
  · rw [hs.fOffset]
    exact hs.contents hq
  · rw [hs.stream, hs.returned]
    exact hstream

theorem InCall.alike (h : InCall s x) (hs : Alike s s') : InCall s' x := by
  cases x with
  | readRound mem uio as => exact Reading.alike h hs
  | readBuf mem uio as bn n =>
    obtain ⟨hreading, hlt, hn, b, hbn, hb⟩ := h
    obtain ⟨done, q, _, hq, _⟩ := hreading.contents
    exact ⟨hreading.alike hs, hs.size ▸ hlt, hs.size ▸ hn, b, hbn, hs.leaf hq hb⟩
  | writeRound w =>
    obtain ⟨hwriting, hsize⟩ := h
    exact ⟨hwriting.alike hs, hs.size.trans hsize⟩
  | writeBuf w bn n =>
    obtain ⟨hwriting, hsize, hn, b, hbn, hb⟩ := h
    obtain ⟨q, hq, _⟩ := hwriting.contents
    exact ⟨hwriting.alike hs, hs.size.trans hsize, hn, b, hbn, hs.leaf hq hb⟩
  | _ => exact h.elim

theorem InCall.busy (h : InCall s x) : x.busy = true := by
  cases x with
  | readRound | readBuf | writeRound | writeBuf => rfl
  | _ => exact h.elim

variable (h : Inv s)
include h

theorem Inv.apart (hidle : ∀ q, q ≠ p → (s.point q).busy = false) : Apart s p :=
  ⟨h.log, hidle, fun q _ => h.waits q, fun q r w v _ _ => h.distinct q r w v⟩

theorem Inv.alone (hw : (s.point p).call = some w) : Alone s p w :=
  fun q v hq hv heq => hq (h.distinct q p v w hv hw heq)

theorem Inv.rest (hlocked : s.ilocked = false) : (∀ p, (s.point p).busy = false) ∧ Rest s := by
  rcases h.state with ⟨_, hidle, hrest⟩ | ⟨p, hlocked', _⟩
  · exact ⟨hidle, hrest⟩
  · rw [hlocked] at hlocked'
    cases hlocked'

theorem Inv.alike (hs : Alike s s') (hok : s'.log.Ok) (hwaits : ∀ p, (s'.point p).Waits s'.log)
    (hcalls : ∀ p, (s'.point p).call = (s.point p).call)
    (hidle : ∀ p, (s'.point p).busy = (s.point p).busy)
    (hbusy : ∀ p, (s.point p).busy = true → s'.point p = s.point p) : Inv s' where
  log := hok
  waits := hwaits
  distinct p q w v hw hv := h.distinct p q w v (hcalls p ▸ hw) (hcalls q ▸ hv)
  state := by
    rcases h.state with ⟨hlocked, hall, hrest⟩ | ⟨p, hlocked, hothers, hcall⟩
    · exact .inl ⟨hs.ilocked.trans hlocked, fun q => (hidle q).trans (hall q), hrest.alike hs⟩
    · refine .inr ⟨p, hs.ilocked.trans hlocked, fun q hq => (hidle q).trans (hothers q hq), ?_⟩
      rw [hbusy p hcall.busy]
      exact hcall.alike hs

theorem Inv.woken (hs : Alike s s') (hlog : s'.log = s.log)
    (hpoint : ∀ p, (s.point p).Woken (s'.point p))
    (hbusy : ∀ p, (s.point p).busy = true → s'.point p = s.point p) : Inv s' := by
  refine h.alike hs (hlog ▸ h.log) (fun p => ?_) (fun p => (hpoint p).call)
    (fun p => (hpoint p).busy) hbusy
  rw [hlog]
  exact (hpoint p).waits _ (h.waits p)

theorem Inv.same_points (hs : Alike s s') (hlog : s'.log = s.log) (hpoint : s'.point = s.point) :
    Inv s' :=
  h.woken hs hlog (fun p => by rw [hpoint]; exact ⟨rfl, rfl, fun _ => id⟩) fun p _ => by rw [hpoint]

/-- A new write is recorded. -/
theorem Inv.record (data : List UInt8) : Inv { s with log := s.log.call data } := by
  refine h.alike ⟨id, fun _ hb => hb, rfl, rfl, rfl, fun _ hw => hw.call data, rfl, rfl⟩
    (h.log.call data) ?_ (fun _ => rfl) (fun _ => rfl) fun _ _ => rfl
  exact fun p => (h.waits p).call data

theorem close_inv : Inv s.close := by
  refine h.woken ⟨id, fun _ hb => hb, rfl, rfl, rfl, fun _ => id, rfl, rfl⟩ rfl (fun q => ?_)
    fun q hq => ?_
  · have hwriter := (s.point q).woken_wakeWriter
    have hreader := (s.point q).wakeWriter.woken_wakeReader
    exact ⟨hreader.busy.trans hwriter.busy, hreader.call.trans hwriter.call,
      fun l hl => hreader.waits l (hwriter.waits l hl)⟩
  · show (s.point q).wakeWriter.wakeReader = s.point q
    cases hx : s.point q with
    | readRound | readBuf | writeRound | writeBuf => rfl
    | _ =>
      rw [hx] at hq
      cases hq

omit h

theorem recycle_alike (hb : s.cleared b = true) (data : Block) :
    Alike s { s with st := s.st.write b data } where
  contents hq := hq.recycle hb data
  leaf hq hx := by
    obtain ⟨l, _, hT⟩ := hq.ok
    obtain ⟨y, hy⟩ := hq.leaf b hb
    show _ ∈ fileNodes (s.st.write b data).disk s.ip.iAddr
    rw [fileNodes_write hT hy data]
    exact hx
  size := rfl
  fOffset := rfl
  accepted := rfl
  isOpen _ := id
  returned := rfl
  ilocked := rfl

theorem other_alike {st : Filsys} (h : s.Elsewhere st) : Alike s { s with st := st } where
  contents hq := hq.other h
  leaf hq hx := by
    obtain ⟨l, hl, hT⟩ := hq.ok
    obtain ⟨l', T, T', htouch, hapart⟩ := h.2 l hl hT
    show _ ∈ fileNodes st.disk s.ip.iAddr
    rw [(htouch.other hT hapart).1]
    exact hx
  size := rfl
  fOffset := rfl
  accepted := rfl
  isOpen _ := id
  returned := rfl
  ilocked := rfl

end Environment

structure New (s : State P) : Prop where
  ok : ∃ l, s.st.Consistent l ∧ TreeOk s.st.fs l (fileNodes s.st.disk s.ip.iAddr)
  fsize : s.st.fs.fsFsize ≤ 2 ^ 31
  uError : s.st.uError = 0
  cleared : ∀ b, s.cleared b = false
  size : s.ip.iSize = 0
  fOffset : s.fOffset = 0
  ilocked : s.ilocked = false
  point : ∀ p, s.point p = .done 0
  log : s.log = ⟨[], [], []⟩
  returned : s.returned = []

theorem New.inv (h : New s) : Inv s where
  log i := by
    rw [h.log]
    exact ⟨rfl, not_mem_nil⟩
  waits p := by
    rw [h.point]
    trivial
  distinct p q w v hw := by
    rw [h.point] at hw
    cases hw
  state := by
    refine .inl ⟨h.ilocked, fun p => by rw [h.point]; rfl, ⟨[], ?_, ?_⟩, ?_⟩
    · rw [h.size, h.fOffset]
      refine ⟨h.ok, h.fsize, h.uError, fun b hb => ?_, fun o _ ho => absurd ho (not_lt_zero o),
        le_rfl, rfl⟩
      rw [h.cleared b] at hb
      cases hb
    · rw [h.log, h.returned]
      rfl
    · rw [h.size]
      decide

theorem Inv.prefix_stream (h : Inv s) : s.returned <+: s.log.stream := by
  rcases h.state with ⟨_, _, hrest⟩ | ⟨p, _, _, hcall⟩
  · obtain ⟨q, _, hstream⟩ := hrest.contents
    exact ⟨q, hstream.symm⟩
  · have hread : ∀ mem uio as, Reading s mem uio as → s.returned <+: s.log.stream := by
      intro mem uio as hreading
      obtain ⟨done, q, _, _, hstream⟩ := hreading.contents
      rw [append_assoc] at hstream
      exact ⟨_, hstream.symm⟩
    have hwrite : ∀ w, Writing s w → s.returned <+: s.log.stream := by
      intro w hwriting
      obtain ⟨q, _, hstream⟩ := hwriting.contents
      exact ⟨q, hstream.symm⟩
    cases hx : s.point p with
    | readRound mem uio as => exact hread mem uio as (by rwa [hx] at hcall)
    | readBuf mem uio as bn n =>
      rw [hx] at hcall
      exact hread mem uio as hcall.1
    | writeRound w | writeBuf w =>
      rw [hx] at hcall
      exact hwrite w hcall.1
    | _ =>
      rw [hx] at hcall
      exact hcall.elim

variable [DecidableEq P]

theorem goto_point (s : State P) (p q : P) (x : Point) :
    (s.goto p x).point q = if q = p then x else s.point q :=
  Function.update_apply ..

theorem distinct_goto
    (h : ∀ q r w v, q ≠ p → r ≠ p → (s.point q).call = some w → (s.point r).call = some v →
      w.number = v.number → q = r)
    (halone : ∀ w, x.call = some w → Alone s p w) (q r : P) (w v : WriteCall)
    (hw : ((s.goto p x).point q).call = some w) (hv : ((s.goto p x).point r).call = some v)
    (heq : w.number = v.number) : q = r := by
  rw [goto_point] at hw hv
  split_ifs at hw hv with hq hr hr
  · rw [hq, hr]
  · exact absurd heq.symm (halone w hw r v hr hv)
  · exact absurd heq (halone v hv q w hq hw)
  · exact h q r w v hq hr hw hv heq

theorem Apart.waits_goto (h : Apart s p) (hx : x.Waits s.log) (q : P) :
    ((s.goto p x).point q).Waits s.log := by
  rw [goto_point]
  split_ifs with hq
  · exact hx
  · exact h.waits q hq

theorem Inv.leave (hrest : Rest s) (hapart : Apart s p) (hlocked : s.ilocked = false)
    (hx : x.busy = false)
    (hwaits : x.Waits s.log) (halone : ∀ w, x.call = some w → Alone s p w) : Inv (s.goto p x) where
  log := hapart.log
  waits := hapart.waits_goto hwaits
  distinct := distinct_goto hapart.distinct halone
  state := by
    refine .inl ⟨hlocked, fun q => ?_, hrest.contents, hrest.size⟩
    rw [goto_point]
    split_ifs with hq
    · exact hx
    · exact hapart.idle q hq

theorem Rest.finish (hrest : Rest s) (hapart : Apart s p) (hlocked : s.ilocked = false) (e : ℕ) :
    Inv (s.goto p (.done e)) :=
  .leave hrest hapart hlocked rfl trivial fun _ hw => nomatch hw

theorem Inv.unlock (hrest : Rest s) (hapart : Apart s p) (e : ℕ) :
    Inv (s.iunlock.goto p (.done e)) :=
  have hrest' : Rest s.iunlock := ⟨hrest.contents, hrest.size⟩
  hrest'.finish (hapart.same rfl rfl) rfl e

theorem Inv.call (hcall : InCall (s.goto p x) x) (hapart : Apart s p) (hlocked : s.ilocked = true)
    (halone : ∀ w, x.call = some w → Alone s p w) : Inv (s.goto p x) where
  log := hapart.log
  waits := hapart.waits_goto (by cases x <;> trivial)
  distinct := distinct_goto hapart.distinct halone
  state := by
    refine .inr ⟨p, hlocked, fun q hq => ?_, ?_⟩
    · rw [goto_point, if_neg hq]
      exact hapart.idle q hq
    · rw [goto_point, if_pos rfl]
      exact hcall

section Read

theorem readEnd_inv (h : Reading s mem uio as) (hapart : Apart s p) :
    Inv (s.readEnd p mem uio as) := by
  obtain ⟨done, q, has, hq, hstream⟩ := h.contents
  have hgot : as.take (as.length - uio.uioResid) = done := by
    rw [has, length_append, show uio.uioResid = _ from h.room, Nat.add_sub_cancel, take_left]
  rw [readEnd]
  simp only [hgot]
  by_cases hend : uio.uioOffset = s.ip.iSize
  · have hnil : q = [] := eq_nil_of_length_eq_zero (by rw [hq.length_eq, hend, Nat.sub_self])
    have hrest : Contents s.st s.ip.iAddr s.cleared 0 0 [] := hq.reset
    have hzero : 0 < 2 * maxpipsiz := by decide
    rw [hnil] at hstream
    rw [if_pos hend]
    split_ifs
    · refine .unlock ?_ ?_ 0
      · exact ⟨⟨[], hrest, hstream⟩, hzero⟩
      · exact hapart.woken rfl fun q => (s.point q).woken_wakeWriter
    · refine .unlock ?_ ?_ 0
      · exact ⟨⟨[], hrest, hstream⟩, hzero⟩
      · exact hapart.same rfl rfl
  · rw [if_neg hend]
    refine .unlock ?_ ?_ 0
    · exact ⟨⟨q, hq, hstream⟩, h.size⟩
    · exact hapart.same rfl rfl

theorem readp_inv (h : Rest s) (hapart : Apart s p) (hlocked : s.ilocked = false)
    (hvalid : uio.Valid) (hnodup : (addresses uio.uioIov).Nodup) : Inv (s.readp p mem uio) := by
  rw [State.readp]
  split_ifs with hsize hcount hnonblock
  · exact h.finish hapart hlocked 0
  · exact h.finish hapart hlocked _
  · exact .leave ⟨h.contents, h.size⟩ (hapart.same rfl rfl) hlocked rfl ⟨hvalid, hnodup⟩
      fun _ hw => nomatch hw
  · obtain ⟨q, hq, hstream⟩ := h.contents
    rw [← append_nil s.returned] at hstream
    have hreading : Reading { s with ilocked := true } mem ⟨uio.uioIov, s.fOffset, uio.uioResid⟩
        (addresses uio.uioIov) :=
      ⟨⟨[], q, rfl, hq, hstream⟩, h.size, hvalid, hnodup⟩
    simp only
    split_ifs
    · exact readEnd_inv hreading (hapart.same rfl rfl)
    · exact .call ⟨hreading.contents, hreading.size, hvalid, hnodup⟩ (hapart.same rfl rfl) rfl
        fun _ hw => nomatch hw

theorem readRound_inv (h : Reading s mem uio as) (hapart : Apart s p) (hlocked : s.ilocked = true)
    (hs' : s.readRound p mem uio as = some s') : Inv s' := by
  rw [readRound] at hs'
  split_ifs at hs' with hend
  · rw [← some.inj hs']
    exact readEnd_inv h hapart
  · obtain ⟨done, q, has, hq, hstream⟩ := h.contents
    obtain ⟨b, hbmap, hb⟩ := hq.bmap_read (not_le.1 hend)
    simp only [hbmap, hq.uError] at hs'
    rw [← some.inj hs']
    refine .call ⟨?_, not_le.1 hend, rfl, b, rfl, hb⟩ (hapart.same rfl rfl) hlocked
      fun _ hw => nomatch hw
    exact ⟨⟨done, q, has, hq, hstream⟩, h.size, h.room, h.nodup⟩

/-- The bytes that were copied are found at the addresses they were copied to, and those copied
before at theirs. -/
theorem map_moved {done rest : List ℕ} (hnodup : (done ++ rest).Nodup) (hn : n ≤ rest.length)
    (buf : Block) (cp : ℕ) (mem : Memory) :
    (done ++ rest.take n).map (moved .read buf cp mem (rest.take n)).2 =
      done.map mem ++ bytes buf cp n := by
  have hlen : (rest.take n).length = n := by
    rw [length_take]
    omega
  obtain ⟨-, hrest, hdisjoint⟩ := nodup_append.1 hnodup
  simp only [moved, hlen, map_append]
  rw [map_scatter_of_disjoint _ fun a ha hmem => hdisjoint a ha a (mem_of_mem_take hmem) rfl,
    map_scatter mem (hrest.sublist (take_sublist n rest)) (by rw [hlen, length_bytes])]

theorem readBuf_inv (h : Reading s mem uio as) (hlt : uio.uioOffset < s.ip.iSize)
    (hn : n = min (min (devBsize - uio.uioOffset % devBsize) uio.uioResid)
      (s.ip.iSize - uio.uioOffset))
    (hb : ⟨0, uio.uioOffset / devBsize, b⟩ ∈ fileNodes s.st.disk s.ip.iAddr) (hapart : Apart s p)
    (hlocked : s.ilocked = true) : Inv (s.readBuf p mem uio as b n) := by
  obtain ⟨done, q, has, hq, hstream⟩ := h.contents
  have honlt : uio.uioOffset % devBsize < devBsize := mod_lt _ (by decide)
  have hroom : uio.uioResid = (addresses uio.uioIov).length := h.room
  obtain ⟨uio1, hmove, haddr, hoff, hresid⟩ :=
    uiomove_spec .read (s.st.disk b) (uio.uioOffset % devBsize) n mem uio (by omega) h.room.le
  have htake := hq.take_eq (n := n) (by omega) (by omega) hb
  have hvalid := h.room.moved haddr hresid
  have hneg : ¬ ((b : ℤ) < 0) := by omega
  -- the block may be given up
  obtain ⟨c, hc, hcleared⟩ : ∃ c,
      (if 0 ≤ (b : ℤ) ∧ (n + uio.uioOffset % devBsize = devBsize ∨ uio1.uioOffset = s.ip.iSize)
        then { s with cleared := Function.update s.cleared b true } else s) =
          { s with cleared := c } ∧
      (c = s.cleared ∨ c = Function.update s.cleared b true ∧
        (n + uio.uioOffset % devBsize = devBsize ∨ uio.uioOffset + n = s.ip.iSize)) := by
    split_ifs with hend
    · exact ⟨_, rfl, .inr ⟨rfl, hoff ▸ hend.2⟩⟩
    · exact ⟨_, rfl, .inl rfl⟩
  set mem1 := (moved .read (s.st.disk b) (uio.uioOffset % devBsize) mem
    ((addresses uio.uioIov).take n)).2
  have hreading : Reading { s with cleared := c } mem1 uio1 as := by
    refine ⟨⟨done ++ (addresses uio.uioIov).take n, q.drop n, ?_, ?_, ?_⟩, h.size, hvalid, h.nodup⟩
    · rw [haddr, append_assoc, take_append_drop]
      exact has
    · rw [hoff]
      exact hq.read (by omega) hb hcleared
    · show s.log.stream = _
      rw [map_moved (has ▸ h.nodup) (by omega), htake, hstream, append_assoc, append_assoc,
        append_assoc, take_append_drop]
  rw [readBuf]
  simp only [if_neg hneg, Int.toNat_natCast, hmove, hc]
  split_ifs
  · exact .call ⟨hreading.contents, hreading.size, hvalid, h.nodup⟩ (hapart.same rfl rfl) hlocked
      fun _ hw => nomatch hw
  · exact readEnd_inv hreading (hapart.same rfl rfl)

end Read

section Write

theorem writeLoop_inv (h : Rest s) (hapart : Apart s p) (halone : Alone s p w)
    (hlocked : s.ilocked = true)
    (hw : s.log.Waiting w) (hs' : s.writeLoop u p w = some s') : Inv s' := by
  rw [State.writeLoop] at hs'
  split_ifs at hs' with hzero hcount hfull
  · rw [← some.inj hs']
    refine .unlock ?_ ?_ 0
    · exact ⟨h.contents, h.size⟩
    · exact hapart.only halone (Log.only_finish _ _) (hapart.log.finish hw hzero) rfl
  · rw [← some.inj hs']
    exact .unlock h hapart epipe
  · rw [← some.inj hs']
    refine .leave ⟨h.contents, h.size⟩ (hapart.same rfl rfl) rfl rfl hw fun v hv => ?_
    obtain rfl := some.inj hv
    exact halone
  · simp only at hs'
    split_ifs at hs'
    rw [← some.inj hs']
    obtain ⟨q, hq, hstream⟩ := h.contents
    have hbegun : Apart { s with log := s.log.begin w.number } p :=
      hapart.only halone (Log.only_begin _ _) (hapart.log.begin hw hzero) rfl
    have hlen : (addresses w.uio.uioIov).length ≤ w.data.length := by
      rw [← hw.rest, length_append, length_map]
      exact Nat.le_add_left _ _
    have hroom := hw.room
    refine .call ⟨⟨⟨q, hq, ?_⟩, ?_, hw.toOpen.begin rfl, ⟨_, _, rfl⟩, ?_, ?_, ?_⟩, rfl⟩
      hbegun hlocked ?_
    · exact (Log.stream_begin _ _).trans hstream
    · show s.ip.iSize + min w.c maxpipsiz < 2 * maxpipsiz
      omega
    · show (addresses w.uio.uioIov).length = w.c - min w.c maxpipsiz + min w.c maxpipsiz
      omega
    · show 0 < min w.c maxpipsiz
      omega
    · intro hshort
      replace hshort : w.data.length ≤ maxpipsiz := hshort
      show w.c - min w.c maxpipsiz = 0
      omega
    · intro v hv
      obtain rfl := some.inj hv
      exact halone

theorem writep_inv (h : Rest s) (hapart : Apart s p) (halone : Alone s p w)
    (hlocked : s.ilocked = false)
    (hw : s.log.Waiting w) (hs' : s.writep u p w = some s') : Inv s' := by
  rw [State.writep] at hs'
  split_ifs at hs'
  · rw [← some.inj hs']
    exact h.finish hapart hlocked _
  · have hrest : Rest { s with ilocked := true } := ⟨h.contents, h.size⟩
    exact writeLoop_inv hrest (hapart.same rfl rfl) halone rfl hw hs'

theorem writeRound_inv (h : Writing s w) (hsize : s.ip.iSize = w.uio.uioOffset) (hapart : Apart s p)
    (halone : Alone s p w) (hlocked : s.ilocked = true) (hs' : s.writeRound stale p w = some s') :
    Inv s' := by
  set n := min (devBsize - w.uio.uioOffset % devBsize) w.uio.uioResid with hn
  obtain ⟨v, ip1, st1, hbmap⟩ : ∃ v ip1 st1, (v, ip1, st1) =
    bmap s.st s.ip (w.uio.uioOffset / devBsize : ℕ) .write (n ≠ devBsize) stale := ⟨_, _, _, rfl⟩
  rw [State.writeRound] at hs'
  simp only [← hn, ← hbmap] at hs'
  obtain ⟨q, hq, hstream⟩ := h.contents
  have hpos := h.pos
  have hnpos : 0 < n := by
    have := mod_lt w.uio.uioOffset (show 0 < devBsize by decide)
    omega
  by_cases hfail : st1.uError ≠ 0 ∨ v < 0
  · rw [if_pos hfail] at hs'
    cases hs'
  · rw [if_neg hfail] at hs'
    rw [not_or, not_not, not_lt] at hfail
    have hmax : w.uio.uioOffset / devBsize < maxBlocks := by
      have hlt := h.size
      simp only [devBsize, maxBlocks, nindir, maxpipsiz] at *
      omega
    obtain ⟨hq1, ⟨r, a, hip⟩, b, hvb, hb⟩ := hq.bmap_write hmax hbmap hfail.2 hfail.1
    have hsize1 : ip1.iSize = w.uio.uioOffset := by
      rw [hip]
      exact hsize
    rw [hsize1, if_pos (Nat.lt_add_of_pos_right hnpos)] at hs'
    rw [← some.inj hs']
    refine .call ⟨⟨⟨q, hq1, hstream⟩, h.size, h.isOpen, h.last, h.room, h.pos, h.single⟩, rfl, hn,
      b, hvb, hb⟩ (hapart.same rfl rfl) hlocked fun v hv => ?_
    obtain rfl := some.inj hv
    exact halone

/-- The state after a round has copied `data`. -/
structure Copied (s s₁ : State P) (uio : Uio) (data : List UInt8) : Prop where
  contents : ∃ q, Contents s₁.st s₁.ip.iAddr s₁.cleared s₁.fOffset uio.uioOffset q ∧
    s₁.log.stream = s₁.returned ++ q
  size : s₁.ip.iSize = uio.uioOffset
  log : s₁.log = s.log.accept data
  point : s₁.point = s.point
  ilocked : s₁.ilocked = s.ilocked

theorem writeBuf_copies (h : Writing s w) (hsize : s.ip.iSize = w.uio.uioOffset + n)
    (hn : n = min (devBsize - w.uio.uioOffset % devBsize) w.uio.uioResid)
    (hb : ⟨0, w.uio.uioOffset / devBsize, b⟩ ∈ fileNodes s.st.disk s.ip.iAddr) (u : User)
    (stale : Block) (p : P) :
    ∃ s₁ uio1, Copied s s₁ uio1 (((addresses w.uio.uioIov).take n).map w.mem) ∧
      addresses uio1.uioIov = (addresses w.uio.uioIov).drop n ∧
        uio1.uioOffset = w.uio.uioOffset + n ∧
      uio1.uioResid = w.uio.uioResid - n ∧
      s.writeBuf u stale p w b n =
        if uio1.uioResid ≠ 0 ∧ n ≠ 0 then some (s₁.goto p (.writeRound { w with uio := uio1 }))
        else (if s₁.ip.iMode &&& iread ≠ 0 then (s₁.setMode (s₁.ip.iMode &&& notIread)).wakeReaders
          else s₁).writeLoop u p { w with uio := uio1 } := by
  obtain ⟨q, hq, hstream⟩ := h.contents
  have honlt : w.uio.uioOffset % devBsize < devBsize := mod_lt _ (by decide)
  have hroom := h.room
  obtain ⟨uio1, hmove, haddr, hoff, hresid⟩ :=
    uiomove_spec .write (if n = devBsize then stale else s.st.disk b)
    (w.uio.uioOffset % devBsize) n w.mem w.uio (by omega) (by omega)
  set data := ((addresses w.uio.uioIov).take n).map w.mem with hdata
  set buf := place (if n = devBsize then stale else s.st.disk b) (w.uio.uioOffset % devBsize) data
    with hbuf
  have hlen : data.length = n := by
    rw [hdata, length_map, length_take]
    omega
  have htaken : w.uio.uioResid - uio1.uioResid = n := by omega
  have hmoved : moved .write (if n = devBsize then stale else s.st.disk b)
    (w.uio.uioOffset % devBsize) w.mem
      ((addresses w.uio.uioIov).take n) = (buf, w.mem) := by
    rw [moved]
  rw [hmoved] at hmove
  set ip1 := if u.uRuid ≠ 0 then s.ip.setMode (s.ip.iMode &&& notSetid) else s.ip with hip1
  have hsame : ip1.iAddr = s.ip.iAddr ∧ ip1.iSize = s.ip.iSize := by
    rw [hip1]
    split_ifs
    · exact ⟨rfl, rfl⟩
    · exact ⟨rfl, rfl⟩
  have hq1 := hq.write hb hlen (by omega) hbuf
  rw [← hsame.1, ← hoff] at hq1
  refine ⟨{ s with
    st := s.st.write b buf
    cleared := Function.update s.cleared b false
    log := s.log.accept data
    ip := ip1 }, uio1, ⟨⟨q ++ data, hq1, ?_⟩, ?_, rfl, rfl, rfl⟩, haddr, hoff, hresid, ?_⟩
  · rw [h.last.stream_accept, hstream, append_assoc]
  · exact hsame.2.trans (hsize.trans hoff.symm)
  · rw [State.writeBuf]
    simp only [Int.toNat_natCast, hmove, htaken, ← hdata, ← hip1]

theorem writeBuf_inv (h : Writing s w) (hsize : s.ip.iSize = w.uio.uioOffset + n)
    (hn : n = min (devBsize - w.uio.uioOffset % devBsize) w.uio.uioResid)
    (hb : ⟨0, w.uio.uioOffset / devBsize, b⟩ ∈ fileNodes s.st.disk s.ip.iAddr) (hapart : Apart s p)
    (halone : Alone s p w) (hlocked : s.ilocked = true)
    (hs' : s.writeBuf u stale p w b n = some s') : Inv s' := by
  obtain ⟨s₁, uio1, hcopied, haddr, hoff, hresid, heq⟩ := writeBuf_copies h hsize hn hb u stale p
  have hpos := h.pos
  have hnpos : n ≠ 0 := by
    have := mod_lt w.uio.uioOffset (show 0 < devBsize by decide)
    omega
  have hroom : (addresses uio1.uioIov).length = w.c + uio1.uioResid := by
    rw [haddr, length_drop, h.room]
    omega
  have hend : uio1.uioOffset + uio1.uioResid < 2 * maxpipsiz := by
    have := h.size
    omega
  have hsplit : addresses w.uio.uioIov =
      (addresses w.uio.uioIov).take n ++ addresses uio1.uioIov := by
    rw [haddr, take_append_drop]
  have hisOpen : s₁.log.Open { w with uio := uio1 } := hcopied.log ▸ h.isOpen.accept h.last hsplit
  have hapart1 : Apart s₁ p := by
    refine hapart.only halone ?_ ?_ hcopied.point
    · exact hcopied.log ▸ h.last.only_accept _
    · exact hcopied.log ▸ hapart.log.accept h.isOpen h.last hsplit
  have halone1 : Alone s₁ p { w with uio := uio1 } := by
    intro q v hq hv
    rw [hcopied.point] at hv
    exact halone q v hq hv
  have hlocked1 : s₁.ilocked = true := hcopied.ilocked.trans hlocked
  rw [heq] at hs'
  by_cases hmore : uio1.uioResid ≠ 0 ∧ n ≠ 0
  · rw [if_pos hmore] at hs'
    rw [← some.inj hs']
    have hlast : s₁.log.Last w.number := hcopied.log ▸ h.last.accept _
    refine .call ⟨⟨hcopied.contents, hend, hisOpen, hlast, hroom, pos_of_ne_zero hmore.1, h.single⟩,
      hcopied.size⟩ hapart1 hlocked1 fun v hv => ?_
    obtain rfl := some.inj hv
    exact halone1
  · have hzero : uio1.uioResid = 0 := by_contra fun hne => hmore ⟨hne, hnpos⟩
    have hrest : Rest s₁ := ⟨hcopied.size ▸ hcopied.contents, by rw [hcopied.size]; omega⟩
    have hwait : s₁.log.Waiting { w with uio := uio1 } :=
      ⟨hisOpen, by rw [hroom, hzero, add_zero], fun hlen hc => absurd (h.single hlen) hc⟩
    split_ifs at hs'
    · have hwoken : ∀ q, (s₁.point q).Woken (s₁.point q).wakeReader :=
        fun q => (s₁.point q).woken_wakeReader
      exact writeLoop_inv (s := (s₁.setMode (s₁.ip.iMode &&& notIread)).wakeReaders)
        ⟨hrest.contents, hrest.size⟩
        (hapart1.woken rfl hwoken) (halone1.woken hwoken) hlocked1 hwait hs'
    · exact writeLoop_inv hrest hapart1 halone1 hlocked1 hwait hs'

end Write

section Run

variable (h : Inv s)
include h

theorem Inv.inCall (hbusy : (s.point p).busy = true) :
    s.ilocked = true ∧ Apart s p ∧ InCall s (s.point p) := by
  rcases h.state with ⟨_, hidle, _⟩ | ⟨q, hlocked, hidle, hcall⟩
  · rw [hidle p] at hbusy
    cases hbusy
  · have hpq : p = q := by
      by_contra hne
      rw [hidle p hne] at hbusy
      cases hbusy
    rw [hpq]
    exact ⟨hlocked, h.apart hidle, hcall⟩

/-- A process that is not in `rwip` goes somewhere else. -/
theorem Inv.goto (hp : (s.point p).busy = false) (hx : x.busy = false) (hwaits : x.Waits s.log)
    (halone : ∀ w, x.call = some w → Alone s p w) : Inv (s.goto p x) where
  log := h.log
  waits q := by
    rw [goto_point]
    split_ifs
    · exact hwaits
    · exact h.waits q
  distinct := distinct_goto (fun q r w v _ _ => h.distinct q r w v) halone
  state := by
    have hidle : ∀ q, (s.point q).busy = false → ((s.goto p x).point q).busy = false := by
      intro q hq
      rw [goto_point]
      split_ifs
      · exact hx
      · exact hq
    rcases h.state with ⟨hlocked, hall, hrest⟩ | ⟨q, hlocked, hothers, hcall⟩
    · exact .inl ⟨hlocked, fun q => hidle q (hall q), hrest.contents, hrest.size⟩
    · have hqp : q ≠ p := by
        rintro rfl
        rw [hcall.busy] at hp
        cases hp
      refine .inr ⟨q, hlocked, fun r hr => hidle r (hothers r hr), ?_⟩
      rw [goto_point, if_neg hqp]
      exact hcall.alike ⟨id, fun _ hb => hb, rfl, rfl, rfl, fun _ => id, rfl, rfl⟩

theorem interrupt_inv (hs' : s.interrupt p = some s') : Inv s' := by
  rw [State.interrupt] at hs'
  cases hx : s.point p with
  | readWait | writeWait =>
    simp only [hx, some.injEq] at hs'
    rw [← hs']
    exact h.goto (by rw [hx]; rfl) rfl trivial fun _ hw => nomatch hw
  | _ => simp [hx] at hs'

theorem run_inv (hs' : s.run u stale p = some s') : Inv s' := by
  have hwaits := h.waits p
  have hcall := h.inCall (p := p)
  rw [State.run] at hs'
  cases hx : s.point p with
  | done | readWait | writeWait => simp [hx] at hs'
  | readp mem uio =>
    simp only [hx] at hs' hwaits
    split_ifs at hs' with hlocked
    rw [Bool.not_eq_true] at hlocked
    obtain ⟨hidle, hrest⟩ := h.rest hlocked
    rw [← some.inj hs']
    exact readp_inv hrest (h.apart fun q _ => hidle q) hlocked hwaits.1 hwaits.2
  | writep w =>
    simp only [hx] at hs' hwaits
    split_ifs at hs' with hlocked
    rw [Bool.not_eq_true] at hlocked
    obtain ⟨hidle, hrest⟩ := h.rest hlocked
    exact writep_inv hrest (h.apart fun q _ => hidle q) (h.alone (by rw [hx]; rfl))
      hlocked hwaits hs'
  | writeAgain w =>
    simp only [hx] at hs' hwaits
    split_ifs at hs' with hlocked
    rw [Bool.not_eq_true] at hlocked
    obtain ⟨hidle, hrest⟩ := h.rest hlocked
    have hrest' : Rest { s with ilocked := true } := ⟨hrest.contents, hrest.size⟩
    have halone : Alone s p w := h.alone (by rw [hx]; rfl)
    exact writeLoop_inv hrest' ((h.apart fun q _ => hidle q).same rfl rfl) halone rfl hwaits hs'
  | readRound mem uio as =>
    simp only [hx] at hs' hcall
    obtain ⟨hlocked, hapart, hreading⟩ := hcall rfl
    exact readRound_inv hreading hapart hlocked hs'
  | readBuf mem uio as bn n =>
    simp only [hx] at hs' hcall
    obtain ⟨hlocked, hapart, hreading, hlt, hn, b, rfl, hb⟩ := hcall rfl
    rw [← some.inj hs']
    exact readBuf_inv hreading hlt hn hb hapart hlocked
  | writeRound w =>
    have halone : Alone s p w := h.alone (by rw [hx]; rfl)
    simp only [hx] at hs' hcall
    obtain ⟨hlocked, hapart, hwriting, hsize⟩ := hcall rfl
    exact writeRound_inv hwriting hsize hapart halone hlocked hs'
  | writeBuf w bn n =>
    have halone : Alone s p w := h.alone (by rw [hx]; rfl)
    simp only [hx] at hs' hcall
    obtain ⟨hlocked, hapart, hwriting, hsize, hn, b, rfl, hb⟩ := hcall rfl
    exact writeBuf_inv hwriting hsize hn hb hapart halone hlocked hs'

theorem Inv.isOpen (hw : (s.point p).call = some w) : s.log.Open w := by
  have hwaits := h.waits p
  have hcall := h.inCall (p := p)
  cases hx : s.point p with
  | writep | writeAgain | writeWait =>
    rw [hx] at hw hwaits
    obtain rfl := some.inj hw
    exact hwaits.toOpen
  | writeRound | writeBuf =>
    rw [hx] at hw hcall
    obtain rfl := some.inj hw
    exact (hcall rfl).2.2.1.isOpen
  | _ =>
    rw [hx] at hw
    cases hw

theorem write_inv (hp : (s.point p).busy = false) (hvalid : uio.Valid) (mem : Memory) :
    Inv ({ s with log := s.log.call ((addresses uio.uioIov).map mem) }.goto p
      (.writep ⟨mem, uio, uio.uioResid, s.log.writes.length, (addresses uio.uioIov).map mem⟩)) := by
  refine (h.record _).goto hp rfl (h.log.waiting_call mem hvalid) fun w hw q v hq hv => ?_
  obtain rfl := some.inj hw
  exact (List.getElem?_eq_some_iff.1 (h.isOpen hv).entry).1.ne

end Run

theorem step_inv {u : P → User} {ev : Event P} (h : Inv s) (hstep : Step u s ev s') : Inv s' := by
  cases ev with
  | read p mem uio =>
    obtain ⟨⟨e, hp⟩, hvalid, hnodup, rfl⟩ := hstep
    exact h.goto (by rw [hp]; rfl) rfl ⟨hvalid, hnodup⟩ fun _ hw => nomatch hw
  | write p mem uio =>
    obtain ⟨⟨e, hp⟩, hvalid, data, rfl, rfl⟩ := hstep
    exact write_inv h (by rw [hp]; rfl) hvalid mem
  | run p stale => exact run_inv h hstep
  | interrupt p => exact interrupt_inv h hstep
  | close =>
    obtain ⟨_, _, rfl⟩ := hstep
    exact close_inv h
  | setNonblock rw on =>
    cases rw with
    | read | write =>
      obtain rfl := hstep
      exact h.same_points ⟨id, fun _ hb => hb, rfl, rfl, rfl, fun _ => id, rfl, rfl⟩ rfl rfl
  | recycle b data =>
    obtain ⟨hb, rfl⟩ := hstep
    exact h.same_points (recycle_alike hb data) rfl rfl
  | other st =>
    obtain ⟨helse, rfl⟩ := hstep
    exact h.same_points (other_alike helse) rfl rfl

/-- In every run of a new pipe the bytes that completed reads have left with their callers are a
first part of the bytes accepted, call of `rwip` by call. The calls made for a write have
accepted a first part of its bytes, and all of them if it is completed; for a write of at most
`MAXPIPSIZ` bytes there is at most one. -/
theorem run_fifo (u : P → User) {s₀ : State P} (h₀ : New s₀) {evs : List (Event P)}
    (hrun : Run (Step u) s₀ evs s) :
    s.returned <+: s.log.stream ∧ (∀ e ∈ s.log.accepted, e.1 < s.log.writes.length) ∧
      ∀ i data, s.log.writes[i]? = some data →
        s.log.sent i <+: data ∧ (i ∈ s.log.written → s.log.sent i = data) ∧
          (data.length ≤ maxpipsiz → (s.log.pieces i).length ≤ 1) := by
  have hinv : Inv s := hrun.invariant (fun _ _ _ h hstep => step_inv h hstep) h₀.inv
  refine ⟨hinv.prefix_stream, fun e he => ?_, fun i data hi => ?_⟩
  · by_contra hlt
    have hfits := hinv.log e.1
    rw [getElem?_eq_none (not_lt.1 hlt)] at hfits
    have hmem : e.2 ∈ s.log.pieces e.1 := mem_map_of_mem (mem_filter.2 ⟨he, decide_eq_true rfl⟩)
    rw [hfits.1] at hmem
    cases hmem
  · have hfits := hinv.log i
    rwa [hi] at hfits

def runs (u : P → User) (stale : Block) : List P → State P → Option (State P)
  | [], s => some s
  | p :: ps, s => (s.run (u p) stale p).bind (runs u stale ps)

theorem run_of_runs {u : P → User} {ps : List P} (h : runs u stale ps s = some s') :
    Run (Step u) s (ps.map fun p => .run p stale) s' := by
  induction ps generalizing s with
  | nil =>
    rw [← some.inj h]
    exact .nil s
  | cons p ps ih =>
    obtain ⟨s₁, hs1, hrest⟩ := bind_eq_some_iff.1 h
    exact .cons hs1 (ih hrest)

def demo : State Bool where
  st := fullVolume
  ip := ⟨ifreg, 0, shortFile.iAddr, true, false⟩
  ilocked := false
  iCount := 2
  fOffset := 0
  rnonblock := false
  wnonblock := false
  cleared := fun _ => false
  point := fun _ => .done 0
  log := ⟨[], [], []⟩
  returned := []

theorem demo_new : New demo :=
  ⟨⟨[], fullVolume_consistent, shortFile_ok⟩, by decide, rfl, fun _ => rfl, rfl, rfl, rfl,
    fun _ => rfl, rfl, rfl⟩

/-- Three bytes are written and two of them read. -/
theorem run_fifo_three_bytes :
    let u : Bool → User := fun _ => ⟨100000, 0⟩
    let mem : Memory := fun a => a.toUInt8
    let evs : List (Event Bool) :=
      .write true mem ⟨[⟨7, 3⟩], 0, 3⟩ :: .read false mem ⟨[⟨0, 2⟩], 0, 2⟩ ::
        [true, true, true, false, false, false].map fun p => .run p zeroBlock
    ∃ s, Run (Step u) demo evs s ∧ s.returned = [7, 8] ∧ s.log.writes = [[7, 8, 9]] ∧
      s.log.written = [0] ∧
      s.returned <+: s.log.stream ∧ s.log.sent 0 = [7, 8, 9] ∧ (s.log.pieces 0).length ≤ 1 := by
  intro u mem evs
  obtain ⟨s₂, hs₂⟩ :
    ∃ s₂, s₂ = ({ demo with log := demo.log.call ((addresses [⟨7, 3⟩]).map mem) }.goto true
      (.writep ⟨mem, ⟨[⟨7, 3⟩], 0, 3⟩, 3, 0, (addresses [⟨7, 3⟩]).map mem⟩)).goto false
        (.readp mem ⟨[⟨0, 2⟩], 0, 2⟩) := ⟨_, rfl⟩
  have hreturned : (runs u zeroBlock [true, true, true, false, false, false] s₂).map
      (fun s => (s.returned, s.log.writes, s.log.written)) = some ([7, 8], [[7, 8, 9]], [0]) := by
    rw [hs₂]
    decide +kernel
  obtain ⟨s, hs, hret⟩ := map_eq_some_iff.1 hreturned
  obtain ⟨hret, hwrites, hwritten⟩ : s.returned = [7, 8] ∧ s.log.writes = [[7, 8, 9]] ∧
      s.log.written = [0] := by
    simpa only [Prod.mk.injEq] using hret
  have hrun : Run (Step u) demo evs s :=
    .cons ⟨⟨0, rfl⟩, rfl, _, rfl, rfl⟩ (.cons ⟨⟨0, rfl⟩, rfl, by decide, hs₂⟩ (run_of_runs hs))
  obtain ⟨hread, -, hlog⟩ := run_fifo u demo_new hrun
  obtain ⟨-, hdone, hsingle⟩ := hlog 0 [7, 8, 9] (by rw [hwrites]; rfl)
  exact ⟨s, hrun, hret, hwrites, hwritten, hread, hdone (by rw [hwritten]; decide),
    hsingle (by decide)⟩

end RetroBSD.Pipe
