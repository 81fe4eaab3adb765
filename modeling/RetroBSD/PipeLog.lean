import RetroBSD.PipeContents

/-!
# The record of the writes to a pipe

The calls of `rwip` that are made for a write accept a first part of its bytes, and all of them
before the write is completed. A write of at most `MAXPIPSIZ` bytes is a single such call.
-/

namespace RetroBSD.Pipe

open LittleEndian Ufs List

variable {l l' : Log} {n i : ℕ} {data : List UInt8} {w : WriteCall}

namespace Log

def stream (l : Log) : List UInt8 := l.accepted.flatMap Prod.snd

/-- What the calls of `rwip` for the write `i` have accepted, call by call. -/
def pieces (l : Log) (i : ℕ) : List (List UInt8) := (l.accepted.filter (·.1 = i)).map Prod.snd

def sent (l : Log) (i : ℕ) : List UInt8 := (l.pieces i).flatten

/-- What is recorded for one write. -/
def Fits (data : Option (List UInt8)) (pieces : List (List UInt8)) (written : Prop) : Prop :=
  match data with
  | none => pieces = [] ∧ ¬written
  | some data => pieces.flatten <+: data ∧ (written → pieces.flatten = data) ∧
      (data.length ≤ maxpipsiz → pieces.length ≤ 1)

def Ok (l : Log) : Prop := ∀ i, Fits l.writes[i]? (l.pieces i) (i ∈ l.written)

/-- The last call of `rwip` is for the write `n`. -/
def Last (l : Log) (n : ℕ) : Prop := ∃ closed data, l.accepted = closed ++ [(n, data)]

/-- Only what is recorded for the write `n` has changed. -/
structure Only (n : ℕ) (l l' : Log) : Prop where
  writes : l'.writes = l.writes
  pieces : ∀ i, i ≠ n → l'.pieces i = l.pieces i
  written : ∀ i, i ≠ n → (i ∈ l'.written ↔ i ∈ l.written)

/-- The write has not been completed, and its bytes are those accepted and those it has left. -/
structure Open (l : Log) (w : WriteCall) : Prop where
  entry : l.writes[w.number]? = some w.data
  unfinished : w.number ∉ l.written
  rest : l.sent w.number ++ (addresses w.uio.uioIov).map w.mem = w.data

/-- A write that is not in `rwip`. One of at most `MAXPIPSIZ` bytes has not begun, or is at its
end. -/
structure Waiting (l : Log) (w : WriteCall) : Prop extends l.Open w where
  room : (addresses w.uio.uioIov).length = w.c
  first : w.data.length ≤ maxpipsiz → w.c ≠ 0 → l.pieces w.number = []

theorem Ok.only (h : l.Ok) (ho : Only n l l')
    (hn : Fits l.writes[n]? (l'.pieces n) (n ∈ l'.written)) : l'.Ok := by
  intro i
  rw [ho.writes]
  by_cases hi : i = n
  · rwa [hi]
  · rw [ho.pieces i hi, propext (ho.written i hi)]
    exact h i

theorem Open.only (h : l.Open w) (ho : Only n l l') (hw : w.number ≠ n) : l'.Open w := by
  refine ⟨ho.writes ▸ h.entry, fun hmem => h.unfinished ((ho.written _ hw).1 hmem), ?_⟩
  rw [sent, ho.pieces _ hw]
  exact h.rest

theorem Waiting.only (h : l.Waiting w) (ho : Only n l l') (hw : w.number ≠ n) : l'.Waiting w :=
  ⟨h.toOpen.only ho hw, h.room, fun hlen hc => (ho.pieces _ hw).trans (h.first hlen hc)⟩

/-! ## A new call -/

theorem Ok.unknown (h : l.Ok) : l.pieces l.writes.length = [] ∧ l.writes.length ∉ l.written := by
  have hlast := h l.writes.length
  rwa [getElem?_eq_none le_rfl] at hlast

theorem Ok.call (h : l.Ok) (data : List UInt8) : (l.call data).Ok := by
  intro i
  have hi := h i
  show Fits (l.writes ++ [data])[i]? (l.pieces i) (i ∈ l.written)
  rcases lt_trichotomy i l.writes.length with hlt | rfl | hgt
  · rwa [getElem?_append_left hlt]
  · obtain ⟨hpieces, hwritten⟩ := h.unknown
    rw [getElem?_concat_length, hpieces]
    exact ⟨ nil_prefix, fun hmem => absurd hmem hwritten, fun _ => Nat.zero_le _⟩
  · rw [getElem?_eq_none (by simpa using hgt)]
    rwa [getElem?_eq_none hgt.le] at hi

theorem Open.call (h : l.Open w) (data : List UInt8) : (l.call data).Open w := by
  refine ⟨?_, h.unfinished, h.rest⟩
  show (l.writes ++ [data])[w.number]? = _
  rw [getElem?_append_left (List.getElem?_eq_some_iff.1 h.entry).1]
  exact h.entry

theorem Waiting.call (h : l.Waiting w) (data : List UInt8) : (l.call data).Waiting w :=
  ⟨h.toOpen.call data, h.room, h.first⟩

theorem Ok.waiting_call (h : l.Ok) (mem : Memory) {uio : Uio} (hvalid : uio.Valid) :
    (l.call ((addresses uio.uioIov).map mem)).Waiting
      ⟨mem, uio, uio.uioResid, l.writes.length, (addresses uio.uioIov).map mem⟩ := by
  obtain ⟨hpieces, hwritten⟩ := h.unknown
  refine ⟨⟨getElem?_concat_length, hwritten, ?_⟩, hvalid.symm, fun _ _ => hpieces⟩
  show (l.pieces l.writes.length).flatten ++ _ = _
  rw [hpieces]
  rfl

/-! ## The calls of rwip -/

theorem pieces_begin (l : Log) (n i : ℕ) :
    (l.begin n).pieces i = l.pieces i ++ if n = i then [[]] else [] := by
  simp only [pieces, begin, filter_append, map_append]
  split_ifs with hi <;> simp [hi]

theorem only_begin (l : Log) (n : ℕ) : Only n l (l.begin n) where
  writes := rfl
  pieces i hi := by rw [pieces_begin, if_neg hi.symm, append_nil]
  written _ _ := .rfl

theorem sent_begin (l : Log) (n i : ℕ) : (l.begin n).sent i = l.sent i := by
  rw [sent, sent, pieces_begin, flatten_append]
  split_ifs
  · exact append_nil _
  · exact append_nil _

theorem stream_begin (l : Log) (n : ℕ) : (l.begin n).stream = l.stream := by
  rw [stream, begin, flatMap_append]
  exact append_nil _

theorem Ok.begin (h : l.Ok) (hw : l.Waiting w) (hc : w.c ≠ 0) : (l.begin w.number).Ok := by
  refine h.only (only_begin l _) ?_
  obtain ⟨hsent, hdone, -⟩ := hw.entry ▸ h w.number
  have hflat : ((l.begin w.number).pieces w.number).flatten = (l.pieces w.number).flatten :=
    sent_begin l _ _
  rw [hw.entry, Fits, hflat]
  refine ⟨hsent, hdone, fun hlen => ?_⟩
  rw [pieces_begin, hw.first hlen hc, if_pos rfl]
  rfl

theorem Open.begin {uio : Uio} {c : ℕ} (h : l.Open w) (huio : uio.uioIov = w.uio.uioIov) :
    (l.begin w.number).Open { w with uio := uio, c := c } := by
  refine ⟨h.entry, h.unfinished, ?_⟩
  show (l.begin w.number).sent w.number ++ (addresses uio.uioIov).map w.mem = w.data
  rw [sent_begin, huio]
  exact h.rest

theorem accept_accepted {closed : List (ℕ × List UInt8)} {x : List UInt8}
    (h : l.accepted = closed ++ [(n, x)])
    (data : List UInt8) : (l.accept data).accepted = closed ++ [(n, x ++ data)] := by
  rw [accept, h, modifyLast_concat]

theorem Last.accept (h : l.Last n) (data : List UInt8) : (l.accept data).Last n := by
  obtain ⟨closed, x, hx⟩ := h
  exact ⟨closed, x ++ data, accept_accepted hx data⟩

theorem Last.stream_accept (h : l.Last n) (data : List UInt8) :
    (l.accept data).stream = l.stream ++ data := by
  obtain ⟨closed, x, hx⟩ := h
  rw [stream, stream, accept_accepted hx, hx]
  simp

theorem Last.pieces_accept (h : l.Last n) (data : List UInt8) (i : ℕ) :
    ((l.accept data).pieces i).length = (l.pieces i).length ∧
      (l.accept data).sent i = l.sent i ++ if n = i then data else [] := by
  obtain ⟨closed, x, hx⟩ := h
  simp only [sent, pieces, accept_accepted hx, hx, filter_append, map_append]
  split_ifs with hi <;> simp [hi]

theorem Last.only_accept (h : l.Last n) (data : List UInt8) : Only n l (l.accept data) where
  writes := rfl
  pieces i hi := by
    obtain ⟨closed, x, hx⟩ := h
    simp [pieces, accept_accepted hx, hx, hi.symm]
  written _ _ := .rfl

/-- The call goes on with the buffers that are left after the bytes of `as`. -/
theorem Open.accept {uio : Uio} {as : List ℕ} (h : l.Open w) (hlast : l.Last w.number)
    (has : addresses w.uio.uioIov = as ++ addresses uio.uioIov) :
    (l.accept (as.map w.mem)).Open { w with uio := uio } := by
  refine ⟨h.entry, h.unfinished, ?_⟩
  show (l.accept (as.map w.mem)).sent w.number ++ (addresses uio.uioIov).map w.mem = w.data
  rw [(hlast.pieces_accept _ _).2, if_pos rfl, append_assoc, ← map_append, ← has]
  exact h.rest

theorem Ok.accept (h : l.Ok) (hw : l.Open w) (hlast : l.Last w.number) {as bs : List ℕ}
    (has : addresses w.uio.uioIov = as ++ bs) : (l.accept (as.map w.mem)).Ok := by
  refine h.only (hlast.only_accept _) ?_
  obtain ⟨-, -, hsingle⟩ := hw.entry ▸ h w.number
  obtain ⟨hlength, hsent⟩ := hlast.pieces_accept (as.map w.mem) w.number
  rw [if_pos rfl] at hsent
  rw [hw.entry]
  refine ⟨?_, fun hmem => absurd hmem hw.unfinished, fun hlen => hlength ▸ hsingle hlen⟩
  have hrest := hw.rest
  rw [has, map_append, ← append_assoc, ← hsent] at hrest
  exact ⟨_, hrest⟩

/-! ## The end of a call -/

theorem only_finish (l : Log) (n : ℕ) : Only n l (l.finish n) where
  writes := rfl
  pieces _ _ := rfl
  written i hi := by simp [finish, hi]

theorem Ok.finish (h : l.Ok) (hw : l.Waiting w) (hc : w.c = 0) : (l.finish w.number).Ok := by
  refine h.only (only_finish l _) ?_
  obtain ⟨hsent, -, hsingle⟩ := hw.entry ▸ h w.number
  have hrest := hw.rest
  rw [eq_nil_of_length_eq_zero (hw.room.trans hc), map_nil, append_nil] at hrest
  rw [hw.entry]
  exact ⟨hsent, fun _ => hrest, hsingle⟩

end Log

end RetroBSD.Pipe
