import RetroBSD.LittleEndian
import RetroBSD.ByteCopy

/-!
# Sequences of writes to a byte memory

A write places bytes from an address on. Writes that do not overlap can be read back
from the memory after all of them.
-/

namespace MemoryWrites

open LittleEndian ByteCopy

structure Write where
  addr : ℕ
  data : List UInt8

def applyAll (m : Memory) (ws : List Write) : Memory :=
  ws.foldl (fun m w => place m w.addr w.data) m

def Apart (a n b k : ℕ) : Prop := a + n ≤ b ∨ b + k ≤ a

def Write.Apart (w w' : Write) : Prop :=
  MemoryWrites.Apart w.addr w.data.length w'.addr w'.data.length

def Write.Within (w : Write) (lo hi : ℕ) : Prop := lo ≤ w.addr ∧ w.addr + w.data.length ≤ hi

variable {m : Memory} {w w' : Write} {ws : List Write} {lo hi lo' hi' : ℕ}

theorem Write.Within.mono (h : w.Within lo hi) (hlo : lo' ≤ lo) (hhi : hi ≤ hi') : w.Within lo' hi' :=
  ⟨hlo.trans h.1, h.2.trans hhi⟩

theorem Write.Within.apart (h : w.Within lo hi) (h' : w'.Within lo' hi') (hle : hi ≤ lo') : w.Apart w' :=
  .inl ((h.2.trans hle).trans h'.1)

theorem Write.Apart.symm (h : w.Apart w') : w'.Apart w := Or.symm h

theorem bytes_applyAll_of_apart {a n : ℕ} (h : ∀ w ∈ ws, Apart a n w.addr w.data.length) :
    bytes (applyAll m ws) a n = bytes m a n := by
  induction ws generalizing m with
  | nil => rfl
  | cons w ws ih =>
    change bytes (applyAll (place m w.addr w.data) ws) a n = _
    rw [ih fun v hv => h v (List.mem_cons_of_mem _ hv)]
    apply bytes_congr
    intro i hi
    rcases h w List.mem_cons_self with hle | hle
    · exact place_of_lt (by omega)
    · exact place_of_le (by omega)

theorem bytes_applyAll (hws : ws.Pairwise Write.Apart) (hw : w ∈ ws) :
    bytes (applyAll m ws) w.addr w.data.length = w.data := by
  induction ws generalizing m with
  | nil => exact absurd hw List.not_mem_nil
  | cons v ws ih =>
    obtain ⟨hv, hws⟩ := List.pairwise_cons.1 hws
    change bytes (applyAll (place m v.addr v.data) ws) w.addr w.data.length = _
    rcases List.mem_cons.1 hw with rfl | hw
    · rw [bytes_applyAll_of_apart fun u hu => hv u hu]
      have hplace := bytes_place m w.addr 0 w.data
      rw [Nat.zero_add] at hplace
      exact hplace
    · exact ih hws hw

def wordBytes (v : ℕ) : List UInt8 := (List.range 4).map fun k => UInt8.ofNat (v / 256 ^ k)

@[simp] theorem length_wordBytes (v : ℕ) : (wordBytes v).length = 4 := rfl

theorem word_of_bytes {a v : ℕ} (ha : a % 4 = 0) (hv : v < wordMod) (h : bytes m a 4 = wordBytes v) :
    word m (a / 4) = v := by
  rw [← Nat.mod_eq_of_lt hv]
  apply word_bytes
  intro j hj
  have hlt : j % 4 < 4 := Nat.mod_lt _ (by decide)
  have hget := congrArg (fun l => l[j % 4]?) h
  simp only [bytes, wordBytes, List.getElem?_map, List.getElem?_range' hlt,
    List.getElem?_range hlt, Option.map_some, Option.some.injEq] at hget
  rw [show a + 1 * (j % 4) = j by omega] at hget
  exact hget

end MemoryWrites
