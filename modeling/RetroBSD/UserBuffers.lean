import RetroBSD.ReadWrite
import Mathlib

/-!
# What `uiomove` moves

The buffers of a process are a list of addresses, one for each byte. `uiomove`
moves bytes between a block and the first of these addresses, in order, and leaves
the others for the next call.
-/

namespace RetroBSD.Ufs

open LittleEndian ByteCopy List

def addresses (iov : List Iovec) : List ℕ := iov.flatMap fun v => List.range' v.iovBase v.iovLen

def Uio.Valid (uio : Uio) : Prop := uio.uioResid = (addresses uio.uioIov).length

def moved (rw : Rw) (buf : Block) (cp : ℕ) (mem : Memory) (as : List ℕ) : Block × Memory :=
  match rw with
  | .read => (buf, scatter mem as (bytes buf cp as.length))
  | .write => (place buf cp (as.map mem), mem)

variable (rw : Rw)

theorem moved_nil (buf : Block) (cp : ℕ) (mem : Memory) : moved rw buf cp mem [] = (buf, mem) := by
  cases rw with
  | read => rfl
  | write =>
    have hplace : place buf cp [] = buf := by
      funext a
      simp [place]
    simp only [moved, map_nil, hplace]

theorem moved_append (buf : Block) (cp : ℕ) (mem : Memory) (as bs : List ℕ)
    {r : Block × Memory} (hr : r = moved rw buf cp mem as) :
    moved rw r.1 (cp + as.length) r.2 bs = moved rw buf cp mem (as ++ bs) := by
  subst hr
  cases rw with
  | read =>
    have hlen : as.length = (bytes buf cp as.length).length := (length_bytes ..).symm
    simp only [moved]
    rw [scatter_append mem hlen, bytes_append, length_append]
  | write =>
    have hlen : cp + as.length = cp + (as.map mem).length := by rw [length_map]
    simp only [moved]
    rw [hlen, place_append, map_append]

theorem moveBytes_eq (buf : Block) (cp : ℕ) (mem : Memory) (base cnt : ℕ) :
    moveBytes rw buf cp mem base cnt = moved rw buf cp mem (List.range' base cnt) := by
  cases rw with
  | read =>
    simp only [moveBytes, moved]
    rw [copy_eq_place, place_eq_scatter, length_bytes, length_range']
  | write =>
    simp only [moveBytes, moved]
    rw [copy_eq_place, bytes]

theorem addresses_cons (v : Iovec) (iov : List Iovec) :
    addresses (v :: iov) = List.range' v.iovBase v.iovLen ++ addresses iov := rfl

theorem uiomove_spec (buf : Block) (cp n : ℕ) (mem : Memory) (uio : Uio) (hn : n ≤ uio.uioResid)
    (h : uio.uioResid ≤ (addresses uio.uioIov).length) :
    ∃ uio', uiomove rw buf cp n mem uio =
        ((moved rw buf cp mem ((addresses uio.uioIov).take n)).1,
          (moved rw buf cp mem ((addresses uio.uioIov).take n)).2, uio') ∧
      addresses uio'.uioIov = (addresses uio.uioIov).drop n ∧
      uio'.uioOffset = uio.uioOffset + n ∧ uio'.uioResid = uio.uioResid - n := by
  induction hk : n + uio.uioIov.length using Nat.strong_induction_on generalizing buf cp n mem uio with
  | _ k ih =>
  rcases uio with ⟨iov, offset, resid⟩
  rw [uiomove.eq_def]
  by_cases hstop : n = 0 ∨ resid = 0
  · obtain rfl : n = 0 := by
      simp only at hn
      omega
    rw [take_zero, moved_nil]
    exact ⟨_, rfl, rfl, rfl, rfl⟩
  rw [if_neg hstop]
  cases iov with
  | nil =>
    have hzero : resid = 0 := Nat.le_zero.1 h
    exact absurd (.inr hzero) hstop
  | cons v iov =>
    simp only at hn hk ⊢
    rw [length_cons] at hk
    by_cases hlen : v.iovLen = 0
    · have hcons : addresses (v :: iov) = addresses iov := by
        rw [addresses_cons, hlen]
        rfl
      replace h : resid ≤ (addresses iov).length := hcons ▸ h
      rw [if_pos hlen, hcons]
      exact ih (n + iov.length) (by omega) buf cp n mem ⟨iov, offset, resid⟩ hn h rfl
    · rw [if_neg hlen]
      generalize hcnt : min v.iovLen n = cnt
      set rest := (⟨v.iovBase + cnt, v.iovLen - cnt⟩ :: iov : List Iovec)
      -- the bytes of the first copy, and those that are left
      have hsplit : addresses (v :: iov) = List.range' v.iovBase cnt ++ addresses rest := by
        rw [addresses_cons, addresses_cons, ← append_assoc, List.range'_append_1,
          Nat.add_sub_cancel' (by omega)]
      have hresid : resid ≤ (addresses (v :: iov)).length := h
      rw [hsplit, length_append, length_range'] at hresid
      obtain ⟨j, rfl⟩ : ∃ j, n = cnt + j := ⟨n - cnt, by omega⟩
      have htake : (addresses (v :: iov)).take (cnt + j) =
          List.range' v.iovBase cnt ++ (addresses rest).take j := by
        rw [hsplit, take_append, length_range', Nat.add_sub_cancel_left,
          take_of_length_le (by rw [length_range']; omega)]
      have hdrop : (addresses (v :: iov)).drop (cnt + j) = (addresses rest).drop j := by
        rw [hsplit, drop_append, length_range', Nat.add_sub_cancel_left,
          drop_of_length_le (by rw [length_range']; omega), nil_append]
      set r := moveBytes rw buf cp mem v.iovBase cnt with hr
      obtain ⟨uio', hmove, haddr, hoff, hres⟩ := ih (j + rest.length)
        (by rw [length_cons]; omega) r.1 (cp + cnt) j r.2
        ⟨rest, offset + cnt, resid - cnt⟩ (Nat.le_sub_of_add_le' hn)
          (Nat.sub_le_of_le_add (Nat.add_comm .. ▸ hresid)) rfl
      refine ⟨uio', ?_, by rw [haddr, hdrop], by rw [hoff, Nat.add_assoc], by rw [hres, Nat.sub_sub]⟩
      have happ := moved_append rw buf cp mem (List.range' v.iovBase cnt) ((addresses rest).take j)
        (hr.trans (moveBytes_eq ..))
      rw [length_range'] at happ
      rw [htake, ← happ, ← hmove, Nat.add_sub_cancel_left]

/-- What is left of the buffers after `n` bytes have been moved is room for the rest. -/
theorem Uio.Valid.moved {uio uio' : Uio} {n : ℕ} (h : uio.Valid)
    (haddr : addresses uio'.uioIov = (addresses uio.uioIov).drop n) (hresid : uio'.uioResid = uio.uioResid - n) :
    uio'.Valid := by
  rw [Uio.Valid, haddr, hresid, length_drop, show uio.uioResid = _ from h]

end RetroBSD.Ufs
