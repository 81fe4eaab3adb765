import Mathlib

/-!
# Shared and exclusive holders

A lock that any number of holders share or one holder has alone. That at most one holder
is exclusive, and that it then is the only one, belongs to the type.
-/

namespace ReadersWriter

open Finset

variable {F : Type*}

structure Lock (F : Type*) where
  shared : Finset F
  exclusive : Finset F
  one : exclusive.card ≤ 1
  apart : exclusive.Nonempty → shared = ∅

namespace Lock

def free : Lock F := ⟨∅, ∅, Nat.zero_le 1, fun _ => rfl⟩

def Held (L : Lock F) : Prop := L.shared.Nonempty ∨ L.exclusive.Nonempty

theorem exclusive_eq_empty {L : Lock F} (h : L.shared.Nonempty) : L.exclusive = ∅ := by
  by_contra hne
  rw [L.apart (nonempty_iff_ne_empty.2 hne)] at h
  exact not_nonempty_empty h

variable [DecidableEq F]

def releaseShared (L : Lock F) (f : F) : Lock F where
  shared := L.shared.erase f
  exclusive := L.exclusive
  one := L.one
  apart h := by rw [L.apart h, erase_empty]

def releaseExclusive (L : Lock F) (f : F) : Lock F where
  shared := L.shared
  exclusive := L.exclusive.erase f
  one := (card_erase_le).trans L.one
  apart h := L.apart (h.mono (erase_subset f _))

def grantShared (L : Lock F) (f : F) (h : L.exclusive = ∅) : Lock F where
  shared := insert f L.shared
  exclusive := L.exclusive
  one := L.one
  apart hne := by rw [h] at hne; exact absurd hne not_nonempty_empty

def grantExclusive (L : Lock F) (f : F) (h : L.shared = ∅) (h' : L.exclusive = ∅) : Lock F where
  shared := L.shared
  exclusive := insert f L.exclusive
  one := by rw [h', insert_empty_eq, card_singleton]
  apart _ := h

end Lock

end ReadersWriter
