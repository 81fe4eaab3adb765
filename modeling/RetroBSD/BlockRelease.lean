import RetroBSD.FileBlocks
import RetroBSD.FreeBlockList
import RetroBSD.RadixTree
import Mathlib

/-!
# Releasing trees of blocks

What `indirtrunc` gives back to the free list, as sets of blocks. `Released`
records which blocks a call freed and which it may have written; calls compose by
taking unions, and a tree none of whose blocks was written is still there.
-/

namespace RetroBSD.Ufs

open LittleEndian RadixTree List

def pointers (disk : ℕ → Block) (p i : ℕ) : ℕ := word (disk p) i

abbrev treeNodes (disk : ℕ → Block) (k p base : ℕ) : Set Node :=
  Nodes nindir (pointers disk) k p base

abbrev treeChildren (disk : ℕ → Block) (k p base : ℕ) : Set Node :=
  Children nindir (pointers disk) k p base

theorem treeNodes_null (disk : ℕ → Block) (k base : ℕ) : treeNodes disk k 0 base = ∅ :=
  nodes_null k base

/-- `B` has been freed and nothing outside `W` written. -/
structure Released (st st' : Filsys) (l l' : List ℕ) (B W : Set ℕ) : Prop where
  consistent : st'.Consistent l'
  freed : ∃ freed, l' = freed ++ l ∧ ∀ b, b ∈ freed ↔ b ∈ B
  frame : ∀ b, b ∉ W → st'.disk b = st.disk b
  isize : st'.fs.fsIsize = st.fs.fsIsize
  fsize : st'.fs.fsFsize = st.fs.fsFsize
  uError : st'.uError = st.uError

structure TreeOk (fs : Fs) (l : List ℕ) (T : Set Node) : Prop where
  inj : Set.InjOn Node.block T
  good : ∀ n ∈ T, ¬ badblock fs n.block
  unlisted : ∀ n ∈ T, n.block ∉ l

section Released

variable {st st₁ st₂ : Filsys} {l l₁ l₂ : List ℕ} {B B₁ W W₁ : Set ℕ} {T U : Set Node}

theorem Released.refl (h : st.Consistent l) : Released st st l l ∅ ∅ :=
  ⟨h, ⟨[], rfl, by simp⟩, fun _ _ => rfl, rfl, rfl, rfl⟩

variable (h : Released st st₁ l l₁ B W)
include h

theorem Released.trans (h1 : Released st₁ st₂ l₁ l₂ B₁ W₁) :
    Released st st₂ l l₂ (B ∪ B₁) (W ∪ W₁) := by
  obtain ⟨freed, hl1, hB⟩ := h.freed
  obtain ⟨freed1, hl2, hB1⟩ := h1.freed
  refine ⟨h1.consistent, ⟨freed1 ++ freed, by rw [hl2, hl1, append_assoc], ?_⟩, ?_,
    h1.isize.trans h.isize, h1.fsize.trans h.fsize, h1.uError.trans h.uError⟩
  · intro b
    rw [mem_append, hB, hB1, Set.mem_union, or_comm]
  · intro b hb
    rw [h1.frame b (fun hW => hb (.inr hW)), h.frame b (fun hW => hb (.inl hW))]

theorem Released.mono (hB : B = B₁) (hW : W ⊆ W₁) : Released st st₁ l l₁ B₁ W₁ := by
  subst hB
  exact ⟨h.consistent, h.freed, fun b hb => h.frame b (fun h' => hb (hW h')), h.isize, h.fsize,
    h.uError⟩

theorem Released.mem {b : ℕ} : b ∈ l₁ ↔ b ∈ B ∨ b ∈ l := by
  obtain ⟨freed, rfl, hB⟩ := h.freed
  rw [mem_append, hB]

theorem Released.badblock (b : ℕ) : badblock st₁.fs b ↔ badblock st.fs b := by
  simp only [Ufs.badblock, h.isize, h.fsize]

omit h

theorem TreeOk.mono (h : TreeOk st.fs l T) (hU : U ⊆ T) : TreeOk st.fs l U :=
  ⟨h.inj.mono hU, fun n hn => h.good n (hU hn), fun n hn => h.unlisted n (hU hn)⟩

theorem TreeOk.released (h : TreeOk st.fs l T) (hr : Released st st₁ l l₁ B W)
    (hB : ∀ n ∈ T, n.block ∉ B) : TreeOk st₁.fs l₁ T := by
  refine ⟨h.inj, fun n hn => ?_, fun n hn => ?_⟩
  · rw [hr.badblock]
    exact h.good n hn
  · rw [hr.mem]
    exact not_or.2 ⟨hB n hn, h.unlisted n hn⟩

theorem free_released (h : st.Consistent l) {bno : ℕ} (hb : ¬ badblock st.fs bno) (hl : bno ∉ l)
    (stale : Block) : Released st (free st bno stale) l (bno :: l) {bno} {bno} := by
  obtain ⟨hisize, hfsize, -⟩ := free_fs st bno stale hb
  refine ⟨free_spec h hb hl stale, ⟨[bno], rfl, by simp⟩, ?_, hisize, hfsize,
    free_uError st bno stale⟩
  intro b hb'
  exact free_disk st bno stale hb'

theorem write_released (h : st.Consistent l) {bno : ℕ} (hl : bno ∉ l) (data : Block) :
    Released st (st.write bno data) l l ∅ {bno} := by
  refine ⟨h.write hl data, ⟨[], rfl, by simp⟩, ?_, rfl, rfl, rfl⟩
  intro b hb
  exact write_disk_of_ne st data hb

theorem treeNodes_frame {k p base : ℕ} (hr : Released st st₁ l l₁ B W)
    (hW : ∀ n ∈ treeNodes st.disk k p base, n.block ∉ W) :
    treeNodes st₁.disk k p base = treeNodes st.disk k p base := by
  apply nodes_congr
  intro n hn _ i _
  rw [pointers, pointers, hr.frame _ (hW n hn)]

end Released

/-- A loop over items releases the nodes of all of them, if its body releases the nodes
of one. `view` is the file system that the state `s` of the loop stands for, and `Ok`
what else is known about it. -/
theorem release_items {S ι : Type*} (view : S → Filsys) (Ok : S → Prop) (nodes : (ℕ → Block) → ι → Set Node)
    {body : S → ι → S}
    (hframe : ∀ (st st₁ : Filsys) l l₁ B W i, Released st st₁ l l₁ B W →
      (∀ n ∈ nodes st.disk i, n.block ∉ W) → nodes st₁.disk i = nodes st.disk i)
    (huniq : ∀ disk i j n, n ∈ nodes disk i → n ∈ nodes disk j → i = j) (is : List ι)
    (hbody : ∀ i ∈ is, ∀ s l, Ok s → (view s).Consistent l → TreeOk (view s).fs l (nodes (view s).disk i) →
      ∃ l', Released (view s) (view (body s i)) l l' (Node.block '' nodes (view s).disk i)
        (Node.block '' nodes (view s).disk i) ∧ Ok (body s i))
    (hnodup : is.Nodup) (s : S) (l : List ℕ) (hOk : Ok s) (h : (view s).Consistent l)
    (hT : TreeOk (view s).fs l {n | ∃ i ∈ is, n ∈ nodes (view s).disk i}) :
    ∃ l', Released (view s) (view (is.foldl body s)) l l'
        (Node.block '' {n | ∃ i ∈ is, n ∈ nodes (view s).disk i})
        (Node.block '' {n | ∃ i ∈ is, n ∈ nodes (view s).disk i}) ∧ Ok (is.foldl body s) := by
  induction is generalizing s l with
  | nil => exact ⟨l, (Released.refl h).mono (by simp) (by simp), hOk⟩
  | cons i is ih =>
    obtain ⟨hi, hnodup⟩ := nodup_cons.1 hnodup
    obtain ⟨l₁, h1, hOk1⟩ :=
      hbody i mem_cons_self s l hOk h (hT.mono fun n hn => ⟨i, mem_cons_self, hn⟩)
    -- the other items share no block with the one just released
    have hother : ∀ j ∈ is, ∀ n ∈ nodes (view s).disk j, n.block ∉ Node.block '' nodes (view s).disk i := by
      rintro j hj n hn ⟨m, hm, heq⟩
      have hmn := hT.inj ⟨i, mem_cons_self, hm⟩ ⟨j, mem_cons_of_mem _ hj, hn⟩ heq
      subst hmn
      exact hi (huniq _ i j m hm hn ▸ hj)
    have hsame : {n | ∃ j ∈ is, n ∈ nodes (view (body s i)).disk j} = {n | ∃ j ∈ is, n ∈ nodes (view s).disk j} := by
      ext n
      refine exists_congr fun j => and_congr_right fun hj => ?_
      rw [hframe _ _ _ _ _ _ j h1 (hother j hj)]
    have hT1 : TreeOk (view (body s i)).fs l₁ {n | ∃ j ∈ is, n ∈ nodes (view (body s i)).disk j} := by
      rw [hsame]
      refine (hT.mono ?_).released h1 ?_
      · rintro n ⟨j, hj, hn⟩
        exact ⟨j, mem_cons_of_mem _ hj, hn⟩
      · rintro n ⟨j, hj, hn⟩
        exact hother j hj n hn
    obtain ⟨l₂, h2, hOk2⟩ := ih (fun j hj => hbody j (mem_cons_of_mem _ hj)) hnodup (body s i) l₁ hOk1
      h1.consistent hT1
    rw [hsame] at h2
    have hcons : {n | ∃ j ∈ i :: is, n ∈ nodes (view s).disk j} =
        nodes (view s).disk i ∪ {n | ∃ j ∈ is, n ∈ nodes (view s).disk j} := by
      ext n
      simp
    refine ⟨l₂, (h1.trans h2).mono ?_ ?_, hOk2⟩
    · rw [hcons, Set.image_union]
    · rw [hcons, Set.image_union]

def entryNodes (disk : ℕ → Block) (k base : ℕ) (q : ℕ → ℕ) (is : List ℕ) : Set Node :=
  {n | ∃ i ∈ is, n ∈ treeNodes disk k (q i) (base + i * nindir ^ k)}

theorem nindir_pos : 0 < nindir := by decide

theorem release_loop {S : Type*} (view : S → Filsys) (Ok : S → Prop) {k base : ℕ} {q : ℕ → ℕ} {body : S → ℕ → S}
    (is : List ℕ) (hbody : ∀ i ∈ is, ∀ s l, Ok s → (view s).Consistent l →
      TreeOk (view s).fs l (treeNodes (view s).disk k (q i) (base + i * nindir ^ k)) →
      ∃ l', Released (view s) (view (body s i)) l l'
        (Node.block '' treeNodes (view s).disk k (q i) (base + i * nindir ^ k))
        (Node.block '' treeNodes (view s).disk k (q i) (base + i * nindir ^ k)) ∧ Ok (body s i))
    (hnodup : is.Nodup) (s : S) (l : List ℕ) (hOk : Ok s) (h : (view s).Consistent l)
    (hT : TreeOk (view s).fs l (entryNodes (view s).disk k base q is)) :
    ∃ l', Released (view s) (view (is.foldl body s)) l l' (Node.block '' entryNodes (view s).disk k base q is)
      (Node.block '' entryNodes (view s).disk k base q is) ∧ Ok (is.foldl body s) := by
  refine release_items view Ok (fun disk i => treeNodes disk k (q i) (base + i * nindir ^ k)) ?_ ?_ is hbody
    hnodup s l hOk h hT
  · intro st st₁ l l₁ B W i hr hW
    exact treeNodes_frame hr hW
  · intro disk i j n hi hj
    exact entry_unique nindir_pos hi hj

end RetroBSD.Ufs
