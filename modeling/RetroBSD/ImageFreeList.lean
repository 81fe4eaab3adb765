import RetroBSD.ImageBlocks
import RetroBSD.FreeBlockList

/-!
# The free list of the image tool is the kernel's stack

`fs_block_free` does what `free` of the kernel does. `fs_block_alloc` pops the head of the
list, but an allocation from an empty list takes its sentinel and counts a block that was
never there, after which the list has no end and `tfree` is wrong.
-/

namespace RetroBSD.Fsutil

open LittleEndian Ufs Runs List Image

namespace Image

variable {im im' : Image} {l : List ℕ} {b : ℕ}

/-- The list of the superblock is the chain `l`, which ends in the sentinel 0. -/
structure WellFormed (im : Image) (l : List ℕ) : Prop where
  chain : FreeList im.disk im.fs.nfree im.fs.free l
  isize_pos : 0 < im.fs.isize
  fsize_lt : im.fs.fsize < wordMod
  length : im.fs.fsize ≤ im.length
  valid : ∀ b ∈ l, im.fs.isize ≤ b ∧ b < im.fs.fsize
  nodup : l.Nodup
  count : im.fs.tfree = l.length

/-- No offset in the image wraps. -/
def Small (im : Image) : Prop := im.fs.fsize ≤ 2 ^ 22

theorem blockAddr_of_lt (h : b < 2 ^ 22) : blockAddr b = b := by
  rw [blockAddr, Nat.mod_eq_of_lt, Nat.mul_div_cancel _ (by decide)]
  simp only [bsize, wordMod]
  omega

theorem readBlock_of_mem (hi : im.fs.isize ≤ b) (hb : b < im.fs.fsize) (hlen : im.fs.fsize ≤ im.length)
    (hsmall : im.Small) : im.readBlock b = some (im.disk b) := by
  have haddr := blockAddr_of_lt (hb.trans_le hsmall)
  rw [readBlock, haddr, if_neg (by omega), if_neg (by omega)]

theorem WellFormed.nfree_pos (h : im.WellFormed l) : 0 < im.fs.nfree ∧ im.fs.nfree ≤ nicfree := h.chain.pos

theorem signed_nfree (h : im.fs.nfree ≤ nicfree) : signed im.fs.nfree = im.fs.nfree := by
  simp only [nicfree] at h
  exact signed_of_lt (by omega)

theorem good_of_mem (hi : im.fs.isize ≤ b) (hb : b < im.fs.fsize) (sblock : Ufs.Fs) :
    ¬ badblock (im.toKernel sblock).fs b := by
  rintro (hbad | hbad)
  · exact absurd hbad (not_lt.2 hi)
  · exact absurd hb (not_lt.2 hbad)

/-- The kernel finds the same list. -/
theorem WellFormed.consistent (h : im.WellFormed l) (sblock : Ufs.Fs) : (im.toKernel sblock).Consistent l where
  listed := .inr ⟨im.fs.nfree, signed_nfree h.nfree_pos.2, h.chain⟩
  isize_pos := h.isize_pos
  fsize_lt := h.fsize_lt
  valid b hb := good_of_mem (h.valid b hb).1 (h.valid b hb).2 sblock
  nodup := h.nodup
  count := h.count

/-- A list the kernel finds is well formed when its sentinel is there. -/
theorem WellFormed.of_consistent {sblock : Ufs.Fs} (h : (im.toKernel sblock).Consistent l)
    (hn : 0 < im.fs.nfree) (hle : im.fs.nfree ≤ nicfree) (hlen : im.fs.fsize ≤ im.length) : im.WellFormed l where
  chain := by
    have hsigned := signed_nfree hle
    rcases h.listed with ⟨hzero, -⟩ | ⟨n, hn', hl⟩
    · have hzero' : signed im.fs.nfree ≤ 0 := hzero
      omega
    · have hn'' : signed im.fs.nfree = n := hn'
      obtain rfl : im.fs.nfree = n := by omega
      exact hl
  isize_pos := h.isize_pos
  fsize_lt := h.fsize_lt
  length := hlen
  valid b hb := by
    have hgood := h.valid b hb
    rw [badblock, not_or, not_lt, not_le] at hgood
    exact hgood
  nodup := h.nodup
  count := h.count

theorem blockFree_toKernel (h : im.WellFormed l) (hsmall : im.Small) (hi : im.fs.isize ≤ b) (hb : b < im.fs.fsize)
    (stale : Block) (sblock : Ufs.Fs) : ∃ im', im.blockFree b stale = some im' ∧
      im'.toKernel sblock = Ufs.free (im.toKernel sblock) b stale ∧ 0 < im'.fs.nfree ∧ im'.fs.nfree ≤ nicfree ∧
      im'.fs.isize = im.fs.isize ∧ im'.fs.fsize = im.fs.fsize ∧ im.length ≤ im'.length := by
  obtain ⟨hpos, hle⟩ := h.nfree_pos
  have hsigned := signed_nfree hle
  have hgood := good_of_mem hi hb sblock
  have hne : b ≠ 0 := by
    have := h.isize_pos
    omega
  have hbegin : (im.toKernel sblock).fs.begin = (im.toKernel sblock).fs := by
    refine if_neg ?_
    show ¬ signed im.fs.nfree ≤ 0
    omega
  have haddr := blockAddr_of_lt (hb.trans_le hsmall)
  rw [Ufs.free, if_neg hgood, hbegin]
  by_cases hfull : nicfree ≤ im.fs.nfree
  · have hspill : (nicfree : ℤ) ≤ (im.toKernel sblock).fs.fsNfree := by
      show (nicfree : ℤ) ≤ signed im.fs.nfree
      omega
    have hstore : (im.toKernel sblock).fs.store stale = setWords stale (nicfree + 1)
        fun i => if i = 0 then im.fs.nfree else im.fs.free (i - 1) := by
      have hmod : ((im.toKernel sblock).fs.fsNfree % wordMod).toNat = im.fs.nfree := by
        show (signed im.fs.nfree % wordMod).toNat = im.fs.nfree
        simp only [nicfree] at hle
        simp only [wordMod]
        omega
      rw [Ufs.Fs.store, hmod]
      rfl
    obtain ⟨im', him'⟩ : ∃ im', im' = { im with
      fs := { im.fs with modified := true, nfree := 0 }
      disk := Function.update im.disk b ((im.toKernel sblock).fs.store stale)
      length := max im.length (b + 1) } := ⟨_, rfl⟩
    have heq : im.blockFree b stale = some (im'.push b) := by
      simp [blockFree, spill, writeBlock, hfull, not_lt.2 hi, haddr, him', hstore]
    refine ⟨im'.push b, heq, ?_, ?_, ?_, ?_, ?_, ?_⟩
    · show _ = Filsys.push (Filsys.spill (im.toKernel sblock) b stale) b
      rw [Filsys.spill, if_pos hspill, him']
      simp [toKernel, Filsys.push, push, hne, Ufs.Fs.setNfree, signed]
    all_goals simp [him', push, nicfree]
  · have hspill : ¬ (nicfree : ℤ) ≤ (im.toKernel sblock).fs.fsNfree := by
      show ¬ (nicfree : ℤ) ≤ signed im.fs.nfree
      omega
    have heq : im.blockFree b stale = some (im.push b) := by simp [blockFree, spill, hfull]
    have hsucc : signed (im.fs.nfree + 1) = signed im.fs.nfree + 1 := by
      simp only [nicfree] at hle
      rw [hsigned, signed_of_lt (by omega), Nat.cast_add, Nat.cast_one]
    refine ⟨im.push b, heq, ?_, Nat.succ_pos _, by simp only [push]; omega, rfl, rfl, le_rfl⟩
    show _ = Filsys.push (Filsys.spill (im.toKernel sblock) b stale) b
    rw [Filsys.spill, if_neg hspill]
    simp [toKernel, Filsys.push, push, hne, hsucc, hsigned]

theorem blockFree_spec (h : im.WellFormed l) (hsmall : im.Small) (hi : im.fs.isize ≤ b) (hb : b < im.fs.fsize)
    (hl : b ∉ l) (stale : Block) :
    ∃ im', im.blockFree b stale = some im' ∧ im'.WellFormed (b :: l) ∧ im'.Small := by
  obtain ⟨im', heq, hkernel, hpos, hle, -, hfsize, hlen⟩ :=
    blockFree_toKernel h hsmall hi hb stale ⟨0, 0, 0, fun _ => 0, 0, false⟩
  have hfree := free_spec (h.consistent ⟨0, 0, 0, fun _ => 0, 0, false⟩) (good_of_mem hi hb _) hl stale
  rw [← hkernel] at hfree
  refine ⟨im', heq, .of_consistent hfree hpos hle ?_, ?_⟩
  · rw [hfsize]
    exact h.length.trans hlen
  · rw [Small, hfsize]
    exact hsmall

theorem WellFormed.tail (h : im.WellFormed (b :: l)) (hchain : FreeList im'.disk im'.fs.nfree im'.fs.free l)
    (hisize : im'.fs.isize = im.fs.isize) (hfsize : im'.fs.fsize = im.fs.fsize) (hlen : im'.length = im.length)
    (htfree : im'.fs.tfree = udecr im.fs.tfree) : im'.WellFormed l where
  chain := hchain
  isize_pos := hisize ▸ h.isize_pos
  fsize_lt := hfsize ▸ h.fsize_lt
  length := by rw [hfsize, hlen]; exact h.length
  valid c hc := by
    rw [hisize, hfsize]
    exact h.valid c (mem_cons_of_mem _ hc)
  nodup := (nodup_cons.1 h.nodup).2
  count := by
    rw [htfree, h.count]
    rfl

theorem blockAlloc_cons (h : im.WellFormed (b :: l)) (hsmall : im.Small) :
    ∃ im', im.blockAlloc = (some b, im') ∧ im'.WellFormed l ∧ im'.Small := by
  obtain ⟨hpos, -⟩ := h.nfree_pos
  obtain ⟨hbi, hbf⟩ := h.valid b mem_cons_self
  have hb : b ≠ 0 := by
    have := h.isize_pos
    omega
  have hchain := h.chain
  obtain ⟨k, hk⟩ : ∃ k, im.fs.nfree = k + 1 := ⟨im.fs.nfree - 1, by omega⟩
  rw [hk] at hchain
  cases k with
  | zero =>
    rcases hchain.pop_last with ⟨-, hnil⟩ | ⟨-, m, l', hcons, hm, hl'⟩
    · cases hnil
    · obtain ⟨rfl, rfl⟩ := List.cons.inj hcons
      have hread : im.takeLast.readBlock (im.fs.free 0) = some (im.disk (im.fs.free 0)) :=
        readBlock_of_mem hbi hbf h.length hsmall
      have heq : im.blockAlloc = (some (im.fs.free 0), im.takeLast.load (im.disk (im.fs.free 0))) := by
        rw [blockAlloc, allocLoop]
        have htake : im.takeLast.fs.nfree = 0 := by simp [takeLast, hk]
        simp [hk, htake, hread, hb]
      refine ⟨_, heq, h.tail ?_ rfl rfl rfl rfl, hsmall⟩
      have hword : word (im.disk (im.fs.free 0)) 0 = m := by
        have hlt := word_lt (im.disk (im.fs.free 0)) 0
        rw [signed] at hm
        simp only [wordMod] at hlt
        split_ifs at hm <;> omega
      show FreeList im.disk (word (im.disk (im.fs.free 0)) 0) _ l
      rw [hword]
      refine hl'.congr (fun i hi => if_pos ?_) fun _ _ => rfl
      exact hi.trans_le hl'.pos.2
  | succ k =>
    obtain ⟨l', hcons, hl'⟩ := hchain.pop
    obtain ⟨rfl, rfl⟩ := List.cons.inj hcons
    have heq : im.blockAlloc = (some (im.fs.free (k + 1)), im.takeLast) := by
      rw [blockAlloc, allocLoop]
      simp [hk, takeLast, hb]
    refine ⟨_, heq, h.tail ?_ rfl rfl rfl rfl, hsmall⟩
    have hnfree : im.takeLast.fs.nfree = k + 1 := by simp [takeLast, hk]
    rw [hnfree]
    refine hl'.congr (fun i hi => ?_) fun _ _ => rfl
    exact Function.update_of_ne (by omega) _ _

/-- An allocation from an empty list fails, but takes the sentinel and counts a block. -/
theorem blockAlloc_nil (h : im.WellFormed []) :
    im.blockAlloc = (none, im.takeLast) ∧ im.takeLast.fs.nfree = 0 ∧ im.takeLast.fs.tfree = wordMod - 1 := by
  have hpos := h.nfree_pos.1
  have hchain := h.chain
  obtain ⟨k, hk⟩ : ∃ k, im.fs.nfree = k + 1 := ⟨im.fs.nfree - 1, by omega⟩
  rw [hk] at hchain
  cases k with
  | succ k =>
    obtain ⟨l', hcons, -⟩ := hchain.pop
    cases hcons
  | zero =>
    have hfree : im.fs.free 0 = 0 := by
      rcases hchain.pop_last with ⟨hzero, -⟩ | ⟨-, m, l', hcons, -⟩
      · exact hzero
      · cases hcons
    have htake : im.takeLast.fs.nfree = 0 := by simp [takeLast, hk]
    have hread : im.takeLast.readBlock 0 = none := if_pos h.isize_pos
    refine ⟨?_, htake, ?_⟩
    · rw [blockAlloc, allocLoop]
      simp [hk, htake, hfree, hread]
    · have hcount := h.count
      simp [takeLast, hcount, udecr]

end Image

/-! ## Runs -/

inductive BlockCall
  | alloc
  | free (bno : ℕ) (stale : Block)

def Image.Allocated (im : Image) (bno : ℕ) : Prop :=
  im.fs.isize ≤ bno ∧ bno < im.fs.fsize ∧ ∀ l, im.WellFormed l → bno ∉ l

/-- One call, with what `fs_block_alloc` returns. -/
inductive Image.Step : Image → BlockCall × Option ℕ → Image → Prop
  | alloc {im : Image} : Step im (.alloc, im.blockAlloc.1) im.blockAlloc.2
  | free {im im' : Image} {bno : ℕ} {stale : Block} : im.Allocated bno → im.blockFree bno stale = some im' →
      Step im (.free bno stale, none) im'

def Image.SafeStep (im : Image) (call : BlockCall × Option ℕ) (im' : Image) : Prop :=
  im.Step call im' ∧ (call.1 = .alloc → ¬ im.WellFormed [])

inductive StackStep : List ℕ → BlockCall × Option ℕ → List ℕ → Prop
  | pop {b : ℕ} {l : List ℕ} : StackStep (b :: l) (.alloc, some b) l
  | empty : StackStep [] (.alloc, none) []
  | push {b : ℕ} {l : List ℕ} {stale : Block} : b ∉ l → StackStep l (.free b stale, none) (b :: l)

variable {im im' : Image} {l : List ℕ}

theorem Image.WellFormed.step {call : BlockCall × Option ℕ} (h : im.WellFormed l) (hsmall : im.Small)
    (hstep : im.SafeStep call im') : ∃ l', StackStep l call l' ∧ im'.WellFormed l' ∧ im'.Small := by
  obtain ⟨hstep, hsafe⟩ := hstep
  cases hstep with
  | alloc =>
    cases l with
    | nil => exact absurd h (hsafe rfl)
    | cons b l =>
      obtain ⟨im₁, heq, hwf, hsmall1⟩ := blockAlloc_cons h hsmall
      rw [heq]
      exact ⟨l, .pop, hwf, hsmall1⟩
  | @free _ bno stale halloc hfree =>
    obtain ⟨hi, hb, hl⟩ := halloc
    obtain ⟨im₁, heq, hwf, hsmall1⟩ := blockFree_spec h hsmall hi hb (hl l h) stale
    obtain rfl : im₁ = im' := Option.some.inj (heq.symm.trans hfree)
    exact ⟨bno :: l, .push (hl l h), hwf, hsmall1⟩

/-- Once the sentinel is gone there is no well-formed list. -/
theorem Image.WellFormed.not_of_nil (h : im.WellFormed []) : ¬∃ l, im.blockAlloc.2.WellFormed l := by
  rintro ⟨l, hl⟩
  obtain ⟨heq, hzero, -⟩ := blockAlloc_nil h
  rw [heq] at hl
  exact absurd hzero hl.nfree_pos.1.ne'

/-- In an image of at most 2^22 blocks the free list is a stack, to the tool and to the
kernel, in every run in which nothing is allocated from an empty list; such an allocation
fails, and leaves no list behind. -/
theorem run_is_stack {im₀ : Image} {l₀ : List ℕ} {calls : List (BlockCall × Option ℕ)} (h₀ : im₀.WellFormed l₀)
    (hsmall : im₀.Small) (hrun : Run SafeStep im₀ calls im) :
    ∃ l, Run StackStep l₀ calls l ∧ im.WellFormed l ∧ im.fs.tfree = l.length ∧
      (∀ sblock, (im.toKernel sblock).Consistent l) ∧ im.blockAlloc.1 = l.head? ∧
      ((∃ l', im.blockAlloc.2.WellFormed l') ↔ l ≠ []) := by
  have hsim : ∀ (s : Image) call s' l, s.WellFormed l ∧ s.Small → s.SafeStep call s' →
      ∃ l', StackStep l call l' ∧ s'.WellFormed l' ∧ s'.Small :=
    fun s call s' l h hstep => h.1.step h.2 hstep
  obtain ⟨l, hstack, hwf, hsmall'⟩ := hrun.simulation hsim ⟨h₀, hsmall⟩
  refine ⟨l, hstack, hwf, hwf.count, hwf.consistent, ?_⟩
  cases l with
  | nil => exact ⟨by rw [(blockAlloc_nil hwf).1]; rfl, iff_of_false hwf.not_of_nil (not_not.2 rfl)⟩
  | cons b l =>
    obtain ⟨im₁, heq, hwf₁, -⟩ := blockAlloc_cons hwf hsmall'
    rw [heq]
    exact ⟨rfl, iff_of_true ⟨l, hwf₁⟩ (cons_ne_nil b l)⟩

/-- An image of ten blocks, two of them for inodes, with an empty free list. Block 5 holds
the words 2, 0 and 9. -/
def demoImage : Image where
  fs := ⟨2, 10, 0, 1, fun _ => 0, 0, fun _ => 0, 0, 0, false, false⟩
  disk := fun b i => if b = 5 ∧ i = 0 then 2 else if b = 5 ∧ i = 8 then 9 else 0
  length := 10

theorem demoImage_wellFormed : demoImage.WellFormed [] :=
  ⟨.last (by decide) rfl, by decide, by decide, by decide, by simp, nodup_nil, rfl⟩

theorem Image.Step.of_alloc {r : Option ℕ} (h : im.blockAlloc.1 = r) : im.Step (.alloc, r) im.blockAlloc.2 := by
  rw [← h]
  exact .alloc

/-- After a failed allocation a freed block is taken for a chain block: with block 5 freed,
block 9 is handed out, which never was free. -/
theorem alloc_after_failure : demoImage.WellFormed [] ∧ demoImage.blockAlloc.2.fs.tfree = wordMod - 1 ∧
    ∃ im, Run Step demoImage
      [(.alloc, none), (.free 5 zeroBlock, none), (.alloc, some 5), (.alloc, some 9)] im := by
  obtain ⟨-, -, htfree⟩ := blockAlloc_nil demoImage_wellFormed
  have hsecond : demoImage.blockAlloc.2.Allocated 5 := by
    refine ⟨by decide, by decide, fun l hl => ?_⟩
    exact absurd ⟨l, hl⟩ demoImage_wellFormed.not_of_nil
  have hfree : demoImage.blockAlloc.2.blockFree 5 zeroBlock = some (demoImage.blockAlloc.2.push 5) := rfl
  refine ⟨demoImage_wellFormed, by exact htfree, _, .cons (.of_alloc ?_) (.cons (.free hsecond hfree)
    (.cons (.of_alloc ?_) (.cons (.of_alloc ?_) (.nil _))))⟩
  all_goals decide +kernel

/-- A freed block is allocated again. -/
theorem run_is_stack_again : ∃ im calls, Run SafeStep demoImage calls im ∧ calls.length = 2 ∧
    ∃ l, Run StackStep [] calls l ∧ im.WellFormed l ∧ im.fs.tfree = l.length ∧
      (∀ sblock, (im.toKernel sblock).Consistent l) ∧ im.blockAlloc.1 = l.head? ∧
      ((∃ l', im.blockAlloc.2.WellFormed l') ↔ l ≠ []) := by
  have hsmall : demoImage.Small := show 10 ≤ 2 ^ 22 by decide
  have hfirst : demoImage.Allocated 5 := by
    refine ⟨by decide, by decide, fun l hl => ?_⟩
    rw [hl.chain.unique demoImage_wellFormed.chain]
    exact not_mem_nil
  have hfree : demoImage.blockFree 5 zeroBlock = some (demoImage.push 5) := rfl
  obtain ⟨im₁, heq, hwf, -⟩ := blockFree_spec demoImage_wellFormed hsmall hfirst.1 hfirst.2.1
    not_mem_nil zeroBlock
  obtain rfl : demoImage.push 5 = im₁ := Option.some.inj (hfree.symm.trans heq)
  have hrun : Run SafeStep demoImage [(.free 5 zeroBlock, none), (.alloc, (demoImage.push 5).blockAlloc.1)]
      (demoImage.push 5).blockAlloc.2 := by
    refine .cons ⟨.free hfirst hfree, fun h => by cases h⟩ (.cons ⟨.alloc, fun _ hnil => ?_⟩ (.nil _))
    cases hnil.chain.unique hwf.chain
  exact ⟨_, _, hrun, rfl, run_is_stack demoImage_wellFormed hsmall hrun⟩

end RetroBSD.Fsutil
