import RetroBSD.FreeBlocks
import RetroBSD.Runs
import Mathlib

/-!
# The free-block list is a stack

Following the list from the superblock through the blocks that continue it gives
one list of block numbers. `free` pushes on it and `balloc` pops from it, and the
blocks the list passes through are themselves on it, so whoever writes only
allocated blocks cannot disturb it.
-/

namespace RetroBSD.Ufs

open LittleEndian Runs Function List Filsys

def upper (f : ℕ → ℕ) : ℕ → List ℕ
  | 0 => []
  | k + 1 => f (k + 1) :: upper f k

/-- `FreeList disk n f l`: the array `f` with `n` entries continues to the list `l`. -/
inductive FreeList (disk : ℕ → Block) : ℕ → (ℕ → ℕ) → List ℕ → Prop
  | last {k : ℕ} {f : ℕ → ℕ} : k < nicfree → f 0 = 0 → FreeList disk (k + 1) f (upper f k)
  | link {k n : ℕ} {f : ℕ → ℕ} {l : List ℕ} : k < nicfree → f 0 ≠ 0 →
      signed (word (disk (f 0)) 0) = n → FreeList disk n (fun i => word (disk (f 0)) (i + 1)) l →
      FreeList disk (k + 1) f (upper f k ++ f 0 :: l)

def Filsys.Listed (st : Filsys) (l : List ℕ) : Prop :=
  (st.fs.fsNfree ≤ 0 ∧ l = []) ∨ ∃ n : ℕ, st.fs.fsNfree = n ∧ FreeList st.disk n st.fs.fsFree l

structure Filsys.Consistent (st : Filsys) (l : List ℕ) : Prop where
  listed : st.Listed l
  isize_pos : 0 < st.fs.fsIsize
  fsize_lt : st.fs.fsFsize < wordMod
  valid : ∀ b ∈ l, ¬ badblock st.fs b
  nodup : l.Nodup
  count : st.fs.fsTfree = l.length

section FreeList

variable {disk disk' : ℕ → Block} {n : ℕ} {f g : ℕ → ℕ} {l l' : List ℕ} {k : ℕ}

theorem upper_congr (h : ∀ i, i ≤ k → f i = g i) : upper f k = upper g k := by
  induction k with
  | zero => rfl
  | succ k ih => rw [upper, upper, h _ le_rfl, ih fun i hi => h i (by omega)]

theorem mem_upper {i : ℕ} (hi : 0 < i) (hk : i ≤ k) : f i ∈ upper f k := by
  induction k with
  | zero => omega
  | succ k ih =>
    rcases Nat.lt_or_ge k i with h | h
    · obtain rfl : i = k + 1 := by omega
      exact mem_cons_self
    · exact mem_cons_of_mem _ (ih h)

variable (h : FreeList disk n f l)
include h

theorem FreeList.pos : 0 < n ∧ n ≤ nicfree := by
  cases h with
  | last | link => omega

theorem FreeList.congr (hf : ∀ i, i < n → g i = f i)
    (hd : ∀ b ∈ l, disk' b = disk b) : FreeList disk' n g l := by
  induction h generalizing g with
  | @last k f hk h0 =>
    rw [← upper_congr fun i hi => hf i (by omega)]
    exact .last hk (by rw [hf 0 (by omega), h0])
  | @link k n f l hk h0 hn _ ih =>
    have he : g 0 = f 0 := hf 0 (by omega)
    have hb : disk' (f 0) = disk (f 0) := hd _ (by simp)
    rw [← upper_congr fun i hi => hf i (by omega), ← he]
    refine .link hk (by rwa [he]) (by rwa [he, hb]) ?_
    rw [he, hb]
    exact ih (fun _ _ => rfl) fun b hb' => hd b (by simp [hb'])

theorem FreeList.mem {i : ℕ} (hi : i < n) (hne : f i ≠ 0) : f i ∈ l := by
  cases h with
  | last hk h0 =>
    rcases Nat.eq_zero_or_pos i with rfl | hpos
    · exact absurd h0 hne
    · exact mem_upper hpos (by omega)
  | link hk h0 hn hl =>
    rcases Nat.eq_zero_or_pos i with rfl | hpos
    · simp
    · exact mem_append_left _ (mem_upper hpos (by omega))

theorem FreeList.unique (h' : FreeList disk n f l') : l = l' := by
  induction h generalizing l' with
  | @last k f hk h0 =>
    cases h' with
    | last _ _ => rfl
    | link _ hne _ _ => exact absurd h0 hne
  | @link k n f l hk hne hn _ ih =>
    cases h' with
    | last _ h0 => exact absurd h0 hne
    | @link _ m _ l₁ _ _ hm hl =>
      obtain rfl : m = n := by omega
      rw [ih hl]

theorem FreeList.push (hn : n < nicfree) (b : ℕ) : FreeList disk (n + 1) (update f n b) (b :: l) := by
  have hold : ∀ k, n = k + 1 → upper (update f n b) n = b :: upper f k := by
    rintro k rfl
    rw [upper, update_self]
    exact congrArg _ (upper_congr fun i hi => update_of_ne (by omega) _ _)
  cases h with
  | @last k _ hk h0 =>
    rw [← hold k rfl]
    exact .last hn (by rw [update_of_ne (by omega), h0])
  | @link k m _ l hk h0 hm hl =>
    have he : update f (k + 1) b 0 = f 0 := update_of_ne (by omega) _ _
    rw [← cons_append, ← hold k rfl]
    exact .link hn (by rwa [he]) (by rwa [he]) (by rwa [he])

omit h

variable {b : ℕ}

theorem FreeList.single (he : f 0 = b) (hb : b ≠ 0) (hn : signed (word (disk b) 0) = n)
    (h : FreeList disk n (fun i => word (disk b) (i + 1)) l) : FreeList disk 1 f (b :: l) := by
  subst he
  exact .link (by decide) hb hn h

theorem FreeList.pop (h : FreeList disk (k + 2) f l) :
    ∃ l', l = f (k + 1) :: l' ∧ FreeList disk (k + 1) f l' := by
  cases h with
  | last hk h0 => exact ⟨_, rfl, .last (by omega) h0⟩
  | link hk h0 hm hl => exact ⟨_, rfl, .link (by omega) h0 hm hl⟩

/-- Popping the last entry: it ends the list, or the block it names continues it. -/
theorem FreeList.pop_last (h : FreeList disk 1 f l) :
    (f 0 = 0 ∧ l = []) ∨ (f 0 ≠ 0 ∧ ∃ (m : ℕ) (l' : List ℕ), l = f 0 :: l' ∧
      signed (word (disk (f 0)) 0) = m ∧ FreeList disk m (fun i => word (disk (f 0)) (i + 1)) l') := by
  cases h with
  | last hk h0 => exact .inl ⟨h0, rfl⟩
  | link hk h0 hm hl => exact .inr ⟨h0, _, _, rfl, hm, hl⟩

end FreeList

variable {st st' : Filsys} {l : List ℕ} {bno : ℕ} {l' : List ℕ}

theorem Filsys.Listed.unique (h : st.Listed l) (h' : st.Listed l') : l = l' := by
  rcases h with ⟨hn, rfl⟩ | ⟨n, hn, hl⟩ <;> rcases h' with ⟨hn', rfl⟩ | ⟨n', hn', hl'⟩
  · rfl
  · have := hl'.pos
    omega
  · have := hl.pos
    omega
  · obtain rfl : n = n' := by omega
    exact hl.unique hl'

variable {fs : Fs}

theorem badblock_zero (h : 0 < fs.fsIsize) : badblock fs 0 := .inl h

theorem FreeList.store {disk : ℕ → Block} {n : ℕ} (h : FreeList disk n fs.fsFree l)
    (hn : fs.fsNfree = n) (hlt : ∀ b ∈ l, b < wordMod) (hb : bno ∉ l) (stale : Block) :
    signed (word (fs.store stale) 0) = n ∧
      FreeList (update disk bno (fs.store stale)) n (fun i => word (fs.store stale) (i + 1)) l := by
  have hle := h.pos.2
  simp only [nicfree] at hle
  constructor
  · rw [Fs.store, word_setWords, if_pos (by simp [nicfree]), if_pos rfl, hn]
    have : ((n : ℤ) % (wordMod : ℤ)).toNat % wordMod = n := by
      simp only [wordMod]
      omega
    rw [this, signed_of_lt (by omega)]
  · refine h.congr (fun i hi => ?_) (fun b hb' => update_of_ne ?_ _ _)
    · rw [Fs.store, word_setWords, if_pos (by simp only [nicfree]; omega), Nat.add_sub_cancel]
      by_cases hz : fs.fsFree i = 0
      · rw [hz]
        rfl
      · exact Nat.mod_eq_of_lt (hlt _ (h.mem hi hz))
    · rintro rfl
      exact hb hb'

theorem Filsys.Consistent.lt (h : st.Consistent l) : ∀ b ∈ l, b < wordMod := by
  intro b hb
  have hv := h.valid b hb
  have := h.fsize_lt
  simp only [badblock] at hv
  omega

theorem Filsys.Consistent.listed_free (h : st.Consistent l) (hb : ¬ badblock st.fs bno) (hl : bno ∉ l)
    (stale : Block) : (Ufs.free st bno stale).Listed (bno :: l) := by
  have hne : bno ≠ 0 := by
    rintro rfl
    exact hb (badblock_zero h.isize_pos)
  rw [Ufs.free, if_neg hb]
  rcases h.listed with ⟨hn, rfl⟩ | ⟨n, hn, hlist⟩
  · refine .inr ⟨2, ?_, ?_⟩
    · simp [push, spill, Fs.begin, hn, nicfree]
    · have : FreeList st.disk 1 (update st.fs.fsFree 0 0) [] :=
        .last (by decide) (update_self _ _ _)
      simpa [push, spill, Fs.begin, hn, nicfree] using this.push (by decide) bno
  · have hpos := hlist.pos
    have hbegin : st.fs.begin = st.fs := if_neg (by omega)
    rw [hbegin]
    by_cases hfull : n = nicfree
    · have hspill : (nicfree : ℤ) ≤ st.fs.fsNfree := by omega
      obtain ⟨hs, hrest⟩ := hlist.store hn h.lt hl stale
      refine .inr ⟨1, ?_, ?_⟩
      · simp [push, spill, hspill, Fs.setNfree]
      · have hone : FreeList (update st.disk bno (st.fs.store stale)) 1
            (update st.fs.fsFree 0 bno) (bno :: l) :=
          .single (update_self _ _ _) hne (by rwa [update_self]) (by rwa [update_self])
        simpa [push, spill, hspill, Fs.setNfree] using hone
    · have hspill : ¬ nicfree ≤ n := by omega
      refine .inr ⟨n + 1, ?_, ?_⟩
      · simp [push, spill, hspill, hn]
      · simpa [push, spill, hspill, hn] using hlist.push (by omega) bno

theorem length_le_fsize (hnodup : l.Nodup) (hvalid : ∀ b ∈ l, ¬ badblock fs b) :
    l.length ≤ fs.fsFsize := by
  rw [← toFinset_card_of_nodup hnodup, ← Finset.card_range fs.fsFsize]
  apply Finset.card_le_card
  intro b hb
  have := hvalid b (mem_toFinset.1 hb)
  simp only [badblock] at this
  exact Finset.mem_range.2 (by omega)

theorem free_fs (st : Filsys) (bno : ℕ) (stale : Block) (hb : ¬ badblock st.fs bno) :
    (free st bno stale).fs.fsIsize = st.fs.fsIsize ∧ (free st bno stale).fs.fsFsize = st.fs.fsFsize ∧
      (free st bno stale).fs.fsTfree = uincr st.fs.fsTfree := by
  simp [free, hb, push]

variable {b : ℕ}

theorem free_disk (st : Filsys) (bno : ℕ) (stale : Block) (hb : b ≠ bno) :
    (free st bno stale).disk b = st.disk b := by
  unfold free
  split
  · rfl
  · unfold push spill
    dsimp only
    split
    · exact update_of_ne hb _ _
    · rfl

theorem free_uError (st : Filsys) (bno : ℕ) (stale : Block) :
    (free st bno stale).uError = st.uError := by
  unfold free
  split
  · rfl
  · unfold push spill
    dsimp only
    split <;> rfl

theorem free_spec (h : st.Consistent l) (hb : ¬ badblock st.fs bno) (hl : bno ∉ l) (stale : Block) :
    (free st bno stale).Consistent (bno :: l) := by
  obtain ⟨hisize, hfsize, htfree⟩ := free_fs st bno stale hb
  have hbad : ∀ b, badblock (free st bno stale).fs b ↔ badblock st.fs b := by
    intro b
    simp only [badblock, hisize, hfsize]
  have hnodup := nodup_cons.2 ⟨hl, h.nodup⟩
  have hvalid : ∀ b ∈ bno :: l, ¬ badblock st.fs b := by
    intro b hb'
    rcases mem_cons.1 hb' with rfl | hb'
    · exact hb
    · exact h.valid b hb'
  refine ⟨h.listed_free hb hl stale, by rw [hisize]; exact h.isize_pos,
    by rw [hfsize]; exact h.fsize_lt, ?_, hnodup, ?_⟩
  · intro b hb'
    rw [hbad]
    exact hvalid b hb'
  · have hlt := (length_le_fsize hnodup hvalid).trans_lt h.fsize_lt
    rw [length_cons] at hlt ⊢
    rw [htfree, h.count, uincr, if_neg hlt.ne]

variable {k : ℕ}

theorem takeFree_of_good (h0 : fs.fsFree k ≠ 0) (hb : ¬ badblock fs (fs.fsFree k)) :
    takeFree fs (k + 1) = some (fs.fsFree k, k) := by
  rw [takeFree, if_neg h0, if_neg hb]

theorem Filsys.Consistent.nospace (h : st.Consistent []) : st.nospace.Consistent [] :=
  ⟨.inl ⟨le_rfl, rfl⟩, h.isize_pos, h.fsize_lt, by simp, nodup_nil, rfl⟩

theorem handOut_listed : st.handOut.Listed l ↔ st.Listed l := Iff.rfl

theorem Filsys.Consistent.handOut (h : st.Consistent (b :: l))
    (hfs : st'.fs.fsIsize = st.fs.fsIsize) (hfs' : st'.fs.fsFsize = st.fs.fsFsize)
    (ht : st'.fs.fsTfree = st.fs.fsTfree) (hlist : st'.Listed l) : st'.handOut.Consistent l := by
  refine ⟨handOut_listed.2 hlist, hfs.symm ▸ h.isize_pos, hfs'.symm ▸ h.fsize_lt, ?_,
    (nodup_cons.1 h.nodup).2, ?_⟩
  · intro c hc
    change ¬ (c < st'.fs.fsIsize ∨ st'.fs.fsFsize ≤ c)
    rw [hfs, hfs']
    exact h.valid c (mem_cons_of_mem _ hc)
  · change udecr st'.fs.fsTfree = l.length
    rw [ht, h.count]
    rfl

theorem balloc_spec (h : st.Consistent l) (clrbuf : Bool) (stale : Block) :
    (l = [] ∧ balloc st clrbuf stale = (none, st.nospace)) ∨
      ∃ b l' st', l = b :: l' ∧ st'.Consistent l' ∧ st'.disk = st.disk ∧ st'.uError = st.uError ∧
        st'.fs.fsIsize = st.fs.fsIsize ∧ st'.fs.fsFsize = st.fs.fsFsize ∧
        balloc st clrbuf stale = (some (b, if clrbuf then zeroBlock else stale), st') := by
  rcases h.listed with ⟨hn, rfl⟩ | ⟨n, hn, hlist⟩
  · refine .inl ⟨rfl, ?_⟩
    have : st.fs.fsNfree.toNat = 0 := by omega
    rw [balloc, if_neg (by omega), this, takeFree]
  · have hpos := hlist.pos
    have hle : ¬ (nicfree : ℤ) < st.fs.fsNfree := by omega
    have hgood : ∀ b ∈ l, b ≠ 0 := by
      rintro b hb rfl
      exact h.valid 0 hb (badblock_zero h.isize_pos)
    rw [balloc, if_neg hle, hn, Int.toNat_natCast]
    obtain ⟨k, rfl⟩ : ∃ k, n = k + 1 := ⟨n - 1, by omega⟩
    cases k with
    | zero =>
      rcases hlist.pop_last with ⟨h0, rfl⟩ | ⟨h0, m, l', rfl, hm, hl'⟩
      · exact .inl ⟨rfl, by rw [takeFree, if_pos h0]⟩
      · rw [takeFree_of_good h0 (h.valid _ mem_cons_self)]
        have hnf : ¬ (st.reload (st.fs.fsFree 0)).fs.fsNfree ≤ 0 := by
          have := hl'.pos
          change ¬ signed (word (st.disk (st.fs.fsFree 0)) 0) ≤ 0
          omega
        refine .inr ⟨_, l', (st.reload (st.fs.fsFree 0)).handOut, rfl, ?_, rfl, rfl, rfl, rfl, ?_⟩
        · exact h.handOut rfl rfl rfl (.inr ⟨m, hm, hl'⟩)
        · simp only [↓reduceIte, if_neg hnf]
    | succ k =>
      obtain ⟨l', rfl, hl'⟩ := hlist.pop
      rw [takeFree_of_good (hgood _ mem_cons_self) (h.valid _ mem_cons_self)]
      refine .inr ⟨_, l', handOut ⟨st.fs.setNfree (k + 1 : ℕ), st.sblock, st.disk, st.uError⟩,
        rfl, ?_, rfl, rfl, rfl, rfl, ?_⟩
      · exact h.handOut rfl rfl rfl (.inr ⟨k + 1, rfl, hl'⟩)
      · simp only [if_neg (Nat.succ_ne_zero k)]

/-! ## Runs -/

inductive Call
  | balloc (clrbuf : Bool) (stale : Block)
  | free (bno : ℕ) (stale : Block)
  | write (bno : ℕ) (data : Block)

def Filsys.Allocated (st : Filsys) (bno : ℕ) : Prop :=
  ¬ badblock st.fs bno ∧ ∀ l, st.Listed l → bno ∉ l

/-- One call, with the block or the error that `balloc` returns. Between the calls
of the allocator the owners of allocated blocks write to them. -/
inductive Filsys.Step : Filsys → Call × Option (Except ℕ ℕ) → Filsys → Prop
  | balloc {st st' : Filsys} {clrbuf : Bool} {stale contents : Block} {b : ℕ} :
      Ufs.balloc st clrbuf stale = (some (b, contents), st') →
      Step st (.balloc clrbuf stale, some (.ok b)) st'
  | full {st st' : Filsys} {clrbuf : Bool} {stale : Block} :
      Ufs.balloc st clrbuf stale = (none, st') →
      Step st (.balloc clrbuf stale, some (.error st'.uError)) st'
  | free {st : Filsys} {bno : ℕ} {stale : Block} : st.Allocated bno →
      Step st (.free bno stale, none) (Ufs.free st bno stale)
  | write {st : Filsys} {bno : ℕ} {data : Block} : st.Allocated bno →
      Step st (.write bno data, none) ⟨st.fs, st.sblock, update st.disk bno data, st.uError⟩

inductive StackStep : List ℕ → Call × Option (Except ℕ ℕ) → List ℕ → Prop
  | pop {b : ℕ} {l : List ℕ} {clrbuf : Bool} {stale : Block} :
      StackStep (b :: l) (.balloc clrbuf stale, some (.ok b)) l
  | empty {clrbuf : Bool} {stale : Block} :
      StackStep [] (.balloc clrbuf stale, some (.error enospc)) []
  | push {b : ℕ} {l : List ℕ} {stale : Block} : b ∉ l → StackStep l (.free b stale, none) (b :: l)
  | write {b : ℕ} {l : List ℕ} {data : Block} : b ∉ l → StackStep l (.write b data, none) l

theorem Filsys.Consistent.write (h : st.Consistent l) (hb : bno ∉ l) (data : Block) :
    Consistent ⟨st.fs, st.sblock, update st.disk bno data, st.uError⟩ l := by
  refine ⟨?_, h.isize_pos, h.fsize_lt, h.valid, h.nodup, h.count⟩
  rcases h.listed with hnil | ⟨n, hn, hl⟩
  · exact .inl hnil
  · refine .inr ⟨n, hn, hl.congr (fun _ _ => rfl) fun b hb' => update_of_ne ?_ _ _⟩
    rintro rfl
    exact hb hb'

theorem Filsys.Step.stack {call : Call × Option (Except ℕ ℕ)} (h : st.Consistent l)
    (hstep : st.Step call st') : ∃ l', StackStep l call l' ∧ st'.Consistent l' := by
  cases hstep with
  | @balloc _ clrbuf stale contents b hb =>
    rcases balloc_spec h clrbuf stale with ⟨rfl, hnone⟩ | ⟨b', l', st1, rfl, hst1, -, -, -, -, hsome⟩
    · rw [hb] at hnone
      cases hnone
    · rw [hb] at hsome
      cases hsome
      exact ⟨l', .pop, hst1⟩
  | @full _ clrbuf stale hb =>
    rcases balloc_spec h clrbuf stale with ⟨rfl, hnone⟩ | ⟨b', l', st1, rfl, hst1, -, -, -, -, hsome⟩
    · rw [hb] at hnone
      cases hnone
      exact ⟨[], .empty, h.nospace⟩
    · rw [hb] at hsome
      cases hsome
  | @free bno stale ha =>
    have hl := ha.2 l h.listed
    exact ⟨bno :: l, .push hl, free_spec h ha.1 hl stale⟩
  | @write bno data ha =>
    have hl := ha.2 l h.listed
    exact ⟨l, .write hl, h.write hl data⟩

theorem StackStep.nodup {call : Call × Option (Except ℕ ℕ)} (h : l.Nodup)
    (hstep : StackStep l call l') : l'.Nodup := by
  cases hstep with
  | pop => exact (nodup_cons.1 h).2
  | empty => exact h
  | push hb => exact nodup_cons.2 ⟨hb, h⟩
  | write => exact h

/-- A block that is not on the stack is handed out only after it has been freed. -/
theorem StackStep.freed_before {calls : List (Call × Option (Except ℕ ℕ))}
    (hrun : Run StackStep l calls l') (hb : b ∉ l) {clrbuf : Bool} {stale : Block}
    {mid post : List (Call × Option (Except ℕ ℕ))}
    (hcalls : calls = mid ++ (.balloc clrbuf stale, some (.ok b)) :: post) :
    ∃ s, (.free b s, none) ∈ mid := by
  induction hrun generalizing mid with
  | nil l => simp at hcalls
  | @cons l l₁ l' call calls hstep hrest ih =>
    cases mid with
    | nil =>
      obtain ⟨rfl, rfl⟩ := List.cons.inj hcalls
      cases hstep
      exact absurd mem_cons_self hb
    | cons c mid =>
      obtain ⟨rfl, rfl⟩ := List.cons.inj hcalls
      by_cases hb1 : b ∈ l₁
      · -- the first call put `b` on the stack
        cases hstep with
        | pop => exact absurd (mem_cons_of_mem _ hb1) hb
        | empty => exact absurd hb1 hb
        | @push b' _ s _ =>
          rcases mem_cons.1 hb1 with rfl | hb1
          · exact ⟨s, mem_cons_self⟩
          · exact absurd hb1 hb
        | write => exact absurd hb1 hb
      · obtain ⟨s, hs⟩ := ih hb1 rfl
        exact ⟨s, mem_cons_of_mem _ hs⟩

/-- The free list on disk is a stack: whatever the calls, following the list gives
the stack the same calls produce, `fs_tfree` counts it, and no block is handed out
twice without being freed in between. -/
theorem run_refines_stack {calls : List (Call × Option (Except ℕ ℕ))} (h : st.Consistent l)
    (hrun : Run Step st calls st') :
    ∃ l', Run StackStep l calls l' ∧ st'.Consistent l' ∧ (∀ l₁, st'.Listed l₁ ↔ l₁ = l') ∧
      ∀ pre mid post clrbuf clrbuf' stale stale' b,
        calls = pre ++ (.balloc clrbuf stale, some (.ok b)) ::
          (mid ++ (.balloc clrbuf' stale', some (.ok b)) :: post) →
        ∃ s, (.free b s, none) ∈ mid := by
  obtain ⟨l', hstack, hst'⟩ := hrun.simulation (fun _ _ _ _ hR hstep => hstep.stack hR) h
  refine ⟨l', hstack, hst', fun l₁ => ⟨fun h₁ => h₁.unique hst'.listed, ?_⟩, ?_⟩
  · rintro rfl
    exact hst'.listed
  · rintro pre mid post clrbuf clrbuf' stale stale' b rfl
    obtain ⟨m, hpre, hrest⟩ := hstack.split
    have hm : m.Nodup := hpre.invariant (fun _ _ _ hl hstep => StackStep.nodup hl hstep) h.nodup
    cases hrest with
    | cons hpop hrest =>
      cases hpop
      exact StackStep.freed_before hrest (nodup_cons.1 hm).1 rfl

def fullVolume : Filsys :=
  ⟨⟨2, 10, 1, fun _ => 0, 0, false⟩, ⟨2, 10, 1, fun _ => 0, 0, false⟩, fun _ => zeroBlock, 0⟩

theorem fullVolume_consistent : fullVolume.Consistent [] :=
  ⟨.inr ⟨1, rfl, .last (by decide) rfl⟩, by decide, by decide, by simp, nodup_nil, rfl⟩

/-- One block is freed and handed out again. -/
theorem run_refines_stack_full_volume :
    ∃ st', fullVolume.Consistent [] ∧ Run Step fullVolume
      [(.free 5 zeroBlock, none), (.balloc true zeroBlock, some (.ok 5))] st' ∧
      st'.Consistent [] := by
  have hst := fullVolume_consistent
  have hfive : fullVolume.Allocated 5 := by
    refine ⟨by decide, fun l hl => ?_⟩
    rw [hl.unique hst.listed]
    exact not_mem_nil
  obtain ⟨st', hrun⟩ : ∃ st', Run Step fullVolume
      [(.free 5 zeroBlock, none), (.balloc true zeroBlock, some (.ok 5))] st' :=
    ⟨_, .cons (.free hfive) (.cons (.balloc rfl) (.nil _))⟩
  obtain ⟨l', hstack, hst', -⟩ := run_refines_stack hst hrun
  cases hstack with
  | cons hpush hstack =>
    cases hpush
    cases hstack with
    | cons hpop hstack =>
      cases hpop
      cases hstack
      exact ⟨st', hst, hrun, hst'⟩

end RetroBSD.Ufs
