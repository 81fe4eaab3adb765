import RetroBSD.Clist
import Mathlib

/-!
# The blocks of a queue

`Holds` describes the characters between two pointers along a list of blocks; it
allows the last block to be still empty, as it is between the moment a block is
taken and the first character. A queue is such a list with its count.
-/

namespace RetroBSD.Tty

open LittleEndian ByteCopy List

def IsBlock (b : ℕ) : Prop := b % cblock = 0 ∧ b ≠ 0 ∧ b < wordMod

inductive Holds (mem : Memory) : ℕ → List ℕ → ℕ → List UInt8 → Prop
  | last {b cf cl : ℕ} : b + 4 ≤ cf → cf < b + cblock → cf ≤ cl → cl ≤ b + cblock →
      Holds mem cf [b] cl (bytes mem cf (cl - cf))
  | link {b c cf cl : ℕ} {bs : List ℕ} {q : List UInt8} : b + 4 ≤ cf → cf < b + cblock →
      word mem (b / 4) = c → Holds mem (c + 4) (c :: bs) cl q →
      Holds mem cf (b :: c :: bs) cl (bytes mem cf (b + cblock - cf) ++ q)

inductive Free (mem : Memory) : ℕ → List ℕ → Prop
  | nil : Free mem 0 []
  | cons {b : ℕ} {bs : List ℕ} : b ≠ 0 → Free mem (word mem (b / 4)) bs → Free mem b (b :: bs)

structure Queue (mem : Memory) (p : Clist) (bs : List ℕ) (q : List UInt8) : Prop where
  count : p.cCc = q.length
  chars : (q = [] ∧ bs = [] ∧ p.cCf = 0 ∧ p.cCl = 0) ∨
    (q ≠ [] ∧ p.cCl % cblock ≠ 4 ∧ Holds mem p.cCf bs p.cCl q)

def tailRoom (cl : ℕ) : ℕ := (cblock - cl % cblock) % cblock

theorem cbase_eq {a b : ℕ} (hb : b % cblock = 0) (h1 : b ≤ a) (h2 : a < b + cblock) : cbase a = b := by
  simp only [cbase, cblock] at *
  omega

section Holds

variable {mem mem' : Memory} {cf cl n : ℕ} {bs : List ℕ} {q : List UInt8}

variable (h : Holds mem cf bs cl q)
include h

theorem Holds.congr (hal : ∀ b ∈ bs, b % cblock = 0)
    (hchar : ∀ a, cbase a ∈ bs → 4 ≤ a % cblock → mem' a = mem a)
    (hlink : ∀ b ∈ bs.dropLast, word mem' (b / 4) = word mem (b / 4)) : Holds mem' cf bs cl q := by
  have hbytes : ∀ {b cf n : ℕ}, b ∈ bs → b + 4 ≤ cf → cf + n ≤ b + cblock →
      bytes mem cf n = bytes mem' cf n := by
    intro b cf n hb h1 h2
    apply bytes_congr
    intro i hi
    have hbase := cbase_eq (hal b hb) (show b ≤ cf + i by omega) (by omega)
    refine (hchar _ (hbase ▸ hb) ?_).symm
    have := hal b hb
    simp only [cblock] at *
    omega
  induction h with
  | @last b cf cl h1 h2 h3 h4 =>
    rw [hbytes mem_cons_self h1 (by omega)]
    exact .last h1 h2 h3 h4
  | @link b c cf cl bs q h1 h2 h3 _ ih =>
    rw [hbytes mem_cons_self h1 (by omega)]
    refine .link h1 h2 ?_ (ih ?_ ?_ ?_ ?_)
    · rw [hlink b (by simp), h3]
    · exact fun d hd => hal d (mem_cons_of_mem _ hd)
    · exact fun a ha => hchar a (mem_cons_of_mem _ ha)
    · exact fun d hd => hlink d (by exact mem_cons_of_mem _ hd)
    · exact fun hd => hbytes (mem_cons_of_mem _ hd)

theorem Holds.front : ∃ b bs', bs = b :: bs' ∧ b + 4 ≤ cf ∧ cf < b + cblock := by
  cases h with
  | last h1 h2 | link h1 h2 => exact ⟨_, _, rfl, h1, h2⟩

theorem Holds.back : ∃ bs' b, bs = bs' ++ [b] ∧ b + 4 ≤ cl ∧ cl ≤ b + cblock := by
  induction h with
  | last h1 h2 h3 h4 => exact ⟨[], _, rfl, by omega, h4⟩
  | @link b c _ _ _ _ _ _ _ _ ih =>
    obtain ⟨bs', d, heq, h⟩ := ih
    exact ⟨b :: bs', d, by rw [heq]; rfl, h⟩

theorem Holds.linked : bs.IsChain fun b c => word mem (b / 4) = c := by
  induction h with
  | last => exact isChain_singleton _
  | link _ _ h3 _ ih => exact isChain_cons_cons.2 ⟨h3, ih⟩

theorem Holds.capacity (hal : ∀ b ∈ bs, b % cblock = 0) :
    cbsize * bs.length + 4 = cf % cblock + q.length + tailRoom cl := by
  induction h with
  | @last b cf cl h1 h2 h3 h4 =>
    have := hal b mem_cons_self
    simp only [length_bytes, length_singleton, tailRoom, cblock, cbsize] at *
    omega
  | @link b c cf cl bs q h1 h2 h3 _ ih =>
    have hb := hal b mem_cons_self
    have hc := hal c (mem_cons_of_mem _ mem_cons_self)
    have := ih fun d hd => hal d (mem_cons_of_mem _ hd)
    simp only [length_append, length_bytes, length_cons, cblock, cbsize] at *
    omega

omit h

theorem Holds.eq_nil (h : Holds mem cf bs cl []) : cf = cl ∧ ∃ b, bs = [b] := by
  generalize hq : ([] : List UInt8) = q at h
  cases h with
  | last h1 h2 h3 h4 =>
    have := congrArg List.length hq
    rw [length_bytes, length_nil] at this
    exact ⟨by omega, _, rfl⟩
  | @link b _ _ _ _ _ h1 h2 =>
    have := congrArg List.length hq
    rw [length_append, length_bytes, length_nil] at this
    omega

/-! ## The front -/

variable (h : Holds mem cf bs cl q) (hal : ∀ b ∈ bs, b % cblock = 0)
include h hal

theorem Holds.take (hn : n ≤ q.length)
    (hblock : cf % cblock + n ≤ cblock) : q.take n = bytes mem cf n := by
  cases h with
  | @last b _ _ h1 h2 h3 h4 =>
    rw [length_bytes] at hn
    rw [take_bytes, min_eq_left hn]
  | @link b c _ _ bs q h1 h2 h3 h4 =>
    have := hal b mem_cons_self
    have hle : n ≤ b + cblock - cf := by
      simp only [cblock] at *
      omega
    rw [take_append_of_le_length (by rwa [length_bytes]), take_bytes, min_eq_left hle]

theorem Holds.advance (hn : n ≤ q.length)
    (hblock : cf % cblock + n < cblock) : Holds mem (cf + n) bs cl (q.drop n) := by
  cases h with
  | @last b _ _ h1 h2 h3 h4 =>
    have := hal b mem_cons_self
    rw [length_bytes] at hn
    rw [drop_bytes, show cl - cf - n = cl - (cf + n) by omega]
    refine .last (by omega) ?_ (by omega) h4
    simp only [cblock] at *
    omega
  | @link b c _ _ bs q h1 h2 h3 h4 =>
    have := hal b mem_cons_self
    have hle : cf + n < b + cblock := by
      simp only [cblock] at *
      omega
    rw [drop_append_of_le_length (by rw [length_bytes]; omega), drop_bytes,
      show b + cblock - cf - n = b + cblock - (cf + n) by omega]
    exact .link (by omega) hle h3 h4

theorem Holds.pass (hn : n < q.length)
    (hblock : cf % cblock + n = cblock) : ∃ b c bs', bs = b :: c :: bs' ∧ cf + n = b + cblock ∧
      word mem (b / 4) = c ∧ Holds mem (c + 4) (c :: bs') cl (q.drop n) := by
  cases h with
  | @last b _ _ h1 h2 h3 h4 =>
    have := hal b mem_cons_self
    rw [length_bytes] at hn
    simp only [cblock] at *
    omega
  | @link b c _ _ bs q h1 h2 h3 h4 =>
    have := hal b mem_cons_self
    have heq : b + cblock - cf = n := by
      simp only [cblock] at *
      omega
    refine ⟨b, c, bs, rfl, by omega, h3, ?_⟩
    rw [heq, drop_left' (length_bytes ..)]
    exact h4

theorem Holds.single (hcl : cl % cblock ≠ 4) (hblock : cf % cblock + q.length ≤ cblock) :
    ∃ b, bs = [b] ∧ cf + q.length = cl ∧ b + 4 ≤ cf ∧ cl ≤ b + cblock := by
  cases h with
  | @last b _ _ h1 h2 h3 h4 =>
    rw [length_bytes]
    exact ⟨b, rfl, by omega, h1, h4⟩
  | @link b c _ _ bs q h1 h2 h3 h4 =>
    have hb := hal b mem_cons_self
    have hc := hal c (mem_cons_of_mem _ mem_cons_self)
    rw [length_append, length_bytes] at hblock
    have hq : q = [] := by
      apply eq_nil_of_length_eq_zero
      simp only [cblock] at *
      omega
    subst hq
    obtain ⟨rfl, _⟩ := h4.eq_nil
    simp only [cblock] at *
    omega

omit h hal

/-! ## The end -/

theorem place_outside {a : ℕ} {data : List UInt8} (hne : cbase a ≠ cbase cl)
    (hlen : cl % cblock + data.length ≤ cblock) : place mem cl data a = mem a := by
  have hout : a < cl ∨ cl + data.length ≤ a := by
    simp only [cbase, cblock] at *
    omega
  rcases hout with hlt | hle
  · exact place_of_lt hlt
  · exact place_of_le hle

variable (h : Holds mem cf bs cl q) (hal : ∀ b ∈ bs, b % cblock = 0)
include h hal

theorem Holds.put (hnodup : bs.Nodup) (hcl : cl % cblock ≠ 0) {data : List UInt8}
    (hlen : cl % cblock + data.length ≤ cblock) :
    Holds (place mem cl data) cf bs (cl + data.length) (q ++ data) := by
  induction h with
  | @last b cf cl h1 h2 h3 h4 =>
    have hb := hal b mem_cons_self
    have hbytes : bytes mem cf (cl - cf) ++ data =
        bytes (place mem cl data) cf (cl + data.length - cf) := by
      rw [show cl + data.length - cf = (cl - cf) + data.length by omega]
      have := bytes_place mem cf (cl - cf) data
      rw [show cf + (cl - cf) = cl by omega] at this
      exact this.symm
    rw [hbytes]
    refine .last h1 h2 (by omega) ?_
    simp only [cblock] at *
    omega
  | @link b c cf cl bs q h1 h2 h3 h4 ih =>
    obtain ⟨hb, hnodup'⟩ := nodup_cons.1 hnodup
    obtain ⟨bs', d, hbs, hd1, hd2⟩ := h4.back
    have hdmem : d ∈ c :: bs := by
      rw [hbs]
      exact mem_append_right _ mem_cons_self
    have hbal := hal b mem_cons_self
    have hdal := hal d (mem_cons_of_mem _ hdmem)
    have hbase : cbase cl = d := by
      apply cbase_eq hdal (by omega)
      simp only [cblock] at *
      omega
    -- the characters go to the last block, not to this one
    have hsame : ∀ a, b ≤ a → a < b + cblock → place mem cl data a = mem a := by
      intro a ha ha'
      apply place_outside _ hlen
      rw [hbase, cbase_eq hbal ha ha']
      rintro rfl
      exact hb hdmem
    have hbytes : bytes mem cf (b + cblock - cf) = bytes (place mem cl data) cf (b + cblock - cf) := by
      apply bytes_congr
      intro i hi
      exact (hsame _ (by omega) (by omega)).symm
    rw [append_assoc, hbytes]
    refine .link h1 h2 ?_ (ih (fun e he => hal e (mem_cons_of_mem _ he)) hnodup' hcl hlen)
    rw [← h3]
    apply word_congr
    intro j hj
    apply hsame
    all_goals
      simp only [cblock] at *
      omega

theorem Holds.extend (hcl : cl % cblock = 0) {c : ℕ} (hc : word mem ((cl - cblock) / 4) = c) :
    Holds mem cf (bs ++ [c]) (c + 4) q := by
  have hempty : Holds mem (c + 4) [c] (c + 4) (bytes mem (c + 4) (c + 4 - (c + 4))) :=
    .last le_rfl (by simp only [cblock]; omega) le_rfl (by simp only [cblock]; omega)
  induction h with
  | @last b cf cl h1 h2 h3 h4 =>
    have hb := hal b mem_cons_self
    have heq : cl = b + cblock := by
      simp only [cblock] at *
      omega
    subst heq
    have hlink := Holds.link h1 h2 hc hempty
    rw [Nat.sub_self, show bytes mem (c + 4) 0 = [] from rfl, append_nil] at hlink
    exact hlink
  | link h1 h2 h3 _ ih =>
    exact .link h1 h2 h3 (ih (fun e he => hal e (mem_cons_of_mem _ he)) hcl hc)

theorem Holds.unput (hq : q ≠ [])
    (hcl : cl % cblock ≠ 4) : ∃ q', q = q' ++ [mem (cl - 1)] ∧ Holds mem cf bs (cl - 1) q' := by
  induction h with
  | @last b cf cl h1 h2 h3 h4 =>
    have hlt : cf < cl := by
      by_contra hge
      rw [show cl - cf = 0 by omega] at hq
      exact hq rfl
    refine ⟨bytes mem cf (cl - 1 - cf), ?_, .last h1 h2 (by omega) (by omega)⟩
    have happ := bytes_append mem cf (cl - 1 - cf) 1
    rw [show cl - 1 - cf + 1 = cl - cf by omega, show cf + (cl - 1 - cf) = cl - 1 by omega] at happ
    exact happ.symm
  | @link b c cf cl bs q h1 h2 h3 h4 ih =>
    have hne : q ≠ [] := by
      rintro rfl
      obtain ⟨rfl, _⟩ := h4.eq_nil
      have := hal c (mem_cons_of_mem _ mem_cons_self)
      simp only [cblock] at *
      omega
    obtain ⟨q', hq', h'⟩ := ih (fun e he => hal e (mem_cons_of_mem _ he)) hne hcl
    exact ⟨bytes mem cf (b + cblock - cf) ++ q', by rw [hq', append_assoc], .link h1 h2 h3 h'⟩

theorem Holds.dropBack (hq : q ≠ [])
    (hcl : cl % cblock = 4) : ∃ bs' b c, bs = bs' ++ [b, c] ∧ cl = c + 4 ∧
      Holds mem cf (bs' ++ [b]) (b + cblock) q := by
  induction h with
  | @last b cf cl h1 h2 h3 h4 =>
    have hb := hal b mem_cons_self
    have hzero : cl - cf = 0 := by
      simp only [cblock] at *
      omega
    rw [hzero] at hq
    exact absurd rfl hq
  | @link b c cf cl bs q h1 h2 h3 h4 ih =>
    by_cases hne : q = []
    · subst hne
      obtain ⟨rfl, d, hd⟩ := h4.eq_nil
      obtain ⟨rfl, rfl⟩ := cons_eq_cons.1 hd
      refine ⟨[], b, c, rfl, rfl, ?_⟩
      rw [append_nil]
      exact .last h1 h2 (by omega) le_rfl
    · obtain ⟨bs', d, e, hbs, hcle, h'⟩ := ih (fun e he => hal e (mem_cons_of_mem _ he)) hne hcl
      refine ⟨b :: bs', d, e, by rw [hbs]; rfl, hcle, ?_⟩
      cases bs' with
      | nil | cons =>
        obtain ⟨rfl, _⟩ := cons_eq_cons.1 hbs
        exact .link h1 h2 h3 h'

end Holds

theorem blockBefore_spec (s : Pool) {b c : ℕ} (bs : List ℕ) (fuel : ℕ) (hfuel : bs.length ≤ fuel)
    (hchain : (bs ++ [b, c]).IsChain fun b c => word s.mem (b / 4) = c) (hnodup : (bs ++ [b, c]).Nodup)
    {d : ℕ} {ds : List ℕ} (hd : bs ++ [b, c] = d :: ds) : blockBefore s c fuel d = b := by
  induction bs generalizing fuel d ds with
  | nil =>
    obtain ⟨rfl, rfl⟩ := cons_eq_cons.1 hd
    have hnext : s.next b = c := (isChain_cons_cons.1 hchain).1
    cases fuel with
    | zero => rfl
    | succ fuel => rw [blockBefore, if_pos hnext]
  | cons e bs ih =>
    obtain ⟨rfl, rfl⟩ := cons_eq_cons.1 hd
    cases fuel with
    | zero => exact absurd hfuel (Nat.not_succ_le_zero _)
    | succ fuel =>
      obtain ⟨f, fs, hf⟩ : ∃ f fs, bs ++ [b, c] = f :: fs := by
        cases bs with
        | nil => exact ⟨b, [c], rfl⟩
        | cons f fs => exact ⟨f, fs ++ [b, c], rfl⟩
      have hnext : s.next e = f := by
        rw [cons_append, hf] at hchain
        exact (isChain_cons_cons.1 hchain).1
      have hne : f ≠ c := by
        rintro rfl
        have hrest := (nodup_cons.1 hnodup).2
        cases bs with
        | nil | cons =>
          obtain ⟨rfl, _⟩ := cons_eq_cons.1 hf
          simp at hrest
      rw [blockBefore, hnext, if_neg hne]
      exact ih fuel (Nat.le_of_succ_le_succ hfuel) hchain.tail (nodup_cons.1 hnodup).2 hf

section Free

variable {mem mem' : Memory} {p b : ℕ} {bs : List ℕ}

theorem Free.congr (h : Free mem p bs) (hlink : ∀ b ∈ bs, word mem' (b / 4) = word mem (b / 4)) :
    Free mem' p bs := by
  induction h with
  | nil => exact .nil
  | @cons b bs hb _ ih =>
    refine .cons hb ?_
    rw [hlink b mem_cons_self]
    exact ih fun c hc => hlink c (mem_cons_of_mem _ hc)

theorem Free.eq_nil (h : Free mem 0 bs) : bs = [] := by
  generalize hp : 0 = p at h
  cases h with
  | nil => rfl
  | cons hb _ => exact absurd hp.symm hb

theorem Free.uncons (h : Free mem p bs) (hp : p ≠ 0) :
    ∃ bs', bs = p :: bs' ∧ Free mem (word mem (p / 4)) bs' := by
  cases h with
  | nil => exact absurd rfl hp
  | cons _ h => exact ⟨_, rfl, h⟩

end Free

end RetroBSD.Tty
