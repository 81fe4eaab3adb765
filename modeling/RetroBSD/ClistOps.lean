import RetroBSD.ClistLayout
import Mathlib

/-!
# The operations on one queue

Each routine of `tty_subr.c` keeps the blocks of its queue and the free list
together: `Moves` says that it exchanged blocks between the two and wrote into no
others. `Becomes` adds what the characters of the queue are afterwards.
-/

namespace RetroBSD.Tty

open LittleEndian ByteCopy List Nat

structure Stock (s : Pool) (fl bs : List ℕ) : Prop where
  free : Free s.mem s.cfreelist fl
  count : s.cfreecount = cbsize * fl.length
  nodup : (bs ++ fl).Nodup
  blocks : ∀ b ∈ bs ++ fl, IsBlock b

structure Owned (s : Pool) (fl : List ℕ) (p : Clist) (bs : List ℕ) (q : List UInt8) : Prop where
  stock : Stock s fl bs
  queue : Queue s.mem p bs q

structure Moves (s s' : Pool) (A A' : List ℕ) : Prop where
  perm : A'.Perm A
  frame : ∀ a, cbase a ∉ A → s'.mem a = s.mem a

def Becomes (s s' : Pool) (bs fl : List ℕ) (p' : Clist) (q' : List UInt8) : Prop :=
  ∃ bs' fl', Owned s' fl' p' bs' q' ∧ Moves s s' (bs ++ fl) (bs' ++ fl')

section Stock

variable {s s' s₁ : Pool} {fl fl' bs bs' A A₁ A' : List ℕ} {b c : ℕ}

theorem Moves.refl (s : Pool) (A : List ℕ) : Moves s s A A := ⟨List.Perm.refl _, fun _ _ => rfl⟩

theorem Moves.trans (h : Moves s s₁ A A₁) (h1 : Moves s₁ s' A₁ A') : Moves s s' A A' := by
  refine ⟨h1.perm.trans h.perm, fun a ha => ?_⟩
  rw [h1.frame a fun hmem => ha (h.perm.mem_iff.1 hmem), h.frame a ha]

theorem Becomes.trans {p' : Clist} {q' : List UInt8} (h : Moves s s₁ (bs ++ fl) (bs' ++ fl'))
    (h1 : Becomes s₁ s' bs' fl' p' q') : Becomes s s' bs fl p' q' := by
  obtain ⟨bs2, fl2, howned, hmoves⟩ := h1
  exact ⟨bs2, fl2, howned, h.trans hmoves⟩

theorem Owned.becomes {p : Clist} {q : List UInt8} (h : Owned s fl p bs q) : Becomes s s bs fl p q :=
  ⟨bs, fl, h, Moves.refl _ _⟩

theorem Stock.aligned (h : Stock s fl bs) : ∀ b ∈ bs, b % cblock = 0 := fun b hb =>
  (h.blocks b (mem_append_left _ hb)).1

theorem IsBlock.index (hb : IsBlock b) (hc : IsBlock c) (h : b / 4 = c / 4) : b = c := by
  have h1 := hb.1
  have h2 := hc.1
  simp only [cblock] at *
  omega

theorem IsBlock.cbase_of_index (hb : IsBlock b) {a : ℕ} (h : a / 4 = b / 4) :
    cbase a = b ∧ a % cblock < 4 := by
  have h1 := hb.1
  simp only [cbase, cblock] at *
  omega

variable {mem' : Memory}

theorem IsBlock.frame {mem : Memory} (hb : IsBlock b) (h : ∀ a, a / 4 ≠ b / 4 → mem' a = mem a) {a : ℕ}
    (ha : cbase a ≠ b) : mem' a = mem a :=
  h a fun heq => ha (hb.cbase_of_index heq).1

theorem Stock.free_eq_nil (h : Stock s fl bs) (hfree : s.cfreelist = 0) : fl = [] := by
  have hnil := h.free
  rw [hfree] at hnil
  exact hnil.eq_nil

theorem word_frame {mem : Memory} (hb : IsBlock b) (h : ∀ a, cbase a = b → mem' a = mem a) :
    word mem' (b / 4) = word mem (b / 4) := by
  apply word_congr
  intro j hj
  exact h j (hb.cbase_of_index hj).1

theorem Stock.write (h : Stock s fl bs) (hframe : ∀ a, cbase a ∉ bs → mem' a = s.mem a) :
    Stock ⟨mem', s.cfreelist, s.cfreecount⟩ fl bs ∧
      Moves s ⟨mem', s.cfreelist, s.cfreecount⟩ (bs ++ fl) (bs ++ fl) := by
  refine ⟨⟨h.free.congr fun b hb => ?_, h.count, h.nodup, h.blocks⟩, List.Perm.refl _, fun a ha => ?_⟩
  · apply word_frame (h.blocks b (mem_append_right _ hb))
    intro a ha
    apply hframe
    rw [ha]
    intro hmem
    exact (nodup_append.1 h.nodup).2.2 b hmem b hb rfl
  · exact hframe a fun hmem => ha (mem_append_left _ hmem)

theorem Stock.release (h : Stock s fl bs) (hbs : bs.Perm (b :: bs')) :
    Stock (s.release b) (b :: fl) bs' ∧ Moves s (s.release b) (bs ++ fl) (bs' ++ b :: fl) ∧
      ∀ a, a / 4 ≠ b / 4 → (s.release b).mem a = s.mem a := by
  have hperm : (bs' ++ b :: fl).Perm (bs ++ fl) :=
    perm_middle.trans (hbs.symm.append_right fl)
  have hmem : b ∈ bs := hbs.mem_iff.2 mem_cons_self
  have hb : IsBlock b := h.blocks b (mem_append_left _ hmem)
  have hnodup : (bs' ++ b :: fl).Nodup := hperm.nodup_iff.2 h.nodup
  have hsame : ∀ a, a / 4 ≠ b / 4 → (s.release b).mem a = s.mem a := fun a ha => if_neg ha
  refine ⟨⟨?_, ?_, hnodup, fun c hc => h.blocks c (hperm.mem_iff.1 hc)⟩, ⟨hperm, ?_⟩, hsame⟩
  · refine .cons hb.2.1 ?_
    have hword : word (s.release b).mem (b / 4) = s.cfreelist := by
      have hlt : s.cfreelist < wordMod := by
        by_cases hzero : s.cfreelist = 0
        · rw [hzero]
          decide
        · obtain ⟨fl', rfl, _⟩ := h.free.uncons hzero
          exact (h.blocks _ (mem_append_right _ mem_cons_self)).2.2
      rw [Pool.release, word_setWord, if_pos rfl, mod_eq_of_lt hlt]
    change Free (s.release b).mem (word (s.release b).mem (b / 4)) fl
    rw [hword]
    apply h.free.congr
    intro c hc
    rw [Pool.release, word_setWord, if_neg]
    intro heq
    have := (h.blocks c (mem_append_right _ hc)).index hb heq
    subst this
    exact (nodup_append.1 h.nodup).2.2 c hmem c hc rfl
  · rw [Pool.release, h.count, length_cons]
    push_cast
    ring
  · exact fun a ha => hb.frame hsame fun heq => ha (heq ▸ mem_append_left _ hmem)

theorem Stock.take (h : Stock s fl bs) (hfree : s.cfreelist ≠ 0) :
    ∃ fl', fl = s.cfreelist :: fl' ∧ Stock s.take fl' (bs ++ [s.cfreelist]) ∧
      Moves s s.take (bs ++ fl) (bs ++ [s.cfreelist] ++ fl') ∧
      ∀ a, a / 4 ≠ s.cfreelist / 4 → s.take.mem a = s.mem a := by
  obtain ⟨fl', rfl, hrest⟩ := h.free.uncons hfree
  have happ : bs ++ [s.cfreelist] ++ fl' = bs ++ s.cfreelist :: fl' := by simp
  have hmem : s.cfreelist ∈ bs ++ s.cfreelist :: fl' := mem_append_right _ mem_cons_self
  have hb := h.blocks _ hmem
  have hsame : ∀ a, a / 4 ≠ s.cfreelist / 4 → s.take.mem a = s.mem a := fun a ha => if_neg ha
  refine ⟨fl', rfl, ⟨?_, ?_, by rw [happ]; exact h.nodup, by rw [happ]; exact h.blocks⟩,
    ⟨by rw [happ], ?_⟩, hsame⟩
  · apply hrest.congr
    intro c hc
    rw [Pool.take, word_setWord, if_neg]
    intro heq
    have := (h.blocks c (mem_append_right _ (mem_cons_of_mem _ hc))).index hb heq
    rw [this] at hc
    exact (nodup_cons.1 (nodup_append.1 h.nodup).2.1).1 hc
  · rw [Pool.take, h.count, length_cons]
    push_cast
    ring
  · exact fun a ha => hb.frame hsame fun heq => ha (heq ▸ hmem)

end Stock

/-! ## Taking characters from the front -/

section Front

variable {s : Pool} {fl bs : List ℕ} {p : Clist} {q : List UInt8}

theorem Owned.empty (h : Owned s fl p bs []) : p = ⟨0, 0, 0⟩ ∧ bs = [] := by
  obtain ⟨_, hbs, hcf, hcl⟩ := h.queue.chars.resolve_right fun hr => hr.1 rfl
  have hcc : p.cCc = 0 := h.queue.count
  refine ⟨?_, hbs⟩
  cases p
  simp only at hcc hcf hcl
  rw [hcc, hcf, hcl]

variable (h : Owned s fl p bs q)
include h

theorem Owned.holds (hq : q ≠ []) : p.cCl % cblock ≠ 4 ∧ Holds s.mem p.cCf bs p.cCl q :=
  (h.queue.chars.resolve_left fun hl => hq hl.1).2

theorem Owned.front_mod (hq : q ≠ []) : 4 ≤ p.cCf % cblock := by
  obtain ⟨b, bs', rfl, h1, h2⟩ := (h.holds hq).2.front
  have := h.stock.aligned b mem_cons_self
  simp only [cblock] at *
  omega

omit h

theorem queue_empty (mem : Memory) : Queue mem ⟨0, 0, 0⟩ [] [] := ⟨rfl, .inl ⟨rfl, rfl, rfl, rfl⟩⟩

variable {bs' : List ℕ} {b : ℕ}

theorem Holds.release {cf cl : ℕ} (h : Stock s fl bs) (hbs : bs.Perm (b :: bs'))
    (hholds : Holds s.mem cf bs' cl q) : Holds (s.release b).mem cf bs' cl q := by
  obtain ⟨hstock, _, hsame⟩ := h.release hbs
  have hb := hstock.blocks b (mem_append_right _ mem_cons_self)
  have hnot : b ∉ bs' := fun hmem =>
    (nodup_append.1 hstock.nodup).2.2 b hmem b mem_cons_self rfl
  have hframe : ∀ a, cbase a ∈ bs' → (s.release b).mem a = s.mem a :=
    fun a ha => hb.frame hsame fun heq => hnot (heq ▸ ha)
  apply hholds.congr hstock.aligned fun a ha _ => hframe a ha
  intro c hc
  have hmem := (dropLast_sublist bs').subset hc
  apply word_frame (hstock.blocks c (mem_append_left _ hmem))
  intro a ha
  exact hframe a (ha ▸ hmem)

theorem Owned.release_front {p' : Clist} {q' : List UInt8} (h : Stock s fl (b :: bs'))
    (hq' : q' ≠ []) (hcount : p'.cCc = q'.length) (hcl : p'.cCl % cblock ≠ 4)
    (hholds : Holds s.mem p'.cCf bs' p'.cCl q') : Becomes s (s.release b) (b :: bs') fl p' q' := by
  obtain ⟨hstock, hmoves, _⟩ := h.release (List.Perm.refl _)
  exact ⟨bs', b :: fl, ⟨hstock, hcount, .inr ⟨hq', hcl, hholds.release h (List.Perm.refl _)⟩⟩, hmoves⟩

theorem Owned.release_all (h : Stock s fl [b]) : Becomes s (s.release b) [b] fl ⟨0, 0, 0⟩ [] := by
  obtain ⟨hstock, hmoves, _⟩ := h.release (List.Perm.refl _)
  exact ⟨[], b :: fl, ⟨hstock, queue_empty _⟩, hmoves⟩

include h

theorem passFront_spec {n : ℕ} (hpos : 0 < n) (hn : n ≤ q.length)
    (hblock : p.cCf % cblock + n ≤ cblock) {r : Pool × Clist}
    (hr : r = passFront s ⟨p.cCc - n, p.cCf + n, p.cCl⟩) : Becomes s r.1 bs fl r.2 (q.drop n) := by
  have hq : q ≠ [] := ne_nil_of_length_pos (by omega)
  obtain ⟨hcl, hholds⟩ := h.holds hq
  have hal := h.stock.aligned
  have hmod := h.front_mod hq
  rw [passFront] at hr
  have hcount : p.cCc - (n : ℤ) = (q.drop n).length := by
    rw [h.queue.count, length_drop]
    omega
  rcases hn.lt_or_eq with hlt | heq
  · have hne : q.drop n ≠ [] := by
      rw [ne_eq, drop_eq_nil_iff]
      omega
    rw [if_neg (by simp only; rw [h.queue.count]; omega)] at hr
    simp only at hr
    rcases hblock.lt_or_eq with hin | hend
    · have hmod' : ¬ (p.cCf + n) % cblock = 0 := by
        simp only [cblock] at *
        omega
      rw [if_neg hmod'] at hr
      subst hr
      exact ⟨bs, fl, ⟨h.stock, hcount, .inr ⟨hne, hcl, hholds.advance hal hn hin⟩⟩, Moves.refl _ _⟩
    · obtain ⟨b, c, bs', rfl, hbc, hword, hrest⟩ := hholds.pass hal hlt hend
      have hmod' : (p.cCf + n) % cblock = 0 := by
        simp only [cblock] at *
        omega
      have hnext : info (s.next b) = c + 4 := by rw [info, Pool.next, hword]
      rw [if_pos hmod', show p.cCf + n - cblock = b by omega, hnext] at hr
      subst hr
      exact Owned.release_front h.stock hne hcount hcl hrest
  · obtain ⟨b, rfl, hend, hb1, hb2⟩ := hholds.single hal hcl (by omega)
    have hbase : cbase (p.cCf + n - 1) = b := cbase_eq (hal b mem_cons_self) (by omega) (by omega)
    have hzero : p.cCc - (n : ℤ) = 0 := by
      rw [h.queue.count]
      omega
    rw [if_pos (by simp only; omega)] at hr
    simp only [hbase, hzero] at hr
    subst hr
    rw [heq, drop_length]
    exact Owned.release_all h.stock

omit h

theorem getc_empty (h : Owned s fl p bs []) : getc s p = (-1, s, p) := by
  rw [h.empty.1]
  rfl

theorem getc_spec {x : UInt8} (h : Owned s fl p bs (x :: q)) :
    (getc s p).1 = x.toNat ∧ Becomes s (getc s p).2.1 bs fl (getc s p).2.2 q := by
  have hcc : ¬ p.cCc ≤ 0 := by
    rw [h.queue.count, length_cons]
    omega
  obtain ⟨-, hholds⟩ := h.holds (cons_ne_nil x q)
  have hblock : p.cCf % cblock + 1 ≤ cblock := mod_lt _ (by decide)
  have htake := hholds.take h.stock.aligned (by simp) hblock
  rw [getc, if_neg hcc]
  constructor
  · have hx : x = s.mem p.cCf := (cons_eq_cons.1 htake).1
    simp only [← hx]
  · exact passFront_spec h one_pos (by simp) hblock rfl

theorem qToBLoop_spec (fuel : ℕ) (h : Owned s fl p bs q) (hq : q ≠ []) {cc : ℕ} (hfuel : cc ≤ fuel)
    {r : List UInt8 × Pool × Clist} (hr : r = qToBLoop fuel s p cc) :
    r.1 = q.take cc ∧ Becomes s r.2.1 bs fl r.2.2 (q.drop cc) := by
  induction fuel generalizing s fl p bs q cc r with
  | zero =>
    obtain rfl : cc = 0 := by omega
    subst hr
    exact ⟨rfl, h.becomes⟩
  | succ fuel ih =>
    rw [qToBLoop] at hr
    split_ifs at hr with hzero
    · subst hr hzero
      exact ⟨rfl, h.becomes⟩
    have hlt : p.cCf % cblock < cblock := mod_lt _ (by decide)
    have hlen : 0 < q.length := length_pos_of_ne_nil hq
    have hcount := h.queue.count
    set nc := min (min (cblock - p.cCf % cblock) cc) p.cCc.toNat with hnc
    dsimp only at hr
    rw [hcount, Int.toNat_natCast] at hnc
    have hbytes := (h.holds hq).2.take h.stock.aligned (show nc ≤ q.length by omega) (by omega)
    set r1 := passFront s ⟨p.cCc - nc, p.cCf + nc, p.cCl⟩ with hr1
    have hpass := passFront_spec h (by omega) (by omega) (by omega) hr1
    rw [← hbytes] at hr
    split_ifs at hr with hend
    · have hall : nc = q.length := by omega
      have hle : q.length ≤ cc := by omega
      subst hr
      refine ⟨?_, ?_⟩
      · simp only [hall, take_length, take_of_length_le hle]
      · rw [drop_of_length_le hle]
        rwa [hall, drop_length] at hpass
    · obtain ⟨bs', fl', howned, hmoves⟩ := hpass
      have hne : q.drop nc ≠ [] := by
        rw [ne_eq, drop_eq_nil_iff]
        omega
      obtain ⟨htake, hrest⟩ := ih howned hne (show cc - nc ≤ fuel by omega) rfl
      have hsum : nc + (cc - nc) = cc := by omega
      subst hr
      refine ⟨?_, ?_⟩
      · simp only [htake]
        rw [← take_add, hsum]
      · rw [drop_drop, hsum] at hrest
        exact Becomes.trans hmoves hrest

include h

theorem qToB_spec (cc : ℤ) : (qToB s p cc).1 = q.take cc.toNat ∧
    Becomes s (qToB s p cc).2.1 bs fl (qToB s p cc).2.2 (q.drop cc.toNat) := by
  rw [qToB]
  by_cases hcc : cc ≤ 0
  · rw [if_pos hcc, Int.toNat_of_nonpos hcc]
    exact ⟨rfl, h.becomes⟩
  rw [if_neg hcc]
  by_cases hq : q = []
  · subst hq
    obtain ⟨rfl, rfl⟩ := h.empty
    rw [if_pos le_rfl, take_nil, drop_nil]
    exact ⟨rfl, h.becomes⟩
  · have hlen : 0 < q.length := length_pos_of_ne_nil hq
    rw [if_neg (by rw [h.queue.count]; omega)]
    exact qToBLoop_spec _ h hq le_rfl rfl

theorem Owned.stop (hq : q ≠ []) :
    cbase p.cCf ∈ bs ∧ (if cbase p.cCf = cbase (p.cCl - 1) then p.cCl else cbase p.cCf + cblock) =
      p.cCf + min q.length (cblock - p.cCf % cblock) := by
  obtain ⟨hcl, hholds⟩ := h.holds hq
  have hal := h.stock.aligned
  obtain ⟨b, bs', rfl, hb1, hb2⟩ := hholds.front
  have hbal := hal b mem_cons_self
  have hbase : cbase p.cCf = b := cbase_eq hbal (by omega) hb2
  have hmod : b + cblock = p.cCf + (cblock - p.cCf % cblock) := by
    simp only [cblock] at *
    omega
  rw [hbase]
  refine ⟨mem_cons_self, ?_⟩
  by_cases hle : p.cCf % cblock + q.length ≤ cblock
  · obtain ⟨d, hd, hend, hd1, hd2⟩ := hholds.single hal hcl hle
    obtain ⟨rfl, rfl⟩ := cons_eq_cons.1 hd
    have hlen := length_pos_of_ne_nil hq
    rw [if_pos (cbase_eq hbal (by omega) (by omega)).symm, min_eq_left (by omega), hend]
  · obtain ⟨bs2, d, hbs, hd1, hd2⟩ := hholds.back
    have hdmem : d ∈ b :: bs' := by
      rw [hbs]
      exact mem_append_right _ mem_cons_self
    have hdal := hal d hdmem
    have hlast : cbase (p.cCl - 1) = d := by
      apply cbase_eq hdal
      all_goals
        simp only [cblock] at *
        omega
    rw [if_neg, min_eq_right (by omega), hmod]
    rw [hlast]
    -- the last block is not the first, since the characters do not fit into one
    rintro rfl
    cases bs2 with
    | nil =>
      have hcap := hholds.capacity hal
      rw [hbs] at hcap
      simp only [nil_append, length_singleton, tailRoom, cblock, cbsize] at *
      omega
    | cons e bs2 =>
      obtain ⟨rfl, rfl⟩ := cons_eq_cons.1 hbs
      exact (nodup_cons.1 (nodup_append.1 h.stock.nodup).1).1 (mem_append_right _ mem_cons_self)

omit h

theorem ndflushLoop_zero (fuel : ℕ) (s : Pool) (p : Clist) (cc : ℤ) (h : p.cCc = 0) :
    ndflushLoop fuel s p cc = (s, p) := by
  cases fuel with
  | zero => rfl
  | succ fuel =>
    rw [ndflushLoop, if_neg]
    exact fun hc => hc.2 h

theorem ndflushLoop_spec (fuel : ℕ) (h : Owned s fl p bs q) (hq : q ≠ []) (hfuel : q.length ≤ fuel)
    (cc : ℤ) {r : Pool × Clist} (hr : r = ndflushLoop fuel s p cc) :
    Becomes s r.1 bs fl (if r.2.cCc ≤ 0 then ⟨0, 0, 0⟩ else r.2) (q.drop cc.toNat) := by
  have hlen := length_pos_of_ne_nil hq
  induction fuel generalizing s fl p bs q cc r with
  | zero => omega
  | succ fuel ih =>
    have hcount := h.queue.count
    rw [ndflushLoop] at hr
    by_cases hcc : 0 < cc ∧ p.cCc ≠ 0
    · rw [if_pos hcc] at hr
      obtain ⟨hcl, hholds⟩ := h.holds hq
      have hal := h.stock.aligned
      have hmod := h.front_mod hq
      have hlt : p.cCf % cblock < cblock := mod_lt _ (by decide)
      obtain ⟨hmem, hstop⟩ := h.stop hq
      set n := min q.length (cblock - p.cCf % cblock) with hn
      simp only [hstop, cast_add, add_sub_cancel_left] at hr
      by_cases hrem : (n : ℤ) ≤ cc
      · rw [if_pos hrem] at hr
        by_cases hall : n = q.length
        · obtain ⟨b, rfl, _, -⟩ := hholds.single hal hcl (by omega)
          rw [mem_singleton.1 hmem, ndflushLoop_zero _ _ _ _ (by simp only; omega)] at hr
          subst hr
          rw [if_pos (by simp only; omega), drop_of_length_le (by omega)]
          exact Owned.release_all h.stock
        · obtain ⟨b, c, bs', rfl, hbc, hword, hrest⟩ := hholds.pass hal (n := n) (by omega) (by omega)
          have hbase : cbase p.cCf = b := by
            have hb := hal b mem_cons_self
            apply cbase_eq hb
            all_goals
              simp only [cblock] at *
              omega
          have hne : q.drop n ≠ [] := by
            rw [ne_eq, drop_eq_nil_iff]
            omega
          have hnext : info (s.next b) = c + 4 := by rw [info, Pool.next, hword]
          rw [hbase, hnext] at hr
          have hfront : Becomes s (s.release b) (b :: c :: bs') fl ⟨p.cCc - n, c + 4, p.cCl⟩ (q.drop n) := by
            have hcount' : p.cCc - (n : ℤ) = (q.drop n).length := by
              rw [length_drop]
              omega
            exact Owned.release_front h.stock hne hcount' hcl hrest
          obtain ⟨bs2, fl2, howned, hmoves⟩ := hfront
          have hpos : 0 < (q.drop n).length := length_pos_of_ne_nil hne
          have hrest := ih howned hne (by rw [length_drop]; omega) (cc - n) hr hpos
          rw [drop_drop, show n + (cc - n).toNat = cc.toNat by omega] at hrest
          exact Becomes.trans hmoves hrest
      · rw [if_neg hrem, if_neg (by omega)] at hr
        have hne : q.drop cc.toNat ≠ [] := by
          rw [ne_eq, drop_eq_nil_iff]
          omega
        subst hr
        rw [if_neg (by simp only; omega)]
        refine ⟨bs, fl, ⟨h.stock, ?_, .inr ⟨hne, hcl, hholds.advance hal (by omega) (by omega)⟩⟩,
          Moves.refl _ _⟩
        simp only [length_drop]
        omega
    · rw [if_neg hcc] at hr
      subst hr
      rw [if_neg (by simp only; omega), Int.toNat_of_nonpos (by omega)]
      exact h.becomes

include h

theorem ndflush_spec (cc : ℤ) :
    Becomes s (ndflush s p cc).1 bs fl (ndflush s p cc).2 (q.drop cc.toNat) := by
  rw [ndflush]
  by_cases hq : q = []
  · subst hq
    obtain ⟨rfl, rfl⟩ := h.empty
    rw [if_pos le_rfl, drop_nil]
    exact h.becomes
  · have hlen := length_pos_of_ne_nil hq
    have hcount := h.queue.count
    rw [if_neg (by omega)]
    have hloop := ndflushLoop_spec p.cCc.toNat h hq (by omega) cc rfl
    simp only
    split_ifs with hend
    · rwa [if_pos hend] at hloop
    · rwa [if_neg hend] at hloop

omit h in
theorem flagged_zero (x : UInt8) : flagged 0 x = false := by
  simp [flagged]

theorem ndqb_spec (flag : ℤ) :
    ndqb s p flag = ((q.take (cblock - p.cCf % cblock)).findIdx (flagged flag) : ℕ) := by
  have hcount := h.queue.count
  rw [ndqb]
  by_cases hq : q = []
  · subst hq
    obtain ⟨rfl, rfl⟩ := h.empty
    simp
  · have hlen := length_pos_of_ne_nil hq
    have hmod := h.front_mod hq
    have hlt : p.cCf % cblock < cblock := mod_lt _ (by decide)
    set n := min q.length (cblock - p.cCf % cblock) with hn
    have hcc : min (cbase (p.cCf + cbsize) - p.cCf) p.cCc.toNat = n := by
      simp only [cbase, cblock, cbsize] at *
      omega
    have hbytes := (h.holds hq).2.take h.stock.aligned (show n ≤ q.length by omega) (by omega)
    have htake : q.take (cblock - p.cCf % cblock) = q.take n := by
      rw [hn, take_eq_take_iff]
      omega
    rw [if_neg (by omega), htake, hbytes]
    simp only [hcc]
    by_cases hflag : flag = 0
    · have hnone : (bytes s.mem p.cCf n).findIdx (flagged 0) = (bytes s.mem p.cCf n).length :=
        findIdx_eq_length_of_false fun x _ => flagged_zero x
      rw [if_neg (not_not.2 hflag), hflag, hnone, length_bytes]
    · rw [if_pos hflag]

omit h

theorem passFront_cCl (s : Pool) (p : Clist) :
    (passFront s p).2.cCc = p.cCc ∧ (0 < p.cCc → (passFront s p).2.cCl = p.cCl) := by
  rw [passFront]
  split_ifs with hcc
  · exact ⟨rfl, fun hpos => absurd hcc (not_le.2 hpos)⟩
  · exact ⟨rfl, fun _ => rfl⟩
  · exact ⟨rfl, fun _ => rfl⟩

theorem qToBLoop_cCl (fuel : ℕ) (s : Pool) (p : Clist) (cc : ℕ) :
    0 < (qToBLoop fuel s p cc).2.2.cCc → (qToBLoop fuel s p cc).2.2.cCl = p.cCl := by
  induction fuel generalizing s p cc with
  | zero => exact fun _ => rfl
  | succ fuel ih =>
    rw [qToBLoop]
    split_ifs with hcc
    · exact fun _ => rfl
    · generalize min (min (cblock - p.cCf % cblock) cc) p.cCc.toNat = nc
      obtain ⟨hcount, hlast⟩ := passFront_cCl s ⟨p.cCc - nc, p.cCf + nc, p.cCl⟩
      dsimp only
      split_ifs with hend
      · intro hpos
        rw [hcount] at hpos
        exact absurd hend (not_le.2 hpos)
      · intro hpos
        rw [ih _ _ _ hpos, hlast (not_le.1 hend)]

theorem qToB_cCl (s : Pool) (p : Clist) (cc : ℤ) :
    0 < (qToB s p cc).2.2.cCc → (qToB s p cc).2.2.cCl = p.cCl := by
  rw [qToB]
  split_ifs
  · exact fun _ => rfl
  · exact fun hpos => absurd hpos (lt_irrefl _)
  · exact qToBLoop_cCl _ _ _ _

end Front

/-! ## Appending characters -/

section Back

variable {s : Pool} {fl bs : List ℕ} {p : Clist} {q : List UInt8} {cf cl : ℕ}

theorem put_spec (hstock : Stock s fl bs) (hholds : Holds s.mem cf bs cl q) (hcl : cl % cblock ≠ 0)
    (data : List UInt8) (hlen : cl % cblock + data.length ≤ cblock) :
    Stock (s.put cl data) fl bs ∧
      Holds (s.put cl data).mem cf bs (cl + data.length) (q ++ data) ∧
      Moves s (s.put cl data) (bs ++ fl) (bs ++ fl) := by
  obtain ⟨bs', d, hbs, hd1, hd2⟩ := hholds.back
  have hmem : d ∈ bs := by
    rw [hbs]
    exact mem_append_right _ mem_cons_self
  have hal := hstock.aligned
  have hd := hal d hmem
  have hbase : cbase cl = d := by
    apply cbase_eq hd (by omega)
    simp only [cblock] at *
    omega
  have hframe : ∀ a, cbase a ∉ bs → place s.mem cl data a = s.mem a := by
    intro a ha
    apply place_outside _ hlen
    rw [hbase]
    rintro rfl
    exact ha hmem
  obtain ⟨hstock', hmoves⟩ := hstock.write hframe
  exact ⟨hstock', hholds.put hal (nodup_append.1 hstock.nodup).1 hcl hlen, hmoves⟩

variable {bs' : List ℕ}

theorem setNext_last (hstock : Stock s fl bs) (hholds : Holds s.mem cf bs cl q) {d : ℕ}
    (hbs : bs = bs' ++ [d]) (v : ℕ) : Stock (s.setNext d v) fl bs ∧
      Holds (s.setNext d v).mem cf bs cl q ∧ Moves s (s.setNext d v) (bs ++ fl) (bs ++ fl) := by
  have hmem : d ∈ bs := by
    rw [hbs]
    exact mem_append_right _ mem_cons_self
  have hd := hstock.blocks d (mem_append_left _ hmem)
  have hsame : ∀ a, a / 4 ≠ d / 4 → (s.setNext d v).mem a = s.mem a := fun a ha => if_neg ha
  have hframe : ∀ a, cbase a ∉ bs → (s.setNext d v).mem a = s.mem a :=
    fun a ha => hd.frame hsame fun heq => ha (heq ▸ hmem)
  obtain ⟨hstock', hmoves⟩ := hstock.write hframe
  refine ⟨hstock', hholds.congr hstock.aligned ?_ ?_, hmoves⟩
  · intro a _ ha
    apply hsame
    intro heq
    exact absurd (hd.cbase_of_index heq).2 (not_lt.2 ha)
  · intro b hb
    rw [hbs, dropLast_concat] at hb
    have hbmem : b ∈ bs := by
      rw [hbs]
      exact mem_append_left _ hb
    rw [Pool.setNext, word_setWord, if_neg]
    intro heq
    have := (hstock.blocks b (mem_append_left _ hbmem)).index hd heq
    subst this
    have hnodup := (nodup_append.1 hstock.nodup).1
    rw [hbs] at hnodup
    exact (nodup_append.1 hnodup).2.2 b hb b mem_cons_self rfl

/-- A tail with room for a character: the one there is, or a block from the free list. -/
inductive Grown (b : ℕ) (fl bs : List ℕ) (cl : ℕ) : List ℕ → List ℕ → ℕ → Prop
  | room : cl % cblock ≠ 0 → Grown b fl bs cl fl bs cl
  | block {fl' : List ℕ} : cl % cblock = 0 → fl = b :: fl' → Grown b fl bs cl fl' (bs ++ [b]) (info b)

theorem growTail_spec (hstock : Stock s fl bs) (hholds : Holds s.mem cf bs cl q)
    {r : Bool × Pool × ℕ} (hr : r = growTail s cl) :
    (r.1 = false ∧ r.2.1.cfreelist = 0 ∧ tailRoom cl + cbsize * fl.length = 0 ∧ cl % cblock = 0 ∧
      Stock r.2.1 fl bs ∧ Holds r.2.1.mem cf bs cl q ∧ Moves s r.2.1 (bs ++ fl) (bs ++ fl)) ∨
    (r.1 = true ∧ r.2.2 % cblock ≠ 0 ∧ ∃ bs' fl', Stock r.2.1 fl' bs' ∧
      Holds r.2.1.mem cf bs' r.2.2 q ∧ Moves s r.2.1 (bs ++ fl) (bs' ++ fl') ∧
      tailRoom r.2.2 + cbsize * fl'.length = tailRoom cl + cbsize * fl.length ∧
      Grown s.cfreelist fl bs cl fl' bs' r.2.2) := by
  rw [growTail] at hr
  by_cases hcl : cl % cblock = 0
  · rw [if_pos hcl] at hr
    obtain ⟨bs2, d, hbs, hd1, hd2⟩ := hholds.back
    have hmem : d ∈ bs := by
      rw [hbs]
      exact mem_append_right _ mem_cons_self
    have hd := hstock.blocks d (mem_append_left _ hmem)
    have hcld : cl - cblock = d := by
      have := hd.1
      simp only [cblock] at *
      omega
    have hroom : tailRoom cl = 0 := by
      rw [tailRoom, hcl]
      rfl
    obtain ⟨hstock1, hholds1, hmoves1⟩ := setNext_last hstock hholds hbs s.cfreelist
    have hfl : (s.setNext d s.cfreelist).cfreelist = s.cfreelist := rfl
    rw [hcld] at hr
    simp only [hfl] at hr
    by_cases hfree : s.cfreelist = 0
    · left
      have hnil := hstock.free_eq_nil hfree
      rw [if_pos hfree] at hr
      subst hr hnil
      exact ⟨rfl, hfree, by rw [hroom]; rfl, hcl, hstock1, hholds1, hmoves1⟩
    · right
      rw [if_neg hfree] at hr
      obtain ⟨fl', hfl', hstock2, hmoves2, hsame⟩ := hstock1.take hfree
      have hc := hstock2.blocks s.cfreelist (by simp [hfl])
      have hne : ∀ b ∈ bs, b ≠ s.cfreelist := by
        rintro b hb rfl
        apply (nodup_append.1 (nodup_append.1 hstock2.nodup).1).2.2 _ hb _ _ rfl
        rw [hfl]
        exact mem_cons_self
      have hframe : ∀ a, cbase a ∈ bs → (s.setNext d s.cfreelist).take.mem a =
          (s.setNext d s.cfreelist).mem a :=
        fun a ha => hc.frame hsame (hne _ ha)
      have hword : ∀ b ∈ bs, word (s.setNext d s.cfreelist).take.mem (b / 4) =
          word (s.setNext d s.cfreelist).mem (b / 4) := by
        intro b hb
        apply word_frame (hstock.blocks b (mem_append_left _ hb))
        intro a ha
        exact hframe a (ha ▸ hb)
      have hlink : word (s.setNext d s.cfreelist).take.mem (d / 4) = s.cfreelist := by
        rw [hword d hmem, Pool.setNext, word_setWord, if_pos rfl, mod_eq_of_lt hc.2.2]
      have hholds2 : Holds (s.setNext d s.cfreelist).take.mem cf bs cl q :=
        hholds1.congr hstock.aligned (fun a ha _ => hframe a ha)
          fun b hb => hword b ((dropLast_sublist bs).subset hb)
      have hext : Holds (s.setNext d s.cfreelist).take.mem cf (bs ++ [s.cfreelist])
          (s.cfreelist + 4) q :=
        hholds2.extend hstock.aligned hcl (by rw [hcld]; exact hlink)
      subst hr
      refine ⟨rfl, ?_, bs ++ [s.cfreelist], fl', hstock2, hext, hmoves1.trans hmoves2, ?_, .block hcl hfl'⟩
      · have := hc.1
        simp only [info, cblock] at *
        omega
      · have := hc.1
        rw [hfl', length_cons, hroom]
        simp only [info, tailRoom, cblock, cbsize] at *
        omega
  · right
    rw [if_neg hcl] at hr
    subst hr
    exact ⟨rfl, hcl, bs, fl, hstock, hholds, Moves.refl _ _, rfl, .room hcl⟩

theorem take_spec (hstock : Stock s fl []) (hfree : s.cfreelist ≠ 0) : ∃ fl',
    fl = s.cfreelist :: fl' ∧ Stock s.take fl' [s.cfreelist] ∧
      Holds s.take.mem (info s.cfreelist) [s.cfreelist] (info s.cfreelist) [] ∧
      Moves s s.take ([] ++ fl) ([s.cfreelist] ++ fl') := by
  obtain ⟨fl', rfl, hstock', hmoves, _⟩ := hstock.take hfree
  refine ⟨fl', rfl, hstock', ?_, hmoves⟩
  have hlast : Holds s.take.mem (s.cfreelist + 4) [s.cfreelist] (s.cfreelist + 4)
      (bytes s.take.mem (s.cfreelist + 4) (s.cfreelist + 4 - (s.cfreelist + 4))) :=
    .last (le_refl _) (by simp [cblock]) (le_refl _) (by simp [cblock])
  rwa [Nat.sub_self] at hlast

theorem Holds.tail_mod (hholds : Holds s.mem cf bs cl q) (hal : ∀ b ∈ bs, b % cblock = 0)
    (hcl : cl % cblock ≠ 0) : 4 ≤ cl % cblock := by
  obtain ⟨bs', d, rfl, h1, h2⟩ := hholds.back
  have := hal d (mem_append_right _ mem_cons_self)
  simp only [cblock] at *
  omega

/-- One round of the loop copies as much as the last block takes; the loop ends when
all is copied or no block is left. -/
theorem bToQLoop_spec (fuel : ℕ) {data : List UInt8} (hfuel : data.length ≤ fuel)
    (hstock : Stock s fl bs) (hholds : Holds s.mem cf bs cl q) (hcl : data = [] → cl % cblock ≠ 4)
    {k : ℕ} (hk : k = min data.length (tailRoom cl + cbsize * fl.length))
    {r : Pool × ℕ × List UInt8} (hr : r = bToQLoop fuel s cl data) :
    r.2.2 = data.drop k ∧ r.2.1 % cblock ≠ 4 ∧ (k < data.length → r.1.cfreelist = 0) ∧
      ∃ bs' fl', Stock r.1 fl' bs' ∧ Holds r.1.mem cf bs' r.2.1 (q ++ data.take k) ∧
        Moves s r.1 (bs ++ fl) (bs' ++ fl') := by
  induction fuel generalizing s fl bs cl q data k with
  | zero =>
    have hnil : data = [] := eq_nil_of_length_eq_zero (by omega)
    subst hr hnil
    exact ⟨by simp [bToQLoop], hcl rfl, fun hlt => absurd hlt (by simp),
      bs, fl, hstock, by simpa [bToQLoop] using hholds, Moves.refl _ _⟩
  | succ fuel ih =>
    rw [bToQLoop] at hr
    by_cases hdata : data = []
    · rw [if_pos hdata] at hr
      subst hr hdata
      exact ⟨by simp, hcl rfl, fun hlt => absurd hlt (by simp),
        bs, fl, hstock, by simpa using hholds, Moves.refl _ _⟩
    · have hpos : 0 < data.length := length_pos_iff.2 hdata
      rw [if_neg hdata] at hr
      set g := growTail s cl with hg
      dsimp only at hr
      rcases growTail_spec hstock hholds hg with
        ⟨hfull, hfree, hroom, hmod, hstock', hholds', hmoves⟩ |
        ⟨hgrown, hmod, bs', fl', hstock', hholds', hmoves, hroom, -⟩
      · have hk0 : k = 0 := by omega
        rw [hfull, if_neg (by decide)] at hr
        subst hr hk0
        refine ⟨rfl, ?_, fun _ => hfree, bs, fl, hstock', by simpa using hholds', hmoves⟩
        change cl % cblock ≠ 4
        omega
      · rw [hgrown, if_pos rfl] at hr
        have hlow := hholds'.tail_mod hstock'.aligned hmod
        set n := min data.length (cblock - g.2.2 % cblock) with hn
        have hlen : (data.take n).length = n := by
          rw [length_take]
          omega
        have hfit : g.2.2 % cblock + (data.take n).length ≤ cblock := by
          have := mod_lt g.2.2 (show 0 < cblock by decide)
          omega
        obtain ⟨hstock2, hholds2, hmoves2⟩ := put_spec hstock' hholds' hmod _ hfit
        rw [hlen] at hholds2
        have hroom2 : tailRoom (g.2.2 + n) + n = tailRoom g.2.2 := by
          simp only [tailRoom, cblock] at *
          omega
        have hmod2 : (g.2.2 + n) % cblock ≠ 4 := by
          simp only [cblock] at *
          omega
        have hk2 : k - n = min (data.drop n).length (tailRoom (g.2.2 + n) + cbsize * fl'.length) := by
          rw [length_drop]
          omega
        have hnk : n ≤ k := by
          omega
        obtain ⟨hleft, hend, hfree, bs3, fl3, hstock3, hholds3, hmoves3⟩ :=
          ih (by rw [length_drop]; simp only [cblock] at *; omega)
            hstock2 hholds2 (fun _ => hmod2) hk2 hr
        refine ⟨?_, hend, fun hlt => hfree ?_, bs3, fl3, hstock3, ?_, (hmoves.trans hmoves2).trans hmoves3⟩
        · rw [hleft, drop_drop, Nat.add_sub_cancel' hnk]
        · rw [length_drop]
          omega
        · have happ : data.take k = data.take n ++ (data.drop n).take (k - n) := by
            rw [← take_add, Nat.add_sub_cancel' hnk]
          rw [happ, ← append_assoc]
          exact hholds3

theorem Owned.of_holds (hstock : Stock s fl bs) (hcount : p.cCc = q.length) (hq : q ≠ [])
    (hcl : p.cCl % cblock ≠ 4) (hholds : Holds s.mem p.cCf bs p.cCl q) : Owned s fl p bs q :=
  ⟨hstock, hcount, .inr ⟨hq, hcl, hholds⟩⟩

variable (h : Owned s fl p bs q)
include h

theorem bToQ_spec (data : List UInt8) {k : ℕ}
    (hk : k = min data.length (tailRoom p.cCl + cbsize * fl.length)) :
    (bToQ s data p).1 = data.length - k ∧ (k < data.length → (bToQ s data p).2.1.cfreelist = 0) ∧
      Becomes s (bToQ s data p).2.1 bs fl (bToQ s data p).2.2 (q ++ data.take k) := by
  rw [bToQ]
  by_cases hdata : data = []
  · rw [if_pos hdata]
    subst hdata
    refine ⟨by simp, fun hlt => absurd hlt (by simp), ?_⟩
    simpa using h.becomes
  rw [if_neg hdata]
  have hpos : 0 < data.length := length_pos_iff.2 hdata
  have hcc := h.queue.count
  by_cases hq : q = []
  · subst hq
    obtain ⟨rfl, rfl⟩ := h.empty
    rw [if_pos (.inl rfl)]
    by_cases hfree : s.cfreelist = 0
    · have hnil := h.stock.free_eq_nil hfree
      subst hnil
      have hk0 : k = 0 := by
        rw [hk]
        simp [tailRoom, cblock]
      rw [if_pos hfree, hk0]
      exact ⟨rfl, fun _ => hfree, by simpa using h.becomes⟩
    · rw [if_neg hfree]
      obtain ⟨fl', hfl, hstock, hholds, hmoves⟩ := take_spec h.stock hfree
      have hlen : fl.length = fl'.length + 1 := by rw [hfl, length_cons]
      have hroom : tailRoom (info s.cfreelist) = cbsize := by
        have := (hstock.blocks s.cfreelist mem_cons_self).1
        simp only [tailRoom, info, cblock, cbsize] at *
        omega
      set r := bToQLoop data.length s.take (info s.cfreelist) data with hr
      have hk' : k = min data.length (tailRoom (info s.cfreelist) + cbsize * fl'.length) := by
        rw [hk, hroom, hlen]
        simp only [tailRoom, cblock, cbsize]
        omega
      have hkpos : 0 < k := by
        rw [hk', hroom]
        simp only [cbsize]
        omega
      obtain ⟨hleft, hend, hshort, bs2, fl2, hstock2, hholds2, hmoves2⟩ :=
        bToQLoop_spec data.length (le_refl _) hstock hholds (fun hnil => absurd hnil hdata) hk' hr
      have hleft' : r.2.2.length = data.length - k := by
        rw [hleft, length_drop]
      refine ⟨hleft', hshort, bs2, fl2, ?_, hmoves.trans hmoves2⟩
      refine .of_holds hstock2 ?_ ?_ hend hholds2
      · rw [nil_append, length_take]
        simp only [hleft']
        omega
      · intro hnil
        have := congrArg List.length hnil
        rw [nil_append, length_take, length_nil] at this
        omega
  · obtain ⟨-, hholds⟩ := h.holds hq
    obtain ⟨-, d, _, hd, _⟩ := hholds.back
    rw [if_neg (by omega)]
    set r := bToQLoop data.length s p.cCl data with hr
    obtain ⟨hleft, hend, hshort, bs2, fl2, hstock2, hholds2, hmoves2⟩ :=
      bToQLoop_spec data.length (le_refl _) h.stock hholds (fun hnil => absurd hnil hdata) hk hr
    have hleft' : r.2.2.length = data.length - k := by
      rw [hleft, length_drop]
    refine ⟨hleft', hshort, bs2, fl2, .of_holds hstock2 ?_ (by simp [hq]) hend hholds2, hmoves2⟩
    rw [length_append, length_take]
    simp only [hleft']
    omega

theorem putc_spec (c : ℤ) :
    ((putc s c p).1 = 0 ∧ ∃ bs' fl', Owned (putc s c p).2.1 fl' (putc s c p).2.2 bs' (q ++ [charOf c]) ∧
        Moves s (putc s c p).2.1 (bs ++ fl) (bs' ++ fl') ∧ (q ≠ [] → (putc s c p).2.2.cCf = p.cCf) ∧
        Grown s.cfreelist fl bs p.cCl fl' bs' ((putc s c p).2.2.cCl - 1)) ∨
      ((putc s c p).1 = -1 ∧ (putc s c p).2.1.cfreelist = 0 ∧
        Becomes s (putc s c p).2.1 bs fl (putc s c p).2.2 q) := by
  have hcc := h.queue.count
  rw [putc]
  by_cases hq : q = []
  · subst hq
    obtain ⟨rfl, rfl⟩ := h.empty
    rw [if_pos (.inl rfl)]
    split_ifs with hfree
    · exact .inr ⟨rfl, hfree, h.becomes⟩
    · obtain ⟨fl', hfl, hstock, hholds, hmoves⟩ := take_spec h.stock hfree
      have hmod : info s.cfreelist % cblock = 4 := by
        have := (hstock.blocks s.cfreelist mem_cons_self).1
        simp only [info, cblock] at *
        omega
      obtain ⟨hstock', hholds', hmoves'⟩ := put_spec hstock hholds (by omega) [charOf c]
        (by rw [hmod, length_singleton]; decide)
      refine .inl ⟨rfl, _, _, .of_holds hstock' rfl (by simp) ?_ hholds', hmoves.trans hmoves',
        (absurd rfl), .block rfl hfl⟩
      simp only [cblock] at *
      omega
  · obtain ⟨hcl, hholds⟩ := h.holds hq
    obtain ⟨_, d, _, hd, _⟩ := hholds.back
    rw [if_neg (by omega)]
    set g := growTail s p.cCl with hg
    dsimp only
    rcases growTail_spec h.stock hholds hg with
      ⟨hfull, hfree, _, _, hstock', hholds', hmoves⟩ |
      ⟨hgrown, hmod, bs', fl', hstock', hholds', hmoves, _, htail⟩
    · rw [hfull, if_neg (by decide)]
      exact .inr ⟨rfl, hfree, bs, fl, .of_holds hstock' hcc hq hcl hholds', hmoves⟩
    · rw [hgrown, if_pos rfl]
      have hlow := hholds'.tail_mod hstock'.aligned hmod
      have hlt := mod_lt g.2.2 (show 0 < cblock by decide)
      obtain ⟨hstock2, hholds2, hmoves2⟩ := put_spec hstock' hholds' hmod [charOf c]
        (by rw [length_singleton]; omega)
      refine .inl ⟨rfl, _, _, .of_holds hstock2 ?_ (by simp) ?_ hholds2, hmoves.trans hmoves2, fun _ => rfl, htail⟩
      · rw [length_append, length_singleton]
        push_cast
        rw [hcc]
      · simp only [cblock] at *
        omega

omit h

theorem schar_emod (b : UInt8) : schar b % 256 = b.toNat := by
  have := b.toNat_lt
  rw [schar]
  split <;> omega

theorem unputc_empty (h : Owned s fl p bs []) : unputc s p = (-1, s, p) := by
  obtain ⟨rfl, _⟩ := h.empty
  rfl

/-- The blocks after the last character is gone: as they were, or without the last one. The
end of the characters is then that of the block before. -/
inductive Shrunk (q : List UInt8) (fl bs : List ℕ) (cl : ℕ) : List ℕ → List ℕ → ℕ → Prop
  | room : q ≠ [] → (cl - 1) % cblock ≠ 4 → Shrunk q fl bs cl fl bs (cl - 1)
  | block {b cl' : ℕ} {bs' : List ℕ} : (q = [] ∨ (cl - 1) % cblock = 4) → bs = bs' ++ [b] →
      (q ≠ [] → ∃ bs₁ d, bs' = bs₁ ++ [d] ∧ cl' = d + cblock) → Shrunk q fl bs cl (b :: fl) bs' cl'

variable (h : Owned s fl p bs q)
include h

/-- `unputc` removes the last character. When its block has no other, the block before
is found from the front and becomes the last one. -/
theorem unputc_spec (hq : q ≠ []) : ∃ q' x, q = q' ++ [x] ∧ (unputc s p).1 = schar x ∧
    ∃ bs' fl', Owned (unputc s p).2.1 fl' (unputc s p).2.2 bs' q' ∧
      Moves s (unputc s p).2.1 (bs ++ fl) (bs' ++ fl') ∧ (q' ≠ [] → (unputc s p).2.2.cCf = p.cCf) ∧
      Shrunk q' fl bs p.cCl fl' bs' (unputc s p).2.2.cCl := by
  obtain ⟨hcl, hholds⟩ := h.holds hq
  have hal := h.stock.aligned
  obtain ⟨q', hq', hunput⟩ := hholds.unput hal hq hcl
  have hcc := h.queue.count
  have hlen : q.length = q'.length + 1 := by
    rw [hq', length_append, length_singleton]
  refine ⟨q', s.mem (p.cCl - 1), hq', ?_⟩
  rw [unputc, if_neg (by omega)]
  by_cases hone : q' = []
  · have hzero : q'.length = 0 := by rw [hone]; rfl
    have hfront := h.front_mod hq
    have hmod := mod_lt p.cCf (show 0 < cblock by decide)
    obtain ⟨b, hb, hcount, h1, h2⟩ := hholds.single hal hcl (by omega)
    have hbase : cbase (p.cCl - 1) = b := by
      apply cbase_eq (hal b (by rw [hb]; exact mem_cons_self)) (by omega)
      simp only [cblock] at *
      omega
    have hnew : p.cCc - 1 = 0 := by omega
    simp only [hnew, hbase]
    rw [if_pos (le_refl _), hone, hb]
    rw [hb] at h
    obtain ⟨hstock, hmoves, _⟩ := h.stock.release (List.Perm.refl _)
    exact ⟨rfl, [], b :: fl, ⟨hstock, queue_empty _⟩, hmoves, absurd rfl,
      .block (.inl rfl) rfl (absurd rfl)⟩
  have hpos : 0 < q'.length := length_pos_iff.2 hone
  have hnew : p.cCc - 1 = q'.length := by omega
  simp only [hnew]
  rw [if_neg (by omega)]
  split_ifs with hedge
  · obtain ⟨bs', b, c, hbs, hc, hdrop⟩ := hunput.dropBack hal hone hedge
    have hcmem : c ∈ bs := by simp [hbs]
    have hbase : cbase (p.cCl - 1) = c := by
      apply cbase_eq (hal c hcmem) (by omega)
      simp only [cblock]
      omega
    obtain ⟨d, ds, hd, hd1, hd2⟩ := hholds.front
    have hfront : cbase p.cCf = d := by
      apply cbase_eq (hal d (by rw [hd]; exact mem_cons_self)) (by omega) (by omega)
    have hfuel : bs'.length ≤ p.cCc.toNat := by
      have hcap := hholds.capacity hal
      rw [hbs, length_append] at hcap
      simp only [tailRoom, cblock, cbsize, length_cons, length_nil] at hcap
      omega
    have hchain := hholds.linked
    have hnodup := (nodup_append.1 h.stock.nodup).1
    rw [hbs] at hchain hnodup hd
    have hbefore : blockBefore s c p.cCc.toNat d = b :=
      blockBefore_spec s bs' p.cCc.toNat hfuel hchain hnodup hd
    have hnext : s.next b = c := by
      have := (isChain_append.1 hchain).2.1
      exact (isChain_cons_cons.1 this).1
    have hsplit : bs = (bs' ++ [b]) ++ [c] := by
      rw [hbs, append_assoc]
      rfl
    have hperm : bs.Perm (c :: (bs' ++ [b])) := by
      rw [hsplit]
      exact perm_append_singleton _ _
    obtain ⟨hstock1, hmoves1, _⟩ := h.stock.release hperm
    obtain ⟨hstock2, hholds2, hmoves2⟩ :=
      setNext_last hstock1 (hdrop.release h.stock hperm) rfl 0
    rw [hbase, hfront, hbefore, hnext]
    refine ⟨rfl, _, _, .of_holds hstock2 rfl hone ?_ hholds2, hmoves1.trans hmoves2, fun _ => rfl,
      .block (.inr hedge) hsplit fun _ => ⟨bs', b, rfl, rfl⟩⟩
    have := hal b (by simp [hbs])
    simp only [cblock] at *
    omega
  · exact ⟨rfl, bs, fl, .of_holds h.stock rfl hone hedge hunput, Moves.refl _ _, fun _ => rfl, .room hone hedge⟩

omit h

theorem Holds.succ_ne_last {cp : ℕ} {x : UInt8} (h : Holds s.mem cp bs cl (x :: q)) (hq : q ≠ [])
    (hal : ∀ b ∈ bs, b % cblock = 0) (hnodup : bs.Nodup) : cp + 1 ≠ cl := by
  intro heq
  obtain ⟨b, bs₁, hbs, h1, h2⟩ := h.front
  obtain ⟨bs2, d, hbs', h3, h4⟩ := h.back
  have hb := hal b (by rw [hbs]; exact mem_cons_self)
  have hd := hal d (by rw [hbs']; exact mem_append_right _ mem_cons_self)
  have hsame : d = b := by
    simp only [cblock] at *
    omega
  have hnil : bs2 = [] := by
    cases bs2 with
    | nil => rfl
    | cons e bs2 =>
      rw [hbs', hsame] at hbs
      obtain ⟨rfl, _⟩ := cons_eq_cons.1 hbs
      rw [hbs', hsame] at hnodup
      exact absurd (mem_append_right _ mem_cons_self) (nodup_cons.1 hnodup).1
  have hcap := h.capacity hal
  have hlen : 0 < q.length := length_pos_iff.2 hq
  rw [hbs', hnil] at hcap
  simp only [nil_append, length_cons, length_nil, tailRoom, cblock, cbsize] at *
  omega

theorem nextcWalk_zero (s : Pool) (p : Clist) (fuel : ℕ) : nextcWalk s p fuel 0 = [] := by
  cases fuel with
  | zero => rfl
  | succ fuel => rw [nextcWalk, if_pos rfl]

/-- `nextc` goes through the characters in order and ends behind the last one. -/
theorem nextcWalk_spec (fuel : ℕ) {cp : ℕ} (hfuel : q.length ≤ fuel) (hcc : p.cCc ≠ 0)
    (hal : ∀ b ∈ bs, b % cblock = 0) (hnodup : bs.Nodup) (hcl : p.cCl % cblock ≠ 4)
    (h : Holds s.mem cp bs p.cCl q) (hq : q ≠ []) : nextcWalk s p fuel cp = q := by
  induction fuel generalizing q cp bs with
  | zero => exact absurd (eq_nil_of_length_eq_zero (by omega)) hq
  | succ fuel ih =>
    obtain ⟨x, q, rfl⟩ := exists_cons_of_ne_nil hq
    obtain ⟨b, bs', hbs, h1, -⟩ := h.front
    have hb := hal b (by rw [hbs]; exact mem_cons_self)
    have hmod : cp % cblock + 1 ≤ cblock := mod_lt cp (by decide)
    have hlen : 1 ≤ (x :: q).length := by simp
    rw [length_cons] at hfuel
    have hfirst : s.mem cp = x := by
      simpa [bytes] using (h.take hal hlen hmod).symm
    rw [nextcWalk, if_neg (by omega), hfirst, nextc]
    by_cases hlast : q = []
    · subst hlast
      obtain ⟨_, _, hend, _⟩ := h.single hal hcl hmod
      rw [if_neg (fun hand => hand.2 hend), nextcWalk_zero]
    · rw [if_pos ⟨hcc, h.succ_ne_last hlast hal hnodup⟩]
      by_cases hedge : (cp + 1) % cblock = 0
      · have hfull : cp % cblock + 1 = cblock := by
          simp only [cblock] at *
          omega
        have hlt : 1 < (x :: q).length := by
          have := length_pos_iff.2 hlast
          rw [length_cons]
          omega
        obtain ⟨b', c, bs2, hbs2, hend, hnext, hrest⟩ := h.pass hal hlt hfull
        have hprev : s.next (cp + 1 - cblock) = c := by
          rw [show cp + 1 - cblock = b' by omega]
          exact hnext
        rw [if_pos hedge, hprev, info]
        rw [hbs2] at hal hnodup
        rw [ih (by simpa using hfuel) (fun d hd => hal d (mem_cons_of_mem _ hd))
          (nodup_cons.1 hnodup).2 hrest (by simpa using hlast), drop_one, tail_cons]
      · have hroom : cp % cblock + 1 < cblock := by
          simp only [cblock] at *
          omega
        rw [if_neg hedge, ih (by simpa using hfuel) hal hnodup (h.advance hal hlen hroom)
          (by simpa using hlast), drop_one, tail_cons]

include h

theorem Owned.nextcWalk {fuel : ℕ} (hfuel : q.length ≤ fuel) : nextcWalk s p fuel p.cCf = q := by
  by_cases hq : q = []
  · subst hq
    obtain ⟨rfl, _⟩ := h.empty
    exact nextcWalk_zero _ _ _
  · have hcc := h.queue.count
    have hpos := length_pos_iff.2 hq
    obtain ⟨hcl, hholds⟩ := h.holds hq
    exact nextcWalk_spec fuel hfuel (by omega) h.stock.aligned (nodup_append.1 h.stock.nodup).1
      hcl hholds hq

end Back

end RetroBSD.Tty
