import RetroBSD.ClistRefinement

/-!
# Laws of the queue routines

`catq` moves all characters of one queue behind those of another, whatever the free list
is. `unputc` takes back what `putc` has done, down to the pointers and the free list, but it
reads the character through a `char`: from 128 on the value is negative, and 255 comes back
as the -1 of an empty queue. `getc` masks it with 0377.
-/

namespace RetroBSD.Tty

open LittleEndian ByteCopy Ownership Runs Function

/-! ## `putc` and `unputc` on one queue -/

section One

variable {s : Pool} {fl bs : List ℕ} {p : Clist} {q : List UInt8}

theorem Owned.cCl_of_full (h : Owned s fl p bs q) (hq : q ≠ []) (hcl : p.cCl % cblock = 0) {bs1 : List ℕ} {d : ℕ}
    (hbs : bs = bs1 ++ [d]) : p.cCl = d + cblock := by
  obtain ⟨-, hholds⟩ := h.holds hq
  obtain ⟨bs2, e, hbs', h₁, h2⟩ := hholds.back
  obtain ⟨-, hde⟩ := List.append_inj' (hbs.symm.trans hbs') rfl
  obtain rfl : d = e := by simpa using hde
  have hd := h.stock.aligned d (by rw [hbs]; exact List.mem_append_right _ List.mem_cons_self)
  simp only [cblock] at *
  omega

theorem Grown.shrunk {fl1 bs1 fl2 bs2 : List ℕ} {cl1 cl2 : ℕ} (h : Owned s fl p bs q)
    (hgrown : Grown s.cfreelist fl bs p.cCl fl1 bs1 (cl1 - 1)) (hshrunk : Shrunk q fl1 bs1 cl1 fl2 bs2 cl2) :
    bs2 = bs ∧ fl2 = fl ∧ (q ≠ [] → cl2 = p.cCl) := by
  generalize hcl : cl1 - 1 = cl at hgrown
  cases hgrown with
  | room hroom =>
    have hq : q ≠ [] := by
      rintro rfl
      rw [h.empty.1] at hroom
      exact hroom rfl
    have hmod := (h.holds hq).1
    cases hshrunk with
    | room => exact ⟨rfl, rfl, fun _ => hcl⟩
    | block hlast =>
      rcases hlast with hnil | hedge
      · exact absurd hnil hq
      · rw [hcl] at hedge
        exact absurd hedge hmod
  | block hfull hfl =>
    have hb : s.cfreelist % cblock = 0 := by
      refine (h.stock.blocks s.cfreelist ?_).1
      rw [hfl]
      exact List.mem_append_right _ List.mem_cons_self
    have hedge : (cl1 - 1) % cblock = 4 := by
      simp only [info, cblock] at *
      omega
    cases hshrunk with
    | room _ hne => exact absurd hedge hne
    | block _ hbs hend =>
      obtain ⟨rfl, hlast⟩ := List.append_inj' hbs rfl
      obtain rfl := (List.cons.inj hlast).1
      refine ⟨rfl, hfl.symm, fun hq => ?_⟩
      obtain ⟨bs3, d, hd, rfl⟩ := hend hq
      exact (h.cCl_of_full hq hfull hd).symm

/-- An `unputc` after a `putc` leaves the queue and the free list as they were before. -/
theorem unputc_putc (h : Owned s fl p bs q) {c : ℤ} (hok : (putc s c p).1 = 0) :
    (unputc (putc s c p).2.1 (putc s c p).2.2).1 = schar (charOf c) ∧
      (unputc (putc s c p).2.1 (putc s c p).2.2).2.2 = p ∧
      Owned (unputc (putc s c p).2.1 (putc s c p).2.2).2.1 fl p bs q ∧
      Moves s (unputc (putc s c p).2.1 (putc s c p).2.2).2.1 (bs ++ fl) (bs ++ fl) := by
  obtain ⟨-, bs1, fl1, howned1, hmoves1, hcf1, hgrown⟩ | ⟨hfail, -⟩ := putc_spec h c
  swap
  · rw [hok] at hfail
    cases hfail
  obtain ⟨q', x, hsplit, hvalue, bs2, fl2, howned2, hmoves2, hcf2, hshrunk⟩ := unputc_spec howned1 (by simp)
  obtain ⟨rfl, hx⟩ := List.append_inj' hsplit rfl
  obtain rfl : charOf c = x := by simpa using hx
  generalize (putc s c p).2.1 = s1 at *
  generalize (putc s c p).2.2 = p1 at *
  generalize unputc s1 p1 = r at *
  obtain ⟨rfl, rfl, hcl⟩ := hgrown.shrunk h hshrunk
  have hp : r.2.2 = p := by
    by_cases hq : q = []
    · subst hq
      rw [howned2.empty.1, h.empty.1]
    · have hcc : r.2.2.cCc = p.cCc := howned2.queue.count.trans h.queue.count.symm
      have hcf : r.2.2.cCf = p.cCf := (hcf2 hq).trans (hcf1 hq)
      cases hr : r.2.2
      simp only [hr] at hcc hcf hcl
      rw [hcc, hcf, hcl hq]
  rw [hp] at howned2
  exact ⟨hvalue, hp, howned2, hmoves1.trans hmoves2⟩

end One

/-! ## The clists of the system -/

section All

variable {ι : Type*} [DecidableEq ι] {s : Clists ι} {A : Set ℕ} {lists : Option ι → List ℕ} {Q : ι → List UInt8}

/-- A queue that is moved behind another one keeps all its characters. -/
theorem catq_loses_nothing (h : s.Holding A lists Q) {i j : ι} (hij : i ≠ j) :
    ∃ s' lists', s.exec (.catq i j) = (.none, s') ∧ s'.queue i = ⟨0, 0, 0⟩ ∧
      s'.Holding A lists' (update (update Q i []) j (Q j ++ Q i)) := by
  obtain ⟨lists', h'⟩ := h.catq hij rfl
  refine ⟨_, lists', rfl, ?_, h'⟩
  have howns := h'.owns i
  rw [update_of_ne hij, update_self] at howns
  exact howns.empty.1

def Clists.putUnput (s : Clists ι) (c : ℤ) (i : ι) : Answer × Clists ι := (s.exec (.putc c i)).2.exec (.unputc i)

def Clists.Undone (s : Clists ι) (A : Set ℕ) (lists : Option ι → List ℕ) (Q : ι → List UInt8) (c : ℤ) (i : ι) :
    Prop :=
  (s.putUnput c i).1 = .int c ∧ (s.putUnput c i).2.queue = s.queue ∧
    (s.putUnput c i).2.pool.cfreecount = s.pool.cfreecount ∧ (s.putUnput c i).2.Holding A lists Q

theorem relist_self (lists : Option ι → List ℕ) (i : ι) : relist lists i (lists (some i)) (lists none) = lists := by
  funext o
  cases o with
  | none => rfl
  | some j =>
    rw [relist]
    split_ifs with hj
    · rw [hj]
    · rfl

theorem Clists.Holding.putUnput (h : s.Holding A lists Q) {c : ℤ} {i : ι}
    (hok : (putc s.pool c (s.queue i)).1 = 0) :
    (s.putUnput c i).1 = .int (schar (charOf c)) ∧ (s.putUnput c i).2.queue = s.queue ∧
      (s.putUnput c i).2.pool.cfreecount = s.pool.cfreecount ∧ (s.putUnput c i).2.Holding A lists Q := by
  obtain ⟨hvalue, hp, howned, hmoves⟩ := unputc_putc (h.owns i) hok
  have hqueue : update s.queue i (putc s.pool c (s.queue i)).2.2 i = (putc s.pool c (s.queue i)).2.2 :=
    update_self _ _ _
  have h' := h.relist howned hmoves
  rw [relist_self, update_eq_self, update_eq_self] at h'
  refine ⟨?_, ?_, ?_, ?_⟩
  · simp only [Clists.putUnput, Clists.exec, hqueue, hvalue]
  · simp only [Clists.putUnput, Clists.exec, hqueue, hp, update_idem, update_eq_self]
  · simp only [Clists.putUnput, Clists.exec, hqueue]
    rw [howned.stock.count, h.count]
  · simp only [Clists.putUnput, Clists.exec, hqueue, hp, update_idem, update_eq_self]
    exact h'

theorem schar_charOf {c : ℤ} (h₀ : 0 ≤ c) (h₁ : c < 256) : schar (charOf c) = c ↔ c < 128 := by
  have hval : (charOf c).toNat = c.toNat := by
    rw [charOf, Int.emod_eq_of_lt h₀ h₁, UInt8.toNat_ofNat']
    omega
  rw [schar]
  split_ifs <;> omega

theorem schar_eq_neg_one (b : UInt8) : schar b = -1 ↔ b = 255 := by
  have h255 : b = 255 ↔ b.toNat = 255 := UInt8.toNat_inj.symm
  rw [h255]
  by_cases h : b.toNat < 128
  · rw [schar]
    omega
  · rw [schar, if_neg h]
    omega

omit [DecidableEq ι] in
/-- `unputc` answers -1 on an empty queue, and when the last character is 255. -/
theorem Clists.Holding.unputc_neg_one (h : s.Holding A lists Q) (i : ι) :
    ((unputc s.pool (s.queue i)).1 = -1 ↔ Q i = []) ↔ (Q i).getLast? ≠ some 255 := by
  have howns := h.owns i
  by_cases hq : Q i = []
  · rw [hq] at howns ⊢
    rw [unputc_empty howns]
    simp
  · obtain ⟨rest, x, hsplit, hvalue, -⟩ := unputc_spec howns hq
    rw [hvalue, schar_eq_neg_one, hsplit]
    simp

/-- In every state the routines lead to, an `unputc` undoes a `putc` exactly for the
characters below 128, and tells an empty queue apart exactly if the last character is not
255. -/
theorem unputc_undoes_putc_iff (mem : Memory) {cfree nclist : ℕ} (hcfree : 0 < cfree)
    (hend : cfree + cblock * nclist ≤ wordMod) {es : List (Event ι)}
    (hrun : Run Clists.Step (Clists.start mem cfree nclist) es s) :
    ∃ lists Q, s.Holding {b | b ∈ cinitBlocks cfree nclist} lists Q ∧ ∀ i,
      (∀ c : ℤ, 0 ≤ c → c < 256 → (putc s.pool c (s.queue i)).1 = 0 →
        (s.Undone {b | b ∈ cinitBlocks cfree nclist} lists Q c i ↔ c < 128)) ∧
      (((unputc s.pool (s.queue i)).1 = -1 ↔ Q i = []) ↔ (Q i).getLast? ≠ some 255) := by
  obtain ⟨Q, -, lists, h⟩ := run_simulates mem hcfree hend hrun
  refine ⟨lists, Q, h, fun i => ⟨fun c h₀ h₁ hok => ?_, h.unputc_neg_one i⟩⟩
  obtain ⟨hvalue, hqueue, hcount, hholding⟩ := h.putUnput hok
  rw [← schar_charOf h₀ h₁]
  constructor
  · intro hundone
    have hc := hvalue.symm.trans hundone.1
    exact Answer.int.inj hc
  · intro hc
    rw [hc] at hvalue
    exact ⟨hvalue, hqueue, hcount, hholding⟩

end All

/-! ## Two queues -/

theorem two_clists_run : ∃ s : Clists Bool, Run Clists.Step (.start (fun _ => 0) 70 4)
    [⟨.putc 65 false, .int 0, false⟩, ⟨.putc 255 true, .int 0, false⟩] s ∧ (s.queue false).cCc = 1 ∧
      (putc s.pool 66 (s.queue true)).1 = 0 ∧ (putc s.pool 128 (s.queue true)).1 = 0 ∧
      (s.putUnput 128 true).1 = .int (-128) ∧ (s.queue true).cCc = 1 ∧
      (unputc s.pool (s.queue true)).1 = -1 := by
  refine ⟨_, .cons (Clists.step_exec _ trivial ?_ ?_) (.cons (Clists.step_exec _ trivial ?_ ?_) (.nil _)),
    ?_, ?_, ?_, ?_, ?_, ?_⟩ <;> decide +kernel

/-- A character of one queue goes behind that of the other. -/
theorem catq_loses_nothing_two_clists : ∃ (s : Clists Bool) (A : Set ℕ) (lists : Option Bool → List ℕ)
    (Q : Bool → List UInt8), s.Holding A lists Q ∧ (s.queue false).cCc = 1 ∧
      ∃ s' lists', s.exec (.catq false true) = (.none, s') ∧ s'.queue false = ⟨0, 0, 0⟩ ∧
        s'.Holding A lists' (update (update Q false []) true (Q true ++ Q false)) := by
  obtain ⟨s, hrun, hcount, -⟩ := two_clists_run
  obtain ⟨Q, -, lists, h⟩ := run_simulates (fun _ => 0) (by decide) (by decide) hrun
  exact ⟨s, _, lists, Q, h, hcount, catq_loses_nothing h Bool.false_ne_true⟩

/-- The character 66 is taken back. -/
theorem unputc_undoes_putc_iff_two_clists : ∃ (s : Clists Bool) (lists : Option Bool → List ℕ)
    (Q : Bool → List UInt8), (putc s.pool 66 (s.queue true)).1 = 0 ∧
      s.Undone {b | b ∈ cinitBlocks 70 4} lists Q 66 true := by
  obtain ⟨s, hrun, -, hok, -⟩ := two_clists_run
  obtain ⟨lists, Q, -, hiff⟩ := unputc_undoes_putc_iff (fun _ => 0) (by decide) (by decide) hrun
  exact ⟨s, lists, Q, hok, ((hiff true).1 66 (by decide) (by decide) hok).2 (by decide)⟩

/-- The character 128 comes back as -128, and after 255 a queue with a character in it
answers as an empty one does. -/
theorem unputc_returns_signed_char : ∃ s : Clists Bool, Run Clists.Step (.start (fun _ => 0) 70 4)
    [⟨.putc 65 false, .int 0, false⟩, ⟨.putc 255 true, .int 0, false⟩] s ∧
      (putc s.pool 128 (s.queue true)).1 = 0 ∧ (s.putUnput 128 true).1 = .int (-128) ∧
      (s.queue true).cCc = 1 ∧ (unputc s.pool (s.queue true)).1 = -1 := by
  obtain ⟨s, hrun, -, -, hok, hvalue, hcount, hneg⟩ := two_clists_run
  exact ⟨s, hrun, hok, hvalue, hcount, hneg⟩

end RetroBSD.Tty
