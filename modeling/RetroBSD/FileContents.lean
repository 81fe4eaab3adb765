import RetroBSD.InodeTruncate
import RetroBSD.ByteCopy

/-!
# The bytes of a file

`fileByte` is the byte at an offset of a file, zero in a hole. An operation on one
file `Touches` its own blocks and free ones only, so that the bytes of every other
file stay.
-/

namespace RetroBSD.Ufs

open LittleEndian RadixTree ByteCopy List

def rootOf (bn : ℕ) : Option (ℕ × ℕ) :=
  if bn < ndaddr then some (bn, 0)
  else (indirection (bn - ndaddr)).map fun p => (ndaddr + p.1 - 1, p.2)

def blockOf (disk : ℕ → Block) (iAddr : ℕ → ℕ) (bn : ℕ) : ℕ :=
  match rootOf bn with
  | none => 0
  | some (r, rel) => lookup nindir (pointers disk) (rootHeight r) (iAddr r) rel

def fileByte (disk : ℕ → Block) (iAddr : ℕ → ℕ) (off : ℕ) : UInt8 :=
  if blockOf disk iAddr (off / devBsize) = 0 then 0
  else disk (blockOf disk iAddr (off / devBsize)) (off % devBsize)

theorem rootOf_eq {r rel : ℕ} (hr : r < naddr) (hrel : rel < nindir ^ rootHeight r) :
    rootOf (rootBase r + rel) = some (r, rel) := by
  rw [rootOf]
  rcases root_cases hr hrel with ⟨-, hbn, hlevel, hind⟩ | ⟨hd, hbn, hh⟩
  · rw [if_neg hbn, hind, Option.map_some, hlevel]
  · rw [hh, pow_zero, Nat.lt_one_iff] at hrel
    rw [hbn, if_pos hd, hrel]

theorem rootOf_none {bn : ℕ} (h : maxBlocks ≤ bn) : rootOf bn = none := by
  simp only [maxBlocks, ndaddr, nindir] at h
  rw [rootOf, if_neg (by simp only [ndaddr]; omega), indirection,
    if_neg (by simp only [ndaddr, nindir]; omega), if_neg (by simp only [ndaddr, nindir]; omega),
    if_neg (by simp only [ndaddr, nindir]; omega), Option.map_none]

section Bytes

variable {disk disk' : ℕ → Block} {iAddr iAddr' : ℕ → ℕ} {bn b off : ℕ}

theorem mem_fileNodes_iff : ⟨0, bn, b⟩ ∈ fileNodes disk iAddr ↔ b ≠ 0 ∧ blockOf disk iAddr bn = b := by
  by_cases h : bn < maxBlocks
  · obtain ⟨r, hr, rel, hrel, rfl⟩ := exists_root h
    rw [mem_fileNodes_leaf hr hrel, blockOf, rootOf_eq hr hrel]
  · constructor
    · intro hn
      exact absurd (leaf_lt_maxBlocks hn) h
    · rintro ⟨hb, hbn⟩
      rw [blockOf, rootOf_none (not_lt.1 h)] at hbn
      exact absurd hbn.symm hb

theorem fileByte_of_mem (h : ⟨0, off / devBsize, b⟩ ∈ fileNodes disk iAddr) :
    fileByte disk iAddr off = disk b (off % devBsize) := by
  obtain ⟨hb, hbn⟩ := mem_fileNodes_iff.1 h
  rw [fileByte, hbn, if_neg hb]

theorem fileByte_of_hole (h : ∀ b, ⟨0, off / devBsize, b⟩ ∉ fileNodes disk iAddr) :
    fileByte disk iAddr off = 0 := by
  rw [fileByte, if_pos]
  by_contra hne
  exact h _ (mem_fileNodes_iff.2 ⟨hne, rfl⟩)

theorem fileByte_congr (hmem : ∀ b, ⟨0, off / devBsize, b⟩ ∈ fileNodes disk' iAddr' ↔
      ⟨0, off / devBsize, b⟩ ∈ fileNodes disk iAddr)
    (hdata : ∀ b, ⟨0, off / devBsize, b⟩ ∈ fileNodes disk iAddr →
      disk' b (off % devBsize) = disk b (off % devBsize)) :
    fileByte disk' iAddr' off = fileByte disk iAddr off := by
  by_cases h : ∃ b, ⟨0, off / devBsize, b⟩ ∈ fileNodes disk iAddr
  · obtain ⟨b, hb⟩ := h
    rw [fileByte_of_mem hb, fileByte_of_mem ((hmem b).2 hb), hdata b hb]
  · have hno := not_exists.1 h
    rw [fileByte_of_hole hno, fileByte_of_hole fun b hb => hno b ((hmem b).1 hb)]

end Bytes

/-- An operation on the file with the nodes `T` that used its own and free blocks. -/
structure Touches (st st' : Filsys) (l l' : List ℕ) (T T' : Set Node) : Prop where
  consistent : st'.Consistent l'
  ok : TreeOk st'.fs l' T'
  nodes : ∀ n ∈ T', n.block ∈ l ∨ ∃ m ∈ T, m.block = n.block
  list : ∀ b ∈ l', b ∈ l ∨ ∃ m ∈ T, m.block = b
  frame : ∀ b, b ∉ l → (∀ m ∈ T, m.block ≠ b) → st'.disk b = st.disk b
  isize : st'.fs.fsIsize = st.fs.fsIsize
  fsize : st'.fs.fsFsize = st.fs.fsFsize

section Touches

variable {st st₁ st₂ : Filsys} {l l₁ l₂ taken rest freed : List ℕ} {T T₁ T₂ : Set Node}
  {iAddr iAddr' : ℕ → ℕ} {x b length : ℕ}

theorem Touches.refl (h : st.Consistent l) (hT : TreeOk st.fs l T) : Touches st st l l T T :=
  ⟨h, hT, fun n hn => .inr ⟨n, hn, rfl⟩, fun _ hb => .inl hb, fun _ _ _ => rfl, rfl, rfl⟩

theorem Touches.trans (h : Touches st st₁ l l₁ T T₁) (h1 : Touches st₁ st₂ l₁ l₂ T₁ T₂) :
    Touches st st₂ l l₂ T T₂ := by
  have hback : ∀ b, b ∈ l₁ ∨ (∃ m ∈ T₁, m.block = b) → b ∈ l ∨ ∃ m ∈ T, m.block = b := by
    rintro b (hb | ⟨m, hm, rfl⟩)
    · exact h.list b hb
    · exact h.nodes m hm
  refine ⟨h1.consistent, h1.ok, fun n hn => hback _ (h1.nodes n hn),
    fun b hb => hback _ (h1.list b hb), ?_, h1.isize.trans h.isize, h1.fsize.trans h.fsize⟩
  intro b hb hT
  have hno : ¬ (b ∈ l ∨ ∃ m ∈ T, m.block = b) := by
    rintro (hl | ⟨m, hm, hmb⟩)
    exacts [hb hl, hT m hm hmb]
  rw [h1.frame b (fun hl => hno (h.list b hl)) (fun m hm hmb => hno (hmb ▸ h.nodes m hm)),
    h.frame b hb hT]

theorem Grows.touches (h : Grows st st₁ l l₁ taken T T₁ x) : Touches st st₁ l l₁ T T₁ := by
  refine ⟨h.consistent, h.ok, ?_, ?_, ?_, h.isize, h.fsize⟩
  · intro n hn
    by_cases hnT : n ∈ T
    · exact .inr ⟨n, hnT, rfl⟩
    · rw [h.split]
      exact .inl (mem_append_left _ (h.new n hn hnT).1)
  · intro b hb
    rw [h.split]
    exact .inl (mem_append_right _ hb)
  · intro b hb hT
    apply h.frame b
    · intro hmem
      rw [h.split] at hb
      exact hb (mem_append_left _ hmem)
    · exact fun n hn _ => hT n hn

theorem touches_write (h : st.Consistent l) (hT : TreeOk st.fs l (fileNodes st.disk iAddr))
    (hb : ⟨0, x, b⟩ ∈ fileNodes st.disk iAddr) (data : Block) :
    Touches st (st.write b data) l l (fileNodes st.disk iAddr)
      (fileNodes (st.write b data).disk iAddr) := by
  rw [fileNodes_write hT hb]
  refine ⟨h.write (hT.unlisted _ hb) data, hT, fun n hn => .inr ⟨n, hn, rfl⟩, fun _ hb => .inl hb, ?_,
    rfl, rfl⟩
  intro c _ hcT
  exact write_disk_of_ne _ _ fun hcb => hcT _ hb hcb.symm

theorem TailCleared.touches (h : TailCleared st st₁ l taken rest T T₁ length) :
    Touches st st₁ l rest T T₁ := by
  refine ⟨h.consistent, h.ok, ?_, ?_, h.frame, h.isize, h.fsize⟩
  · intro n hn
    by_cases hnT : n ∈ T
    · exact .inr ⟨n, hnT, rfl⟩
    · rw [h.split]
      exact .inl (mem_append_left _ (h.new n hn hnT).1)
  · intro b hb
    rw [h.split]
    exact .inl (mem_append_right _ hb)

theorem FileCut.touches {c : ℕ} (h : FileCut st st₁ l freed iAddr iAddr' c)
    (hT : TreeOk st.fs l (fileNodes st.disk iAddr)) :
    Touches st st₁ l (freed ++ l) (fileNodes st.disk iAddr) (fileNodes st₁.disk iAddr') := by
  have hsub : ∀ n ∈ fileNodes st₁.disk iAddr', n ∈ fileNodes st.disk iAddr ∧ n.start < c := by
    intro n hn
    rwa [h.nodes] at hn
  refine ⟨h.consistent, ⟨?_, ?_, ?_⟩, fun n hn => .inr ⟨n, (hsub n hn).1, rfl⟩, ?_, ?_, h.isize,
    h.fsize⟩
  · exact hT.inj.mono fun n hn => (hsub n hn).1
  · intro n hn
    have := hT.good n (hsub n hn).1
    simpa only [badblock, h.isize, h.fsize] using this
  · intro n hn hmem
    rcases mem_append.1 hmem with hf | hl
    · obtain ⟨m, ⟨hm, hc⟩, heq⟩ := uncovered_iff.1 ((h.freed _).1 hf)
      rw [hT.inj hm (hsub n hn).1 heq] at hc
      exact absurd (hsub n hn).2 (not_lt.2 hc)
    · exact hT.unlisted n (hsub n hn).1 hl
  · intro b hb
    rcases mem_append.1 hb with hf | hl
    · obtain ⟨m, hm, rfl, _⟩ := (h.freed _).1 hf
      exact .inr ⟨m, hm, rfl⟩
    · exact .inl hl
  · intro b _ hbT
    exact h.frame b fun n hn _ => hbT n hn

theorem Touches.other (h : Touches st st₁ l l₁ T T₁)
    (hU : TreeOk st.fs l (fileNodes st.disk iAddr))
    (hapart : ∀ n ∈ T, ∀ m ∈ fileNodes st.disk iAddr, n.block ≠ m.block) :
    fileNodes st₁.disk iAddr = fileNodes st.disk iAddr ∧
      TreeOk st₁.fs l₁ (fileNodes st.disk iAddr) ∧
      (∀ n ∈ T₁, ∀ m ∈ fileNodes st.disk iAddr, n.block ≠ m.block) ∧
      fileByte st₁.disk iAddr = fileByte st.disk iAddr := by
  have hdisk : ∀ m ∈ fileNodes st.disk iAddr, st₁.disk m.block = st.disk m.block := fun m hm =>
    h.frame _ (hU.unlisted m hm) fun n hn => hapart n hn m hm
  have hnodes : fileNodes st₁.disk iAddr = fileNodes st.disk iAddr :=
    fileNodes_congr (fun _ _ => rfl) fun n hn _ => hdisk n hn
  refine ⟨hnodes, ⟨hU.inj, ?_, ?_⟩, ?_, ?_⟩
  · intro m hm
    have := hU.good m hm
    simpa only [badblock, h.isize, h.fsize] using this
  · intro m hm hl
    rcases h.list _ hl with hl | ⟨n, hn, heq⟩
    · exact hU.unlisted m hm hl
    · exact hapart n hn m hm heq
  · intro n hn m hm heq
    rcases h.nodes n hn with hl | ⟨n', hn', heq'⟩
    · exact hU.unlisted m hm (heq ▸ hl)
    · exact hapart n' hn' m hm (heq'.trans heq)
  · funext off
    apply fileByte_congr
    · intro b
      rw [hnodes]
    · intro b hb
      rw [hdisk _ hb]

end Touches

section Effects

variable {st st₁ : Filsys} {ip : Inode} {l l₁ taken rest freed : List ℕ} {iAddr₁ iAddr' : ℕ → ℕ}
  {x b off length : ℕ}

theorem Grows.byte (h : Grows st st₁ l l₁ taken (fileNodes st.disk ip.iAddr) (fileNodes st₁.disk iAddr₁) x)
    (hT : TreeOk st.fs l (fileNodes st.disk ip.iAddr)) (hold : off / devBsize = x →
      ∃ b, ⟨0, x, b⟩ ∈ fileNodes st.disk ip.iAddr) :
    fileByte st₁.disk iAddr₁ off = fileByte st.disk ip.iAddr off := by
  apply fileByte_congr
  · intro b
    refine ⟨fun hb => ?_, fun hb => h.sub hb⟩
    by_contra hnot
    have hx := (h.new _ hb hnot).2
    simp only [pow_zero] at hx
    have hoff : off / devBsize = x := by omega
    obtain ⟨c, hc⟩ := hold hoff
    rw [hoff] at hb hnot
    exact hnot (leaf_unique hb (h.sub hc) ▸ hc)
  · intro b hb
    rw [h.frame b]
    · intro hmem
      apply hT.unlisted _ hb
      rw [h.split]
      exact mem_append_left _ hmem
    · intro n hn hpos heq
      rw [hT.inj hn hb heq] at hpos
      exact absurd hpos (lt_irrefl 0)

variable {data : List UInt8} {n : ℕ}

theorem place_block {f g : ℕ → UInt8} {on : ℕ} (hdata : data.length = n)
    (hon : on = off % devBsize) {o : ℕ} (ho : o / devBsize = off / devBsize)
    (hfg : n < devBsize → g (o % devBsize) = f o) (hn : on + n ≤ devBsize) :
    place g on data (o % devBsize) = place f off data o := by
  have hdiv := Nat.div_add_mod off devBsize
  have hdiv' := Nat.div_add_mod o devBsize
  rw [ho] at hdiv'
  have hlt : o % devBsize < devBsize := Nat.mod_lt _ (by decide)
  by_cases hbefore : o % devBsize < on
  · rw [place_of_lt hbefore, place_of_lt (by omega), hfg (by omega)]
  obtain ⟨i, hi⟩ := Nat.exists_eq_add_of_le (not_lt.1 hbefore)
  by_cases hin : i < data.length
  · have hoi : o = off + i := by omega
    rw [hi, place_of_mem hin]
    conv_rhs => rw [hoi]
    rw [place_of_mem hin]
  · rw [place_of_le (by omega), place_of_le (by omega), hfg (by omega)]

variable {stale : Block}

theorem fileByte_write {buf : Block} {iAddr : ℕ → ℕ}
    (hT : TreeOk st.fs l (fileNodes st.disk iAddr)) (hb : ⟨0, off / devBsize, b⟩ ∈ fileNodes st.disk iAddr)
    (hdata : data.length = n) (hn : off % devBsize + n ≤ devBsize)
    (hbuf : buf = place (if n = devBsize then stale else st.disk b) (off % devBsize) data) :
    fileByte (st.write b buf).disk iAddr = place (fileByte st.disk iAddr) off data := by
  have hnodes : fileNodes (st.write b buf).disk iAddr = fileNodes st.disk iAddr := fileNodes_write hT hb buf
  funext o
  by_cases ho : o / devBsize = off / devBsize
  · have hbo : ⟨0, o / devBsize, b⟩ ∈ fileNodes (st.write b buf).disk iAddr := by
      rw [hnodes, ho]
      exact hb
    rw [fileByte_of_mem hbo, write_disk_self, hbuf]
    apply place_block hdata rfl ho _ hn
    intro hlt
    rw [if_neg hlt.ne]
    exact (fileByte_of_mem (ho ▸ hb)).symm
  · have hsame : fileByte (st.write b buf).disk iAddr o = fileByte st.disk iAddr o := by
      apply fileByte_congr
      · intro c
        rw [hnodes]
      · intro c hc
        rw [write_disk_of_ne]
        intro hcb
        have := hT.inj hc hb hcb
        rw [Node.mk.injEq] at this
        exact ho this.2.1
    have hout : o < off ∨ off + data.length ≤ o := by
      simp only [devBsize] at *
      omega
    rw [hsame]
    rcases hout with hlt | hle
    · rw [place_of_lt hlt]
    · rw [place_of_le hle]

/-- One round of a write: the block of `off` is found or allocated, and `data` placed
in it. -/
theorem write_effect {buf : Block} {v : ℤ} {ip1 : Inode}
    (h : st.Consistent l) (hT : TreeOk st.fs l (fileNodes st.disk ip.iAddr))
    (hx : off / devBsize < maxBlocks) (hdata : data.length = n) (hn : off % devBsize + n ≤ devBsize)
    (hres : (v, ip1, st₁) = bmap st ip (off / devBsize : ℕ) .write (n ≠ devBsize) stale) (hv : 0 ≤ v)
    (hbuf : buf = place (if n = devBsize then stale else st₁.disk v.toNat) (off % devBsize) data) :
    ∃ l', Touches st (st₁.write v.toNat buf) l l' (fileNodes st.disk ip.iAddr)
        (fileNodes (st₁.write v.toNat buf).disk ip1.iAddr) ∧
      fileByte (st₁.write v.toNat buf).disk ip1.iAddr = place (fileByte st.disk ip.iAddr) off data ∧
      l.length ≤ l'.length + 4 ∧ st₁.uError = st.uError ∧ ∃ r p, ip1 = ip.setAddr r p := by
  obtain ⟨taken, l', hlen, hip, hg, hreach⟩ := bmap_write h hT hx _ stale hres
  rcases hreach with ⟨b, hb, hval, herr, hfresh⟩ | ⟨hval, _⟩
  · have hvb : v.toNat = b := by
      have hsigned : v = signed b := hval
      have hlt := lt_of_signed_nonneg (hg.ok.lt_wordMod hg.consistent hb) (hsigned ▸ hv)
      rw [hsigned, signed_of_lt hlt, Int.toNat_natCast]
    rw [hvb] at hbuf ⊢
    refine ⟨l', hg.touches.trans (touches_write hg.consistent hg.ok hb buf), ?_, ?_, herr, hip⟩
    · rw [fileByte_write hg.ok hb hdata hn hbuf]
      funext o
      by_cases hin : off ≤ o ∧ o < off + data.length
      · obtain ⟨i, rfl⟩ := Nat.exists_eq_add_of_le hin.1
        rw [place_of_mem (by omega), place_of_mem (by omega)]
      have hout : o < off ∨ off + data.length ≤ o := by omega
      have hbyte : fileByte st₁.disk ip1.iAddr o = fileByte st.disk ip.iAddr o := by
        by_cases hold : off / devBsize = o / devBsize → ∃ b, ⟨0, off / devBsize, b⟩ ∈ fileNodes st.disk ip.iAddr
        · exact hg.byte hT fun heq => hold heq.symm
        -- a new block: it is cleared, unless the write covers it
        rw [Classical.not_imp] at hold
        obtain ⟨ho, hno⟩ := hold
        have hlt : n ≠ devBsize := by
          simp only [devBsize] at *
          omega
        have hzero : st₁.disk b = zeroBlock := by
          rw [show st₁.disk b = _ from hfresh fun hold => hno ⟨b, hold⟩, freshBlock, if_neg]
          rintro ⟨_, hfalse⟩
          exact hlt (by simpa using hfalse)
        rw [fileByte_of_mem (ho ▸ hb), hzero, fileByte_of_hole]
        · rfl
        · intro c hc
          exact hno ⟨c, ho ▸ hc⟩
      rcases hout with hlt | hle
      · rw [place_of_lt hlt, place_of_lt hlt, hbyte]
      · rw [place_of_le hle, place_of_le hle, hbyte]
    · rw [hg.split, length_append]
      omega
  · omega

theorem bmap_write_fails {clrbuf : Bool} {v : ℤ} {ip1 : Inode} (h : st.Consistent l)
    (hT : TreeOk st.fs l (fileNodes st.disk ip.iAddr)) (hfsize : st.fs.fsFsize ≤ 2 ^ 31)
    (herr : st.uError = 0) (hx : x < maxBlocks)
    (hres : (v, ip1, st₁) = bmap st ip x .write clrbuf stale) (hfail : st₁.uError ≠ 0 ∨ v < 0) :
    st₁.uError = enospc ∧ l.length ≤ 4 := by
  obtain ⟨taken, l', hlen, -, hg, hreach⟩ := bmap_write h hT hx _ stale hres
  rcases hreach with ⟨b, hb, hval, herr', _⟩ | ⟨_, hfull, rfl⟩
  · have hgood := hg.ok.good _ hb
    rw [badblock, hg.fsize] at hgood
    have hlt : b < 2 ^ 31 := by
      simp only at hgood
      omega
    have hv : v = b := hval.trans (signed_of_lt hlt)
    have herr1 : st₁.uError = 0 := herr'.trans herr
    omega
  · refine ⟨hfull, ?_⟩
    rw [hg.split, append_nil]
    exact hlen

end Effects

end RetroBSD.Ufs
