import RetroBSD.Pipe

/-!
# What a pipe contains

`Contents` says that the bytes `q` lie in the file of the pipe between two offsets, in
blocks that the buffer cache keeps. Reading takes bytes away at the lower end and may give
up blocks with no bytes left; writing adds bytes at the upper end. Nothing that happens to
the blocks given up, or to other files, changes the bytes.
-/

namespace RetroBSD.Pipe

open LittleEndian RadixTree ByteCopy Ufs Function

structure Contents (st : Filsys) (iAddr : ℕ → ℕ) (cleared : ℕ → Bool) (lo hi : ℕ) (q : List UInt8) :
    Prop where
  ok : ∃ l, st.Consistent l ∧ TreeOk st.fs l (fileNodes st.disk iAddr)
  fsize : st.fs.fsFsize ≤ 2 ^ 31
  uError : st.uError = 0
  leaf : ∀ b, cleared b = true → ∃ x, ⟨0, x, b⟩ ∈ fileNodes st.disk iAddr
  kept : ∀ o, lo ≤ o → o < hi → ∃ b, ⟨0, o / devBsize, b⟩ ∈ fileNodes st.disk iAddr ∧
    cleared b = false
  le : lo ≤ hi
  eq : bytes (fileByte st.disk iAddr) lo (hi - lo) = q

variable {st st' : Filsys} {ip ip' : Inode} {iAddr : ℕ → ℕ} {cleared : ℕ → Bool} {lo hi n b : ℕ}
  {q data : List UInt8} {stale buf : Block}

variable (h : Contents st iAddr cleared lo hi q)
include h

theorem Contents.reset : Contents st iAddr cleared 0 0 [] :=
  ⟨h.ok, h.fsize, h.uError, h.leaf, fun _ _ ho => absurd ho (Nat.not_lt_zero _), le_rfl, rfl⟩

theorem Contents.length_eq : q.length = hi - lo := by
  rw [← h.eq, length_bytes]

theorem Contents.recycle (hb : cleared b = true)
    (data : Block) : Contents (st.write b data) iAddr cleared lo hi q := by
  obtain ⟨l, hl, hT⟩ := h.ok
  obtain ⟨x, hx⟩ := h.leaf b hb
  have hnodes : fileNodes (st.write b data).disk iAddr = fileNodes st.disk iAddr :=
    fileNodes_write hT hx data
  have htouch := touches_write hl hT hx data
  refine ⟨⟨l, htouch.consistent, htouch.ok⟩, h.fsize, h.uError, ?_, ?_, h.le, ?_⟩
  · rw [hnodes]
    exact h.leaf
  · rw [hnodes]
    exact h.kept
  · rw [← h.eq]
    refine bytes_congr fun i hi => fileByte_congr (fun c => by rw [hnodes]) fun c hc => ?_
    obtain ⟨d, hd, hkept⟩ := h.kept (lo + i) (by omega) (by omega)
    have hcb : c ≠ b := by
      intro hcb
      rw [← leaf_unique hc hd, hcb, hb] at hkept
      cases hkept
    rw [write_disk_of_ne _ _ hcb]

omit h

theorem Contents.other {P : Type} {s : State P} (h : Contents s.st s.ip.iAddr cleared lo hi q)
    (helse : s.Elsewhere st) : Contents st s.ip.iAddr cleared lo hi q := by
  obtain ⟨l, hl, hT⟩ := h.ok
  obtain ⟨l', T, T', htouch, hapart⟩ := helse.2 l hl hT
  obtain ⟨hnodes, hT', _, hbytes⟩ := htouch.other hT hapart
  refine ⟨⟨l', htouch.consistent, hnodes ▸ hT'⟩, htouch.fsize.symm ▸ h.fsize,
    helse.1.trans h.uError, ?_, ?_, h.le, ?_⟩
  · rw [hnodes]
    exact h.leaf
  · rw [hnodes]
    exact h.kept
  · rw [hbytes]
    exact h.eq

/-- The first bytes are read; the block they end in is given up at most when it has no
others left. -/
theorem Contents.read {cleared' : ℕ → Bool} (h : Contents st iAddr cleared lo hi q)
    (hn : lo + n ≤ hi) (hb : ⟨0, lo / devBsize, b⟩ ∈ fileNodes st.disk iAddr)
    (hcleared : cleared' = cleared ∨
      cleared' = update cleared b true ∧ (n + lo % devBsize = devBsize ∨ lo + n = hi)) :
    Contents st iAddr cleared' (lo + n) hi (q.drop n) := by
  refine ⟨h.ok, h.fsize, h.uError, ?_, ?_, hn, ?_⟩
  · intro c hc
    rcases hcleared with rfl | ⟨rfl, _⟩
    · exact h.leaf c hc
    · by_cases hcb : c = b
      · exact ⟨_, hcb ▸ hb⟩
      · rw [update_of_ne hcb] at hc
        exact h.leaf c hc
  · intro o hlo hhi
    obtain ⟨c, hc, hkept⟩ := h.kept o (by omega) hhi
    refine ⟨c, hc, ?_⟩
    rcases hcleared with rfl | ⟨rfl, hend⟩
    · exact hkept
    · obtain ⟨l, -, hT⟩ := h.ok
      have hcb : c ≠ b := by
        intro hcb
        have heq := hT.inj hc hb hcb
        rw [Node.mk.injEq] at heq
        simp only [devBsize] at *
        omega
      rw [update_of_ne hcb]
      exact hkept
  · rw [← h.eq, drop_bytes, Nat.sub_add_eq]

theorem Contents.bmap_read (h : Contents st ip.iAddr cleared lo hi q) (hlt : lo < hi) :
    ∃ b : ℕ, bmap st ip (lo / devBsize : ℕ) .read false zeroBlock = ((b : ℤ), ip, st) ∧
      ⟨0, lo / devBsize, b⟩ ∈ fileNodes st.disk ip.iAddr := by
  obtain ⟨b, hb, _⟩ := h.kept lo le_rfl hlt
  obtain ⟨l, _, hT⟩ := h.ok
  have hgood := hT.good _ hb
  have hfsize := h.fsize
  have hlt : b < 2 ^ 31 := by
    simp only [badblock] at hgood
    omega
  refine ⟨b, ?_, hb⟩
  rw [bmap_read_of_mem hb, signed_of_lt hlt]

theorem Contents.take_eq (h : Contents st iAddr cleared lo hi q) (hn : lo + n ≤ hi)
    (hin : lo % devBsize + n ≤ devBsize)
    (hb : ⟨0, lo / devBsize, b⟩ ∈ fileNodes st.disk iAddr) :
    bytes (st.disk b) (lo % devBsize) n = q.take n := by
  rw [← h.eq, take_bytes, min_eq_left (by omega)]
  refine bytes_congr fun i hi => ?_
  have hdiv : (lo + i) / devBsize = lo / devBsize ∧ (lo + i) % devBsize = lo % devBsize + i := by
    simp only [devBsize] at *
    omega
  rw [fileByte_of_mem (hdiv.1.symm ▸ hb), hdiv.2]

theorem Contents.bmap_write {v : ℤ} {clrbuf : Bool} (h : Contents st ip.iAddr cleared lo hi q)
    (hmax : hi / devBsize < maxBlocks)
    (hres : (v, ip', st') = bmap st ip (hi / devBsize : ℕ) .write clrbuf stale)
    (hv : 0 ≤ v) (herr : st'.uError = 0) :
    Contents st' ip'.iAddr cleared lo hi q ∧ (∃ r p, ip' = ip.setAddr r p) ∧
      ∃ b : ℕ, v = b ∧ ⟨0, hi / devBsize, b⟩ ∈ fileNodes st'.disk ip'.iAddr := by
  obtain ⟨l, hl, hT⟩ := h.ok
  obtain ⟨taken, l', _, hip, hg, hreach⟩ := Ufs.bmap_write hl hT hmax clrbuf stale hres
  rcases hreach with ⟨b, hb, hval, _, _⟩ | ⟨hval, _⟩
  · have hvb : v = b := by
      have hsigned : v = signed b := hval
      have hlt := lt_of_signed_nonneg (hg.ok.lt_wordMod hg.consistent hb) (hsigned ▸ hv)
      rw [hsigned, signed_of_lt hlt]
    refine ⟨⟨⟨l', hg.consistent, hg.ok⟩, hg.fsize.symm ▸ h.fsize, herr, ?_, ?_, h.le, ?_⟩, hip, b,
      hvb, hb⟩
    · intro c hc
      obtain ⟨x, hx⟩ := h.leaf c hc
      exact ⟨x, hg.sub hx⟩
    · intro o hlo hhi
      obtain ⟨c, hc, hkept⟩ := h.kept o hlo hhi
      exact ⟨c, hg.sub hc, hkept⟩
    · rw [← h.eq]
      refine bytes_congr fun i hi => hg.byte hT fun heq => ?_
      obtain ⟨c, hc, _⟩ := h.kept (lo + i) (by omega) (by omega)
      exact ⟨c, heq ▸ hc⟩
  · omega

theorem Contents.write (h : Contents st iAddr cleared lo hi q)
    (hb : ⟨0, hi / devBsize, b⟩ ∈ fileNodes st.disk iAddr) (hdata : data.length = n)
    (hin : hi % devBsize + n ≤ devBsize)
    (hbuf : buf = place (if n = devBsize then stale else st.disk b) (hi % devBsize) data) :
    Contents (st.write b buf) iAddr (update cleared b false) lo (hi + n) (q ++ data) := by
  obtain ⟨l, hl, hT⟩ := h.ok
  have hnodes : fileNodes (st.write b buf).disk iAddr = fileNodes st.disk iAddr :=
    fileNodes_write hT hb buf
  have htouch := touches_write hl hT hb buf
  refine ⟨⟨l, htouch.consistent, htouch.ok⟩, h.fsize, h.uError, ?_, ?_,
    h.le.trans (Nat.le_add_right _ _), ?_⟩
  · intro c hc
    rw [hnodes]
    by_cases hcb : c = b
    · rw [hcb, update_self] at hc
      cases hc
    · rw [update_of_ne hcb] at hc
      exact h.leaf c hc
  · intro o hlo hhi
    rw [hnodes]
    by_cases hold : o < hi
    · obtain ⟨c, hc, hkept⟩ := h.kept o hlo hold
      refine ⟨c, hc, ?_⟩
      rw [update_apply, hkept, ite_self]
    · have hdiv : o / devBsize = hi / devBsize := by
        simp only [devBsize] at *
        omega
      exact ⟨b, hdiv.symm ▸ hb, update_self _ _ _⟩
  · obtain ⟨k, rfl⟩ := Nat.exists_eq_add_of_le h.le
    have hlen : lo + k + n - lo = k + data.length := by omega
    rw [fileByte_write hT hb hdata hin hbuf, hlen, bytes_place, ← h.eq, Nat.add_sub_cancel_left]

end RetroBSD.Pipe
