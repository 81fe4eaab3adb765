import RetroBSD.ResourceMapRefinement

/-!
# The table of a resource map

`swapmap` is declared with a limit one slot behind its array, where `map.h` asks for the
address of the last slot. The calls keep to the array as long as no new segment is entered
into a full table: that one moves the entry that ends the map past the last slot, because
the limit is only reached one slot later.
-/

namespace RetroBSD.ResourceMap

open Runs SeparatedIntervals List

def smapsiz : ℕ := 25

def swapmap : Map := ⟨List.replicate smapsiz terminator, smapsiz⟩

/-- A range that is given back lies in the address space and is not free. -/
def Map.Owed (mp : Map) : Request → Prop
  | .mfree size addr => addr + size ≤ sizeMod ∧ Disjoint (Set.Ico addr (addr + size)) mp.freeUnits
  | _ => True

/-- The range touches a stored segment, or there is a slot for one more. -/
def Map.Fits (mp : Map) : Request → Prop
  | .mfree size addr => size = 0 ∨ addr = 0 ∨ Abuts size addr mp.segments ∨ mp.segments.length + 1 < mp.mMap.length
  | _ => True

/-- No slot behind the array is reached, and a range for which a full table has no slot
leaves the stored segments alone. -/
def Map.KeepsToTable (mp : Map) (req : Request) : Prop :=
  mp.exec req ≠ .error offTheMap ∧
    ∀ size addr mp', req = .mfree size addr → mp.segments.length + 1 = mp.mMap.length →
      ¬Abuts size addr mp.segments → mfree mp size addr = .ok mp' → mp'.segments = mp.segments

def Map.TableStep (mp : Map) (call : Request × Response) (mp' : Map) : Prop :=
  mp.Owed call.1 ∧ mp.Fits call.1 ∧ mp.exec call.1 = .ok (call.2, mp')

/-- A well-formed table of `SMAPSIZ` slots whose limit is the slot behind it. -/
structure Map.Table (mp : Map) : Prop where
  wellFormed : mp.WellFormed
  slots : mp.mMap.length = smapsiz
  limit : mp.mLimit = smapsiz

theorem swapmap_table : swapmap.Table where
  wellFormed := wellFormed_iff.2 ⟨[], List.replicate 24 terminator, rfl, ⟨⟨by simp, by simp⟩, by simp⟩⟩
  slots := rfl
  limit := rfl

variable {mp mp' : Map} {req : Request} {size addr : ℕ}

theorem Map.Table.segments_lt (h : mp.Table) : mp.segments.length < smapsiz := by
  obtain ⟨hlt, -⟩ := List.getElem?_eq_some_iff.1 h.wellFormed.ended
  exact h.slots ▸ hlt

theorem Map.Table.hasRoom (h : mp.Table) (hslot : mp.segments.length + 1 < mp.mMap.length) : mp.HasRoom := by
  refine ⟨?_, hslot⟩
  rw [h.limit]
  exact h.segments_lt

theorem Map.Table.mfree (h : mp.Table) (howed : mp.Owed (.mfree size addr)) (hfits : mp.Fits (.mfree size addr))
    (hsize : 0 < size) (haddr : 0 < addr) : ∃ mp', mfree mp size addr = .ok mp' ∧ mp'.Table := by
  obtain ⟨hstop, hdisj⟩ := howed
  have hroom : Abuts size addr mp.segments ∨ mp.HasRoom := by
    rcases hfits with hz | hz | hab | hslot
    · omega
    · omega
    · exact .inl hab
    · exact .inr (h.hasRoom hslot)
  obtain ⟨mp', hrun, hwf, hlimit, hlen, -⟩ := mfree_spec h.wellFormed hsize haddr hstop hdisj hroom
  exact ⟨mp', hrun, hwf, hlen.trans h.slots, hlimit.trans h.limit⟩

theorem Map.Table.exec (h : mp.Table) (howed : mp.Owed req) (hfits : mp.Fits req) :
    (∃ res mp', mp.exec req = .ok (res, mp') ∧ mp'.Table) ∨
      ∃ msg, mp.exec req = .error msg ∧ msg ≠ offTheMap := by
  cases req with
  | malloc size =>
    by_cases hsize : size = 0
    · refine .inr ⟨"malloc: size = 0", ?_, by decide⟩
      rw [Map.exec, malloc, if_pos hsize]
      rfl
    · obtain ⟨ret, mp', hrun, hwf, hlimit, hlen, -⟩ := malloc_spec h.wellFormed (Nat.pos_of_ne_zero hsize)
      refine .inl ⟨.address ret, mp', ?_, hwf, hlen.trans h.slots, hlimit.trans h.limit⟩
      rw [Map.exec, hrun]
      rfl
  | malloc3 sizes =>
    obtain ⟨r, mp', hrun, hwf, hlimit, hlen, -⟩ := malloc3_spec h.wellFormed sizes
    refine .inl ⟨.addresses r, mp', ?_, hwf, hlen.trans h.slots, hlimit.trans h.limit⟩
    rw [Map.exec, hrun]
    rfl
  | mfree size addr =>
    by_cases hsize : size = 0
    · refine .inl ⟨.done, mp, ?_, h⟩
      rw [Map.exec, ResourceMap.mfree, if_pos hsize]
      rfl
    by_cases haddr : addr = 0
    · refine .inr ⟨"mfree: addr = 0", ?_, by decide⟩
      rw [Map.exec, ResourceMap.mfree, if_neg hsize, if_pos haddr]
      rfl
    obtain ⟨mp', hrun, htable⟩ := h.mfree howed hfits (Nat.pos_of_ne_zero hsize) (Nat.pos_of_ne_zero haddr)
    refine .inl ⟨.done, mp', ?_, htable⟩
    rw [Map.exec, hrun]
    rfl

theorem Map.TableStep.table {call : Request × Response} (hstep : mp.TableStep call mp') (h : mp.Table) :
    mp'.Table := by
  obtain ⟨howed, hfits, hexec⟩ := hstep
  rcases h.exec howed hfits with ⟨res, mp1, hrun, htable⟩ | ⟨msg, herr, -⟩
  · rw [hrun] at hexec
    cases hexec
    exact htable
  · rw [herr] at hexec
    cases hexec

/-- What a range that does not fit does to the table. -/
theorem Map.Table.exec_offTheMap (h : mp.Table) (howed : mp.Owed req) (hfits : ¬mp.Fits req) :
    mp.exec req = .error offTheMap := by
  cases req with
  | malloc | malloc3 => exact absurd trivial hfits
  | mfree size addr =>
    simp only [Map.Fits, not_or] at hfits
    obtain ⟨hsize, haddr, hab, hslot⟩ := hfits
    have hlt := h.segments_lt
    have hfull : mp.segments.length + 1 = mp.mMap.length := by
      rw [h.slots] at hslot ⊢
      omega
    have hlimit : mp.segments.length < mp.mLimit := by
      rw [h.limit]
      exact hlt
    rw [Map.exec, mfree_offTheMap h.wellFormed (Nat.pos_of_ne_zero hsize) (Nat.pos_of_ne_zero haddr) howed.1
      howed.2 hab hfull hlimit]
    rfl

theorem Map.Table.keepsToTable_iff (h : mp.Table) (howed : mp.Owed req) : mp.KeepsToTable req ↔ mp.Fits req := by
  constructor
  · intro hkeeps
    by_contra hfits
    exact hkeeps.1 (h.exec_offTheMap howed hfits)
  · intro hfits
    refine ⟨?_, ?_⟩
    · rcases h.exec howed hfits with ⟨res, mp', hrun, -⟩ | ⟨msg, herr, hne⟩
      · rw [hrun]
        exact fun hbad => by cases hbad
      · rw [herr]
        exact fun hbad => hne (Except.error.inj hbad)
    · -- in a full table only an empty range fits without touching a segment
      rintro size addr mp' rfl hfull hab hrun
      rcases hfits with hsize | haddr | htouch | hslot
      · rw [ResourceMap.mfree, if_pos hsize] at hrun
        cases hrun
        rfl
      · by_cases hsize : size = 0
        · rw [ResourceMap.mfree, if_pos hsize] at hrun
          cases hrun
          rfl
        · rw [ResourceMap.mfree, if_neg hsize, if_pos haddr] at hrun
          cases hrun
      · exact absurd htouch hab
      · omega

/-- As long as every range that is given back fits, the table keeps its slots, and the next
call keeps to the table exactly if its range fits. -/
theorem run_keeps_to_table {calls : List (Request × Response)} (hrun : Run Map.TableStep swapmap calls mp) :
    mp.mMap.length = smapsiz ∧ ∀ req, mp.Owed req → (mp.KeepsToTable req ↔ mp.Fits req) := by
  have htable : mp.Table := hrun.invariant (fun _ _ _ h hstep => hstep.table h) swapmap_table
  exact ⟨htable.slots, fun req howed => htable.keepsToTable_iff howed⟩

/-! ## A full table -/

/-- The table after single units at the first `k` even addresses have been given back. -/
def fragmented (k : ℕ) : Map :=
  ⟨(List.range k).map (fun i => ⟨1, 2 * (i + 1)⟩) ++ List.replicate (smapsiz - k) terminator, smapsiz⟩

theorem segments_fragmented (k : ℕ) (hk : k < smapsiz) :
    (fragmented k).segments = (List.range k).map (fun i => ⟨1, 2 * (i + 1)⟩) := by
  obtain ⟨j, hj⟩ : ∃ j, smapsiz - k = j + 1 := ⟨smapsiz - k - 1, by omega⟩
  have hm : (fragmented k).mMap =
      (List.range k).map (fun i => ⟨1, 2 * (i + 1)⟩) ++ terminator :: List.replicate j terminator := by
    rw [fragmented, hj, replicate_succ]
  rw [Map.segments, hm, takeWhile_size_append]
  intro e he
  obtain ⟨i, -, rfl⟩ := mem_map.1 he
  exact Nat.one_ne_zero

theorem fragmented_owed (k : ℕ) (hk : k < smapsiz) : (fragmented k).Owed (.mfree 1 (2 * (k + 1))) := by
  refine ⟨?_, ?_⟩
  · rw [smapsiz] at hk
    rw [sizeMod]
    omega
  · rw [Map.freeUnits, segments_fragmented k hk, Set.disjoint_left]
    rintro x ⟨hle, -⟩ hx
    obtain ⟨e, he, -, hlt⟩ := mem_cover.1 hx
    obtain ⟨i, hi, rfl⟩ := mem_map.1 he
    rw [mem_range] at hi
    simp only [Mapent.stop] at hlt
    omega

theorem fragmented_step (k : ℕ) (hk : k < 24) :
    (fragmented k).TableStep (.mfree 1 (2 * (k + 1)), .done) (fragmented (k + 1)) := by
  have hk' : k < smapsiz := by
    rw [smapsiz]
    omega
  refine ⟨fragmented_owed k hk', .inr (.inr (.inr ?_)), ?_⟩
  · rw [segments_fragmented k hk']
    simp only [fragmented, length_append, length_replicate, smapsiz]
    omega
  · have hfree : mfree (fragmented k) 1 (2 * (k + 1)) = .ok (fragmented (k + 1)) := by
      interval_cases k <;> rfl
    rw [Map.exec, hfree]
    rfl

theorem fragmented_run (k : ℕ) (hk : k ≤ 24) :
    Run Map.TableStep swapmap ((List.range k).map fun i => (.mfree 1 (2 * (i + 1)), .done)) (fragmented k) := by
  induction k with
  | zero => exact .nil _
  | succ k ih =>
    rw [range_succ, map_append]
    exact (ih (by omega)).append (.cons (fragmented_step k hk) (.nil _))

/-- The next single unit after 24 of them makes `mfree` write behind the table. -/
theorem full_table_overrun :
    Run Map.TableStep swapmap ((List.range 24).map fun i => (.mfree 1 (2 * (i + 1)), .done)) (fragmented 24) ∧
      (fragmented 24).Owed (.mfree 1 50) ∧ (fragmented 24).exec (.mfree 1 50) = .error offTheMap :=
  ⟨fragmented_run 24 le_rfl, fragmented_owed 24 (by decide), rfl⟩

/-- Two units given back one after the other, and a slot for a third. -/
theorem run_keeps_to_table_two :
    Run Map.TableStep swapmap [(.mfree 1 2, .done), (.mfree 1 4, .done)] (fragmented 2) ∧
      (fragmented 2).mMap.length = smapsiz ∧ (fragmented 2).KeepsToTable (.mfree 1 6) := by
  have hrun := fragmented_run 2 (by decide)
  obtain ⟨hlen, hiff⟩ := run_keeps_to_table hrun
  have hfits : (fragmented 2).Fits (.mfree 1 6) := .inr (.inr (.inr (by decide)))
  exact ⟨hrun, hlen, (hiff _ (fragmented_owed 2 (by decide))).2 hfits⟩

end RetroBSD.ResourceMap
