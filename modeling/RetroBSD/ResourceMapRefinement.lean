import RetroBSD.ResourceMapFree
import RetroBSD.ResourceMapTriple
import RetroBSD.Runs

/-!
# A resource map is a set of free units

Whatever the order in which `malloc`, `malloc3` and `mfree` are called, the map
stays well formed and acts on the set of its free units as the abstract
allocator `FreeSetStep` does. The caller owes `mfree` a range that is not free
and an array with a slot to spare; in return no call fails.
-/

namespace RetroBSD.ResourceMap

open Runs SeparatedIntervals

inductive Request
  | malloc (size : ℕ)
  | malloc3 (sizes : Fin 3 → ℕ)
  | mfree (size addr : ℕ)

inductive Response
  | address (a : ℕ)
  | addresses (a : Option (Fin 3 → ℕ))
  | done

def Map.exec (mp : Map) : Request → Except String (Response × Map)
  | .malloc size => (ResourceMap.malloc mp size).map (Prod.map .address id)
  | .malloc3 sizes => (ResourceMap.malloc3 mp sizes).map (Prod.map .addresses id)
  | .mfree size addr => (ResourceMap.mfree mp size addr).map (.done, ·)

/-- What a caller owes: requests are not empty, and a range given back consists of
units that are not free while the array has room for one more segment. -/
def Map.Allowed (mp : Map) : Request → Prop
  | .malloc size => 0 < size
  | .malloc3 _ => True
  | .mfree size addr => 0 < size ∧ 0 < addr ∧ addr + size ≤ sizeMod ∧
      Disjoint (Set.Ico addr (addr + size)) mp.freeUnits ∧ mp.HasRoom

def Map.Step (mp : Map) (call : Request × Response) (mp' : Map) : Prop :=
  mp.Allowed call.1 ∧ mp.exec call.1 = .ok (call.2, mp')

/-- The allocator the map stands for, on sets of units. -/
def FreeSetStep (F : Set ℕ) (call : Request × Response) (F' : Set ℕ) : Prop :=
  match call with
  | (.malloc size, .address a) => FirstFit F size a F'
  | (.malloc3 sizes, .addresses a) => TripleFit F sizes a F'
  | (.mfree size addr, .done) => F' = F ∪ Set.Ico addr (addr + size)
  | _ => False

theorem exec_spec {mp : Map} (hwf : mp.WellFormed) {req : Request} (hreq : mp.Allowed req) :
    ∃ res mp', mp.exec req = .ok (res, mp') ∧ mp'.WellFormed ∧
      FreeSetStep mp.freeUnits (req, res) mp'.freeUnits := by
  cases req with
  | malloc size =>
    obtain ⟨ret, mp', hrun, hwf', -, -, hfit⟩ := malloc_spec hwf hreq
    exact ⟨.address ret, mp', by rw [Map.exec, hrun]; rfl, hwf', hfit⟩
  | malloc3 sizes =>
    obtain ⟨r, mp', hrun, hwf', -, -, hfit⟩ := malloc3_spec hwf sizes
    exact ⟨.addresses r, mp', by rw [Map.exec, hrun]; rfl, hwf', hfit⟩
  | mfree size addr =>
    obtain ⟨hsize, haddr, hend, hdisj, hroom⟩ := hreq
    obtain ⟨mp', hrun, hwf', -, -, hfree⟩ := mfree_spec hwf hsize haddr hend hdisj (.inr hroom)
    exact ⟨.done, mp', by rw [Map.exec, hrun]; rfl, hwf', hfree⟩

theorem Map.Step.spec {mp mp' : Map} {call : Request × Response} (hwf : mp.WellFormed)
    (h : mp.Step call mp') :
    mp'.WellFormed ∧ FreeSetStep mp.freeUnits call mp'.freeUnits := by
  obtain ⟨hreq, hexec⟩ := h
  obtain ⟨res, mp1, hrun, hwf', hstep⟩ := exec_spec hwf hreq
  obtain ⟨rfl, rfl⟩ : res = call.2 ∧ mp1 = mp' := by
    rw [hrun] at hexec
    exact Prod.mk.inj (Except.ok.inj hexec)
  exact ⟨hwf', hstep⟩

theorem run_refines_free_set {mp mp' : Map} {calls : List (Request × Response)}
    (hwf : mp.WellFormed) (hrun : Run Map.Step mp calls mp') :
    mp'.WellFormed ∧ Run FreeSetStep mp.freeUnits calls mp'.freeUnits ∧
      ∀ req, mp'.Allowed req → ∃ res mp'', mp'.exec req = .ok (res, mp'') := by
  have hstep : ∀ (m : Map) call m' F, (m.WellFormed ∧ m.freeUnits = F) → m.Step call m' →
      ∃ F', FreeSetStep F call F' ∧ m'.WellFormed ∧ m'.freeUnits = F' := by
    rintro m call m' _ ⟨hm, rfl⟩ h
    obtain ⟨hm', hspec⟩ := h.spec hm
    exact ⟨_, hspec, hm', rfl⟩
  obtain ⟨F, hspec, hwf', rfl⟩ := hrun.simulation hstep ⟨hwf, rfl⟩
  refine ⟨hwf', hspec, fun req hreq => ?_⟩
  obtain ⟨res, mp'', hexec, -⟩ := exec_spec hwf' hreq
  exact ⟨res, mp'', hexec⟩

/-- A map of one segment gives its front away and takes it back, merging. -/
theorem run_refines_free_set_one_segment :
    let mp : Map := ⟨[⟨10, 5⟩, terminator, terminator], 3⟩
    let calls : List (Request × Response) := [(.malloc 3, .address 5), (.mfree 3 5, .done)]
    mp.WellFormed ∧ Run Map.Step mp calls mp ∧ Run FreeSetStep mp.freeUnits calls mp.freeUnits := by
  intro mp calls
  have hwf : mp.WellFormed :=
    ⟨⟨by simp [mp, Separated, Map.segments, terminator, Mapent.stop],
      by simp [mp, Map.segments, terminator, Mapent.stop, sizeMod]⟩, rfl⟩
  have hdisj : Disjoint (Set.Ico 5 (5 + 3))
      (⟨[⟨7, 8⟩, terminator, terminator], 3⟩ : Map).freeUnits := by
    simp [Map.freeUnits, Map.segments, terminator, cover_cons]
  have hback : (⟨[⟨7, 8⟩, terminator, terminator], 3⟩ : Map).Allowed (.mfree 3 5) :=
    ⟨by decide, by decide, by decide, hdisj, by decide, by decide⟩
  have hrun : Run Map.Step mp calls mp :=
    .cons ⟨Nat.succ_pos 2, rfl⟩ (.cons ⟨hback, rfl⟩ (.nil _))
  exact ⟨hwf, hrun, (run_refines_free_set hwf hrun).2.1⟩

end RetroBSD.ResourceMap
