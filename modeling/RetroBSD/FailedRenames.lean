import RetroBSD.RenameChecks

/-!
# What failed renames leave behind

A `rename` raises the link count of the source, and marks it if it is a directory, before it
looks at the target. Once the new name is there, nothing is undone any more.
-/

namespace RetroBSD.Names

open Option

section

variable {s s₁ s₂ : State} {c : Caller} {f : Faults} {id ip dp x : Id} {src dst name : Name}
  {a : Source} {b : Target} {dd : Bool} {newparent ino : ℕ} {r : ℕ × State}

/-! ## Names that are not entered -/

/-- The link of the source is taken back, but not the flag of a directory that is in use. -/
theorem sameLinks_giveUp_linked (hflags : (s.inode a.ip).irename → c.held a.ip)
    (hnot : ¬(a.isDir s = true ∧ c.held a.ip = true)) :
    SameLinks s (giveUp (linked s a) c a.ip) := by
  intro id _
  by_cases hne : id = a.ip
  · subst hne
    rw [irename_giveUp_self, irename_linked_self, giveUp, nlink_irele, nlink_decr_self,
      nlink_linked_self, UInt16.add_sub_cancel]
    refine ⟨rfl, ?_⟩
    cases hheld : c.held a.ip with
    | false =>
      cases hr : (s.inode a.ip).irename with
      | false => rfl
      | true => exact absurd (hflags hr) (by rw [hheld]; decide)
    | true =>
      have hdir : a.isDir s = false := Bool.eq_false_iff.mpr fun hdir => hnot ⟨hdir, hheld⟩
      rw [hdir, Bool.or_false, Bool.true_and]
  · rw [inode_giveUp_of_ne hne, inode_linked_of_ne hne]
    exact ⟨rfl, rfl⟩

/-- The flag stays on a directory that is in use, whatever was done to other inodes. -/
theorem trace_of_flag (hs : s.Live) (ha : Movable s c f src a) (hdir : a.isDir s = true)
    (hheld : c.held a.ip = true) (hflag : (s₁.inode a.ip).irename = true) :
    ¬SameLinks s (giveUp s₁ c a.ip) := by
  intro hsame
  have hkept := (hsame a.ip (ha.live hs)).2
  rw [irename_giveUp_self, hheld, hflag, (ha.dir hdir).2.2.2] at hkept
  cases hkept

theorem irename_linked_of_dir (hdir : a.isDir s = true) :
    ((linked s a).inode a.ip).irename = true := by
  rw [irename_linked_self, hdir, Bool.or_true]

/-! ## What entering the name does to the counts -/

def counted (s : State) (dd : Bool) (b : Target) : State :=
  if dd = true ∧ b.newparent ≠ 0 then s.incr b.dp else s

theorem renameEnter_new (hxp : b.xp = none) (henter : f.enter = 0) :
    renameEnter s c f dd ip b = some (.ok ((counted s dd b).direnter b.dp b.name ip.ino)) := by
  simp only [renameEnter, hxp, henter]
  rfl

theorem renameEnter_new_fails (hxp : b.xp = none) (henter : f.enter ≠ 0) :
    renameEnter s c f dd ip b = some (.error (f.enter, counted s dd b)) := by
  simp only [renameEnter, hxp, ne_eq, henter]
  rfl

theorem renameEnter_old_fails (hxp : b.xp = some x) (hrewrite : f.rewrite ≠ 0) :
    renameEnter s c f dd ip b = some (.error (f.rewrite, s)) := by
  simp only [renameEnter, hxp, ne_eq, hrewrite, not_false_eq_true, if_true]

theorem nlink_setEntries (entries : List Entry → List Entry) :
    ((s.modify ip fun ip => ip.setEntries (entries ip.entries)).inode id).nlink =
      (s.inode id).nlink := by
  by_cases hne : id = ip
  · subst hne
    rw [inode_modify_self, Inode.setEntries]
  · rw [inode_modify_of_ne _ _ hne]

theorem nlink_direnter : ((s.direnter dp name ino).inode id).nlink = (s.inode id).nlink :=
  nlink_setEntries fun es => es ++ [(⟨name, ino⟩ : Entry)]

theorem nlink_dirremove : ((s.dirremove dp name).inode id).nlink = (s.inode id).nlink :=
  nlink_setEntries fun es => es.eraseP fun e => e.name = name

theorem nlink_dirrewrite :
    ((s.dirrewrite dp name ino).inode id).nlink = (s.inode id).nlink :=
  nlink_setEntries (rewriteEntry name ino)

theorem nlink_incr_of_ne (hne : id ≠ ip) : ((s.incr ip).inode id).nlink = (s.inode id).nlink := by
  rw [inode_incr_of_ne hne]

theorem nlink_decr_of_ne (hne : id ≠ ip) : ((s.decr ip).inode id).nlink = (s.inode id).nlink := by
  rw [inode_decr_of_ne hne]

theorem entries_irele_of_nil (h : (s.inode ip).entries = []) :
    ((s.irele c ip).inode ip).entries = [] := by
  rw [State.irele]
  split_ifs
  · exact h
  · rw [inode_modify_self]
    split_ifs
    · rfl
    · exact h

theorem sub_one_ne (n : UInt16) : n - 1 ≠ n := by grind

theorem sub_two_ne (n : UInt16) : n - 1 - 1 ≠ n := by grind

/-- The entry for the target `x` refers to the source, and `x` has lost its links. -/
structure Rewritten (s : State) (dd : Bool) (ip : Id) (b : Target) (x : Id) (s₂ : State) :
    Prop where
  others : ∀ id, id ≠ x → s₂.inode id = (s.dirrewrite b.dp b.name ip.ino).inode id
  nlink : (s₂.inode x).nlink ≠ (s.inode x).nlink
  emptied : dd = true → (s₂.inode x).entries = []
  mountedOn : s₂.mountedOn = s.mountedOn
  covered : s₂.covered = s.covered
  rootdir : s₂.rootdir = s.rootdir

theorem Rewritten.irele (h : Rewritten s dd ip b x s₂) : Rewritten s dd ip b x (s₂.irele c x) where
  others id hne := (inode_irele_of_ne hne).trans (h.others id hne)
  nlink := by
    rw [nlink_irele]
    exact h.nlink
  emptied hdd := entries_irele_of_nil (h.emptied hdd)
  mountedOn := by
    rw [State.irele]
    split_ifs <;> exact h.mountedOn
  covered := by
    rw [State.irele]
    split_ifs <;> exact h.covered
  rootdir := by
    rw [State.irele]
    split_ifs <;> exact h.rootdir

theorem sub_two_eq_zero_iff (n : UInt16) : n - 1 - 1 = 0 ↔ n = 2 := by grind

theorem renameEnter_old (hxp : b.xp = some x) (h : renameEnter s c f dd ip b = some (.ok s₂)) :
    f.rewrite = 0 ∧ (dd = true → (s.inode x).nlink = 2) ∧ Rewritten s dd ip b x s₂ := by
  simp only [renameEnter, hxp] at h
  by_cases hrewrite : f.rewrite = 0
  swap
  · rw [if_pos hrewrite] at h
    cases h
  rw [if_neg (not_not.mpr hrewrite)] at h
  refine ⟨hrewrite, ?_⟩
  cases dd with
  | false =>
    obtain rfl := Except.ok.inj (some.inj h)
    refine ⟨nofun, Rewritten.irele ⟨fun id hne => ?_, ?_, nofun, rfl, rfl, rfl⟩⟩
    · rw [inode_decr_of_ne hne]
    · rw [nlink_decr_self, nlink_dirrewrite]
      exact sub_one_ne _
  | true =>
    rw [if_pos rfl] at h
    split_ifs at h with hzero
    rw [not_not, nlink_decr_self, nlink_decr_self, nlink_dirrewrite, sub_two_eq_zero_iff] at hzero
    obtain rfl := Except.ok.inj (some.inj h)
    refine ⟨fun _ => hzero, Rewritten.irele ⟨fun id hne => ?_, ?_, fun _ => ?_, rfl, rfl, rfl⟩⟩
    · rw [inode_modify_of_ne _ _ hne, inode_decr_of_ne hne, inode_decr_of_ne hne]
    · rw [nlink_setEntries fun _ => [], nlink_decr_self, nlink_decr_self, nlink_dirrewrite]
      exact sub_two_ne _
    · rw [inode_modify_self, Inode.setEntries]

theorem renameEnter_old_ok (hxp : b.xp = some x) (hrewrite : f.rewrite = 0)
    (hnlink : dd = true → (s.inode x).nlink = 2) :
    ∃ s₂, renameEnter s c f dd ip b = some (.ok s₂) := by
  simp only [renameEnter, hxp, if_neg (not_not.mpr hrewrite)]
  cases dd with
  | false => exact ⟨_, rfl⟩
  | true =>
    rw [if_pos rfl, if_neg]
    · exact ⟨_, rfl⟩
    · rw [not_not, nlink_decr_self, nlink_decr_self, nlink_dirrewrite, sub_two_eq_zero_iff]
      exact hnlink rfl

theorem nlink_counted_of_ne (hne : dd = true → b.newparent ≠ 0 → id ≠ b.dp) :
    ((counted s dd b).inode id).nlink = (s.inode id).nlink := by
  rw [counted]
  split_ifs with hmoved
  · exact nlink_incr_of_ne (hne hmoved.1 hmoved.2)
  · rfl

theorem nlink_counted_of_moves {b : Found} (hmoves : Moves s a b.pdir) :
    ((counted s₁ (a.isDir s) (b.toTarget s a)).inode b.pdir).nlink =
      (s₁.inode b.pdir).nlink + 1 := by
  have hmoved : a.isDir s = true ∧ (b.toTarget s a).newparent ≠ 0 := newparent_ne_zero.2 hmoves
  rw [counted, if_pos hmoved]
  exact nlink_incr_self

theorem counted_file : SameFile (s.inode id) ((counted s dd b).inode id) ∧
    ((counted s dd b).inode id).entries = (s.inode id).entries := by
  rw [counted]
  split_ifs
  · exact ⟨sameFile_incr, entries_incr⟩
  · exact ⟨.refl _, rfl⟩

theorem sameFile_setEntries (entries : List Entry → List Entry) : SameFile (s.inode id)
    ((s.modify dp fun ip => ip.setEntries (entries ip.entries)).inode id) := by
  by_cases hne : id = dp
  · subst hne
    rw [inode_modify_self]
    exact ⟨rfl, rfl, rfl, rfl⟩
  · rw [inode_modify_of_ne _ _ hne]
    exact .refl _

theorem search_append {es es' : List Entry} (h : search es name = some ino) :
    search (es ++ es') name = some ino := by
  rw [search] at h ⊢
  rw [List.find?_append]
  cases hfind : es.find? fun e => e.name = name with
  | none =>
    rw [hfind] at h
    cases h
  | some e =>
    rw [hfind] at h
    exact h

theorem search_direnter {dq : Id} {name' : Name} {ino' : ℕ} (h : s.search dq name' = some ino') :
    (s.direnter dp name ino).search dq name' = some ino' := by
  rw [State.search] at h ⊢
  by_cases hne : dq = dp
  · subst hne
    rw [State.direnter, inode_modify_self]
    exact search_append h
  · rw [State.direnter, inode_modify_of_ne _ _ hne]
    exact h

theorem entered_extends (a : Source) (b : Target) (dd : Bool) (ino : ℕ) :
    Extends (fun _ => True) s ((counted (linked s a) dd b).direnter b.dp b.name ino) where
  same _ _ := linked_file.1.trans
    (counted_file.1.trans (sameFile_setEntries fun es => es ++ [⟨b.name, ino⟩]))
  found dq name ino' _ _ hino := by
    refine search_direnter ?_
    rw [State.search, counted_file.2, linked_file.2.1]
    exact hino
  mountedOn := by
    rw [counted]
    split_ifs <;> rfl
  covered := by
    rw [counted]
    split_ifs <;> rfl
  rootdir := by
    rw [counted]
    split_ifs <;> rfl

theorem search_rewriteEntry {name' : Name} (hne : name' ≠ name) (es : List Entry) :
    search (rewriteEntry name ino es) name' = search es name' := by
  induction es with
  | nil => rfl
  | cons e es ih =>
    rw [rewriteEntry]
    split_ifs with he
    · have hother : ¬e.name = name' := fun he' => hne (he'.symm.trans he)
      simp only [search, List.find?_cons, hother, decide_false]
    · simp only [search, List.find?_cons] at ih ⊢
      split
      · rfl
      · exact ih

theorem search_dirrewrite {dq : Id} {name' : Name} (hne : dq = dp → name' ≠ name) :
    (s.dirrewrite dp name ino).search dq name' = s.search dq name' := by
  rw [State.search, State.search]
  by_cases hdq : dq = dp
  · subst hdq
    rw [State.dirrewrite, inode_modify_self]
    exact search_rewriteEntry (hne rfl) _
  · rw [State.dirrewrite, inode_modify_of_ne _ _ hdq]

/-- Where the entry of the target is not read, nothing has changed but the target itself. -/
theorem Rewritten.extends (h : Rewritten (linked s a) dd ip b x s₂)
    (hx : ∃ ino, s.search b.dp b.name = some ino ∧ x = s.iget b.dp.dev ino) :
    Extends (fun id => id ≠ x) s s₂ where
  same id hne := by
    rw [h.others id hne]
    exact linked_file.1.trans (sameFile_setEntries (rewriteEntry b.name ip.ino))
  found dq name ino hdq htarget hino := by
    have hentry : dq = b.dp → name ≠ b.name := by
      rintro rfl rfl
      obtain ⟨ino', hino', rfl⟩ := hx
      exact htarget (some.inj (hino.symm.trans hino') ▸ rfl)
    have hsame : (linked s a).search dq name = s.search dq name := by
      rw [State.search, State.search, linked_file.2.1]
    rw [State.search, h.others dq hdq]
    exact (search_dirrewrite hentry).trans (hsame.trans hino)
  mountedOn := h.mountedOn
  covered := h.covered
  rootdir := h.rootdir

/-! ## Removing the old name -/

theorem moveDotdot_fst : (moveDotdot s f ip dp newparent).1 = f.readDotdot := by
  rw [moveDotdot]
  split_ifs with hread
  · rfl
  · exact (not_not.mp hread).symm
  · exact (not_not.mp hread).symm

theorem nlink_moveDotdot :
    ((moveDotdot s f ip dp newparent).2.inode id).nlink = ((s.decr dp).inode id).nlink := by
  rw [moveDotdot]
  split_ifs
  · rfl
  · exact nlink_setEntries (setDotdotIno newparent)
  · rfl

theorem renameLast_found
    (hlast : lookup s c f.last ⟨.delete, true, false⟩ src = .ok ⟨dp, name, some ip⟩)
    (hr : r = if dd = true ∧ newparent ≠ 0 then moveDotdot s f ip dp newparent else (0, s)) :
    ∃ s', renameLast s c f dd ip newparent src = some (if r.1 = 0 then f.remove else r.1, s') ∧
      (∀ id, id ≠ ip → (s'.inode id).nlink = (r.2.inode id).nlink) ∧
      (f.remove ≠ 0 → (s'.inode ip).nlink = (r.2.inode ip).nlink) := by
  have hrun : renameLast s c f dd ip newparent src = some (if r.1 = 0 then f.remove else r.1,
      ((if f.remove = 0 then (r.2.dirremove dp name).decr ip else r.2).modify ip
        fun ip => ip.setRename false).irele c ip) := by
    simp only [renameLast, hlast, ne_eq, not_true_eq_false, if_false]
    rw [hr]
  refine ⟨_, hrun, fun id hne => ?_, fun hremove => ?_⟩
  · rw [nlink_irele, inode_modify_of_ne _ _ hne]
    split_ifs
    · rw [nlink_decr_of_ne hne, nlink_dirremove]
    · rfl
  · rw [nlink_irele, inode_modify_self, if_neg hremove, Inode.setRename]

/-! ## The failures that leave a trace -/

/-- Source and target are found and pass all checks. -/
structure Accepted (s : State) (c : Caller) (f : Faults) (src dst : Name) (a : Source) (b : Found) :
    Prop where
  source : Movable s c f src a
  target : Accepts s c f a dst b

/-- The new name can be written: as a new entry, or over the entry of the target, which has the
two links of an empty directory if it is one. With more or fewer there would be a panic. -/
structure Placed (s : State) (f : Faults) (a : Source) (b : Found) : Prop where
  enter : b.target = none → f.enter = 0
  rewrite : ∀ x, b.target = some x → f.rewrite = 0 ∧ (a.isDir s = true → (s.inode x).nlink = 2)

/-- The failures that leave a trace: a directory that is not entered, a directory in use whose
rename fails at any point after it was marked, and every failure after the new parent was
counted or the new name was entered. -/
inductive Traces (s : State) (c : Caller) (f : Faults) : Call → Prop
  | mkdir {path name : Name} {dp : Id} {n : ℕ}
      (hlookup : lookup s c f.first ⟨.create, false, false⟩ path = .ok ⟨dp, name, none⟩)
      (hialloc : f.ialloc dp.dev = .ok n) (htemplate : f.template = 0) (henter : f.enter ≠ 0) :
      Traces s c f (.mkdir path)
  | refused {src dst : Name} {a : Source} (hsource : Movable s c f src a) (hdir : a.isDir s = true)
      (hheld : c.held a.ip = true) (htarget : Refuses s c f a dst) : Traces s c f (.rename src dst)
  | notEntered {src dst : Name} {a : Source} {b : Found} (h : Accepted s c f src dst a b)
      (hdir : a.isDir s = true) (hnew : b.target = none) (henter : f.enter ≠ 0)
      (hkept : c.held a.ip = true ∨ Moves s a b.pdir) : Traces s c f (.rename src dst)
  | notRewritten {src dst : Name} {a : Source} {b : Found} {x : Id} (h : Accepted s c f src dst a b)
      (hdir : a.isDir s = true) (hx : b.target = some x) (hrewrite : f.rewrite ≠ 0)
      (hheld : c.held a.ip = true) : Traces s c f (.rename src dst)
  | notFound {src dst : Name} {a : Source} {b : Found} (h : Accepted s c f src dst a b)
      (hfile : a.isDir s = false) (hplaced : Placed s f a b) (hlast : f.last ≠ 0) :
      Traces s c f (.rename src dst)
  | notRemoved {src dst : Name} {a : Source} {b : Found} (h : Accepted s c f src dst a b)
      (hplaced : Placed s f a b) (hlast : f.last = 0)
      (hfails : f.remove ≠ 0 ∨ Moves s a b.pdir ∧ f.readDotdot ≠ 0) : Traces s c f (.rename src dst)

/-- The old path of a rename does not lead through what the rename replaces. -/
def Call.Apart (s : State) (c : Caller) (f : Faults) : Call → Prop
  | .rename src dst => ∀ a b x, Accepted s c f src dst a b → b.target = some x →
      ¬OnWay s c ⟨.delete, true, false⟩ src x
  | _ => True

/-- The new name is there. -/
def Enters (s : State) (c : Caller) (f : Faults) (a : Source) (b : Found) (s₂ : State) : Prop :=
  renameEnter (linked s a) c f (a.isDir s) a.ip (b.toTarget s a) = some (.ok s₂)

theorem rename_of_refused {e : ℕ} (hr : Ready s c f) (ha : Movable s c f src a)
    (htarget : renameTarget s c f a (a.isDir s) dst = some (.error e)) :
    rename s c f src dst = some (e, giveUp (linked s a) c a.ip) := by
  rw [← ha.renameTarget_linked hr, linked, Source.isDir] at htarget
  simp only [rename, renameSource_iff.2 ha, htarget]
  rfl

variable {b : Found} (h : Accepted s c f src dst a b)
include h

theorem Accepted.rename (hr : Ready s c f) : rename s c f src dst =
    match renameEnter (linked s a) c f (a.isDir s) a.ip (b.toTarget s a) with
    | none => none
    | some (.error (e, s₂)) => some (e, giveUp s₂ c a.ip)
    | some (.ok s₂) => renameLast s₂ c f (a.isDir s) a.ip (Names.newparent s a b.pdir) src := by
  have htarget := h.target.renameTarget
  rw [← h.source.renameTarget_linked hr, linked, Source.isDir] at htarget
  simp only [Names.rename, renameSource_iff.2 h.source, htarget]
  rfl

theorem Accepted.dir (hs : s.Live) : (s.inode b.pdir).type = .dir :=
  (namei_describes hs (by simp) (lookup_ok h.target.found)).dir

/-- A new parent is neither the source nor the old one. -/
theorem Accepted.moved (hmoves : Moves s a b.pdir) : b.pdir ≠ a.ip ∧ b.pdir ≠ a.dp := by
  obtain ⟨-, hpath, -⟩ := h.target.move hmoves
  refine ⟨fun he => ?_, fun he => hmoves.2.1 (he ▸ rfl)⟩
  rw [checkpath, if_pos (congrArg Id.ino he)] at hpath
  exact absurd (some.inj hpath) (by decide)

theorem Accepted.existing (hs : s.Live) (hx : b.target = some x) :
    x ≠ a.ip ∧ (s.inode x).type ≠ .free ∧
      ∃ ino, s.search b.pdir b.name = some ino ∧ x = s.iget b.pdir.dev ino := by
  have hfound := lookup_ok h.target.found
  refine ⟨fun he => (h.target.existing x hx).other (he ▸ rfl),
    (namei_describes hs (by simp) hfound).live x hx, ?_⟩
  exact (namei_names (.inr ⟨rfl, rfl⟩) hfound hx).resolve_left fun hdel => nomatch hdel.1

theorem Accepted.enters (hs : s.Live) (hplaced : Placed s f a b) :
    ∃ s₂, Enters s c f a b s₂ := by
  cases hx : b.target with
  | none => exact ⟨_, renameEnter_new hx (hplaced.enter hx)⟩
  | some x =>
    obtain ⟨hrewrite, hnlink⟩ := hplaced.rewrite x hx
    refine renameEnter_old_ok hx hrewrite fun hdir => ?_
    rw [inode_linked_of_ne (h.existing hs hx).1]
    exact hnlink hdir

theorem Accepted.entered (hs : s.Live) (henter : Enters s c f a b s₂) :
    Placed s f a b ∧
      ((b.target = none ∧
          s₂ = (counted (linked s a) (a.isDir s) (b.toTarget s a)).direnter b.pdir b.name
            a.ip.ino) ∨
        ∃ x, b.target = some x ∧
          Rewritten (linked s a) (a.isDir s) a.ip (b.toTarget s a) x s₂) := by
  cases hx : b.target with
  | none =>
    by_cases hzero : f.enter = 0
    · rw [Enters, renameEnter_new hx hzero] at henter
      refine ⟨⟨fun _ => hzero, fun x hx' => ?_⟩, .inl ⟨rfl, (Except.ok.inj (some.inj henter)).symm⟩⟩
      cases hx.symm.trans hx'
    · rw [Enters, renameEnter_new_fails hx hzero] at henter
      cases henter
  | some x =>
    obtain ⟨hrewrite, hnlink, hrewritten⟩ := renameEnter_old hx henter
    rw [inode_linked_of_ne (h.existing hs hx).1] at hnlink
    refine ⟨⟨fun hnone => ?_, fun x' hx' => ?_⟩, .inr ⟨x, rfl, hrewritten⟩⟩
    · cases hx.symm.trans hnone
    · obtain rfl := some.inj (hx.symm.trans hx')
      exact ⟨hrewrite, hnlink⟩

/-- The old name is found again, where it was. -/
theorem Accepted.again (hs : s.Live) (hapart : (Call.rename src dst).Apart s c f)
    (henter : Enters s c f a b s₂) :
    lookup s₂ c f.last ⟨.delete, true, false⟩ src =
      if f.last ≠ 0 then .error f.last else .ok ⟨a.dp, a.name, some a.ip⟩ := by
  have hfound := lookup_ok h.source.found
  rw [lookup]
  congr 1
  obtain ⟨-, ⟨-, rfl⟩ | ⟨x, hx, hrewritten⟩⟩ := h.entered hs henter
  · exact namei_extends (entered_extends a (b.toTarget s a) (a.isDir s) a.ip.ino) rfl
      (fun _ _ => trivial) hfound
  · refine namei_extends (hrewritten.extends (h.existing hs hx).2.2) rfl (fun id hid => ?_) hfound
    rintro rfl
    exact hapart a b id h hx hid

theorem Accepted.nlink_source (hs : s.Live) (henter : Enters s c f a b s₂) :
    (s₂.inode a.ip).nlink = (s.inode a.ip).nlink + 1 := by
  obtain ⟨-, ⟨-, rfl⟩ | ⟨x, hx, hrewritten⟩⟩ := h.entered hs henter
  · rw [nlink_direnter, nlink_counted_of_ne, nlink_linked_self]
    intro hdd hmoved he
    exact (h.moved (newparent_ne_zero.1 ⟨hdd, hmoved⟩)).1 he.symm
  · rw [hrewritten.others a.ip (h.existing hs hx).1.symm, nlink_dirrewrite, nlink_linked_self]

omit h

theorem rename_cases (hr : Ready s c f) (h : rename s c f src dst = some r) :
    r.2 = s ∨
    (∃ a, Movable s c f src a ∧ (r.1 ≠ 0 → Refuses s c f a dst) ∧
      r.2 = giveUp (linked s a) c a.ip) ∨
    ∃ a b, Accepted s c f src dst a b ∧
      ((∃ s₂, renameEnter (linked s a) c f (a.isDir s) a.ip (b.toTarget s a) =
        some (.error (r.1, s₂)) ∧
          r.2 = giveUp s₂ c a.ip) ∨
        ∃ s₂, Enters s c f a b s₂ ∧
          renameLast s₂ c f (a.isDir s) a.ip (Names.newparent s a b.pdir) src = some r) := by
  cases hsource : renameSource s c f src with
  | error e =>
    simp only [rename, hsource] at h
    exact .inl (some.inj h ▸ rfl)
  | ok a =>
    have ha := renameSource_iff.1 hsource
    cases htarget : renameTarget s c f a (a.isDir s) dst with
    | none =>
      rw [← ha.renameTarget_linked hr, linked, Source.isDir] at htarget
      simp only [rename, hsource, htarget] at h
      cases h
    | some t =>
      obtain ⟨b, hb, rfl⟩ | ⟨e, rfl, hrefuses⟩ := renameTarget_cases htarget
      · have haccepted : Accepted s c f src dst a b := ⟨ha, hb⟩
        rw [haccepted.rename hr] at h
        refine .inr (.inr ⟨a, b, haccepted, ?_⟩)
        cases henter : renameEnter (linked s a) c f (a.isDir s) a.ip (b.toTarget s a) with
        | none =>
          rw [henter] at h
          cases h
        | some t =>
          rw [henter] at h
          cases t with
          | error p =>
            obtain rfl := some.inj h
            exact .inl ⟨p.2, rfl, rfl⟩
          | ok s₂ => exact .inr ⟨s₂, henter, h⟩
      · rw [rename_of_refused hr ha htarget] at h
        obtain rfl := some.inj h
        exact .inr (.inl ⟨a, ha, hrefuses, rfl⟩)

theorem trace_of_notFound (hr : Ready s c f) (hapart : (Call.rename src dst).Apart s c f)
    (h : Accepted s c f src dst a b) (hfile : a.isDir s = false) (hplaced : Placed s f a b)
    (hlast : f.last ≠ 0) :
    ∃ e s', rename s c f src dst = some (e, s') ∧ e ≠ 0 ∧ ¬SameLinks s s' := by
  obtain ⟨s₂, henter⟩ := h.enters hr.live hplaced
  have hcall : rename s c f src dst = some (f.last, s₂.irele c a.ip) := by
    rw [h.rename hr, show renameEnter .. = _ from henter]
    simp only [renameLast, h.again hr.live hapart henter, if_pos hlast, hfile, Bool.false_eq_true,
      if_false]
  refine ⟨f.last, _, hcall, hlast, fun hsame => ?_⟩
  have hnlink := (hsame a.ip (h.source.live hr.live)).1
  rw [nlink_irele, h.nlink_source hr.live henter] at hnlink
  exact absurd hnlink (by simp)

theorem trace_of_notRemoved (hr : Ready s c f) (hapart : (Call.rename src dst).Apart s c f)
    (h : Accepted s c f src dst a b) (hplaced : Placed s f a b) (hlast : f.last = 0)
    (hfails : f.remove ≠ 0 ∨ Moves s a b.pdir ∧ f.readDotdot ≠ 0) :
    ∃ e s', rename s c f src dst = some (e, s') ∧ e ≠ 0 ∧ ¬SameLinks s s' := by
  have hs := hr.live
  obtain ⟨s₂, henter⟩ := h.enters hs hplaced
  have hagain := h.again hs hapart henter
  rw [if_neg (not_not.2 hlast)] at hagain
  set q := if a.isDir s = true ∧ Names.newparent s a b.pdir ≠ 0 then
    moveDotdot s₂ f a.ip a.dp (Names.newparent s a b.pdir) else (0, s₂) with hq
  have hq1 : Moves s a b.pdir → q.1 = f.readDotdot := by
    intro hmoves
    rw [hq, if_pos (newparent_ne_zero.2 hmoves)]
    exact moveDotdot_fst
  have hq2 : ∀ id, (Moves s a b.pdir → id ≠ a.dp) → (q.2.inode id).nlink = (s₂.inode id).nlink := by
    intro id hne
    rw [hq]
    split_ifs with hmoved
    · rw [nlink_moveDotdot, nlink_decr_of_ne (hne (newparent_ne_zero.1 hmoved))]
    · rfl
  obtain ⟨s', hrun, hothers, hself⟩ := renameLast_found hagain hq
  have hcall : rename s c f src dst = some (if q.1 = 0 then f.remove else q.1, s') := by
    rw [h.rename hr, show renameEnter .. = _ from henter]
    exact hrun
  refine ⟨_, s', hcall, ?_, fun hsame => ?_⟩
  · split_ifs with hzero
    · exact hfails.resolve_right fun hmoved => hmoved.2 (hq1 hmoved.1 ▸ hzero)
    · exact hzero
  obtain ⟨-, ⟨-, rfl⟩ | ⟨x, hx, hrewritten⟩⟩ := h.entered hs henter
  · rcases hfails with hremove | ⟨hmoves, -⟩
    · have hnlink := (hsame a.ip (h.source.live hs)).1
      rw [hself hremove, hq2 a.ip fun hmoves => (h.source.dir hmoves.1).2.2.1.symm,
        h.nlink_source hs henter] at hnlink
      exact absurd hnlink (by simp)
    · obtain ⟨hne, hdp⟩ := h.moved hmoves
      have hnlink := (hsame b.pdir (ne_free_of_dir (h.dir hs))).1
      rw [hothers b.pdir hne, hq2 b.pdir fun _ => hdp, nlink_direnter,
        nlink_counted_of_moves hmoves, inode_linked_of_ne hne] at hnlink
      exact absurd hnlink (by simp)
  · obtain ⟨hne, hlive, -⟩ := h.existing hs hx
    have hnlink := hrewritten.nlink
    rw [inode_linked_of_ne hne] at hnlink
    refine hnlink ?_
    rw [← (hsame x hlive).1, hothers x hne, hq2 x fun hmoves he => ?_]
    -- the target was emptied, so the old name is not in it
    have hmissing := namei_missing (by simp) (lookup_ok hagain)
    rw [State.search, ← he, hrewritten.emptied hmoves.1] at hmissing
    exact some_ne_none _ (hmissing.2 rfl)

/-- Each of the failures listed happens and leaves a trace. -/
theorem Traces.trace {call : Call} (h : Ready s c f) (hapart : call.Apart s c f)
    (htrace : Traces s c f call) :
    ∃ e s', call.run s c f = some (e, s') ∧ e ≠ 0 ∧ ¬SameLinks s s' := by
  cases htrace with
  | mkdir hlookup hialloc htemplate henter =>
    obtain ⟨e, s', hrun, he, htrace⟩ := mkdir_trace h hlookup hialloc htemplate henter
    exact ⟨e, s', congrArg some hrun, he, htrace⟩
  | refused hsource hdir hheld hrefuses =>
    obtain ⟨e, he, htarget⟩ := hrefuses.renameTarget
    exact ⟨e, _, rename_of_refused h hsource htarget, he,
      trace_of_flag h.live hsource hdir hheld (irename_linked_of_dir hdir)⟩
  | @notEntered src dst a b haccepted hdir hnew henter hkept =>
    have hcall : rename s c f src dst =
        some (f.enter, giveUp (counted (linked s a) (a.isDir s) (b.toTarget s a)) c a.ip) := by
      rw [haccepted.rename h, renameEnter_new_fails hnew henter]
    refine ⟨_, _, hcall, henter, ?_⟩
    rcases hkept with hheld | hmoves
    · refine trace_of_flag h.live haccepted.source hdir hheld ?_
      rw [counted]
      split_ifs
      · rw [irename_incr, irename_linked_of_dir hdir]
      · exact irename_linked_of_dir hdir
    · obtain ⟨hne, -⟩ := haccepted.moved hmoves
      intro hsame
      have hnlink := (hsame b.pdir (ne_free_of_dir (haccepted.dir h.live))).1
      rw [inode_giveUp_of_ne hne, nlink_counted_of_moves hmoves, inode_linked_of_ne hne] at hnlink
      exact absurd hnlink (by simp)
  | @notRewritten src dst a b x haccepted hdir hx hrewrite hheld =>
    have hcall : rename s c f src dst = some (f.rewrite, giveUp (linked s a) c a.ip) := by
      rw [haccepted.rename h, renameEnter_old_fails hx hrewrite]
    exact ⟨_, _, hcall, hrewrite,
      trace_of_flag h.live haccepted.source hdir hheld (irename_linked_of_dir hdir)⟩
  | notFound haccepted hfile hplaced hlast =>
    exact trace_of_notFound h hapart haccepted hfile hplaced hlast
  | notRemoved haccepted hplaced hlast hfails =>
    exact trace_of_notRemoved h hapart haccepted hplaced hlast hfails

theorem renameEnter_error {b : Target} (henter : renameEnter s c f dd ip b = some (.error r)) :
    (b.xp = none ∧ f.enter ≠ 0 ∧ r.2 = counted s dd b) ∨
      ∃ x, b.xp = some x ∧ f.rewrite ≠ 0 ∧ r.2 = s := by
  cases hxp : b.xp with
  | none =>
    by_cases hzero : f.enter = 0
    · rw [renameEnter_new hxp hzero] at henter
      cases henter
    · rw [renameEnter_new_fails hxp hzero] at henter
      obtain rfl := Except.error.inj (some.inj henter)
      exact .inl ⟨rfl, hzero, rfl⟩
  | some x =>
    by_cases hzero : f.rewrite = 0
    · simp only [renameEnter, hxp, hzero, ne_eq, not_true_eq_false, if_false] at henter
      split_ifs at henter <;> cases henter
    · rw [renameEnter_old_fails hxp hzero] at henter
      obtain rfl := Except.error.inj (some.inj henter)
      exact .inr ⟨x, rfl, hzero, rfl⟩

theorem renameLast_error
    (hlast : lookup s c f.last ⟨.delete, true, false⟩ src = .ok ⟨dp, name, some ip⟩)
    (hr : renameLast s c f dd ip newparent src = some r) (herr : r.1 ≠ 0) :
    f.remove ≠ 0 ∨ dd = true ∧ newparent ≠ 0 ∧ f.readDotdot ≠ 0 := by
  set q := if dd = true ∧ newparent ≠ 0 then moveDotdot s f ip dp newparent else (0, s) with hq
  obtain ⟨s', hrun, -⟩ := renameLast_found hlast hq
  rw [hr] at hrun
  obtain rfl := some.inj hrun
  by_contra hnone
  rw [not_or, not_not] at hnone
  apply herr
  rw [hnone.1]
  split_ifs with hzero
  · rfl
  · rw [hq]
    split_ifs with hmoved
    · rw [moveDotdot_fst]
      by_contra hread
      exact hnone.2 ⟨hmoved.1, hmoved.2, hread⟩
    · rfl

theorem rename_sameLinks (h : Ready s c f) (hapart : (Call.rename src dst).Apart s c f)
    (hnot : ¬Traces s c f (.rename src dst)) (hr : rename s c f src dst = some r) (herr : r.1 ≠ 0) :
    SameLinks s r.2 := by
  obtain hs | ⟨a, ha, hrefuses, hs⟩ | ⟨a, b, haccepted, ⟨s₂, henter, hs⟩ | ⟨s₂, henter, hlast⟩⟩ :=
    rename_cases h hr
  · rw [hs]
    exact sameLinks_refl s
  · rw [hs]
    exact sameLinks_giveUp_linked (h.flags a.ip) fun hheld =>
      hnot (.refused ha hheld.1 hheld.2 (hrefuses herr))
  · obtain ⟨hnew, hfails, hs2⟩ | ⟨x, hx, hfails, hs2⟩ := renameEnter_error henter
    · have hcounted : s₂ = linked s a := hs2.trans (if_neg fun hmoved =>
        hnot (.notEntered haccepted hmoved.1 hnew hfails (.inr (newparent_ne_zero.1 hmoved))))
      rw [hs, hcounted]
      exact sameLinks_giveUp_linked (h.flags a.ip) fun hheld =>
        hnot (.notEntered haccepted hheld.1 hnew hfails (.inl hheld.2))
    · rw [hs, show s₂ = _ from hs2]
      exact sameLinks_giveUp_linked (h.flags a.ip) fun hheld =>
        hnot (.notRewritten haccepted hheld.1 hx hfails hheld.2)
  · have hplaced := (haccepted.entered h.live henter).1
    have hagain := haccepted.again h.live hapart henter
    by_cases hzero : f.last = 0
    · rw [if_neg (not_not.2 hzero)] at hagain
      refine absurd (.notRemoved haccepted hplaced hzero ?_) hnot
      obtain hremove | ⟨hdir, hmoved, hread⟩ := renameLast_error hagain hlast herr
      · exact .inl hremove
      · exact .inr ⟨newparent_ne_zero.1 ⟨hdir, hmoved⟩, hread⟩
    · rw [if_pos hzero] at hagain
      cases hfile : a.isDir s with
      | false => exact absurd (.notFound haccepted hfile hplaced hzero) hnot
      | true =>
        simp only [renameLast, hagain, hfile, if_true] at hlast
        cases hlast

end

def bareRoot : State where
  inode id := if id = ⟨0, rootino⟩ then
      ⟨.dir, 2, [⟨dot, rootino⟩, ⟨dotdot, rootino⟩], [], false, false, false, false, 0⟩
    else noInode
  mountedOn _ := none
  covered _ := none
  rootdir := ⟨0, rootino⟩
  ninode := 10

def superuser : Caller where
  uid := 0
  cdir := ⟨0, rootino⟩
  rdir := none
  access _ _ := 0
  held id := id = ⟨0, rootino⟩
  expand _ _ rest := rest

def fullDisk : Faults where
  first := 0
  second := 0
  third := 0
  last := 0
  ialloc _ := .ok 3
  template := 0
  enter := 28
  rewrite := 0
  path := 0
  readDotdot := 0
  writeDotdot := 0
  remove := 0

theorem bareRoot_of_ne {id : Id} (hne : id ≠ ⟨0, rootino⟩) : bareRoot.inode id = noInode :=
  if_neg hne

theorem bareRoot_ready : Ready bareRoot superuser fullDisk := by
  have hentry : ∀ dp name ino, (bareRoot.inode dp).type = .dir →
    bareRoot.search dp name = some ino →
      dp = ⟨0, rootino⟩ ∧ ino = rootino := by
    intro dp name ino hdp hino
    obtain rfl : dp = ⟨0, rootino⟩ := by
      by_contra hne
      rw [bareRoot_of_ne hne] at hdp
      cases hdp
    rw [State.search, search, map_eq_some_iff] at hino
    obtain ⟨e, he, rfl⟩ := hino
    have hmem : e ∈ [(⟨dot, rootino⟩ : Entry), ⟨dotdot, rootino⟩] := List.mem_of_find?_eq_some he
    rcases List.mem_pair.1 hmem with rfl | rfl
    · exact ⟨rfl, rfl⟩
    · exact ⟨rfl, rfl⟩
  refine ⟨⟨fun dp name ino hdp hino => ?_, fun id d hd => ?_, fun d mp hmp => ?_⟩,
    fun dp name ino hdp hino => ?_, fun id hid => ?_, fun d n hn => ?_⟩
  · obtain ⟨rfl, rfl⟩ := hentry dp name ino hdp hino
    decide
  · cases hd
  · cases hmp
  · obtain ⟨rfl, rfl⟩ := hentry dp name ino hdp hino
    decide
  · by_cases hroot : id = ⟨0, rootino⟩
    · exact decide_eq_true hroot
    · rw [bareRoot_of_ne hroot] at hid
      cases hid
  · obtain rfl := Except.ok.inj hn
    rw [bareRoot_of_ne fun he => absurd (congrArg Id.ino he) (show 3 ≠ rootino by decide)]
    rfl

end RetroBSD.Names
