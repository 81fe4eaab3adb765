import RetroBSD.FailedCalls

/-!
# What a rename checks

When `rename` takes the source and the target it is given, and when it refuses them, in terms
of the state it starts in. By the time it looks at the target it has raised the link count of
the source and marked it if it is a directory. No check tells the difference.
-/

namespace RetroBSD.Names

open Option

section

variable {s : State} {c : Caller} {f : Faults} {id dp x : Id} {src dst : Name} {a : Source}
  {b : Found}

/-! ## The source -/

def Source.isDir (s : State) (a : Source) : Bool := (s.inode a.ip).type = .dir

/-- The source of a rename is found and may be moved. -/
structure Movable (s : State) (c : Caller) (f : Faults) (src : Name) (a : Source) : Prop where
  found : lookup s c f.first ⟨.delete, true, false⟩ src = .ok ⟨a.dp, a.name, some a.ip⟩
  frozen : (s.inode a.ip).frozen = false
  append : (s.inode a.dp).append = false
  dir : a.isDir s = true →
    a.name ≠ dot ∧ a.name ≠ dotdot ∧ a.dp ≠ a.ip ∧ (s.inode a.ip).irename = false

theorem renameSource_iff : renameSource s c f src = .ok a ↔ Movable s c f src a := by
  constructor
  · intro h
    rw [renameSource] at h
    split at h
    · cases h
    · cases h
    · rename_i dp name ip hlookup
      split_ifs at h with hfrozen hbad
      cases h
      rw [not_or, Bool.not_eq_true, Bool.not_eq_true] at hfrozen
      refine ⟨hlookup, hfrozen.1, hfrozen.2, fun hdir => ?_⟩
      have htype : (s.inode ip).type = .dir := of_decide_eq_true hdir
      rw [not_and, not_or, not_or, not_or, Bool.not_eq_true] at hbad
      exact hbad htype
  · intro h
    have hgood : ¬((s.inode a.ip).type = .dir ∧
        (a.name = dot ∨ a.name = dotdot ∨ a.dp = a.ip ∨ (s.inode a.ip).irename = true)) := by
      rintro ⟨htype, hbad⟩
      obtain ⟨hdot, hdotdot, hne, hflag⟩ := h.dir (decide_eq_true htype)
      simp [hdot, hdotdot, hne, hflag] at hbad
    have hfree : ¬((s.inode a.ip).frozen = true ∨ (s.inode a.dp).append = true) := by
      simp [h.frozen, h.append]
    simp only [renameSource, h.found, if_neg hfree, if_neg hgood]

variable (h : Movable s c f src a)
include h

theorem Movable.live (hs : s.Live) : (s.inode a.ip).type ≠ .free :=
  (namei_describes hs (by simp) (lookup_ok h.found)).live a.ip rfl

/-- The source has a link and room for another. -/
theorem Movable.counts (hr : Ready s c f) :
    (s.inode a.ip).nlink ≠ 0 ∧ (s.inode a.ip).nlink + 1 ≠ 0 := by
  have hdp : (s.inode a.dp).type = .dir :=
    (namei_describes hr.live (by simp) (lookup_ok h.found)).dir
  obtain ⟨-, hself⟩ | ⟨ino, hino, hip⟩ := namei_names (.inl rfl) (lookup_ok h.found) rfl
  · have hself : a.ip = a.dp := hself
    refine absurd hself.symm (h.dir ?_).2.2.1
    rw [Source.isDir, hself]
    exact decide_eq_true hdp
  · have hip : a.ip = s.iget a.dp.dev ino := hip
    rw [hip]
    exact hr.counts _ _ _ hdp hino

omit h

/-! ## A new parent -/

/-- The directory `a` gets another parent. -/
def Moves (s : State) (a : Source) (dp : Id) : Prop :=
  a.isDir s = true ∧ a.dp.ino ≠ dp.ino ∧ dp.ino ≠ 0

/-- If the source gets another parent, it may be written and is not above it. -/
def MayMove (s : State) (c : Caller) (f : Faults) (a : Source) (dp : Id) : Prop :=
  Moves s a dp → c.access .write a.ip = 0 ∧ checkpath s f.path a.ip dp = some 0 ∧ f.third = 0

/-- The source would get another parent, and one of the checks fails. -/
def Stopped (s : State) (c : Caller) (f : Faults) (a : Source) (dp : Id) : Prop :=
  Moves s a dp ∧ (c.access .write a.ip ≠ 0 ∨
    ∃ e, checkpath s f.path a.ip dp = some e ∧ (e ≠ 0 ∨ f.third ≠ 0))

def newparent (s : State) (a : Source) (dp : Id) : ℕ :=
  if (if a.isDir s = true then a.dp.ino else 0) ≠ dp.ino then dp.ino else 0

theorem newparent_ne_zero : a.isDir s = true ∧ newparent s a dp ≠ 0 ↔ Moves s a dp := by
  rw [Moves, newparent]
  refine and_congr_right fun hdir => ?_
  rw [if_pos hdir]
  split_ifs with hne
  · exact (and_iff_right hne).symm
  · exact iff_of_false (fun h => h rfl) fun h => hne h.1

theorem checkMove_of_moves (h : Moves s a dp) :
    checkMove s c f (a.isDir s) a.ip dp (newparent s a dp) =
      if c.access .write a.ip ≠ 0 then some (c.access .write a.ip)
      else (checkpath s f.path a.ip dp).map fun e => if e ≠ 0 then e else f.third := by
  rw [checkMove, if_pos (newparent_ne_zero.2 h)]
  cases checkpath s f.path a.ip dp with
  | none => rfl
  | some e =>
    rw [map_some]
    dsimp only
    split_ifs <;> rfl

theorem checkMove_zero_iff :
    checkMove s c f (a.isDir s) a.ip dp (newparent s a dp) = some 0 ↔ MayMove s c f a dp := by
  by_cases hmoves : Moves s a dp
  · rw [checkMove_of_moves hmoves, MayMove]
    by_cases haccess : c.access .write a.ip = 0
    · simp only [haccess, ne_eq, not_true_eq_false, if_false, hmoves, true_and, forall_const,
        map_eq_some_iff]
      constructor
      · rintro ⟨e, he, hzero⟩
        by_cases h0 : e = 0
        · rw [if_neg (not_not.2 h0)] at hzero
          exact ⟨h0 ▸ he, hzero⟩
        · rw [if_pos h0] at hzero
          exact absurd hzero h0
      · rintro ⟨he, hthird⟩
        exact ⟨0, he, hthird⟩
    · simp only [haccess, ne_eq, not_false_eq_true, if_true, some.injEq, false_and]
      exact iff_of_false id fun h => h hmoves
  · rw [checkMove, if_neg fun h => hmoves (newparent_ne_zero.1 h)]
    exact iff_of_true rfl fun h => absurd h hmoves

theorem checkMove_error_iff :
    (∃ e, e ≠ 0 ∧ checkMove s c f (a.isDir s) a.ip dp (newparent s a dp) = some e) ↔
      Stopped s c f a dp := by
  by_cases hmoves : Moves s a dp
  · rw [checkMove_of_moves hmoves, Stopped, and_iff_right hmoves]
    by_cases haccess : c.access .write a.ip = 0
    · simp only [haccess, ne_eq, not_true_eq_false, if_false, false_or, map_eq_some_iff]
      constructor
      · rintro ⟨-, hne, e, he, rfl⟩
        refine ⟨e, he, ?_⟩
        split_ifs at hne with h0
        · exact .inr hne
        · exact .inl h0
      · rintro ⟨e, he, hne⟩
        refine ⟨_, ?_, e, he, rfl⟩
        split_ifs with h0
        · exact hne.resolve_left (not_not.2 h0)
        · exact h0
    · simp only [haccess, ne_eq, not_false_eq_true, if_true, true_or, iff_true]
      exact ⟨_, haccess, rfl⟩
  · rw [checkMove, if_neg fun h => hmoves (newparent_ne_zero.1 h)]
    refine iff_of_false ?_ fun h => hmoves h.1
    rintro ⟨e, hne, he⟩
    exact hne (some.inj he).symm

/-! ## A target that exists -/

/-- The file or the empty directory `x` may be replaced. -/
structure Replaceable (s : State) (c : Caller) (a : Source) (dp x : Id) : Prop where
  dev : x.dev = dp.dev ∧ x.dev = a.ip.dev
  other : x.ino ≠ a.ip.ino
  owner : ¬s.stickyDenies c dp x
  kind : (s.inode x).type = .dir ↔ a.isDir s = true
  empty : (s.inode x).type = .dir →
    dirempty (s.inode x).entries dp.ino = true ∧ (s.inode x).nlink ≤ 2

theorem checkExisting_none_iff :
    checkExisting s c (a.isDir s) a.ip dp x = none ↔ Replaceable s c a dp x := by
  constructor
  · intro h
    rw [checkExisting] at h
    split_ifs at h with hdev hino howner htype hempty hfile hdir
    · rw [not_or, not_not, not_not] at hdev
      rw [not_or, Bool.not_eq_false, UInt16.not_lt] at hempty
      rw [Bool.not_eq_false] at hfile
      exact ⟨hdev, hino, howner, iff_of_true htype hfile, fun _ => hempty⟩
    · rw [not_or, not_not, not_not] at hdev
      exact ⟨hdev, hino, howner, iff_of_false htype hdir, fun h => absurd h htype⟩
  · intro h
    rw [checkExisting, if_neg (by simp [h.dev.1.symm.trans h.dev.2, h.dev.2]), if_neg h.other,
      if_neg h.owner]
    by_cases htype : (s.inode x).type = .dir
    · have hnlink := h.empty htype
      simp [htype, hnlink.1, UInt16.not_lt.2 hnlink.2, h.kind.1 htype]
    · simp [htype, mt h.kind.2 htype]

theorem checkExisting_error_iff :
    (∃ e, e ≠ 0 ∧ checkExisting s c (a.isDir s) a.ip dp x = some e) ↔
      ¬Replaceable s c a dp x ∧ (x.dev = dp.dev → x.dev = a.ip.dev → x.ino ≠ a.ip.ino) := by
  rw [← checkExisting_none_iff]
  constructor
  · rintro ⟨e, hne, he⟩
    refine ⟨by rw [he]; exact some_ne_none e, fun hdp hip hsame => hne ?_⟩
    rw [checkExisting, if_neg (by simp [hdp.symm.trans hip, hip]), if_pos hsame] at he
    exact (some.inj he).symm
  · rintro ⟨hsome, hother⟩
    obtain ⟨e, he⟩ := ne_none_iff_exists'.1 hsome
    refine ⟨e, ?_, he⟩
    rintro rfl
    rw [checkExisting] at he
    split_ifs at he with hdev hino <;> try exact absurd (some.inj he) (by decide)
    rw [not_or, not_not, not_not] at hdev
    exact hother hdev.1 hdev.2 hino

/-! ## The target -/

def Found.Unfrozen (s : State) (b : Found) : Prop :=
  ∀ x, b.target = some x → (s.inode x).frozen = false ∧ (s.inode b.pdir).append = false

/-- The target is found and passes the checks. -/
structure Accepts (s : State) (c : Caller) (f : Faults) (a : Source) (dst : Name) (b : Found) :
    Prop where
  found : lookup s c f.second ⟨.create, true, false⟩ dst = .ok b
  unfrozen : b.Unfrozen s
  move : MayMove s c f a b.pdir
  fresh : b.target = none → b.pdir.dev = a.ip.dev
  existing : ∀ x, b.target = some x → Replaceable s c a b.pdir x

/-- The target is not found or does not pass one of the checks. That both names are those of
one file is not an error. -/
inductive Refuses (s : State) (c : Caller) (f : Faults) (a : Source) (dst : Name) : Prop
  | missing {e : ℕ} (hlookup : lookup s c f.second ⟨.create, true, false⟩ dst = .error e)
      (he : e ≠ 0)
  | frozen {b : Found} (hfound : lookup s c f.second ⟨.create, true, false⟩ dst = .ok b)
      (h : ¬b.Unfrozen s)
  | stopped {b : Found} (hfound : lookup s c f.second ⟨.create, true, false⟩ dst = .ok b)
      (hfree : b.Unfrozen s) (h : Stopped s c f a b.pdir)
  | crosses {b : Found} (hfound : lookup s c f.second ⟨.create, true, false⟩ dst = .ok b)
      (hmove : MayMove s c f a b.pdir) (hnone : b.target = none) (h : b.pdir.dev ≠ a.ip.dev)
  | kept {b : Found} {x : Id} (hfound : lookup s c f.second ⟨.create, true, false⟩ dst = .ok b)
      (hfree : b.Unfrozen s) (hmove : MayMove s c f a b.pdir) (hx : b.target = some x)
      (h : ¬Replaceable s c a b.pdir x)
      (hother : x.dev = b.pdir.dev → x.dev = a.ip.dev → x.ino ≠ a.ip.ino)

/-- What `rename` keeps of the target. -/
def Found.toTarget (s : State) (a : Source) (b : Found) : Target :=
  ⟨b.pdir, b.name, b.target, newparent s a b.pdir⟩

theorem unfrozen_iff : b.Unfrozen s ↔
    ¬(b.target.any fun x => (s.inode x).frozen || (s.inode b.pdir).append) = true := by
  rw [Found.Unfrozen]
  cases b.target with
  | none => simp
  | some x => simp

theorem renameTarget_frozen (hfound : lookup s c f.second ⟨.create, true, false⟩ dst = .ok b)
    (h : ¬b.Unfrozen s) : renameTarget s c f a (a.isDir s) dst = some (.error eperm) := by
  rw [unfrozen_iff, not_not] at h
  simp only [renameTarget, hfound, if_pos h]

theorem renameTarget_unfrozen (hfound : lookup s c f.second ⟨.create, true, false⟩ dst = .ok b)
    (h : b.Unfrozen s) : renameTarget s c f a (a.isDir s) dst =
      match checkMove s c f (a.isDir s) a.ip b.pdir (newparent s a b.pdir) with
      | none => none
      | some e =>
        if e ≠ 0 then some (.error e)
        else
          match b.target with
          | none =>
            if b.pdir.dev ≠ a.ip.dev then some (.error exdev) else some (.ok (b.toTarget s a))
          | some x =>
            match checkExisting s c (a.isDir s) a.ip b.pdir x with
            | some e => some (.error e)
            | none => some (.ok (b.toTarget s a)) := by
  rw [unfrozen_iff] at h
  obtain ⟨dp, name, xp⟩ := b
  simp only [renameTarget, hfound, if_neg h, Found.toTarget, newparent]
  cases xp <;> rfl

theorem Accepts.renameTarget (h : Accepts s c f a dst b) :
    renameTarget s c f a (a.isDir s) dst = some (.ok (b.toTarget s a)) := by
  rw [renameTarget_unfrozen h.found h.unfrozen, checkMove_zero_iff.2 h.move]
  cases hx : b.target with
  | none => simp only [ne_eq, not_true_eq_false, if_false, h.fresh hx]
  | some x =>
    simp only [ne_eq, not_true_eq_false, if_false, checkExisting_none_iff.2 (h.existing x hx)]

theorem Refuses.renameTarget (h : Refuses s c f a dst) :
    ∃ e, e ≠ 0 ∧ renameTarget s c f a (a.isDir s) dst = some (.error e) := by
  cases h with
  | @missing e hlookup he => exact ⟨e, he, by simp only [Names.renameTarget, hlookup]⟩
  | frozen hfound h => exact ⟨eperm, by decide, renameTarget_frozen hfound h⟩
  | stopped hfound hfree h =>
    obtain ⟨e, hne, he⟩ := checkMove_error_iff.2 h
    refine ⟨e, hne, ?_⟩
    rw [renameTarget_unfrozen hfound hfree, he]
    exact if_pos hne
  | crosses hfound hmove hnone h =>
    refine ⟨exdev, by decide, ?_⟩
    rw [renameTarget_unfrozen hfound fun x hx => absurd (hnone.symm.trans hx) (by simp),
      checkMove_zero_iff.2 hmove]
    simp only [hnone, ne_eq, not_true_eq_false, if_false, h, not_false_eq_true, if_true]
  | kept hfound hfree hmove hx h hother =>
    obtain ⟨e, hne, he⟩ := checkExisting_error_iff.2 ⟨h, hother⟩
    refine ⟨e, hne, ?_⟩
    rw [renameTarget_unfrozen hfound hfree, checkMove_zero_iff.2 hmove]
    simp only [hx, ne_eq, not_true_eq_false, if_false, he]

/-- There is no third way for the checks to end, but for the rename of a file to itself. -/
theorem renameTarget_cases {r : Except ℕ Target}
    (h : renameTarget s c f a (a.isDir s) dst = some r) :
    (∃ b, Accepts s c f a dst b ∧ r = .ok (b.toTarget s a)) ∨
      ∃ e, r = .error e ∧ (e ≠ 0 → Refuses s c f a dst) := by
  cases hfound : lookup s c f.second ⟨.create, true, false⟩ dst with
  | error e =>
    simp only [renameTarget, hfound] at h
    exact .inr ⟨e, (some.inj h).symm, .missing hfound⟩
  | ok b =>
    by_cases hfree : b.Unfrozen s
    swap
    · rw [renameTarget_frozen hfound hfree] at h
      exact .inr ⟨eperm, (some.inj h).symm, fun _ => .frozen hfound hfree⟩
    rw [renameTarget_unfrozen hfound hfree] at h
    cases hmove : checkMove s c f (a.isDir s) a.ip b.pdir (newparent s a b.pdir) with
    | none =>
      rw [hmove] at h
      cases h
    | some e =>
      simp only [hmove] at h
      by_cases he : e = 0
      swap
      · rw [if_pos he] at h
        exact .inr ⟨e, (some.inj h).symm,
          fun _ => .stopped hfound hfree (checkMove_error_iff.1 ⟨e, he, hmove⟩)⟩
      rw [if_neg (not_not.2 he)] at h
      have hmay := checkMove_zero_iff.1 (he ▸ hmove)
      cases hx : b.target with
      | none =>
        simp only [hx] at h
        split_ifs at h with hdev
        · exact .inr ⟨exdev, (some.inj h).symm, fun _ => .crosses hfound hmay hx hdev⟩
        · refine .inl ⟨b, ⟨hfound, hfree, hmay, fun _ => not_not.1 hdev, fun x hx' => ?_⟩,
            (some.inj h).symm⟩
          cases hx.symm.trans hx'
      | some x =>
        simp only [hx] at h
        cases hchecked : checkExisting s c (a.isDir s) a.ip b.pdir x with
        | some e =>
          simp only [hchecked] at h
          refine .inr ⟨e, (some.inj h).symm, fun hne => ?_⟩
          obtain ⟨hkept, hother⟩ := checkExisting_error_iff.1 ⟨e, hne, hchecked⟩
          exact .kept hfound hfree hmay hx hkept hother
        | none =>
          simp only [hchecked] at h
          refine .inl ⟨b, ⟨hfound, hfree, hmay, fun hnone => ?_, fun x' hx' => ?_⟩,
            (some.inj h).symm⟩
          · cases hx.symm.trans hnone
          · obtain rfl := some.inj (hx.symm.trans hx')
            exact checkExisting_none_iff.1 hchecked

/-! ## The source is counted first -/

def linked (s : State) (a : Source) : State :=
  (s.modify a.ip fun ip => ip.setRename (ip.irename || a.isDir s)).incr a.ip

theorem inode_linked_self : (linked s a).inode a.ip =
    ((s.inode a.ip).setRename ((s.inode a.ip).irename || a.isDir s)).setNlink
      ((s.inode a.ip).nlink + 1) := by
  rw [linked, State.incr, inode_modify_self, inode_modify_self]
  rfl

theorem inode_linked_of_ne (hne : id ≠ a.ip) : (linked s a).inode id = s.inode id := by
  rw [linked, inode_incr_of_ne hne, inode_modify_of_ne _ _ hne]

theorem nlink_linked_self : ((linked s a).inode a.ip).nlink = (s.inode a.ip).nlink + 1 := by
  rw [inode_linked_self, Inode.setNlink]

theorem irename_linked_self :
    ((linked s a).inode a.ip).irename = ((s.inode a.ip).irename || a.isDir s) := by
  rw [inode_linked_self, Inode.setNlink, Inode.setRename]

theorem linked_file : SameFile (s.inode id) ((linked s a).inode id) ∧
    ((linked s a).inode id).entries = (s.inode id).entries ∧
    ((linked s a).inode id).frozen = (s.inode id).frozen ∧
    ((linked s a).inode id).append = (s.inode id).append := by
  by_cases hne : id = a.ip
  · subst hne
    rw [inode_linked_self]
    exact ⟨⟨rfl, rfl, rfl, rfl⟩, rfl, rfl, rfl⟩
  · rw [inode_linked_of_ne hne]
    exact ⟨.refl _, rfl, rfl, rfl⟩

theorem Movable.agrees (h : Movable s c f src a) (hr : Ready s c f) : Agrees s (linked s a) where
  same _ := linked_file.1
  entries _ := linked_file.2.1
  nlink id := by
    by_cases hne : id = a.ip
    · subst hne
      rw [nlink_linked_self]
      exact iff_of_false (h.counts hr).2 (h.counts hr).1
    · rw [inode_linked_of_ne hne]
  mountedOn := rfl
  covered := rfl
  rootdir := rfl

theorem checkpathLoop_linked (fault source fuel : ℕ) (ip : Id) :
    checkpathLoop (linked s a) fault source fuel ip = checkpathLoop s fault source fuel ip := by
  induction fuel generalizing ip with
  | zero => rfl
  | succ fuel ih =>
    have higet : ∀ dev ino, (linked s a).iget dev ino = s.iget dev ino := fun _ _ => rfl
    simp only [checkpathLoop, linked_file.1.type, linked_file.2.1, higet, ih]

theorem checkMove_linked (dd : Bool) (ip dp : Id) (newparent : ℕ) :
    checkMove (linked s a) c f dd ip dp newparent = checkMove s c f dd ip dp newparent := by
  have hninode : (linked s a).ninode = s.ninode := rfl
  simp only [checkMove, checkpath, checkpathLoop_linked, hninode]

theorem checkExisting_linked (dd : Bool) (dp x : Id) :
    checkExisting (linked s a) c dd a.ip dp x = checkExisting s c dd a.ip dp x := by
  rw [checkExisting, checkExisting]
  by_cases hino : x.ino = a.ip.ino
  · simp only [hino, if_true]
  · have hne : x ≠ a.ip := fun he => hino (he ▸ rfl)
    have hdenies : (linked s a).stickyDenies c dp x ↔ s.stickyDenies c dp x := by
      rw [State.stickyDenies, State.stickyDenies, linked_file.1.sticky, linked_file.1.uid,
        linked_file.1.uid]
    simp only [inode_linked_of_ne hne, hdenies]

theorem Movable.renameTarget_linked (h : Movable s c f src a) (hr : Ready s c f) (dd : Bool)
    (dst : Name) : renameTarget (linked s a) c f a dd dst = renameTarget s c f a dd dst := by
  simp only [renameTarget, lookup, (h.agrees hr).namei, linked_file.2.2.1, linked_file.2.2.2,
    checkMove_linked, checkExisting_linked]

end

end RetroBSD.Names
