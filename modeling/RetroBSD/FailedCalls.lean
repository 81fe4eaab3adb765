import RetroBSD.LookupFrames

/-!
# What failed calls on names leave behind

`link` and `maknode` undo what they did when they fail. `mkdir` looks for the directory whose
link count it has raised with an error pending, which ends the lookup, and `rename` takes back
the link of the source only: neither its flag, nor the count of the new parent, nor a name that
it has entered.
-/

namespace RetroBSD.Names

open State

/-- The link counts and the flags `IRENAME` of the inodes there were are as before. -/
def SameLinks (s s' : State) : Prop :=
  ∀ id, (s.inode id).type ≠ .free →
    (s'.inode id).nlink = (s.inode id).nlink ∧ (s'.inode id).irename = (s.inode id).irename

/-- The state in which a call starts: an inode with a name has a link and room for one more,
only inodes with references have flags, and `ialloc` finds inodes that are not in use. -/
structure Ready (s : State) (c : Caller) (f : Faults) : Prop where
  live : s.Live
  counts : ∀ dp name ino, (s.inode dp).type = .dir → s.search dp name = some ino →
    (s.inode (s.iget dp.dev ino)).nlink ≠ 0 ∧ (s.inode (s.iget dp.dev ino)).nlink + 1 ≠ 0
  flags : ∀ id, (s.inode id).irename → c.held id
  ialloc : ∀ d n, f.ialloc d = .ok n → (s.inode ⟨d, n⟩).type = .free

inductive Call
  | link (target linkname : Name)
  | mknod (fname : Name) (type : FileType) (text : Name)
  | mkdir (path : Name)
  | rename (src dst : Name)

def Call.run (s : State) (c : Caller) (f : Faults) : Call → Option (ℕ × State)
  | .link target linkname => some (Names.link s c f target linkname)
  | .mknod fname type text => some (Names.mknod s c f fname type text)
  | .mkdir path => some (Names.mkdir s c f path)
  | .rename src dst => Names.rename s c f src dst

section

variable {s s' : State} {c : Caller} {f : Faults} {id ip : Id}

/-! ## Changes of one inode -/

theorem sameLinks_refl (s : State) : SameLinks s s := fun _ _ => ⟨rfl, rfl⟩

theorem sameLinks_of_free (hip : (s.inode ip).type = .free)
    (h : ∀ id, id ≠ ip → s'.inode id = s.inode id) : SameLinks s s' := by
  intro id hid
  have hne : id ≠ ip := fun he => hid (he ▸ hip)
  rw [h id hne]
  exact ⟨rfl, rfl⟩

theorem inode_irele_of_ne (hne : id ≠ ip) : (s.irele c ip).inode id = s.inode id := by
  rw [irele]
  split_ifs
  · rfl
  · exact inode_modify_of_ne _ _ hne

theorem nlink_irele : ((s.irele c ip).inode id).nlink = (s.inode id).nlink := by
  by_cases hne : id = ip
  · subst hne
    rw [irele]
    split_ifs with hheld
    · rfl
    · rw [inode_modify_self]
      split_ifs with hz
      · exact hz.symm
      · rfl
  · rw [inode_irele_of_ne hne]

theorem irename_irele :
    ((s.irele c ip).inode ip).irename = (c.held ip && (s.inode ip).irename) := by
  rw [irele]
  split_ifs with hheld
  · rw [hheld, Bool.true_and]
  · rw [inode_modify_self, Bool.eq_false_iff.mpr hheld]
    split_ifs
    · rfl
    · rfl

theorem inode_incr_of_ne (hne : id ≠ ip) : (s.incr ip).inode id = s.inode id :=
  inode_modify_of_ne _ _ hne

theorem inode_decr_of_ne (hne : id ≠ ip) : (s.decr ip).inode id = s.inode id :=
  inode_modify_of_ne _ _ hne

@[simp] theorem nlink_incr_self : ((s.incr ip).inode ip).nlink = (s.inode ip).nlink + 1 := by
  rw [incr, inode_modify_self, Inode.setNlink]

@[simp] theorem nlink_decr_self : ((s.decr ip).inode ip).nlink = (s.inode ip).nlink - 1 := by
  rw [decr, inode_modify_self, Inode.setNlink]

theorem entries_incr : ((s.incr ip).inode id).entries = (s.inode id).entries := by
  by_cases hne : id = ip
  · subst hne
    rw [incr, inode_modify_self, Inode.setNlink]
  · rw [inode_incr_of_ne hne]

theorem sameFile_incr : SameFile (s.inode id) ((s.incr ip).inode id) := by
  by_cases hne : id = ip
  · subst hne
    rw [incr, inode_modify_self, Inode.setNlink]
    exact ⟨rfl, rfl, rfl, rfl⟩
  · rw [inode_incr_of_ne hne]
    exact ⟨rfl, rfl, rfl, rfl⟩

theorem irename_incr : ((s.incr ip).inode id).irename = (s.inode id).irename := by
  by_cases hne : id = ip
  · subst hne
    rw [incr, inode_modify_self, Inode.setNlink]
  · rw [inode_incr_of_ne hne]

theorem irename_decr : ((s.decr ip).inode id).irename = (s.inode id).irename := by
  by_cases hne : id = ip
  · subst hne
    rw [decr, inode_modify_self, Inode.setNlink]
  · rw [inode_decr_of_ne hne]

theorem nlink_giveUp_self : ((giveUp (s.incr ip) c ip).inode ip).nlink = (s.inode ip).nlink := by
  rw [giveUp, nlink_irele, nlink_decr_self, nlink_incr_self, UInt16.add_sub_cancel]

theorem inode_giveUp_of_ne (hne : id ≠ ip) : (giveUp s c ip).inode id = s.inode id := by
  rw [giveUp, inode_irele_of_ne hne, inode_decr_of_ne hne]

theorem irename_giveUp_self :
    ((giveUp s c ip).inode ip).irename = (c.held ip && (s.inode ip).irename) := by
  rw [giveUp, irename_irele, irename_decr]

theorem sameLinks_giveUp (hflags : (s.inode ip).irename → c.held ip) :
    SameLinks s (giveUp (s.incr ip) c ip) := by
  intro id _
  by_cases hne : id = ip
  · subst hne
    refine ⟨nlink_giveUp_self, ?_⟩
    rw [irename_giveUp_self, irename_incr]
    cases hr : (s.inode id).irename with
    | false => rw [Bool.and_false]
    | true => rw [hflags hr, Bool.true_and]
  · rw [inode_giveUp_of_ne hne, inode_incr_of_ne hne]
    exact ⟨rfl, rfl⟩

/-! ## Links and files -/

variable {r : ℕ × State}

theorem link_cases {target linkname : Name} (h : link s c f target linkname = r) :
    r.1 = 0 ∨ r.2 = s ∨ ∃ ip, r.2 = giveUp (s.incr ip) c ip := by
  rw [link] at h
  split at h
  · exact .inr (.inl (h ▸ rfl))
  · exact .inr (.inl (h ▸ rfl))
  · rename_i ip _
    dsimp only at h
    split at h
    · exact .inr (.inl (h ▸ rfl))
    split at h
    · exact .inr (.inl (h ▸ rfl))
    split at h
    · exact .inr (.inr ⟨ip, h ▸ rfl⟩)
    · exact .inr (.inr ⟨ip, h ▸ rfl⟩)
    · split_ifs at h
      · exact .inr (.inr ⟨ip, h ▸ rfl⟩)
      · exact .inr (.inr ⟨ip, h ▸ rfl⟩)
      · exact .inl (h ▸ rfl)

theorem link_sameLinks (hflags : ∀ id, (s.inode id).irename → c.held id) {target linkname : Name}
    (h : link s c f target linkname = r) (herr : r.1 ≠ 0) : SameLinks s r.2 := by
  rcases link_cases h with h0 | hs | ⟨ip, hip⟩
  · exact absurd h0 herr
  · rw [hs]
    exact sameLinks_refl s
  · rw [hip]
    exact sameLinks_giveUp (hflags ip)

theorem maknode_sameLinks (hialloc : ∀ d n, f.ialloc d = .ok n → (s.inode ⟨d, n⟩).type = .free)
    (pdir : Id) (name : Name) (type : FileType) (text : Name)
    (herr : (maknode s c f pdir name type text).1 ≠ 0) :
    SameLinks s (maknode s c f pdir name type text).2 := by
  rw [maknode] at herr ⊢
  cases hn : f.ialloc pdir.dev with
  | error e => exact sameLinks_refl s
  | ok n =>
    simp only [hn] at herr ⊢
    by_cases henter : f.enter ≠ 0
    · rw [if_pos henter]
      refine sameLinks_of_free (hialloc _ _ hn) fun id hne => ?_
      rw [inode_irele_of_ne hne, inode_modify_of_ne _ _ hne, inode_modify_of_ne _ _ hne]
    · rw [if_neg henter] at herr
      exact absurd rfl herr

theorem mknod_sameLinks (hialloc : ∀ d n, f.ialloc d = .ok n → (s.inode ⟨d, n⟩).type = .free)
    (fname : Name) (type : FileType) (text : Name) (herr : (mknod s c f fname type text).1 ≠ 0) :
    SameLinks s (mknod s c f fname type text).2 := by
  rw [mknod] at herr ⊢
  split
  · exact sameLinks_refl s
  · exact sameLinks_refl s
  · rename_i pdir name hlookup
    simp only [hlookup] at herr
    exact maknode_sameLinks hialloc pdir name type text herr

/-! ## Directories -/

/-- What `mkdir` has done to an inode and the directory before it writes to them. -/
def mkdirLinked (s : State) (c : Caller) (dp : Id) (n : ℕ) : State :=
  (s.modify ⟨dp.dev, n⟩ fun _ => ⟨.dir, 2, [], [], false, false, false, false, c.uid⟩).incr dp

/-- What it has done when the entries of the new directory are written. -/
def mkdirWritten (s : State) (c : Caller) (dp : Id) (n : ℕ) : State :=
  (mkdirLinked s c dp n).modify ⟨dp.dev, n⟩ fun ip => ip.setEntries [⟨dot, n⟩, ⟨dotdot, dp.ino⟩]

variable {dp : Id} {n : ℕ}

theorem inode_mkdirWritten_of_ne (hne : id ≠ ⟨dp.dev, n⟩) :
    (mkdirWritten s c dp n).inode id = (s.incr dp).inode id := by
  rw [mkdirWritten, inode_modify_of_ne _ _ hne, mkdirLinked]
  by_cases hdp : id = dp
  · subst hdp
    rw [incr, incr, inode_modify_self, inode_modify_self, inode_modify_of_ne _ _ hne]
  · rw [inode_incr_of_ne hdp, inode_incr_of_ne hdp, inode_modify_of_ne _ _ hne]

theorem inode_unlinked_of_ne (hne : id ≠ ⟨dp.dev, n⟩) :
    ((s.modify ⟨dp.dev, n⟩ fun ip => ip.setNlink 0).irele c ⟨dp.dev, n⟩).inode id = s.inode id := by
  rw [inode_irele_of_ne hne, inode_modify_of_ne _ _ hne]

variable {path : Name}

/-- The parent is not found again, since the error of `direnter` is still there. -/
theorem mkdir_lost {name : Name}
    (hlookup : lookup s c f.first ⟨.create, false, false⟩ path = .ok ⟨dp, name, none⟩)
    (hn : f.ialloc dp.dev = .ok n) (htemplate : f.template = 0) (henter : f.enter ≠ 0) :
    mkdir s c f path = (if f.second ≠ 0 then f.second else f.enter,
      ((mkdirWritten s c dp n).modify ⟨dp.dev, n⟩ fun ip => ip.setNlink 0).irele
        c ⟨dp.dev, n⟩) := by
  simp only [mkdir, hlookup, hn, htemplate, lookupAgain, if_pos henter, ne_eq, not_true_eq_false,
    if_false]
  rfl

theorem mkdir_trace {name : Name} (h : Ready s c f)
    (hlookup : lookup s c f.first ⟨.create, false, false⟩ path = .ok ⟨dp, name, none⟩)
    (hn : f.ialloc dp.dev = .ok n) (htemplate : f.template = 0) (henter : f.enter ≠ 0) :
    ∃ e s', mkdir s c f path = (e, s') ∧ e ≠ 0 ∧ ¬SameLinks s s' := by
  have hdp : (s.inode dp).type = .dir := (namei_describes h.live (by simp) (lookup_ok hlookup)).dir
  have hne : dp ≠ ⟨dp.dev, n⟩ := fun hdp' => ne_free_of_dir hdp (hdp' ▸ h.ialloc _ _ hn)
  refine ⟨_, _, mkdir_lost hlookup hn htemplate henter, ?_, fun hsame => ?_⟩
  · split_ifs with hsecond
    · exact hsecond
    · exact henter
  · have hnlink := (hsame dp (ne_free_of_dir hdp)).1
    rw [inode_unlinked_of_ne hne, inode_mkdirWritten_of_ne hne] at hnlink
    exact absurd hnlink (by simp)

/-- A directory whose first block cannot be written is taken back as a whole. -/
theorem mkdir_template_sameLinks (hdp : (s.inode dp).type = .dir)
    (hfree : (s.inode ⟨dp.dev, n⟩).type = .free) :
    SameLinks s ((((mkdirLinked s c dp n).decr dp).modify ⟨dp.dev, n⟩ fun ip =>
      ip.setNlink 0).irele c ⟨dp.dev, n⟩) := by
  intro id hid
  have hne : id ≠ ⟨dp.dev, n⟩ := fun he => hid (he ▸ hfree)
  rw [inode_unlinked_of_ne hne]
  by_cases hself : id = dp
  · subst hself
    rw [irename_decr, nlink_decr_self, mkdirLinked, irename_incr, nlink_incr_self,
      inode_modify_of_ne _ _ hne, UInt16.add_sub_cancel]
    exact ⟨rfl, rfl⟩
  · rw [inode_decr_of_ne hself, mkdirLinked, inode_incr_of_ne hself, inode_modify_of_ne _ _ hne]
    exact ⟨rfl, rfl⟩

theorem mkdir_sameLinks (h : Ready s c f) (hr : mkdir s c f path = r) (herr : r.1 ≠ 0)
    (hnot : ∀ dp name n, lookup s c f.first ⟨.create, false, false⟩ path = .ok ⟨dp, name, none⟩ →
      f.ialloc dp.dev = .ok n → f.template = 0 → f.enter = 0) : SameLinks s r.2 := by
  rw [mkdir] at hr
  split at hr
  · exact hr ▸ sameLinks_refl s
  · exact hr ▸ sameLinks_refl s
  · rename_i dp name hlookup
    split at hr
    · exact hr ▸ sameLinks_refl s
    · rename_i n hn
      by_cases htemplate : f.template = 0
      · have henter := hnot dp name n hlookup hn htemplate
        rw [if_neg (not_not.mpr htemplate), if_neg (not_not.mpr henter)] at hr
        exact absurd (hr ▸ rfl) herr
      · rw [if_pos htemplate] at hr
        rw [← hr]
        exact mkdir_template_sameLinks (namei_describes h.live (by simp) (lookup_ok hlookup)).dir
          (h.ialloc _ _ hn)

end

end RetroBSD.Names
