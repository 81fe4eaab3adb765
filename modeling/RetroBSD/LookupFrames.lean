import RetroBSD.NameCalls

/-!
# Lookups in a changed tree

Every inode a lookup comes to is in use. A lookup of a name to be deleted reads only what it
comes to on its way, so it goes the same way in a state that differs elsewhere. Where nothing
differs but counts of links that are not 0, all lookups end alike.
-/

namespace RetroBSD.Names

open Option

/-- Entries refer to inodes in use, and devices are mounted on directories and have one for
their root. -/
structure State.Live (s : State) : Prop where
  entry : ∀ dp name ino, (s.inode dp).type = .dir → s.search dp name = some ino →
    (s.inode ⟨dp.dev, ino⟩).type ≠ .free
  root : ∀ id d, s.mountedOn id = some d → (s.inode ⟨d, rootino⟩).type = .dir
  covered : ∀ d mp, s.covered d = some mp → (s.inode mp).type = .dir

/-- Inodes that a lookup does not tell apart but by their entries. -/
structure SameFile (a b : Inode) : Prop where
  type : b.type = a.type
  text : b.text = a.text
  sticky : b.sticky = a.sticky
  uid : b.uid = a.uid

theorem SameFile.refl (a : Inode) : SameFile a a := ⟨rfl, rfl, rfl, rfl⟩

theorem SameFile.trans {a b d : Inode} (h : SameFile a b) (h' : SameFile b d) : SameFile a d :=
  ⟨h'.type.trans h.type, h'.text.trans h.text, h'.sticky.trans h.sticky, h'.uid.trans h.uid⟩

/-- The inodes in `V` are as before for a lookup, up to new entries and to those that refer to
inodes outside `V`. -/
structure Extends (V : Id → Prop) (s s' : State) : Prop where
  same : ∀ id, V id → SameFile (s.inode id) (s'.inode id)
  found : ∀ dp name ino, V dp → V (s.iget dp.dev ino) → s.search dp name = some ino →
    s'.search dp name = some ino
  mountedOn : s'.mountedOn = s.mountedOn
  covered : s'.covered = s.covered
  rootdir : s'.rootdir = s.rootdir

section

variable {V : Id → Prop} {s s' : State} {c : Caller} {nd : Nameiop} {last : Bool} {dp dq ip : Id}
  {name path : Name} {r : Found} {links ino : ℕ}

theorem ne_free_of_dir {ip : Inode} (h : ip.type = .dir) : ip.type ≠ .free := by
  rw [h]
  decide

theorem State.Live.iget (hs : s.Live) {dev ino : ℕ} (h : (s.inode ⟨dev, ino⟩).type ≠ .free) :
    (s.inode (s.iget dev ino)).type ≠ .free := by
  rw [State.iget]
  cases hm : s.mountedOn ⟨dev, ino⟩ with
  | none => exact h
  | some d => exact ne_free_of_dir (hs.root _ d hm)

theorem State.Live.above (hs : s.Live) (hdp : (s.inode dp).type = .dir) :
    (s.inode (s.above c dp)).type = .dir := by
  rw [State.above]
  split_ifs
  · cases hmp : s.covered dp.dev with
    | none => exact hdp
    | some mp => exact hs.covered _ _ hmp
  · exact hdp

theorem State.Live.searched (hs : s.Live) (hdp : (s.inode dp).type = .dir) :
    (s.inode (searched s c nd last dp name)).type = .dir := by
  rw [Names.searched]
  split_ifs
  · exact hs.above hdp
  · exact hdp

theorem Extends.iget (h : Extends V s s') (dev ino : ℕ) : s'.iget dev ino = s.iget dev ino := by
  rw [State.iget, State.iget, h.mountedOn]

theorem Extends.above (h : Extends V s s') (hd : s'.search dp dotdot = s.search dp dotdot) :
    s'.above c dp = s.above c dp := by
  rw [State.above, State.above, hd, h.covered]

theorem above_of_search_none (h : s.search dp dotdot = none) : s.above c dp = dp := by
  rw [State.above, h, if_neg (by simp)]

theorem Extends.searched (h : Extends V s s') (hdp : V dp)
    (hentry : ∀ i, s.search dp name = some i → V (s.iget dp.dev i))
    (hfound : s.search (searched s c nd last dp name) name = some ino) :
    Names.searched s' c nd last dp name = Names.searched s c nd last dp name := by
  rw [Names.searched] at hfound
  simp only [Names.searched]
  split_ifs at hfound ⊢ with hup
  · refine h.above ?_
    rw [hup.1] at hfound hentry
    cases hd : s.search dp dotdot with
    | none =>
      rw [above_of_search_none hd, hd] at hfound
      cases hfound
    | some i => exact h.found _ _ _ hdp (hentry i hd) hd
  · rfl

theorem Extends.stickyDenies (h : Extends V s s') (hdp : V dp) (hip : V ip) :
    s'.stickyDenies c dp ip ↔ s.stickyDenies c dp ip := by
  rw [State.stickyDenies, State.stickyDenies, (h.same dp hdp).sticky, (h.same dp hdp).uid,
    (h.same ip hip).uid]

/-! ## One component -/

/-- The inode a component leads to, when the lookup does not end with it. -/
def ledTo (s : State) (c : Caller) (dp : Id) (name : Name) (ino : ℕ) : Id :=
  if name ≠ dotdot ∧ dp.ino = ino then dp
  else s.iget dp.dev (if name = dotdot ∧ c.rdir = some dp then dp.ino else ino)

theorem State.Live.ledTo (hs : s.Live) (hdp : (s.inode dp).type = .dir)
    (h : s.search dp name = some ino) : (s.inode (ledTo s c dp name ino)).type ≠ .free := by
  rw [Names.ledTo]
  split_ifs
  · exact ne_free_of_dir hdp
  · exact hs.iget (ne_free_of_dir hdp)
  · exact hs.iget (hs.entry _ _ _ hdp h)

theorem Extends.ledTo (h : Extends V s s') (ino : ℕ) :
    Names.ledTo s' c dp name ino = Names.ledTo s c dp name ino := by
  rw [Names.ledTo, Names.ledTo]
  split_ifs
  · rfl
  · exact h.iget _ _
  · exact h.iget _ _

theorem dirloop2_pass (hd : ¬(nd.op = .delete ∧ last))
    (hc : ¬(nd.op = .create ∧ nd.lockparent ∧ last))
    (h : s.search dp name = some ino) :
    dirloop2 s c nd last dp name = .ok (.next dp (ledTo s c dp name ino)) := by
  simp only [dirloop2, h, if_neg hd, if_neg hc, ledTo]
  by_cases hname : name = dotdot
  · simp only [hname, ne_eq, not_true_eq_false, false_and, if_false]
  · simp only [hname, false_and, if_false]
    split_ifs <;> rfl

theorem dirloop2_next (h : dirloop2 s c nd last dp name = .ok (.next dq ip)) :
    ∃ ino, dq = dp ∧ s.search dp name = some ino ∧ ip = ledTo s c dp name ino ∧
      ¬(nd.op = .delete ∧ last) ∧ ¬(nd.op = .create ∧ nd.lockparent ∧ last) := by
  cases hs : s.search dp name with
  | none =>
    simp only [dirloop2, hs] at h
    split_ifs at h
    cases h
  | some ino =>
    by_cases hd : nd.op = .delete ∧ last
    · simp only [dirloop2, hs, if_pos hd] at h
      split_ifs at h <;> cases h
    · by_cases hc : nd.op = .create ∧ nd.lockparent ∧ last
      · simp only [dirloop2, hs, if_neg hd, if_pos hc] at h
        split_ifs at h <;> cases h
      · rw [dirloop2_pass hd hc hs] at h
        cases h
        exact ⟨ino, rfl, rfl, rfl, hd, hc⟩

/-! ## The way of a lookup -/

abbrev front (path : Name) : Name := path.takeWhile (· ≠ slash)

/-- The inodes a lookup comes to when `path` is left to look up from `dp`: the directories
searched, what the entries read there refer to, and the inodes the components lead to. -/
inductive Visits (s : State) (c : Caller) (nd : Nameiop) : ℕ → Name → Id → Id → Prop
  | start {links : ℕ} {path : Name} {dp : Id} : Visits s c nd links path dp dp
  | searched {links : ℕ} {path : Name} {dp : Id} :
      Visits s c nd links path dp (searched s c nd (afterName path).isEmpty dp (front path))
  | entry {links : ℕ} {path : Name} {dp dq : Id} {ino : ℕ}
      (hdq : dq = dp ∨ dq = Names.searched s c nd (afterName path).isEmpty dp (front path))
      (hino : s.search dq (front path) = some ino) :
      Visits s c nd links path dp (s.iget dq.dev ino)
  | next {links : ℕ} {path : Name} {dp dq ip : Id}
      (hcomp : component s c nd (afterName path).isEmpty dp (front path) = .ok (.next dq ip)) :
      Visits s c nd links path dp ip
  | absolute {links : ℕ} {path : Name} {dp dq ip x : Id}
      (hcomp : component s c nd (afterName path).isEmpty dp (front path) = .ok (.next dq ip))
      (hlnk : (s.inode ip).type = .lnk ∧ (nd.follow ∨ afterName path ≠ []))
      (habs : (c.expand links (s.inode ip).text (afterName path)).head? = some slash)
      (hx : Visits s c nd (links + 1)
        (dropSlashes (c.expand links (s.inode ip).text (afterName path)))
        (c.rdir.getD s.rootdir) x) :
      Visits s c nd links path dp x
  | relative {links : ℕ} {path : Name} {dp dq ip x : Id}
      (hcomp : component s c nd (afterName path).isEmpty dp (front path) = .ok (.next dq ip))
      (hlnk : (s.inode ip).type = .lnk ∧ (nd.follow ∨ afterName path ≠ []))
      (hrel : (c.expand links (s.inode ip).text (afterName path)).head? ≠ some slash)
      (hx : Visits s c nd (links + 1) (c.expand links (s.inode ip).text (afterName path)) dq x) :
      Visits s c nd links path dp x
  | down {links : ℕ} {path : Name} {dp dq ip x : Id}
      (hcomp : component s c nd (afterName path).isEmpty dp (front path) = .ok (.next dq ip))
      (hlnk : ¬((s.inode ip).type = .lnk ∧ (nd.follow ∨ afterName path ≠ [])))
      (hx : Visits s c nd links (dropSlashes (afterName path)) ip x) : Visits s c nd links path dp x

/-- The lookup of `path` leads to or through the inode `x`. -/
def OnWay (s : State) (c : Caller) (nd : Nameiop) (path : Name) (x : Id) : Prop :=
  if path.head? = some slash then Visits s c nd 0 (dropSlashes path) (c.rdir.getD s.rootdir) x
  else Visits s c nd 0 path c.cdir x

/-- The search for the first component goes the same way where the visited inodes are the
same. -/
theorem searched_of_extends (hext : Extends V s s')
    (hway : ∀ x, Visits s c nd links path dp x → V x)
    (hino : s.search (searched s c nd (afterName path).isEmpty dp (front path)) (front path) =
      some ino) :
    searched s' c nd (afterName path).isEmpty dp (front path) =
        searched s c nd (afterName path).isEmpty dp (front path) ∧
      s'.search (searched s c nd (afterName path).isEmpty dp (front path)) (front path) =
        some ino :=
  ⟨hext.searched (hway _ .start) (fun _ hi => hway _ (.entry (.inl rfl) hi)) hino,
    hext.found _ _ _ (hway _ .searched) (hway _ (.entry (.inr rfl) hino)) hino⟩

theorem component_next (hext : Extends V s s') (hway : ∀ x, Visits s c nd links path dp x → V x)
    (h : component s c nd (afterName path).isEmpty dp (front path) = .ok (.next dq ip)) :
    component s' c nd (afterName path).isEmpty dp (front path) = .ok (.next dq ip) := by
  obtain ⟨ino, rfl, hino, rfl, hd, hc⟩ := dirloop2_next h
  obtain ⟨hsearched, hino'⟩ := searched_of_extends hext hway hino
  rw [component, hsearched, ← hext.ledTo ino]
  exact dirloop2_pass hd hc hino'

theorem component_deleted (hext : Extends V s s') (hway : ∀ x, Visits s c nd links path dp x → V x)
    (hop : nd.op = .delete)
    (h : component s c nd (afterName path).isEmpty dp (front path) = .ok (.done r)) :
    component s' c nd (afterName path).isEmpty dp (front path) = .ok (.done r) := by
  rw [component] at h
  cases hino : s.search (searched s c nd (afterName path).isEmpty dp (front path)) (front path) with
  | none =>
    simp only [dirloop2, hino, hop, reduceCtorEq, false_and, if_false] at h
  | some ino =>
    obtain ⟨hsearched, hino'⟩ := searched_of_extends hext hway hino
    rw [component, hsearched, ← h]
    simp only [dirloop2, hino, hino', hext.iget,
      hext.stickyDenies (hway _ .searched) (hway _ (.entry (.inr rfl) hino))]

/-! ## Whole paths -/

/-- A directory that may be searched, with a component to search for. -/
structure Searchable (s : State) (c : Caller) (op : Op) (path : Name) (dp : Id) : Prop where
  dir : (s.inode dp).type = .dir
  exec : c.access .exec dp = 0
  valid : nameError op 0 (front path) = none
  nonempty : front path ≠ []

theorem Searchable.of (hdir : ¬(s.inode dp).type ≠ .dir) (hexec : ¬c.access .exec dp ≠ 0)
    (hvalid : nameError nd.op 0 (front path) = none) (hne : front path ≠ []) :
    Searchable s c nd.op path dp :=
  ⟨not_not.mp hdir, not_not.mp hexec, hvalid, hne⟩

theorem Searchable.mono (h : Searchable s c nd.op path dp)
    (hfile : SameFile (s.inode dp) (s'.inode dp)) : Searchable s' c nd.op path dp :=
  ⟨hfile.type.trans h.dir, h.exec, h.valid, h.nonempty⟩

/-- The lookup after a component that leads from `dp` to `ip`. -/
def afterComponent (s : State) (c : Caller) (nd : Nameiop) (links : ℕ) (path : Name) (dp ip : Id) :
    Except ℕ Found :=
  if (s.inode ip).type = .lnk ∧ (nd.follow ∨ afterName path ≠ []) then
    if maxpathlen - 1 ≤ (s.inode ip).text.length + ((afterName path).length + 1)
      then .error enametoolong
    else if maxsymlinks < links + 1 then .error eloop
    else if (c.expand links (s.inode ip).text (afterName path)).head? = some slash then
      dirloop s c nd (links + 1) (dropSlashes (c.expand links (s.inode ip).text (afterName path)))
        (c.rdir.getD s.rootdir)
    else dirloop s c nd (links + 1) (c.expand links (s.inode ip).text (afterName path)) dp
  else if afterName path ≠ [] then dirloop s c nd links (dropSlashes (afterName path)) ip
  else .ok ⟨dp, front path, some ip⟩

theorem dirloop_of_searchable (h : Searchable s c nd.op path dp) (links : ℕ) :
    dirloop s c nd links path dp =
      match component s c nd (afterName path).isEmpty dp (front path) with
      | .error e => .error e
      | .ok (.done r) => .ok r
      | .ok (.next dp ip) => afterComponent s c nd links path dp ip := by
  rw [dirloop, if_neg (not_not.mpr h.dir), if_neg (not_not.mpr h.exec)]
  simp only [h.valid, h.nonempty]
  rfl

theorem dirloop_next (hext : Extends V s s') (hway : ∀ x, Visits s c nd links path dp x → V x)
    (hsr : Searchable s c nd.op path dp)
    (h : component s c nd (afterName path).isEmpty dp (front path) = .ok (.next dq ip)) :
    dirloop s' c nd links path dp = afterComponent s' c nd links path dq ip ∧
      SameFile (s.inode ip) (s'.inode ip) := by
  rw [dirloop_of_searchable (hsr.mono (hext.same dp (hway dp .start))), component_next hext hway h]
  exact ⟨rfl, hext.same ip (hway ip (.next h))⟩

/-- A name that is found to be deleted is found in the same way where the inodes on the way are
the same. -/
theorem dirloop_extends (hext : Extends V s s') (hop : nd.op = .delete)
    (hway : ∀ x, Visits s c nd links path dp x → V x) (h : dirloop s c nd links path dp = .ok r) :
    dirloop s' c nd links path dp = .ok r := by
  fun_induction dirloop s c nd links path dp with
  | case1 | case2 | case3 | case4 | case6 | case8 | case9 => cases h
  | case5 links path dp hdir hexec hname hnil hlookup =>
    exact absurd (.inl (by simp [hop])) hlookup
  | case7 links path dp hdir hexec hvalid hnil r' hcomp =>
    cases h
    have hsr : Searchable s c nd.op path dp := .of hdir hexec hvalid hnil
    rw [dirloop_of_searchable (hsr.mono (hext.same dp (hway dp .start))),
      component_deleted hext hway hop hcomp]
  | case10 links path dp hdir hexec hvalid hnil dq ip hcomp hlnk hlen hlinks path' habs ih =>
    obtain ⟨heq, hsame⟩ := dirloop_next hext hway (.of hdir hexec hvalid hnil) hcomp
    rw [heq, afterComponent, hsame.type, hsame.text, hext.rootdir, if_pos hlnk, if_neg hlen,
      if_neg hlinks, if_pos habs]
    exact ih (fun x hx => hway x (.absolute hcomp hlnk habs hx)) h
  | case11 links path dp hdir hexec hvalid hnil dq ip hcomp hlnk hlen hlinks path' hrel ih =>
    obtain ⟨heq, hsame⟩ := dirloop_next hext hway (.of hdir hexec hvalid hnil) hcomp
    rw [heq, afterComponent, hsame.type, hsame.text, if_pos hlnk, if_neg hlen, if_neg hlinks,
      if_neg hrel]
    exact ih (fun x hx => hway x (.relative hcomp hlnk hrel hx)) h
  | case12 links path dp hdir hexec hvalid hnil dq ip hcomp hlnk hrest ih =>
    obtain ⟨heq, hsame⟩ := dirloop_next hext hway (.of hdir hexec hvalid hnil) hcomp
    rw [heq, afterComponent, hsame.type, if_neg hlnk, if_pos hrest]
    exact ih (fun x hx => hway x (.down hcomp hlnk hx)) h
  | case13 links path dp hdir hexec hvalid hnil dq ip hcomp hlnk hrest =>
    obtain ⟨heq, hsame⟩ := dirloop_next hext hway (.of hdir hexec hvalid hnil) hcomp
    rw [heq, afterComponent, hsame.type, if_neg hlnk, if_neg hrest]
    exact h

theorem namei_extends (hext : Extends V s s') (hop : nd.op = .delete)
    (hway : ∀ x, OnWay s c nd path x → V x) (h : namei s c nd path = .ok r) :
    namei s' c nd path = .ok r := by
  rw [namei] at h ⊢
  rw [hext.rootdir]
  split_ifs at h ⊢ with hlen habs
  · exact dirloop_extends hext hop (fun x hx => hway x (by rwa [OnWay, if_pos habs])) h
  · exact dirloop_extends hext hop (fun x hx => hway x (by rwa [OnWay, if_neg habs])) h

/-! ## Lookups that end alike -/

/-- States that differ for a lookup in counts that are not 0 only. -/
structure Agrees (s s' : State) : Prop where
  same : ∀ id, SameFile (s.inode id) (s'.inode id)
  entries : ∀ id, (s'.inode id).entries = (s.inode id).entries
  nlink : ∀ id, (s'.inode id).nlink = 0 ↔ (s.inode id).nlink = 0
  mountedOn : s'.mountedOn = s.mountedOn
  covered : s'.covered = s.covered
  rootdir : s'.rootdir = s.rootdir

variable (h : Agrees s s')
include h

theorem Agrees.search (dp : Id) (name : Name) : s'.search dp name = s.search dp name := by
  rw [State.search, State.search, h.entries]

theorem Agrees.iget (dev ino : ℕ) : s'.iget dev ino = s.iget dev ino := by
  rw [State.iget, State.iget, h.mountedOn]

theorem Agrees.stickyDenies (c : Caller) (dp ip : Id) :
    s'.stickyDenies c dp ip ↔ s.stickyDenies c dp ip := by
  rw [State.stickyDenies, State.stickyDenies, (h.same dp).sticky, (h.same dp).uid, (h.same ip).uid]

theorem Agrees.component (c : Caller) (nd : Nameiop) (last : Bool) (dp : Id) (name : Name) :
    component s' c nd last dp name = component s c nd last dp name := by
  have hsearched : searched s' c nd last dp name = searched s c nd last dp name := by
    simp only [searched, State.above, h.search, h.covered]
  simp only [Names.component, hsearched, dirloop2, h.search, h.iget, h.stickyDenies, ne_eq, h.nlink]

theorem Agrees.dirloop (c : Caller) (nd : Nameiop) (links : ℕ) (path : Name) (dp : Id) :
    dirloop s' c nd links path dp = dirloop s c nd links path dp := by
  -- after the checks, both lookups go on from the same component
  have hnext : ∀ {links path dp}, Searchable s c nd.op path dp →
      Names.dirloop s' c nd links path dp =
        match Names.component s c nd (afterName path).isEmpty dp (front path) with
        | .error e => .error e
        | .ok (.done r) => .ok r
        | .ok (.next dq ip) => afterComponent s' c nd links path dq ip := by
    intro links path dp hsr
    rw [dirloop_of_searchable (hsr.mono (h.same dp)), h.component]
  fun_induction Names.dirloop s c nd links path dp with
  | case1 links path dp hdir => rw [Names.dirloop, (h.same dp).type, if_pos hdir]
  | case2 links path dp hdir hexec =>
      rw [Names.dirloop, (h.same dp).type, if_neg hdir, if_pos hexec]
  | case3 links path dp hdir hexec e hvalid =>
    rw [Names.dirloop, (h.same dp).type, if_neg hdir, if_neg hexec]
    simp only [hvalid]
  | case4 links path dp hdir hexec hvalid hnil hop
      | case5 links path dp hdir hexec hvalid hnil hop =>
    rw [Names.dirloop, (h.same dp).type, if_neg hdir, if_neg hexec]
    simp only [hnil, nameError, hop, dite_true, if_true, if_false]
  | case6 links path dp hdir hexec hvalid hnil e hcomp =>
      rw [hnext (.of hdir hexec hvalid hnil), hcomp]
  | case7 links path dp hdir hexec hvalid hnil r hcomp =>
      rw [hnext (.of hdir hexec hvalid hnil), hcomp]
  | case8 links path dp hdir hexec hvalid hnil dq ip hcomp hlnk hlen =>
    rw [hnext (.of hdir hexec hvalid hnil), hcomp]
    simp only [afterComponent, (h.same ip).type, (h.same ip).text, hlnk, hlen]
    rfl
  | case9 links path dp hdir hexec hvalid hnil dq ip hcomp hlnk hlen hlinks =>
    rw [hnext (.of hdir hexec hvalid hnil), hcomp]
    simp only [afterComponent, (h.same ip).type, (h.same ip).text, hlnk, hlen, hlinks]
    rfl
  | case10 links path dp hdir hexec hvalid hnil dq ip hcomp hlnk hlen hlinks path' habs ih =>
    rw [hnext (.of hdir hexec hvalid hnil), hcomp]
    simp only [afterComponent, (h.same ip).type, (h.same ip).text, h.rootdir]
    rw [if_pos hlnk, if_neg hlen, if_neg hlinks, if_pos habs, ih]
  | case11 links path dp hdir hexec hvalid hnil dq ip hcomp hlnk hlen hlinks path' hrel ih =>
    rw [hnext (.of hdir hexec hvalid hnil), hcomp]
    simp only [afterComponent, (h.same ip).type, (h.same ip).text]
    rw [if_pos hlnk, if_neg hlen, if_neg hlinks, if_neg hrel, ih]
  | case12 links path dp hdir hexec hvalid hnil dq ip hcomp hlnk hrest ih =>
    rw [hnext (.of hdir hexec hvalid hnil), hcomp]
    simp only [afterComponent, (h.same ip).type]
    rw [if_neg hlnk, if_pos hrest, ih]
  | case13 links path dp hdir hexec hvalid hnil dq ip hcomp hlnk hrest =>
    rw [hnext (.of hdir hexec hvalid hnil), hcomp]
    simp only [afterComponent, (h.same ip).type]
    rw [if_neg hlnk, if_neg hrest]

theorem Agrees.namei (c : Caller) (nd : Nameiop) (path : Name) :
    namei s' c nd path = namei s c nd path := by
  simp only [Names.namei, h.rootdir, h.dirloop]

omit h

/-! ## What a lookup leaves -/

section Ends

variable {P : Found → Prop} (hop : nd.op ≠ .lookup)
  (hdone : ∀ last dp name r, (s.inode dp).type = .dir →
    component s c nd last dp name = .ok (.done r) → P r)
  (hnext : ∀ dp name dq ip, (s.inode dp).type = .dir →
    component s c nd true dp name = .ok (.next dq ip) → P ⟨dq, name, some ip⟩)

include hop hdone hnext

/-- What holds of every component that can end a lookup holds of what it leaves. -/
theorem dirloop_ends (h : dirloop s c nd links path dp = .ok r) : P r := by
  fun_induction dirloop s c nd links path dp with
  | case1 | case2 | case3 | case4 | case6 | case8 | case9 => cases h
  | case5 links path dp hdir hexec hname hnil hlookup => exact absurd (Or.inl hop) hlookup
  | case7 links path dp hdir hexec hvalid hnil r' hcomp =>
    cases h
    exact hdone _ _ _ _ (not_not.mp hdir) hcomp
  | case10 _ _ _ _ _ _ _ _ _ _ _ _ _ _ _ ih => exact ih h
  | case11 _ _ _ _ _ _ _ _ _ _ _ _ _ _ _ ih | case12 _ _ _ _ _ _ _ _ _ _ _ _ ih => exact ih h
  | case13 links path dp hdir hexec hvalid hnil dq ip hcomp hlnk hrest =>
    cases h
    rw [not_not.mp hrest] at hcomp
    exact hnext _ _ _ _ (not_not.mp hdir) hcomp

theorem namei_ends (h : namei s c nd path = .ok r) : P r := by
  rw [namei] at h
  split_ifs at h <;> exact dirloop_ends hop hdone hnext h

end Ends

theorem dirloop2_missing (h : dirloop2 s c nd last dp name = .ok (.done r)) :
    r.target = none ↔ s.search r.pdir r.name = none := by
  rw [dirloop2] at h
  split at h
  · rename_i hnone
    split_ifs at h
    cases h
    exact iff_of_true rfl hnone
  · rename_i ino hino
    have hsome : ¬s.search dp name = none := by
      rw [hino]
      exact some_ne_none _
    dsimp only at h
    split_ifs at h <;> cases h <;> exact iff_of_false (some_ne_none _) hsome

theorem namei_missing (hop : nd.op ≠ .lookup) (h : namei s c nd path = .ok r) :
    r.target = none ↔ s.search r.pdir r.name = none := by
  refine namei_ends (P := fun r => r.target = none ↔ s.search r.pdir r.name = none) hop ?_ ?_ h
  · exact fun last dp name r _ hcomp => dirloop2_missing hcomp
  · intro dp name dq ip _ hcomp
    obtain ⟨ino, rfl, hino, -⟩ := dirloop2_next hcomp
    refine iff_of_false (some_ne_none _) ?_
    rw [hino]
    exact some_ne_none _

/-- What a lookup that creates or deletes a name leaves: a directory, and a target in use. -/
structure Found.Describes (r : Found) (s : State) : Prop where
  dir : (s.inode r.pdir).type = .dir
  live : ∀ ip, r.target = some ip → (s.inode ip).type ≠ .free

theorem dirloop2_describes (hs : s.Live) (hdp : (s.inode dp).type = .dir)
    (h : dirloop2 s c nd last dp name = .ok (.done r)) : r.Describes s := by
  rw [dirloop2] at h
  split at h
  · split_ifs at h
    cases h
    exact ⟨hdp, fun ip hip => (some_ne_none ip hip.symm).elim⟩
  · rename_i ino hino
    have hentry := hs.iget (hs.entry _ _ _ hdp hino)
    dsimp only at h
    split_ifs at h <;> cases h
    · exact ⟨hdp, fun ip hip => some.inj hip ▸ ne_free_of_dir hdp⟩
    · exact ⟨hdp, fun ip hip => some.inj hip ▸ hentry⟩
    · exact ⟨hdp, fun ip hip => some.inj hip ▸ hs.iget (ne_free_of_dir hdp)⟩
    · exact ⟨hdp, fun ip hip => some.inj hip ▸ hentry⟩

theorem namei_describes (hs : s.Live) (hop : nd.op ≠ .lookup) (h : namei s c nd path = .ok r) :
    r.Describes s := by
  refine namei_ends (P := fun r => r.Describes s) hop ?_ ?_ h
  · exact fun last dp name r hdp hcomp => dirloop2_describes hs (hs.searched hdp) hcomp
  · intro dp name dq ip hdp hcomp
    obtain ⟨ino, rfl, hino, rfl, -, -⟩ := dirloop2_next hcomp
    exact ⟨hs.searched hdp, fun ip' hip' => some.inj hip' ▸ hs.ledTo (hs.searched hdp) hino⟩

theorem lookup_ok {fault : ℕ} (h : lookup s c fault nd path = .ok r) :
    namei s c nd path = .ok r := by
  rw [lookup] at h
  split_ifs at h
  exact h

/-- The target of a name to be deleted or replaced is the directory itself or what the entry
refers to. -/
theorem dirloop2_names (h : dirloop2 s c nd last dp name = .ok (.done r))
    (hip : r.target = some ip) :
    nd.op = .delete ∧ ip = r.pdir ∨
      ∃ ino, s.search r.pdir r.name = some ino ∧ ip = s.iget r.pdir.dev ino := by
  rw [dirloop2] at h
  split at h
  · split_ifs at h
    cases h
    cases hip
  · rename_i ino hino
    dsimp only at h
    split_ifs at h with hd hw hdp hst hc hw' hr hdp' hdp'' <;> cases h <;> cases hip
    · exact .inl ⟨hd.1, rfl⟩
    · exact .inr ⟨ino, hino, rfl⟩
    · exact absurd rfl hdp'
    · exact .inr ⟨ino, hino, rfl⟩

theorem namei_names (hop : nd.op = .delete ∨ nd.op = .create ∧ nd.lockparent = true)
    (h : namei s c nd path = .ok r) (hip : r.target = some ip) :
    nd.op = .delete ∧ ip = r.pdir ∨
      ∃ ino, s.search r.pdir r.name = some ino ∧ ip = s.iget r.pdir.dev ino := by
  refine namei_ends (P := fun r => ∀ ip, r.target = some ip → nd.op = .delete ∧ ip = r.pdir ∨
    ∃ ino, s.search r.pdir r.name = some ino ∧ ip = s.iget r.pdir.dev ino) ?_ ?_ ?_ h ip hip
  · rcases hop with hop | hop
    · simp [hop]
    · simp [hop.1]
  · exact fun last dp name r _ hcomp ip hip => dirloop2_names hcomp hip
  · intro dp name dq ip _ hcomp
    obtain ⟨-, -, -, -, hd, hc⟩ := dirloop2_next hcomp
    rcases hop with hop | hop
    · exact absurd ⟨hop, rfl⟩ hd
    · exact absurd ⟨hop.1, hop.2, rfl⟩ hc

end

end RetroBSD.Names
