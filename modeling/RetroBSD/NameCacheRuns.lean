import RetroBSD.NameCache

/-!
# What the cache of names answers

An entry that is on a hash chain and has the identifier of its slot describes an entry of the
directory, in every run in which the counter of identifiers does not wrap around to 0 and no
directory is replaced whose name `.` is in the cache. Identifiers from 2^16 on are never found
again, because the entry has their lower half only.
-/

namespace RetroBSD.NameCache

open LinkedList InodeTable Runs State Function Nat Prod Option

variable {s : State} {ls : Fin nchhash → List Nc} {e : Nc} {i j : Slot} {k : Dir × Name}

/-- An entry on a chain is for a slot, and when it has the identifier of the slot, the name is
in the directory and leads to the inode in the slot. -/
structure EntryOk (s : State) (e : Nc) (i : Slot) : Prop where
  ip : (s.nc e).ncIp = some i
  pos : 0 < (s.iId i).toNat
  describes : (s.nc e).ncId.toNat = (s.iId i).toNat →
    ∃ ino, s.dir (s.nc e).ncDir (s.nc e).ncName = some ino ∧ s.held i = some ((s.nc e).ncDir.1, ino)
  fresh : s.fresh e = true → (s.nc e).ncId = (s.iId i).toUInt16
  short : (s.nc e).ncName.length ≤ nchnamlen

structure Table (s : State) (ls : Fin nchhash → List Nc) : Prop where
  unique : ∀ i j, s.held i = s.held j → s.held i ≠ none → i = j
  ids : ∀ i, (s.iId i).toNat ≤ s.nextinodeid.toNat
  pos : ∀ i, s.held i ≠ none → 0 < (s.iId i).toNat
  ncIds : ∀ e, (s.nc e).ncId.toNat ≤ s.nextinodeid.toNat
  hashed : s.hash.Hashed nhash (fun e => (s.nc e).key) ls
  entries : ∀ h, ∀ e ∈ ls h, ∃ i, EntryOk s e i

variable (h : Table s ls)
include h

/-! ## Searches -/

theorem Table.find (k : Dir × Name) :
    (s.find k = none ∧ ∀ e ∈ ls (nhash k), (s.nc e).key ≠ k) ∨
      ∃ e ∈ ls (nhash k), (s.nc e).key = k ∧ s.find k = some e := by
  have htest : ∀ e, decide ((s.nc e).key = k) = true ↔ (s.nc e).key = k := fun e => decide_eq_true_iff
  rcases h.hashed.find htest with ⟨hfind, habsent⟩ | ⟨e, he, hkey, hfind⟩
  · refine .inl ⟨?_, habsent⟩
    rw [State.find, hfind]
    rfl
  · refine .inr ⟨e, he, hkey, ?_⟩
    rw [State.find, hfind]
    rfl

variable {hd : Fin nchhash}

theorem Table.find_of_mem (he : e ∈ ls hd) : s.find (s.nc e).key = some e := by
  have hhash : nhash (s.nc e).key = hd := h.hashed.hashed hd e he
  rcases h.find (s.nc e).key with ⟨-, habsent⟩ | ⟨e', he', hkey, hfind⟩
  · exact absurd rfl (habsent e (hhash.symm ▸ he))
  · rw [h.hashed.unique _ e' he' e (hhash.symm ▸ he) hkey] at hfind
    exact hfind

omit h

theorem valid_iff (hip : (s.nc e).ncIp = some i) : s.valid e = true ↔ (s.nc e).ncId.toNat = (s.iId i).toNat := by
  rw [State.valid, hip]
  rw [decide_eq_true_iff, ← UInt32.toNat_inj, UInt16.toNat_toUInt32]

variable {d : Dir}

theorem held_of_holder (h : s.holder d = some j) : s.held j = some d := by
  have htest := List.find?_some h
  exact of_decide_eq_true htest

theorem holder_eq_none (h : s.holder d = none) (j : Slot) : s.held j ≠ some d := fun hj =>
  List.find?_eq_none.1 h j (List.mem_finRange j) (decide_eq_true hj)

include h

theorem Table.holder_eq (hj : s.held j = some d) : s.holder d = some j := by
  cases hfind : s.holder d with
  | none => exact absurd hj (holder_eq_none hfind j)
  | some i =>
    have hi := held_of_holder hfind
    rw [h.unique i j (hi.trans hj.symm) (by rw [hi]; exact some_ne_none d)]

variable {dp : Slot} {name : Name}

/-- The cache gives no other answer than the directory. -/
theorem Table.cached_sound (hc : s.cached dp name = some j) : s.scanned dp name = some j := by
  rw [State.cached] at hc
  rw [State.scanned]
  cases hdp : s.held dp with
  | none =>
    rw [hdp] at hc
    cases hc
  | some d =>
    simp only [hdp] at hc ⊢
    split_ifs at hc
    rcases h.find (d, name) with ⟨hfind, -⟩ | ⟨e, he, hkey, hfind⟩
    · simp only [hfind] at hc
      cases hc
    · simp only [hfind] at hc
      split_ifs at hc with hvalid
      obtain ⟨i, hi⟩ := h.entries _ e he
      obtain rfl : i = j := some.inj (hi.ip.symm.trans hc)
      obtain ⟨ino, hdir, hheld⟩ := hi.describes ((valid_iff hi.ip).1 hvalid)
      rw [show (s.nc e).ncDir = d from congrArg fst hkey] at hdir hheld
      rw [show (s.nc e).ncName = name from congrArg snd hkey] at hdir
      rw [hdir]
      exact h.holder_eq hheld

theorem Table.cached_fresh_iff (he : e ∈ ls hd) (hfresh : s.fresh e = true) (hdp : s.held dp = some (s.nc e).ncDir) :
    s.cached dp (s.nc e).ncName = (s.nc e).ncIp ↔ ∃ i, (s.nc e).ncIp = some i ∧ (s.iId i).toNat < 2 ^ 16 := by
  obtain ⟨i, hi⟩ := h.entries hd e he
  have hfind : s.find ((s.nc e).ncDir, (s.nc e).ncName) = some e := h.find_of_mem he
  have hcached : s.cached dp (s.nc e).ncName = if s.valid e then some i else none := by
    rw [State.cached, hdp]
    dsimp only
    rw [if_neg (not_lt.2 hi.short), hfind]
    dsimp only
    rw [hi.ip]
  have hlow : (s.nc e).ncId.toNat = (s.iId i).toNat % 2 ^ 16 := by
    rw [hi.fresh hfresh, UInt32.toNat_toUInt16]
  have hmatch : s.valid e = true ↔ (s.iId i).toNat < 2 ^ 16 := by
    rw [valid_iff hi.ip, hlow]
    constructor
    · intro heq
      rw [← heq]
      exact mod_lt _ (by decide)
    · exact mod_eq_of_lt
  rw [hcached, hi.ip]
  constructor
  · intro heq
    split_ifs at heq with hvalid
    exact ⟨i, rfl, hmatch.1 hvalid⟩
  · rintro ⟨i', hi', hlt⟩
    obtain rfl := some.inj hi'
    rw [if_pos (hmatch.2 hlt)]

/-! ## Identifiers -/

theorem cinvalall_table : Table s.cinvalall ls where
  unique := h.unique
  ids := h.ids
  pos := h.pos
  ncIds _ := zero_le _
  hashed := h.hashed
  entries hd e he := by
    obtain ⟨i, hi⟩ := h.entries hd e he
    refine ⟨i, hi.ip, hi.pos, fun hzero => ?_, fun hf => ?_, hi.short⟩
    · exact absurd hzero hi.pos.ne
    · cases hf

omit h

/-- What `cacheinval` changes. An entry keeps its identifier or gets 0. -/
structure Invalidated (s s' : State) (i : Slot) : Prop where
  held : s'.held = s.held
  dir : s'.dir = s.dir
  hash : s'.hash = s.hash
  next : s'.nextinodeid.toNat = s.nextinodeid.toNat + 1
  self : (s'.iId i).toNat = s.nextinodeid.toNat + 1
  other : ∀ j, j ≠ i → s'.iId j = s.iId j
  ip : ∀ e, (s'.nc e).ncIp = (s.nc e).ncIp
  key : ∀ e, (s'.nc e).key = (s.nc e).key
  ncId : ∀ e, s'.nc e = s.nc e ∨ (s'.nc e).ncId = 0
  fresh : ∀ e, s'.fresh e = true → s.fresh e = true ∧ (s.nc e).ncIp ≠ some i ∧ s'.nc e = s.nc e

theorem cacheinval_spec (s : State) (i : Slot) (hlt : s.nextinodeid.toNat + 1 < 2 ^ 32) :
    Invalidated s (s.cacheinval i) i := by
  have hnext : (s.nextinodeid + 1).toNat = s.nextinodeid.toNat + 1 := mod_eq_of_lt hlt
  rw [State.cacheinval]
  split_ifs with hzero
  · refine ⟨rfl, rfl, rfl, hnext, ?_, fun j hj => update_of_ne hj .., fun _ => rfl, fun _ => rfl,
      fun _ => .inr rfl, fun _ hf => ?_⟩
    · show (update s.iId i _ i).toNat = _
      rw [update_self, hnext]
    · cases hf
  · refine ⟨rfl, rfl, rfl, hnext, ?_, fun j hj => update_of_ne hj .., fun _ => rfl, fun _ => rfl,
      fun _ => .inl rfl, fun e hf => ?_⟩
    · show (update s.iId i _ i).toNat = _
      rw [update_self, hnext]
    · rw [Bool.and_eq_true, decide_eq_true_iff] at hf
      exact ⟨hf.1, hf.2, rfl⟩

variable {s' : State}

theorem Invalidated.ncId_le (h : Invalidated s s' i) (ht : Table s ls) (e : Nc) :
    (s'.nc e).ncId.toNat ≤ s.nextinodeid.toNat := by
  rcases h.ncId e with heq | hzero
  · rw [heq]
    exact ht.ncIds e
  · rw [hzero]
    exact zero_le _

theorem Invalidated.stale (h : Invalidated s s' i) (ht : Table s ls) (e : Nc) :
    (s'.nc e).ncId.toNat ≠ (s'.iId i).toNat := by
  have := h.ncId_le ht e
  rw [h.self]
  omega

theorem Invalidated.matched (h : Invalidated s s' i) (ht : Table s ls) (hj : EntryOk s e j)
    (hm : (s'.nc e).ncId.toNat = (s'.iId j).toNat) :
    j ≠ i ∧ s'.nc e = s.nc e ∧ (s.nc e).ncId.toNat = (s.iId j).toNat := by
  have hji : j ≠ i := by
    rintro rfl
    exact h.stale ht e hm
  rw [h.other j hji] at hm
  rcases h.ncId e with heq | hzero
  · rw [heq] at hm
    exact ⟨hji, heq, hm⟩
  · rw [hzero] at hm
    exact absurd hm hj.pos.ne

theorem Invalidated.table (h : Invalidated s s' i) (ht : Table s ls) : Table s' ls where
  unique := by
    rw [h.held]
    exact ht.unique
  ids j := by
    have := ht.ids j
    rw [h.next]
    by_cases hj : j = i
    · rw [hj, h.self]
    · rw [h.other j hj]
      omega
  pos j hheld := by
    rw [h.held] at hheld
    by_cases hj : j = i
    · rw [hj, h.self]
      omega
    · rw [h.other j hj]
      exact ht.pos j hheld
  ncIds e := by
    have := h.ncId_le ht e
    rw [h.next]
    omega
  hashed := by
    rw [h.hash]
    exact ht.hashed.congr h.key
  entries hd e he := by
    obtain ⟨j, hj⟩ := ht.entries hd e he
    refine ⟨j, (h.ip e).trans hj.ip, ?_, fun hm => ?_, fun hf => ?_, ?_⟩
    · by_cases hji : j = i
      · rw [hji, h.self]
        omega
      · rw [h.other j hji]
        exact hj.pos
    · obtain ⟨-, heq, hold⟩ := h.matched ht hj hm
      rw [heq, h.dir, h.held]
      exact hj.describes hold
    · obtain ⟨hfresh, hne, heq⟩ := h.fresh e hf
      have hji : j ≠ i := fun hji => hne (hji ▸ hj.ip)
      rw [heq, h.other j hji]
      exact hj.fresh hfresh
    · rw [show (s'.nc e).ncName = (s.nc e).ncName from congrArg snd (h.key e)]
      exact hj.short

/-! ## Slots -/

theorem cacheinval_setHeld (s : State) (i : Slot) (held : Slot → Option Dir) :
    State.cacheinval { s with held := held } i = { s.cacheinval i with held := held } := by
  rw [State.cacheinval, State.cacheinval]
  split_ifs <;> rfl

include h

theorem Table.setHeld (hd : ∀ j, s.held j ≠ some d) (hpos : 0 < (s.iId i).toNat)
    (hstale : ∀ e, (s.nc e).ncId.toNat ≠ (s.iId i).toNat) :
    Table { s with held := update s.held i (some d) } ls where
  unique a b hab hne := by
    simp only [update_apply] at hab hne
    by_cases ha : a = i
    · by_cases hb : b = i
      · rw [ha, hb]
      · rw [if_pos ha, if_neg hb] at hab
        exact absurd hab.symm (hd b)
    · rw [if_neg ha] at hab hne
      split_ifs at hab with hb
      · exact absurd hab (hd a)
      · exact h.unique a b hab hne
  ids := h.ids
  pos j hj := by
    by_cases hji : j = i
    · rw [hji]
      exact hpos
    · simp only [update_of_ne hji] at hj
      exact h.pos j hj
  ncIds := h.ncIds
  hashed := h.hashed
  entries hd e he := by
    obtain ⟨j, hj⟩ := h.entries hd e he
    refine ⟨j, hj.ip, hj.pos, fun hm => ?_, hj.fresh, hj.short⟩
    have hji : j ≠ i := by
      rintro rfl
      exact hstale e hm
    obtain ⟨ino, hdir, hheld⟩ := hj.describes hm
    refine ⟨ino, hdir, ?_⟩
    show update s.held i _ j = _
    rw [update_of_ne hji, hheld]

variable (hlt : s.nextinodeid.toNat + 1 < 2 ^ 32)
include hlt

theorem Table.iget (d : Dir) (i : Slot) :
    Table (s.iget d i).2 ls ∧ (s.iget d i).2.held (s.iget d i).1 = some d ∧ (s.iget d i).2.dir = s.dir ∧
      ∀ e, ((s.iget d i).2.nc e).key = (s.nc e).key := by
  rw [State.iget]
  cases hholder : s.holder d with
  | some j => exact ⟨h, held_of_holder hholder, rfl, fun _ => rfl⟩
  | none =>
    have hinv := cacheinval_spec s i hlt
    rw [cacheinval_setHeld]
    refine ⟨?_, update_self .., hinv.dir, hinv.key⟩
    have hnone := holder_eq_none hholder
    rw [← hinv.held] at hnone ⊢
    refine (hinv.table h).setHeld hnone ?_ (hinv.stale h)
    rw [hinv.self]
    exact succ_pos _

omit hlt

/-! ## Entries -/

theorem Table.lru (lru : List Nc) : Table { s with lru := lru } ls :=
  ⟨h.unique, h.ids, h.pos, h.ncIds, h.hashed, fun hd e he => by
    obtain ⟨i, hi⟩ := h.entries hd e he
    exact ⟨i, hi.ip, hi.pos, hi.describes, hi.fresh, hi.short⟩⟩

theorem Table.drop (e : Nc) : Table (s.drop e) fun hd => (ls hd).erase e where
  unique := h.unique
  ids := h.ids
  pos := h.pos
  ncIds := h.ncIds
  hashed := h.hashed.remove e fun _ _ => rfl
  entries hd e' he' := by
    obtain ⟨i, hi⟩ := h.entries hd e' (List.mem_of_mem_erase he')
    exact ⟨i, hi.ip, hi.pos, hi.describes, hi.fresh, hi.short⟩

omit h

def Absent (s : State) (ls : Fin nchhash → List Nc) (k : Dir × Name) : Prop :=
  ∀ hd, ∀ e ∈ ls hd, (s.nc e).key ≠ k

include h

theorem Table.absent_of_not_mem (hk : ∀ e ∈ ls (nhash k), (s.nc e).key ≠ k) : Absent s ls k := by
  intro hd e he hkey
  have hhash : nhash (s.nc e).key = hd := h.hashed.hashed hd e he
  rw [hkey] at hhash
  exact hk e (hhash.symm ▸ he) hkey

theorem Table.drop_absent (he : e ∈ ls hd) :
    Absent (s.drop e) (fun hd => (ls hd).erase e) (s.nc e).key := by
  intro hd' e' he' hkey
  obtain ⟨hne, he'⟩ := (h.hashed.nodup hd').mem_erase_iff.1 he'
  exact hne (h.hashed.eq_of_key_eq he' he hkey)

theorem Table.forget (k : Dir × Name) :
    ∃ ls', Table (s.forget k) ls' ∧ Absent (s.forget k) ls' k ∧ ∀ hd, ∀ e ∈ ls' hd, e ∈ ls hd := by
  rw [State.forget]
  rcases h.find k with ⟨hfind, habsent⟩ | ⟨e, he, hkey, hfind⟩
  · rw [hfind]
    exact ⟨ls, h, h.absent_of_not_mem habsent, fun _ _ he => he⟩
  · rw [hfind]
    refine ⟨_, h.drop e, ?_, fun _ _ he => List.mem_of_mem_erase he⟩
    rw [← hkey]
    exact h.drop_absent he

variable {ino : ℕ}

theorem Table.enter (habsent : Absent s ls k) (hdir : s.dir k.1 k.2 = some ino)
    (hheld : s.held i = some (k.1.1, ino)) (hshort : k.2.length ≤ nchnamlen) : ∃ ls', Table (s.enter k i) ls' := by
  rw [State.enter]
  cases hlru : s.lru with
  | nil => exact ⟨ls, h⟩
  | cons e lru =>
    dsimp only
    obtain ⟨s', hs'⟩ : ∃ s', s' = { s with
      nc := update s.nc e ⟨some i, k.1, (s.iId i).toUInt16, k.2⟩
      hash := (s.hash.remque (.cell e)).insque (.cell e) (.head (nhash k))
      lru := lru ++ [e]
      fresh := update s.fresh e true } := ⟨_, rfl⟩
    have hself : s'.nc e = ⟨some i, k.1, (s.iId i).toUInt16, k.2⟩ := by
      rw [hs']
      exact update_self ..
    have hother : ∀ e', e' ≠ e → s'.nc e' = s.nc e' := by
      intro e' he'
      rw [hs']
      exact update_of_ne he' ..
    obtain ⟨hheld', hid', hnext', hdir'⟩ : s'.held = s.held ∧ s'.iId = s.iId ∧
        s'.nextinodeid = s.nextinodeid ∧ s'.dir = s.dir := by
      rw [hs']
      exact ⟨rfl, rfl, rfl, rfl⟩
    have hmove : s'.hash.Hashed nhash (fun e => (s'.nc e).key)
        (update (fun hd => (ls hd).erase e) (nhash k) (e :: (ls (nhash k)).erase e)) := by
      rw [show s'.hash = (s.hash.remque (.cell e)).insque (.cell e) (.head (nhash k)) by rw [hs']]
      exact h.hashed.move e (habsent _) (by rw [hself]; rfl) fun e' he' => by rw [hother e' he']
    rw [← hs']
    refine ⟨_, ?_, ?_, ?_, fun e' => ?_, hmove, ?_⟩
    · rw [hheld']
      exact h.unique
    · rw [hid', hnext']
      exact h.ids
    · rw [hheld', hid']
      exact h.pos
    · rw [hnext']
      by_cases he' : e' = e
      · rw [he', hself]
        exact (mod_le _ _).trans (h.ids i)
      · rw [hother e' he']
        exact h.ncIds e'
    · -- The entry `e` is the new one, wherever it is found
      intro hd e' he'
      by_cases hee : e' = e
      · rw [hee]
        refine ⟨i, by rw [hself], ?_, fun _ => ⟨ino, ?_, ?_⟩, fun _ => by rw [hself, hid'], ?_⟩
        · rw [hid']
          exact h.pos i (by rw [hheld]; exact some_ne_none _)
        · rw [hself, hdir']
          exact hdir
        · rw [hself, hheld']
          exact hheld
        · rw [hself]
          exact hshort
      · have hold : e' ∈ ls hd := by
          rw [update_apply] at he'
          split_ifs at he' with hhd
          · rcases List.mem_cons.1 he' with heq | he'
            · exact absurd heq hee
            · exact hhd ▸ List.mem_of_mem_erase he'
          · exact List.mem_of_mem_erase he'
        obtain ⟨j, hj⟩ := h.entries hd e' hold
        have hfresh' : s'.fresh e' = s.fresh e' := by
          rw [hs']
          exact update_of_ne hee ..
        refine ⟨j, ?_, ?_, ?_, ?_, ?_⟩
        · rw [hother e' hee]
          exact hj.ip
        · rw [hid']
          exact hj.pos
        · rw [hother e' hee, hid', hdir', hheld']
          exact hj.describes
        · rw [hother e' hee, hid', hfresh']
          exact hj.fresh
        · rw [hother e' hee]
          exact hj.short

include hlt

/-! ## Lookups -/

theorem Table.scan {makeentry : Bool}
    (habsent : makeentry = true → Absent s ls k ∧ k.2.length ≤ nchnamlen) (i : Slot) :
    ∃ ls', Table (s.scan k makeentry i).2 ls' := by
  rw [State.scan]
  cases hdir : s.dir k.1 k.2 with
  | none => exact ⟨ls, h⟩
  | some ino =>
    obtain ⟨htable, hheld, hdir', hkey⟩ := h.iget hlt (k.1.1, ino) i
    dsimp only
    split_ifs with hmake
    · obtain ⟨habs, hshort⟩ := habsent hmake
      refine htable.enter (fun hd e he => ?_) ?_ hheld hshort
      · rw [hkey e]
        exact habs hd e he
      · rw [hdir']
        exact hdir
    · exact ⟨ls, htable⟩

theorem Table.lookup (dp : Slot) (name : Name)
    (makeentry : Bool) (i : Slot) : ∃ ls', Table (s.lookup dp name makeentry i).2 ls' := by
  rw [State.lookup]
  cases s.held dp with
  | none => exact ⟨ls, h⟩
  | some d =>
    dsimp only
    split_ifs with hlong
    · refine h.scan hlt ?_ i
      intro hmake
      cases hmake
    · rcases h.find (d, name) with ⟨hfind, habsent⟩ | ⟨e, he, hkey, hfind⟩
      · rw [hfind]
        exact h.scan hlt (fun _ => ⟨h.absent_of_not_mem habsent, not_lt.1 hlong⟩) i
      · rw [hfind]
        dsimp only
        split_ifs
        · exact ⟨ls, h.lru _⟩
        · refine (h.drop e).scan hlt (fun _ => ⟨?_, not_lt.1 hlong⟩) i
          rw [← hkey]
          exact h.drop_absent he

omit hlt

/-! ## Directories -/

theorem Table.setDir {dir : Dir → Name → Option ℕ}
    (hdir : ∀ hd, ∀ e ∈ ls hd, ∀ i, EntryOk s e i → (s.nc e).ncId.toNat = (s.iId i).toNat →
      dir (s.nc e).ncDir (s.nc e).ncName = s.dir (s.nc e).ncDir (s.nc e).ncName) :
    Table { s with dir := dir } ls where
  unique := h.unique
  ids := h.ids
  pos := h.pos
  ncIds := h.ncIds
  hashed := h.hashed
  entries hd e he := by
    obtain ⟨i, hi⟩ := h.entries hd e he
    refine ⟨i, hi.ip, hi.pos, fun hm => ?_, hi.fresh, hi.short⟩
    obtain ⟨ino, hold, hheld⟩ := hi.describes hm
    exact ⟨ino, (hdir hd e he i hi hm).trans hold, hheld⟩

omit h in
theorem setEntry_of_ne {dir : Dir → Name → Option ℕ} {d' : Dir} {name' : Name} (ino : Option ℕ)
    (h : (d', name') ≠ (d, name)) : setEntry dir d name ino d' name' = dir d' name' := by
  rw [setEntry]
  by_cases hd : d' = d
  · subst hd
    rw [update_self, update_of_ne fun hn => h (by rw [hn])]
  · rw [update_of_ne hd]

theorem Table.overwrite (habsent : Absent s ls (d, name)) (ino : Option ℕ) :
    Table { s with dir := setEntry s.dir d name ino } ls :=
  h.setDir fun hd e he _ _ _ => setEntry_of_ne ino (habsent hd e he)

theorem Table.forgetName (hdp : s.held dp = some d) (name : Name) :
    ∃ ls', Table (s.forgetName dp name) ls' ∧ Absent (s.forgetName dp name) ls' (d, name) ∧
      ∀ hd, ∀ e ∈ ls' hd, e ∈ ls hd := by
  rw [State.forgetName, hdp]
  split_ifs with hlong
  · refine ⟨ls, h, fun hd e he hkey => ?_, fun _ _ he => he⟩
    obtain ⟨i, hi⟩ := h.entries hd e he
    have hshort := hi.short
    rw [show (s.nc e).ncName = name from congrArg snd hkey] at hshort
    omega
  · exact h.forget (d, name)

omit h

theorem setName_eq (hdp : s.held dp = some d) (name : Name) (ino : Option ℕ) :
    s.setName dp name ino = { s with dir := setEntry s.dir d name ino } := by
  rw [State.setName, hdp]

variable {ip : Slot}

theorem clearDir_eq (hip : s.held ip = some d) :
    s.clearDir ip = { s with dir := update s.dir d fun _ => none } := by
  rw [State.clearDir, hip]

theorem forgetName_frame (s : State) (dp : Slot) (name : Name) :
    (s.forgetName dp name).held = s.held ∧ (s.forgetName dp name).iId = s.iId ∧
      (s.forgetName dp name).nextinodeid = s.nextinodeid ∧ (s.forgetName dp name).nc = s.nc ∧
      (s.forgetName dp name).dir = s.dir := by
  rw [State.forgetName]
  cases s.held dp with
  | none => exact ⟨rfl, rfl, rfl, rfl, rfl⟩
  | some d =>
    dsimp only
    split_ifs
    · exact ⟨rfl, rfl, rfl, rfl, rfl⟩
    · rw [State.forget]
      cases s.find (d, name) <;> exact ⟨rfl, rfl, rfl, rfl, rfl⟩

def Unmatched (s : State) (i : Slot) : Prop := ∀ e, (s.nc e).ncId.toNat ≠ (s.iId i).toNat

theorem Invalidated.unmatched (h : Invalidated s s' i) (ht : Table s ls) (hj : Unmatched s j)
    (hheld : s.held j ≠ none) : Unmatched s' j := by
  intro e
  by_cases hji : j = i
  · rw [hji]
    exact h.stale ht e
  · rw [h.other j hji]
    rcases h.ncId e with heq | hzero
    · rw [heq]
      exact hj e
    · rw [hzero]
      exact (ht.pos j hheld).ne

include h

theorem Table.slot_eq {n : ℕ} (hi : EntryOk s e i)
    (hm : (s.nc e).ncId.toNat = (s.iId i).toNat) (hkey : (s.nc e).key = (d, name)) (hdir : s.dir d name = some n)
    (hj : s.held j = some (d.1, n)) : i = j := by
  obtain ⟨ino, hino, hheld⟩ := hi.describes hm
  rw [show (s.nc e).ncDir = d from congrArg fst hkey] at hino hheld
  rw [show (s.nc e).ncName = name from congrArg snd hkey, hdir] at hino
  obtain rfl := some.inj hino
  exact h.unique i j (hheld.trans hj.symm) (by rw [hheld]; exact some_ne_none _)

/-- An empty directory loses its entries. The cache has no valid entry for `.`, and none that
leads to the parent. -/
theorem Table.clearDir (hdp : s.held dp = some d)
    (hip : s.held ip = some (d.1, ino))
    (hdir : ∀ name n, s.dir (d.1, ino) name = some n → (name = dot ∧ n = ino) ∨ (name = dotdot ∧ n = d.2))
    (hdot : ∀ hd, ∀ e ∈ ls hd, ∀ i, EntryOk s e i → (s.nc e).ncId.toNat = (s.iId i).toNat →
      (s.nc e).key ≠ ((d.1, ino), dot))
    (hdotdot : Unmatched s dp) : Table (s.clearDir ip) ls := by
  rw [clearDir_eq hip]
  refine h.setDir fun hd e he i hi hm => ?_
  by_cases hd' : (s.nc e).ncDir = (d.1, ino)
  · exfalso
    obtain ⟨n, hn, -⟩ := hi.describes hm
    rw [hd'] at hn
    rcases hdir _ n hn with ⟨hname, -⟩ | ⟨hname, rfl⟩
    · exact hdot hd e he i hi hm (Prod.ext hd' hname)
    · have hkey : (s.nc e).key = ((d.1, ino), dotdot) := Prod.ext hd' hname
      rw [hname] at hn
      obtain rfl := h.slot_eq hi hm hkey hn hdp
      exact hdotdot e hm
  · rw [update_of_ne hd']

theorem Table.not_matched_of_miss (hdp : s.held dp = some d)
    (hmiss : s.cached dp name = none) (he : e ∈ ls hd) (hi : EntryOk s e i)
    (hm : (s.nc e).ncId.toNat = (s.iId i).toNat) : (s.nc e).key ≠ (d, name) := by
  intro hkey
  have hshort := hi.short
  have hfind := h.find_of_mem he
  rw [show (s.nc e).ncName = name from congrArg snd hkey] at hshort
  rw [State.cached, hdp] at hmiss
  dsimp only at hmiss
  rw [if_neg (not_lt.2 hshort), ← hkey, hfind] at hmiss
  dsimp only at hmiss
  rw [if_pos ((valid_iff hi.ip).2 hm), hi.ip] at hmiss
  cases hmiss

omit h

/-! ## Steps -/

theorem cacheinval_setDir (s : State) (i : Slot) (dir : Dir → Name → Option ℕ) :
    State.cacheinval { s with dir := dir } i = { s.cacheinval i with dir := dir } := by
  rw [State.cacheinval, State.cacheinval]
  split_ifs <;> rfl

theorem cacheinval_clearDir (s : State) (i ip : Slot) (hlt : s.nextinodeid.toNat + 1 < 2 ^ 32) :
    (s.clearDir ip).cacheinval i = (s.cacheinval i).clearDir ip := by
  have hinv := cacheinval_spec s i hlt
  cases hip : s.held ip with
  | none =>
    have hip' : (s.cacheinval i).held ip = none := by rw [hinv.held, hip]
    rw [State.clearDir, State.clearDir, hip, hip']
  | some d =>
    have hip' : (s.cacheinval i).held ip = some d := by rw [hinv.held, hip]
    rw [clearDir_eq hip, clearDir_eq hip', cacheinval_setDir, hinv.dir]

/-- A step in which the counter does not wrap around to 0 and no directory is replaced whose
name `.` the cache has a valid entry for. -/
def Event.Ok (s : State) (ev : Event) : Prop :=
  s.nextinodeid.toNat + 2 < 2 ^ 32 ∧
    match ev with
    | .replace _ _ xp _ => s.cached xp dot = none
    | _ => True

include h

theorem Table.change (dp : Slot) (name : Name) (ino : Option ℕ) :
    ∃ ls', Table ((s.forgetName dp name).setName dp name ino) ls' := by
  cases hdp : s.held dp with
  | none =>
    have hforget : s.forgetName dp name = s := by rw [State.forgetName, hdp]
    rw [hforget, State.setName, hdp]
    exact ⟨ls, h⟩
  | some d =>
    obtain ⟨ls', h', habsent, -⟩ := h.forgetName hdp name
    rw [setName_eq (by rw [(forgetName_frame s dp name).1, hdp])]
    exact ⟨ls', h'.overwrite habsent ino⟩

theorem Table.mkdir (hempty : ∀ name, s.dir d name = none) (parent : ℕ) :
    Table (s.exec (.mkdir d parent)) ls := by
  refine h.setDir fun hd e he i hi hm => ?_
  obtain ⟨ino, hino, -⟩ := hi.describes hm
  have hne : (s.nc e).ncDir ≠ d := by
    intro hd'
    rw [hd', hempty] at hino
    cases hino
  have hne' : ∀ name, ((s.nc e).ncDir, (s.nc e).ncName) ≠ (d, name) := fun _ hk => hne (congrArg fst hk)
  rw [setEntry_of_ne _ (hne' _), setEntry_of_ne _ (hne' _)]

include hlt

theorem Table.move {xp : Slot}
    (hdp : s.held dp = some d) (hxp : s.held xp = some (d.1, ino)) (hup : s.dir (d.1, ino) dotdot = some d.2)
    (parent : ℕ) : Table (s.exec (.move dp xp parent)) ls := by
  have hinv := cacheinval_spec s dp hlt
  rw [State.exec, hxp]
  dsimp only
  rw [cacheinval_setDir]
  refine (hinv.table h).setDir fun hd e he i hi hm => ?_
  rw [hinv.dir]
  refine setEntry_of_ne _ fun hkey => ?_
  -- A valid entry for `..` would lead to the old parent.
  have hup' : (s.cacheinval dp).dir (d.1, ino) dotdot = some d.2 := by rw [hinv.dir, hup]
  obtain rfl := (hinv.table h).slot_eq hi hm hkey hup' (by rw [hinv.held, hdp])
  exact hinv.stale h e hm

omit hlt in
theorem Table.rmdir (hlt : s.nextinodeid.toNat + 2 < 2 ^ 32)
    (hempty : EmptyIn s dp ip) (name : Name) : ∃ ls', Table (s.exec (.rmdir dp name ip)) ls' := by
  obtain ⟨-, d, ino, hdp, hip, hdir⟩ := hempty
  obtain ⟨ls', h1⟩ := h.change dp name none
  obtain ⟨hheld, -, hnext, -, hdir'⟩ := forgetName_frame s dp name
  generalize hs1 : (s.forgetName dp name).setName dp name none = s1 at h1
  have hset : s1 = { s.forgetName dp name with dir := setEntry s.dir d name none } := by
    rw [← hs1, setName_eq (by rw [hheld, hdp]), hdir']
  have hheld1 : s1.held = s.held := by rw [hset, ← hheld]
  have hnext1 : s1.nextinodeid = s.nextinodeid := by rw [hset, ← hnext]
  have hdir1 : ∀ nm n, s1.dir (d.1, ino) nm = some n → s.dir (d.1, ino) nm = some n := by
    intro nm n hn
    by_cases hk : ((d.1, ino), nm) = (d, name)
    · rw [Prod.mk.injEq] at hk
      rw [hset, hk.1, hk.2] at hn
      simp only [setEntry, update_self] at hn
      cases hn
    · rw [hset] at hn
      exact (setEntry_of_ne none hk).symm.trans hn
  have hinv2 := cacheinval_spec s1 dp (by rw [hnext1]; omega)
  have hlt3 : (s1.cacheinval dp).nextinodeid.toNat + 1 < 2 ^ 32 := by
    rw [hinv2.next, hnext1]
    omega
  have hinv3 := cacheinval_spec (s1.cacheinval dp) ip hlt3
  have h2 := hinv2.table h1
  have hexec : s.exec (.rmdir dp name ip) = ((s1.cacheinval dp).cacheinval ip).clearDir ip := by
    rw [← cacheinval_clearDir _ _ _ hlt3, ← hs1]
    rfl
  have hheld3 : ((s1.cacheinval dp).cacheinval ip).held = s.held := by rw [hinv3.held, hinv2.held, hheld1]
  have hdir3 : ((s1.cacheinval dp).cacheinval ip).dir = s1.dir := by rw [hinv3.dir, hinv2.dir]
  rw [hexec]
  refine ⟨ls', (hinv3.table h2).clearDir (by rw [hheld3, hdp]) (by rw [hheld3, hip]) ?_ ?_ ?_⟩
  · intro nm n hn
    rw [hdir3] at hn
    exact hdir nm n (hdir1 nm n hn)
  · intro hd e he i hi hm hkey
    obtain ⟨n, hn, -⟩ := hi.describes hm
    rw [show (((s1.cacheinval dp).cacheinval ip).nc e).ncDir = (d.1, ino) from congrArg fst hkey,
      show (((s1.cacheinval dp).cacheinval ip).nc e).ncName = dot from congrArg snd hkey] at hn
    have hself : n = ino := by
      rw [hdir3] at hn
      rcases hdir dot n (hdir1 dot n hn) with ⟨-, hn'⟩ | ⟨hname, -⟩
      · exact hn'
      · cases hname
    obtain rfl := (hinv3.table h2).slot_eq hi hm hkey hn (by rw [hheld3, hip, hself])
    exact hinv3.stale h2 e hm
  · refine hinv3.unmatched h2 (hinv2.stale h1) ?_
    rw [hinv2.held, hheld1, hdp]
    exact some_ne_none d

theorem Table.replace {xp : Slot}
    (hempty : EmptyIn s dp xp) (hdot : s.cached xp dot = none) (name : Name) (n : ℕ) :
    ∃ ls', Table (s.exec (.replace dp name xp n)) ls' := by
  obtain ⟨hne, d, ino, hdp, hxp, hdir⟩ := hempty
  obtain ⟨ls', h1, habsent, hsub⟩ := h.forgetName hdp name
  obtain ⟨hheld, hid, hnext, hnc, hdir'⟩ := forgetName_frame s dp name
  set s1 := s.forgetName dp name
  have hinv := cacheinval_spec s1 dp (by rw [hnext]; omega)
  have habsent2 : Absent (s1.cacheinval dp) ls' (d, name) := by
    intro hd e he
    rw [hinv.key]
    exact habsent hd e he
  have h3 := (hinv.table h1).overwrite habsent2 (some n)
  set s3 := { s1.cacheinval dp with dir := setEntry (s1.cacheinval dp).dir d name (some n) } with hs3
  have hexec : s.exec (.replace dp name xp n) = s3.clearDir xp := by
    rw [State.exec, setName_eq (by rw [hinv.held, hheld, hdp])]
  have hheld3 : s3.held = s.held := hinv.held.trans hheld
  rw [hexec]
  -- The valid entries of the replaced directory were valid before the step.
  have hback : ∀ hd, ∀ e ∈ ls' hd, ∀ i, EntryOk s3 e i → (s3.nc e).ncId.toNat = (s3.iId i).toNat →
      (s3.nc e).key = (s.nc e).key ∧ ∃ j, EntryOk s e j ∧ (s.nc e).ncId.toNat = (s.iId j).toNat := by
    intro hd e he i hi hm
    obtain ⟨j, hj⟩ := h1.entries hd e he
    have hnc3 : s3.nc e = (s1.cacheinval dp).nc e := by rw [hs3]
    have hij : i = j := by
      have hip := hi.ip
      rw [hnc3, hinv.ip, hj.ip] at hip
      exact (some.inj hip).symm
    subst hij
    rw [hnc3, show s3.iId = (s1.cacheinval dp).iId by rw [hs3]] at hm
    obtain ⟨-, -, hold⟩ := hinv.matched h1 hj hm
    obtain ⟨j', hj'⟩ := h.entries hd e (hsub hd e he)
    have hjj : j' = i := by
      have hip := hj.ip
      rw [hnc, hj'.ip] at hip
      exact some.inj hip
    rw [hnc, hid] at hold
    refine ⟨?_, i, hjj ▸ hj', hold⟩
    rw [hnc3, hinv.key, hnc]
  refine ⟨ls', h3.clearDir (by rw [hheld3, hdp]) (by rw [hheld3, hxp]) ?_ ?_ ?_⟩
  · intro nm m hm
    have hother : ((d.1, ino), nm) ≠ (d, name) := by
      intro hk
      rw [Prod.mk.injEq] at hk
      exact hne (h.unique dp xp (by rw [hdp, hxp, hk.1]) (by rw [hdp]; exact some_ne_none d))
    rw [hs3] at hm
    have hold := (setEntry_of_ne (some n) hother).symm.trans hm
    rw [hinv.dir, hdir'] at hold
    exact hdir nm m hold
  · intro hd e he i hi hm hkey
    obtain ⟨hkey', j, hj, hold⟩ := hback hd e he i hi hm
    exact h.not_matched_of_miss hxp hdot (hsub hd e he) hj hold (hkey'.symm.trans hkey)
  · exact hinv.stale h1

omit h hlt

theorem step_table {ev : Event} (h : ∃ ls, Table s ls) (hstep : Step s ev s' ∧ ev.Ok s) : ∃ ls, Table s' ls := by
  obtain ⟨ls, h⟩ := h
  obtain ⟨⟨hguard, rfl⟩, hlt, hok⟩ := hstep
  have hlt1 : s.nextinodeid.toNat + 1 < 2 ^ 32 := by omega
  cases ev with
  | lookup dp name makeentry i => exact h.lookup hlt1 dp name makeentry i
  | iget d i => exact ⟨ls, (h.iget hlt1 d i).1⟩
  | cacheinval i => exact ⟨ls, (cacheinval_spec s i hlt1).table h⟩
  | cinvalall => exact ⟨ls, cinvalall_table h⟩
  | change dp name ino => exact h.change dp name ino
  | mkdir d parent => exact ⟨ls, h.mkdir hguard parent⟩
  | rmdir dp name ip => exact h.rmdir hlt hguard name
  | replace dp name xp ino => exact h.replace hlt1 hguard hok name ino
  | move dp xp parent =>
    obtain ⟨d, ino, hdp, hxp, hup⟩ := hguard
    exact ⟨ls, h.move hlt1 hdp hxp hup parent⟩

theorem boot_table (id : UInt32) (dir : Dir → Name → Option ℕ) : Table (boot id dir) fun _ => [] where
  unique _ _ _ hne := absurd rfl hne
  ids _ := zero_le _
  pos _ hne := absurd rfl hne
  ncIds _ := zero_le _
  hashed := by
    refine ⟨⟨fun x y => eq_comm, fun _ => rfl, fun _ => List.nodup_nil, ?_, fun _ _ => rfl⟩, ?_, ?_⟩
    · intro _ _ _ he
      cases he
    · intro _ _ he
      cases he
    · intro _ _ he
      cases he
  entries _ _ he := nomatch he

def smallTree : Dir → Name → Option ℕ := fun d name =>
  if d = (0, 2) then
    if name = dot ∨ name = dotdot then some 2 else if name = [97] then some 3
      else if name = [98] then some 4 else none
  else if d = (0, 3) then if name = dot then some 3 else if name = dotdot then some 2 else none
  else none

def execs (s : State) (evs : List Event) : State := evs.foldl State.exec s

def openDir : List Event := [.iget (0, 2) 0, .lookup 0 [97] true 1]

theorem run_openDir (id : UInt32) : Run Step (boot id smallTree) openDir (execs (boot id smallTree) openDir) :=
  .cons ⟨trivial, rfl⟩ (.cons ⟨trivial, rfl⟩ (.nil _))

theorem run_snoc {t : State} {evs : List Event} {ev : Event} (h : Run Step s evs t) (hguard : ev.Guard t) :
    Run Step s (evs ++ [ev]) (t.exec ev) := h.append (.cons ⟨hguard, rfl⟩ (.nil _))

theorem emptyIn_openDir : EmptyIn ((execs (boot 0 smallTree) openDir).exec (.lookup 1 dot true 5)) 0 1 := by
  refine ⟨by decide, (0, 2), 3, by decide +kernel, by decide +kernel, fun name n hn => ?_⟩
  have hdir : smallTree (0, 3) name = some n := hn
  rw [smallTree, if_neg (by decide), if_pos rfl] at hdir
  split_ifs at hdir with h1 h2
  · exact .inl ⟨h1, (some.inj hdir).symm⟩
  · exact .inr ⟨h2, (some.inj hdir).symm⟩

end RetroBSD.NameCache
