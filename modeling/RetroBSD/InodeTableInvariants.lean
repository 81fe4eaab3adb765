import RetroBSD.InodeTable
import RetroBSD.References

/-!
# The invariants of the table of in-core inodes

The hash chains, the free list and the reference counts of the table are kept by every
step of every process. The reference that a call in progress has to the inode it works
on is the only one, and the inode is locked meanwhile: nobody else gets past the lock, so
`iget` can read the inode and `irele` can write it and free its blocks undisturbed.
-/

namespace RetroBSD.InodeTable

open LinkedList References Runs Kernel Function List

variable {P : Type} {s s' : Kernel P} {p : P} {ip : Slot}

namespace Kernel

@[simp] theorem modify_self (s : Kernel P) (ip : Slot) (f : Inode → Inode) :
    (s.modify ip f).inode ip = f (s.inode ip) :=
  update_self ..

variable {j : Slot}

theorem modify_of_ne (s : Kernel P) (f : Inode → Inode) (h : j ≠ ip) : (s.modify ip f).inode j = s.inode j :=
  update_of_ne h ..

@[simp] theorem modify_fsRonly (s : Kernel P) (ip : Slot) (f : Inode → Inode) : (s.modify ip f).fsRonly = s.fsRonly :=
  rfl

theorem modify_keep {α : Type*} (s : Kernel P) (ip : Slot) {f : Inode → Inode} {g : Inode → α}
    (h : g (f (s.inode ip)) = g (s.inode ip)) (j : Slot) : g ((s.modify ip f).inode j) = g (s.inode j) := by
  by_cases hj : j = ip
  · rw [hj, modify_self, h]
  · rw [modify_of_ne s f hj]

theorem iunlock_inode (s : Kernel P) (ip : Slot) :
    (s.iunlock ip).inode = update s.inode ip { s.inode ip with ilocked := false, iwant := false } := by
  rw [iunlock]
  cases hwant : (s.inode ip).iwant with
  | true => simp [wakeup, modify, hwant]
  | false => simp [modify, hwant]

theorem iunlock_frame (s : Kernel P) (ip : Slot) :
    (s.iunlock ip).hash = s.hash ∧ (s.iunlock ip).free = s.free ∧ (s.iunlock ip).held = s.held ∧
      (s.iunlock ip).fsRonly = s.fsRonly := by
  rw [iunlock]
  split_ifs <;> exact ⟨rfl, rfl, rfl, rfl⟩

end Kernel

/-- The slot that a call in progress works on. -/
def Point.work : Point → Option Slot
  | .igetRead ip | .itrunc ip | .ifree ip | .iupdat ip => some ip
  | .ret _ | .call _ | .sleep .. => none

theorem Kernel.iunlock_work (s : Kernel P) (ip : Slot) (p : P) :
    ((s.iunlock ip).point p).work = (s.point p).work := by
  rw [iunlock]
  split_ifs
  · cases hp : s.point p with
    | sleep i c =>
      by_cases hi : i = ip <;> simp [wakeup, modify, hp, hi, Point.work]
    | _ => simp [wakeup, modify, hp]
  · rfl

def key (x : Inode) : ℤ × ℕ := (x.iDev, x.iNumber)

def hashKey (k : ℤ × ℕ) : Fin inohsz := inohash k.1 k.2

/-- The chains from `ihead` are circular and doubly linked, each slot on one of them is on
that of its device and number, and no two have the same. -/
def Chained (s : Kernel P) : Prop := ∃ ls, s.hash.Hashed hashKey (fun ip => key (s.inode ip)) ls

/-- The list from `ifreeh` is doubly linked, ends at `ifreet` unless it is empty, and has
the slots with `i_count` 0. -/
def FreeList (s : Kernel P) : Prop := ∃ l, s.free.Holds l ∧ ∀ ip, ip ∈ l ↔ (s.inode ip).iCount = 0

structure Inv (s : Kernel P) : Prop where
  chained : Chained s
  free : FreeList s
  refs : Refs (fun ip => (s.inode ip).iCount) (fun ip => (s.inode ip).ilocked) s.held fun p => (s.point p).work

theorem Chained.congr (h : Chained s) (hhash : s'.hash = s.hash) (hkey : ∀ ip, key (s'.inode ip) = key (s.inode ip)) :
    Chained s' := by
  obtain ⟨ls, hls⟩ := h
  refine ⟨ls, ?_⟩
  rw [hhash]
  exact hls.congr hkey

theorem FreeList.congr (h : FreeList s) (hfree : s'.free = s.free)
    (hcount : ∀ ip, (s'.inode ip).iCount = (s.inode ip).iCount) : FreeList s' := by
  obtain ⟨l, hl, hmem⟩ := h
  refine ⟨l, hfree ▸ hl, fun ip => ?_⟩
  rw [hmem, hcount]

theorem Inv.keep (h : Inv s) (hhash : s'.hash = s.hash) (hfree : s'.free = s.free)
    (hkey : ∀ ip, key (s'.inode ip) = key (s.inode ip)) (hcount : ∀ ip, (s'.inode ip).iCount = (s.inode ip).iCount)
    (hlocked : ∀ ip p, (s.point p).work = some ip → (s.inode ip).ilocked = true → (s'.inode ip).ilocked = true)
    (hheld : s'.held = s.held) (hwork : ∀ p, (s'.point p).work = (s.point p).work) : Inv s' :=
  ⟨h.chained.congr hhash hkey, h.free.congr hfree hcount, h.refs.congr hcount hlocked (fun _ => by rw [hheld]) hwork⟩

theorem Inv.modify {f : Inode → Inode} (h : Inv s) (hkey : key (f (s.inode ip)) = key (s.inode ip))
    (hcount : (f (s.inode ip)).iCount = (s.inode ip).iCount)
    (hlocked : (s.inode ip).ilocked = true → (f (s.inode ip)).ilocked = true) : Inv (s.modify ip f) := by
  refine h.keep rfl rfl (s.modify_keep ip hkey) (s.modify_keep ip hcount) (fun j q _ hj => ?_) rfl fun _ => rfl
  by_cases hji : j = ip
  · subst hji
    rw [modify_self]
    exact hlocked hj
  · rwa [modify_of_ne s f hji]

theorem Inv.iunlock (h : Inv s) (hip : ∀ p, (s.point p).work ≠ some ip) : Inv (s.iunlock ip) := by
  obtain ⟨hhash, hfree, hheld, -⟩ := s.iunlock_frame ip
  refine h.keep hhash hfree ?_ ?_ (fun j q hq hj => ?_) hheld (s.iunlock_work ip)
  · rw [iunlock_inode]
    exact s.modify_keep ip (f := fun x => { x with ilocked := false, iwant := false }) rfl
  · rw [iunlock_inode]
    exact s.modify_keep ip (f := fun x => { x with ilocked := false, iwant := false }) rfl
  · have hji : j ≠ ip := fun hji => hip q (hji ▸ hq)
    rwa [iunlock_inode, update_of_ne hji]

variable {l : List Slot}

theorem FreeList.of_slot (ip : Slot) (hl : s'.free.Holds l) (hip : ip ∈ l ↔ (s'.inode ip).iCount = 0)
    (hother : ∀ j, j ≠ ip → (j ∈ l ↔ (s'.inode j).iCount = 0)) : FreeList s' := by
  refine ⟨l, hl, fun j => ?_⟩
  by_cases hj : j = ip
  · rw [hj, hip]
  · exact hother j hj

theorem Inv.iflushLoop (dev : ℤ) (l : List Slot) (opens : ℤ) (h : Inv s) : Inv (iflushLoop dev l s opens).1 := by
  induction l generalizing s opens with
  | nil => exact h
  | cons ip l ih =>
    rw [Kernel.iflushLoop]
    split_ifs
    · exact h
    · obtain ⟨ls, hls⟩ := h.chained
      exact ih _ ⟨⟨_, hls.remove ip fun _ _ => rfl⟩, h.free, h.refs⟩
    · exact ih _ h
    · exact ih _ h

/-- Changing the count of a slot nobody works on, together with the references held to it. -/
theorem Inv.setIdle {x : Inode} (h : Inv s) (hno : ∀ p, (s.point p).work ≠ some ip) (hhash : s'.hash = s.hash)
    (hinode : s'.inode = update s.inode ip x) (hkey : key x = key (s.inode ip))
    (hheld : s'.held = update s.held ip x.iCount) (hwork : ∀ p, (s'.point p).work = (s.point p).work)
    (hl : s'.free.Holds l) (hip : ip ∈ l ↔ x.iCount = 0) (hmem : ∀ j, j ≠ ip → (j ∈ l ↔ (s.inode j).iCount = 0)) :
    Inv s' := by
  have hself : s'.inode ip = x := by rw [hinode, update_self]
  have hother : ∀ j, j ≠ ip → s'.inode j = s.inode j := fun j hj => by rw [hinode, update_of_ne hj]
  refine ⟨h.chained.congr hhash fun j => ?_, FreeList.of_slot ip hl (by rwa [hself]) fun j hj => ?_,
    h.refs.set_idle ?_ ?_ ?_ hno ?_ hwork⟩
  · by_cases hj : j = ip
    · rw [hj, hself, hkey]
    · rw [hother j hj]
  · rw [hother j hj, hmem j hj]
  · intro j hj
    rw [hother j hj]
  · intro j hj
    rw [hother j hj]
  · intro j hj
    rw [hheld, update_of_ne hj]
  · rw [hself, hheld, update_self]

theorem Inv.dup (h : Inv s) (hheld : 0 < s.held ip) :
    Inv ((s.modify ip fun x => { x with iCount := x.iCount + 1 }).hold ip) := by
  have hno := h.refs.not_work_of_held hheld
  have hidle : (s.inode ip).iCount = s.held ip := h.refs.idle ip hno
  obtain ⟨l, hl, hmem⟩ := h.free
  refine h.setIdle hno rfl rfl rfl ?_ (fun _ => rfl) hl ?_ fun j _ => hmem j
  · exact congrArg (update s.held ip) (congrArg (· + 1) hidle).symm
  · show _ ↔ (s.inode ip).iCount + 1 = 0
    rw [hmem]
    omega

theorem Inv.elsewhere (h : Inv s) (he : s.Elsewhere s') : Inv s' := by
  refine ⟨h.chained.congr he.hash fun j => ?_, ?_, h.refs.congr he.count ?_ ?_ ?_⟩
  · rw [key, key, he.dev, he.number]
  · obtain ⟨l, hl, hmem⟩ := h.free
    refine ⟨l, hl.congr (congrFun he.head ()) ?_ ?_ he.tail, fun j => ?_⟩
    · intro j hj
      exact he.next j ((hmem j).1 hj)
    · intro j _
      exact congrFun he.prev j
    · rw [hmem, he.count]
  · intro j _ _ hj
    rwa [he.locked]
  · intro j
    rw [he.held]
  · intro q
    rw [he.point]

def releasePoint (s : Kernel P) (ip : Slot) : Point :=
  if (s.inode ip).iNlink = 0 ∧ s.fsRonly (s.inode ip).iFs = false then .itrunc ip else .iupdat ip

theorem releasePoint_work (s : Kernel P) (ip : Slot) : (releasePoint s ip).work = some ip := by
  unfold releasePoint
  split_ifs <;> rfl

/-- What the failed `bread` of `iget` does, up to the first call that `irele` makes. -/
structure FailedRead (s s' : Kernel P) (p : P) (ip : Slot) : Prop where
  inode : s'.inode = update s.inode ip { s.inode ip with iNumber := 0, ilocked := true, iwant := false }
  hash : s'.hash = (s.hash.remque (.cell ip)).selfLink (.cell ip)
  free : s'.free = s.free
  held : s'.held = s.held
  ronly : s'.fsRonly = s.fsRonly
  point : s'.point p = releasePoint s ip
  work : ∀ q, q ≠ p → (s'.point q).work = (s.point q).work

theorem FailedRead.self (h : FailedRead s s' p ip) :
    s'.inode ip = { s.inode ip with iNumber := 0, ilocked := true, iwant := false } := by
  rw [h.inode, update_self]

variable {j : Slot}

theorem FailedRead.other (h : FailedRead s s' p ip) (hj : j ≠ ip) : s'.inode j = s.inode j := by
  rw [h.inode, update_of_ne hj]

structure Freed (s s' : Kernel P) (p : P) (ip : Slot) (l : List Slot) : Prop where
  inode : s'.inode = update s.inode ip
    { s.inode ip with ilocked := false, iwant := false, imount := false, iCount := (s.inode ip).iCount - 1 }
  hash : s'.hash = s.hash
  free : s'.free.Holds (l ++ [ip])
  held : s'.held = s.held
  point : s'.point p = .ret none
  work : ∀ q, q ≠ p → (s'.point q).work = (s.point q).work

theorem Freed.other (h : Freed s s' p ip l) (hj : j ≠ ip) : s'.inode j = s.inode j := by
  rw [h.inode, update_of_ne hj]

theorem ihinitLoop_holds {m : List Slot} {t : TailQueue Slot} (h : t.Holds l) (hl : l ≠ []) (hm : (l ++ m).Nodup)
    (hnext : ∀ ip ∈ m, t.cells.next ip = none) : (ihinitLoop m t).Holds (l ++ m) := by
  induction m generalizing l t with
  | nil => rwa [append_nil]
  | cons ip m ih =>
    have hip : ip ∉ l := fun hmem => disjoint_of_nodup_append hm hmem mem_cons_self
    have hq := h.tail hl
    rw [append_cons] at hm
    rw [ihinitLoop, hq, append_cons]
    refine ih (h.link hl hq hip (hnext ip mem_cons_self)) (by simp) hm fun j hj => ?_
    have hjl : j ∉ l := fun hmem => disjoint_of_nodup_append hm (mem_append_left _ hmem) hj
    have hget := Cells.get_set t.cells (Cells.placeAfter () l) (.cell j) (some ip)
    rw [if_neg] at hget
    · exact hget.trans (hnext j (mem_cons_of_mem _ hj))
    · intro hplace
      have hmem := TailQueue.inQueue_placeAfter l []
      rw [← hplace, append_nil] at hmem
      exact hjl hmem

theorem ihinit_inv (mount : List Mount) (fsRonly : ℕ → Bool) : Inv (ihinit mount fsRonly : Kernel P) where
  chained := by
    refine ⟨fun _ => [], ⟨fun x y => eq_comm, fun _ => rfl, fun _ => nodup_nil, ?_, fun _ _ => rfl⟩, ?_, ?_⟩
    · intro _ _ _ hi
      cases hi
    · intro _ _ hi
      cases hi
    · intro _ _ hi
      cases hi
  free := by
    have hcons : List.finRange ninode = [0] ++ (List.finRange ninode).tail := by decide
    refine ⟨[0] ++ (List.finRange ninode).tail, ihinitLoop_holds ?_ (by simp) ?_ fun _ _ => rfl, fun ip => ?_⟩
    · refine ⟨⟨fun _ => .cons .nil, fun _ _ _ _ _ => rfl⟩, fun i hi => ?_, fun _ => rfl⟩
      obtain rfl := mem_singleton.1 hi
      exact ⟨.head (), rfl, trivial, rfl⟩
    · rw [← hcons]
      exact nodup_finRange ninode
    · rw [← hcons]
      exact iff_of_true (mem_finRange ip) rfl
  refs := by
    refine ⟨fun _ _ hp => ?_, fun _ _ _ hp => ?_, fun _ _ => rfl⟩
    · cases hp
    · cases hp

variable [DecidableEq P]

theorem Kernel.goto_inode (s : Kernel P) (p : P) (x : Point) : (s.goto p x).inode = s.inode := rfl

theorem Kernel.goto_work {x : Point} (hx : x.work = (s.point p).work) (q : P) :
    ((s.goto p x).point q).work = (s.point q).work := by
  by_cases hq : q = p
  · rw [hq, ← hx]
    exact congrArg _ (update_self ..)
  · exact congrArg _ (update_of_ne hq ..)

theorem Kernel.goto_work_self (s : Kernel P) (p : P) (x : Point) : ((s.goto p x).point p).work = x.work :=
  congrArg _ (update_self ..)

theorem Kernel.goto_work_of_ne (s : Kernel P) {p q : P} (x : Point) (h : q ≠ p) :
    ((s.goto p x).point q).work = (s.point q).work := congrArg _ (update_of_ne h ..)

theorem Inv.goto {x : Point} (h : Inv s) (hx : x.work = (s.point p).work) : Inv (s.goto p x) :=
  h.keep rfl rfl (fun _ => rfl) (fun _ => rfl) (fun _ _ _ hlocked => hlocked) rfl (goto_work hx)

theorem Inv.await (h : Inv s) (hp : (s.point p).work = none) (c : Call) : Inv (s.await p ip c) :=
  Inv.goto (h.modify rfl rfl id) hp.symm

theorem Inv.ilock (h : Inv s) (hp : (s.point p).work = none) : Inv (s.ilock p ip) := by
  rw [Kernel.ilock]
  split_ifs
  · exact h.await hp _
  · exact Inv.goto (h.modify rfl rfl fun _ => rfl) hp.symm

theorem Inv.grab (h : Inv s) (hlocked : (s.inode ip).ilocked = false) (hp : (s.point p).work = none)
    (r : Option Slot) : ∃ s₁, s.grab ip = .ok s₁ ∧
      s₁.inode ip = { s.inode ip with iCount := (s.inode ip).iCount + 1, ilocked := true } ∧
      Inv ((s₁.hold ip).goto p (.ret r)) := by
  have hno := h.refs.not_work_of_unlocked hlocked
  have hheld : update s.held ip (s.held ip + 1) = update s.held ip ((s.inode ip).iCount + 1) :=
    congrArg (update s.held ip) (congrArg (· + 1) (h.refs.idle ip hno)).symm
  obtain ⟨l, hl, hmem⟩ := h.free
  rw [Kernel.grab]
  split_ifs with hzero
  · obtain ⟨t, ht, hlt⟩ := hl.remove ((hmem ip).2 hzero)
    rw [ht]
    refine ⟨_, rfl, update_self .., h.setIdle hno rfl rfl rfl hheld (goto_work hp.symm) hlt ?_ fun j hj => ?_⟩
    · exact iff_of_false (hl.nodup.not_mem_erase) (Nat.succ_ne_zero _)
    · rw [mem_erase_of_ne hj, hmem]
  · refine ⟨_, rfl, update_self .., h.setIdle hno rfl rfl rfl hheld (goto_work hp.symm) hl ?_ fun j _ => hmem j⟩
    exact iff_of_false (fun hip => hzero ((hmem ip).1 hip)) (Nat.succ_ne_zero _)

def Takes (s s' : Kernel P) (ip : Slot) : Prop :=
  (s'.inode ip).iCount = (s.inode ip).iCount + 1 ∧ (s'.inode ip).ilocked = true

theorem Inv.igetNew (h : Inv s) (hp : (s.point p).work = none) {dev : ℤ} {ino : ℕ} (fs : ℕ)
    {ls : Fin inohsz → List Slot} (hls : s.hash.Hashed hashKey (fun ip => key (s.inode ip)) ls)
    (habsent : ∀ j ∈ ls (inohash dev ino), key (s.inode j) ≠ (dev, ino)) :
    ∃ s', s.igetNew p dev fs ino = .ok s' ∧ Inv s' ∧
      ∀ ip, s'.point p = .ret (some ip) ∨ s'.point p = .igetRead ip → Takes s s' ip := by
  obtain ⟨l, hl, hmem⟩ := h.free
  cases hhead : s.free.cells.head () with
  | none =>
    refine ⟨s.goto p (.ret none), by simp [Kernel.igetNew, hhead], h.goto hp.symm, fun ip hip => ?_⟩
    have hret : (s.goto p (.ret none)).point p = .ret none := update_self ..
    rw [hret] at hip
    rcases hip with hip | hip <;> cases hip
  | some ip =>
    obtain ⟨post, rfl⟩ := hl.of_head hhead
    have hcount : (s.inode ip).iCount = 0 := (hmem ip).1 mem_cons_self
    obtain ⟨f, hf⟩ : ∃ f, f = fun x : Inode => { x with
      iDev := dev, iFs := fs, iNumber := ino
      ilocked := true, iwant := false, imount := false
      iCount := x.iCount + 1 } := ⟨_, rfl⟩
    have hother : ∀ j, j ≠ ip → (s.modify ip f).inode j = s.inode j := fun j hj => s.modify_of_ne f hj
    have hself : (s.modify ip f).inode ip = f (s.inode ip) := s.modify_self ip f
    obtain ⟨s', hs'⟩ : ∃ s', s' = ({ s with
      free := s.free.takeHead ip
      hash := (s.hash.remque (.cell ip)).insque (.cell ip) (.head (inohash dev ino)) }.modify ip f).goto p
        (.igetRead ip) := ⟨_, rfl⟩
    have hinode : s'.inode = (s.modify ip f).inode := by rw [hs']; rfl
    have htakes : Takes s s' ip := by
      rw [Takes, hinode, hself, hf]
      exact ⟨rfl, rfl⟩
    have hno := h.refs.not_work_of_count (by rw [hcount]; decide)
    have hheld : s.held ip = 0 := (h.refs.idle ip hno).symm.trans hcount
    refine ⟨s', by simp [Kernel.igetNew, hhead, hcount, hs', hf], ⟨?_, ?_, ?_⟩, ?_⟩
    · have hnew : key (s'.inode ip) = (dev, ino) := by
        rw [hinode, hself, hf]
        rfl
      have hold : ∀ j, j ≠ ip → key (s'.inode j) = key (s.inode j) := by
        intro j hj
        rw [hinode, hother j hj]
      have hmove : ((s.hash.remque (.cell ip)).insque (.cell ip) (.head (hashKey (dev, ino)))).Hashed hashKey
          (fun j => key (s'.inode j)) _ := hls.move ip habsent hnew hold
      rw [hs'] at hmove ⊢
      exact ⟨_, hmove⟩
    · have htake : s'.free.Holds post := by
        rw [hs']
        exact hl.takeHead
      refine FreeList.of_slot ip htake ?_ ?_
      · refine iff_of_false (nodup_cons.1 hl.nodup).1 ?_
        rw [htakes.1]
        exact Nat.succ_ne_zero _
      · intro j hj
        rw [hinode, hother j hj, ← hmem, mem_cons]
        exact (or_iff_right hj).symm
    · refine h.refs.start ?_ ?_ ?_ hno hp ⟨htakes.2, ?_, ?_⟩ ?_ ?_
      · intro j hj
        rw [hinode, hother j hj]
      · intro j hj
        rw [hinode, hother j hj]
      · intro j _
        rw [hs']
        rfl
      · rw [htakes.1, hcount]
      · rw [hs']
        exact hheld
      · rw [hs', goto_work_self]
        rfl
      · intro q hq
        rw [hs', goto_work_of_ne _ _ hq]
        rfl
    · intro j hj
      have hpoint : s'.point p = .igetRead ip := by
        rw [hs']
        exact update_self ..
      rw [hpoint] at hj
      rcases hj with hj | hj
      · cases hj
      · obtain rfl : ip = j := Point.igetRead.inj hj
        exact htakes

theorem Inv.igetFound (h : Inv s) (hp : (s.point p).work = none) (ip : Slot) (c : Call) :
    s.igetFound p ip c = .error .noImt ∨ ∃ s', s.igetFound p ip c = .ok s' ∧ Inv s' ∧
      ∀ ip, s'.point p = .ret (some ip) ∨ s'.point p = .igetRead ip → Takes s s' ip := by
  have hgoto : ∀ (s : Kernel P) x, (s.goto p x).point p = x := fun s x => update_self ..
  rw [Kernel.igetFound]
  cases hlocked : (s.inode ip).ilocked with
  | true =>
    refine .inr ⟨_, rfl, h.await hp _, fun j hj => ?_⟩
    rw [Kernel.await, hgoto] at hj
    rcases hj with hj | hj <;> cases hj
  | false =>
    simp only [Bool.false_eq_true, if_false]
    split_ifs
    · cases s.mount.find? fun mp => decide (mp.mInodp = some ip) with
      | none => exact .inl rfl
      | some mp =>
        refine .inr ⟨_, rfl, h.goto hp.symm, fun j hj => ?_⟩
        rw [hgoto] at hj
        rcases hj with hj | hj <;> cases hj
    · obtain ⟨s₁, hs₁, hinode, hinv⟩ := h.grab hlocked hp (some ip)
      rw [hs₁]
      refine .inr ⟨_, rfl, hinv, fun j hj => ?_⟩
      rw [hgoto] at hj
      rcases hj with hj | hj
      · obtain rfl : ip = j := Option.some.inj (Point.ret.inj hj)
        show (s₁.inode ip).iCount = _ ∧ (s₁.inode ip).ilocked = true
        rw [hinode]
        exact ⟨rfl, rfl⟩
      · cases hj

/-- The only way a call of `iget` can fail is the panic for a mount point without a mount. -/
theorem Inv.iget (h : Inv s) (hp : (s.point p).work = none) (dev : ℤ) (fs ino : ℕ) :
    s.iget p dev fs ino = .error .noImt ∨ ∃ s', s.iget p dev fs ino = .ok s' ∧ Inv s' ∧
      ∀ ip, s'.point p = .ret (some ip) ∨ s'.point p = .igetRead ip → Takes s s' ip := by
  obtain ⟨ls, hls⟩ := h.chained
  have htest : ∀ i, decide (ino = (s.inode i).iNumber ∧ dev = (s.inode i).iDev) = true ↔
      key (s.inode i) = (dev, ino) := by
    intro i
    rw [decide_eq_true_iff, Prod.mk.injEq]
    exact ⟨fun hi => ⟨hi.2.symm, hi.1.symm⟩, fun hi => ⟨hi.2.symm, hi.1.symm⟩⟩
  rw [Kernel.iget, show inohash dev ino = hashKey (dev, ino) from rfl]
  rcases hls.find htest with ⟨hfind, habsent⟩ | ⟨ip, -, -, hfind⟩
  · rw [hfind]
    exact .inr (h.igetNew hp fs hls habsent)
  · rw [hfind]
    exact h.igetFound hp ip _

theorem Inv.igrab (h : Inv s) (hp : (s.point p).work = none) (ip : Slot) :
    ∃ s', s.igrab p ip = .ok s' ∧ Inv s' := by
  rw [Kernel.igrab]
  cases hlocked : (s.inode ip).ilocked with
  | true => exact ⟨_, rfl, h.await hp _⟩
  | false =>
    obtain ⟨s₁, hs₁, -, hinv⟩ := h.grab hlocked hp none
    simp only [hs₁]
    exact ⟨_, rfl, hinv⟩

theorem irele_one (hcount : (s.inode ip).iCount = 1) :
    s.irele p ip = (s.modify ip fun x => { x with ilocked := true }).goto p (releasePoint s ip) := by
  rw [irele, if_pos hcount, releasePoint]
  simp only [modify_self, modify_fsRonly, Nat.le_zero]
  split_ifs <;> rfl

theorem Inv.irele (h : Inv s) (hp : (s.point p).work = none) (hheld : 0 < s.held ip) :
    Inv ((s.drop ip).irele p ip) := by
  have hno := h.refs.not_work_of_held hheld
  have hidle : (s.inode ip).iCount = s.held ip := h.refs.idle ip hno
  by_cases hone : (s.inode ip).iCount = 1
  · rw [irele_one (s := s.drop ip) hone]
    set f := fun x : Inode => { x with ilocked := true } with hf
    have hcount : ∀ j, ((s.modify ip f).inode j).iCount = (s.inode j).iCount := s.modify_keep ip (by rw [hf])
    refine ⟨h.chained.congr rfl (s.modify_keep ip rfl), h.free.congr rfl hcount, ?_⟩
    refine h.refs.start (fun j _ => hcount j) ?_ ?_ hno hp ⟨?_, ?_, ?_⟩ ?_ ?_
    · intro j hj
      exact congrArg Inode.ilocked (s.modify_of_ne f hj)
    · intro j hj
      exact update_of_ne hj ..
    · refine (congrArg Inode.ilocked (s.modify_self ip f)).trans ?_
      rw [hf]
    · exact (hcount ip).trans hone
    · refine (update_self ip (s.held ip - 1) s.held).trans ?_
      omega
    · rw [goto_work_self, releasePoint_work]
    · intro q hq
      rw [goto_work_of_ne _ _ hq]
      rfl
  · rw [Kernel.irele, if_neg (show ¬((s.drop ip).inode ip).iCount = 1 from hone)]
    obtain ⟨l, hl, hmem⟩ := h.free
    refine h.setIdle hno rfl rfl rfl ?_ (goto_work hp.symm) hl ?_ fun j _ => hmem j
    · exact congrArg (update s.held ip) (congrArg (· - 1) hidle).symm
    · show _ ↔ (s.inode ip).iCount - 1 = 0
      rw [hmem]
      omega

theorem Inv.iput (h : Inv s) (hp : (s.point p).work = none) (hheld : 0 < s.held ip) :
    Inv ((s.drop ip).iput p ip) := by
  have hcomm : (s.drop ip).iunlock ip = (s.iunlock ip).drop ip := by
    simp only [Kernel.iunlock, Kernel.drop, Kernel.modify, update_self]
    split_ifs <;> rfl
  have hinv := h.iunlock (h.refs.not_work_of_held hheld)
  rw [Kernel.iput, hcomm]
  refine hinv.irele ((s.iunlock_work ip p).trans hp) ?_
  rwa [(s.iunlock_frame ip).2.2.1]

theorem igetRead_none (hone : (s.inode ip).iCount = 1) : FailedRead s (s.igetRead p ip none) p ip := by
  obtain ⟨s₁, hs₁⟩ : ∃ s₁, s₁ = { s with hash := (s.hash.remque (.cell ip)).selfLink (.cell ip) }.modify ip
    fun x => { x with iNumber := 0 } := ⟨_, rfl⟩
  have hinode : (s₁.iunlock ip).inode = update s.inode ip
      { s.inode ip with iNumber := 0, ilocked := false, iwant := false } := by
    rw [iunlock_inode, hs₁]
    simp [Kernel.modify]
  obtain ⟨hhash, hfree, hheld, hronly⟩ := s₁.iunlock_frame ip
  set s2 := ((s₁.iunlock ip).modify ip fun x => { x with ilocked := true }).goto p (releasePoint s ip)
  have hrele : (s₁.iunlock ip).irele p ip = s2 := by
    have hcount : ((s₁.iunlock ip).inode ip).iCount = 1 := by
      rw [hinode, update_self]
      exact hone
    have hpoint : releasePoint (s₁.iunlock ip) ip = releasePoint s ip := by
      rw [releasePoint, hinode, update_self, hronly, hs₁]
      rfl
    rw [irele_one hcount, hpoint]
  have hread : s.igetRead p ip none = s2 := by
    rw [← hrele, hs₁]
    rfl
  rw [hread]
  refine ⟨?_, ?_, ?_, ?_, ?_, ?_, ?_⟩
  · rw [goto_inode, Kernel.modify, hinode]
    simp
  · refine hhash.trans ?_
    rw [hs₁]
    rfl
  · refine hfree.trans ?_
    rw [hs₁]
    rfl
  · refine hheld.trans ?_
    rw [hs₁]
    rfl
  · refine hronly.trans ?_
    rw [hs₁]
    rfl
  · exact update_self ..
  · intro q hq
    rw [goto_work_of_ne _ _ hq]
    refine (s₁.iunlock_work ip q).trans ?_
    rw [hs₁]
    rfl

/-- The inode that could not be read leaves its hash chain, and the call releases it. -/
theorem Inv.igetRead_none (h : Inv s) (hp : s.point p = .igetRead ip) : Inv (s.igetRead p ip none) := by
  have hwork : (s.point p).work = some ip := by rw [hp]; rfl
  obtain ⟨-, hone, -⟩ := h.refs.worker p ip hwork
  have hread := InodeTable.igetRead_none (p := p) hone
  set s2 := s.igetRead p ip none
  have hcount2 : ∀ j, (s2.inode j).iCount = (s.inode j).iCount := by
    intro j
    by_cases hj : j = ip
    · rw [hj, hread.self]
    · rw [hread.other hj]
  refine ⟨?_, h.free.congr hread.free hcount2, h.refs.congr hcount2 ?_ ?_ ?_⟩
  · obtain ⟨ls, hls⟩ := h.chained
    have hremove : ((s.hash.remque (.cell ip)).selfLink (.cell ip)).Hashed hashKey (fun j => key (s2.inode j)) _ :=
      hls.remove ip fun j hj => by rw [hread.other hj]
    rw [← hread.hash] at hremove
    exact ⟨_, hremove⟩
  · intro j q _ hj
    by_cases hji : j = ip
    · rw [hji, hread.self]
    · rwa [hread.other hji]
  · exact congrFun hread.held
  · intro q
    by_cases hq : q = p
    · rw [hq, hread.point, hwork, releasePoint_work]
    · exact hread.work q hq

theorem igetRead_some_inode (s : Kernel P) (p : P) (ip : Slot) (dp : Dinode) :
    (s.igetRead p ip (some dp)).inode ip =
      { s.inode ip with iMode := dp.diMode, iNlink := dp.diNlink, iRdev := dp.diRdev } := update_self ..

theorem Inv.igetRead_some (h : Inv s) (hp : s.point p = .igetRead ip) (dp : Dinode) :
    Inv (s.igetRead p ip (some dp)) := by
  have hwork : (s.point p).work = some ip := by rw [hp]; rfl
  obtain ⟨-, hone, hzero⟩ := h.refs.worker p ip hwork
  set f := fun x : Inode => { x with iMode := dp.diMode, iNlink := dp.diNlink, iRdev := dp.diRdev } with hf
  have hcount : ∀ j, ((s.modify ip f).inode j).iCount = (s.inode j).iCount := s.modify_keep ip (by rw [hf])
  have hlocked : ∀ j, ((s.modify ip f).inode j).ilocked = (s.inode j).ilocked := s.modify_keep ip (by rw [hf])
  rw [Kernel.igetRead, ← hf]
  refine ⟨h.chained.congr rfl (s.modify_keep ip rfl), h.free.congr rfl hcount, ?_⟩
  refine h.refs.finish (fun j _ => hcount j) (fun j _ => hlocked j) ?_ hwork ?_ ?_ ?_
  · intro j hj
    exact update_of_ne hj ..
  · refine (hcount ip).trans (hone.trans ?_)
    refine Eq.trans ?_ (update_self ip (s.held ip + 1) s.held).symm
    rw [hzero]
  · rw [goto_work_self]
    rfl
  · intro q hq
    rw [goto_work_of_ne _ _ hq]
    rfl

theorem ireleEnd_freed (hl : s.free.Holds l) (hip : ip ∉ l) :
    ∃ s', s.ireleEnd p ip = .ok s' ∧ Freed s s' p ip l := by
  obtain ⟨hhash, hfree, hheld, -⟩ := s.iunlock_frame ip
  obtain ⟨t, ht, hlt⟩ := hl.pushBack hip
  set x := { s.inode ip with
    ilocked := false, iwant := false, imount := false, iCount := (s.inode ip).iCount - 1 } with hx
  set s' : Kernel P := { s.iunlock ip with inode := update s.inode ip x, free := t }.goto p (.ret none) with hs'
  refine ⟨s', ?_, ?_, ?_, ?_, ?_, ?_, ?_⟩
  · have hpush : ((s.iunlock ip).modify ip fun x =>
        { x with ilocked := false, iwant := false, imount := false }).free.pushBack ip = some t := by
      rw [← ht, ← hfree]
      rfl
    rw [Kernel.ireleEnd]
    simp only [hpush]
    rw [hs', hx]
    simp [Kernel.modify, iunlock_inode]
  · rw [hs', hx]
    rfl
  · exact hhash
  · exact hlt
  · exact hheld
  · exact update_self ..
  · intro q hq
    rw [goto_work_of_ne _ _ hq]
    exact s.iunlock_work ip q

theorem Inv.ireleEnd (h : Inv s) (hp : s.point p = .iupdat ip) : ∃ s', s.ireleEnd p ip = .ok s' ∧ Inv s' := by
  have hwork : (s.point p).work = some ip := by rw [hp]; rfl
  obtain ⟨-, hone, hzero⟩ := h.refs.worker p ip hwork
  obtain ⟨l, hl, hmem⟩ := h.free
  have hip : ip ∉ l := by
    rw [hmem, hone]
    exact one_ne_zero
  obtain ⟨s', hs', hfreed⟩ := ireleEnd_freed (p := p) hl hip
  have hself : (s'.inode ip).iCount = 0 := by
    rw [hfreed.inode, update_self]
    rw [hone]
  have hkey : ∀ j, key (s'.inode j) = key (s.inode j) := by
    rw [hfreed.inode]
    exact s.modify_keep ip (f := fun x => { x with
      ilocked := false, iwant := false, imount := false, iCount := x.iCount - 1 }) rfl
  refine ⟨s', hs', h.chained.congr hfreed.hash hkey, FreeList.of_slot ip hfreed.free ?_ ?_, ?_⟩
  · exact iff_of_true (mem_append_right _ mem_cons_self) hself
  · intro j hj
    rw [hfreed.other hj, mem_append, hmem, mem_singleton]
    exact or_iff_left hj
  · refine h.refs.finish ?_ ?_ ?_ hwork ?_ ?_ hfreed.work
    · intro j hj
      rw [hfreed.other hj]
    · intro j hj
      rw [hfreed.other hj]
    · intro j _
      exact congrFun hfreed.held j
    · refine hself.trans ?_
      rw [hfreed.held]
      exact hzero.symm
    · rw [hfreed.point]
      rfl

end RetroBSD.InodeTable
