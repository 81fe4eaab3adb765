import RetroBSD.InodeAlloc
import Mathlib

/-!
# Calls of `ialloc`

A number that `ialloc` takes from the superblock is looked at with `iget` and given back with
`iput` when the inode is in use. Such a turn changes neither the mode of any inode nor which
free inodes are on the device only, so that the search finds one if there was one at the
beginning.
-/

namespace RetroBSD.Ialloc

open Ufs Function List Nat Kernel

variable {k k' k'' : Kernel} {dev ino d n : ℕ} {l : List ℕ}

/-! ## The search -/

def gather (ok : ℕ → Prop) [DecidablePred ok] : List ℕ → List ℕ → List ℕ
  | [], l => l
  | n :: ns, l =>
    if ok n then (if nicinod ≤ (n :: l).length then n :: l else gather ok ns (n :: l))
    else gather ok ns l

section Gather

variable {ok : ℕ → Prop} [DecidablePred ok] {xs ys : List ℕ}

theorem gather_append (hl : l.length < nicinod) : gather ok (xs ++ ys) l =
    if nicinod ≤ (gather ok xs l).length then gather ok xs l
      else gather ok ys (gather ok xs l) := by
  induction xs generalizing l with
  | nil => exact (if_neg (not_le.2 hl)).symm
  | cons n ns ih =>
    rw [cons_append, gather, gather]
    by_cases hn : ok n
    · rw [if_pos hn, if_pos hn]
      by_cases hfull : nicinod ≤ (n :: l).length
      · rw [if_pos hfull, if_pos hfull, if_pos hfull]
      · rw [if_neg hfull, if_neg hfull]
        exact ih (not_le.1 hfull)
    · rw [if_neg hn, if_neg hn]
      exact ih hl

theorem gather_eq (ok : ℕ → Prop) [DecidablePred ok] (xs l : List ℕ) :
    ∃ c, gather ok xs l = c ++ l ∧ c.reverse.Sublist xs ∧ ∀ n ∈ c, ok n := by
  fun_induction gather ok xs l with
  | case1 l => exact ⟨[], rfl, List.Sublist.refl _, fun n hn => absurd hn not_mem_nil⟩
  | case2 n ns l hn =>
    refine ⟨[n], rfl, singleton_sublist.2 mem_cons_self, ?_⟩
    intro m hm
    rw [mem_singleton.1 hm]
    exact hn
  | case3 n ns l hn hfull ih =>
    obtain ⟨c, hc, hsub, hok⟩ := ih
    refine ⟨c ++ [n], by rw [hc, append_assoc]; rfl, ?_, ?_⟩
    · rw [reverse_append]
      exact hsub.cons_cons n
    · intro m hm
      rcases mem_append.1 hm with hm | hm
      · exact hok m hm
      · rw [mem_singleton.1 hm]
        exact hn
  | case4 n ns l hn ih =>
    obtain ⟨c, hc, hsub, hok⟩ := ih
    exact ⟨c, hc, hsub.cons n, hok⟩

theorem mem_gather (h : (gather ok xs l).length < nicinod) (hn : n ∈ xs) (hok : ok n) :
    n ∈ gather ok xs l := by
  fun_induction gather ok xs l with
  | case1 => exact absurd hn not_mem_nil
  | case2 m ns l hm hfull => exact absurd h (not_lt.2 hfull)
  | case3 m ns l hm hfull ih =>
    rcases mem_cons.1 hn with rfl | hn
    · obtain ⟨c, hc, -⟩ := gather_eq ok ns (n :: l)
      rw [hc]
      exact mem_append_right c mem_cons_self
    · exact ih h hn
  | case4 m ns l hm ih =>
    rcases mem_cons.1 hn with rfl | hn
    · exact absurd hok hm
    · exact ih h hn

end Gather

def Kernel.Fresh (k : Kernel) (dev ino : ℕ) : Prop :=
  (k.dinode dev ino).diMode = 0 ∧ k.incore dev ino = none

instance (k : Kernel) (dev : ℕ) : DecidablePred (k.Fresh dev) := fun ino =>
  decidable_of_iff ((k.dinode dev ino).diMode = 0 ∧ (k.incore dev ino).isNone = true)
    (and_congr_right fun _ => Option.isNone_iff_eq_none)

variable {adr : ℕ}

theorem dinode_at {i : ℕ} (hadr : 0 < adr) (hi : i < inopb)
    (hino : ino = inopb * (adr - 1) + 1 + i) : k.dinode dev ino = k.itable dev adr i := by
  have hd : itod ino = adr := by
    simp only [itod, inopb] at *
    omega
  have ho : itoo ino = i := by
    simp only [itoo, inopb] at *
    omega
  rw [dinode, hd, ho]

theorem scanBlock_eq (k : Kernel) (dev : ℕ) {left i : ℕ} (hadr : 0 < adr) (hi : i + left = inopb)
    (hino : ino = inopb * (adr - 1) + 1 + i) (hl : l.length < nicinod) :
    (scanBlock (fun n => (k.incore dev n).isSome) (k.itable dev adr) left i ino l).2 =
        gather (k.Fresh dev) (List.range' ino left) l ∧
      ((gather (k.Fresh dev) (List.range' ino left) l).length < nicinod →
        (scanBlock (fun n => (k.incore dev n).isSome) (k.itable dev adr) left i ino l).1 =
          ino + left) := by
  induction left generalizing i ino l with
  | zero => exact ⟨rfl, fun _ => rfl⟩
  | succ left ih =>
    have hdinode : k.dinode dev ino = k.itable dev adr i := dinode_at hadr (by omega) hino
    have hnext := fun (l : List ℕ) (hl : l.length < nicinod) =>
      ih (by omega) (show ino + 1 = inopb * (adr - 1) + 1 + (i + 1) by omega) hl
    have hsum : ino + (left + 1) = ino + 1 + left := by omega
    rw [scanBlock, List.range'_succ, gather, hsum]
    by_cases hfresh : k.Fresh dev ino
    · have hskip : ¬((k.itable dev adr i).diMode ≠ 0 ∨ (k.incore dev ino).isSome = true) := by
        rw [← hdinode, hfresh.1, hfresh.2]
        simp
      rw [if_neg hskip, if_pos hfresh]
      split_ifs with hfull
      · exact ⟨rfl, fun hlt => absurd hlt (not_lt.2 hfull)⟩
      · exact hnext _ (not_le.1 hfull)
    · have hskip : (k.itable dev adr i).diMode ≠ 0 ∨ (k.incore dev ino).isSome = true := by
        rw [← hdinode]
        by_contra hnot
        rw [not_or, not_not, Bool.not_eq_true, Option.isSome_eq_false_iff,
          Option.isNone_iff_eq_none] at hnot
        exact hfresh hnot
      rw [if_pos hskip, if_neg hfresh]
      exact hnext l hl

/-- The search over blocks is a walk over their inodes. -/
theorem scan_spec (k : Kernel) (dev left inobas : ℕ) (hadr : 0 < adr)
    (hino : ino = inopb * (adr - 1) + 1) (hl : l.length < nicinod) :
    (scan (fun n => (k.incore dev n).isSome) (k.itable dev) left adr ino inobas l).2 =
        gather (k.Fresh dev) (List.range' ino (inopb * left)) l ∧
      (0 < left ∨ inobas % inopb = 1 →
        (scan (fun n => (k.incore dev n).isSome) (k.itable dev) left adr ino inobas l).1 % inopb =
          1) := by
  induction left generalizing adr ino inobas l with
  | zero => exact ⟨rfl, fun hstart => hstart.resolve_left (lt_irrefl 0)⟩
  | succ left ih =>
    obtain ⟨hlist, hnext⟩ := scanBlock_eq k dev hadr (zero_add inopb) hino hl
    have hsplit : List.range' ino (inopb * (left + 1)) =
        List.range' ino inopb ++ List.range' (ino + inopb) (inopb * left) := by
      rw [List.range'_append_1, mul_succ, add_comm]
    have hmod : ino % inopb = 1 := by
      simp only [inopb] at *
      omega
    rw [scan, hsplit, gather_append hl, hlist]
    split_ifs with hfull
    · exact ⟨rfl, fun _ => hmod⟩
    · rw [hnext (not_le.1 hfull)]
      have hblock : ino + inopb = inopb * (adr + 1 - 1) + 1 := by
        simp only [inopb] at *
        omega
      obtain ⟨hgather, hbase⟩ := ih ino (succ_pos adr) hblock (not_le.1 hfull)
      exact ⟨hgather, fun _ => hbase (.inr hmod)⟩

theorem setFs_fs (k : Kernel) (dev : ℕ) (fs : Superblock) : (k.setFs dev fs).fs dev = fs :=
  update_self _ _ _

theorem first_of_block (h : n % inopb = 1) : 0 < itod n ∧ n = inopb * (itod n - 1) + 1 := by
  simp only [itod, inopb] at *
  omega

theorem refill_spec (hlasti : (k.fs dev).fsLasti % inopb = 1) (hempty : (k.fs dev).fsInode = []) :
    ∃ start m c, 0 < start ∧
      (1 < (k.fs dev).fsIsize → ((refill k dev).fs dev).fsLasti % inopb = 1) ∧
      (∀ n ∈ List.range' start m, itod n < (k.fs dev).fsIsize) ∧
      c = gather (k.Fresh dev) (List.range' start m) [] ∧
      (nicinod ≤ c.length ∧ ((refill k dev).fs dev).fsInode = c ∨
        c.length < nicinod ∧ ((refill k dev).fs dev).fsInode =
          gather (k.Fresh dev) (List.range' 1 (inopb * ((k.fs dev).fsIsize - 1))) c) := by
  set lasti := (k.fs dev).fsLasti
  obtain ⟨hadr, hino⟩ := first_of_block hlasti
  have hnone : ([] : List ℕ).length < nicinod := by decide
  have htop := fun (c : List ℕ) (hlen : c.length < nicinod) =>
    scan_spec k dev ((k.fs dev).fsIsize - 1) 0 one_pos (show 1 = inopb * (1 - 1) + 1 by decide) hlen
  rw [refill, hempty]
  by_cases hbehind : (k.fs dev).fsNbehind < 4 * nicinod
  · obtain ⟨hfirst, hbase⟩ := scan_spec k dev ((k.fs dev).fsIsize - itod lasti) 0 hadr hino hnone
    obtain ⟨r, hr⟩ : ∃ r, r = scan (fun n => (k.incore dev n).isSome) (k.itable dev)
      ((k.fs dev).fsIsize - itod lasti) (itod lasti) lasti 0 [] := ⟨_, rfl⟩
    rw [if_pos hbehind, ← hr]
    rw [← hr] at hfirst hbase
    refine ⟨lasti, inopb * ((k.fs dev).fsIsize - itod lasti), _, by omega, ?_, ?_, rfl, ?_⟩
    · intro hisize
      by_cases hfew : r.2.length < nicinod
      · rw [if_pos hfew, setFs_fs]
        exact (htop _ hfew).2 (.inl (Nat.sub_pos_of_lt hisize))
      · rw [if_neg hfew, setFs_fs]
        refine hbase (.inl (pos_of_ne_zero fun hzero => ?_))
        rw [hr, hzero] at hfew
        exact hfew hnone
    · intro n hn
      rw [mem_range'_1] at hn
      simp only [itod, inopb] at *
      omega
    rw [← hfirst]
    by_cases hfull : nicinod ≤ r.2.length
    · refine .inl ⟨hfull, ?_⟩
      rw [if_neg (not_lt.2 hfull), setFs_fs]
    · refine .inr ⟨not_le.1 hfull, ?_⟩
      rw [if_pos (not_le.1 hfull), ← (htop _ (not_le.1 hfull)).1, setFs_fs]
      rfl
  · rw [if_neg hbehind, setFs_fs]
    refine ⟨1, 0, [], one_pos, ?_, fun n hn => absurd hn not_mem_nil, rfl, .inr ⟨hnone, ?_⟩⟩
    · intro hisize
      exact (htop _ hnone).2 (.inl (Nat.sub_pos_of_lt hisize))
    · rw [← (htop _ hnone).1]
      rfl

theorem gather_forall {ok P : ℕ → Prop} [DecidablePred ok] {xs : List ℕ} (hold : ∀ n ∈ l, P n)
    (hnew : ∀ n ∈ xs, ok n → P n) : ∀ n ∈ gather ok xs l, P n := by
  intro n hn
  obtain ⟨c, hc, hsub, hok⟩ := gather_eq ok xs l
  rw [hc] at hn
  rcases mem_append.1 hn with hn | hn
  · exact hnew n (hsub.subset (mem_reverse.2 hn)) (hok n hn)
  · exact hold n hn

theorem length_gather_le {ok : ℕ → Prop} [DecidablePred ok] {start m : ℕ} (hstart : 0 < start)
    (h : ∀ n ∈ gather ok (List.range' start m) l, n ≤ rootino) :
    (gather ok (List.range' start m) l).length ≤ l.length + 2 := by
  obtain ⟨c, hc, hsub, -⟩ := gather_eq ok (List.range' start m) l
  have hnodup : c.Nodup := by
    rw [← nodup_reverse]
    exact hsub.nodup nodup_range'
  have hfew : c.toFinset ⊆ {1, 2} := by
    intro n hn
    have hmem : n ∈ c := mem_toFinset.1 hn
    have hle : n ≤ 2 := h n (by rw [hc]; exact mem_append_left l hmem)
    have hge : start ≤ n := (mem_range'_1.1 (hsub.subset (mem_reverse.2 hmem))).1
    rw [Finset.mem_insert, Finset.mem_singleton]
    omega
  have hcard : c.length ≤ 2 := by
    rw [← toFinset_card_of_nodup hnodup]
    exact Finset.card_le_card hfew
  rw [hc, length_append]
  omega

section Refill

variable (hlasti : (k.fs dev).fsLasti % inopb = 1) (hempty : (k.fs dev).fsInode = [])

include hlasti hempty

theorem refill_fresh :
    ∀ n ∈ ((refill k dev).fs dev).fsInode, 0 < n ∧ itod n < (k.fs dev).fsIsize ∧ k.Fresh dev n := by
  obtain ⟨start, m, c, hstart, -, hsize, hc, hlist⟩ := refill_spec hlasti hempty
  have hfirst : ∀ n ∈ c, 0 < n ∧ itod n < (k.fs dev).fsIsize ∧ k.Fresh dev n := by
    rw [hc]
    refine gather_forall (fun n hn => absurd hn not_mem_nil) ?_
    intro n hn hfresh
    exact ⟨hstart.trans_le (mem_range'_1.1 hn).1, hsize n hn, hfresh⟩
  rcases hlist with ⟨-, hlist⟩ | ⟨-, hlist⟩
  · rw [hlist]
    exact hfirst
  · rw [hlist]
    refine gather_forall hfirst ?_
    intro n hn hfresh
    rw [mem_range'_1] at hn
    refine ⟨hn.1, ?_, hfresh⟩
    simp only [itod, inopb] at *
    omega

/-- A search that notes fewer than it could has noted every inode there is. -/
theorem refill_all (hn : 0 < n) (hsize : itod n < (k.fs dev).fsIsize) (hfresh : k.Fresh dev n)
    (hfew : ((refill k dev).fs dev).fsInode.length < nicinod) :
    n ∈ ((refill k dev).fs dev).fsInode := by
  obtain ⟨-, -, c, -, -, -, -, ⟨hfull, hlist⟩ | ⟨-, hlist⟩⟩ := refill_spec hlasti hempty
  · rw [hlist] at hfew
    exact absurd hfew (not_lt.2 hfull)
  · have hmem : n ∈ List.range' 1 (inopb * ((k.fs dev).fsIsize - 1)) := by
      rw [mem_range'_1]
      simp only [itod, inopb] at *
      omega
    rw [hlist] at hfew ⊢
    exact mem_gather hfew hmem hfresh

theorem refill_few (hall : ∀ m ∈ ((refill k dev).fs dev).fsInode, m ≤ rootino) :
    ((refill k dev).fs dev).fsInode.length < nicinod := by
  obtain ⟨start, m, c, hstart, -, -, hc, hlist⟩ := refill_spec hlasti hempty
  have hfirst : (∀ n ∈ c, n ≤ rootino) → c.length ≤ 2 := by
    rw [hc]
    exact length_gather_le hstart
  rcases hlist with ⟨hfull, hlist⟩ | ⟨-, hlist⟩
  · rw [hlist] at hall
    have hlen := hfirst hall
    simp only [nicinod] at hfull
    omega
  · rw [hlist] at hall ⊢
    obtain ⟨c', hc', -⟩ := gather_eq (k.Fresh dev)
      (List.range' 1 (inopb * ((k.fs dev).fsIsize - 1))) c
    have hlen := hfirst fun p hp => hall p (by rw [hc']; exact mem_append_right c' hp)
    have hsecond := length_gather_le one_pos hall
    simp only [nicinod]
    omega

/-- The search finds an inode that is not reserved if there is one. -/
theorem refill_found (hn : rootino < n) (hsize : itod n < (k.fs dev).fsIsize)
    (hfresh : k.Fresh dev n) : ∃ m ∈ ((refill k dev).fs dev).fsInode, rootino < m := by
  by_contra hnone
  have hall : ∀ m ∈ ((refill k dev).fs dev).fsInode, m ≤ rootino := by
    intro m hm
    by_contra hlt
    exact hnone ⟨m, hm, not_le.1 hlt⟩
  have hmem := refill_all hlasti hempty ((zero_le _).trans_lt hn) hsize hfresh
    (refill_few hlasti hempty hall)
  exact absurd (hall n hmem) (not_le.2 hn)

end Refill

/-! ## References -/

/-- Mode and links of an inode: those in core, or else those on the device. -/
def Kernel.info (k : Kernel) (dev ino : ℕ) : Dinode :=
  match k.incore dev ino with
  | some ip => ⟨ip.iMode, ip.iNlink⟩
  | none => k.dinode dev ino

structure Kernel.Ready (k : Kernel) : Prop where
  once : ∀ x, k.idle.count (some x) ≤ 1
  idle_iff : ∀ d n, some (d, n) ∈ k.idle ↔ ∃ ip, k.incore d n = some ip ∧ ip.iCount = 0
  clean : ∀ d n ip, k.incore d n = some ip → ip.iCount = 0 →
    ip.locked = false ∧ ip.mounted = none ∧ ip.dirty = false ∧
      (⟨ip.iMode, ip.iNlink⟩ : Dinode) = k.dinode d n
  mounts : ∀ d n ip d', k.incore d n = some ip → ip.mounted = some d' →
    (k.info d' rootino).diMode ≠ 0 ∧ (k.info d' rootino).diNlink ≠ 0 ∧
      ∀ ip', k.incore d' rootino = some ip' → ip'.mounted = none

/-- `iget` would wait for a lock. -/
def Kernel.Busy (k : Kernel) (dev ino : ℕ) : Prop :=
  ∃ ip, k.incore dev ino = some ip ∧
    (ip.locked = true ∨
      ∃ d ip', ip.mounted = some d ∧ k.incore d rootino = some ip' ∧ ip'.locked = true)

/-- A turn that gave the inode back. -/
structure Keeps (k k' : Kernel) : Prop where
  fs : k'.fs = k.fs
  itable : k'.itable = k.itable
  ready : k'.Ready
  length : k'.idle.length = k.idle.length
  info : ∀ d n, k'.info d n = k.info d n
  core : ∀ d n, k.incore d n = none → k'.incore d n ≠ none → (k.info d n).diMode ≠ 0
  refs : ∀ d n ip, k.incore d n = some ip → ip.iCount ≠ 0 → k'.incore d n = some ip
  busy : ∀ d n, k'.Busy d n → k.Busy d n

theorem Keeps.refl (h : k.Ready) : Keeps k k :=
  ⟨rfl, rfl, h, rfl, fun _ _ => rfl, fun _ _ hnone hsome => absurd hnone hsome,
    fun _ _ _ hip _ => hip, fun _ _ => id⟩

theorem Keeps.trans (h : Keeps k k') (h' : Keeps k' k'') : Keeps k k'' := by
  refine ⟨h'.fs.trans h.fs, h'.itable.trans h.itable, h'.ready, h'.length.trans h.length,
    fun d n => (h'.info d n).trans (h.info d n), ?_,
    fun d n ip hip hcount => h'.refs d n ip (h.refs d n ip hip hcount) hcount,
    fun d n hbusy => h.busy d n (h'.busy d n hbusy)⟩
  intro d n hnone hsome
  by_cases hmid : k'.incore d n = none
  · rw [← h.info]
    exact h'.core d n hmid hsome
  · exact h.core d n hnone hmid

theorem Kernel.dinode_eq (h : k'.itable = k.itable) (d n : ℕ) : k'.dinode d n = k.dinode d n := by
  rw [dinode, dinode, h]

variable {ip : Inode}

theorem Kernel.info_of_some (h : k.incore d n = some ip) : k.info d n = ⟨ip.iMode, ip.iNlink⟩ := by
  rw [Kernel.info, h]

theorem Kernel.info_of_none (h : k.incore d n = none) : k.info d n = k.dinode d n := by
  rw [Kernel.info, h]

theorem Keeps.perm {idle : List (Option (ℕ × ℕ))} (h : k.Ready) (hp : idle.Perm k.idle) :
    Keeps k (k.setIdle idle) := by
  refine ⟨rfl, rfl, ⟨?_, ?_, h.clean, h.mounts⟩, hp.length_eq, fun _ _ => rfl,
    fun _ _ hnone hsome => absurd hnone hsome, fun _ _ _ hip _ => hip, fun _ _ => id⟩
  · intro x
    rw [show (k.setIdle idle).idle.count (some x) = k.idle.count (some x) from hp.count_eq _]
    exact h.once x
  · intro d n
    exact hp.mem_iff.trans (h.idle_iff d n)

theorem setInode_self (k : Kernel) (d n : ℕ) (ip : Option Inode) :
    (k.setInode d n ip).incore d n = ip := by
  rw [setInode]
  dsimp only
  rw [update_self, update_self]

theorem setInode_of_ne {d' n' : ℕ} (h : ¬(d' = d ∧ n' = n)) (k : Kernel) (ip : Option Inode) :
    (k.setInode d n ip).incore d' n' = k.incore d' n' := by
  rw [setInode]
  dsimp only
  by_cases hd : d' = d
  · subst hd
    rw [update_self, update_of_ne (fun hn => h ⟨rfl, hn⟩)]
  · rw [update_of_ne hd]

/-- The slot at the head of the idle list, with the inode or without, may hold it or not. -/
theorem Keeps.exchange {b : Option Inode} {rest : List (Option (ℕ × ℕ))} (h : k.Ready)
    (hidle : k.idle = (k.incore d n).map (fun _ => (d, n)) :: rest)
    (hb : ∀ ip, b = some ip → ip.iCount = 0 ∧ ip.locked = false ∧ ip.mounted = none ∧
      ip.dirty = false ∧ (⟨ip.iMode, ip.iNlink⟩ : Dinode) = k.dinode d n)
    (hmode : k.incore d n = none → b ≠ none → (k.dinode d n).diMode ≠ 0) :
    Keeps k ((k.setInode d n b).setIdle (b.map (fun _ => (d, n)) :: rest)) := by
  set k' := (k.setInode d n b).setIdle (b.map (fun _ => (d, n)) :: rest)
  have hself : k'.incore d n = b := setInode_self k d n b
  have hother : ∀ d' n', ¬(d' = d ∧ n' = n) → k'.incore d' n' = k.incore d' n' := by
    intro d' n' hne
    exact setInode_of_ne hne k b
  have htable : k'.itable = k.itable := rfl
  have hlist : k'.idle = b.map (fun _ => (d, n)) :: rest := rfl
  have hcases : ∀ d' n' ip', k'.incore d' n' = some ip' →
      k.incore d' n' = some ip' ∨ (d' = d ∧ n' = n) ∧ b = some ip' := by
    intro d' n' ip' hsome
    by_cases heq : d' = d ∧ n' = n
    · rw [heq.1, heq.2, hself] at hsome
      exact .inr ⟨heq, hsome⟩
    · rw [hother d' n' heq] at hsome
      exact .inl hsome
  have hcount : ∀ ip, k.incore d n = some ip → ip.iCount = 0 := by
    intro ip hip
    obtain ⟨ip', hip', hzero⟩ := (h.idle_iff d n).1 (by rw [hidle, hip]; exact mem_cons_self)
    rw [hip] at hip'
    cases hip'
    exact hzero
  have hinfo : ∀ d' n', k'.info d' n' = k.info d' n' := by
    intro d' n'
    by_cases heq : d' = d ∧ n' = n
    · have hold : k.info d n = k.dinode d n := by
        cases hip : k.incore d n with
        | none => exact info_of_none hip
        | some ip => rw [info_of_some hip, (h.clean d n ip hip (hcount ip hip)).2.2.2]
      have hnew : k'.info d n = k.dinode d n := by
        cases b with
        | none => rw [info_of_none hself, Kernel.dinode_eq htable]
        | some ip => rw [info_of_some hself, (hb ip rfl).2.2.2.2]
      rw [heq.1, heq.2, hold, hnew]
    · rw [Kernel.info, Kernel.info, hother d' n' heq, Kernel.dinode_eq htable]
  have hrest : some (d, n) ∉ rest := by
    intro hmem
    obtain ⟨ip, hip, -⟩ := (h.idle_iff d n).1 (by rw [hidle]; exact mem_cons_of_mem _ hmem)
    have honce := h.once (d, n)
    rw [hidle, hip, Option.map_some, count_cons_self] at honce
    exact count_eq_zero.1 (by omega) hmem
  have hne : ∀ (o : Option Inode) {d' n'}, ¬(d' = d ∧ n' = n) →
      o.map (fun _ => (d, n)) ≠ some (d', n') := by
    rintro (_ | _) d' n' heq hcase <;> cases hcase
    exact heq ⟨rfl, rfl⟩
  refine ⟨rfl, htable, ⟨?_, ?_, ?_, ?_⟩, by rw [hlist, hidle]; rfl, hinfo, ?_, ?_, ?_⟩
  · rintro ⟨d', n'⟩
    rw [hlist]
    by_cases heq : d' = d ∧ n' = n
    · rw [heq.1, heq.2, count_cons, count_eq_zero.2 hrest]
      split_ifs <;> omega
    · have hold := h.once (d', n')
      rw [hidle, count_cons_of_ne (hne _ heq)] at hold
      rw [count_cons_of_ne (hne b heq)]
      exact hold
  · intro d' n'
    rw [hlist, mem_cons]
    by_cases heq : d' = d ∧ n' = n
    · rw [heq.1, heq.2, or_iff_left hrest, hself]
      cases b with
      | none => simp
      | some ip => exact iff_of_true rfl ⟨ip, rfl, (hb ip rfl).1⟩
    · rw [hother d' n' heq, ← h.idle_iff, hidle, mem_cons, or_iff_right (hne b heq).symm,
        or_iff_right (hne _ heq).symm]
  · intro d' n' ip' hsome hzero
    rw [Kernel.dinode_eq htable]
    rcases hcases d' n' ip' hsome with hold | ⟨⟨rfl, rfl⟩, hnew⟩
    · exact h.clean d' n' ip' hold hzero
    · exact (hb ip' hnew).2
  · intro d' n' ip' m hsome hmount
    rw [hinfo]
    rcases hcases d' n' ip' hsome with hold | ⟨-, hnew⟩
    · obtain ⟨hm, hlink, hroot⟩ := h.mounts d' n' ip' m hold hmount
      refine ⟨hm, hlink, ?_⟩
      intro ip'' hip''
      rcases hcases m rootino ip'' hip'' with hold' | ⟨-, hnew⟩
      · exact hroot ip'' hold'
      · exact (hb ip'' hnew).2.2.1
    · rw [(hb ip' hnew).2.2.1] at hmount
      cases hmount
  · intro d' n' hnone hsome
    by_cases heq : d' = d ∧ n' = n
    · rw [heq.1, heq.2] at hnone hsome ⊢
      rw [hself] at hsome
      rw [info_of_none hnone]
      exact hmode hnone hsome
    · rw [hother d' n' heq] at hsome
      exact absurd hnone hsome
  · intro d' n' ip' hip' hused
    by_cases heq : d' = d ∧ n' = n
    · rw [heq.1, heq.2] at hip'
      exact absurd (hcount ip' hip') hused
    · rw [hother d' n' heq]
      exact hip'
  · rintro d' n' ⟨ip', hip', hbusy⟩
    rcases hcases d' n' ip' hip' with hold | ⟨-, hnew⟩
    · refine ⟨ip', hold, hbusy.imp id ?_⟩
      rintro ⟨m, ip'', hmount, hip'', hlock⟩
      rcases hcases m rootino ip'' hip'' with hold' | ⟨-, hnew⟩
      · exact ⟨m, ip'', hmount, hold', hlock⟩
      · rw [(hb ip'' hnew).2.1] at hlock
        cases hlock
    · obtain ⟨-, hunlocked, hunmounted, -⟩ := hb ip' hnew
      rw [hunlocked, hunmounted] at hbusy
      rcases hbusy with hlock | ⟨m, ip'', hmount, -⟩
      · cases hlock
      · cases hmount

theorem setInode_setInode (k : Kernel) (d n : ℕ) (a b : Option Inode) :
    (k.setInode d n a).setInode d n b = k.setInode d n b := by
  simp only [setInode, update_self, update_idem]

theorem setInode_eq_self {ip : Option Inode} (h : k.incore d n = ip) : k.setInode d n ip = k := by
  rw [setInode, ← h, update_eq_self, update_eq_self]

def Kernel.Unused (k : Kernel) (dev ino : ℕ) : Prop :=
  (k.info dev ino).diNlink = 0 ∧ ∀ ip, k.incore dev ino = some ip → ip.iCount = 0

structure Freed (k k' : Kernel) (dev ino : ℕ) : Prop where
  incore : ∃ ip, k'.incore dev ino = some ip ∧ ip.iMode = 0 ∧ ip.locked = false ∧ ip.mounted = none
  fs : k'.fs = (ifree k dev ino).fs

variable {k₁ : Kernel}

theorem iput_last {mode nlink : ℕ} {locked : Bool}
    (h : k₁.incore d n = some ⟨mode, nlink, 1, locked, none, false⟩) :
    nlink = 0 ∧ Freed k₁ (iput k₁ d n) d n ∨
      iput k₁ d n = (k₁.setIdle (k₁.idle ++ [some (d, n)])).setInode d n
        (some ⟨mode, nlink, 0, false, none, false⟩) := by
  rw [iput, h]
  dsimp only
  rw [irele]
  by_cases hfreed : (decide (nlink = 0) && !(k₁.fs d).fsRonly) = true
  · obtain ⟨hlink, hronly⟩ := Bool.and_eq_true_iff.1 hfreed
    refine .inl ⟨of_decide_eq_true hlink, ⟨_, setInode_self _ _ _ _, ?_, rfl, rfl⟩, ?_⟩
    · rw [if_pos hfreed]
    · rw [hfreed, hronly]
      rfl
  · have hno : (decide (nlink = 0) && !(k₁.fs d).fsRonly) = false := Bool.eq_false_iff.2 hfreed
    right
    rw [hno]
    rfl

/-- An inode as `iget` reads it in. -/
abbrev loaded (dp : Dinode) : Inode := ⟨dp.diMode, dp.diNlink, 1, true, none, false⟩

theorem load_spec {held : Option (ℕ × ℕ)} {rest : List (Option (ℕ × ℕ))} (h : k.Ready)
    (hcore : k.incore d n = none) (hidle : k.idle = held :: rest) :
    ∃ base : Kernel, load k d n held rest = (base.setIdle rest).setInode d n
        (some (loaded (k.dinode d n))) ∧
      Keeps k (base.setIdle (none :: rest)) ∧ base.incore d n = none := by
  cases held with
  | none =>
    refine ⟨k, rfl, ?_, hcore⟩
    rw [← hidle]
    exact Keeps.refl h
  | some x =>
    obtain ⟨d', n'⟩ := x
    obtain ⟨ip, hip, -⟩ := (h.idle_iff d' n').1 (by rw [hidle]; exact mem_cons_self)
    refine ⟨k.setInode d' n' none, rfl, ?_, ?_⟩
    · exact Keeps.exchange h (by rw [hidle, hip]; rfl) (fun ip hcase => by cases hcase)
        fun _ hcase => absurd rfl hcase
    · rw [setInode_of_ne, hcore]
      rintro ⟨rfl, rfl⟩
      rw [hcore] at hip
      cases hip

theorem turn_spec (hops : ℕ) (h : k.Ready)
    (hfree : ∀ ip, k.incore d n = some ip → ip.locked = false ∧ ip.mounted = none) :
    iget (hops + 1) k d n = .full (k.setError enfile) ∧ k.idle = [] ∨
      ∃ k₁ ip, iget (hops + 1) k d n = .inode d n k₁ ∧ k₁.fs = k.fs ∧ k₁.incore d n = some ip ∧
        ip.iMode = (k.info d n).diMode ∧
        (ip.iMode ≠ 0 → Keeps k (iput k₁ d n) ∨ k.Unused d n ∧ Freed k₁ (iput k₁ d n) d n) := by
  rw [iget]
  cases hcore : k.incore d n with
  | some ip =>
    obtain ⟨hlock, hmount⟩ := hfree ip hcore
    obtain ⟨mode, nlink, count, locked, mounted, dirty⟩ := ip
    subst hlock hmount
    have hinfo := info_of_some hcore
    refine .inr ⟨_, _, rfl, ?_, setInode_self _ _ _ _, by rw [hinfo], ?_⟩
    · rw [grab]
      split_ifs
      · rfl
      · rfl
    · intro hmode
      by_cases hzero : count = 0
      · subst hzero
        obtain ⟨-, -, hdirty, -⟩ := h.clean d n _ hcore rfl
        subst hdirty
        have hmem : some (d, n) ∈ k.idle := (h.idle_iff d n).2 ⟨_, hcore, rfl⟩
        rcases iput_last (setInode_self (k.setIdle (k.idle.erase (some (d, n)))) d n
          (some ⟨mode, nlink, 0 + 1, true, none, false⟩)) with ⟨hlink, hfreed⟩ | hkept
        · refine .inr ⟨⟨by rw [hinfo]; exact hlink, ?_⟩, hfreed⟩
          intro ip hip
          rw [hcore] at hip
          rw [← Option.some.inj hip]
        · left
          have hsame : ((k.setIdle (k.idle.erase (some (d, n) ) ++ [some (d, n)])).setInode d n
              (some ⟨mode, nlink, 0 + 1, true, none, false⟩)).setInode d n
              (some ⟨mode, nlink, 0, false, none, false⟩) =
                k.setIdle (k.idle.erase (some (d, n)) ++ [some (d, n)]) := by
            rw [setInode_setInode]
            exact setInode_eq_self hcore
          rw [grab, if_pos rfl, hkept]
          refine Eq.mpr (congrArg (Keeps k) hsame) (Keeps.perm h ?_)
          exact (perm_append_singleton _ _).trans (perm_cons_erase hmem).symm
      · left
        rw [grab, if_neg hzero, iput, setInode_self]
        dsimp only
        rw [if_neg (by omega), setInode_setInode, Nat.add_sub_cancel, setInode_eq_self hcore]
        exact Keeps.refl h
  | none =>
    cases hidle : k.idle with
    | nil => exact .inl ⟨rfl, rfl⟩
    | cons held rest =>
      obtain ⟨base, hload, hbase, hnone⟩ := load_spec h hcore hidle
      have hinfo := info_of_none hcore
      have hself := setInode_self (base.setIdle rest) d n
        (some (loaded (k.dinode d n)))
      refine .inr ⟨load k d n held rest, loaded (k.dinode d n),
        rfl, ?_, ?_, ?_, ?_⟩
      · rw [hload]
        exact hbase.fs
      · rw [hload]
        exact hself
      · rw [hinfo]
      · intro hmode
        rw [hload]
        rcases iput_last hself with ⟨hlink, hfreed⟩ | hkept
        · refine .inr ⟨⟨by rw [hinfo]; exact hlink, ?_⟩, hfreed⟩
          intro ip hip
          rw [hcore] at hip
          cases hip
        · left
          have hdinode : (base.setIdle (none :: rest)).dinode d n = k.dinode d n :=
            Kernel.dinode_eq hbase.itable d n
          have hcached := Keeps.exchange hbase.ready
            (show (base.setIdle (none :: rest)).idle =
              (base.incore d n).map (fun _ => (d, n)) :: rest by rw [hnone]; rfl)
            (fun ip (hip : some { loaded (k.dinode d n) with iCount := 0, locked := false } =
              some ip) => by
              cases hip
              exact ⟨rfl, rfl, rfl, rfl, hdinode.symm⟩)
            fun _ _ => by rw [hdinode]; exact hmode
          have hmoved := Keeps.perm hcached.ready (perm_append_singleton (some (d, n)) rest)
          rw [hkept]
          refine Eq.mpr (congrArg (Keeps k) ?_) ((hbase.trans hcached).trans hmoved)
          exact setInode_setInode (base.setIdle (rest ++ [some (d, n)])) d n _ _

theorem look_spec (h : k.Ready) (hbusy : ¬k.Busy dev ino) :
    iget (nmount + 1) k dev ino = .full (k.setError enfile) ∧ k.idle = [] ∨
      ∃ d n k₁ ip, iget (nmount + 1) k dev ino = .inode d n k₁ ∧ k₁.fs = k.fs ∧
        k₁.incore d n = some ip ∧
        (ip.iMode = 0 → d = dev ∧ n = ino ∧ (k.info dev ino).diMode = 0) ∧
        (ip.iMode ≠ 0 → Keeps k (iput k₁ d n) ∨
          d = dev ∧ n = ino ∧ k.Unused dev ino ∧ Freed k₁ (iput k₁ d n) dev ino) := by
  by_cases hmount : ∃ ip m, k.incore dev ino = some ip ∧ ip.mounted = some m
  · -- the root of the file system mounted here is in use
    obtain ⟨ip, m, hip, hm⟩ := hmount
    obtain ⟨hmode, hlink, hroot⟩ := h.mounts dev ino ip m hip hm
    have hlock : ¬ip.locked = true := fun hlock => hbusy ⟨ip, hip, .inl hlock⟩
    have hhop : iget (nmount + 1) k dev ino = iget nmount k m rootino := by
      rw [iget, hip]
      dsimp only
      rw [if_neg hlock, hm]
    have hfree : ∀ ip', k.incore m rootino = some ip' →
        ip'.locked = false ∧ ip'.mounted = none := by
      intro ip' hip'
      refine ⟨Bool.eq_false_iff.2 fun hlock' => hbusy ⟨ip, hip, .inr ⟨m, ip', hm, hip', hlock'⟩⟩,
        hroot ip' hip'⟩
    rw [hhop]
    rcases turn_spec 1 h hfree with hfull | ⟨k₁, ip1, hget, hfs, hcore, heq, hput⟩
    · exact .inl hfull
    · refine .inr ⟨m, rootino, k₁, ip1, hget, hfs, hcore, fun hzero => absurd (heq ▸ hzero) hmode,
        ?_⟩
      intro hne
      rcases hput hne with hkeeps | ⟨hunused, -⟩
      · exact .inl hkeeps
      · exact absurd hunused.1 hlink
  · have hfree : ∀ ip, k.incore dev ino = some ip → ip.locked = false ∧ ip.mounted = none := by
      intro ip hip
      refine ⟨Bool.eq_false_iff.2 fun hlock => hbusy ⟨ip, hip, .inl hlock⟩, ?_⟩
      cases hm : ip.mounted with
      | none => rfl
      | some m => exact absurd ⟨ip, m, hip, hm⟩ hmount
    rcases turn_spec nmount h hfree with hfull | ⟨k₁, ip1, hget, hfs, hcore, heq, hput⟩
    · exact .inl hfull
    · refine .inr ⟨dev, ino, k₁, ip1, hget, hfs, hcore, fun hzero => ⟨rfl, rfl, heq ▸ hzero⟩, ?_⟩
      intro hne
      exact (hput hne).imp id fun hfreed => ⟨rfl, rfl, hfreed⟩

/-! ## Calls -/

/-- How a call ends: with an inode that was free, or that had neither links nor references;
or with an error. -/
def Ends (k : Kernel) (dev : ℕ) (r : Option (ℕ × ℕ)) (k' : Kernel) : Prop :=
  match r with
  | some (d, n) => d = dev ∧ rootino < n ∧ (∃ ip, k'.incore dev n = some ip ∧ ip.iMode = 0) ∧
      ((k.info dev n).diMode = 0 ∨ k.Unused dev n)
  | none => k'.uError = enfile ∧ k.idle = [] ∨
      k'.uError = enospc ∧ ∀ n, rootino < n → itod n < (k.fs dev).fsIsize → ¬k.Fresh dev n

theorem setList_self (h : (k.fs dev).fsInode = l) : k.setList dev l = k := by
  rw [← h]
  exact congrArg (fun fs => (⟨fs, k.itable, k.incore, k.idle, k.uError⟩ : Kernel))
    (update_eq_self dev k.fs)

theorem setList_setList (k : Kernel) (dev : ℕ) (l l' : List ℕ) :
    (k.setList dev l).setList dev l' = k.setList dev l' := by
  simp only [Kernel.setList, Kernel.setFs, update_self, update_idem]

theorem setList_fs (k : Kernel) (dev : ℕ) (l : List ℕ) : (k.setList dev l).fs dev =
    ⟨(k.fs dev).fsIsize, l, (k.fs dev).fsLasti, (k.fs dev).fsNbehind, (k.fs dev).fsTinode,
      (k.fs dev).fsRonly, (k.fs dev).fsFmod⟩ := setFs_fs _ _ _

theorem Kernel.Ready.setList (h : k.Ready) (dev : ℕ) (l : List ℕ) : (k.setList dev l).Ready :=
  ⟨h.once, h.idle_iff, h.clean, h.mounts⟩

theorem Keeps.setList (h : Keeps k k') (dev : ℕ) (l : List ℕ) :
    Keeps (k.setList dev l) (k'.setList dev l) := by
  refine ⟨?_, h.itable, h.ready.setList dev l, h.length, h.info, h.core, h.refs, h.busy⟩
  rw [Kernel.setList, Kernel.setList, Kernel.setFs, Kernel.setFs, h.fs]

theorem Keeps.fresh (h : Keeps k k') (hfresh : k.Fresh d n) : k'.Fresh d n := by
  refine ⟨by rw [Kernel.dinode_eq h.itable]; exact hfresh.1, ?_⟩
  by_contra hne
  apply h.core d n hfresh.2 hne
  rw [info_of_none hfresh.2]
  exact hfresh.1

theorem Ends.of_keeps {r : Option (ℕ × ℕ)} (h : Keeps (k.setList dev l) k')
    (hend : Ends k' dev r k'') : Ends k dev r k'' := by
  have hinfo : ∀ n, k'.info dev n = k.info dev n := h.info dev
  cases r with
  | none =>
    rcases hend with ⟨herr, hidle⟩ | ⟨herr, hnone⟩
    · refine .inl ⟨herr, eq_nil_of_length_eq_zero ?_⟩
      have hlen : k'.idle.length = k.idle.length := h.length
      rw [← hlen, hidle]
      rfl
    · refine .inr ⟨herr, ?_⟩
      intro n hn hsize hfresh
      apply hnone n hn
      · rw [h.fs, setList_fs]
        exact hsize
      · exact h.fresh hfresh
  | some x =>
    obtain ⟨d, n⟩ := x
    obtain ⟨hd, hn, hip, hfree⟩ := hend
    refine ⟨hd, hn, hip, hfree.imp (fun hzero => hinfo n ▸ hzero) ?_⟩
    rintro ⟨hlink, hcount⟩
    refine ⟨hinfo n ▸ hlink, ?_⟩
    intro ip hsome
    by_contra hne
    exact hne (hcount ip (h.refs dev n ip hsome hne))

variable {fuel : ℕ}

theorem ialloc_reserved (hlist : (k.fs dev).fsInode = ino :: l) (hino : ino ≤ rootino) :
    ialloc dev (fuel + 1) k = ialloc dev fuel (k.setList dev l) := by
  rw [ialloc, hlist]
  dsimp only
  rw [if_pos hino]

theorem ialloc_hit (fuel : ℕ) (hlist : (k.fs dev).fsInode = ino :: l) (hino : rootino < ino)
    (hget : iget (nmount + 1) (k.setList dev l) dev ino = .inode dev ino k₁)
    (hcore : k₁.incore dev ino = some ip) (hmode : ip.iMode = 0) :
    ∃ k', ialloc dev (fuel + 1) k = some (some (dev, ino), k') ∧ k'.incore dev ino = some ip := by
  rw [ialloc, hlist]
  dsimp only
  rw [if_neg (not_le.2 hino), hget]
  dsimp only
  rw [hcore]
  dsimp only
  rw [if_pos hmode]
  exact ⟨_, rfl, hcore⟩

theorem ialloc_full (hlist : (k.fs dev).fsInode = ino :: l) (hino : rootino < ino)
    (hget : iget (nmount + 1) (k.setList dev l) dev ino = .full k₁) :
    ialloc dev (fuel + 1) k = some (none, k₁) := by
  rw [ialloc, hlist]
  dsimp only
  rw [if_neg (not_le.2 hino), hget]

theorem ialloc_miss (hlist : (k.fs dev).fsInode = ino :: l) (hino : rootino < ino)
    (hget : iget (nmount + 1) (k.setList dev l) dev ino = .inode d n k₁)
    (hcore : k₁.incore d n = some ip)
    (hmode : ip.iMode ≠ 0) : ialloc dev (fuel + 1) k = ialloc dev fuel (iput k₁ d n) := by
  rw [ialloc, hlist]
  dsimp only
  rw [if_neg (not_le.2 hino), hget]
  dsimp only
  rw [hcore]
  dsimp only
  rw [if_neg hmode]

/-- An inode that has just been freed is the next to be taken. -/
theorem ialloc_freed (fuel : ℕ) {k2 : Kernel} (hfs : k₁.fs dev = (k.setList dev l).fs dev)
    (hlen : l.length < nicinod) (hino : rootino < ino) (h : Freed k₁ k2 dev ino) :
    ∃ k' ip, ialloc dev (fuel + 1) k2 = some (some (dev, ino), k') ∧ k'.incore dev ino = some ip ∧
      ip.iMode = 0 := by
  obtain ⟨⟨ip, hip, hmode, hlock, hmount⟩, hfs2⟩ := h
  have hlist1 : (k₁.fs dev).fsInode = l := by
    rw [hfs, setList_fs]
  have hlist : (k2.fs dev).fsInode = ino :: l := by
    rw [hfs2, ifree, hlist1, if_neg (not_le.2 hlen), setFs_fs]
  have hget : iget (nmount + 1) (k2.setList dev l) dev ino =
      .inode dev ino (grab (k2.setList dev l) dev ino ip) := by
    rw [iget, show (k2.setList dev l).incore dev ino = some ip from hip]
    dsimp only
    rw [hlock, if_neg Bool.false_ne_true, hmount]
  obtain ⟨k', hrun, hcore⟩ := ialloc_hit fuel hlist hino hget (setInode_self _ _ _ _) hmode
  exact ⟨k', _, hrun, hcore, hmode⟩

theorem ialloc_list (h : k.Ready) (hlist : (k.fs dev).fsInode = l) (hlen : l.length ≤ nicinod)
    (hbusy : ∀ n ∈ l, rootino < n → ¬k.Busy dev n) :
    (∃ fuel r k', ialloc dev fuel k = some (r, k') ∧ Ends k dev r k') ∨
      ∃ fuel k', Keeps (k.setList dev []) k' ∧ ∀ f, ialloc dev (f + fuel) k = ialloc dev f k' := by
  induction l generalizing k with
  | nil =>
    refine .inr ⟨0, k, ?_, fun _ => rfl⟩
    rw [setList_self hlist]
    exact Keeps.refl h
  | cons ino l ih =>
    have hlist0 : ((k.setList dev l).fs dev).fsInode = l := by rw [setList_fs]
    have hlen' : l.length < nicinod := lt_of_succ_le hlen
    -- the rest of the list, after a turn that kept the state
    have hrest : ∀ k2, Keeps (k.setList dev l) k2 → (∀ f, ialloc dev (f + 1) k = ialloc dev f k2) →
        (∃ fuel r k', ialloc dev fuel k = some (r, k') ∧ Ends k dev r k') ∨
          ∃ fuel k', Keeps (k.setList dev []) k' ∧
            ∀ f, ialloc dev (f + fuel) k = ialloc dev f k' := by
      intro k2 hkeeps hturn
      have hlist2 : (k2.fs dev).fsInode = l := by
        rw [hkeeps.fs]
        exact hlist0
      have hbusy2 : ∀ n ∈ l, rootino < n → ¬k2.Busy dev n :=
        fun n hn hlt hb => hbusy n (mem_cons_of_mem _ hn) hlt (hkeeps.busy dev n hb)
      rcases ih hkeeps.ready hlist2 hlen'.le hbusy2 with ⟨fuel, r, k', hrun, hend⟩
        | ⟨fuel, k', hk', hrun⟩
      · exact .inl ⟨fuel + 1, r, k', by rw [hturn, hrun], hend.of_keeps hkeeps⟩
      · refine .inr ⟨fuel + 1, k', ?_, fun f => by rw [← add_assoc, hturn, hrun]⟩
        have hkeeps' := (hkeeps.setList dev []).trans hk'
        rw [setList_setList] at hkeeps'
        exact hkeeps'
    by_cases hino : ino ≤ rootino
    · exact hrest _ (Keeps.refl (h.setList dev l)) fun f => ialloc_reserved hlist hino
    · have hlt := not_le.1 hino
      have hb : ¬(k.setList dev l).Busy dev ino := hbusy ino mem_cons_self hlt
      rcases look_spec (h.setList dev l) hb with ⟨hget, hidle⟩
        | ⟨d, n, k₁, ip, hget, hfs, hcore, hzero, hne⟩
      · exact .inl ⟨1, none, _, ialloc_full hlist hlt hget, .inl ⟨rfl, hidle⟩⟩
      · by_cases hmode : ip.iMode = 0
        · obtain ⟨rfl, rfl, hinfo⟩ := hzero hmode
          obtain ⟨k', hrun, hcore'⟩ := ialloc_hit 0 hlist hlt hget hcore hmode
          exact .inl ⟨1, some (_, _), k', hrun, rfl, hlt, ⟨ip, hcore', hmode⟩, .inl hinfo⟩
        · rcases hne hmode with hkeeps | ⟨rfl, rfl, hunused, hfreed⟩
          · exact hrest _ hkeeps fun f => ialloc_miss hlist hlt hget hcore hmode
          · obtain ⟨k', ip', hrun, hcore', hmode'⟩ :=
              ialloc_freed 0 (by rw [hfs]) hlen' hlt hfreed
            refine .inl ⟨2, some (_, _), k', ?_, rfl, hlt, ⟨ip', hcore', hmode'⟩, .inr hunused⟩
            rw [ialloc_miss hlist hlt hget hcore hmode, hrun]

theorem ialloc_reserved_list (hlist : (k.fs dev).fsInode = l) (hall : ∀ n ∈ l, n ≤ rootino)
    (f : ℕ) : ialloc dev (f + l.length) k = ialloc dev f (k.setList dev []) := by
  induction l generalizing k with
  | nil => rw [setList_self hlist, length_nil, add_zero]
  | cons ino l ih =>
    rw [length_cons, ← add_assoc, ialloc_reserved hlist (hall ino mem_cons_self),
      ih (by rw [setList_fs]) fun n hn => hall n (mem_cons_of_mem _ hn), setList_setList]

/-- The inode has a mode, or it is in core and no `iget` of a number on the list takes its slot. -/
def Kernel.Kept (k : Kernel) (dev ino : ℕ) : Prop :=
  (k.info dev ino).diMode ≠ 0 ∨
    ∃ ip, k.incore dev ino = some ip ∧ (ip.iCount ≠ 0 ∨ ∀ n ∈ (k.fs dev).fsInode, n ≤ rootino)

theorem Keeps.not_fresh (h : Keeps (k.setList dev []) k') (hkept : k.Kept dev n)
    (hsame : (∀ n ∈ (k.fs dev).fsInode, n ≤ rootino) → k' = k.setList dev []) :
    ¬k'.Fresh dev n := by
  rintro ⟨hzero, hnone⟩
  rcases hkept with hmode | ⟨ip, hip, hrefs | hall⟩
  · apply hmode
    rw [show k.info dev n = k'.info dev n from (h.info dev n).symm, info_of_none hnone]
    exact hzero
  · rw [h.refs dev n ip hip hrefs] at hnone
    cases hnone
  · rw [hsame hall, show (k.setList dev []).incore dev n = some ip from hip] at hnone
    cases hnone

/-- The search does not note the inodes that are kept. -/
theorem ialloc_emptied (h : k.Ready) (hlen : (k.fs dev).fsInode.length ≤ nicinod)
    (hbusy : ∀ n ∈ (k.fs dev).fsInode, rootino < n → ¬k.Busy dev n) :
    (∃ fuel r k', ialloc dev fuel k = some (r, k') ∧ Ends k dev r k') ∨
      ∃ fuel k', Keeps (k.setList dev []) k' ∧ (∀ n, k.Kept dev n → ¬k'.Fresh dev n) ∧
        ∀ f, ialloc dev (f + fuel) k = ialloc dev f k' := by
  by_cases hall : ∀ n ∈ (k.fs dev).fsInode, n ≤ rootino
  · have hkeeps := Keeps.refl (h.setList dev [])
    exact .inr ⟨_, _, hkeeps, fun n hn => hkeeps.not_fresh hn fun _ => rfl,
      ialloc_reserved_list rfl hall⟩
  · rcases ialloc_list h rfl hlen hbusy with hdone | ⟨fuel, k', hkeeps, hrun⟩
    · exact .inl hdone
    · exact .inr ⟨fuel, k', hkeeps, fun n hn => hkeeps.not_fresh hn fun h => absurd h hall, hrun⟩

theorem ialloc_fresh (h : k.Ready) (hlist : (k.fs dev).fsInode = l)
    (hfresh : ∀ n ∈ l, k.Fresh dev n) (hfound : ∃ n ∈ l, rootino < n) :
    ∃ fuel r k', ialloc dev fuel k = some (r, k') ∧ Ends k dev r k' := by
  induction l generalizing k with
  | nil =>
    obtain ⟨n, hn, -⟩ := hfound
    exact absurd hn not_mem_nil
  | cons ino l ih =>
    by_cases hino : ino ≤ rootino
    · have hrest : ∃ n ∈ l, rootino < n := by
        obtain ⟨n, hn, hlt⟩ := hfound
        rcases mem_cons.1 hn with rfl | hn
        · exact absurd hlt (not_lt.2 hino)
        · exact ⟨n, hn, hlt⟩
      obtain ⟨fuel, r, k', hrun, hend⟩ := ih (h.setList dev l) (by rw [setList_fs])
        (fun n hn => hfresh n (mem_cons_of_mem _ hn)) hrest
      exact ⟨fuel + 1, r, k', by rw [ialloc_reserved hlist hino, hrun],
        hend.of_keeps (Keeps.refl (h.setList dev l))⟩
    · have hlt := not_le.1 hino
      obtain ⟨hzero, hnone⟩ := hfresh ino mem_cons_self
      have hnone' : (k.setList dev l).incore dev ino = none := hnone
      have hfree : ∀ ip, (k.setList dev l).incore dev ino = some ip →
          ip.locked = false ∧ ip.mounted = none := by
        intro ip hip
        rw [hnone'] at hip
        cases hip
      rcases turn_spec nmount (h.setList dev l) hfree with ⟨hget, hidle⟩
        | ⟨k₁, ip, hget, -, hcore, hmode, -⟩
      · exact ⟨1, none, _, ialloc_full hlist hlt hget, .inl ⟨rfl, hidle⟩⟩
      · have hinfo : (k.info dev ino).diMode = 0 := by
          rw [info_of_none hnone]
          exact hzero
        obtain ⟨k', hrun, hcore'⟩ := ialloc_hit 0 hlist hlt hget hcore (hmode.trans hinfo)
        exact ⟨1, some (dev, ino), k', hrun, rfl, hlt, ⟨ip, hcore', hmode.trans hinfo⟩, .inl hinfo⟩

theorem refill_same (k : Kernel) (dev : ℕ) :
    ∃ fs, refill k dev = k.setFs dev fs ∧ fs.fsIsize = (k.fs dev).fsIsize := by
  rw [refill]
  dsimp only
  split_ifs
  · exact ⟨_, rfl, rfl⟩
  · exact ⟨_, rfl, rfl⟩
  · exact ⟨_, rfl, rfl⟩

theorem Ends.of_refill {fs : Superblock} {r : Option (ℕ × ℕ)} (h : Ends (refill k dev) dev r k')
    (hrefill : refill k dev = k.setFs dev fs) (hisize : fs.fsIsize = (k.fs dev).fsIsize) :
    Ends k dev r k' := by
  rw [hrefill] at h
  cases r with
  | none =>
    rcases h with hfull | ⟨herr, hnone⟩
    · exact .inl hfull
    · refine .inr ⟨herr, ?_⟩
      intro n hn hsize hfresh
      refine hnone n hn ?_ hfresh
      rw [setFs_fs, hisize]
      exact hsize
  | some x => exact h

/-- Every call ends. It returns an inode above `ROOTINO` that was free if there is one on the
device that is not in core; it fails with `ENFILE` when all slots of the table in core have
references, and with `ENOSPC` when there is no such inode. When there is none, the reserved inodes
have to be kept: `ialloc_spins` says what happens otherwise. -/
theorem ialloc_complete (h : k.Ready) (hlen : (k.fs dev).fsInode.length ≤ nicinod)
    (hlasti : (k.fs dev).fsLasti % inopb = 1)
    (hbusy : ∀ n ∈ (k.fs dev).fsInode, rootino < n → ¬k.Busy dev n)
    (hreserved : (∃ n, rootino < n ∧ itod n < (k.fs dev).fsIsize ∧ k.Fresh dev n) ∨
      k.Kept dev 1 ∧ k.Kept dev 2) :
    ∃ fuel r k', ialloc dev fuel k = some (r, k') ∧ Ends k dev r k' := by
  rcases ialloc_emptied h hlen hbusy with hdone | ⟨fuel, k₁, hkeeps, hkept, hrun⟩
  · exact hdone
  have hfs : k₁.fs dev = ⟨(k.fs dev).fsIsize, [], (k.fs dev).fsLasti, (k.fs dev).fsNbehind,
      (k.fs dev).fsTinode, (k.fs dev).fsRonly, (k.fs dev).fsFmod⟩ := by rw [hkeeps.fs, setList_fs]
  have hlasti₁ : (k₁.fs dev).fsLasti % inopb = 1 := by
    rw [hfs]
    exact hlasti
  have hempty : (k₁.fs dev).fsInode = [] := by rw [hfs]
  obtain ⟨fs, hrefill, hisize⟩ := refill_same k₁ dev
  by_cases hnone : ((refill k₁ dev).fs dev).fsInode = []
  · refine ⟨1 + fuel, none, (refill k₁ dev).setError enospc, ?_, ?_⟩
    · rw [hrun, ialloc, hempty]
      exact if_pos hnone
    · refine Ends.of_keeps hkeeps (.inr ⟨rfl, ?_⟩)
      intro n hn hsize hfresh
      obtain ⟨m, hm, -⟩ := refill_found hlasti₁ hempty hn hsize hfresh
      rw [hnone] at hm
      exact not_mem_nil hm
  · have hfresh := refill_fresh hlasti₁ hempty
    have hfound : ∃ m ∈ ((refill k₁ dev).fs dev).fsInode, rootino < m := by
      rcases hreserved with ⟨n, hn, hsize, hn'⟩ | ⟨hone, htwo⟩
      · refine refill_found hlasti₁ hempty hn ?_ (hkeeps.fresh hn')
        rw [hfs]
        exact hsize
      · -- neither of the reserved inodes is free
        obtain ⟨m, hm⟩ := exists_mem_of_ne_nil _ hnone
        refine ⟨m, hm, ?_⟩
        obtain ⟨hpos, -, hm'⟩ := hfresh m hm
        by_contra hle
        have hcases : m = 1 ∨ m = 2 := by
          simp only [rootino] at hle
          omega
        rcases hcases with rfl | rfl
        · exact hkept 1 hone hm'
        · exact hkept 2 htwo hm'
    have hready : (refill k₁ dev).Ready := by
      rw [hrefill]
      exact ⟨hkeeps.ready.once, hkeeps.ready.idle_iff, hkeeps.ready.clean, hkeeps.ready.mounts⟩
    have hfresh' : ∀ n ∈ ((refill k₁ dev).fs dev).fsInode, (refill k₁ dev).Fresh dev n := by
      intro n hn
      have hn' := (hfresh n hn).2.2
      rw [hrefill]
      exact hn'
    obtain ⟨fuel', r, k', hrun', hend⟩ := ialloc_fresh hready rfl hfresh' hfound
    refine ⟨fuel' + 1 + fuel, r, k', ?_, Ends.of_keeps hkeeps (hend.of_refill hrefill hisize)⟩
    rw [hrun, ialloc, hempty]
    rw [if_neg hnone, hrun']

/-- When only reserved inodes are free the call never ends: the search notes them and they are
dropped. -/
theorem ialloc_spins (hlasti : (k.fs dev).fsLasti % inopb = 1)
    (hlist : ∀ n ∈ (k.fs dev).fsInode, n ≤ rootino)
    (hisize : 1 < (k.fs dev).fsIsize) (hone : ∃ n, 0 < n ∧ n ≤ rootino ∧ k.Fresh dev n)
    (hnone : ∀ n, rootino < n → itod n < (k.fs dev).fsIsize → ¬k.Fresh dev n) (fuel : ℕ) :
    ialloc dev fuel k = none := by
  induction fuel generalizing k with
  | zero => rfl
  | succ fuel ih =>
    cases hl : (k.fs dev).fsInode with
    | cons n l =>
      rw [hl] at hlist
      rw [ialloc_reserved hl (hlist n mem_cons_self)]
      apply ih
      · rw [setList_fs]
        exact hlasti
      · rw [setList_fs]
        exact fun m hm => hlist m (mem_cons_of_mem _ hm)
      · rw [setList_fs]
        exact hisize
      · exact hone
      · rw [setList_fs]
        exact hnone
    | nil =>
      obtain ⟨fs, hrefill, hsame⟩ := refill_same k dev
      have hall : ∀ m ∈ ((refill k dev).fs dev).fsInode, m ≤ rootino := by
        intro m hm
        obtain ⟨-, hsize, hfresh⟩ := refill_fresh hlasti hl m hm
        by_contra hlt
        exact hnone m (not_le.1 hlt) hsize hfresh
      obtain ⟨n, hpos, hn, hfresh⟩ := hone
      have hsize : itod n < (k.fs dev).fsIsize := by
        simp only [itod, inopb, rootino] at *
        omega
      have hmem := refill_all hlasti hl hpos hsize hfresh (refill_few hlasti hl hall)
      have hne : ((refill k dev).fs dev).fsInode ≠ [] := ne_nil_of_mem hmem
      obtain ⟨_, _, _, _, hlasti', -⟩ := refill_spec hlasti hl
      replace hlasti' := hlasti' hisize
      rw [ialloc, hl]
      rw [if_neg hne]
      rw [hrefill] at hall hlasti' ⊢
      apply ih hlasti' hall
      · rw [setFs_fs, hsame]
        exact hisize
      · exact ⟨n, hpos, hn, hfresh⟩
      · rw [setFs_fs, hsame]
        exact hnone

/-- A volume with one block of inodes, of which those of `used` are in use. -/
def volume (used : ℕ → Bool) (list : List ℕ) (incore : ℕ → ℕ → Option Inode)
    (idle : List (Option (ℕ × ℕ))) : Kernel :=
  ⟨fun _ => ⟨2, list, 1, 0, 0, false, false⟩,
    fun _ adr i => if adr = 1 ∧ used (i + 1) then ⟨0o100644, 1⟩ else ⟨0, 0⟩, incore, idle, 0⟩

/-- All inodes are in use but number 5, and nothing is in core. -/
theorem ialloc_complete_five :
    let k := volume (· != 5) [] (fun _ _ => none) [none]
    (ialloc 0 2 k).map Prod.fst = some (some (0, 5)) ∧
      ∃ fuel r k', ialloc 0 fuel k = some (r, k') ∧ Ends k 0 r k' := by
  intro k
  have hready : k.Ready := by
    refine ⟨fun x => zero_le 1, ?_, ?_, ?_⟩
    · intro d n
      refine iff_of_false (fun hmem => ?_) (by rintro ⟨ip, hip, -⟩; cases hip)
      cases mem_singleton.1 hmem
    · intro d n ip hip
      cases hip
    · intro d n ip m hip
      cases hip
  have hfive : k.Fresh 0 5 := by decide +kernel
  refine ⟨by decide +kernel, ialloc_complete hready (by decide) (by decide) ?_
    (.inl ⟨5, by decide, by decide, hfive⟩)⟩
  intro n hn
  exact absurd hn not_mem_nil

/-- All slots of the table in core have references: the call fails although inode 5 is free.
Inode 5 is noted and still in core: it is returned although it is not on the device only.
Inode 1 is the only one free: the search notes it again and again. -/
theorem ialloc_outcomes :
    (let k := volume (· != 5) [] (fun d n => if d = 1 ∧
      n < 24 then some ⟨0o100644, 1, 1, false, none, false⟩ else none) []
     k.Fresh 0 5 ∧ (ialloc 0 2 k).map (fun r => (r.1, r.2.uError)) = some (none, enfile)) ∧
    (let k := volume (· != 5) [5] (fun d n => if d = 0 ∧
      n = 5 then some ⟨0, 0, 0, false, none, false⟩ else none)
        [some (0, 5)]
     (∀ n, rootino < n → itod n < (k.fs 0).fsIsize → ¬k.Fresh 0 n) ∧
       (ialloc 0 1 k).map Prod.fst = some (some (0, 5))) ∧
    ∀ fuel, ialloc 0 fuel (volume (· != 1) [] (fun _ _ => none) [none]) = none := by
  refine ⟨⟨by decide +kernel, by decide +kernel⟩, ⟨?_, by decide +kernel⟩, ?_⟩
  · intro n hn hsize
    have hlt : n < 17 := by
      change (n + 16 - 1) / 16 < 2 at hsize
      omega
    have hall : ∀ n < 17, rootino < n → ¬(volume (· != 5) [5]
        (fun d n => if d = 0 ∧ n = 5 then some ⟨0, 0, 0, false, none, false⟩ else none)
          [some (0, 5)]).Fresh 0 n := by
      decide +kernel
    exact hall n hlt hn
  · have hall : ∀ n < 17, rootino < n → ¬(volume (· != 1) [] (fun _ _ => none) [none]).Fresh
        0 n := by
      decide +kernel
    refine ialloc_spins (by decide) (fun n hn => absurd hn not_mem_nil) (by decide)
      ⟨1, by decide +kernel⟩ ?_
    intro n hn hsize
    refine hall n ?_ hn
    change (n + 16 - 1) / 16 < 2 at hsize
    omega

end RetroBSD.Ialloc
