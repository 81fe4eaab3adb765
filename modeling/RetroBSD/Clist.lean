import RetroBSD.LittleEndian
import RetroBSD.ByteCopy

/-!
# Character lists

The queues of `sys/kernel/tty_subr.c`. Characters are kept in blocks of `CBLOCK`
bytes at multiples of `CBLOCK`, each a pointer to the next block and `CBSIZE`
characters; a queue has a count and pointers to its first character and behind its
last one. All queues take their blocks from one free list. Pointers are addresses,
0 for `NULL`; `p % cblock` is `p & CROUND`. The wakeups of processes that wait for a
free block are left out.
-/

namespace RetroBSD.Tty

open LittleEndian ByteCopy

def cblock : ℕ := 32

def cbsize : ℕ := 28

structure Clist where
  cCc : ℤ
  cCf : ℕ
  cCl : ℕ
  deriving DecidableEq

structure Pool where
  mem : Memory
  cfreelist : ℕ
  cfreecount : ℤ

def cbase (p : ℕ) : ℕ := p / cblock * cblock

def info (bp : ℕ) : ℕ := bp + 4

def Pool.next (s : Pool) (bp : ℕ) : ℕ := word s.mem (bp / 4)

def Pool.setNext (s : Pool) (bp v : ℕ) : Pool := ⟨setWord s.mem (bp / 4) v, s.cfreelist, s.cfreecount⟩

def Pool.release (s : Pool) (bp : ℕ) : Pool :=
  ⟨setWord s.mem (bp / 4) s.cfreelist, bp, s.cfreecount + cbsize⟩

def Pool.take (s : Pool) : Pool :=
  ⟨setWord s.mem (s.cfreelist / 4) 0, s.next s.cfreelist, s.cfreecount - cbsize⟩

def Pool.put (s : Pool) (cp : ℕ) (data : List UInt8) : Pool :=
  ⟨place s.mem cp data, s.cfreelist, s.cfreecount⟩

/-- The character a `char` holds after the assignment of an integer. -/
def charOf (c : ℤ) : UInt8 := UInt8.ofNat (c % 256).toNat

/-- A `char` read as a signed integer. -/
def schar (b : UInt8) : ℤ := if b.toNat < 128 then b.toNat else b.toNat - 256

/-- The last part of `getc` and `q_to_b`: the queue is empty, or the first block is. -/
def passFront (s : Pool) (p : Clist) : Pool × Clist :=
  if p.cCc ≤ 0 then (s.release (cbase (p.cCf - 1)), ⟨p.cCc, 0, 0⟩)
  else if p.cCf % cblock = 0 then
    (s.release (p.cCf - cblock), ⟨p.cCc, info (s.next (p.cCf - cblock)), p.cCl⟩)
  else (s, p)

def getc (s : Pool) (p : Clist) : ℤ × Pool × Clist :=
  if p.cCc ≤ 0 then (-1, s, ⟨0, 0, 0⟩)
  else
    let r := passFront s ⟨p.cCc - 1, p.cCf + 1, p.cCl⟩
    ((s.mem p.cCf).toNat, r.1, r.2)

def qToBLoop : ℕ → Pool → Clist → ℕ → List UInt8 × Pool × Clist
  | 0, s, q, _ => ([], s, q)
  | fuel + 1, s, q, cc =>
    if cc = 0 then ([], s, q)
    else
      let nc := min (min (cblock - q.cCf % cblock) cc) q.cCc.toNat
      let chars := bytes s.mem q.cCf nc
      let r := passFront s ⟨q.cCc - nc, q.cCf + nc, q.cCl⟩
      if q.cCc - nc ≤ 0 then (chars, r.1, r.2)
      else
        let t := qToBLoop fuel r.1 r.2 (cc - nc)
        (chars ++ t.1, t.2)

/-- `q_to_b`: the characters copied to the buffer. -/
def qToB (s : Pool) (q : Clist) (cc : ℤ) : List UInt8 × Pool × Clist :=
  if cc ≤ 0 then ([], s, q)
  else if q.cCc ≤ 0 then ([], s, ⟨0, 0, 0⟩)
  else qToBLoop cc.toNat s q cc.toNat

def flagged (flag : ℤ) (b : UInt8) : Bool := BitVec.ofInt 32 (schar b) &&& BitVec.ofInt 32 flag ≠ 0

def ndqb (s : Pool) (q : Clist) (flag : ℤ) : ℤ :=
  if q.cCc ≤ 0 then -q.cCc
  else
    let cc := min (cbase (q.cCf + cbsize) - q.cCf) q.cCc.toNat
    if flag ≠ 0 then ((bytes s.mem q.cCf cc).findIdx (flagged flag) : ℕ) else cc

def ndflushLoop : ℕ → Pool → Clist → ℤ → Pool × Clist
  | 0, s, q, _ => (s, q)
  | fuel + 1, s, q, cc =>
    if 0 < cc ∧ q.cCc ≠ 0 then
      let bp := cbase q.cCf
      let stop := if bp = cbase (q.cCl - 1) then q.cCl else bp + cblock
      let rem : ℤ := stop - q.cCf
      if rem ≤ cc then
        ndflushLoop fuel (s.release bp) ⟨q.cCc - rem, info (s.next bp), q.cCl⟩ (cc - rem)
      else if q.cCc - cc ≤ 0 then (s.release bp, ⟨q.cCc - cc, q.cCf + cc.toNat, q.cCl⟩)
      else (s, ⟨q.cCc - cc, q.cCf + cc.toNat, q.cCl⟩)
    else (s, q)

def ndflush (s : Pool) (q : Clist) (cc : ℤ) : Pool × Clist :=
  if q.cCc ≤ 0 then (s, q)
  else
    let r := ndflushLoop q.cCc.toNat s q cc
    if r.2.cCc ≤ 0 then (r.1, ⟨0, 0, 0⟩) else r

/-- The part of `putc` and `b_to_q` that finds the last block full: false when there
is no free block. -/
def growTail (s : Pool) (cq : ℕ) : Bool × Pool × ℕ :=
  if cq % cblock = 0 then
    let s := s.setNext (cq - cblock) s.cfreelist
    if s.cfreelist = 0 then (false, s, cq) else (true, s.take, info s.cfreelist)
  else (true, s, cq)

def putc (s : Pool) (c : ℤ) (p : Clist) : ℤ × Pool × Clist :=
  if p.cCl = 0 ∨ p.cCc < 0 then
    if s.cfreelist = 0 then (-1, s, p)
    else
      let cp := info s.cfreelist
      (0, s.take.put cp [charOf c], ⟨p.cCc + 1, cp, cp + 1⟩)
  else
    let r := growTail s p.cCl
    if r.1 then (0, r.2.1.put r.2.2 [charOf c], ⟨p.cCc + 1, p.cCf, r.2.2 + 1⟩) else (-1, r.2.1, p)

/-- The loop of `b_to_q`: the pool, the pointer behind the last character, and the
characters left over. -/
def bToQLoop : ℕ → Pool → ℕ → List UInt8 → Pool × ℕ × List UInt8
  | 0, s, cq, data => (s, cq, data)
  | fuel + 1, s, cq, data =>
    if data = [] then (s, cq, [])
    else
      let r := growTail s cq
      if r.1 then
        let nc := min data.length (cblock - r.2.2 % cblock)
        bToQLoop fuel (r.2.1.put r.2.2 (data.take nc)) (r.2.2 + nc) (data.drop nc)
      else (r.2.1, cq, data)

def bToQ (s : Pool) (data : List UInt8) (q : Clist) : ℕ × Pool × Clist :=
  if data = [] then (0, s, q)
  else if q.cCl = 0 ∨ q.cCc < 0 then
    if s.cfreelist = 0 then (data.length, s, q)
    else
      let r := bToQLoop data.length s.take (info s.cfreelist) data
      (r.2.2.length, r.1, ⟨q.cCc + (data.length - r.2.2.length), info s.cfreelist, r.2.1⟩)
  else
    let r := bToQLoop data.length s q.cCl data
    (r.2.2.length, r.1, ⟨q.cCc + (data.length - r.2.2.length), q.cCf, r.2.1⟩)

def nextc (s : Pool) (p : Clist) (cp : ℕ) : ℕ :=
  if p.cCc ≠ 0 ∧ cp + 1 ≠ p.cCl then
    if (cp + 1) % cblock = 0 then info (s.next (cp + 1 - cblock)) else cp + 1
  else 0

/-- The characters a caller of `nextc` goes through from `cp` on, as `ttyretype` does. -/
def nextcWalk (s : Pool) (p : Clist) : ℕ → ℕ → List UInt8
  | 0, _ => []
  | fuel + 1, cp => if cp = 0 then [] else s.mem cp :: nextcWalk s p fuel (nextc s p cp)

/-- The loop of `unputc`: the block before `last`. -/
def blockBefore (s : Pool) (last : ℕ) : ℕ → ℕ → ℕ
  | 0, bp => bp
  | fuel + 1, bp => if s.next bp = last then bp else blockBefore s last fuel (s.next bp)

def unputc (s : Pool) (p : Clist) : ℤ × Pool × Clist :=
  if p.cCc ≤ 0 then (-1, s, p)
  else
    let cl := p.cCl - 1
    let c := schar (s.mem cl)
    if p.cCc - 1 ≤ 0 then (c, s.release (cbase cl), ⟨p.cCc - 1, 0, 0⟩)
    else if cl % cblock = 4 then
      let obp := blockBefore s (cbase cl) p.cCc.toNat (cbase p.cCf)
      (c, (s.release (s.next obp)).setNext obp 0, ⟨p.cCc - 1, p.cCf, obp + cblock⟩)
    else (c, s, ⟨p.cCc - 1, p.cCf, cl⟩)

def catqLoop : ℕ → Pool → Clist → Clist → Pool × Clist × Clist
  | 0, s, fromq, toq => (s, fromq, toq)
  | fuel + 1, s, fromq, toq =>
    if 0 < fromq.cCc then
      let r := qToB s fromq (cbsize * 4)
      let w := bToQ r.2.1 r.1 toq
      catqLoop fuel w.2.1 r.2.2 w.2.2
    else (s, fromq, toq)

def catq (s : Pool) (fromq toq : Clist) : Pool × Clist × Clist :=
  if toq.cCc = 0 then (s, ⟨0, 0, 0⟩, fromq)
  else catqLoop fromq.cCc.toNat s fromq toq

/-- `cinit`: the blocks of the array `cfree` that lie at multiples of `CBLOCK`. -/
def cinitBlocks (cfree nclist : ℕ) : List ℕ :=
  ((List.range nclist).map fun k => (cfree + (cblock - 1)) / cblock * cblock + cblock * k).filter
    fun cp => cp ≤ cfree + cblock * (nclist - 1)

def cinit (mem : Memory) (cfree nclist : ℕ) : Pool :=
  (cinitBlocks cfree nclist).foldl Pool.release ⟨mem, 0, 0⟩

end RetroBSD.Tty
