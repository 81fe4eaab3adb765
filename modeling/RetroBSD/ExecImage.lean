import RetroBSD.MemoryWrites

/-!
# Loading an executable image

`exec_aout_check` and `exec_elf_check` with the routines of `exec_subr.c` they call.
Each collects the argument and environment strings in at most `MAXALLOCBUF` buffers,
lays out the sections of the image, has `exec_estab` accept or refuse the layout, reads
the file, clears the bss and the stack and copies the strings to the top of the stack.

The fields of the header and of the sections are 32-bit unsigned integers and addresses
wrap around. The argument vector is the one that is saved, for a script the one with the
name of the interpreter in front. Credentials, signals, the open files and the
registers that are cleared are left out.
-/

namespace RetroBSD.Exec

open LittleEndian MemoryWrites UInt32

def nbpw : ℕ := 4

def ssize : UInt32 := 2048

def maxmem : UInt32 := 98304

def userDataStart : UInt32 := 0x7f008000

def userDataEnd : UInt32 := 0x7f020000

def noAddr : UInt32 := 0xffffffff

def maxbsize : ℕ := 1024

def maxallocbuf : ℕ := 6

def enoent : ℕ := 2
def eio : ℕ := 5
def enoexec : ℕ := 8
def enomem : ℕ := 12

def roundup (x y : ℕ) : ℕ := (x + (y - 1)) / y * y

/-- The characters of a string in front of its null. -/
abbrev CString := {s : List UInt8 // (0 : UInt8) ∉ s}

def CString.size (s : CString) : ℕ := s.val.length + 1

structure Memsect where
  vaddr : UInt32
  len : UInt32
  deriving DecidableEq

/-- The `exec_params`: the strings saved, the number of their characters, and the sections. -/
structure ExecParams where
  argp : List CString
  envp : List CString
  argc : UInt16
  envc : UInt16
  argbc : UInt16
  envbc : UInt16
  text : Memsect
  data : Memsect
  bss : Memsect
  heap : Memsect
  stack : Memsect

/-! ## Saving the arguments -/

def execAlloc (size ru : ℕ) : List ℕ → Option (List ℕ)
  | [] => none
  | fill :: fills =>
    let start := if ru ≤ 1 then fill else roundup fill ru
    if start + size ≤ maxbsize then some ((start + size) :: fills)
    else (execAlloc size ru fills).map (fill :: ·)

/-- Copies of the strings, up to the first that finds no room: those saved, the buffers,
and whether all were saved. -/
def saveStrings : List ℕ → List CString → List CString × List ℕ × Bool
  | fills, [] => ([], fills, true)
  | fills, s :: strs =>
    match execAlloc s.size 1 fills with
    | none => ([], fills, false)
    | some fills =>
      let r := saveStrings fills strs
      (s :: r.1, r.2)

def saveVector (fills : List ℕ) (strs : List CString) : List CString × List ℕ × Bool :=
  if strs = [] then ([], fills, true)
  else
    match execAlloc (strs.length * nbpw) nbpw fills with
    | none => ([], fills, false)
    | some fills => saveStrings fills strs

def charCount (strs : List CString) : ℕ := (strs.map CString.size).sum

/-- `exec_save_args`. It returns early when there is no more room. -/
def execSaveArgs (fills : List ℕ) (args env : List CString) (epp : ExecParams) : ExecParams :=
  let a := saveVector fills args
  let e := if a.2.2 then (saveVector a.2.1 env).1 else []
  { epp with
    argp := a.1
    envp := e
    argc := UInt16.ofNat a.1.length
    envc := UInt16.ofNat e.length
    argbc := UInt16.ofNat (charCount a.1)
    envbc := UInt16.ofNat (charCount e) }

/-! ## Laying out the sections -/

def noSect : Memsect := ⟨noAddr, 0⟩

def ExecParams.zero : ExecParams :=
  ⟨[], [], 0, 0, 0, 0, ⟨0, 0⟩, ⟨0, 0⟩, ⟨0, 0⟩, ⟨0, 0⟩, ⟨0, 0⟩⟩

structure ExecHdr where
  aMidmag : UInt32
  aText : UInt32
  aData : UInt32
  aBss : UInt32
  aEntry : UInt32

def nGetmagic (ex : ExecHdr) : UInt32 := ex.aMidmag &&& 0x0000ffff

def nGetmid (ex : ExecHdr) : UInt32 := (ex.aMidmag &&& 0x03ff0000) >>> 16

def nGetflag (ex : ExecHdr) : UInt32 := (ex.aMidmag &&& 0xfc000000) <<< 26

def omagic : UInt32 := 0o407

/-- The layout of an a.out image. The text is part of the data. -/
def aoutLayout (ex : ExecHdr) (epp : ExecParams) : ExecParams :=
  let data : Memsect := ⟨userDataStart, ex.aData + ex.aText⟩
  let bss : Memsect := ⟨data.vaddr + data.len, ex.aBss⟩
  let len := ssize + ofNat (roundup (epp.argbc.toNat + epp.envbc.toNat) nbpw) +
    ofNat ((epp.argc.toNat + epp.envc.toNat + 4) * nbpw)
  { epp with
    text := noSect
    data := data
    bss := bss
    heap := ⟨bss.vaddr + bss.len, 0⟩
    stack := ⟨userDataEnd - len, len⟩ }

structure ElfEhdr where
  eIdent : List UInt8
  eType : UInt16
  eMachine : UInt16
  eVersion : UInt32
  eEntry : UInt32
  ePhoff : UInt32
  ePhentsize : UInt16
  ePhnum : UInt16
  eShentsize : UInt16
  eShnum : UInt16

def elfident : List UInt8 := [0x7f, 0x45, 0x4c, 0x46, 1, 1, 1, 0, 0]

def etExec : UInt16 := 2

def emMips : UInt16 := 8

def evCurrent : UInt32 := 1

structure ElfPhdr where
  pType : UInt32
  pOffset : UInt32
  pVaddr : UInt32
  pFilesz : UInt32
  pMemsz : UInt32
  pFlags : UInt32

def ptLoad : UInt32 := 1

def pfRwx : UInt32 := 7

def elfLayout (ph : ElfPhdr) (epp : ExecParams) : ExecParams :=
  let len := ssize + ofNat (epp.argbc.toNat + epp.envbc.toNat) +
    ofNat ((epp.argc.toNat + epp.envc.toNat + 4) * nbpw)
  let bss : Memsect := ⟨ph.pVaddr + ph.pFilesz, ph.pMemsz - ph.pFilesz⟩
  { epp with
    text := noSect
    data := ⟨ph.pVaddr, bss.vaddr - ph.pVaddr⟩
    bss := bss
    heap := ⟨ph.pVaddr + ph.pMemsz, 0⟩
    stack := ⟨userDataEnd - len, len⟩ }

def uroundup (x : UInt32) : UInt32 := (x + 3) / 4 * 4

def execEstab (epp : ExecParams) : ℕ :=
  if epp.text.vaddr ≠ noAddr ∨ epp.data.vaddr = noAddr ∨ epp.data.vaddr ≠ userDataStart ∨
      epp.stack.vaddr ≠ userDataEnd - epp.stack.len then enomem
  else if epp.text.len + epp.data.len + epp.heap.len + epp.stack.len > maxmem then enomem
  else if epp.data.vaddr + epp.data.len > userDataEnd ∨ epp.bss.vaddr + epp.bss.len > userDataEnd then
    enomem
  else if uroundup (epp.data.vaddr + epp.data.len) ≠ uroundup epp.bss.vaddr then enomem
  else 0

/-! ## Filling the memory -/

/-- The bytes `rdwri` reads from a file: none from a negative offset. -/
def rdwri (file : List UInt8) (len offset : UInt32) : List UInt8 :=
  if offset.toNat < 2 ^ 31 then (file.drop offset.toNat).take len.toNat else []

def Memsect.bzero (sect : Memsect) : Write :=
  ⟨sect.vaddr.toNat, List.replicate sect.len.toNat 0⟩

def execClear (epp : ExecParams) : List Write :=
  (if epp.bss.len > 0 then [epp.bss.bzero] else []) ++
    (if epp.heap.len > 0 then [epp.heap.bzero] else []) ++ [epp.stack.bzero]

/-- `copystr` from characters that end in a null: those copied, and whether the null is
among them. -/
def copystr : List UInt8 → ℕ → List UInt8 × Bool
  | c :: src, maxlength + 1 =>
    if c = 0 then ([c], true)
    else if maxlength = 0 then ([c], false)
    else
      let r := copystr src maxlength
      (c :: r.1, r.2)
  | _, _ => ([], false)

/-- A loop of `exec_setupstack`: the vector from `vec` on, and the place for the next
string. -/
def copyStrings (topp : UInt32) : UInt32 → UInt32 → List CString → List Write × UInt32
  | _, ucp, [] => ([], ucp)
  | vec, ucp, s :: strs =>
    let c := copystr (s.val ++ [0]) (topp - ucp).toNat
    let r := copyStrings topp (vec + 4) (if c.2 then ucp + ofNat c.1.length else ucp) strs
    (⟨vec.toNat, wordBytes ucp.toNat⟩ :: ⟨ucp.toNat, c.1⟩ :: r.1, r.2)

structure Frame where
  sp : UInt32
  argc : UInt16
  argp : UInt32
  envp : UInt32
  pc : UInt32

inductive Setup
  | ok (frame : Frame) (writes : List Write)
  | panic

/-- `exec_setupstack`. The pointers to pointers move by four bytes a unit, so `argv`
takes four words for each string and the stack starts 64 bytes below it. -/
def execSetupstack (entry : UInt32) (epp : ExecParams) : Setup :=
  let topp := epp.stack.vaddr + epp.stack.len - 4
  let ucp := topp - ofNat (roundup (epp.envbc.toNat + epp.argbc.toNat) nbpw)
  let envp := ucp - ofNat ((epp.envc.toNat + 1) * nbpw)
  let argp := envp - ofNat ((epp.argc.toNat + 1) * nbpw * nbpw)
  let a := copyStrings topp argp ucp epp.argp
  let e := copyStrings topp envp a.2 epp.envp
  if uroundup e.2 = topp then
    .ok ⟨argp - 64, epp.argc, argp, envp, entry⟩
      (⟨topp.toNat, wordBytes argp.toNat⟩ :: (a.1 ++
        ⟨(argp + ofNat (epp.argc.toNat * nbpw)).toNat, wordBytes 0⟩ :: (e.1 ++
          [⟨(envp + ofNat (epp.envc.toNat * nbpw)).toNat, wordBytes 0⟩])))
  else .panic

/-! ## The two loaders -/

/-- The header that was read, of `hdrLen` bytes, and for an ELF file its first program
header. -/
inductive Image
  | aout (hdrLen : ℕ) (ex : ExecHdr)
  | elf (hdrLen : ℕ) (eh : ElfEhdr) (ph : ElfPhdr)

/-- The parameters that `exec_estab` gets. The ELF loader lays out the stack before it
saves the arguments, after the program header took the first bytes of the buffers. -/
def Image.params (args env : List CString) : Image → ExecParams
  | .aout _ ex => aoutLayout ex (execSaveArgs (List.replicate maxallocbuf 0) args env .zero)
  | .elf _ _ ph => execSaveArgs (32 :: List.replicate (maxallocbuf - 1) 0) args env (elfLayout ph .zero)

/-- What was written before and after the file was read in, and the end of the call. -/
structure Outcome where
  error : ℕ
  fileRead : List Write
  cleared : List Write
  setup : Option Setup

def Outcome.failed (error : ℕ) : Outcome := ⟨error, [], [], none⟩

/-- The checks of a header before the arguments are saved. -/
def Image.recognised : Image → Bool
  | .aout hdrLen ex => 32 ≤ hdrLen && nGetmid ex == 0 && nGetflag ex == 0 && nGetmagic ex == omagic
  | .elf hdrLen eh ph => 52 ≤ hdrLen && eh.eIdent.take 9 == elfident && eh.eType == etExec &&
    eh.eMachine == emMips && eh.eVersion == evCurrent && eh.ePhentsize == 32 && eh.ePhoff != 0 &&
    eh.eShnum != 0 && eh.eShentsize == 40 && eh.ePhnum == 1 && ph.pType == ptLoad && ph.pFlags == pfRwx

def Image.Accepted (args env : List CString) (img : Image) : Prop :=
  img.recognised = true ∧ execEstab (img.params args env) = 0

/-- `exec_aout_check` and `exec_elf_check`. -/
def Image.exec (file : List UInt8) (args env : List CString) (img : Image) : Outcome :=
  if img.recognised = false then .failed enoexec
  else
    let epp := img.params args env
    if execEstab epp ≠ 0 then .failed (execEstab epp)
    else
      match img with
      | .aout _ ex =>
        let chars := rdwri file epp.data.len 32
        let read : List Write := [⟨epp.data.vaddr.toNat, chars⟩]
        if chars.length ≠ epp.data.len.toNat then ⟨eio, read, [], none⟩
        else ⟨0, read, execClear epp, some (execSetupstack ex.aEntry epp)⟩
      | .elf _ eh ph =>
        if ph.pFilesz ≥ ph.pMemsz ∨ ph.pFilesz = 0 ∨
            ¬ (ph.pVaddr ≥ epp.data.vaddr ∧ ph.pVaddr + ph.pFilesz ≤ epp.data.vaddr + epp.data.len) then
          .failed enoexec
        else ⟨0, [⟨ph.pVaddr.toNat, rdwri file ph.pFilesz ph.pOffset⟩], execClear epp,
          some (execSetupstack eh.eEntry epp)⟩

end RetroBSD.Exec
