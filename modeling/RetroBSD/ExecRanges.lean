import RetroBSD.ExecStack

/-!
# The sections of an accepted image

`exec_estab` adds the lengths of the data and the stack modulo `2 ^ 32` and leaves the
bss out, so it accepts images whose sections overlap or wrap around. They are apart, and
all that the loader writes stays in them, exactly when the three lengths fit the user
memory together and the arguments fit the stack.
-/

namespace RetroBSD.Exec

open LittleEndian ByteCopy MemoryWrites List

def Memsect.Inside (sect : Memsect) : Prop :=
  userDataStart.toNat ≤ sect.vaddr.toNat ∧ sect.vaddr.toNat + sect.len.toNat ≤ userDataEnd.toNat

def Memsect.Apart (a b : Memsect) : Prop :=
  MemoryWrites.Apart a.vaddr.toNat a.len.toNat b.vaddr.toNat b.len.toNat

def Memsect.Holds (sect : Memsect) (w : Write) : Prop :=
  w.Within sect.vaddr.toNat (sect.vaddr.toNat + sect.len.toNat)

/-- The sections are apart, and each write of the loader stays in its section. -/
structure ExecParams.Sound (epp : ExecParams) (o : Outcome) : Prop where
  data : epp.data.Inside
  bss : epp.bss.Inside
  stack : epp.stack.Inside
  dataBss : epp.data.Apart epp.bss
  dataStack : epp.data.Apart epp.stack
  bssStack : epp.bss.Apart epp.stack
  fileRead : ∀ w ∈ o.fileRead, epp.data.Holds w
  cleared : ∀ w ∈ o.cleared, epp.bss.Holds w ∨ epp.stack.Holds w
  setup : ∀ fr ws, o.setup = some (.ok fr ws) → ∀ w ∈ ws, epp.stack.Holds w

/-- The loader goes on after it has read the file: an a.out file has all the bytes of its
sections, an ELF segment has bytes in the file and a bss. -/
def Image.Loads (file : List UInt8) : Image → Prop
  | .aout _ ex => (ex.aData + ex.aText).toNat ≤ file.length - 32
  | .elf _ _ ph => 0 < ph.pFilesz ∧ ph.pFilesz < ph.pMemsz

def Image.Fits (file : List UInt8) (args env : List CString) (img : Image) : Prop :=
  let epp := img.params args env
  epp.data.len.toNat + epp.bss.len.toNat + epp.stack.len.toNat ≤ maxmem.toNat ∧
    (img.Loads file → roundup (charCount epp.envp + charCount epp.argp) nbpw +
      4 * epp.envp.length + 16 * epp.argp.length + 24 ≤ epp.stack.len.toNat)

variable {epp : ExecParams}

theorem execEstab_eq_zero (h : execEstab epp = 0) :
    epp.data.vaddr = userDataStart := by
  rw [execEstab] at h
  split_ifs at h with hplace hsum hend hfollow
  · exact absurd h (by decide)
  · exact absurd h (by decide)
  · exact absurd h (by decide)
  · exact absurd h (by decide)
  · by_contra hne
    exact hplace (.inr (.inr (.inl hne)))

theorem Image.bss_vaddr (args env : List CString) (img : Image) :
    (img.params args env).bss.vaddr = (img.params args env).data.vaddr + (img.params args env).data.len := by
  cases img with
  | aout hdrLen ex => rfl
  | elf hdrLen eh ph =>
    change ph.pVaddr + ph.pFilesz = ph.pVaddr + (ph.pVaddr + ph.pFilesz - ph.pVaddr)
    rw [UInt32.add_comm ph.pVaddr ph.pFilesz, UInt32.add_sub_cancel, UInt32.add_comm]

theorem Image.exec_setup_iff {args env : List CString} {img : Image} (hacc : img.Accepted args env)
    (file : List UInt8) : (img.exec file args env).setup ≠ none ↔ img.Loads file := by
  obtain ⟨hrec, hestab⟩ := hacc
  rw [Image.exec, if_neg (by rw [hrec]; decide)]
  dsimp only
  rw [if_neg (not_not.2 hestab)]
  cases img with
  | aout hdrLen ex =>
    have hlen : (rdwri file (ex.aData + ex.aText) 32).length =
        min (ex.aData + ex.aText).toNat (file.length - 32) := by
      rw [rdwri, if_pos (by decide), length_take, length_drop]
      rfl
    have hdata : ((Image.aout hdrLen ex).params args env).data.len = ex.aData + ex.aText := rfl
    simp only [hdata, hlen, Image.Loads]
    split_ifs with hshort
    · exact iff_of_false (fun h => h rfl) (by omega)
    · exact iff_of_true (Option.some_ne_none _) (by omega)
  | elf hdrLen eh ph =>
    have hdata : ((Image.elf hdrLen eh ph).params args env).data = ⟨ph.pVaddr, ph.pVaddr + ph.pFilesz - ph.pVaddr⟩ :=
      rfl
    have hend : ph.pVaddr + (ph.pVaddr + ph.pFilesz - ph.pVaddr) = ph.pVaddr + ph.pFilesz := by
      rw [UInt32.add_comm ph.pVaddr ph.pFilesz, UInt32.add_sub_cancel, UInt32.add_comm]
    simp only [hdata, hend, Image.Loads]
    split_ifs with hbad
    · refine iff_of_false (fun h => h rfl) fun h => ?_
      rcases hbad with hge | hzero | hout
      · exact absurd h.2 (UInt32.not_lt.2 hge)
      · exact absurd h.1 (by rw [hzero]; decide)
      · exact hout ⟨UInt32.le_refl _, UInt32.le_refl _⟩
    · rw [not_or, not_or] at hbad
      exact iff_of_true (Option.some_ne_none _) ⟨UInt32.pos_iff_ne_zero.2 hbad.2.1, UInt32.not_le.1 hbad.1⟩

theorem Image.heap_len (args env : List CString) (img : Image) : (img.params args env).heap.len = 0 := by
  cases img <;> rfl

/-- Data, bss and stack are apart exactly when their lengths have room together. -/
theorem sections_apart_iff (hdata : epp.data.vaddr = userDataStart)
    (hbss : epp.bss.vaddr = epp.data.vaddr + epp.data.len)
    (hstack : epp.stack.vaddr.toNat + epp.stack.len.toNat = topAddr + 4) (hpos : 0 < epp.stack.len.toNat) :
    (epp.data.Inside ∧ epp.bss.Inside ∧ epp.stack.Inside ∧ epp.data.Apart epp.bss ∧
      epp.data.Apart epp.stack ∧ epp.bss.Apart epp.stack) ↔
      epp.data.len.toNat + epp.bss.len.toNat + epp.stack.len.toNat ≤ maxmem.toNat := by
  have hstart : epp.data.vaddr.toNat = 0x7f008000 := by rw [hdata]; rfl
  have hvaddr : epp.bss.vaddr.toNat = (0x7f008000 + epp.data.len.toNat) % 2 ^ 32 := by
    rw [hbss, UInt32.toNat_add, hstart]
  have h1 : userDataStart.toNat = 0x7f008000 := rfl
  have h2 : userDataEnd.toNat = 0x7f020000 := rfl
  have h3 : maxmem.toNat = 98304 := rfl
  simp only [Memsect.Inside, Memsect.Apart, MemoryWrites.Apart, topAddr] at *
  omega

theorem setupWrites_within (h : epp.Saved) {w : Write} (hw : w ∈ epp.setupWrites) :
    w.Within epp.argAddr (topAddr + 4) := by
  obtain ⟨hchars, hucp, henv, harg, _, _, _⟩ := h.layout
  rw [ExecParams.setupWrites_eq] at hw
  simp only [nbpw] at *
  rcases mem_cons.1 hw with rfl | hw
  · exact ⟨by simp only; omega, le_refl _⟩
  rcases mem_append.1 hw with hw | hw
  · rcases vectorWrites_within hw with hin | hin
    · exact hin.mono (le_refl _) (by simp only [nbpw]; omega)
    · exact hin.mono (by omega) (by omega)
  · rcases vectorWrites_within hw with hin | hin
    · exact hin.mono (by omega) (by simp only [nbpw]; omega)
    · exact hin.mono (by omega) (by omega)

theorem exists_setupWrite_argAddr (epp : ExecParams) : ∃ w ∈ epp.setupWrites, w.addr = epp.argAddr := by
  rw [ExecParams.setupWrites]
  cases hargs : epp.argp with
  | nil => exact ⟨⟨epp.argAddr + 0 * nbpw, wordBytes 0⟩, by simp [stringWrites], by simp⟩
  | cons s strs => exact ⟨⟨epp.argAddr, wordBytes epp.ucp⟩, by simp [stringWrites], rfl⟩

/-- When `exec_estab` accepts an image, its sections are apart in the user memory and the
loader writes only into them exactly when they fit, bss and arguments included. -/
theorem accepted_image_sound_iff (img : Image) (args env : List CString) (file : List UInt8)
    (hacc : img.Accepted args env) :
    (img.params args env).Sound (img.exec file args env) ↔
      img.Fits file args env := by
  obtain ⟨hvaddr, hsum, hlen⟩ := img.stack_params args env
  have hsaved := img.params_saved args env
  obtain ⟨hchars, hucp, henv, harg, _, _, _⟩ := hsaved.layout
  have hpos : 0 < (img.params args env).stack.len.toNat := by
    rw [hlen]
    cases img with
    | aout | elf => simp only; omega
  have hsections := sections_apart_iff (execEstab_eq_zero hacc.2) (img.bss_vaddr args env) hsum hpos
  have hargs : roundup (charCount (img.params args env).envp + charCount (img.params args env).argp) nbpw +
      4 * (img.params args env).envp.length + 16 * (img.params args env).argp.length + 24 ≤
        (img.params args env).stack.len.toNat ↔
      (img.params args env).stack.vaddr.toNat ≤ (img.params args env).argAddr := by
    simp only [nbpw] at *
    omega
  rw [Image.Fits, hargs, ← hsections, ← img.exec_setup_iff hacc]
  constructor
  · intro h
    refine ⟨⟨h.data, h.bss, h.stack, h.dataBss, h.dataStack, h.bssStack⟩, fun hsome => ?_⟩
    obtain ⟨su, hsu⟩ := Option.ne_none_iff_exists'.1 hsome
    obtain ⟨entry, rfl⟩ := img.exec_setup hsu
    obtain ⟨fr, heq, _⟩ := execSetupstack_eq hsaved hvaddr entry
    obtain ⟨w, hw, haddr⟩ := exists_setupWrite_argAddr (img.params args env)
    rw [heq] at hsu
    rw [← haddr]
    exact (h.setup fr _ hsu w hw).1
  · rintro ⟨⟨hdata, hbss, hstack, hdataBss, hdataStack, hbssStack⟩, hsetup⟩
    refine ⟨hdata, hbss, hstack, hdataBss, hdataStack, hbssStack, ?_, ?_, ?_⟩
    · intro w hw
      rcases img.exec_cases file args env with ⟨error, heq⟩ | ⟨_, chars, hchars, heq | ⟨entry, heq⟩⟩
      · rw [heq] at hw
        exact absurd hw not_mem_nil
      all_goals
        rw [heq] at hw
        obtain rfl := mem_singleton.1 hw
        exact ⟨le_refl _, Nat.add_le_add_left hchars _⟩
    · intro w hw
      have hcleared : w ∈ execClear (img.params args env) := by
        rcases img.exec_cases file args env with ⟨error, heq⟩ | ⟨_, chars, hchars, heq | ⟨entry, heq⟩⟩
        · rw [heq] at hw
          exact absurd hw not_mem_nil
        · rw [heq] at hw
          exact absurd hw not_mem_nil
        · rwa [heq] at hw
      rw [execClear, img.heap_len, if_neg (show ¬ (0 : UInt32) > 0 by decide)] at hcleared
      rcases mem_append.1 hcleared with hbzero | hbzero
      · split_ifs at hbzero
        · obtain rfl := mem_singleton.1 hbzero
          exact .inl ⟨le_refl _, by simp [Memsect.bzero]⟩
        · exact absurd hbzero not_mem_nil
      · obtain rfl := mem_singleton.1 hbzero
        exact .inr ⟨le_refl _, by simp [Memsect.bzero]⟩
    · intro fr ws hsu w hw
      obtain ⟨entry, hsetupstack⟩ := img.exec_setup hsu
      obtain ⟨fr', heq, _⟩ := execSetupstack_eq hsaved hvaddr entry
      rw [heq] at hsetupstack
      obtain ⟨rfl, rfl⟩ := Setup.ok.inj hsetupstack
      have hroom := hsetup (by rw [hsu]; exact Option.some_ne_none _)
      exact (setupWrites_within hsaved hw).mono hroom hsum.ge

/-- A header for 16 bytes of data and 32 of bss, with its file. -/
theorem accepted_image_sound_small :
    let img : Image := .aout 32 ⟨omagic, 0, 16, 32, 0⟩
    let args := [emptyString]
    img.Accepted args [] ∧ (img.params args []).Sound (img.exec (List.replicate 48 7) args []) := by
  intro img args
  have hacc : img.Accepted args [] := by
    constructor <;> decide +kernel
  have hfits : img.Fits (List.replicate 48 7) args [] := by
    refine ⟨by decide +kernel, fun _ => by decide +kernel⟩
  exact ⟨hacc, (accepted_image_sound_iff img args [] _ hacc).2 hfits⟩

/-- A bss as large as the user memory is accepted and covers the stack. -/
theorem accepted_bss_covers_stack :
    let img : Image := .aout 32 ⟨omagic, 0, 0, 98304, 0⟩
    img.Accepted [] [] ∧ ¬ (img.params [] []).Sound (img.exec [] [] []) := by
  intro img
  have hacc : img.Accepted [] [] := by
    constructor <;> decide +kernel
  refine ⟨hacc, fun h => ?_⟩
  have hapart := h.bssStack
  simp only [Memsect.Apart, MemoryWrites.Apart] at hapart
  revert hapart
  decide +kernel

end RetroBSD.Exec
