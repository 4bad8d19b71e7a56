import Ddprof.Unwind.Frames
import Mathlib.Order.CompletePartialOrder

/-!
The bias of a module: how far a file is loaded from the addresses in its program headers.

`compute_elf_bias` is given one address of one mapping of the file. It looks for the segment that
the address is in by its place in the file, and compares the addresses of the mapping with those of
the segment. The bias is kept with the module, and all frames in the file use it, whichever of its
segments they are in.
-/

namespace Ddprof

/-! ### Files -/

inductive ElfType
  | exec
  | core
  | dyn
  | other (value : ℕ)
  deriving DecidableEq, Repr

inductive PhdrType
  | load
  | other (value : ℕ)
  deriving DecidableEq, Repr

structure Phdr where
  pType : PhdrType
  pOffset : ℕ
  pVaddr : ℕ
  pFilesz : ℕ
  pFlags : ℕ := 0
  deriving DecidableEq, Repr

/-- What libelf answers: `gelf_getehdr`, and `gelf_getphdr` for each index below the number of
headers if `elf_getphdrnum` finds it. -/
structure Elf where
  eType : Option ElfType
  phdrs : Option (List (Option Phdr))

structure Segment where
  addr : ℕ
  offset : ℕ
  prot : ℕ
  deriving DecidableEq, Repr

inductive ElfError
  | invalidElf
  | noMatchingLoadSegment
  deriving DecidableEq, Repr

/-- `PF_X`, `PF_W` and `PF_R` are the bits 0, 1 and 2; `PROT_READ` and `PROT_EXEC` have the bits 0
and 2. -/
def elfFlagsToProt (flags : ℕ) : ℕ :=
  (if flags.testBit 0 then 4 else 0) ||| (if flags.testBit 1 then 2 else 0) |||
    (if flags.testBit 2 then 1 else 0)

namespace Phdr

/-- The offset is in the file range of the segment; the end of the range is a 64-bit sum. -/
def Covers (ph : Phdr) (fileOffset : ℕ) : Prop :=
  ph.pType = .load ∧ ph.pOffset ≤ fileOffset ∧ fileOffset < (ph.pOffset + ph.pFilesz) % addrSpace

instance (ph : Phdr) (fileOffset : ℕ) : Decidable (ph.Covers fileOffset) :=
  inferInstanceAs (Decidable (_ ∧ _))

/-- The part of the file that the segment takes its contents from. -/
def fileRange (ph : Phdr) : Set ℕ := Set.Ico ph.pOffset (ph.pOffset + ph.pFilesz)

def segment (ph : Phdr) : Segment := ⟨ph.pVaddr, ph.pOffset, elfFlagsToProt ph.pFlags⟩

end Phdr

/-- The loop of `find_elf_segment` over the program headers. -/
def findPhdr (fileOffset : ℕ) : List (Option Phdr) → Except ElfError Segment
  | [] => .error .noMatchingLoadSegment
  | none :: _ => .error .invalidElf
  | some ph :: rest => if ph.Covers fileOffset then .ok ph.segment else findPhdr fileOffset rest

def findElfSegment (elf : Elf) (fileOffset : ℕ) : Except ElfError Segment :=
  match elf.eType, elf.phdrs with
  | none, _ => .error .invalidElf
  | some (.other _), _ => .error .invalidElf
  | some _, none => .error .invalidElf
  | some _, some phdrs => findPhdr fileOffset phdrs

def wrapSub (a b : ℕ) : ℕ := (a + addrSpace - b) % addrSpace

def computeElfBias (elf : Elf) (dso : Dso) (pc : ℕ) : Except ElfError ℕ :=
  match findElfSegment elf (dso.fileOffset pc) with
  | .error e => .error e
  | .ok segment =>
    .ok (wrapSub (wrapSub dso.start dso.offset) (wrapSub segment.addr segment.offset))

/-- The address in the file that `add_unsymbolized_frame` gives to a frame. -/
def DDProfMod.elfAddr (ddprofMod : DDProfMod) (pc : ℕ) : ℕ := wrapSub pc ddprofMod.symBias

/-! ### Loading -/

def pageFloor (pageSize n : ℕ) : ℕ := n - n % pageSize

/-- A file that the loader accepts: it has a type that can be loaded, its segments have file ranges
of their own, which are in the file, and their addresses and offsets agree within a page. -/
structure Loadable (elf : Elf) (phdrs : List Phdr) (pageSize : ℕ) : Prop where
  eType : elf.eType = some .exec ∨ elf.eType = some .dyn
  phdrs_eq : elf.phdrs = some (phdrs.map some)
  in_file : ∀ ph ∈ phdrs, ph.pType = .load → ph.pOffset + ph.pFilesz < addrSpace
  apart : phdrs.Pairwise fun ph ph' => ph.pType = .load → ph'.pType = .load →
    Disjoint ph.fileRange ph'.fileRange
  congruent : ∀ ph ∈ phdrs, ph.pType = .load → ph.pVaddr % pageSize = ph.pOffset % pageSize

structure MapsSegment (pageSize base : ℕ) (ph : Phdr) (dso : Dso) : Prop where
  start : dso.start = (base + pageFloor pageSize ph.pVaddr) % addrSpace
  offset : dso.offset = pageFloor pageSize ph.pOffset

def Phdr.loadedAt (base : ℕ) (ph : Phdr) (i : ℕ) : ℕ := (base + (ph.pVaddr + i)) % addrSpace

theorem findPhdr_eq_segment {phdrs : List Phdr} {ph : Phdr} {n : ℕ} (hmem : ph ∈ phdrs)
    (hcovers : ph.Covers n) (honly : ∀ ph' ∈ phdrs, ph'.Covers n → ph' = ph) :
    findPhdr n (phdrs.map some) = .ok ph.segment := by
  induction phdrs with
  | nil => cases hmem
  | cons head rest ih =>
    rw [List.map_cons, findPhdr]
    split_ifs with hhead
    · rw [honly head List.mem_cons_self hhead]
    · have hrest : ph ∈ rest := by
        rcases List.mem_cons.mp hmem with rfl | hrest
        · exact absurd hcovers hhead
        · exact hrest
      exact ih hrest fun ph' hph' => honly ph' (List.mem_cons_of_mem _ hph')

section Loaded

variable {elf : Elf} {phdrs : List Phdr} {pageSize base : ℕ} {ph : Phdr} {dso : Dso} {i : ℕ}

theorem Loadable.covers_iff (h : Loadable elf phdrs pageSize) (hmem : ph ∈ phdrs)
    (hload : ph.pType = .load) (n : ℕ) :
    ph.Covers n ↔ n ∈ ph.fileRange := by
  rw [Phdr.Covers, Nat.mod_eq_of_lt (h.in_file ph hmem hload)]
  exact and_iff_right hload

theorem Loadable.eq_of_covers (h : Loadable elf phdrs pageSize) {ph' : Phdr} (hmem : ph ∈ phdrs)
    (hmem' : ph' ∈ phdrs) {n : ℕ} (hcovers : ph.Covers n) (hcovers' : ph'.Covers n) : ph' = ph := by
  by_contra hne
  have hsymm : Std.Symm fun ph ph' : Phdr => ph.pType = .load → ph'.pType = .load →
      Disjoint ph.fileRange ph'.fileRange :=
    ⟨fun _ _ hapart hload hload' => (hapart hload' hload).symm⟩
  have hapart := List.Pairwise.forall h.apart hmem' hmem hne hcovers'.1 hcovers.1
  exact Set.disjoint_left.mp hapart ((h.covers_iff hmem' hcovers'.1 n).mp hcovers')
    ((h.covers_iff hmem hcovers.1 n).mp hcovers)

/-- The place in the file of an address of the mapping. Rounding takes the same from the address
and from the offset of the segment. -/
theorem MapsSegment.fileOffset_loadedAt (hdso : MapsSegment pageSize base ph dso)
    (hcongr : ph.pVaddr % pageSize = ph.pOffset % pageSize)
    (hi : ph.pOffset + i < addrSpace) :
    dso.fileOffset (ph.loadedAt base i) = ph.pOffset + i := by
  have hvaddr := Nat.mod_le ph.pVaddr pageSize
  have hoffset := Nat.mod_le ph.pOffset pageSize
  rw [Dso.fileOffset, Phdr.loadedAt, hdso.start, hdso.offset, pageFloor, pageFloor]
  rw [hcongr] at hvaddr ⊢
  generalize ph.pOffset % pageSize = r at hvaddr hoffset
  simp only [addrSpace] at hi ⊢
  omega

theorem MapsSegment.wrapSub_eq (hdso : MapsSegment pageSize base ph dso)
    (hcongr : ph.pVaddr % pageSize = ph.pOffset % pageSize) (hoffset : ph.pOffset < addrSpace) :
    wrapSub (wrapSub dso.start dso.offset) (wrapSub ph.pVaddr ph.pOffset) = base % addrSpace := by
  have hvaddr := Nat.mod_le ph.pVaddr pageSize
  have hle := Nat.mod_le ph.pOffset pageSize
  rw [wrapSub, wrapSub, wrapSub, hdso.start, hdso.offset, pageFloor, pageFloor]
  rw [hcongr] at hvaddr ⊢
  generalize ph.pOffset % pageSize = r at hvaddr hle
  simp only [addrSpace] at hoffset ⊢
  omega

theorem wrapSub_loadedAt (base : ℕ) (ph : Phdr) (i : ℕ) :
    wrapSub (ph.loadedAt base i) (base % addrSpace) = (ph.pVaddr + i) % addrSpace := by
  simp only [wrapSub, Phdr.loadedAt, addrSpace]
  omega

/-- For an address in the file-backed part of any segment, the bias is the base address. So with a
module that is registered at this address, each address in the file-backed part of any segment
leads to the address that the file gives to it. -/
theorem computeElfBias_base (h : Loadable elf phdrs pageSize) (hmem : ph ∈ phdrs)
    (hload : ph.pType = .load) (hdso : MapsSegment pageSize base ph dso) (hi : i < ph.pFilesz)
    (buildId : List Char) :
    computeElfBias elf dso (ph.loadedAt base i) = .ok (base % addrSpace) ∧
      ∀ ph' ∈ phdrs, ph'.pType = .load → ∀ i' < ph'.pFilesz,
        (DDProfMod.mk (base % addrSpace) buildId).elfAddr (ph'.loadedAt base i') =
          (ph'.pVaddr + i') % addrSpace := by
  refine ⟨?_, fun ph' _ _ i' _ => wrapSub_loadedAt base ph' i'⟩
  have hfile := h.in_file ph hmem hload
  have hcongr := h.congruent ph hmem hload
  have hcovers : ph.Covers (ph.pOffset + i) :=
    (h.covers_iff hmem hload _).mpr ⟨Nat.le_add_right _ _, by omega⟩
  have hsegment : findElfSegment elf (ph.pOffset + i) = .ok ph.segment := by
    have hfind := findPhdr_eq_segment hmem hcovers fun ph' hmem' hcovers' =>
      h.eq_of_covers hmem hmem' hcovers hcovers'
    rcases h.eType with heType | heType
    · rw [findElfSegment, heType, h.phdrs_eq]
      exact hfind
    · rw [findElfSegment, heType, h.phdrs_eq]
      exact hfind
  rw [computeElfBias, hdso.fileOffset_loadedAt hcongr (by omega), hsegment]
  exact congrArg Except.ok (hdso.wrapSub_eq hcongr (by omega))

end Loaded

/-- A library with a segment of constants, one of code, and one of data whose address is a page
further from its offset; the note is no segment. -/
def libraryPhdrs : List Phdr :=
  [{ pType := .other 4, pOffset := 0x200, pVaddr := 0x200, pFilesz := 0x24 },
    { pType := .load, pOffset := 0, pVaddr := 0, pFilesz := 0x5f0, pFlags := 4 },
    { pType := .load, pOffset := 0x5f0, pVaddr := 0x15f0, pFilesz := 0x800, pFlags := 5 },
    { pType := .load, pOffset := 0xdf0, pVaddr := 0x2df0, pFilesz := 0x100, pFlags := 6 }]

def libraryElf : Elf where
  eType := some .dyn
  phdrs := some (libraryPhdrs.map some)

def libraryBase : ℕ := 0x7f0000000000

def libraryCode : Dso :=
  { Dso.invalid with start := 0x7f0000001000, endAddr := 0x7f0000001fff }

theorem libraryElf_loadable : Loadable libraryElf libraryPhdrs 0x1000 where
  eType := .inr rfl
  phdrs_eq := rfl
  in_file := by decide +kernel
  apart := by simp [libraryPhdrs, Phdr.fileRange, Set.Ico_disjoint_Ico]
  congruent := by decide

theorem computeElfBias_libraryCode :
    computeElfBias libraryElf libraryCode (Phdr.loadedAt libraryBase
        ⟨.load, 0x5f0, 0x15f0, 0x800, 5⟩ 0x60) = .ok (libraryBase % addrSpace) ∧
      ∀ ph' ∈ libraryPhdrs, ph'.pType = .load → ∀ i' < ph'.pFilesz,
        (DDProfMod.mk (libraryBase % addrSpace) []).elfAddr (ph'.loadedAt libraryBase i') =
          (ph'.pVaddr + i') % addrSpace :=
  computeElfBias_base libraryElf_loadable (by decide) rfl ⟨by decide +kernel, by decide +kernel⟩
    (by decide) []

end Ddprof
