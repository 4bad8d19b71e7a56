import Ddprof.Lib.Circular
import Mathlib.Tactic

/-!
The registers of a sample and the memory that libdwfl may read while it unwinds, on x86-64.

Two numberings of the registers meet here. The kernel delivers the registers in the order of
`perf_regs.h`, which is also the order of `initial_regs`. DWARF has an order of its own, and
`dwarf_to_perf_regno` goes from the one to the other. libdwfl knows DWARF numbers only:
`set_initial_registers` hands it the registers in the DWARF order, and the patched `expr_eval`
passes the DWARF number of the register that it restores to `memory_read`.
-/

namespace Ddprof

open Circular (leBytes leWord leBytes_leWord leWord_lt)

/-- `PERF_ARCHMAP_X86`: the registers in the order of the kernel. -/
inductive PerfReg
  | rax | rbx | rcx | rdx | rsi | rdi | rbp | rsp | rip | fl | cs | ss
  | r8 | r9 | r10 | r11 | r12 | r13 | r14 | r15
  deriving DecidableEq, Repr

def kPerfRegisterCount : ℕ := 20

/-- The position in `initial_regs`. -/
def PerfReg.index (r : PerfReg) : Fin kPerfRegisterCount := ⟨r.ctorIdx, by cases r <;> decide⟩

/-- The table of `dwarf_to_perf_regno`. -/
def dwarfRegs : List PerfReg :=
  [.rax, .rdx, .rcx, .rbx, .rsi, .rdi, .rbp, .rsp, .r8, .r9, .r10, .r11, .r12, .r13, .r14, .r15,
    .rip]

/-- `none` is the sentinel `-1U`. -/
def dwarfToPerfRegno (i : ℕ) : Option (Fin kPerfRegisterCount) := (dwarfRegs[i]?).map PerfReg.index

/-- What `memory_read` uses of the state of the unwinding: the sampled registers and stack, and
the number of frames found so far. -/
structure UnwindState where
  initialRegs : Fin kPerfRegisterCount → BitVec 64
  stack : List (BitVec 8)
  locs : ℕ

def UnwindState.sp (us : UnwindState) : BitVec 64 := us.initialRegs PerfReg.rsp.index

/-- The loop of `set_initial_registers`: the registers in the order of their DWARF numbers, up
to the first number that is not mapped. -/
def initialRegistersFrom (us : UnwindState) (regsNum : ℕ) : List (BitVec 64) :=
  match h : dwarfToPerfRegno regsNum with
  | none => []
  | some regsIdx => us.initialRegs regsIdx :: initialRegistersFrom us (regsNum + 1)
termination_by dwarfRegs.length - regsNum
decreasing_by
  have hlt : regsNum < dwarfRegs.length := by
    obtain ⟨r, hr, -⟩ := Option.map_eq_some_iff.mp h
    exact (List.getElem?_eq_some_iff.mp hr).1
  omega

def setInitialRegisters (us : UnwindState) : List (BitVec 64) := initialRegistersFrom us 0

def kStackPageSize : BitVec 64 := 4096
def kRedZoneSize : BitVec 64 := 128

/-- `none` when the function returns false. -/
def memoryRead (us : UnwindState) (addr : BitVec 64) (regno : ℤ) : Option (BitVec 64) :=
  if addr < kStackPageSize then none
  else if addr &&& 7 ≠ 0 then none
  -- the check for overflow
  else if addr > addr + 8 then none
  else
    let spStart := us.sp
    let spEnd := spStart + BitVec.ofNat 64 us.stack.length
    if addr < spStart ∧ addr > spStart - kStackPageSize then
      -- a value that the leaf function has popped already is still in its register
      if h : us.locs ≤ 1 ∧ spStart - kRedZoneSize ≤ addr ∧ 0 ≤ regno ∧
          regno < kPerfRegisterCount then
        some (us.initialRegs ⟨regno.toNat, by omega⟩)
      else none
    else if addr < spStart ∨ addr + 8 > spEnd then none
    else
      let stackIdx := addr - spStart
      if stackIdx > addr then none
      else some (BitVec.ofNat 64 (leWord ((us.stack.drop stackIdx.toNat).take 8)))

theorem initialRegistersFrom_eq (us : UnwindState) (regsNum : ℕ) :
    initialRegistersFrom us regsNum =
      (dwarfRegs.drop regsNum).map fun r => us.initialRegs r.index := by
  fun_induction initialRegistersFrom us regsNum with
  | case1 regsNum hnone =>
    have hge : dwarfRegs.length ≤ regsNum := by simpa [dwarfToPerfRegno] using hnone
    rw [List.drop_eq_nil_of_le hge, List.map_nil]
  | case2 regsNum regsIdx hsome ih =>
    obtain ⟨r, hr, rfl⟩ := Option.map_eq_some_iff.mp hsome
    obtain ⟨hlt, rfl⟩ := List.getElem?_eq_some_iff.mp hr
    rw [ih, List.drop_eq_getElem_cons hlt, List.map_cons]

theorem getElem?_setInitialRegisters (us : UnwindState) (n : ℕ) :
    (setInitialRegisters us)[n]? = (dwarfToPerfRegno n).map us.initialRegs := by
  rw [setInitialRegisters, initialRegistersFrom_eq, List.drop_zero, List.getElem?_map,
    dwarfToPerfRegno, Option.map_map]
  rfl

structure RedZoneRead (us : UnwindState) (addr : BitVec 64) : Prop where
  leaf : us.locs ≤ 1
  aligned : addr.toNat % 8 = 0
  above_zero_page : 4096 ≤ addr.toNat
  below_sp : addr < us.sp
  in_red_zone : us.sp.toNat ≤ addr.toNat + 128

variable {addr : BitVec 64}

theorem and_seven_eq_zero (h : addr.toNat % 8 = 0) : addr &&& 7 = 0 := by
  apply BitVec.eq_of_toNat_eq
  rw [BitVec.toNat_and]
  exact (Nat.and_two_pow_sub_one_eq_mod addr.toNat 3).trans h

variable {us : UnwindState}

/-- A read in the red zone returns the register whose position is the number, unless the
address is that of the last word of the address space. -/
theorem memoryRead_redZone (h : RedZoneRead us addr) {n : ℕ} (hn : n < kPerfRegisterCount) :
    memoryRead us addr n =
      if addr.toNat + 8 < 2 ^ 64 then some (us.initialRegs ⟨n, hn⟩) else none := by
  obtain ⟨hleaf, haligned, hpage, hbelow, hzone⟩ := h
  have hpage' : ¬ addr < kStackPageSize := by
    unfold kStackPageSize
    bv_omega
  unfold memoryRead
  rw [if_neg hpage', if_neg (not_not.mpr (and_seven_eq_zero haligned))]
  by_cases hover : addr.toNat + 8 < 2 ^ 64
  · have hnot : ¬ addr > addr + 8 := by bv_omega
    have hbefore : addr < us.sp ∧ addr > us.sp - kStackPageSize := by
      unfold kStackPageSize
      refine ⟨hbelow, ?_⟩
      bv_omega
    have hregister : us.locs ≤ 1 ∧ us.sp - kRedZoneSize ≤ addr ∧ (0 : ℤ) ≤ n ∧
        (n : ℤ) < kPerfRegisterCount := by
      refine ⟨hleaf, ?_, Int.natCast_nonneg n, by exact_mod_cast hn⟩
      unfold kRedZoneSize
      bv_omega
    rw [if_neg hnot, if_pos hover]
    simp only
    rw [if_pos hbefore, dif_pos hregister]
    rfl
  · have hwraps : addr > addr + 8 := by bv_omega
    rw [if_pos hwraps, if_neg hover]

/-- The position that a DWARF number has when it is taken for a position in `initial_regs`. -/
def dwarfPosition (n : Fin dwarfRegs.length) : Fin kPerfRegisterCount := n.castLE (by decide)

/-- A read in the red zone returns the value that libdwfl was given for the same DWARF number
exactly if the address is not that of the last word of the address space and the register in the
position of the DWARF number has the value of the register that the number stands for. -/
theorem memoryRead_redZone_iff {us : UnwindState} {addr : BitVec 64} (h : RedZoneRead us addr)
    (n : Fin dwarfRegs.length) :
    (∃ value, memoryRead us addr n = some value ∧
      (setInitialRegisters us)[(n : ℕ)]? = some value) ↔
      addr.toNat + 8 < 2 ^ 64 ∧
        us.initialRegs (dwarfPosition n) = us.initialRegs (dwarfRegs.get n).index := by
  have hn : (n : ℕ) < kPerfRegisterCount := (dwarfPosition n).isLt
  have hr : dwarfRegs[(n : ℕ)]? = some (dwarfRegs.get n) := List.getElem?_eq_getElem n.isLt
  rw [memoryRead_redZone h hn, getElem?_setInitialRegisters, dwarfToPerfRegno, hr]
  constructor
  · rintro ⟨value, hread, hvalue⟩
    split_ifs at hread with hover
    obtain rfl := Option.some.inj hread
    exact ⟨hover, (Option.some.inj hvalue).symm⟩
  · rintro ⟨hover, heq⟩
    rw [if_pos hover]
    exact ⟨_, rfl, congrArg some heq.symm⟩

theorem dwarfPosition_eq_index_iff (n : Fin dwarfRegs.length) :
    dwarfPosition n = (dwarfRegs.get n).index ↔
      dwarfRegs.get n ∈ [PerfReg.rax, .rcx, .rsi, .rdi, .rbp, .rsp] := by
  revert n
  decide

/-- A leaf frame with the stack pointer at `0x7000`; the other registers hold their position. -/
def leafState : UnwindState where
  initialRegs i := if i = PerfReg.rsp.index then 0x7000 else BitVec.ofNat 64 i
  stack := []
  locs := 1

theorem leafState_redZoneRead : RedZoneRead leafState 0x6ff8 := by
  constructor <;> decide

/-- The frame pointer has the same number in both orders. -/
theorem memoryRead_redZone_iff_rbp :
    ∃ value, memoryRead leafState 0x6ff8 6 = some value ∧
      (setInitialRegisters leafState)[6]? = some value :=
  (memoryRead_redZone_iff leafState_redZoneRead ⟨6, by decide⟩).mpr
    ⟨by decide, congrArg leafState.initialRegs ((dwarfPosition_eq_index_iff _).mpr (by decide))⟩

/-- DWARF number 3 is `rbx`; a popped `rbx` is read back as `rdx`. -/
theorem memoryRead_redZone_rbx :
    RedZoneRead leafState 0x6ff8 ∧ dwarfRegs[3]? = some PerfReg.rbx ∧
      memoryRead leafState 0x6ff8 3 = some (leafState.initialRegs PerfReg.rdx.index) ∧
      (setInitialRegisters leafState)[3]? = some (leafState.initialRegs PerfReg.rbx.index) ∧
      leafState.initialRegs PerfReg.rdx.index ≠ leafState.initialRegs PerfReg.rbx.index := by
  refine ⟨leafState_redZoneRead, rfl, by decide, ?_, by decide⟩
  rw [getElem?_setInitialRegisters]
  rfl

/-! ### Reads from the captured stack -/

/-- The read does not end in the page below the stack pointer, so that only the captured stack can
answer it. -/
def StackPath (us : UnwindState) (addr : BitVec 64) : Prop :=
  ¬ (addr < us.sp ∧ addr > us.sp - kStackPageSize)

structure InStack (us : UnwindState) (addr : BitVec 64) : Prop where
  above_sp : us.sp ≤ addr
  below_end : addr.toNat - us.sp.toNat + 8 ≤ us.stack.length

def capturedWord (us : UnwindState) (addr : BitVec 64) : BitVec 64 :=
  BitVec.ofNat 64 (leWord ((us.stack.drop (addr.toNat - us.sp.toNat)).take 8))

/-- The bytes of the word are those of the stack, the lowest first. -/
theorem leBytes_capturedWord (h : InStack us addr) :
    leBytes 8 (capturedWord us addr).toNat =
      (us.stack.drop (addr.toNat - us.sp.toNat)).take 8 := by
  have hend := h.below_end
  rw [capturedWord]
  generalize hbytes : (us.stack.drop (addr.toNat - us.sp.toNat)).take 8 = bytes
  have hlength : bytes.length = 8 := by
    rw [← hbytes, List.length_take, List.length_drop]
    omega
  have hlt : leWord bytes < 2 ^ 64 := by
    have := leWord_lt bytes
    rwa [hlength] at this
  rw [BitVec.toNat_ofNat, Nat.mod_eq_of_lt hlt]
  have hback := leBytes_leWord bytes
  rwa [hlength] at hback

/-- The address passes the checks that do not look at the stack. -/
def Readable (addr : BitVec 64) : Prop :=
  4096 ≤ addr.toNat ∧ addr &&& 7 = 0 ∧ addr.toNat + 8 < 2 ^ 64

/-- Where only the captured stack can answer, a read succeeds exactly if it passes the checks. -/
theorem memoryRead_of_stackPath (hpath : StackPath us addr) (regno : ℤ) {value : BitVec 64} :
    memoryRead us addr regno = some value ↔
      Readable addr ∧ us.sp ≤ addr ∧
        addr + 8 ≤ us.sp + BitVec.ofNat 64 us.stack.length ∧ capturedWord us addr = value := by
  have hpage : addr < kStackPageSize ↔ addr.toNat < 4096 := BitVec.lt_def
  have hwraps : addr > addr + 8 ↔ 2 ^ 64 ≤ addr.toNat + 8 := by bv_omega
  have houtside : addr < us.sp ∨ addr + 8 > us.sp + BitVec.ofNat 64 us.stack.length ↔
      ¬ (us.sp ≤ addr ∧ addr + 8 ≤ us.sp + BitVec.ofNat 64 us.stack.length) := by
    rw [not_and_or, BitVec.not_le, BitVec.not_le]
  rw [memoryRead, Readable]
  simp only [if_neg hpath, hpage, hwraps, houtside]
  split_ifs with hlow halign hhigh hin hidx
  · exact iff_of_false nofun fun h => absurd h.1.1 (not_le.mpr hlow)
  · exact iff_of_false nofun fun h => halign h.1.2.1
  · exact iff_of_false nofun fun h => absurd h.1.2.2 (not_lt.mpr hhigh)
  · -- the position in the stack cannot be larger than the address
    have hsp := hin.1
    bv_omega
  · have hsp := hin.1
    have hposition : (addr - us.sp).toNat = addr.toNat - us.sp.toNat := by bv_omega
    rw [hposition, Option.some.injEq]
    exact ⟨fun h => ⟨⟨not_lt.mp hlow, not_not.mp halign, not_le.mp hhigh⟩, hsp, hin.2, h⟩,
      fun h => h.2.2.2⟩
  · exact iff_of_false nofun fun h => hin ⟨h.2.1, h.2.2.1⟩

/-- An end of the stack that wraps around lies below the stack pointer, so that no read passes the
check against it. -/
theorem inStack_of_le_end (haddr : Readable addr)
    (hsp : us.sp ≤ addr) (hend : addr + 8 ≤ us.sp + BitVec.ofNat 64 us.stack.length) :
    InStack us addr := by
  have hle := Nat.mod_le us.stack.length (2 ^ 64)
  have hover := haddr.2.2
  refine ⟨hsp, ?_⟩
  rw [BitVec.le_def] at hsp hend
  rw [BitVec.toNat_add, BitVec.toNat_add, BitVec.toNat_ofNat,
    show (8 : BitVec 64).toNat = 8 from rfl, Nat.mod_eq_of_lt hover] at hend
  omega

/-- A read that the captured stack answers lies in it, and returns the word at the address. It is
answered if the address is aligned, not in the first page, and its word in the stack, which does
not reach the end of the address space. -/
theorem memoryRead_capturedStack (us : UnwindState) (addr : BitVec 64) (regno : ℤ) :
    (∀ value, memoryRead us addr regno = some value → StackPath us addr →
      InStack us addr ∧ leBytes 8 value.toNat =
        (us.stack.drop (addr.toNat - us.sp.toNat)).take 8) ∧
    (addr.toNat % 8 = 0 → 4096 ≤ addr.toNat → InStack us addr →
      us.sp.toNat + us.stack.length < 2 ^ 64 → ∃ value, memoryRead us addr regno = some value) := by
  constructor
  · intro value hread hpath
    obtain ⟨haddr, hsp, hend, rfl⟩ := (memoryRead_of_stackPath hpath regno).mp hread
    have hin := inStack_of_le_end haddr hsp hend
    exact ⟨hin, leBytes_capturedWord hin⟩
  · intro haligned hpage hin hover
    obtain ⟨hsp, hend⟩ := hin
    have hpath : StackPath us addr := fun h => BitVec.not_lt.mpr hsp h.1
    rw [BitVec.le_def] at hsp
    have haddr : Readable addr := ⟨hpage, and_seven_eq_zero haligned, by omega⟩
    refine ⟨_, (memoryRead_of_stackPath hpath regno).mpr ⟨haddr, hsp, ?_, rfl⟩⟩
    rw [BitVec.le_def, BitVec.toNat_add, BitVec.toNat_add, BitVec.toNat_ofNat,
      Nat.mod_eq_of_lt (show us.stack.length < 2 ^ 64 by omega), Nat.mod_eq_of_lt hover,
      show (8 : BitVec 64).toNat = 8 from rfl]
    omega

/-- Sixteen captured bytes above the stack pointer `0x7000`. -/
def twoWordState : UnwindState where
  initialRegs i := if i = PerfReg.rsp.index then 0x7000 else 0
  stack := leBytes 8 0x1234 ++ leBytes 8 0x5678
  locs := 3

theorem memoryRead_capturedStack_twoWordState :
    InStack twoWordState 0x7008 ∧ leBytes 8 0x5678 = (twoWordState.stack.drop 8).take 8 ∧
      ∃ value, memoryRead twoWordState 0x7008 (-1) = some value := by
  have hin : InStack twoWordState 0x7008 := by
    constructor <;> decide
  have hread : memoryRead twoWordState 0x7008 (-1) = some 0x5678 := by decide
  obtain ⟨-, hbytes⟩ := (memoryRead_capturedStack twoWordState 0x7008 (-1)).1 _ hread
    (fun h => absurd h.1 (by decide))
  exact ⟨hin, hbytes, (memoryRead_capturedStack twoWordState 0x7008 (-1)).2 (by decide) (by decide)
    hin (by decide)⟩

end Ddprof
