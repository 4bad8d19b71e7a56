import Mathlib.Tactic

/-!
The `Dso` record: one mapped region of one process.

Addresses, offsets and inodes are `uint64_t` in the source. They are natural
numbers here, and the two places where the source can leave the 64-bit range
(`end + 1` and `m_end - 1`) reduce modulo `2 ^ 64` where they occur. Paths are
`std::string`s, here lists of characters.
-/

namespace Ddprof

/-- `DDRes` by severity; no function that is modelled returns a notice. -/
inductive Severity
  | ok
  | warn
  | error
  deriving DecidableEq, Repr

/-- `2 ^ 64`, the modulus of address arithmetic. -/
def addrSpace : ℕ := 2 ^ 64

inductive DsoType
  | standard
  | vdso
  | vsysCall
  | stack
  | heap
  | undef
  | anon
  | runtime
  | socket
  | ddProfiling
  | jitDump
  deriving DecidableEq, Repr

inductive DsoOrigin
  | perfMmapEvent
  | procMaps
  deriving DecidableEq, Repr

def kFileInfoUndef : ℤ := -1
def kFileInfoError : ℤ := 0

def protRead : ℕ := 1
def protWrite : ℕ := 2
def protExec : ℕ := 4

/-! ### Classification of paths -/

/-- `rfind('/')` followed by `substr(pos + 1)`; `none` when there is no slash. -/
def afterLastSlash (path : List Char) : Option (List Char) :=
  if '/' ∈ path then some (path.reverse.takeWhile (· ≠ '/')).reverse else none

/-- The comment of the source asks for `jit-[0-9]+\.dump`. -/
def isJitDumpStr (filePath : List Char) : Bool :=
  if ¬ ".dump".toList.isSuffixOf filePath then false
  else
    let stem := filePath.take (filePath.length - ".dump".length)
    let base := (afterLastSlash stem).getD stem
    if ¬ "jit-".toList.isPrefixOf base then false
    else (base.drop "jit-".length).all Char.isDigit

def determineDsoType (filePath : List Char) : DsoType :=
  if "[vdso]".toList.isPrefixOf filePath then .vdso
  else if "[vsyscall]".toList.isPrefixOf filePath then .vsysCall
  else if "[stack]".toList.isPrefixOf filePath then .stack
  else if "[heap]".toList.isPrefixOf filePath then .heap
  else if filePath.isEmpty || "//anon".toList.isPrefixOf filePath
      || "anon_inode".toList.isPrefixOf filePath || "[anon".toList.isPrefixOf filePath
      || "/dev/zero".toList.isPrefixOf filePath || "/dev/null".toList.isPrefixOf filePath
      || "/memfd".toList.isPrefixOf filePath then .anon
  else if ".jsa".toList.isSuffixOf filePath || ".dll".toList.isSuffixOf filePath then .runtime
  else if "socket".toList.isPrefixOf filePath then .socket
  else if filePath.head? = some '[' then .undef
  else if isJitDumpStr filePath then .jitDump
  else
    match afterLastSlash filePath with
    | some base => if "libdd_profiling.so".toList.isPrefixOf base then .ddProfiling else .standard
    | none => .standard

/-! ### The record -/

structure Dso where
  start : ℕ
  /-- The last address of the region: `_end` is inclusive in the source. -/
  endAddr : ℕ
  offset : ℕ
  filename : List Char
  inode : ℕ
  pid : ℤ
  prot : ℕ
  id : ℤ
  type : DsoType
  origin : DsoOrigin
  deriving DecidableEq, Repr

namespace Dso

/-- The default constructor builds the invalid element. -/
def invalid : Dso where
  start := 0
  endAddr := 0
  offset := 0
  filename := []
  inode := 0
  pid := -1
  prot := 0
  id := kFileInfoError
  type := .undef
  origin := .perfMmapEvent

/-- The main constructor; the type is read off the path. -/
def make (pid : ℤ) (start stop : ℕ) (offset : ℕ) (filename : List Char)
    (inode prot : ℕ) (origin : DsoOrigin) : Dso where
  start := start
  endAddr := stop
  offset := offset
  filename := filename
  inode := inode
  pid := pid
  prot := prot
  id := kFileInfoUndef
  type := determineDsoType filename
  origin := origin

/-- `Dso(Dso parent, pid_t new_pid)`. -/
def withPid (parent : Dso) (newPid : ℤ) : Dso := { parent with pid := newPid }

def isWithin (d : Dso) (addr : ℕ) : Bool :=
  decide (d.start ≤ addr) && decide (addr ≤ d.endAddr)

def intersects (d o : Dso) : Bool :=
  if d.start < o.start then
    if d.endAddr < o.start then false else true
  else if o.endAddr < d.start then false
  else true

def isExecutable (d : Dso) : Bool := d.prot &&& protExec ≠ 0

def adjustEnd (newEnd : ℕ) (d : Dso) : Dso := { d with endAddr := newEnd }

def adjustStart (newStart : ℕ) (d : Dso) : Dso := { d with start := newStart }

def isSameOrSmaller (d o : Dso) : Bool :=
  if d.start ≠ o.start then false
  else if d.offset ≠ o.offset then false
  else if d.type ≠ o.type then false
  else if d.type = .standard ∧ (d.filename ≠ o.filename ∨ d.inode ≠ o.inode) then false
  else if d.prot ≠ o.prot then false
  else decide (o.endAddr ≤ d.endAddr)

/-- `adjust_same`: the adjusted region, or `none` when the method returns false. -/
def adjustSame (d o : Dso) : Option Dso :=
  if d.isSameOrSmaller o then some { d with endAddr := o.endAddr, origin := o.origin } else none

def isSameFile (d o : Dso) : Bool :=
  decide (d.type = o.type) && decide (d.type = .standard) && decide (d.filename = o.filename)
    && decide (d.inode = o.inode)

/-- A region with at least one address whose successor address is representable. -/
structure Proper (d : Dso) : Prop where
  le : d.start ≤ d.endAddr
  endAddr_lt : d.endAddr < addrSpace - 1

instance (d : Dso) : Decidable d.Proper :=
  decidable_of_iff (d.start ≤ d.endAddr ∧ d.endAddr < addrSpace - 1)
    ⟨fun h => ⟨h.1, h.2⟩, fun h => ⟨h.le, h.endAddr_lt⟩⟩

/-- The overlap test is symmetric on regions and says that neither ends before
the other starts. -/
theorem intersects_iff {d o : Dso} (hd : d.start ≤ d.endAddr) (ho : o.start ≤ o.endAddr) :
    d.intersects o = true ↔ d.start ≤ o.endAddr ∧ o.start ≤ d.endAddr := by
  unfold intersects
  split_ifs <;> simp <;> omega

theorem adjustSame_eq_some {d o d' : Dso} (h : d.adjustSame o = some d') :
    d.start = o.start ∧ o.endAddr ≤ d.endAddr ∧
      d' = { d with endAddr := o.endAddr, origin := o.origin } := by
  unfold adjustSame at h
  split_ifs at h with hs
  refine ⟨?_, ?_, (Option.some.inj h).symm⟩
  · by_contra hne
    simp [isSameOrSmaller, hne] at hs
  · unfold isSameOrSmaller at hs
    split_ifs at hs
    simpa using hs

end Dso

end Ddprof
