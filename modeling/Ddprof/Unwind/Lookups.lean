import Ddprof.Symbols.RuntimeLookup

/-!
The symbols of frames that are not symbolized by their address: errors, regions without a file, and
the binary of a process.

Each lookup caches the index of a symbol in the table, and pushes the symbol if there is none. The
lookup of the binary of a process is tried a few times; until it succeeds the symbol has the pid
for a name.
-/

namespace Ddprof

/-! ### Symbols -/

inductive SymbolErrors
  | truncatedStack
  | unknownMapping
  | unwindFailure
  | incompleteStack
  | lostEvent
  | maxPids
  deriving DecidableEq, Repr

/-- `k_common_frame_names` -/
def SymbolErrors.frameName : SymbolErrors → List Char
  | truncatedStack => "[truncated]".toList
  | unknownMapping => "[unknown mapping]".toList
  | unwindFailure => "[unwind failure]".toList
  | incompleteStack => "[incomplete]".toList
  | lostEvent => "[lost]".toList
  | maxPids => "[maximum pids]".toList

def symbolFromCommon (lookupCase : SymbolErrors) : Symbol where
  demangledName := lookupCase.frameName

def DsoType.hasRelevantPath : DsoType → Bool
  | .ddProfiling | .standard => true
  | _ => false

def dsoTypeStr : DsoType → List Char
  | .standard => "Standard".toList
  | .vdso => "Vdso".toList
  | .vsysCall => "VsysCall".toList
  | .stack => "Stack".toList
  | .heap => "Heap".toList
  | .undef => "Undefined".toList
  | .anon => "Anonymous".toList
  | .runtime => "Runtime".toList
  | .socket => "kSocket".toList
  | .ddProfiling => "kDDProfiling".toList
  | .jitDump => "Unhandled".toList

def Dso.formatFilename (dso : Dso) : List Char :=
  if dso.type.hasRelevantPath then dso.filename else dsoTypeStr dso.type

/-- `std::filesystem::path(path).filename()` -/
def pathFilename (path : List Char) : List Char := (afterLastSlash path).getD path

def symbolFromUnhandledDso (dso : Dso) : Symbol where
  srcpath := dsoTypeStr dso.type

def symbolFromDso (normalizedAddr : ℕ) (dso : Dso) (addrType : List Char) : Symbol where
  demangledName :=
    if normalizedAddr ≠ 0 then
      "[0x".toList ++ Nat.toDigits 16 normalizedAddr ++ ":".toList ++ addrType ++ "]".toList
    else pathFilename dso.formatFilename
  srcpath := dso.formatFilename

def symbolFromPid (pid : ℤ) : Symbol where
  srcpath := "pid_".toList ++ (toString pid).toList

/-! ### Lookups -/

/-- The index of a key, where a new symbol is pushed for an unknown one. -/
def getOrPush {κ : Type} [DecidableEq κ] (map : UnorderedMap κ ℤ) (key : κ) (symbol : Symbol)
    (symbolTable : SymbolTable) : UnorderedMap κ ℤ × SymbolTable × ℤ :=
  match AList.lookup key map with
  | some symbolIdx => (map, symbolTable, symbolIdx)
  | none => (AList.insert key (symbolTable.length : ℤ) map, symbolTable ++ [symbol],
      symbolTable.length)

def HasSymbols {κ : Type} [DecidableEq κ] (map : UnorderedMap κ ℤ) : Prop :=
  UnorderedMap.All (fun _ symbolIdx => 0 ≤ symbolIdx) map

theorem getOrPush_spec {κ : Type} [DecidableEq κ] {map : UnorderedMap κ ℤ} (h : HasSymbols map)
    (key : κ) (symbol : Symbol) (symbolTable : SymbolTable) :
    HasSymbols (getOrPush map key symbol symbolTable).1 ∧
      0 ≤ (getOrPush map key symbol symbolTable).2.2 := by
  rw [getOrPush]
  cases hlook : AList.lookup key map with
  | some symbolIdx => exact ⟨h, h key symbolIdx hlook⟩
  | none => exact ⟨UnorderedMap.All.insert h (Int.natCast_nonneg _), Int.natCast_nonneg _⟩

structure DsoSymbolLookup where
  mapDsoPath : UnorderedMap (List Char) (UnorderedMap ℕ ℤ) := ∅
  mapUnhandledDso : UnorderedMap DsoType ℤ := ∅

namespace DsoSymbolLookup

/-- The address counts only for the types of regions where it means something. -/
def getOrInsert (lookup : DsoSymbolLookup) (normalizedAddr : ℕ) (dso : Dso)
    (symbolTable : SymbolTable) (addrType : List Char) : DsoSymbolLookup × SymbolTable × ℤ :=
  if dso.type.hasRelevantPath = false ∧ dso.type ≠ .vdso ∧ dso.type ≠ .vsysCall then
    let (map, symbolTable, symbolIdx) :=
      getOrPush lookup.mapUnhandledDso dso.type (symbolFromUnhandledDso dso) symbolTable
    ({ lookup with mapUnhandledDso := map }, symbolTable, symbolIdx)
  else
    let (addrLookup, symbolTable, symbolIdx) :=
      getOrPush ((AList.lookup dso.filename lookup.mapDsoPath).getD ∅) normalizedAddr
        (symbolFromDso normalizedAddr dso addrType) symbolTable
    ({ lookup with mapDsoPath := AList.insert dso.filename addrLookup lookup.mapDsoPath },
      symbolTable, symbolIdx)

structure Valid (lookup : DsoSymbolLookup) : Prop where
  path : UnorderedMap.All (fun _ addrLookup => HasSymbols addrLookup) lookup.mapDsoPath
  unhandled : HasSymbols lookup.mapUnhandledDso

theorem Valid.getOrInsert {lookup : DsoSymbolLookup} (h : lookup.Valid) (normalizedAddr : ℕ)
    (dso : Dso) (symbolTable : SymbolTable) (addrType : List Char) :
    (lookup.getOrInsert normalizedAddr dso symbolTable addrType).1.Valid ∧
      0 ≤ (lookup.getOrInsert normalizedAddr dso symbolTable addrType).2.2 := by
  rw [DsoSymbolLookup.getOrInsert]
  split_ifs with htype
  · obtain ⟨hmap, hidx⟩ := getOrPush_spec h.unhandled dso.type (symbolFromUnhandledDso dso)
      symbolTable
    exact ⟨⟨h.path, hmap⟩, hidx⟩
  · have haddr : HasSymbols ((AList.lookup dso.filename lookup.mapDsoPath).getD ∅) := by
      cases hlook : AList.lookup dso.filename lookup.mapDsoPath with
      | none => exact UnorderedMap.all_empty
      | some addrLookup => exact h.path _ _ hlook
    obtain ⟨hmap, hidx⟩ := getOrPush_spec haddr normalizedAddr
      (symbolFromDso normalizedAddr dso addrType) symbolTable
    exact ⟨⟨h.path.insert hmap, h.unhandled⟩, hidx⟩

end DsoSymbolLookup

/-! ### The binary of a process -/

structure PidSymbol where
  symbIdx : ℤ
  nbBinLookups : ℕ := 1
  deriving DecidableEq, Repr

structure BaseFrameSymbolLookup where
  binMap : UnorderedMap ℤ ℤ := ∅
  exeNameMap : UnorderedMap ℤ (List Char) := ∅
  pidMap : UnorderedMap ℤ PidSymbol := ∅

def kNbBinLookups : ℕ := 10

/-- What is known of a process: its first executable region, and the link to its binary. -/
structure BinaryInfo where
  firstStdExecutable : Option Dso := none
  exeName : Option (List Char) := none

namespace BaseFrameSymbolLookup

/-- An entry that exists is kept. -/
def insertNew {α : Type} (map : UnorderedMap ℤ α) (pid : ℤ) (value : α) : UnorderedMap ℤ α :=
  if (AList.lookup pid map).isSome then map else AList.insert pid value map

def insertBin (lookup : BaseFrameSymbolLookup) (pid symbolIdx : ℤ) (path : List Char) :
    BaseFrameSymbolLookup :=
  { lookup with
    binMap := insertNew lookup.binMap pid symbolIdx
    exeNameMap := insertNew lookup.exeNameMap pid (pathFilename path) }

/-- The region is used if its path is one of a file, otherwise the link. -/
def insertBinSymbol (lookup : BaseFrameSymbolLookup) (pid : ℤ) (symbolTable : SymbolTable)
    (dsoLookup : DsoSymbolLookup) (info : BinaryInfo) :
    BaseFrameSymbolLookup × SymbolTable × DsoSymbolLookup × ℤ :=
  match info.firstStdExecutable.filter (·.type.hasRelevantPath), info.exeName with
  | some dso, _ =>
    let (dsoLookup, symbolTable, symbolIdx) :=
      dsoLookup.getOrInsert 0 dso symbolTable "elf".toList
    (lookup.insertBin pid symbolIdx dso.filename, symbolTable, dsoLookup, symbolIdx)
  | none, some exeName =>
    (lookup.insertBin pid symbolTable.length exeName,
      symbolTable ++ [{ demangledName := pathFilename exeName, srcpath := exeName }], dsoLookup,
      symbolTable.length)
  | none, none => (lookup, symbolTable, dsoLookup, -1)

/-- The count of the lookups of a process goes up with each call that finds no binary cached. -/
def countLookup (lookup : BaseFrameSymbolLookup) (pid : ℤ) : BaseFrameSymbolLookup :=
  match AList.lookup pid lookup.pidMap with
  | some pidSymbol => { lookup with
      pidMap := AList.insert pid { pidSymbol with nbBinLookups := pidSymbol.nbBinLookups + 1 }
        lookup.pidMap }
  | none => lookup

/-- The first part of `get_or_insert`: the binary of the process, or -1. -/
def findBin (lookup : BaseFrameSymbolLookup) (pid : ℤ) (symbolTable : SymbolTable)
    (dsoLookup : DsoSymbolLookup) (info : BinaryInfo) :
    BaseFrameSymbolLookup × SymbolTable × DsoSymbolLookup × ℤ :=
  match AList.lookup pid lookup.binMap with
  | some symbolIdx => (lookup, symbolTable, dsoLookup, symbolIdx)
  | none =>
    let lookup := lookup.countLookup pid
    if (AList.lookup pid lookup.pidMap).all (·.nbBinLookups < kNbBinLookups) then
      lookup.insertBinSymbol pid symbolTable dsoLookup info
    else (lookup, symbolTable, dsoLookup, -1)

def getOrInsert (lookup : BaseFrameSymbolLookup) (pid : ℤ) (symbolTable : SymbolTable)
    (dsoLookup : DsoSymbolLookup) (info : BinaryInfo) :
    BaseFrameSymbolLookup × SymbolTable × DsoSymbolLookup × ℤ :=
  let (lookup, symbolTable, dsoLookup, symbolIdx) :=
    lookup.findBin pid symbolTable dsoLookup info
  if symbolIdx ≠ -1 then (lookup, symbolTable, dsoLookup, symbolIdx)
  else
    match AList.lookup pid lookup.pidMap with
    | some pidSymbol => (lookup, symbolTable, dsoLookup, pidSymbol.symbIdx)
    | none =>
      ({ lookup with
          pidMap := AList.insert pid { symbIdx := symbolTable.length } lookup.pidMap },
        symbolTable ++ [symbolFromPid pid], dsoLookup, symbolTable.length)

/-- The names of binaries are kept. -/
def erase (lookup : BaseFrameSymbolLookup) (pid : ℤ) : BaseFrameSymbolLookup :=
  { lookup with
    binMap := AList.erase pid lookup.binMap
    pidMap := AList.erase pid lookup.pidMap }

def symbolOf (lookup : BaseFrameSymbolLookup) (pid : ℤ) : Option ℤ :=
  (AList.lookup pid lookup.binMap).or ((AList.lookup pid lookup.pidMap).map PidSymbol.symbIdx)

structure Valid (lookup : BaseFrameSymbolLookup) : Prop where
  bin : HasSymbols lookup.binMap
  pid : UnorderedMap.All (fun _ pidSymbol => 0 ≤ pidSymbol.symbIdx) lookup.pidMap

namespace Valid

variable {lookup : BaseFrameSymbolLookup} {pid : ℤ} {symbolTable : SymbolTable}
  {dsoLookup : DsoSymbolLookup} {info : BinaryInfo}

theorem erase (h : lookup.Valid) (pid : ℤ) : (lookup.erase pid).Valid :=
  ⟨UnorderedMap.All.erase h.bin pid, UnorderedMap.All.erase h.pid pid⟩

theorem countLookup (h : lookup.Valid) (pid : ℤ) : (lookup.countLookup pid).Valid := by
  rw [BaseFrameSymbolLookup.countLookup]
  cases hlook : AList.lookup pid lookup.pidMap with
  | none => exact h
  | some pidSymbol =>
    refine ⟨h.bin, UnorderedMap.All.insert h.pid ?_⟩
    exact h.pid pid pidSymbol hlook

theorem insertBin (h : lookup.Valid) {symbolIdx : ℤ} (hidx : 0 ≤ symbolIdx) (pid : ℤ)
    (path : List Char) : (lookup.insertBin pid symbolIdx path).Valid := by
  refine ⟨?_, h.pid⟩
  rw [BaseFrameSymbolLookup.insertBin]
  simp only [insertNew]
  split_ifs
  · exact h.bin
  · exact UnorderedMap.All.insert h.bin hidx

end Valid

/-- What the search for a binary ends with: the lookups are valid, and the index is the one that
the map has now, or -1. -/
structure FoundBin (pid : ℤ)
    (res : BaseFrameSymbolLookup × SymbolTable × DsoSymbolLookup × ℤ) : Prop where
  valid : res.1.Valid
  dso : res.2.2.1.Valid
  idx : res.2.2.2 = -1 ∧ AList.lookup pid res.1.binMap = none ∨
    0 ≤ res.2.2.2 ∧ AList.lookup pid res.1.binMap = some res.2.2.2

section FindBin

variable {lookup : BaseFrameSymbolLookup} {pid : ℤ} {dsoLookup : DsoSymbolLookup}

theorem lookup_insertBin (h : AList.lookup pid lookup.binMap = none) (symbolIdx : ℤ)
    (path : List Char) :
    AList.lookup pid (lookup.insertBin pid symbolIdx path).binMap = some symbolIdx := by
  rw [insertBin]
  simp only [insertNew, h, Option.isSome_none, Bool.false_eq_true, if_false]
  exact AList.lookup_insert _

theorem foundBin_insertBinSymbol (h : lookup.Valid) (hd : dsoLookup.Valid)
    (hnone : AList.lookup pid lookup.binMap = none) (symbolTable : SymbolTable)
    (info : BinaryInfo) :
    FoundBin pid (lookup.insertBinSymbol pid symbolTable dsoLookup info) := by
  rw [insertBinSymbol]
  generalize info.firstStdExecutable.filter (·.type.hasRelevantPath) = executable
  generalize info.exeName = link
  cases executable with
  | some dso =>
    obtain ⟨hd', hidx⟩ := hd.getOrInsert 0 dso symbolTable "elf".toList
    exact ⟨h.insertBin hidx pid dso.filename, hd', .inr ⟨hidx, lookup_insertBin hnone _ _⟩⟩
  | none =>
    cases link with
    | some exeName =>
      have hidx : (0 : ℤ) ≤ symbolTable.length := Int.natCast_nonneg _
      exact ⟨h.insertBin hidx pid exeName, hd, .inr ⟨hidx, lookup_insertBin hnone _ _⟩⟩
    | none => exact ⟨h, hd, .inl ⟨rfl, hnone⟩⟩

theorem foundBin_findBin (h : lookup.Valid) (hd : dsoLookup.Valid) (symbolTable : SymbolTable)
    (info : BinaryInfo) : FoundBin pid (lookup.findBin pid symbolTable dsoLookup info) := by
  rw [findBin]
  cases hlook : AList.lookup pid lookup.binMap with
  | some symbolIdx => exact ⟨h, hd, .inr ⟨h.bin pid symbolIdx hlook, hlook⟩⟩
  | none =>
    have hcount : AList.lookup pid (lookup.countLookup pid).binMap = none := by
      rw [countLookup]
      split
      · exact hlook
      · exact hlook
    simp only
    split_ifs
    · exact foundBin_insertBinSymbol (h.countLookup pid) hd hcount symbolTable info
    · exact ⟨h.countLookup pid, hd, .inl ⟨rfl, hcount⟩⟩

/-- The index that is returned is not null, and stands for the process from then on. -/
theorem getOrInsert_spec (h : lookup.Valid) (hd : dsoLookup.Valid) (pid : ℤ)
    (symbolTable : SymbolTable) (info : BinaryInfo) :
    (lookup.getOrInsert pid symbolTable dsoLookup info).1.Valid ∧
      (lookup.getOrInsert pid symbolTable dsoLookup info).2.2.1.Valid ∧
      0 ≤ (lookup.getOrInsert pid symbolTable dsoLookup info).2.2.2 ∧
      (lookup.getOrInsert pid symbolTable dsoLookup info).1.symbolOf pid =
        some (lookup.getOrInsert pid symbolTable dsoLookup info).2.2.2 := by
  have hfound : FoundBin pid (lookup.findBin pid symbolTable dsoLookup info) :=
    foundBin_findBin h hd symbolTable info
  rw [getOrInsert]
  generalize lookup.findBin pid symbolTable dsoLookup info = res at hfound
  obtain ⟨lookup', symbolTable', dsoLookup', symbolIdx⟩ := res
  obtain ⟨hvalid, hdso, hidx⟩ := hfound
  simp only at hvalid hdso hidx ⊢
  rcases hidx with ⟨rfl, hbin⟩ | ⟨hpos, hbin⟩
  · rw [if_neg (not_not.mpr rfl)]
    cases hlook : AList.lookup pid lookup'.pidMap with
    | some pidSymbol =>
      refine ⟨hvalid, hdso, hvalid.pid pid pidSymbol hlook, ?_⟩
      rw [symbolOf, hbin, hlook]
      rfl
    | none =>
      have hlength : (0 : ℤ) ≤ symbolTable'.length := Int.natCast_nonneg _
      refine ⟨⟨hvalid.bin, UnorderedMap.All.insert hvalid.pid hlength⟩, hdso, hlength, ?_⟩
      rw [symbolOf]
      simp only [hbin, AList.lookup_insert]
      rfl
  · rw [if_pos (by omega)]
    refine ⟨hvalid, hdso, hpos, ?_⟩
    rw [symbolOf, hbin]
    rfl

end FindBin

end BaseFrameSymbolLookup

end Ddprof
