import Ddprof.Lib.OrderedMap
import Ddprof.Lib.UnorderedMap
import Ddprof.Dso.ProcMaps

/-!
`DsoHdr`: the mapped regions of every profiled process.

A process has a `std::map` from start addresses to regions, the state of its
backpopulation from `/proc/<pid>/maps`, and the address of its jitdump marker.
Operations that can run into the fatal check of `erase_range`, or dereference
an iterator that points nowhere, return in `Except Fatal`.

The statistics counters and the file table of the class are not part of this
model: no operation here reads them.
-/

namespace Ddprof

open OrderedMap (Iter)

abbrev DsoMap := OrderedMap ℕ Dso

abbrev DsoRange := Iter ℕ × Iter ℕ

/-- An iterator and whether the search or the insertion succeeded. -/
abbrev DsoFindRes := Iter ℕ × Bool

inductive Fatal
  /-- The check of `erase_range`: "Invariant violation: overlapping mappings detected". -/
  | overlappingMappings
  /-- Undefined behaviour: an iterator that points at no element is used. -/
  | invalidIterator
  deriving DecidableEq, Repr

inductive BackpopulatePermission
  | forbidden
  | allowed
  deriving DecidableEq, Repr

structure BackpopulateState where
  nbUnfoundDsos : ℤ := 0
  lastBackpopulateTime : ℤ := 0
  perm : BackpopulatePermission := .allowed
  deriving DecidableEq, Repr

structure PidMapping where
  map : DsoMap := .empty
  backpopulateState : BackpopulateState := {}
  jitdumpAddr : ℕ := 0
  deriving DecidableEq

instance : Inhabited PidMapping := ⟨{}⟩

/-! ### Operations on one map -/

def isIntersectionAllowed (oldSo newDso : Dso) : Bool :=
  oldSo.isSameFile newDso || (decide (oldSo.type = .standard) && decide (newDso.type = .anon))

def dsoFindClosest (map : DsoMap) (addr : ℕ) : DsoFindRes :=
  let it := map.upperBound addr
  if it = map.begin then (none, false)
  else
    match map.prev it with
    | none => (none, false)
    | some p => (some p, (map.find p).any (·.isWithin addr))

/-- The first region that ends at or after the start of `dso`: the first one to
start after it, or the one before that. -/
def intersectionFirst (map : DsoMap) (dso : Dso) : Iter ℕ :=
  let upper := map.upperBound dso.start
  if upper = map.begin then upper
  else
    match map.prev upper with
    | none => upper
    | some p => if (map.find p).any (fun d => dso.start ≤ d.endAddr) then some p else upper

def getIntersection (map : DsoMap) (dso : Dso) : DsoRange :=
  let first := intersectionFirst map dso
  (first,
    match first with
    | none => none
    | some k =>
      if dso.endAddr < k then first else map.lowerBound ((dso.endAddr + 1) % addrSpace))

/-- The end of `erase_range`: truncate the first mapping when that is allowed,
and erase what is left of the range. -/
def eraseFromFirst (map : DsoMap) (first last : Iter ℕ) (newMapping : Dso) :
    Except Fatal DsoMap :=
  match first with
  | none => .error .invalidIterator
  | some k =>
    match map.find k with
    | none => .error .invalidIterator
    | some firstMapping =>
      if firstMapping.start < newMapping.start ∧
          isIntersectionAllowed firstMapping newMapping then
        let truncated := map.modify k (Dso.adjustEnd (newMapping.start - 1))
        .ok (truncated.eraseRange (truncated.upperBound k) last)
      else .ok (map.eraseRange first last)

def eraseRange (map : DsoMap) (range : DsoRange) (newMapping : Dso) : Except Fatal DsoMap :=
  if range.1 = range.2 then .ok map
  else
    match map.prev range.2 with
    | none => .error .invalidIterator
    | some last =>
      match map.find last with
      | none => .error .invalidIterator
      | some lastMapping =>
        if newMapping.endAddr < lastMapping.endAddr ∧
            isIntersectionAllowed lastMapping newMapping then
          let newStart := (newMapping.endAddr + 1) % addrSpace
          let rightPart := lastMapping.adjustStart newStart
          if lastMapping.start < newMapping.start then
            -- the new mapping is inside the old one, which is split in two
            .ok ((map.insertOrAssign rightPart.start rightPart).modify last
              (Dso.adjustEnd (newMapping.start - 1)))
          else
            -- the node of the last mapping is extracted, re-keyed and inserted again
            let (map', inserted) := (map.eraseKey last).insert newStart rightPart
            if !inserted then .error .overlappingMappings
            else if range.1 = some last then .ok map'
            else
              match map'.prev range.2 with
              | none => .error .invalidIterator
              | some last' => eraseFromFirst map' range.1 (some last') newMapping
        else eraseFromFirst map range.1 range.2 newMapping

def dsoFindAdjustSame (map : DsoMap) (dso : Dso) : DsoMap × DsoFindRes :=
  match map.find dso.start with
  | none => (map, none, false)
  | some d =>
    match d.adjustSame dso with
    | some adjusted => (map.insertOrAssign dso.start adjusted, some dso.start, true)
    | none => (map, some dso.start, false)

/-- The step of `insert_erase_overlap` that clears the range of the new region. -/
def makeRoom (map : DsoMap) (dso : Dso) : Except Fatal DsoMap :=
  let range := getIntersection map dso
  if range.1 ≠ range.2 then eraseRange map range dso else .ok map

def PidMapping.insertEraseOverlap (pidMapping : PidMapping) (dso : Dso) :
    Except Fatal (PidMapping × DsoFindRes) :=
  let (map, findRes) := dsoFindAdjustSame pidMapping.map dso
  if findRes.2 then .ok ({ pidMapping with map := map }, findRes)
  else do
    let erased ← makeRoom map dso
    let jitdumpAddr := if dso.type = .jitDump then dso.start else pidMapping.jitdumpAddr
    let (map', inserted) := erased.insert dso.start dso
    return ({ pidMapping with map := map', jitdumpAddr := jitdumpAddr },
      (some dso.start, inserted))

/-! ### The header -/

structure DsoHdr where
  pidMap : UnorderedMap ℤ PidMapping := ∅

namespace DsoHdr

def setPidMapping (h : DsoHdr) (pid : ℤ) (pidMapping : PidMapping) : DsoHdr :=
  { h with pidMap := h.pidMap.insert pid pidMapping }

def insertEraseOverlap (h : DsoHdr) (dso : Dso) : Except Fatal (DsoHdr × DsoFindRes) := do
  let (pidMapping, findRes) ← (h.pidMap.get dso.pid).insertEraseOverlap dso
  return (h.setPidMapping dso.pid pidMapping, findRes)

/-- The access to the pid map creates the entry even when the event is too old. -/
def maybeInsertEraseOverlap (h : DsoHdr) (dso : Dso) (timestamp : ℤ) :
    Except Fatal (DsoHdr × Bool) :=
  let pidMapping := h.pidMap.get dso.pid
  if timestamp < pidMapping.backpopulateState.lastBackpopulateTime then
    .ok (h.setPidMapping dso.pid pidMapping, false)
  else do
    let (inserted, _) ← pidMapping.insertEraseOverlap dso
    return (h.setPidMapping dso.pid inserted, true)

def pidFree (h : DsoHdr) (pid : ℤ) : DsoHdr := { h with pidMap := h.pidMap.erase pid }

/-- The `getline` loop of `pid_backpopulate`. -/
def backpopulateLines (pid : ℤ) : PidMapping → ℤ → List (List Char) →
    Except Fatal (PidMapping × ℤ)
  | pidMapping, nbEltsAdded, [] => .ok (pidMapping, nbEltsAdded)
  | pidMapping, nbEltsAdded, line :: rest =>
    let dso := dsoFromProcLine pid line
    if dso.pid = -1 then backpopulateLines pid pidMapping nbEltsAdded rest
    else do
      let (pidMapping', findRes) ← pidMapping.insertEraseOverlap dso
      backpopulateLines pid pidMapping' (if findRes.2 then nbEltsAdded + 1 else nbEltsAdded) rest

/-- `now` is the reading of the perf clock, `procMaps` the lines of the file, or
`none` when it cannot be opened, and `nbEltsAdded` the value that the caller's
variable holds. The result also says whether the file was read. -/
def pidBackpopulate (h : DsoHdr) (pid : ℤ) (now : ℤ) (procMaps : Option (List (List Char)))
    (nbEltsAdded : ℤ) : Except Fatal (DsoHdr × Bool × ℤ) :=
  let pidMapping := h.pidMap.get pid
  let bpState := { pidMapping.backpopulateState with
    nbUnfoundDsos := pidMapping.backpopulateState.nbUnfoundDsos + 1 }
  if bpState.perm ≠ .allowed then
    .ok (h.setPidMapping pid { pidMapping with backpopulateState := bpState }, false, nbEltsAdded)
  else
    let bpState := { bpState with lastBackpopulateTime := now }
    let pidMapping := { pidMapping with backpopulateState := bpState }
    match procMaps with
    | none => .ok (h.setPidMapping pid pidMapping, false, 0)
    | some lines => do
      let (pidMapping, nbEltsAdded) ← backpopulateLines pid pidMapping 0 lines
      let bpState := if nbEltsAdded = 0
        then { pidMapping.backpopulateState with perm := .forbidden }
        else pidMapping.backpopulateState
      return (h.setPidMapping pid { pidMapping with backpopulateState := bpState }, true,
        nbEltsAdded)

def resetBackpopulateState (h : DsoHdr) (resetThreshold : ℤ) : DsoHdr :=
  { h with pidMap := h.pidMap.mapValues fun _ pidMapping =>
      if resetThreshold ≤ pidMapping.backpopulateState.nbUnfoundDsos
      then { pidMapping with backpopulateState := {} }
      else pidMapping }

/-- The loop of `pid_fork` over the mappings of the parent. -/
def copyMappings (childPid : ℤ) (parent : DsoMap) : DsoMap :=
  parent.entries.foldl (fun map e => map.insertOrAssign e.1 (e.2.withPid childPid)) .empty

def pidFork (h : DsoHdr) (childPid parentPid : ℤ) : DsoHdr :=
  match AList.lookup parentPid h.pidMap with
  | none => h
  | some parent =>
    match AList.lookup childPid h.pidMap with
    | some _ => h
    | none => h.setPidMapping childPid { map := copyMappings childPid parent.map }

def clearUnvisited (h : DsoHdr) (visitedPids : List ℤ) : DsoHdr × ℕ :=
  let pidsToClear := h.pidMap.keys.filter (· ∉ visitedPids)
  ({ h with pidMap := h.pidMap.eraseAll pidsToClear }, pidsToClear.length)

/-- The inner loop of `check_invariants`, over the entries of one map. -/
def checkEntries (pid : ℤ) : Option Dso → List (ℕ × Dso) → Bool
  | _, [] => true
  | previousDso, (start, dso) :: rest =>
    if dso.pid ≠ pid then false
    else if start ≠ dso.start then false
    else if previousDso.any (fun p => dso.start ≤ p.endAddr) then false
    else checkEntries pid (some dso) rest

def checkInvariants (h : DsoHdr) : Bool :=
  h.pidMap.entries.all fun e => checkEntries e.1 none e.2.map.entries

end DsoHdr

/-- A call of the public interface. What the environment answers is part of the
call: the clock and the lines of `/proc/<pid>/maps` for a backpopulation. -/
inductive DsoOp
  | insertEraseOverlap (dso : Dso)
  | maybeInsertEraseOverlap (dso : Dso) (timestamp : ℤ)
  | pidBackpopulate (pid now : ℤ) (procMaps : Option (List (List Char))) (nbEltsAdded : ℤ)
  | pidFork (childPid parentPid : ℤ)
  | pidFree (pid : ℤ)
  | clearUnvisited (visitedPids : List ℤ)
  | resetBackpopulateState (resetThreshold : ℤ)
  deriving DecidableEq, Repr

namespace DsoHdr

def step (h : DsoHdr) : DsoOp → Except Fatal DsoHdr
  | .insertEraseOverlap dso => (h.insertEraseOverlap dso).map Prod.fst
  | .maybeInsertEraseOverlap dso timestamp => (h.maybeInsertEraseOverlap dso timestamp).map Prod.fst
  | .pidBackpopulate pid now procMaps nbEltsAdded =>
    (h.pidBackpopulate pid now procMaps nbEltsAdded).map Prod.fst
  | .pidFork childPid parentPid => .ok (h.pidFork childPid parentPid)
  | .pidFree pid => .ok (h.pidFree pid)
  | .clearUnvisited visitedPids => .ok (h.clearUnvisited visitedPids).1
  | .resetBackpopulateState resetThreshold => .ok (h.resetBackpopulateState resetThreshold)

/-- The regions that the lines of `/proc/<pid>/maps` describe; other lines are skipped. -/
def procRegions (pid : ℤ) (lines : List (List Char)) : List Dso :=
  (lines.map (dsoFromProcLine pid)).filter fun dso => dso.pid ≠ -1

/-- The regions that a call hands to `insert_erase_overlap`: an event that is too old
is dropped before, and a backpopulation that is not allowed reads no line. -/
def inserted (h : DsoHdr) : DsoOp → List Dso
  | .insertEraseOverlap dso => [dso]
  | .maybeInsertEraseOverlap dso timestamp =>
    if timestamp < (h.pidMap.get dso.pid).backpopulateState.lastBackpopulateTime then []
    else [dso]
  | .pidBackpopulate pid _ (some lines) _ =>
    if (h.pidMap.get pid).backpopulateState.perm = .allowed then procRegions pid lines else []
  | _ => []

end DsoHdr

end Ddprof
