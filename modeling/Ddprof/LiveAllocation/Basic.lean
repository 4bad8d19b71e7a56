import Ddprof.Lib.UnorderedMap

/-!
`LiveAllocation`: the allocations that have been sampled and not yet freed.

For each watcher and process there are two maps. The address map gives the
value of the allocation at an address and a pointer to the entry of its stack
trace in the second map, which cumulates values and counts per stack trace.

The pointer is a raw pointer to a node of an `unordered_map`. It is modelled by
the key of the node and an identifier that is new with every node, so that a
pointer to a node that has been erased does not come back to life when the same
stack trace is inserted again. Values are `int64_t` and wrap modulo `2 ^ 64`;
counts, which are bounded by the number of addresses, are natural numbers.
-/

namespace Ddprof

structure FunLoc where
  ip : ℕ
  elfAddr : ℕ
  fileInfoId : ℤ
  symbolIdx : ℤ
  mapInfoIdx : ℤ
  deriving DecidableEq, Repr

structure UnwindOutput where
  locs : List FunLoc
  containerId : List Char
  exeName : List Char
  threadName : List Char
  pid : ℤ
  tid : ℤ
  deriving DecidableEq, Repr

/-! ### Cumulated values per stack trace -/

structure ValueAndCount where
  value : BitVec 64 := 0
  count : ℕ := 0
  deriving DecidableEq, Repr

namespace ValueAndCount

def add (value : BitVec 64) (d : ValueAndCount) : ValueAndCount :=
  { value := d.value + value, count := d.count + 1 }

/-- The count is only decremented when it is not zero. -/
def remove (value : BitVec 64) (d : ValueAndCount) : ValueAndCount :=
  { value := d.value - value, count := d.count - 1 }

end ValueAndCount

structure StackNode where
  id : ℕ
  data : ValueAndCount
  deriving DecidableEq, Repr

/-- `PprofStacks::value_type *`. -/
structure StackPtr where
  stack : UnwindOutput
  node : ℕ
  deriving DecidableEq, Repr

abbrev PprofStacks := UnorderedMap UnwindOutput StackNode

namespace PprofStacks

def deref (pprofStacks : PprofStacks) (ptr : StackPtr) : Option ValueAndCount :=
  match AList.lookup ptr.stack pprofStacks with
  | none => none
  | some n => if n.id = ptr.node then some n.data else none

/-- Update through a pointer. Through a dangling pointer nothing happens here; that
the code never holds one is part of what is proved. -/
def update (pprofStacks : PprofStacks) (ptr : StackPtr) (f : ValueAndCount → ValueAndCount) :
    PprofStacks :=
  match pprofStacks.deref ptr with
  | none => pprofStacks
  | some d => AList.insert ptr.stack ⟨ptr.node, f d⟩ pprofStacks

/-- Take a value out of the stack trace a pointer points at, and erase the stack
trace with its last allocation. The node `keep` is never erased. -/
def release (pprofStacks : PprofStacks) (keep : Option StackPtr) (ptr : StackPtr)
    (value : BitVec 64) : PprofStacks :=
  let pprofStacks := pprofStacks.update ptr (ValueAndCount.remove value)
  if some ptr ≠ keep ∧ (pprofStacks.deref ptr).any (fun d => d.count = 0) then
    AList.erase ptr.stack pprofStacks
  else pprofStacks

end PprofStacks

/-! ### One process -/

structure ValuePerAddress where
  value : BitVec 64 := 0
  uniqueStack : Option StackPtr := none
  deriving DecidableEq, Repr

instance : Inhabited ValuePerAddress := ⟨{}⟩

structure PidStacks where
  addressMap : UnorderedMap ℕ ValuePerAddress := ∅
  uniqueStacks : PprofStacks := ∅
  /-- The identifier of the next node to be allocated. -/
  nextNode : ℕ := 0

instance : Inhabited PidStacks := ⟨{}⟩

namespace PidStacks

/-- The result says whether the address was known. -/
def registerDeallocation (ps : PidStacks) (address : ℕ) : PidStacks × Bool :=
  match AList.lookup address ps.addressMap with
  | none => (ps, false)
  | some v =>
    let pprofStacks := match v.uniqueStack with
      | none => ps.uniqueStacks
      | some ptr => ps.uniqueStacks.release none ptr v.value
    ({ ps with addressMap := AList.erase address ps.addressMap, uniqueStacks := pprofStacks }, true)

def findOrEmplace (ps : PidStacks) (uo : UnwindOutput) : PidStacks × StackPtr :=
  match AList.lookup uo ps.uniqueStacks with
  | some n => (ps, ⟨uo, n.id⟩)
  | none =>
    ({ ps with
        uniqueStacks := AList.insert uo ⟨ps.nextNode, {}⟩ ps.uniqueStacks
        nextNode := ps.nextNode + 1 }, ⟨uo, ps.nextNode⟩)

/-- The result says whether the address already held an allocation. -/
def registerAllocation (ps : PidStacks) (uo : UnwindOutput) (address : ℕ) (value : BitVec 64) :
    PidStacks × Bool :=
  if uo.locs = [] then (ps, false)
  else
    let (ps, ptr) := ps.findOrEmplace uo
    let v := ps.addressMap.get address
    let existing := v.value ≠ 0
    let pprofStacks :=
      if existing then
        -- a free has been missed: take the old allocation out
        match v.uniqueStack with
        | none => ps.uniqueStacks
        | some old => ps.uniqueStacks.release (some ptr) old v.value
      else ps.uniqueStacks
    ({ ps with
        addressMap := AList.insert address ⟨value, some ptr⟩ ps.addressMap
        uniqueStacks := pprofStacks.update ptr (ValueAndCount.add value) }, existing)

end PidStacks

/-! ### All watchers and processes -/

abbrev PidMap := UnorderedMap ℤ PidStacks

structure LiveAllocation where
  watcherVector : List PidMap := []
  unmatchedDeallocations : ℕ := 0
  alreadyExistingAllocations : ℕ := 0

/-- `access_resize`: the vector grown so that the index is in range. -/
def accessResize (v : List PidMap) (index : ℕ) : List PidMap :=
  v ++ List.replicate (index + 1 - v.length) ∅

namespace LiveAllocation

/-- `access_resize(_watcher_vector, watcher_pos)[pid]`, read. -/
def pidStacks (la : LiveAllocation) (watcherPos : ℕ) (pid : ℤ) : PidStacks :=
  ((la.watcherVector.getD watcherPos ∅) : PidMap).get pid

/-- The same access, written back. -/
def setPidStacks (la : LiveAllocation) (watcherPos : ℕ) (pid : ℤ) (ps : PidStacks) :
    LiveAllocation :=
  let v := accessResize la.watcherVector watcherPos
  { la with watcherVector := v.set watcherPos (AList.insert pid ps (v.getD watcherPos ∅)) }

def registerAllocation (la : LiveAllocation) (uo : UnwindOutput) (address : ℕ)
    (value : BitVec 64) (watcherPos : ℕ) (pid : ℤ) : LiveAllocation :=
  let (ps, existing) := (la.pidStacks watcherPos pid).registerAllocation uo address value
  let la := la.setPidStacks watcherPos pid ps
  if existing then
    { la with alreadyExistingAllocations := la.alreadyExistingAllocations + 1 }
  else la

def registerDeallocation (la : LiveAllocation) (address : ℕ) (watcherPos : ℕ) (pid : ℤ) :
    LiveAllocation :=
  let (ps, registered) := (la.pidStacks watcherPos pid).registerDeallocation address
  let la := la.setPidStacks watcherPos pid ps
  if registered then la
  else { la with unmatchedDeallocations := la.unmatchedDeallocations + 1 }

def clearPidForWatcher (la : LiveAllocation) (watcherPos : ℕ) (pid : ℤ) : LiveAllocation :=
  let v := accessResize la.watcherVector watcherPos
  { la with watcherVector := v.set watcherPos (AList.erase pid (v.getD watcherPos ∅)) }

/-- `cycle` resets the statistics. -/
def cycle (la : LiveAllocation) : LiveAllocation :=
  { la with unmatchedDeallocations := 0, alreadyExistingAllocations := 0 }

def clearPid (la : LiveAllocation) (pid : ℤ) : LiveAllocation :=
  { la with watcherVector := la.watcherVector.map (AList.erase pid) }

end LiveAllocation

end Ddprof
