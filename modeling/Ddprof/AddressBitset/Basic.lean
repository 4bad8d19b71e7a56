import Ddprof.Lib.Probing

/-!
The set of tracked addresses (`address_bitset.hpp`, `address_bitset.cc`).

Addresses are sharded over open-addressing tables of atomic words; mappings have
a table of their own. A call of `add` or `remove` is a sequence of atomic
accesses, and other threads run between any two of them: a call is modelled as
a program counter together with one step function on the shared tables.
-/

namespace Ddprof

def emptySlot : ℕ := 0

def deletedSlot : ℕ := 1

/-- The bits of a number that is no power of two are counted by shifting it out. -/
def roundUpToPowerOfTwo (num : ℕ) : ℕ :=
  if num = 0 then num
  else if num &&& (num - 1) = 0 then num
  else 1 <<< num.size

structure AddressTable where
  tableSize : ℕ
  maxCapacity : ℕ
  slots : ℕ → ℕ := fun _ => emptySlot
  /-- A `size_t`: it wraps when a `remove` counts before the `add` it follows. -/
  count : BitVec 64 := 0

namespace AddressTable

def make (size : ℕ) : AddressTable :=
  { tableSize := roundUpToPowerOfTwo size
    maxCapacity := roundUpToPowerOfTwo size * 80 / 100 }

def tableMask (t : AddressTable) : ℕ := t.tableSize - 1

def write (t : AddressTable) (slot value : ℕ) : AddressTable :=
  { t with slots := Function.update t.slots slot value }

theorem slots_write_self (t : AddressTable) (slot value : ℕ) :
    (t.write slot value).slots slot = value := Function.update_self ..

theorem slots_write_of_ne {slot slot' : ℕ} (h : slot' ≠ slot) (t : AddressTable) (value : ℕ) :
    (t.write slot value).slots slot' = t.slots slot' := Function.update_of_ne h ..

end AddressTable

def computeFullHash (addr : ℕ) : BitVec 64 :=
  let h := BitVec.ofNat 64 (addr >>> 4)
  let h := h * 0x9E3779B97F4A7C15#64
  let h := h ^^^ (h >>> 32)
  let h := h * 0x85EBCA77C2B2AE63#64
  h ^^^ (h >>> 32)

/-- The hash is cut to 32 bits before it is masked. -/
def hashToSlot (hash : BitVec 64) (tableMask : ℕ) : ℕ :=
  (hash.setWidth 32).toNat &&& tableMask

namespace AddressTable

def nextSlot (t : AddressTable) (slot : ℕ) : ℕ := (slot + 1) % 2 ^ 32 &&& t.tableMask

/-- The slots that `add` and `remove` visit for an address. -/
def probe (t : AddressTable) (addr : ℕ) : ℕ → ℕ
  | 0 => hashToSlot (computeFullHash addr) t.tableMask
  | i + 1 => t.nextSlot (t.probe addr i)

end AddressTable

def maxProbeDistance : ℕ := 64

/-- One of the chunk tables, or the table for large allocations. -/
inductive Shard
  | chunk (idx : ℕ)
  | large
  deriving DecidableEq, Repr

def shardOf (addr : ℕ) (isLargeAlloc : Bool) : Shard :=
  if isLargeAlloc then .large else .chunk (addr >>> 27 &&& 127)

structure AddressBitset where
  perTableSize : ℕ
  tables : Shard → Option AddressTable

namespace AddressBitset

/-- The table for large allocations is created eagerly, the others with the first
address of their chunk. -/
def init (tableSize : ℕ) : AddressBitset :=
  let perTableSize := if tableSize ≠ 0 then tableSize else 32768
  { perTableSize := perTableSize
    tables := fun shard => match shard with
      | .chunk _ => none
      | .large => some (AddressTable.make perTableSize) }

def setTable (b : AddressBitset) (shard : Shard) (t : AddressTable) : AddressBitset :=
  { b with tables := Function.update b.tables shard (some t) }

theorem tables_setTable_self (b : AddressBitset) (shard : Shard) (t : AddressTable) :
    (b.setTable shard t).tables shard = some t := Function.update_self ..

theorem tables_setTable_of_ne {shard shard' : Shard} (h : shard' ≠ shard) (b : AddressBitset)
    (t : AddressTable) : (b.setTable shard t).tables shard' = b.tables shard' :=
  Function.update_of_ne h ..

end AddressBitset

/-! ### Calls -/

/-- Where a call of `add` or `remove` stands: before which atomic access, or at its end. -/
inductive BitsetPc
  | addGetTable
  | addInstall
  | addCheckCapacity
  | addLoad (probe slot : ℕ)
  | addClaim (probe slot expected : ℕ)
  | addReload (probe slot : ℕ)
  | addCount
  | addDone (result : Bool)
  | removeGetTable
  | removeLoad (probe slot : ℕ)
  | removeDelete (slot : ℕ)
  | removeCount
  | removeDone (result : Bool)
  deriving DecidableEq, Repr

structure BitsetOp where
  addr : ℕ
  isLargeAlloc : Bool
  pc : BitsetPc
  deriving DecidableEq, Repr

namespace BitsetOp

def add (addr : ℕ) (isLargeAlloc : Bool) : BitsetOp := ⟨addr, isLargeAlloc, .addGetTable⟩

def remove (addr : ℕ) (isLargeAlloc : Bool) : BitsetOp := ⟨addr, isLargeAlloc, .removeGetTable⟩

def shard (op : BitsetOp) : Shard := shardOf op.addr op.isLargeAlloc

def goto (op : BitsetOp) (pc : BitsetPc) : BitsetOp := { op with pc := pc }

end BitsetOp

namespace AddressBitset

/-- The accesses that come after a call has its table. -/
def stepTable (b : AddressBitset) (op : BitsetOp) (t : AddressTable) : AddressBitset × BitsetOp :=
  match op.pc with
  | .addCheckCapacity =>
    if t.maxCapacity ≤ t.count.toNat then (b, op.goto (.addDone false))
    else (b, op.goto (.addLoad 0 (hashToSlot (computeFullHash op.addr) t.tableMask)))
  | .addLoad probe slot =>
    if maxProbeDistance ≤ probe then (b, op.goto (.addDone false))
    else if t.slots slot = emptySlot ∨ t.slots slot = deletedSlot then
      (b, op.goto (.addClaim probe slot (t.slots slot)))
    else if t.slots slot = op.addr then (b, op.goto (.addDone false))
    else (b, op.goto (.addLoad (probe + 1) (t.nextSlot slot)))
  | .addClaim probe slot expected =>
    if t.slots slot = expected then
      (b.setTable op.shard (t.write slot op.addr), op.goto .addCount)
    else (b, op.goto (.addReload probe slot))
  | .addReload probe slot =>
    if t.slots slot = op.addr then (b, op.goto (.addDone false))
    else (b, op.goto (.addLoad (probe + 1) (t.nextSlot slot)))
  | .addCount =>
    (b.setTable op.shard { t with count := t.count + 1 }, op.goto (.addDone true))
  | .removeLoad probe slot =>
    if maxProbeDistance ≤ probe then (b, op.goto (.removeDone false))
    else if t.slots slot = emptySlot then (b, op.goto (.removeDone false))
    else if t.slots slot = deletedSlot then
      (b, op.goto (.removeLoad (probe + 1) (t.nextSlot slot)))
    else if t.slots slot = op.addr then (b, op.goto (.removeDelete slot))
    else (b, op.goto (.removeLoad (probe + 1) (t.nextSlot slot)))
  | .removeDelete slot =>
    if t.slots slot = op.addr then
      (b.setTable op.shard (t.write slot deletedSlot), op.goto .removeCount)
    else (b, op.goto (.removeDone false))
  | .removeCount =>
    (b.setTable op.shard { t with count := t.count - 1 }, op.goto (.removeDone true))
  | .addGetTable | .addInstall | .addDone _ | .removeGetTable | .removeDone _ => (b, op)

def step (b : AddressBitset) (op : BitsetOp) : AddressBitset × BitsetOp :=
  match op.pc with
  | .addGetTable =>
    if (b.tables op.shard).isSome then (b, op.goto .addCheckCapacity)
    else (b, op.goto .addInstall)
  | .addInstall =>
    -- another thread may have installed its table in the meantime
    if (b.tables op.shard).isSome then (b, op.goto .addCheckCapacity)
    else (b.setTable op.shard (AddressTable.make b.perTableSize), op.goto .addCheckCapacity)
  | .removeGetTable =>
    match b.tables op.shard with
    | none => (b, op.goto (.removeDone false))
    | some t =>
      (b, op.goto (.removeLoad 0 (hashToSlot (computeFullHash op.addr) t.tableMask)))
  | _ =>
    match b.tables op.shard with
    | none => (b, op)
    | some t => b.stepTable op t

def Holds (b : AddressBitset) (addr : ℕ) (shard : Shard) (slot : ℕ) : Prop :=
  ∃ t, b.tables shard = some t ∧ t.slots slot = addr

def Contains (b : AddressBitset) (addr : ℕ) : Prop :=
  addr ≠ emptySlot ∧ addr ≠ deletedSlot ∧ ∃ shard slot, b.Holds addr shard slot

end AddressBitset

end Ddprof
