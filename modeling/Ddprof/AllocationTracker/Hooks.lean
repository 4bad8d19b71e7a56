import Ddprof.AddressBitset.Calls
import Ddprof.Lib.UnorderedMap

/-!
The allocation hooks of the library and the tracker they call
(`symbol_overrides.cc`, `allocation_tracker.cc`).

A hooked call runs a short program of atomic steps: calls of the real allocator,
accesses to the set of tracked addresses, reservations in the ring buffer and
their commits. Any number of threads run such programs. What the environment
decides at a step is a parameter of the step: the address that the real
allocator returns, whether an allocation is sampled and with what period, and
whether a reservation or a write to the event descriptor succeeds.
-/

namespace Ddprof

/-! ### The steps of a hook -/

inductive Instr
  -- `ptr = ref(size)`
  | allocate
  -- `ref(ptr)` of a hook that frees
  | release
  -- `ptr = ref(ptr, size)`
  | reallocate (size : ℕ)
  -- `ref(ptr, size, extra, flags)` of `xallocx`, which resizes in place
  | resize
  -- `helper.track(ptr, size)`; some hooks test the pointer first
  | trackAllocation (testPtr : Bool)
  -- `helper.track(ptr)` or `track_deallocation_s(ptr)`
  | trackDeallocation
  -- in `_allocated_address_set.add` of `track_allocation`
  | adding (op : BitsetOp) (period : BitVec 64)
  -- the reservation of `push_alloc_sample`
  | pushAlloc (addr : ℕ) (period : BitVec 64)
  -- the commit and the notification of `push_alloc_sample`
  | commitAlloc (addr : ℕ)
  -- in `_allocated_address_set.remove` after a push that has failed
  | undoing (op : BitsetOp)
  -- in `_allocated_address_set.remove` of `track_deallocation`
  | removing (op : BitsetOp)
  -- the reservation of `push_dealloc_sample`, with its retries
  | pushDealloc
  -- the commit and the notification of `push_dealloc_sample`
  | commitDealloc
  -- `return ptr`
  | ret
  deriving DecidableEq, Repr

/-- The steps of the tracker, which a hook skips when its guard is not engaged. -/
def Instr.isTracking : Instr → Bool
  | .trackAllocation _ | .trackDeallocation => true
  | _ => false

inductive Hook
  | malloc (size : ℕ)
  | operatorNew (size : ℕ)
  | calloc (nmemb size : ℕ)
  | posixMemalign (alignment size : ℕ)
  | alignedAlloc (alignment size : ℕ)
  | memalign (alignment size : ℕ)
  | pvalloc (size : ℕ)
  | valloc (size : ℕ)
  | mallocx (size : ℕ)
  | realloc (ptr size : ℕ)
  | reallocarray (ptr nmemb size : ℕ)
  | rallocx (ptr size : ℕ)
  | xallocx (ptr size extra : ℕ)
  | free (ptr : ℕ)
  | freeSized (ptr size : ℕ)
  | freeAlignedSized (ptr alignment size : ℕ)
  | operatorDelete (ptr : ℕ)
  | dallocx (ptr : ℕ)
  | sdallocx (ptr size : ℕ)
  | mmap (addr length : ℕ) (fd : ℤ)
  | munmap (addr length : ℕ)
  deriving DecidableEq, Repr

namespace Hook

def allocating (testPtr : Bool) : List Instr := [.allocate, .trackAllocation testPtr, .ret]

def freeing (ptr : ℕ) : List Instr := if ptr = 0 then [] else [.trackDeallocation, .release]

def reallocating (ptr : ℕ) (size : ℕ) (track : List Instr) : List Instr :=
  (if ptr ≠ 0 then [.trackDeallocation] else []) ++ .reallocate size :: track ++ [.ret]

/-- The body of each hook. `posix_memalign` tests the error code and not the pointer. -/
def body : Hook → List Instr
  | malloc _ => allocating false
  | operatorNew _ => allocating false
  | calloc _ _ => allocating false
  | posixMemalign _ _ => allocating true
  | alignedAlloc _ _ => allocating true
  | memalign _ _ => allocating true
  | pvalloc _ => allocating true
  | valloc _ => allocating true
  | mallocx _ => allocating false
  | realloc ptr size => reallocating ptr size (if size ≠ 0 then [.trackAllocation false] else [])
  | reallocarray ptr nmemb size => reallocating ptr (nmemb * size) [.trackAllocation true]
  | rallocx ptr size => reallocating ptr size (if size ≠ 0 then [.trackAllocation false] else [])
  | xallocx _ _ _ => [.trackDeallocation, .resize, .trackAllocation false, .ret]
  | free ptr => freeing ptr
  | freeSized ptr _ => freeing ptr
  | freeAlignedSized ptr _ _ => freeing ptr
  | operatorDelete ptr => freeing ptr
  -- these two free the block before they track it
  | dallocx _ => [.release, .trackDeallocation]
  | sdallocx _ _ => [.release, .trackDeallocation]
  | mmap addr _ fd =>
    if addr = 0 ∧ fd = -1 then allocating true else [.allocate, .ret]
  | munmap _ _ => [.trackDeallocation, .release]

def arg : Hook → ℕ
  | realloc ptr _ | reallocarray ptr _ _ | rallocx ptr _ | xallocx ptr _ _ => ptr
  | free ptr | freeSized ptr _ | freeAlignedSized ptr _ _ | operatorDelete ptr => ptr
  | dallocx ptr | sdallocx ptr _ => ptr
  | munmap addr _ => addr
  | _ => 0

/-- The template argument `mmap_alloc` of the helper. -/
def mmapAlloc : Hook → Bool
  | mmap _ _ _ | munmap _ _ => true
  | _ => false

/-- The calls that may be made without a block. -/
def acceptsNull : Hook → Bool
  | xallocx _ _ _ | dallocx _ | sdallocx _ _ | munmap _ _ => false
  | _ => true

end Hook

/-! ### The process -/

inductive TrackerEvent
  | allocation (addr : ℕ) (period : BitVec 64)
  | deallocation (ptr : ℕ)
  deriving DecidableEq, Repr

structure Frame where
  ptr : ℕ
  isLarge : Bool
  todo : List Instr
  deriving DecidableEq, Repr

structure Process where
  bitset : AddressBitset := AddressBitset.init 0
  -- `_instance` is set
  active : Bool := true
  trackDeallocations : Bool := true
  failureCount : ℕ := 0
  lostAllocCount : ℕ := 0
  lostDeallocCount : ℕ := 0
  addressConflictCount : ℕ := 0
  -- The events in the ring buffer, in the order of their reservations.
  events : List TrackerEvent := []
  -- The addresses that the real allocator has handed out.
  allocated : Finset ℕ := ∅
  -- The blocks that the program has, with whether they are mappings.
  held : Finset (ℕ × Bool) := ∅
  threads : UnorderedMap ℕ Frame := ∅

inductive Reserve
  | ok
  | full
  | timeout
  deriving DecidableEq, Repr

structure Choice where
  -- The return value of the real allocator.
  address : ℕ := 0
  -- The size an allocation is accounted for; `none` when it is not sampled.
  period : Option (BitVec 64) := none
  reserve : Reserve := .ok
  writeOk : Bool := true
  deriving DecidableEq, Repr

namespace Process

def maxConsecutiveFailures : ℕ := 5

/-- `free_on_consecutive_failures`. -/
def countFailure (s : Process) (failure : Bool) : Process :=
  if failure then
    let s := { s with failureCount := s.failureCount + 1 }
    if maxConsecutiveFailures ≤ s.failureCount then
      { s with trackDeallocations := false, active := false }
    else s
  else { s with failureCount := 0 }

/-- `remove` after a push that has failed. -/
def undo (s : Process) (addr : ℕ) (isLarge : Bool) : List Instr :=
  if s.trackDeallocations ∧ addr ≠ 0 then [.undoing (.remove addr isLarge)] else []

def pushEvent (s : Process) (e : TrackerEvent) : Process := { s with events := s.events ++ [e] }

def allocate (s : Process) (address : ℕ) : Process :=
  if address = 0 then s else { s with allocated := insert address s.allocated }

/-- The allocator returns addresses that are not allocated. -/
def Available (s : Process) (address : ℕ) : Prop :=
  address = 0 ∨ address ≠ deletedSlot ∧ address ∉ s.allocated

instance (s : Process) (address : ℕ) : Decidable (s.Available address) :=
  inferInstanceAs (Decidable (_ ∨ _))

def release (s : Process) (ptr : ℕ) : Process := { s with allocated := s.allocated.erase ptr }

def hold (s : Process) (ptr : ℕ) (isLarge : Bool) : Process :=
  if ptr = 0 then s else { s with held := insert (ptr, isLarge) s.held }

/-- The first step of the program of a frame; `rest` is what follows it. -/
def exec (s : Process) (f : Frame) (rest : List Instr) (c : Choice) :
    Instr → Option (Process × Frame)
  | .allocate =>
    if s.Available c.address then
      some (s.allocate c.address, { f with ptr := c.address, todo := rest })
    else none
  | .release => some (s.release f.ptr, { f with todo := rest })
  | .reallocate size =>
    if c.address = 0 ∧ size ≠ 0 then
      -- the allocator has failed and the block is still the program's
      some (s.hold f.ptr f.isLarge, { f with ptr := 0, todo := rest })
    else if (s.release f.ptr).Available c.address then
      some ((s.release f.ptr).allocate c.address, { f with ptr := c.address, todo := rest })
    else none
  | .resize => some (s, { f with todo := rest })
  | .trackAllocation testPtr =>
    if (testPtr ∧ f.ptr = 0) ∨ !s.active then some (s, { f with todo := rest })
    else match c.period with
      | none => some (s, { f with todo := rest })
      | some period =>
        if s.trackDeallocations then
          some (s, { f with todo := .adding (.add f.ptr f.isLarge) period :: rest })
        else some (s, { f with todo := .pushAlloc f.ptr period :: rest })
  | .trackDeallocation =>
    if s.active ∧ s.trackDeallocations then
      some (s, { f with todo := .removing (.remove f.ptr f.isLarge) :: rest })
    else some (s, { f with todo := rest })
  | .adding op period =>
    match op.pc with
    | .addDone true => some (s, { f with todo := .pushAlloc f.ptr period :: rest })
    | .addDone false =>
      some ({ s with addressConflictCount := s.addressConflictCount + 1 },
        { f with todo := .pushAlloc 0 period :: rest })
    | _ =>
      let (bitset, op) := s.bitset.step op
      some ({ s with bitset := bitset }, { f with todo := .adding op period :: rest })
  | .pushAlloc addr period =>
    match c.reserve with
    | .ok =>
      some (s.pushEvent (.allocation addr period), { f with todo := .commitAlloc addr :: rest })
    | r =>
      let s := { s with lostAllocCount := s.lostAllocCount + 1 }.countFailure (r = Reserve.timeout)
      some (s, { f with todo := s.undo addr f.isLarge ++ rest })
  | .commitAlloc addr =>
    let s := s.countFailure (!c.writeOk)
    if c.writeOk then some (s, { f with todo := rest })
    else some (s, { f with todo := s.undo addr f.isLarge ++ rest })
  | .undoing op =>
    match op.pc with
    | .removeDone _ => some (s, { f with todo := rest })
    | _ =>
      let (bitset, op) := s.bitset.step op
      some ({ s with bitset := bitset }, { f with todo := .undoing op :: rest })
  | .removing op =>
    match op.pc with
    | .removeDone true => some (s, { f with todo := .pushDealloc :: rest })
    | .removeDone false => some (s, { f with todo := rest })
    | _ =>
      let (bitset, op) := s.bitset.step op
      some ({ s with bitset := bitset }, { f with todo := .removing op :: rest })
  | .pushDealloc =>
    match c.reserve with
    | .ok => some (s.pushEvent (.deallocation f.ptr), { f with todo := .commitDealloc :: rest })
    | r =>
      let s := { s with lostDeallocCount := s.lostDeallocCount + 1 }
      some (s.countFailure (r = Reserve.timeout), { f with todo := rest })
  | .commitDealloc => some (s.countFailure (!c.writeOk), { f with todo := rest })
  | .ret => some (s.hold f.ptr f.isLarge, { f with todo := rest })

inductive Label
  -- A thread makes a call; the guard of the helper may not be engaged.
  | call (thread : ℕ) (hook : Hook) (engaged : Bool)
  -- A thread goes on with its call.
  | run (thread : ℕ) (choice : Choice)
  deriving DecidableEq, Repr

def setThread (s : Process) (thread : ℕ) (f : Frame) : Process :=
  { s with threads := AList.insert thread f s.threads }

def endThread (s : Process) (thread : ℕ) : Process :=
  { s with threads := AList.erase thread s.threads }

/-- The program passes a block only if it has it, and no longer has it then. -/
def enter (s : Process) (thread : ℕ) (hook : Hook) (engaged : Bool) : Option Process :=
  let frame : Frame :=
    { ptr := hook.arg
      isLarge := hook.mmapAlloc
      todo := if engaged then hook.body else hook.body.filter fun i => !i.isTracking }
  if hook.arg = 0 then
    if hook.acceptsNull then some (s.setThread thread frame) else none
  else if (hook.arg, hook.mmapAlloc) ∈ s.held then
    some ({ s with held := s.held.erase (hook.arg, hook.mmapAlloc) }.setThread thread frame)
  else none

def step (s : Process) : Label → Option Process
  | .call thread hook engaged =>
    match AList.lookup thread s.threads with
    | none => s.enter thread hook engaged
    | some _ => none
  | .run thread c =>
    match AList.lookup thread s.threads with
    | none => none
    | some f =>
      match f.todo with
      | [] => some (s.endThread thread)
      | i :: rest =>
        match s.exec f rest c i with
        | none => none
        | some (s, f) => some (s.setThread thread f)

end Process

end Ddprof
