import Ddprof.Perf.EncodedFields
import Ddprof.Watcher.Basic

/-!
The event that `push_alloc_sample` writes, and what the profiler decodes of it.

The library lays an allocation out as the kernel lays out a sample: the fields of a record that has
the pid, the time, the address, the period, the registers and the stack, with the size of the
captured stack as an extra word at the end. The event is written in place into the bytes that the
ring buffer has reserved for it, whatever they held before. Its size is in a field of 16 bits.
-/

namespace Ddprof

open Circular (Byte leBytes leWord)
open Memory (load)

/-! ### The layout -/

namespace AllocationEvent

inductive Field
  | type | misc | size | pid | tid | time | addr | period | abi | regs | sizeStack | data | dynSize
  deriving DecidableEq, Repr

/-- `sizeof(AllocationEvent)`. -/
def sizeOf : ℕ := 56 + 8 * kPerfRegisterCount

namespace Field

def offset (stackSize : ℕ) : Field → ℕ
  | type => 0
  | misc => 4
  | size => 6
  | pid => 8
  | tid => 12
  | time => 16
  | addr => 24
  | period => 32
  | abi => 40
  | regs => 48
  | sizeStack => 48 + 8 * kPerfRegisterCount
  | data => sizeOf
  | dynSize => sizeOf + stackSize

def length (stackSize : ℕ) : Field → ℕ
  | type | pid | tid => 4
  | misc | size => 2
  | time | addr | period | abi | sizeStack | dynSize => 8
  | regs => 8 * kPerfRegisterCount
  | data => stackSize

theorem separate (stackSize : ℕ) {f g : Field} (hne : f ≠ g) :
    f.offset stackSize + f.length stackSize ≤ g.offset stackSize ∨
      g.offset stackSize + g.length stackSize ≤ f.offset stackSize := by
  cases f <;> cases g <;> first
    | exact absurd rfl hne
    | (simp only [offset, length, sizeOf, kPerfRegisterCount]; omega)

end Field

end AllocationEvent

def sizeofAllocationEvent (stackSize : ℕ) : ℕ := AllocationEvent.sizeOf + stackSize + 8

/-! ### The stack and the registers -/

/-- The bytes that `save_stack` copies from the stack of the thread; it returns their number.
The bounds of the stack are `[stackBegin, stackEnd)`. -/
def saveStack (mem : ℕ → Byte) (stackBegin stackEnd stackPtr bufferSize : ℕ) : List Byte :=
  -- a fiber that runs on a stack of its own
  if stackPtr < stackBegin ∨ stackEnd ≤ stackPtr then []
  else
    let savedStackSize : ℤ := min (bufferSize : ℤ) (stackEnd - stackPtr)
    if savedStackSize ≤ 0 then [] else load mem stackPtr savedStackSize.toNat

/-- What `save_context` puts into the event: the registers, and as much of the stack as fits. -/
structure SavedContext (bufferSize : ℕ) where
  regs : Fin kPerfRegisterCount → BitVec 64
  stack : List Byte
  length_le : stack.length ≤ bufferSize

theorem length_saveStack_le (mem : ℕ → Byte) (stackBegin stackEnd stackPtr bufferSize : ℕ) :
    (saveStack mem stackBegin stackEnd stackPtr bufferSize).length ≤ bufferSize := by
  rw [saveStack]
  split
  · exact Nat.zero_le _
  · simp only
    split
    · exact Nat.zero_le _
    · rw [Memory.length_load]
      omega

def saveContext (mem : ℕ → Byte) (stackBegin stackEnd : ℕ)
    (regs : Fin kPerfRegisterCount → BitVec 64) (bufferSize : ℕ) : SavedContext bufferSize where
  regs := regs
  stack := saveStack mem stackBegin stackEnd (regs PerfReg.rsp.index).toNat bufferSize
  length_le := length_saveStack_le ..

/-- The room for the stack: the estimated size of the stack with a margin for the frames of
`save_context`, but no more than requested. `stackSize` is the distance from the end of the
stack, which is negative on another stack. -/
def sampleStackSize (kStackMargin stackSize : ℤ) (requested : ℕ) : ℕ :=
  alignUp (min (max (stackSize + kStackMargin) 0) requested).toNat 8 % 2 ^ 32

theorem sampleStackSize_eq (kStackMargin stackSize : ℤ) {requested : ℕ}
    (hlt : requested < 2 ^ 32) (hdvd : 8 ∣ requested) :
    sampleStackSize kStackMargin stackSize requested =
      ((min (max (stackSize + kStackMargin) 0) requested).toNat + 7) / 8 * 8 := by
  set x := (min (max (stackSize + kStackMargin) 0) (requested : ℤ)).toNat with hx
  have hle : x ≤ requested := by omega
  rw [sampleStackSize, ← hx, alignUp_eight (by omega)]
  exact Nat.mod_eq_of_lt (by omega)

structure AllocationSample where
  pid : BitVec 32
  tid : BitVec 32
  /-- `PerfClock::now()` -/
  time : BitVec 64
  addr : BitVec 64
  allocatedSize : BitVec 64
  deriving DecidableEq, Repr

/-! ### The event -/

variable {stackSize : ℕ}

namespace AllocationEvent

/-- `PERF_RECORD_SAMPLE`. -/
def perfRecordSample : ℕ := 9

/-- What `push_alloc_sample` writes, in its order. A store into a field keeps as many bytes as the
field has. -/
def writes (s : AllocationSample) (context : SavedContext stackSize) : List (Field × List Byte) :=
  [ (.regs, ((List.ofFn context.regs).map BitVec.toNat).flatMap (leBytes 8)),
    (.data, context.stack),
    (.dynSize, leBytes 8 context.stack.length),
    (.misc, leBytes 2 0),
    (.size, leBytes 2 (sizeofAllocationEvent stackSize)),
    (.type, leBytes 4 perfRecordSample),
    (.abi, leBytes 8 regsAbi64),
    (.time, leBytes 8 s.time.toNat),
    (.addr, leBytes 8 s.addr.toNat),
    (.pid, leBytes 4 s.pid.toNat),
    (.tid, leBytes 4 s.tid.toNat),
    (.period, leBytes 8 s.allocatedSize.toNat),
    (.sizeStack, leBytes 8 stackSize) ]

def write (out : ℕ → Byte) (s : AllocationSample) (context : SavedContext stackSize) : ℕ → Byte :=
  Memory.storeAll out ((writes s context).map fun w => (w.1.offset stackSize, w.2))

variable (s : AllocationSample) (context : SavedContext stackSize)

theorem length_le_of_mem_writes {w : Field × List Byte} (hw : w ∈ writes s context) :
    w.2.length ≤ w.1.length stackSize := by
  have hstack := context.length_le
  simp only [writes, List.mem_cons, List.not_mem_nil, or_false] at hw
  rcases hw with rfl | rfl | rfl | rfl | rfl | rfl | rfl | rfl | rfl | rfl | rfl | rfl | rfl
  case inl =>
    simp only [Memory.length_flatMap_leBytes, List.length_map, List.length_ofFn, Field.length,
      le_refl]
  case inr.inl => exact hstack
  all_goals simp [Field.length]

theorem pairwise_separate_writes :
    ((writes s context).map fun w => (w.1.offset stackSize, w.2)).Pairwise Memory.Separate := by
  have hnodup : (writes s context).Pairwise fun w w' => w.1 ≠ w'.1 :=
    List.pairwise_map.mp (show ((writes s context).map Prod.fst).Nodup by
      change [Field.regs, .data, .dynSize, .misc, .size, .type, .abi, .time, .addr, .pid, .tid,
        .period, .sizeStack].Nodup
      decide)
  refine List.pairwise_map.mpr (hnodup.imp_of_mem fun {w w'} hw hw' hne => ?_)
  have hlength := length_le_of_mem_writes s context hw
  have hlength' := length_le_of_mem_writes s context hw'
  rcases Field.separate stackSize hne with hle | hle
  · exact .inl (by simp only; omega)
  · exact .inr (by simp only; omega)

variable (out : ℕ → Byte)

/-- Every field stands in the event as it was written. -/
theorem load_write (f : Field) {bs : List Byte} (h : (f, bs) ∈ writes s context) :
    load (write out s context) (f.offset stackSize) bs.length = bs :=
  Memory.load_storeAll (w := (f.offset stackSize, bs)) (pairwise_separate_writes s context)
    (List.mem_map_of_mem h) out

theorem leWord_load_write (f : Field) {k w : ℕ} (h : (f, leBytes k w) ∈ writes s context)
    (hw : w < 256 ^ k) : leWord (load (write out s context) (f.offset stackSize) k) = w := by
  have hload := load_write s context out f h
  rw [Circular.length_leBytes] at hload
  rw [hload, Circular.leWord_leBytes, Nat.mod_eq_of_lt hw]

end AllocationEvent

def allocationEventRecord (address : ℕ) (out : ℕ → Byte) (s : AllocationSample)
    (context : SavedContext stackSize) : PerfRecord :=
  recordAt address (AllocationEvent.write out s context) (sizeofAllocationEvent stackSize)

/-- The sample type of a watcher of live allocations. -/
def allocationStypes : ℕ := baseStypes ||| perfSampleAddr

theorem filter_isIn_allocationStypes : fieldOrder.filter (·.isIn allocationStypes) =
    [.tid, .time, .addr, .period, .regsUser, .stackUser] := by decide

/-- Where the decoder finds the fields of an event with registers of 64-bit code. -/
theorem hdr2samp_allocationStypes {hdr : PerfRecord} (habi : hdr.word 4 = regsAbi64)
    (before : PerfEventSample) :
    hdr2samp before hdr allocationStypes =
      (SampleField.stackUser.store hdr 25
        { before with
          header := wordAt hdr.bytes 0
          pid := hdr.half0 0
          tid := hdr.half1 0
          time := hdr.word 1
          addr := hdr.word 2
          period := hdr.word 3
          abi := regsAbi64
          regs := hdr.pointer 5 }, true) := by
  have hin (f : SampleField) (hf : f ∈ fieldOrder.filter (·.isIn allocationStypes)) :
      f.isIn allocationStypes = true := (List.mem_filter.mp hf).2
  rw [filter_isIn_allocationStypes] at hin
  rw [hdr2samp, foldl_step_filter, filter_isIn_allocationStypes]
  simp only [List.foldl_cons, List.foldl_nil]
  rw [Cursor.step_of_isIn rfl (hin .tid (by decide)),
    Cursor.step_of_isIn rfl (hin .time (by decide)),
    Cursor.step_of_isIn rfl (hin .addr (by decide)),
    Cursor.step_of_isIn rfl (hin .period (by decide)),
    Cursor.step_of_isIn rfl (hin .regsUser (by decide)),
    Cursor.step_of_isIn ?_ (hin .stackUser (by decide))]
  · simp [SampleField.store, SampleField.next, SampleField.rejects, habi, kPerfRegisterCount]
  · simp [SampleField.rejects, SampleField.next, habi]

section Record

variable (address : ℕ) (out : ℕ → Byte) (s : AllocationSample) (context : SavedContext stackSize)

theorem word_allocationEventRecord (f : AllocationEvent.Field) {buf w : ℕ}
    (hf : wordOffset buf = f.offset stackSize) (hlength : f.length stackSize = 8)
    (h : (f, leBytes 8 w) ∈ AllocationEvent.writes s context) (hw : w < 2 ^ 64) :
    (allocationEventRecord address out s context).word buf = w := by
  have hroom : wordOffset buf + 8 ≤ sizeofAllocationEvent stackSize := by
    rw [hf]
    cases f <;> simp [AllocationEvent.Field.offset, AllocationEvent.Field.length,
      sizeofAllocationEvent, AllocationEvent.sizeOf] at hlength ⊢ <;> omega
  rw [allocationEventRecord, word_recordAt hroom, hf]
  exact AllocationEvent.leWord_load_write s context out f h
    (by rwa [show 256 ^ 8 = 2 ^ 64 from rfl])

theorem halves_allocationEventRecord :
    (allocationEventRecord address out s context).half0 0 = s.pid.toNat ∧
      (allocationEventRecord address out s context).half1 0 = s.tid.toNat := by
  have hroom : wordOffset 0 + 8 ≤ sizeofAllocationEvent stackSize := by
    rw [wordOffset, perfHeaderSize, sizeofAllocationEvent, AllocationEvent.sizeOf]
    omega
  rw [allocationEventRecord, half0_recordAt hroom, half1_recordAt hroom]
  constructor
  · exact AllocationEvent.leWord_load_write s context out .pid (by simp [AllocationEvent.writes])
      s.pid.isLt
  · exact AllocationEvent.leWord_load_write s context out .tid (by simp [AllocationEvent.writes])
      s.tid.isLt

theorem word_regs_allocationEventRecord (i : Fin kPerfRegisterCount) :
    leWord (load (allocationEventRecord address out s context).mem
      ((allocationEventRecord address out s context).pointer 5 + 8 * i) 8) =
      (context.regs i).toNat := by
  have hi := i.isLt
  have hmem : (.regs, ((List.ofFn context.regs).map BitVec.toNat).flatMap (leBytes 8)) ∈
      AllocationEvent.writes s context := by simp [AllocationEvent.writes]
  have hregs := AllocationEvent.load_write s context out .regs hmem
  have hroom : wordOffset 5 + 8 * i + 8 ≤ sizeofAllocationEvent stackSize := by
    rw [wordOffset, perfHeaderSize, sizeofAllocationEvent, AllocationEvent.sizeOf]
    omega
  rw [Memory.length_flatMap_leBytes, List.length_map, List.length_ofFn] at hregs
  -- the register is a part of the array
  rw [allocationEventRecord, pointer_recordAt, Nat.add_assoc, load_mem_recordAt hroom,
    show wordOffset 5 = AllocationEvent.Field.regs.offset stackSize from rfl,
    ← Memory.take_drop_load (n := 8 * kPerfRegisterCount) (by omega), hregs,
    Memory.take_drop_flatMap_leBytes _ (by simp), Circular.leWord_leBytes,
    List.getElem_map, List.getElem_ofFn]
  exact Nat.mod_eq_of_lt (context.regs i).isLt

theorem load_stack_allocationEventRecord :
    load (allocationEventRecord address out s context).mem
      ((allocationEventRecord address out s context).pointer 26) context.stack.length =
      context.stack := by
  have hle := context.length_le
  have hmem : (.data, context.stack) ∈ AllocationEvent.writes s context := by
    simp [AllocationEvent.writes]
  have hroom : wordOffset 26 + context.stack.length ≤ sizeofAllocationEvent stackSize := by
    rw [wordOffset, perfHeaderSize, sizeofAllocationEvent, AllocationEvent.sizeOf,
      kPerfRegisterCount]
    omega
  rw [allocationEventRecord, pointer_recordAt, load_mem_recordAt hroom]
  exact AllocationEvent.load_write s context out .data hmem

theorem store_stackUser_allocationEventRecord (hlt : stackSize < 2 ^ 32) (hdvd : 8 ∣ stackSize)
    (sample : PerfEventSample) :
    SampleField.stackUser.store (allocationEventRecord address out s context) 25 sample =
      { sample with
        sizeStack := context.stack.length
        dataStack :=
          if stackSize = 0 then 0 else (allocationEventRecord address out s context).pointer 26
        dynSizeStack := context.stack.length } := by
  have hle := context.length_le
  have hsize : (allocationEventRecord address out s context).word 25 = stackSize :=
    word_allocationEventRecord address out s context .sizeStack rfl rfl
      (by simp [AllocationEvent.writes]) (by omega)
  have hwords : SampleField.stackWords stackSize = stackSize / 8 := by
    rw [SampleField.stackWords, Nat.mod_eq_of_lt (by omega)]
    omega
  have hdyn : (allocationEventRecord address out s context).word (25 + 1 + stackSize / 8) =
      context.stack.length := by
    refine word_allocationEventRecord address out s context .dynSize ?_ rfl
      (by simp [AllocationEvent.writes]) (by omega)
    rw [wordOffset, perfHeaderSize, AllocationEvent.Field.offset, AllocationEvent.sizeOf,
      kPerfRegisterCount]
    omega
  simp only [SampleField.store, hsize, hwords, hdyn]
  rcases Nat.eq_zero_or_pos stackSize with hzero | hpos
  · have hempty : context.stack.length = 0 := by omega
    simp [hzero, hempty]
  · simp only [Nat.pos_iff_ne_zero.mp hpos, if_false, Nat.not_lt.mpr hle]

theorem hdr2samp_eq_of_allocationEventRecord (hlt : stackSize < 2 ^ 32) (hdvd : 8 ∣ stackSize)
    (before : PerfEventSample) :
    hdr2samp before (allocationEventRecord address out s context) allocationStypes =
      ({ before with
          header := wordAt (allocationEventRecord address out s context).bytes 0
          pid := s.pid.toNat
          tid := s.tid.toNat
          time := s.time.toNat
          addr := s.addr.toNat
          period := s.allocatedSize.toNat
          abi := regsAbi64
          regs := (allocationEventRecord address out s context).pointer 5
          sizeStack := context.stack.length
          dataStack :=
            if stackSize = 0 then 0 else (allocationEventRecord address out s context).pointer 26
          dynSizeStack := context.stack.length }, true) := by
  obtain ⟨hpid, htid⟩ := halves_allocationEventRecord address out s context
  have hword := word_allocationEventRecord address out s context
  have habi : (allocationEventRecord address out s context).word 4 = regsAbi64 :=
    hword .abi rfl rfl (by simp [AllocationEvent.writes]) (by decide)
  have htime : (allocationEventRecord address out s context).word 1 = s.time.toNat :=
    hword .time rfl rfl (by simp [AllocationEvent.writes]) s.time.isLt
  have haddr : (allocationEventRecord address out s context).word 2 = s.addr.toNat :=
    hword .addr rfl rfl (by simp [AllocationEvent.writes]) s.addr.isLt
  have hperiod : (allocationEventRecord address out s context).word 3 = s.allocatedSize.toNat :=
    hword .period rfl rfl (by simp [AllocationEvent.writes]) s.allocatedSize.isLt
  rw [hdr2samp_allocationStypes habi, store_stackUser_allocationEventRecord _ _ _ _ hlt hdvd, hpid,
    htid, htime, haddr, hperiod]

theorem hdrTime_allocationEventRecord :
    hdrTime (allocationEventRecord address out s context).bytes allocationStypes =
      s.time.toNat := by
  have htype : leWord ((allocationEventRecord address out s context).bytes.take 4) =
      AllocationEvent.perfRecordSample := by
    have hload := Memory.take_drop_load (m := AllocationEvent.write out s context) (p := 0) (k := 0)
      (i := 4) (n := sizeofAllocationEvent stackSize)
      (by rw [sizeofAllocationEvent, AllocationEvent.sizeOf]; omega)
    rw [List.drop_zero] at hload
    rw [allocationEventRecord, recordAt, hload]
    exact AllocationEvent.leWord_load_write s context out .type (by simp [AllocationEvent.writes])
      (by decide)
  have hbefore : popcount (allocationStypes &&&
      (PerfSample.identifier ||| PerfSample.ip ||| PerfSample.tid)) = 1 := by decide
  rw [hdrTime, if_neg (by decide), htype, show RecordType.decode AllocationEvent.perfRecordSample =
    .sample from rfl]
  simp only [hbefore]
  exact word_allocationEventRecord address out s context .time rfl rfl
    (by simp [AllocationEvent.writes]) s.time.isLt

end Record

/-- An allocation event comes back from the decoder as it was pushed. -/
theorem hdr2samp_allocationEventRecord (before : PerfEventSample) (address : ℕ) (out : ℕ → Byte)
    (s : AllocationSample) (kStackMargin stackSize : ℤ) {requested : ℕ}
    (hlt : requested < 2 ^ 32) (hdvd : 8 ∣ requested)
    (context : SavedContext (sampleStackSize kStackMargin stackSize requested)) :
    let hdr := allocationEventRecord address out s context
    let decoded := hdr2samp before hdr allocationStypes
    decoded.2 = true ∧
      decoded.1.pid = s.pid.toNat ∧ decoded.1.tid = s.tid.toNat ∧
      decoded.1.time = s.time.toNat ∧ decoded.1.addr = s.addr.toNat ∧
      decoded.1.period = s.allocatedSize.toNat ∧
      (∀ i : Fin kPerfRegisterCount,
        leWord (load hdr.mem (decoded.1.regs + 8 * i) 8) = (context.regs i).toNat) ∧
      decoded.1.sizeStack = context.stack.length ∧
      load hdr.mem decoded.1.dataStack decoded.1.sizeStack = context.stack ∧
      (requested = 0 → decoded.1.sizeStack = 0 ∧ decoded.1.dataStack = 0) ∧
      hdrTime hdr.bytes allocationStypes = s.time.toNat := by
  have hsize := sampleStackSize_eq kStackMargin stackSize hlt hdvd
  have hsizeDvd : 8 ∣ sampleStackSize kStackMargin stackSize requested := by
    rw [hsize]
    exact Nat.dvd_mul_left 8 _
  have hle := context.length_le
  have hdecoded := hdr2samp_eq_of_allocationEventRecord address out s context (by omega) hsizeDvd
    before
  simp only [hdecoded]
  refine ⟨trivial, trivial, trivial, trivial, trivial, trivial,
    word_regs_allocationEventRecord address out s context, trivial, ?_, ?_,
    hdrTime_allocationEventRecord address out s context⟩
  · split_ifs with hzero
    · have hnil : context.stack = [] := List.length_eq_zero_iff.mp (by omega)
      rw [hnil]
      rfl
    · exact load_stack_allocationEventRecord address out s context
  · rintro rfl
    have hzero : sampleStackSize kStackMargin stackSize 0 = 0 := by omega
    exact ⟨by omega, if_pos hzero⟩

/-- The context of a thread with 40 bytes on its stack, of which room for 16 is requested. -/
def smallContext : SavedContext (sampleStackSize 192 40 16) :=
  saveContext (fun a => BitVec.ofNat 8 a) 0x7000 0x7028 (fun _ => 0x7000) _

def smallSample : AllocationSample := ⟨12, 13, 1000, 0xdead0, 524288⟩

theorem hdr2samp_smallContext :
    let hdr := allocationEventRecord 4096 (fun _ => 0xff) smallSample smallContext
    let decoded := hdr2samp {} hdr allocationStypes
    smallContext.stack.length = 16 ∧ decoded.1.sizeStack = smallContext.stack.length ∧
      load hdr.mem decoded.1.dataStack decoded.1.sizeStack = smallContext.stack := by
  obtain ⟨_, _, _, _, _, _, _, hsize, hstack, _⟩ := hdr2samp_allocationEventRecord {} 4096
    (fun _ => 0xff) smallSample 192 40 (by decide) (by decide) smallContext
  exact ⟨by decide +kernel, hsize, hstack⟩

/-! ### The size of the event -/

/-- The check of `SampleStackSizeValidator` on the number that is given. -/
def sampleStackSizeValidator (value : ℤ) : Bool := !(65535 ≤ value || value % 8 ≠ 0)

/-- `push_alloc_sample` up to the commit: the ring buffer, the bytes that are reserved in it, and
the event that is written into them; `none` if there is no room. -/
def RingBuffer.pushAllocEvent (rb : RingBuffer) (tail highPriorityAreaSize : ℕ)
    (kStackMargin stackSize : ℤ) (requested : ℕ) (s : AllocationSample)
    (context : (bufferSize : ℕ) → SavedContext bufferSize) :
    Option (RingBuffer × Buffer × PerfRecord) :=
  let size := sampleStackSize kStackMargin stackSize requested
  (rb.reserve tail highPriorityAreaSize (sizeofAllocationEvent size) false).map fun (rb, buffer) =>
    let out := fun i => rb.data ((buffer.data + i) % rb.dataSize)
    (rb, buffer, allocationEventRecord buffer.data out s (context size))

theorem headerSize_allocationEventRecord (address : ℕ) (out : ℕ → Byte) (s : AllocationSample)
    (context : SavedContext stackSize) :
    headerSize (allocationEventRecord address out s context).bytes =
      sizeofAllocationEvent stackSize % 2 ^ 16 := by
  have hmem : (.size, leBytes 2 (sizeofAllocationEvent stackSize)) ∈
      AllocationEvent.writes s context := by simp [AllocationEvent.writes]
  have hsize := AllocationEvent.load_write s context out .size hmem
  rw [Circular.length_leBytes] at hsize
  rw [headerSize, allocationEventRecord, recordAt, Memory.take_drop_load, Nat.zero_add]
  · rw [show 6 = AllocationEvent.Field.size.offset stackSize from rfl, hsize,
      Circular.leWord_leBytes]
    rfl
  · rw [sizeofAllocationEvent, AllocationEvent.sizeOf]
    omega

/-- The size in the header is the size of the reserved bytes exactly if the event has room for at
most 65304 bytes of the stack. -/
theorem headerSize_pushAllocEvent_iff {rb rb' : RingBuffer} {tail highPriorityAreaSize : ℕ}
    {kStackMargin stackSize : ℤ} {requested : ℕ} {s : AllocationSample}
    {context : (bufferSize : ℕ) → SavedContext bufferSize} {buffer : Buffer} {hdr : PerfRecord}
    (hvalid : sampleStackSizeValidator requested = true)
    (hpush : rb.pushAllocEvent tail highPriorityAreaSize kStackMargin stackSize requested s
      context = some (rb', buffer, hdr)) :
    headerSize hdr.bytes = buffer.size ↔
      requested ≤ 65304 ∨ stackSize + kStackMargin ≤ 65304 := by
  have hrequested : requested < 65535 ∧ requested % 8 = 0 := by
    simp [sampleStackSizeValidator] at hvalid
    omega
  obtain ⟨⟨rb₁, buffer₁⟩, hreserve, heq⟩ := Option.map_eq_some_iff.mp hpush
  simp only [Prod.mk.injEq] at heq
  obtain ⟨-, rfl, rfl⟩ := heq
  have hlt : requested < 2 ^ 32 := by omega
  have hsize := sampleStackSize_eq kStackMargin stackSize hlt (Nat.dvd_of_mod_eq_zero hrequested.2)
  rw [headerSize_allocationEventRecord, RingBuffer.size_of_reserve hreserve, sizeofAllocationEvent,
    AllocationEvent.sizeOf, kPerfRegisterCount, hsize]
  omega

def megabyteRing : RingBuffer := { order := 20, data := fun _ => 0 }

/-- A thread of which all registers are 0, with a megabyte of stack from there on. -/
def deepContext (bufferSize : ℕ) : SavedContext bufferSize :=
  saveContext (fun _ => 0) 0 (2 ^ 20) (fun _ => 0) bufferSize

/-- With the default size of the stack, the two sizes agree. -/
theorem headerSize_pushAllocEvent_default :
    sampleStackSizeValidator 32000 = true ∧
      ∃ rb buffer hdr, megabyteRing.pushAllocEvent 0 0 192 (2 ^ 20) 32000 smallSample deepContext =
        some (rb, buffer, hdr) ∧ headerSize hdr.bytes = buffer.size := by
  have hsome : (megabyteRing.pushAllocEvent 0 0 192 (2 ^ 20) 32000 smallSample
      deepContext).isSome = true := by decide +kernel
  obtain ⟨⟨rb, buffer, hdr⟩, hpush⟩ := Option.isSome_iff_exists.mp hsome
  have hvalid : sampleStackSizeValidator (32000 : ℕ) = true := by decide
  exact ⟨hvalid, rb, buffer, hdr, hpush,
    (headerSize_pushAllocEvent_iff hvalid hpush).mpr (.inl (by decide))⟩

/-- The largest size that is accepted: the event has 65752 bytes, and 216 by its header. -/
theorem headerSize_pushAllocEvent_truncated :
    sampleStackSizeValidator 65528 = true ∧
      ∃ rb buffer hdr, megabyteRing.pushAllocEvent 0 0 192 (2 ^ 20) 65528 smallSample deepContext =
        some (rb, buffer, hdr) ∧ headerSize hdr.bytes = 216 ∧ buffer.size = 65752 := by
  have hsome : (megabyteRing.pushAllocEvent 0 0 192 (2 ^ 20) 65528 smallSample
      deepContext).isSome = true := by decide +kernel
  obtain ⟨⟨rb, buffer, hdr⟩, hpush⟩ := Option.isSome_iff_exists.mp hsome
  obtain ⟨⟨rb₁, buffer₁⟩, hreserve, heq⟩ := Option.map_eq_some_iff.mp hpush
  simp only [Prod.mk.injEq] at heq
  obtain ⟨-, rfl, rfl⟩ := heq
  have hsize : sizeofAllocationEvent (sampleStackSize 192 (2 ^ 20) 65528) = 65752 := by
    decide +kernel
  refine ⟨by decide, rb, _, _, hpush, ?_, (RingBuffer.size_of_reserve hreserve).trans hsize⟩
  rw [headerSize_allocationEventRecord, hsize]
  rfl

end Ddprof
