import Ddprof.MainLoop.Ring
import Ddprof.Perf.Record
import Ddprof.Lib.BinaryHeap
import Ddprof.Lib.Run

/-!
The worker loop with reordered events (`worker_process_ring_buffers_ordered`).

Each call moves records of the ring buffers into a priority queue that survives the
call, and processes the records at its top. A step of the system is one step of the
worker, of the kernel or of a producer; the worker may also be replaced by a new one
that attaches to the same ring buffers with an empty queue.
-/

namespace Ddprof

open Circular (Byte)

/-! ### Timestamps of records -/

/-- `PerfClock::time_point::max()`. -/
def timePointMax : ℤ := 2 ^ 63 - 1

/-- 50 µs. -/
def maxSampleLatency : ℤ := 50000

/-- 100 ms. -/
def sampleDefaultWakeup : ℤ := 100000000

theorem perfClockTimePoint_le (timestamp : ℕ) : perfClockTimePoint timestamp ≤ timePointMax := by
  have h := (BitVec.ofNat 64 timestamp).toInt_lt
  rw [perfClockTimePoint, timePointMax]
  omega

/-! ### The system -/

/-- A record in the event queue. `index` is its number in the ring buffer; the source has
only the pointer. -/
structure EventWrapper where
  event : EventPtr
  timestamp : ℤ
  bufferIdx : ℕ
  index : ℕ
  deriving DecidableEq, Repr

def EventWrapper.id (e : EventWrapper) : ℕ × ℕ := (e.bufferIdx, e.index)

/-- A record as it was passed to `ddprof_worker_process_event`, with the number of records
of its ring buffer that had been released by then. -/
structure Processed where
  bufferIdx : ℕ
  index : ℕ
  timestamp : ℤ
  bytes : List Byte
  released : ℕ
  deriving DecidableEq, Repr

def Processed.id (p : Processed) : ℕ × ℕ := (p.bufferIdx, p.index)

structure PEvent where
  watcherPos : ℕ
  ring : Ring

structure Call where
  drain : Bool
  now : ℤ
  deadline : ℤ
  maxTimestamp : ℤ := 0
  newEvents : ℕ := 0
  deriving DecidableEq, Repr

inductive LoopPhase where
  -- Between two calls.
  | idle
  -- At the condition of the outer loop.
  | outer (c : Call)
  -- At the ring buffer `i` of the loop over ring buffers.
  | dequeue (c : Call) (i : ℕ)
  -- At the condition of the loop over the event queue.
  | process (c : Call)
  -- The event has been processed.
  | advance (c : Call) (evt : EventWrapper)
  -- The perf ring buffer of the event has been advanced.
  | readNext (c : Call) (evt : EventWrapper)
  | pop (c : Call)
  -- Processing has failed, and the worker gives up.
  | failed
  deriving DecidableEq, Repr

structure Loop where
  size : ℕ
  pes : ℕ → PEvent
  -- The sample types of the watchers.
  sampleType : ℕ → ℕ
  clock : ℤ := 0
  terminationRequested : Bool := false
  queue : List EventWrapper := []
  phase : LoopPhase := .idle
  log : List Processed := []

inductive LoopLabel where
  | kernelWrite (i : ℕ) (record : List Byte)
  | producer (i w : ℕ) (a : ProducerAction)
  | tick (d : ℕ)
  | requestTermination
  | call (drain : Bool)
  | work
  -- `ddprof_worker_process_event` returns an error.
  | fail
  | restart
  deriving DecidableEq, Repr

namespace Loop

def ring (s : Loop) (i : ℕ) : Ring := (s.pes i).ring

def setRing (s : Loop) (i : ℕ) (ring : Ring) : Loop :=
  { s with pes := Function.update s.pes i { s.pes i with ring := ring } }

/-- The timestamp of a record of the ring buffer `i`. -/
def timestamp (s : Loop) (i : ℕ) (content : List Byte) : ℤ :=
  perfClockTimePoint (hdrTime content (s.sampleType (s.pes i).watcherPos))

/-- The record that has just been read from the ring buffer `i`. -/
def eventWrapper (s : Loop) (i : ℕ) (ptr : EventPtr) : EventWrapper where
  event := ptr
  timestamp := s.timestamp i ((s.ring i).eventBytes ptr)
  bufferIdx := i
  index := (s.ring i).next - 1

def push (s : Loop) (e : EventWrapper) : Loop :=
  { s with queue := BinaryHeap.push EventWrapper.timestamp s.queue e }

/-! ### Steps of the worker -/

def outer (s : Loop) (c : Call) : Loop :=
  if !s.terminationRequested && c.now ≤ c.deadline then
    let maxTimestamp := if c.drain then timePointMax else c.now - maxSampleLatency
    { s with phase := .dequeue { c with maxTimestamp := maxTimestamp, newEvents := 0 } 0 }
  else { s with phase := .idle }

/-- A turn of the loop over ring buffers, or of the loop over the samples of one. -/
def dequeue (s : Loop) (c : Call) (i : ℕ) : Option Loop :=
  if i < s.size then
    match s.ring i with
    | .perf p =>
      if p.rb.hasInflightEvents then some { s with phase := .dequeue c (i + 1) }
      else
        (s.ring i).readEvent.map fun (ring, event) =>
          let s := s.setRing i ring
          match event with
          | none => { s with phase := .dequeue c (i + 1) }
          | some event =>
            { s.push (s.eventWrapper i event) with
              phase := .dequeue { c with newEvents := c.newEvents + 1 } (i + 1) }
    | .mpsc _ =>
      (s.ring i).readEvent.map fun (ring, event) =>
        let s := s.setRing i ring
        match event with
        | none => { s with phase := .dequeue c (i + 1) }
        | some event =>
          let evt := s.eventWrapper i event
          { s.push evt with
            phase := .dequeue { c with newEvents := c.newEvents + 1 }
              (if c.maxTimestamp < evt.timestamp then i + 1 else i) }
  else some { s with phase := .process c }

def processed (s : Loop) (evt : EventWrapper) : Processed where
  bufferIdx := evt.bufferIdx
  index := evt.index
  timestamp := evt.timestamp
  bytes := (s.ring evt.bufferIdx).eventBytes evt.event
  released := (s.ring evt.bufferIdx).released

def process (s : Loop) (c : Call) : Loop :=
  match s.queue with
  | [] =>
    if c.newEvents = 0 then { s with phase := .idle }
    else { s with phase := .outer { c with now := s.clock } }
  | evt :: _ =>
    if c.maxTimestamp < evt.timestamp then { s with phase := .idle }
    else { s with log := s.log ++ [s.processed evt], phase := .advance c evt }

def advance (s : Loop) (c : Call) (evt : EventWrapper) : Option Loop :=
  ((s.ring evt.bufferIdx).advance evt.event evt.index).map fun ring =>
    { s.setRing evt.bufferIdx ring with
      phase := match ring with
        | .perf _ => .readNext c evt
        | .mpsc _ => .pop c }

def readNext (s : Loop) (c : Call) (evt : EventWrapper) : Option Loop :=
  (s.ring evt.bufferIdx).readEvent.map fun (ring, newEvent) =>
    let s := s.setRing evt.bufferIdx ring
    match newEvent with
    | none => { s with phase := .pop c }
    | some newEvent => { s.push (s.eventWrapper evt.bufferIdx newEvent) with phase := .pop c }

def pop (s : Loop) (c : Call) : Loop :=
  { s with queue := BinaryHeap.pop EventWrapper.timestamp s.queue, phase := .process c }

def work (s : Loop) : Option Loop :=
  match s.phase with
  | .idle | .failed => none
  | .outer c => some (s.outer c)
  | .dequeue c i => s.dequeue c i
  | .process c => some (s.process c)
  | .advance c evt => s.advance c evt
  | .readNext c evt => s.readNext c evt
  | .pop c => some (s.pop c)

/-- The first event of the queue is passed on and cannot be processed. -/
def fail (s : Loop) : Option Loop :=
  match s.phase, s.queue with
  | .process c, evt :: _ =>
    if c.maxTimestamp < evt.timestamp then none
    else some { s with log := s.log ++ [s.processed evt], phase := .failed }
  | _, _ => none

def call (s : Loop) (drain : Bool) : Option Loop :=
  match s.phase with
  | .idle =>
    some { s with phase := .outer {
      drain := drain
      now := s.clock
      deadline := if drain then timePointMax else s.clock + sampleDefaultWakeup } }
  | _ => none

def restart (s : Loop) : Option Loop :=
  match s.phase with
  | .idle =>
    some { s with queue := [], pes := fun i => { s.pes i with ring := (s.pes i).ring.init } }
  | _ => none

/-! ### Steps of the writers -/

/-- The kernel drops records for which there is no room. -/
def kernelWrite (s : Loop) (i : ℕ) (record : List Byte) : Option Loop :=
  match s.ring i with
  | .perf p =>
    if ValidRecord record ∧ p.rb.writerPos + record.length ≤ p.rb.readerPos + p.rb.mask then
      some (s.setRing i
        (.perf { p with rb := p.rb.kernelWrite record, records := p.records ++ [record] }))
    else none
  | .mpsc _ => none

def produce (s : Loop) (i w : ℕ) (a : ProducerAction) : Option Loop :=
  match s.ring i with
  | .perf _ => none
  | .mpsc c => (c.produce w a).map fun c => s.setRing i (.mpsc c)

/-- The clock has 64 bits with a sign, too. -/
def tick (s : Loop) (d : ℕ) : Option Loop :=
  if s.clock + d ≤ timePointMax then some { s with clock := s.clock + d } else none

def step (s : Loop) : LoopLabel → Option Loop
  | .kernelWrite i record => s.kernelWrite i record
  | .producer i w a => s.produce i w a
  | .tick d => s.tick d
  | .requestTermination => some { s with terminationRequested := true }
  | .call drain => s.call drain
  | .work => s.work
  | .fail => s.fail
  | .restart => s.restart

/-- What the writers promise, and that events can be processed. -/
def Admissible (s : Loop) : LoopLabel → Prop
  | .kernelWrite i record => (s.ring i).rb.writerPos + record.length < 2 ^ 64
  | .producer i w a =>
    match s.ring i with
    | .perf _ => True
    | .mpsc c => c.Admissible w a
  | .fail => False
  | _ => True

instance (s : Loop) (l : LoopLabel) : Decidable (s.Admissible l) := by
  unfold Admissible
  split <;> try split
  all_goals infer_instance

end Loop

/-! ### The first worker -/

inductive RingSpec where
  | perf (order : ℕ) (data : ℕ → Byte) (mirroredMapping : Bool)
  | mpsc (order : ℕ) (data : ℕ → Byte) (areas : ℕ → ℕ)

namespace RingSpec

def order : RingSpec → ℕ
  | perf order _ _ => order
  | mpsc order _ _ => order

def create : RingSpec → Ring
  | perf order data mirroredMapping =>
    .perf { rb := { order := order, data := data }, mirroredMapping := mirroredMapping }
  | mpsc order data areas => .mpsc (.init order data areas)

theorem validAt_create {spec : RingSpec} (horder : 3 ≤ spec.order) : spec.create.ValidAt 0 0 := by
  cases spec with
  | perf order data mirroredMapping =>
    exact ⟨⟨⟨horder, rfl, rfl, Nat.zero_le _, Nat.two_pow_pos 64,
      ⟨nofun, le_rfl, Nat.zero_le _, nofun⟩⟩, rfl, le_rfl, le_rfl⟩, Nat.zero_le _⟩
  | mpsc order data areas =>
    exact ⟨Channel.inv_init data areas horder, rfl, le_rfl, le_rfl, nofun⟩

theorem items_create (spec : RingSpec) : spec.create.items = [] := by
  cases spec with
  | perf => rfl
  | mpsc => rfl

end RingSpec

def Loop.init (size : ℕ) (specs : ℕ → RingSpec) (watcherPos sampleType : ℕ → ℕ) : Loop where
  size := size
  pes i := { watcherPos := watcherPos i, ring := (specs i).create }
  sampleType := sampleType

end Ddprof
