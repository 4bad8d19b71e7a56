import Ddprof.LiveAllocation.Basic
import Ddprof.Worker.Profile

/-!
The worker: events come in, samples are aggregated into the current profile, and
a cycle exports the profile and switches to the other one.

Modelled is what decides which values are aggregated where: the live allocations,
the counters of lost events, the two profiles, and every call of
`pprof_aggregate`, which is recorded. Unwinding, symbolization and the profile
library belong to the environment: a sample carries the stack trace that
unwinding gives for it, and `aggregateOk` says whether the `n`-th call of
`pprof_aggregate` succeeds. A failing call makes its callers return early.
-/

namespace Ddprof

structure ValuePack where
  value : BitVec 64
  count : ℕ
  timestamp : ℕ
  deriving DecidableEq, Repr

/-- A call of `pprof_aggregate`, with the slots it writes to. -/
structure AggregateCall where
  pprof : Bool
  watcherPos : ℕ
  valuePos : AggregationPos
  indices : PProfIndices
  nbValues : ℕ
  output : UnwindOutput
  pack : ValuePack
  deriving DecidableEq, Repr

structure Worker where
  watchers : List PerfWatcher
  -- `_nb_values` of the two profiles.
  nbValues : Bool → ℕ
  iCurrentPprof : Bool := false
  lostEventsPerWatcher : ℕ → ℕ := fun _ => 0
  liveAllocation : LiveAllocation := {}
  -- The calls of `pprof_aggregate` made so far.
  calls : List AggregateCall := []

/-- What `hdr2samp`, unwinding and `perf_value_from_sample` give for a sample. -/
structure Sample where
  pid : ℤ
  addr : ℕ
  period : BitVec 64
  value : BitVec 64
  timestamp : ℕ
  output : UnwindOutput
  -- Unwinding ended with a fatal error.
  fatal : Bool := false
  -- The modules of the process turned out to be inconsistent.
  inconsistent : Bool := false
  deriving DecidableEq, Repr

inductive WorkerEvent
  | sample (s : Sample)
  | mmap
  | comm (pid : ℤ) (exec : Bool)
  | exit
  | fork (pid ppid : ℤ)
  | lost (lost : ℕ)
  | deallocation (ptr : ℕ) (pid : ℤ)
  | clearLiveAllocation (pid : ℤ)
  | allocationTrackerState (pid : ℤ) (lostAllocCount : ℕ)
  | other
  deriving DecidableEq, Repr

namespace Worker

variable (aggregateOk : ℕ → Bool)

def watcher (w : Worker) (watcherPos : ℕ) : PerfWatcher := w.watchers.getD watcherPos default

/-- The second component is whether the call succeeds. -/
def pprofAggregate (w : Worker) (output : UnwindOutput) (pack : ValuePack) (watcherPos : ℕ)
    (valuePos : AggregationPos) : Worker × Bool :=
  let call : AggregateCall :=
    { pprof := w.iCurrentPprof
      watcherPos := watcherPos
      valuePos := valuePos
      indices := (w.watcher watcherPos).pprofIndices.get valuePos
      nbValues := w.nbValues w.iCurrentPprof
      output := output
      pack := pack }
  ({ w with calls := w.calls ++ [call] }, aggregateOk w.calls.length)

/-! ### Live allocations -/

/-- The loop over the stack traces of one process. -/
def aggregateStacks (watcherPos : ℕ) :
    List (Sigma fun _ : UnwindOutput => StackNode) → Worker → Worker × Bool
  | [], w => (w, true)
  | e :: rest, w =>
    let pack : ValuePack := ⟨e.2.data.value, e.2.data.count, 0⟩
    let (w, ok) := w.pprofAggregate aggregateOk e.1 pack watcherPos .liveSum
    if ok then aggregateStacks watcherPos rest w else (w, false)

/-- The loop of `aggregate_live_allocations_for_pid` over the watchers. The access to
the map of the process creates it. -/
def aggregateLiveForPidFrom (pid : ℤ) : List ℕ → Worker → Worker × Bool
  | [], w => (w, true)
  | watcherPos :: rest, w =>
    let ps := w.liveAllocation.pidStacks watcherPos pid
    let w := { w with liveAllocation := w.liveAllocation.setPidStacks watcherPos pid ps }
    let (w, ok) := aggregateStacks aggregateOk watcherPos ps.uniqueStacks.entries w
    if ok then aggregateLiveForPidFrom pid rest w else (w, false)

def aggregateLiveAllocationsForPid (w : Worker) (pid : ℤ) : Worker × Bool :=
  aggregateLiveForPidFrom aggregateOk pid (List.range w.liveAllocation.watcherVector.length) w

/-- The loop of `aggregate_live_allocations` over the processes of one watcher. -/
def aggregatePids (watcherPos : ℕ) :
    List (Sigma fun _ : ℤ => PidStacks) → Worker → Worker × Bool
  | [], w => (w, true)
  | e :: rest, w =>
    let (w, ok) := aggregateStacks aggregateOk watcherPos e.2.uniqueStacks.entries w
    if ok then aggregatePids watcherPos rest w else (w, false)

def aggregateLiveFrom : List ℕ → Worker → Worker × Bool
  | [], w => (w, true)
  | watcherPos :: rest, w =>
    let pidMap : PidMap := w.liveAllocation.watcherVector.getD watcherPos ∅
    let (w, ok) := aggregatePids aggregateOk watcherPos pidMap.entries w
    if ok then aggregateLiveFrom rest w else (w, false)

def aggregateLiveAllocations (w : Worker) : Worker × Bool :=
  aggregateLiveFrom aggregateOk (List.range w.liveAllocation.watcherVector.length) w

def workerPidFree (w : Worker) (pid : ℤ) : Worker × Bool :=
  let (w, ok) := w.aggregateLiveAllocationsForPid aggregateOk pid
  if ok then ({ w with liveAllocation := w.liveAllocation.clearPid pid }, true) else (w, false)

/-! ### Events -/

def addLost (w : Worker) (watcherPos lost : ℕ) : Worker :=
  let nbLost := (w.lostEventsPerWatcher watcherPos + lost) % 2 ^ 64
  { w with lostEventsPerWatcher := Function.update w.lostEventsPerWatcher watcherPos nbLost }

/-- The aggregation part of `ddprof_pr_sample`. -/
def aggregateSample (w : Worker) (watcherPos : ℕ) (s : Sample) : Worker × Bool :=
  let mode := (w.watcher watcherPos).aggregationMode
  let w := if mode.liveSum ∧ s.addr ≠ 0
    then { w with liveAllocation :=
      w.liveAllocation.registerAllocation s.output s.addr s.period watcherPos s.pid }
    else w
  if mode.sum then w.pprofAggregate aggregateOk s.output ⟨s.value, 1, s.timestamp⟩ watcherPos .sum
  else (w, true)

def ddprofPrSample (w : Worker) (watcherPos : ℕ) (s : Sample) : Worker × Bool :=
  let (w, ok) := if s.fatal then (w, true) else w.aggregateSample aggregateOk watcherPos s
  if !ok then (w, false)
  else if s.inconsistent then w.workerPidFree aggregateOk s.pid
  else (w, true)

/-- `ddprof_worker_process_event`. Records of pid 0 are dropped where the record has a
pid of its own. -/
def processEvent (w : Worker) (watcherPos : ℕ) : WorkerEvent → Worker × Bool
  | .sample s => if s.pid ≠ 0 then w.ddprofPrSample aggregateOk watcherPos s else (w, true)
  | .comm pid exec => if pid ≠ 0 ∧ exec then w.workerPidFree aggregateOk pid else (w, true)
  | .fork pid ppid =>
    if pid ≠ 0 ∧ ppid ≠ pid then w.workerPidFree aggregateOk pid else (w, true)
  | .lost lost => (w.addLost watcherPos lost, true)
  | .deallocation ptr pid =>
    ({ w with liveAllocation := w.liveAllocation.registerDeallocation ptr watcherPos pid }, true)
  | .clearLiveAllocation pid =>
    let (w, ok) := w.aggregateLiveAllocationsForPid aggregateOk pid
    if ok then
      ({ w with liveAllocation := w.liveAllocation.clearPidForWatcher watcherPos pid }, true)
    else (w, false)
  | .allocationTrackerState _ lostAllocCount => (w.addLost watcherPos lostAllocCount, true)
  | .mmap => (w, true)
  | .exit => (w, true)
  | .other => (w, true)

/-! ### Cycles -/

/-- The sampling period that a lost event stands for. -/
def lostPeriod (watcher : PerfWatcher) : BitVec 64 :=
  let cadence := BitVec.ofInt 64 watcher.samplePeriod
  if watcher.options.isFreq then BitVec.ofNat 64 1000000000 / cadence else cadence

/-- The loop of `report_lost_events`; `output` is the stack trace with the frame for
lost events. A counter is reset once its value has been aggregated. -/
def reportLostFrom (output : UnwindOutput) : List ℕ → Worker → Worker × Bool
  | [], w => (w, true)
  | watcherPos :: rest, w =>
    let nbLost := w.lostEventsPerWatcher watcherPos
    if 0 < nbLost then
      let value := lostPeriod (w.watcher watcherPos) * BitVec.ofNat 64 nbLost
      let (w, ok) := w.pprofAggregate aggregateOk output ⟨value, nbLost, 0⟩ watcherPos .sum
      if ok then
        reportLostFrom output rest
          { w with lostEventsPerWatcher := Function.update w.lostEventsPerWatcher watcherPos 0 }
      else (w, false)
    else reportLostFrom output rest w

def reportLostEvents (w : Worker) (output : UnwindOutput) : Worker × Bool :=
  reportLostFrom aggregateOk output (List.range w.watchers.length) w

/-- The loop of `clear_unvisited_pids`. -/
def clearPids : List ℤ → Worker → Worker × Bool
  | [], w => (w, true)
  | pid :: rest, w =>
    let (w, ok) := w.workerPidFree aggregateOk pid
    if ok then clearPids rest w else (w, false)

/-- What the environment decides about a cycle: the processes that have not been
visited, the frame for lost events, and whether the exporter is ready and the
other profile can be reset. -/
structure CycleInput where
  unvisitedPids : List ℤ
  lostOutput : UnwindOutput
  exporterReady : Bool := true
  resetOk : Bool := true
  deriving DecidableEq, Repr

def cycle (w : Worker) (input : CycleInput) : Worker × Bool :=
  let (w, ok) := clearPids aggregateOk input.unvisitedPids w
  if !ok then (w, false)
  else
    let (w, ok) := w.aggregateLiveAllocations aggregateOk
    if !ok || !input.exporterReady then (w, false)
    else
      let (w, ok) := w.reportLostEvents aggregateOk input.lostOutput
      if !ok then (w, false)
      else
        let w := { w with iCurrentPprof := !w.iCurrentPprof }
        if !input.resetOk then (w, false)
        else ({ w with liveAllocation := w.liveAllocation.cycle }, true)

/-! ### Runs -/

/-- The profile creations of `ddprof_worker_init`. The second one finds the indices of
the first and resets them. -/
def init (profileNewOk : Bool × Bool) (watchers : List PerfWatcher) :
    Except PprofError Worker := do
  let (n, watchers) ← pprofCreateProfile profileNewOk.1 watchers
  let (n', watchers) ← pprofCreateProfile profileNewOk.2 watchers
  return { watchers := watchers, nbValues := fun i => if i then n' else n }

inductive Op
  | event (watcherPos : ℕ) (event : WorkerEvent)
  | cycle (input : CycleInput)
  deriving DecidableEq, Repr

/-- An event belongs to one of the watchers. The worker may go on after a call that
has returned an error. -/
def step (w : Worker) : Op → Option Worker
  | .event watcherPos event =>
    if watcherPos < w.watchers.length then some (w.processEvent aggregateOk watcherPos event).1
    else none
  | .cycle input => some (w.cycle aggregateOk input).1

end Worker

end Ddprof
