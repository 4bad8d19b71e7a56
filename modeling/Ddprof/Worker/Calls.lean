import Ddprof.LiveAllocation.Replay
import Ddprof.Worker.Basic

/-!
What the functions of the worker do when they succeed: the calls of `pprof_aggregate` that
each of them adds, and what it leaves as it was.

The functions that aggregate live allocations go over the stack traces of some processes and
call `pprof_aggregate` once for each of them. Apart from entries without content, they do not
change the live allocations.
-/

namespace Ddprof

namespace Worker

variable {aggregateOk : ℕ → Bool} {w : Worker}

def liveCall (w : Worker) (watcherPos : ℕ) (e : Sigma fun _ : UnwindOutput => StackNode) :
    AggregateCall where
  pprof := w.iCurrentPprof
  watcherPos := watcherPos
  valuePos := .liveSum
  indices := (w.watcher watcherPos).pprofIndices.get .liveSum
  nbValues := w.nbValues w.iCurrentPprof
  output := e.1
  pack := ⟨e.2.data.value, e.2.data.count, 0⟩

def addCalls (w : Worker) (calls : List AggregateCall) : Worker :=
  { w with calls := w.calls ++ calls }

def withLive (w : Worker) (la : LiveAllocation) : Worker := { w with liveAllocation := la }

@[simp] theorem addCalls_nil (w : Worker) : w.addCalls [] = w := by
  simp [addCalls]

@[simp] theorem addCalls_addCalls (w : Worker) (l l' : List AggregateCall) :
    (w.addCalls l).addCalls l' = w.addCalls (l ++ l') := by
  simp [addCalls]

@[simp] theorem liveAllocation_addCalls (w : Worker) (l : List AggregateCall) :
    (w.addCalls l).liveAllocation = w.liveAllocation := rfl

/-- What a live call says does not depend on the calls and the live allocations. -/
theorem liveCall_addCalls (w : Worker) (l : List AggregateCall) :
    (w.addCalls l).liveCall = w.liveCall := rfl

theorem pprofAggregate_eq (aggregateOk : ℕ → Bool) (w : Worker) (output : UnwindOutput)
    (pack : ValuePack) (watcherPos : ℕ) (valuePos : AggregationPos) :
    ∃ call, call.valuePos = valuePos ∧
      (w.pprofAggregate aggregateOk output pack watcherPos valuePos).1 = w.addCalls [call] :=
  ⟨_, rfl, rfl⟩

/-! ### Live allocations -/

theorem aggregateStacks_eq {watcherPos : ℕ} (l : List (Sigma fun _ : UnwindOutput => StackNode))
    (h : (aggregateStacks aggregateOk watcherPos l w).2 = true) :
    (aggregateStacks aggregateOk watcherPos l w).1 =
      w.addCalls (l.map (w.liveCall watcherPos)) := by
  induction l generalizing w with
  | nil => simp [aggregateStacks]
  | cons e rest ih =>
    simp only [aggregateStacks] at h ⊢
    split_ifs at h ⊢ with hok
    · rw [ih h]
      change (w.addCalls _).addCalls (rest.map ((w.addCalls _).liveCall watcherPos)) = _
      rw [addCalls_addCalls, liveCall_addCalls]
      rfl

/-- The stack traces of a process that a watcher has live allocations for. -/
def stacksOf (w : Worker) (watcherPos : ℕ) (pid : ℤ) :
    List (Sigma fun _ : UnwindOutput => StackNode) :=
  (w.liveAllocation.pidStacks watcherPos pid).uniqueStacks.entries

/-- The same live allocations, up to entries without content. -/
def SameLive (la la' : LiveAllocation) : Prop :=
  ∀ watcherPos pid, la'.pidStacks watcherPos pid = la.pidStacks watcherPos pid

theorem sameLive_setPidStacks (la : LiveAllocation) (watcherPos : ℕ) (pid : ℤ) :
    SameLive la (la.setPidStacks watcherPos pid (la.pidStacks watcherPos pid)) := fun pos p => by
  rw [LiveAllocation.pidStacks_setPidStacks]
  split_ifs with hp
  · rw [hp.1, hp.2]
  · rfl

theorem aggregateLiveForPidFrom_eq (pid : ℤ) (l : List ℕ)
    (h : (aggregateLiveForPidFrom aggregateOk pid l w).2 = true) :
    ∃ la, SameLive w.liveAllocation la ∧ (aggregateLiveForPidFrom aggregateOk pid l w).1 =
      (w.withLive la).addCalls
        (l.flatMap fun pos => (w.stacksOf pos pid).map (w.liveCall pos)) := by
  induction l generalizing w with
  | nil =>
    refine ⟨w.liveAllocation, fun _ _ => rfl, ?_⟩
    rw [List.flatMap_nil, addCalls_nil]
    rfl
  | cons pos rest ih =>
    simp only [aggregateLiveForPidFrom] at h ⊢
    split_ifs at h ⊢ with hok
    rw [aggregateStacks_eq _ hok] at h ⊢
    obtain ⟨la, hla, heq⟩ := ih h
    -- writing back what has been read changes nothing
    have hset := sameLive_setPidStacks w.liveAllocation pos pid
    refine ⟨la, fun watcherPos p => (hla watcherPos p).trans (hset watcherPos p), heq.trans ?_⟩
    rw [List.flatMap_cons, ← addCalls_addCalls]
    refine congrArg _ (List.flatMap_congr fun pos' _ => ?_)
    rw [stacksOf, liveAllocation_addCalls, hset pos' pid]
    rfl

theorem aggregateLiveAllocationsForPid_eq (pid : ℤ)
    (h : (w.aggregateLiveAllocationsForPid aggregateOk pid).2 = true) :
    ∃ la, SameLive w.liveAllocation la ∧ (w.aggregateLiveAllocationsForPid aggregateOk pid).1 =
      (w.withLive la).addCalls ((List.range w.liveAllocation.watcherVector.length).flatMap
        fun pos => (w.stacksOf pos pid).map (w.liveCall pos)) :=
  aggregateLiveForPidFrom_eq pid _ h

theorem workerPidFree_eq (pid : ℤ) (h : (w.workerPidFree aggregateOk pid).2 = true) :
    ∃ la, SameLive (w.liveAllocation.clearPid pid) la ∧ (w.workerPidFree aggregateOk pid).1 =
      (w.withLive la).addCalls ((List.range w.liveAllocation.watcherVector.length).flatMap
        fun pos => (w.stacksOf pos pid).map (w.liveCall pos)) := by
  simp only [workerPidFree] at h ⊢
  split_ifs at h ⊢ with hok
  obtain ⟨la, hla, heq⟩ := aggregateLiveAllocationsForPid_eq pid hok
  refine ⟨la.clearPid pid, fun watcherPos p => ?_, ?_⟩
  · rw [LiveAllocation.pidStacks_clearPid, LiveAllocation.pidStacks_clearPid, hla]
  · rw [heq]
    rfl

theorem aggregatePids_eq (watcherPos : ℕ) (l : List (Sigma fun _ : ℤ => PidStacks))
    (h : (aggregatePids aggregateOk watcherPos l w).2 = true) :
    (aggregatePids aggregateOk watcherPos l w).1 =
      w.addCalls (l.flatMap fun e => e.2.uniqueStacks.entries.map (w.liveCall watcherPos)) := by
  induction l generalizing w with
  | nil => rw [List.flatMap_nil, addCalls_nil, aggregatePids]
  | cons e rest ih =>
    simp only [aggregatePids] at h ⊢
    split_ifs at h ⊢ with hok
    rw [aggregateStacks_eq _ hok] at h ⊢
    rw [ih h, List.flatMap_cons, ← addCalls_addCalls]
    rfl

theorem aggregateLiveFrom_eq (l : List ℕ) (h : (aggregateLiveFrom aggregateOk l w).2 = true) :
    (aggregateLiveFrom aggregateOk l w).1 = w.addCalls (l.flatMap fun pos =>
      (w.liveAllocation.watcherVector.getD pos ∅ : PidMap).entries.flatMap fun e =>
        e.2.uniqueStacks.entries.map (w.liveCall pos)) := by
  induction l generalizing w with
  | nil => rw [List.flatMap_nil, addCalls_nil, aggregateLiveFrom]
  | cons pos rest ih =>
    simp only [aggregateLiveFrom] at h ⊢
    split_ifs at h ⊢ with hok
    rw [aggregatePids_eq _ _ hok] at h ⊢
    rw [ih h, List.flatMap_cons, ← addCalls_addCalls]
    rfl

theorem aggregateLiveAllocations_eq (h : (w.aggregateLiveAllocations aggregateOk).2 = true) :
    (w.aggregateLiveAllocations aggregateOk).1 =
      w.addCalls ((List.range w.liveAllocation.watcherVector.length).flatMap fun pos =>
        (w.liveAllocation.watcherVector.getD pos ∅ : PidMap).entries.flatMap fun e =>
          (w.stacksOf pos e.1).map (w.liveCall pos)) := by
  rw [aggregateLiveAllocations, aggregateLiveFrom_eq _ h]
  refine congrArg _ (List.flatMap_congr fun pos _ => List.flatMap_congr fun e he => ?_)
  have hlookup : AList.lookup e.1 (w.liveAllocation.watcherVector.getD pos ∅ : PidMap) = some e.2 :=
    AList.mem_lookup_iff.mpr he
  rw [stacksOf, LiveAllocation.pidStacks, UnorderedMap.get, hlookup]
  rfl

/-! ### Samples and lost events -/

def SumCalls (calls : List AggregateCall) : Prop := ∀ c ∈ calls, c.valuePos = .sum

def liveAfter (w : Worker) (watcherPos : ℕ) (s : Sample) : LiveAllocation :=
  if (w.watcher watcherPos).aggregationMode.liveSum ∧ s.addr ≠ 0 then
    w.liveAllocation.registerAllocation s.output s.addr s.period watcherPos s.pid
  else w.liveAllocation

theorem aggregateSample_eq (aggregateOk : ℕ → Bool) (w : Worker) (watcherPos : ℕ) (s : Sample) :
    ∃ calls, SumCalls calls ∧ (w.aggregateSample aggregateOk watcherPos s).1 =
      (w.withLive (w.liveAfter watcherPos s)).addCalls calls := by
  have hlive : (if (w.watcher watcherPos).aggregationMode.liveSum ∧ s.addr ≠ 0
      then { w with liveAllocation :=
        w.liveAllocation.registerAllocation s.output s.addr s.period watcherPos s.pid }
      else w) = w.withLive (w.liveAfter watcherPos s) := by
    rw [liveAfter]
    split_ifs <;> rfl
  rw [aggregateSample]
  simp only [hlive]
  split_ifs
  · exact ⟨[_], by simp [SumCalls], rfl⟩
  · exact ⟨[], by simp [SumCalls], by simp⟩

theorem reportLostFrom_eq (output : UnwindOutput) (l : List ℕ) :
    ∃ calls lost, SumCalls calls ∧ (reportLostFrom aggregateOk output l w).1 =
      addCalls { w with lostEventsPerWatcher := lost } calls := by
  induction l generalizing w with
  | nil => exact ⟨[], w.lostEventsPerWatcher, by simp [SumCalls], by simp [reportLostFrom]⟩
  | cons pos rest ih =>
    simp only [reportLostFrom]
    split_ifs with hlost hok
    · obtain ⟨call, hcall, hw⟩ := pprofAggregate_eq aggregateOk w output
        ⟨lostPeriod (w.watcher pos) * BitVec.ofNat 64 (w.lostEventsPerWatcher pos),
          w.lostEventsPerWatcher pos, 0⟩ pos .sum
      rw [hw]
      obtain ⟨calls, lost, hcalls, heq⟩ := ih
      refine ⟨call :: calls, lost, List.forall_mem_cons.mpr ⟨hcall, hcalls⟩, heq.trans ?_⟩
      simp [addCalls]
    · exact ⟨[_], w.lostEventsPerWatcher, by simp [SumCalls], rfl⟩
    · exact ih

theorem reportLostEvents_eq (aggregateOk : ℕ → Bool) (w : Worker) (output : UnwindOutput) :
    ∃ calls lost, SumCalls calls ∧ (w.reportLostEvents aggregateOk output).1 =
      addCalls { w with lostEventsPerWatcher := lost } calls :=
  reportLostFrom_eq output _

/-- A cycle that succeeds: the processes that have not been visited are cleared, the others
aggregated, lost events are reported, and the profiles are switched. -/
theorem cycle_eq {input : CycleInput} (hok : (w.cycle aggregateOk input).2 = true) :
    (clearPids aggregateOk input.unvisitedPids w).2 = true ∧
      ((clearPids aggregateOk input.unvisitedPids w).1.aggregateLiveAllocations aggregateOk).2 =
        true ∧
      ∃ w' calls lost, SumCalls calls ∧
        ((clearPids aggregateOk input.unvisitedPids w).1.aggregateLiveAllocations aggregateOk).1 =
          w' ∧
        (w.cycle aggregateOk input).1 = addCalls
          { w' with
            lostEventsPerWatcher := lost
            iCurrentPprof := !w'.iCurrentPprof
            liveAllocation := w'.liveAllocation.cycle } calls := by
  simp only [cycle] at hok ⊢
  split_ifs at hok ⊢ with hclear hlive hlost hreset
  simp only [Bool.not_eq_true, Bool.not_eq_false', Bool.or_eq_false_iff] at hclear hlive
  obtain ⟨calls, lost, hcalls, heq⟩ := reportLostEvents_eq aggregateOk
    ((clearPids aggregateOk input.unvisitedPids w).1.aggregateLiveAllocations aggregateOk).1
    input.lostOutput
  refine ⟨hclear, hlive.1, _, calls, lost, hcalls, rfl, ?_⟩
  rw [heq]
  rfl

end Worker

end Ddprof
