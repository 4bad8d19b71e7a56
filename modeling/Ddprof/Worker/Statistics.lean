import Ddprof.Worker.Basic

/-!
The time that the target has spent on the processor (`STATS_TARGET_CPU_USAGE`).

A counter adds up the periods of the samples of a watcher for the task clock. At the end of a cycle
it is read, turned into millicores, and cleared. Two functions add to it, and one calls the other.
They recognise the watcher by its `config`, a number that means another event for another type.
-/

namespace Ddprof

def perfCountSwTaskClock : ℕ := 1

def PerfWatcher.isTaskClock (watcher : PerfWatcher) : Bool :=
  watcher.type = .software && watcher.config = perfCountSwTaskClock

/-- An event of another type that has the number of the task clock. -/
def PerfWatcher.isMistaken (watcher : PerfWatcher) : Bool :=
  watcher.type ≠ .software && watcher.config = perfCountSwTaskClock

/-! ### The counter -/

namespace TargetCpu

def addTaskClock (watcher : PerfWatcher) (sample : Sample) (stat : BitVec 64) : BitVec 64 :=
  if watcher.config = perfCountSwTaskClock then stat + sample.period else stat

def unwindSample (watcher : PerfWatcher) (sample : Sample) (stat : BitVec 64) : BitVec 64 :=
  addTaskClock watcher sample stat

/-- What `ddprof_pr_sample` does to the counter. -/
def prSample (watcher : PerfWatcher) (sample : Sample) (stat : BitVec 64) : BitVec 64 :=
  unwindSample watcher sample (addTaskClock watcher sample stat)

/-- `worker_update_stats` reads the counter and stores millicores. -/
def updateStats (targetCpuNsec elapsedNsec : BitVec 64) : BitVec 64 :=
  (targetCpuNsec * 1000).sdiv elapsedNsec

/-- `ddprof_reset_worker_stats` -/
def reset (_ : BitVec 64) : BitVec 64 := 0

end TargetCpu

/-- A worker with its counter, and the samples that it has processed since the counter was last
cleared. -/
structure MeteredWorker where
  worker : Worker
  targetCpuUsage : BitVec 64 := 0
  samples : List (PerfWatcher × Sample) := []

inductive MeteredOp
  | event (watcherPos : ℕ) (event : WorkerEvent)
  -- `statsRead`: nothing between the export and the read of the counter fails.
  | cycle (input : Worker.CycleInput) (statsRead : Bool) (elapsedNsec : BitVec 64)

namespace MeteredWorker

variable (aggregateOk : ℕ → Bool)

/-- Samples of pid 0 are dropped before they are processed. -/
def processEvent (s : MeteredWorker) (watcherPos : ℕ) (event : WorkerEvent) : MeteredWorker :=
  let worker := (s.worker.processEvent aggregateOk watcherPos event).1
  match event with
  | .sample sample =>
    if sample.pid ≠ 0 then
      let watcher := s.worker.watcher watcherPos
      { worker := worker
        targetCpuUsage := TargetCpu.prSample watcher sample s.targetCpuUsage
        samples := s.samples ++ [(watcher, sample)] }
    else { s with worker := worker }
  | _ => { s with worker := worker }

/-- A cycle that fails before the counter is read leaves it as it is. -/
def cycle (s : MeteredWorker) (input : Worker.CycleInput) (statsRead : Bool)
    (elapsedNsec : BitVec 64) : MeteredWorker :=
  let (worker, ok) := s.worker.cycle aggregateOk input
  if ok && statsRead then
    { worker := worker
      targetCpuUsage := TargetCpu.reset (TargetCpu.updateStats s.targetCpuUsage elapsedNsec)
      samples := [] }
  else { s with worker := worker }

def step (s : MeteredWorker) : MeteredOp → MeteredWorker
  | .event watcherPos event => s.processEvent aggregateOk watcherPos event
  | .cycle input statsRead elapsedNsec => s.cycle aggregateOk input statsRead elapsedNsec

/-! ### What the counter adds up -/

def totalPeriod (p : PerfWatcher → Bool) (samples : List (PerfWatcher × Sample)) : ℕ :=
  ((samples.filter fun x => p x.1).map fun x => x.2.period.toNat).sum

theorem totalPeriod_concat (p : PerfWatcher → Bool) (samples : List (PerfWatcher × Sample))
    (watcher : PerfWatcher) (sample : Sample) :
    totalPeriod p (samples ++ [(watcher, sample)]) =
      totalPeriod p samples + if p watcher then sample.period.toNat else 0 := by
  unfold totalPeriod
  rw [List.filter_append, List.map_append, List.sum_append, List.filter_singleton]
  cases p watcher <;> simp

/-- A sample is counted twice if the watcher has the number of the task clock. -/
theorem prSample_eq (watcher : PerfWatcher) (sample : Sample) (stat : BitVec 64) :
    TargetCpu.prSample watcher sample stat =
      stat + BitVec.ofNat 64 (2 * ((if watcher.isTaskClock then sample.period.toNat else 0) +
        if watcher.isMistaken then sample.period.toNat else 0)) := by
  unfold TargetCpu.prSample TargetCpu.unwindSample TargetCpu.addTaskClock
    PerfWatcher.isTaskClock PerfWatcher.isMistaken
  by_cases hconfig : watcher.config = perfCountSwTaskClock
  · have hdouble : BitVec.ofNat 64 (2 * sample.period.toNat) = sample.period + sample.period := by
      rw [two_mul, BitVec.ofNat_add, BitVec.ofNat_toNat, BitVec.setWidth_eq]
    by_cases htype : watcher.type = .software
    · simp [hconfig, htype, hdouble, BitVec.add_assoc]
    · simp [hconfig, htype, hdouble, BitVec.add_assoc]
  · simp [hconfig]

def Doubled (s : MeteredWorker) : Prop :=
  s.targetCpuUsage = BitVec.ofNat 64 (2 * (totalPeriod PerfWatcher.isTaskClock s.samples +
    totalPeriod PerfWatcher.isMistaken s.samples))

variable {aggregateOk} {s : MeteredWorker}

theorem Doubled.processEvent (h : s.Doubled) (watcherPos : ℕ) (event : WorkerEvent) :
    (s.processEvent aggregateOk watcherPos event).Doubled := by
  cases event with
  | sample sample =>
    unfold MeteredWorker.processEvent
    simp only
    split_ifs
    · unfold Doubled at h ⊢
      simp only [totalPeriod_concat]
      rw [prSample_eq, h, ← BitVec.ofNat_add]
      congr 1
      omega
    · exact h
  | _ => exact h

theorem Doubled.step (h : s.Doubled) (op : MeteredOp) : (s.step aggregateOk op).Doubled := by
  cases op with
  | event watcherPos event => exact h.processEvent watcherPos event
  | cycle input statsRead elapsedNsec =>
    show (s.cycle aggregateOk input statsRead elapsedNsec).Doubled
    unfold MeteredWorker.cycle
    simp only
    split_ifs
    · rfl
    · exact h

theorem doubled_of_run (w : Worker) (ops : List MeteredOp) :
    (ops.foldl (step aggregateOk) { worker := w }).Doubled := by
  have hrun : ∀ (ops : List MeteredOp) (s : MeteredWorker), s.Doubled →
      (ops.foldl (MeteredWorker.step aggregateOk) s).Doubled := by
    intro ops
    induction ops with
    | nil => exact fun s h => h
    | cons op rest ih => exact fun s h => ih _ (h.step op)
  exact hrun ops { worker := w } rfl

/-- In every state that a worker reaches, the counter is the sum of the periods of the samples of
the task clock that have been processed in the cycle exactly if that sum, together with twice the
periods of the samples that are mistaken for them, is a multiple of `2 ^ 64`. For less than
`2 ^ 64` nanoseconds that means that all these periods are zero. -/
theorem targetCpuUsage_eq_iff (aggregateOk : ℕ → Bool) (w : Worker) (ops : List MeteredOp) :
    let s := ops.foldl (step aggregateOk) { worker := w }
    s.targetCpuUsage = BitVec.ofNat 64 (totalPeriod PerfWatcher.isTaskClock s.samples) ↔
      2 ^ 64 ∣ totalPeriod PerfWatcher.isTaskClock s.samples +
        2 * totalPeriod PerfWatcher.isMistaken s.samples := by
  intro s
  have hdoubled : s.Doubled := doubled_of_run w ops
  rw [hdoubled, ← BitVec.toNat_inj, BitVec.toNat_ofNat, BitVec.toNat_ofNat]
  omega

/-- A second of a thread on the processor, in one sample of the task clock, and a sample of the
hardware counter for instructions. -/
theorem targetCpuUsage_doubled :
    let sample (period : BitVec 64) : Sample :=
      { pid := 7, addr := 0, period := period, value := 0, timestamp := 0,
        output := ⟨[], [], [], [], 7, 7⟩ }
    let w : Worker := { watchers := [ewatcher .sCPU, ewatcher .hINST], nbValues := fun _ => 0 }
    let s := [MeteredOp.event 0 (.sample (sample 1000000000)),
      MeteredOp.event 1 (.sample (sample 500))].foldl (step fun _ => true) { worker := w }
    totalPeriod PerfWatcher.isTaskClock s.samples = 1000000000 ∧
      s.targetCpuUsage = 2000001000 := by
  decide +kernel

end MeteredWorker

end Ddprof
