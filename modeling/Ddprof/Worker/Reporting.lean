import Ddprof.Worker.Reports

/-!
Each live allocation is reported once per profile.

The worker is run together with a record of the reports that go into each profile. A cycle closes
the current profile; a call that returns an error ends the worker, and nothing is exported any
more. The profile of a cycle has one report of each allocation that was registered when the cycle
began, and no allocation is reported twice, provided that allocations are only cleared for a
watcher when no other watcher has allocations of the process.
-/

namespace Ddprof

open Report (contributions allocations)

namespace Worker

variable {aggregateOk : ℕ → Bool} {w w' : Worker} {number : Numbering} {watcherPos : ℕ} {pid : ℤ}
  {a : Allocation} {x : BitVec 64} {earlier : List AggregateCall} {registrations : ℕ}
  {current : List Report}

/-! ### Cycles -/

/-- The reports of `clear_unvisited_pids`. -/
def clearReports (aggregateOk : ℕ → Bool) (number : Numbering) : List ℤ → Worker → List Report
  | [], _ => []
  | pid :: rest, w => w.reportsForPid number pid ++
    clearReports aggregateOk number rest (w.workerPidFree aggregateOk pid).1

theorem Ledger.clearPids (h : Ledger earlier number registrations w current) (pids : List ℤ)
    (hok : (clearPids aggregateOk pids w).2 = true) :
    Ledger earlier number registrations (clearPids aggregateOk pids w).1
        (current ++ clearReports aggregateOk number pids w) ∧
      ∀ a x, w.Live number a x → (clearPids aggregateOk pids w).1.Live number a x ∨
        (a, x) ∈ contributions (clearReports aggregateOk number pids w) := by
  induction pids generalizing w current with
  | nil =>
    rw [clearReports, List.append_nil]
    exact ⟨h, fun a x ha => .inl ha⟩
  | cons pid rest ih =>
    simp only [Worker.clearPids] at hok ⊢
    split_ifs at hok ⊢ with hfree
    obtain ⟨hledger, hlive⟩ := h.workerPidFree pid hfree
    obtain ⟨hledger', hlive'⟩ := ih hledger hok
    rw [clearReports, ← List.append_assoc]
    refine ⟨hledger', fun a x ha => ?_⟩
    rw [Report.contributions_append, List.mem_append]
    exact (hlive a x ha).elim (fun ha => (hlive' a x ha).imp_right .inr) fun ha => .inr (.inl ha)

def cycleReports (aggregateOk : ℕ → Bool) (number : Numbering) (w : Worker) (input : CycleInput) :
    List Report :=
  clearReports aggregateOk number input.unvisitedPids w ++
    (clearPids aggregateOk input.unvisitedPids w).1.reportsAll number

/-- After a cycle the same allocations are registered as after the clearing of processes, and
all of them have been reported. -/
theorem cycle_reports {input : CycleInput} (number : Numbering)
    (hok : (w.cycle aggregateOk input).2 = true) :
    SameLive (clearPids aggregateOk input.unvisitedPids w).1.liveAllocation
        (w.cycle aggregateOk input).1.liveAllocation ∧
      (w.cycle aggregateOk input).1.liveCalls =
        (clearPids aggregateOk input.unvisitedPids w).1.liveCalls ++
          ((clearPids aggregateOk input.unvisitedPids w).1.reportsAll number).map Report.call := by
  obtain ⟨-, hlive, w', calls, lost, hcalls, hw', heq⟩ := cycle_eq hok
  rw [aggregateLiveAllocations_eq hlive, ← calls_reportsAll number] at hw'
  rw [heq]
  refine ⟨fun pos p => ?_, ?_⟩
  · rw [← hw']
    rfl
  · rw [liveCalls_addSum _ hcalls]
    change w'.liveCalls = _
    rw [← hw', liveCalls_addReports]
    intro r hr
    obtain ⟨pos, p, hr⟩ := exists_of_mem_reportsAll hr
    exact valuePos_reportsOf hr

theorem Ledger.cycle (h : Ledger earlier number registrations w current) {input : CycleInput}
    (hok : (w.cycle aggregateOk input).2 = true) :
    let profile := current ++ w.cycleReports aggregateOk number input
    Ledger (earlier ++ profile.map Report.call) number registrations
        (w.cycle aggregateOk input).1 [] ∧
      (allocations profile).Nodup ∧ (∀ r ∈ profile, r.Adds) ∧
      ∀ a x, w.Live number a x → (a, x) ∈ contributions profile := by
  obtain ⟨hcleared, hlive⟩ := h.clearPids input.unvisitedPids (cycle_eq hok).1
  obtain ⟨hsame, hcalls⟩ := cycle_reports number hok
  rw [cycleReports, ← List.append_assoc]
  refine ⟨⟨hcleared.anchored.of_same hsame, ?_, nofun, List.nodup_nil, nofun,
    fun a x ha => ?_, nofun⟩, ?_, fun r hr => ?_, fun a x ha => ?_⟩
  · rw [hcalls, hcleared.calls]
    simp
  · exact hcleared.live_lt a x ((Live.of_same hsame).mp ha)
  · exact hcleared.nodup_append (nodup_reportsAll hcleared.anchored number)
      fun a x hx => (mem_reportsAll hcleared.anchored).mp hx
  · refine (List.mem_append.mp hr).elim (hcleared.adds r) fun hr => ?_
    obtain ⟨pos, p, hr⟩ := exists_of_mem_reportsAll hr
    exact adds_reportsOf hcleared.anchored hr
  · rw [Report.contributions_append, Report.contributions_append, List.mem_append, List.mem_append]
    exact (hlive a x ha).elim (fun ha => .inr ((mem_reportsAll hcleared.anchored).mpr ha))
      fun ha => .inl (.inr ha)

/-! ### Events -/

theorem Anchored.registerDeallocation (h : w.Anchored) (address watcherPos : ℕ) (pid : ℤ) :
    (w.withLive (w.liveAllocation.registerDeallocation address watcherPos pid)).Anchored := by
  intro pos p
  rw [withLive, LiveAllocation.pidStacks_registerDeallocation]
  split_ifs
  · obtain ⟨leak, hb⟩ := h watcherPos pid
    exact ⟨leak, PidStacks.balanced_registerDeallocation hb address⟩
  · exact h pos p

theorem Live.of_registerDeallocation {address : ℕ}
    (h : (w.withLive (w.liveAllocation.registerDeallocation address watcherPos pid)).Live number a
      x) : w.Live number a x := by
  refine ⟨h.1, ?_⟩
  have hentry := h.2
  rw [withLive, LiveAllocation.pidStacks_registerDeallocation] at hentry
  split_ifs at hentry with hkey
  · rw [PidStacks.entryAt_registerDeallocation] at hentry
    split_ifs at hentry
    · cases hentry
    · rw [hkey.1, hkey.2]
      exact hentry
  · exact hentry

theorem Ledger.registerDeallocation (h : Ledger earlier number registrations w current)
    (address watcherPos : ℕ) (pid : ℤ) : Ledger earlier number registrations
      (w.withLive (w.liveAllocation.registerDeallocation address watcherPos pid)) current :=
  h.keep (h.anchored.registerDeallocation address watcherPos pid) rfl
    fun _ _ ha => ha.of_registerDeallocation

theorem Anchored.registerAllocation (h : w.Anchored) (uo : UnwindOutput) (address : ℕ)
    (value : BitVec 64) (watcherPos : ℕ) (pid : ℤ) :
    (w.withLive (w.liveAllocation.registerAllocation uo address value
      watcherPos pid)).Anchored := by
  intro pos p
  rw [withLive, LiveAllocation.pidStacks_registerAllocation]
  split_ifs
  · obtain ⟨leak, hb⟩ := h watcherPos pid
    obtain ⟨leak', hb', -⟩ := PidStacks.balanced_registerAllocation hb uo address value
    exact ⟨leak', hb'⟩
  · exact h pos p

def Numbering.set (number : Numbering) (watcherPos : ℕ) (pid : ℤ) (address n : ℕ) : Numbering :=
  fun pos p a => if pos = watcherPos ∧ p = pid ∧ a = address then n else number pos p a

variable {uo : UnwindOutput}

/-- A live allocation is the one that has just been registered, or it was live before. -/
theorem Live.of_registerAllocation (huo : uo.locs ≠ []) {address n : ℕ} {value : BitVec 64}
    (h : (w.withLive (w.liveAllocation.registerAllocation uo address value watcherPos pid)).Live
      (Numbering.set number watcherPos pid address n) a x) :
    a.number = n ∨ w.Live number a x := by
  obtain ⟨hnumber, hentry⟩ := h
  rw [withLive, LiveAllocation.pidStacks_registerAllocation] at hentry
  rw [Numbering.set] at hnumber
  split_ifs at hnumber with hkey
  · exact .inl hnumber
  · refine .inr ⟨hnumber, ?_⟩
    split_ifs at hentry with hpid
    · have haddress : a.address ≠ address := fun haddress => hkey ⟨hpid.1, hpid.2, haddress⟩
      rw [PidStacks.entryAt_registerAllocation _ huo, if_neg haddress] at hentry
      rw [hpid.1, hpid.2]
      exact hentry
    · exact hentry

theorem Ledger.registerAllocation (h : Ledger earlier number registrations w current)
    (huo : uo.locs ≠ []) (address : ℕ) (value : BitVec 64) (watcherPos : ℕ)
    (pid : ℤ) : Ledger earlier (Numbering.set number watcherPos pid address registrations)
      (registrations + 1)
      (w.withLive (w.liveAllocation.registerAllocation uo address value
        watcherPos pid)) current := by
  refine ⟨h.anchored.registerAllocation uo address value watcherPos pid, h.calls, h.adds, h.nodup,
    fun a x ha hmem => ?_, fun a x ha => ?_,
    fun a ha => (h.reported_lt a ha).trans (Nat.lt_succ_self _)⟩
  · obtain hnew | hold := ha.of_registerAllocation huo
    · exact (h.reported_lt a hmem).ne hnew
    · exact h.unreported a x hold hmem
  · obtain hnew | hold := ha.of_registerAllocation huo
    · exact hnew ▸ Nat.lt_succ_self _
    · exact (h.live_lt a x hold).trans (Nat.lt_succ_self _)

theorem sameLive_registerAllocation (huo : uo.locs = []) (address : ℕ)
    (value : BitVec 64) (watcherPos : ℕ) (pid : ℤ) : SameLive w.liveAllocation
      (w.liveAllocation.registerAllocation uo address value watcherPos pid) := by
  intro pos p
  have hskip : (w.liveAllocation.pidStacks watcherPos pid).registerAllocation uo address value =
      (w.liveAllocation.pidStacks watcherPos pid, false) := if_pos huo
  rw [LiveAllocation.pidStacks_registerAllocation, hskip]
  split_ifs with hp
  · rw [hp.1, hp.2]
  · rfl

theorem live_clearPidForWatcher :
    (w.withLive (w.liveAllocation.clearPidForWatcher watcherPos pid)).Live number a x ↔
      w.Live number a x ∧ ¬ (a.watcherPos = watcherPos ∧ a.pid = pid) := by
  rw [Live, Live, withLive, LiveAllocation.pidStacks_clearPidForWatcher]
  split_ifs with hkey
  · exact iff_of_false (by rintro ⟨-, ⟨⟩⟩) fun h => h.2 hkey
  · simp [hkey]

theorem Anchored.clearPidForWatcher (h : w.Anchored) (watcherPos : ℕ) (pid : ℤ) :
    (w.withLive (w.liveAllocation.clearPidForWatcher watcherPos pid)).Anchored := by
  intro pos p
  rw [withLive, LiveAllocation.pidStacks_clearPidForWatcher]
  split_ifs
  · exact ⟨_, PidStacks.balanced_default⟩
  · exact h pos p

/-- No other watcher has allocations of the process. -/
def OnlyWatcher (w : Worker) (watcherPos : ℕ) (pid : ℤ) : Prop :=
  ∀ pos < w.liveAllocation.watcherVector.length, pos ≠ watcherPos →
    (w.liveAllocation.pidStacks pos pid).addressMap.keys = []

instance : Decidable (w.OnlyWatcher watcherPos pid) :=
  inferInstanceAs (Decidable (∀ pos < _, pos ≠ _ → _))

theorem OnlyWatcher.watcherPos_eq (h : w.OnlyWatcher watcherPos pid) (ha : w.Live number a x)
    (hpid : a.pid = pid) : a.watcherPos = watcherPos := by
  by_contra hne
  have hkeys := h a.watcherPos ha.pos_lt hne
  obtain ⟨entry, hentry, -⟩ := Option.map_eq_some_iff.mp ha.2
  obtain ⟨v, hv, -⟩ := Option.map_eq_some_iff.mp hentry
  have hmem : a.address ∈ (w.liveAllocation.pidStacks a.watcherPos a.pid).addressMap.keys :=
    AList.lookup_isSome.mp (Option.isSome_iff_exists.mpr ⟨v, hv⟩)
  rw [hpid, hkeys] at hmem
  cases hmem

theorem Ledger.addSum (h : Ledger earlier number registrations w current)
    {calls : List AggregateCall} (hcalls : SumCalls calls) :
    Ledger earlier number registrations (w.addCalls calls) current :=
  h.keep h.anchored (liveCalls_addSum w hcalls) fun _ _ ha => ha

/-- Clearing a process for a watcher, when no other watcher has allocations of it. -/
theorem Ledger.clearLiveAllocation (h : Ledger earlier number registrations w current)
    (honly : w.OnlyWatcher watcherPos pid) {la : LiveAllocation}
    (hla : SameLive w.liveAllocation la) :
    Ledger earlier number registrations
      (((w.withLive la).addCalls ((w.reportsForPid number pid).map Report.call)).withLive
        (la.clearPidForWatcher watcherPos pid))
      (current ++ w.reportsForPid number pid) := by
  have hsame : SameLive (w.liveAllocation.clearPidForWatcher watcherPos pid)
      (la.clearPidForWatcher watcherPos pid) := fun pos p => by
    rw [LiveAllocation.pidStacks_clearPidForWatcher, LiveAllocation.pidStacks_clearPidForWatcher,
      hla]
  refine h.report ((h.anchored.clearPidForWatcher watcherPos pid).of_same hsame) ?_ (fun r hr => ?_)
    (nodup_reportsForPid h.anchored ..) (fun a x hx => ((mem_reportsForPid h.anchored).mp hx).1)
    fun a x ha => ?_
  · refine liveCalls_addReports w fun r hr => ?_
    obtain ⟨pos, hr⟩ := exists_of_mem_reportsForPid hr
    exact valuePos_reportsOf hr
  · obtain ⟨pos, hr⟩ := exists_of_mem_reportsForPid hr
    exact adds_reportsOf h.anchored hr
  · obtain ⟨hlive, hkey⟩ := live_clearPidForWatcher.mp ((Live.of_same hsame).mp ha)
    refine ⟨hlive, fun hmem => ?_⟩
    obtain ⟨y, hy⟩ := Report.mem_allocations.mp hmem
    have hpid := ((mem_reportsForPid h.anchored).mp hy).2
    exact hkey ⟨honly.watcherPos_eq hlive hpid, hpid⟩

end Worker

/-! ### Runs -/

structure Reporting where
  worker : Worker
  number : Numbering := fun _ _ _ => 0
  registrations : ℕ := 0
  /-- The reports that went into the current profile. -/
  current : List Report := []
  /-- The reports of the profiles of earlier cycles. -/
  exported : List (List Report) := []

namespace Reporting

variable {aggregateOk : ℕ → Bool} {s s' : Reporting}

def init (watchers : List PerfWatcher) (nbValues : Bool → ℕ) : Reporting where
  worker := { watchers := watchers, nbValues := nbValues }

/-- The sample registers an allocation. -/
def Registers (w : Worker) (watcherPos : ℕ) (sample : Sample) : Prop :=
  (w.watcher watcherPos).aggregationMode.liveSum = true ∧ sample.addr ≠ 0 ∧ sample.output.locs ≠ []

instance (w : Worker) (watcherPos : ℕ) (sample : Sample) :
    Decidable (Registers w watcherPos sample) :=
  inferInstanceAs (Decidable (_ ∧ _ ∧ _))

def aggregateSample (aggregateOk : ℕ → Bool) (s : Reporting) (watcherPos : ℕ) (sample : Sample) :
    Reporting :=
  let worker := (s.worker.aggregateSample aggregateOk watcherPos sample).1
  if Registers s.worker watcherPos sample then
    { s with
      worker := worker
      number := Worker.Numbering.set s.number watcherPos sample.pid sample.addr s.registrations
      registrations := s.registrations + 1 }
  else { s with worker := worker }

def workerPidFree (aggregateOk : ℕ → Bool) (s : Reporting) (pid : ℤ) : Reporting :=
  { s with
    worker := (s.worker.workerPidFree aggregateOk pid).1
    current := s.current ++ s.worker.reportsForPid s.number pid }

def ddprofPrSample (aggregateOk : ℕ → Bool) (s : Reporting) (watcherPos : ℕ) (sample : Sample) :
    Reporting :=
  let s := if sample.fatal then s else s.aggregateSample aggregateOk watcherPos sample
  if sample.inconsistent then s.workerPidFree aggregateOk sample.pid else s

def processEvent (aggregateOk : ℕ → Bool) (s : Reporting) (watcherPos : ℕ) :
    WorkerEvent → Reporting
  | .sample sample =>
    if sample.pid ≠ 0 then s.ddprofPrSample aggregateOk watcherPos sample else s
  | .comm pid exec => if pid ≠ 0 ∧ exec then s.workerPidFree aggregateOk pid else s
  | .fork pid ppid => if pid ≠ 0 ∧ ppid ≠ pid then s.workerPidFree aggregateOk pid else s
  | .clearLiveAllocation pid =>
    { s with
      worker := (s.worker.processEvent aggregateOk watcherPos (.clearLiveAllocation pid)).1
      current := s.current ++ s.worker.reportsForPid s.number pid }
  | event => { s with worker := (s.worker.processEvent aggregateOk watcherPos event).1 }

/-- A call that returns an error ends the worker. -/
def step (aggregateOk : ℕ → Bool) (s : Reporting) : Worker.Op → Option Reporting
  | .event watcherPos event =>
    if watcherPos < s.worker.watchers.length ∧
        (s.worker.processEvent aggregateOk watcherPos event).2 = true then
      some (s.processEvent aggregateOk watcherPos event)
    else none
  | .cycle input =>
    if (s.worker.cycle aggregateOk input).2 = true then
      some { s with
        worker := (s.worker.cycle aggregateOk input).1
        current := []
        exported := s.exported ++
          [s.current ++ s.worker.cycleReports aggregateOk s.number input] }
    else none

theorem aggregateSample_worker (aggregateOk : ℕ → Bool) (s : Reporting) (watcherPos : ℕ)
    (sample : Sample) : (s.aggregateSample aggregateOk watcherPos sample).worker =
      (s.worker.aggregateSample aggregateOk watcherPos sample).1 := by
  rw [aggregateSample]
  split_ifs <;> rfl

/-- The record after the first half of a sample. -/
def summed (aggregateOk : ℕ → Bool) (s : Reporting) (watcherPos : ℕ) (sample : Sample) :
    Reporting :=
  if sample.fatal then s else s.aggregateSample aggregateOk watcherPos sample

variable {watcherPos : ℕ}

/-- Where the worker processes a sample without an error, the first half has none. -/
theorem ddprofPrSample_eq {sample : Sample}
    (hok : (s.worker.ddprofPrSample aggregateOk watcherPos sample).2 = true) :
    s.worker.ddprofPrSample aggregateOk watcherPos sample =
      if sample.inconsistent then
        (s.summed aggregateOk watcherPos sample).worker.workerPidFree aggregateOk sample.pid
      else ((s.summed aggregateOk watcherPos sample).worker, true) := by
  have hworker : (s.summed aggregateOk watcherPos sample).worker =
      (if sample.fatal then (s.worker, true)
        else s.worker.aggregateSample aggregateOk watcherPos sample).1 := by
    rw [summed]
    split_ifs
    · rfl
    · exact aggregateSample_worker aggregateOk s watcherPos sample
  rw [Worker.ddprofPrSample] at hok ⊢
  rw [hworker]
  generalize (if sample.fatal then (s.worker, true)
    else s.worker.aggregateSample aggregateOk watcherPos sample) = result at hok ⊢
  obtain ⟨w, ok⟩ := result
  cases ok with
  | false => cases hok
  | true => rfl

theorem processEvent_worker {event : WorkerEvent}
    (hok : (s.worker.processEvent aggregateOk watcherPos event).2 = true) :
    (s.processEvent aggregateOk watcherPos event).worker =
      (s.worker.processEvent aggregateOk watcherPos event).1 := by
  cases event with
  | sample sample =>
    simp only [processEvent, Worker.processEvent] at hok ⊢
    split_ifs at hok ⊢
    · rw [ddprofPrSample_eq hok, ddprofPrSample, ← summed]
      split_ifs
      · rfl
      · rfl
    · rfl
  | comm pid exec =>
    simp only [processEvent, Worker.processEvent]
    split_ifs <;> rfl
  | fork pid ppid =>
    simp only [processEvent, Worker.processEvent]
    split_ifs <;> rfl
  | mmap | exit | lost | deallocation | clearLiveAllocation | allocationTrackerState | other => rfl

theorem step_worker {op : Worker.Op} (h : s.step aggregateOk op = some s') :
    s.worker.step aggregateOk op = some s'.worker := by
  cases op with
  | event watcherPos event =>
    rw [step] at h
    split_ifs at h with hok
    cases h
    rw [Worker.step, if_pos hok.1, processEvent_worker hok.2]
  | cycle input =>
    rw [step] at h
    split_ifs at h with hok
    cases h
    rfl

structure Inv (s : Reporting) : Prop where
  ledger : Worker.Ledger (s.exported.flatten.map Report.call) s.number s.registrations s.worker
    s.current
  exported : ∀ profile ∈ s.exported, (allocations profile).Nodup ∧ ∀ r ∈ profile, r.Adds

theorem inv_init (watchers : List PerfWatcher) (nbValues : Bool → ℕ) :
    (init watchers nbValues).Inv := by
  refine ⟨⟨fun _ _ => ⟨_, PidStacks.balanced_default⟩, rfl, nofun, List.nodup_nil, nofun,
    ?_, nofun⟩,
    nofun⟩
  exact fun a x ha => nomatch ha.2

theorem Inv.aggregateSample (h : s.Inv) (aggregateOk : ℕ → Bool) (watcherPos : ℕ)
    (sample : Sample) :
    (s.aggregateSample aggregateOk watcherPos sample).Inv := by
  obtain ⟨calls, hcalls, heq⟩ :=
    Worker.aggregateSample_eq aggregateOk s.worker watcherPos sample
  rw [Reporting.aggregateSample]
  simp only [heq, Worker.liveAfter]
  split_ifs with hreg hlive hlive
  · refine ⟨?_, h.exported⟩
    exact (h.ledger.registerAllocation hreg.2.2 sample.addr sample.period
      watcherPos sample.pid).addSum
      hcalls
  · exact absurd ⟨hreg.1, hreg.2.1⟩ hlive
  · have huo : sample.output.locs = [] := by
      by_contra huo
      exact hreg ⟨hlive.1, hlive.2, huo⟩
    refine ⟨Worker.Ledger.addSum ?_ hcalls, h.exported⟩
    have hsame := Worker.sameLive_registerAllocation (w := s.worker) huo sample.addr sample.period
      watcherPos sample.pid
    exact h.ledger.keep (h.ledger.anchored.of_same hsame) rfl fun a x ha =>
      (Worker.Live.of_same hsame).mp ha
  · exact ⟨Worker.Ledger.addSum h.ledger hcalls, h.exported⟩

theorem Inv.workerPidFree (h : s.Inv) {pid : ℤ}
    (hok : (s.worker.workerPidFree aggregateOk pid).2 = true) :
    (s.workerPidFree aggregateOk pid).Inv :=
  ⟨(h.ledger.workerPidFree pid hok).1, h.exported⟩

theorem Inv.ddprofPrSample (h : s.Inv) {sample : Sample}
    (hok : (s.worker.ddprofPrSample aggregateOk watcherPos sample).2 = true) :
    (s.ddprofPrSample aggregateOk watcherPos sample).Inv := by
  have hsummed : (s.summed aggregateOk watcherPos sample).Inv := by
    rw [summed]
    split_ifs
    · exact h
    · exact h.aggregateSample aggregateOk watcherPos sample
  rw [Reporting.ddprofPrSample, ← summed]
  rw [ddprofPrSample_eq hok] at hok
  split_ifs at hok ⊢
  · exact hsummed.workerPidFree hok
  · exact hsummed

theorem Inv.clearLiveAllocation (h : s.Inv) {pid : ℤ} (honly : s.worker.OnlyWatcher watcherPos pid)
    (hok : (s.worker.processEvent aggregateOk watcherPos (.clearLiveAllocation pid)).2 = true) :
    (s.processEvent aggregateOk watcherPos (.clearLiveAllocation pid)).Inv := by
  refine ⟨?_, h.exported⟩
  simp only [processEvent, Worker.processEvent] at hok ⊢
  split_ifs at hok ⊢ with hlive
  obtain ⟨la, hla, heq⟩ := Worker.aggregateLiveAllocationsForPid_eq pid hlive
  rw [heq, ← Worker.calls_reportsForPid s.number]
  exact h.ledger.clearLiveAllocation honly hla

/-- Allocations are cleared for a watcher only when no other watcher has allocations of the
process. -/
def ClearsAll (s : Reporting) : Worker.Op → Prop
  | .event watcherPos (.clearLiveAllocation pid) => s.worker.OnlyWatcher watcherPos pid
  | _ => True

theorem Inv.processEvent (h : s.Inv) {event : WorkerEvent}
    (hclears : s.ClearsAll (.event watcherPos event))
    (hok : (s.worker.processEvent aggregateOk watcherPos event).2 = true) :
    (s.processEvent aggregateOk watcherPos event).Inv := by
  cases event with
  | sample sample =>
    simp only [Reporting.processEvent, Worker.processEvent] at hok ⊢
    split_ifs at hok ⊢
    · exact h.ddprofPrSample hok
    · exact h
  | comm pid exec =>
    simp only [Reporting.processEvent, Worker.processEvent] at hok ⊢
    split_ifs at hok ⊢
    · exact h.workerPidFree hok
    · exact h
  | fork pid ppid =>
    simp only [Reporting.processEvent, Worker.processEvent] at hok ⊢
    split_ifs at hok ⊢
    · exact h.workerPidFree hok
    · exact h
  | clearLiveAllocation pid => exact h.clearLiveAllocation hclears hok
  | deallocation ptr pid =>
    exact ⟨h.ledger.registerDeallocation ptr watcherPos pid, h.exported⟩
  | lost n | allocationTrackerState pid n =>
    exact ⟨h.ledger.keep h.ledger.anchored rfl fun _ _ ha => ha, h.exported⟩
  | mmap | exit | other => exact h

theorem Inv.cycle (h : s.Inv) {input : Worker.CycleInput}
    (hok : (s.worker.cycle aggregateOk input).2 = true) :
    Inv { s with
      worker := (s.worker.cycle aggregateOk input).1
      current := []
      exported := s.exported ++
        [s.current ++ s.worker.cycleReports aggregateOk s.number input] } := by
  obtain ⟨hledger, hnodup, hadds, -⟩ := h.ledger.cycle hok
  refine ⟨?_, fun profile hprofile => ?_⟩
  · rw [List.flatten_append, List.flatten_singleton, List.map_append]
    exact hledger
  · obtain hold | hnew := List.mem_append.mp hprofile
    · exact h.exported profile hold
    · rw [List.mem_singleton.mp hnew]
      exact ⟨hnodup, hadds⟩

theorem Inv.step (h : s.Inv) {op : Worker.Op} (hclears : s.ClearsAll op)
    (hstep : s.step aggregateOk op = some s') : s'.Inv := by
  cases op with
  | event watcherPos event =>
    rw [Reporting.step] at hstep
    split_ifs at hstep with hok
    cases hstep
    exact h.processEvent hclears hok.2
  | cycle input =>
    rw [Reporting.step] at hstep
    split_ifs at hstep with hok
    cases hstep
    exact h.cycle hok

/-- The reports account for all live-sum calls, each call carries the sum of the values that
contribute to it, and no allocation contributes twice to a profile. -/
structure OncePerProfile (s : Reporting) : Prop where
  calls : s.worker.liveCalls = (s.exported.flatten ++ s.current).map Report.call
  adds : ∀ r ∈ s.exported.flatten ++ s.current, r.Adds
  once : ∀ profile ∈ s.exported ++ [s.current], (allocations profile).Nodup

theorem Inv.oncePerProfile (h : s.Inv) : s.OncePerProfile := by
  refine ⟨?_, fun r hr => ?_, fun profile hprofile => ?_⟩
  · rw [List.map_append]
    exact h.ledger.calls
  · obtain hold | hnew := List.mem_append.mp hr
    · obtain ⟨profile, hprofile, hr⟩ := List.mem_flatten.mp hold
      exact (h.exported profile hprofile).2 r hr
    · exact h.ledger.adds r hnew
  · obtain hold | hnew := List.mem_append.mp hprofile
    · exact (h.exported profile hold).1
    · rw [List.mem_singleton.mp hnew]
      exact h.ledger.nodup

/-- The cycle closes a profile with exactly one contribution of each allocation that is
registered when the cycle begins. -/
def CycleReportsAll (aggregateOk : ℕ → Bool) (s : Reporting) : Prop :=
  ∀ input s', s.step aggregateOk (.cycle input) = some s' →
    ∃ profile, s'.exported = s.exported ++ [profile] ∧
      ∀ a x, s.worker.Live s.number a x →
        (a, x) ∈ contributions profile ∧ (allocations profile).count a = 1

theorem Inv.cycleReportsAll (h : s.Inv) : s.CycleReportsAll aggregateOk := by
  intro input s' hstep
  rw [Reporting.step] at hstep
  split_ifs at hstep with hok
  cases hstep
  obtain ⟨-, hnodup, -, hlive⟩ := h.ledger.cycle hok
  refine ⟨_, rfl, fun a x ha => ⟨hlive a x ha, ?_⟩⟩
  exact List.count_eq_one_of_mem hnodup (Report.mem_allocations.mpr ⟨x, hlive a x ha⟩)

/-- In every run in which allocations are cleared for a watcher only when no other watcher has
allocations of the process, each live allocation contributes at most once to a profile, and
those that are registered when a cycle begins contribute exactly once. -/
theorem run_oncePerProfile {watchers : List PerfWatcher} {nbValues : Bool → ℕ}
    {ops : List Worker.Op}
    (hclears : Run.Along (step aggregateOk) ClearsAll (init watchers nbValues) ops)
    (hrun : Run.steps (step aggregateOk) (init watchers nbValues) ops = some s) :
    s.OncePerProfile ∧ s.CycleReportsAll aggregateOk := by
  have h : s.Inv := Run.steps_invariant (fun _ _ _ h hop hstep => h.step hop hstep)
    (inv_init watchers nbValues) hclears hrun
  exact ⟨h.oncePerProfile, h.cycleReportsAll⟩

/-- `-e "sALLOC mode=sl" -e "hCPU mode=sl"`. The perf watcher comes first, and both get
`PERF_SAMPLE_ADDR`. -/
def liveWatchers : List PerfWatcher :=
  let conf (name : EventName) := presetConf name ⟨true, true⟩ 32000
  (contextAddWatchers (fun _ _ => -1)
    ⟨[[conf .sALLOC], [conf .hCPU]], [], false, 32000⟩).toOption.getD []

def liveSample (pid : ℤ) (addr : ℕ) (period : BitVec 64) : WorkerEvent :=
  .sample ⟨pid, addr, period, period, 0, ⟨[⟨1, 1, 1, 0, 0⟩], [], [], [], pid, pid⟩, false, false⟩

/-- Allocations of two processes for the second watcher and of a third one for the first, a
clear, an address that is allocated again, an exec and two cycles. -/
def clearedApart : List Worker.Op :=
  [.event 1 (liveSample 4 16 8), .event 1 (liveSample 5 16 8), .event 0 (liveSample 6 16 2),
    .event 1 (.clearLiveAllocation 4), .event 1 (liveSample 4 16 1), .event 0 (.comm 6 true),
    .cycle ⟨[5], ⟨[], [], [], [], 0, 0⟩, true, true⟩,
    .event 1 (.deallocation 16 4), .cycle ⟨[], ⟨[], [], [], [], 0, 0⟩, true, true⟩]

instance (s : Reporting) (op : Worker.Op) : Decidable (s.ClearsAll op) := by
  unfold ClearsAll
  split <;> infer_instance

theorem run_oncePerProfile_apart :
    (Run.steps (step fun _ => true) (init liveWatchers fun _ => 5) clearedApart).any
      (fun s => decide (s.exported.map allocations =
        [[⟨1, 4, 16, 0⟩, ⟨0, 6, 16, 2⟩, ⟨1, 5, 16, 1⟩, ⟨1, 4, 16, 3⟩], []])) = true ∧
    ∀ s, Run.steps (step fun _ => true) (init liveWatchers fun _ => 5) clearedApart = some s →
      s.OncePerProfile ∧ s.CycleReportsAll fun _ => true :=
  ⟨by decide +kernel, fun _ hrun => run_oncePerProfile (by decide +kernel) hrun⟩

/-- Clearing a process for the second watcher reports its allocation for the first one too, and
the cycle reports it again: 7 bytes are live, and the profile says 14. -/
theorem clear_reports_twice :
    (Run.steps (step fun _ => true) (init liveWatchers fun _ => 5)
        [.event 1 (liveSample 4 16 8), .event 0 (liveSample 4 32 7),
          .event 1 (.clearLiveAllocation 4), .cycle ⟨[], ⟨[], [], [], [], 0, 0⟩, true, true⟩]).any
      (fun s => decide (s.exported.map allocations =
          [[⟨0, 4, 32, 1⟩, ⟨1, 4, 16, 0⟩, ⟨0, 4, 32, 1⟩]] ∧
        (s.worker.calls.filter fun c => c.valuePos = .liveSum).map
            (fun c => (c.watcherPos, c.pack.value)) =
          [(0, 7), (1, 8), (0, 7)])) = true := by
  decide +kernel

end Reporting

end Ddprof
