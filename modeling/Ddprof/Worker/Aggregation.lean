import Ddprof.Lib.Run
import Ddprof.LiveAllocation.Replay
import Ddprof.Worker.Basic

/-!
Which slots the calls of `pprof_aggregate` write to.

A slot exists for a watcher and a mode that contribute to the profile. The call
sites do not ask for that. A sample is aggregated whenever the mode of its
watcher says so, live allocations whenever there are any, and lost events
whenever there are any, for every watcher and always as a sum. A watcher that
does not contribute a sum, such as the dummy watcher that is added to grab mmap
events, therefore makes `report_lost_events` write to slot `-1` as soon as the
kernel loses one of its records.

When losses and samples only come from watchers that have the slot they are
aggregated to, every call is in bounds, over every run.
-/

namespace Ddprof

open UnorderedMap

/-- The write to `values[pprof_index]` stays inside the values of the profile, and
these inside the array; likewise for the count, if there is one. -/
structure AggregateCall.InBounds (c : AggregateCall) : Prop where
  nonneg : 0 ≤ c.indices.pprofIndex
  lt : c.indices.pprofIndex < c.nbValues
  count : IndexOk c.nbValues c.indices.pprofCountIndex
  le : c.nbValues ≤ kMaxValueTypes

/-! ### Live allocations without stack traces -/

theorem PidStacks.uniqueStacks_registerDeallocation {ps : PidStacks} (h : ps.uniqueStacks = ∅)
    (address : ℕ) : (ps.registerDeallocation address).1.uniqueStacks = ∅ := by
  unfold PidStacks.registerDeallocation
  cases AList.lookup address ps.addressMap with
  | none => exact h
  | some v =>
    cases hv : v.uniqueStack with
    | none => simpa [hv] using h
    | some ptr =>
      have hderef : PprofStacks.deref ∅ ptr = none := by simp [PprofStacks.deref]
      simp [hv, h, PprofStacks.release, PprofStacks.update, hderef]

namespace Worker

variable {aggregateOk : ℕ → Bool} {watchers : List PerfWatcher} {n : ℕ} {w : Worker}

def HasSlot (watchers : List PerfWatcher) (watcherPos : ℕ) (pos : AggregationPos) : Prop :=
  watcherPos < watchers.length ∧ (watchers.getD watcherPos default).contributes pos = true

/-- The calls made so far are in bounds, and what is still to be aggregated, lost
events and live allocations, has a slot. -/
structure Sound (watchers : List PerfWatcher) (n : ℕ) (w : Worker) : Prop where
  le : n ≤ kMaxValueTypes
  indexed : ∀ pw ∈ watchers, Indexed n pw
  watchers_eq : w.watchers = watchers
  nbValues_eq : ∀ i, w.nbValues i = n
  calls : ∀ c ∈ w.calls, c.InBounds
  lost : ∀ pos, 0 < w.lostEventsPerWatcher pos → HasSlot watchers pos .sum
  live : ∀ pos pid, (w.liveAllocation.pidStacks pos pid).uniqueStacks ≠ ∅ →
    HasSlot watchers pos .liveSum

variable {watcherPos : ℕ}

namespace Sound

theorem withLive (h : Sound watchers n w) {la : LiveAllocation}
    (hla : ∀ pos pid, (la.pidStacks pos pid).uniqueStacks ≠ ∅ → HasSlot watchers pos .liveSum) :
    Sound watchers n { w with liveAllocation := la } :=
  ⟨h.le, h.indexed, h.watchers_eq, h.nbValues_eq, h.calls, h.lost, hla⟩

theorem withLost (h : Sound watchers n w) {lost : ℕ → ℕ}
    (hlost : ∀ pos, 0 < lost pos → HasSlot watchers pos .sum) :
    Sound watchers n { w with lostEventsPerWatcher := lost } :=
  ⟨h.le, h.indexed, h.watchers_eq, h.nbValues_eq, h.calls, hlost, h.live⟩

variable (aggregateOk)

theorem pprofAggregate (h : Sound watchers n w) {pos : AggregationPos}
    (hslot : HasSlot watchers watcherPos pos) (output : UnwindOutput) (pack : ValuePack) :
    Sound watchers n (w.pprofAggregate aggregateOk output pack watcherPos pos).1 := by
  obtain ⟨hlt, hcontr⟩ := hslot
  have hmem : watchers.getD watcherPos default ∈ watchers := by
    rw [List.getD_eq_getElem _ _ hlt]
    exact List.getElem_mem hlt
  have hix := h.indexed _ hmem
  have hindex := ((hix.inRange pos).index).resolve_left (hix.slot pos hcontr)
  refine ⟨h.le, h.indexed, h.watchers_eq, h.nbValues_eq, ?_, h.lost, h.live⟩
  intro c hc
  rcases List.mem_append.mp hc with hc | hc
  · exact h.calls c hc
  · rw [List.mem_singleton.mp hc]
    refine ⟨?_, ?_, ?_, ?_⟩ <;>
      simp only [watcher, h.watchers_eq, h.nbValues_eq]
    · exact hindex.1
    · exact hindex.2
    · exact (hix.inRange pos).count
    · exact h.le

theorem aggregateStacks (l : List (Sigma fun _ : UnwindOutput => StackNode))
    (hl : l ≠ [] → HasSlot watchers watcherPos .liveSum) (h : Sound watchers n w) :
    Sound watchers n (aggregateStacks aggregateOk watcherPos l w).1 := by
  induction l generalizing w with
  | nil => exact h
  | cons e rest ih =>
    unfold Worker.aggregateStacks
    have hslot := hl (List.cons_ne_nil e rest)
    have h' := h.pprofAggregate aggregateOk hslot e.1
      ⟨e.2.data.value, e.2.data.count, 0⟩
    simp only
    split_ifs
    · exact ih (fun _ => hslot) h'
    · exact h'

omit aggregateOk in
/-- Stack traces that are there to be aggregated belong to a watcher with a slot. -/
theorem hasSlot_of_entries (h : Sound watchers n w) {pid : ℤ}
    (hl : (w.liveAllocation.pidStacks watcherPos pid).uniqueStacks.entries ≠ []) :
    HasSlot watchers watcherPos .liveSum := by
  refine h.live watcherPos pid fun hempty => hl ?_
  rw [hempty]
  rfl

theorem aggregateLiveForPidFrom (pid : ℤ) (l : List ℕ) (h : Sound watchers n w) :
    Sound watchers n (aggregateLiveForPidFrom aggregateOk pid l w).1 := by
  induction l generalizing w with
  | nil => exact h
  | cons watcherPos rest ih =>
    unfold Worker.aggregateLiveForPidFrom
    -- reading the map of the process may create it, with no stack trace in it
    let la := w.liveAllocation.setPidStacks watcherPos pid
      (w.liveAllocation.pidStacks watcherPos pid)
    have htouch : Sound watchers n { w with liveAllocation := la } := by
      refine h.withLive fun pos p hne => h.live pos p ?_
      rw [LiveAllocation.pidStacks_setPidStacks] at hne
      split_ifs at hne with heq
      · rwa [heq.1, heq.2]
      · exact hne
    have h' := htouch.aggregateStacks aggregateOk
      (w.liveAllocation.pidStacks watcherPos pid).uniqueStacks.entries h.hasSlot_of_entries
    simp only
    split_ifs
    · exact ih h'
    · exact h'

theorem aggregateLiveAllocationsForPid (h : Sound watchers n w) (pid : ℤ) :
    Sound watchers n (w.aggregateLiveAllocationsForPid aggregateOk pid).1 :=
  h.aggregateLiveForPidFrom aggregateOk pid _

theorem workerPidFree (h : Sound watchers n w) (pid : ℤ) :
    Sound watchers n (w.workerPidFree aggregateOk pid).1 := by
  have h' := h.aggregateLiveAllocationsForPid aggregateOk pid
  unfold Worker.workerPidFree
  simp only
  split_ifs
  · refine h'.withLive fun pos p hne => ?_
    rw [LiveAllocation.pidStacks_clearPid] at hne
    split_ifs at hne
    · exact absurd rfl hne
    · exact h'.live pos p hne
  · exact h'

theorem aggregatePids (watcherPos : ℕ) (l : List (Sigma fun _ : ℤ => PidStacks))
    (hl : ∀ e ∈ l, e.2.uniqueStacks.entries ≠ [] → HasSlot watchers watcherPos .liveSum)
    (h : Sound watchers n w) : Sound watchers n (aggregatePids aggregateOk watcherPos l w).1 := by
  induction l generalizing w with
  | nil => exact h
  | cons e rest ih =>
    unfold Worker.aggregatePids
    have h' := h.aggregateStacks aggregateOk e.2.uniqueStacks.entries
      (hl e List.mem_cons_self)
    simp only
    split_ifs
    · exact ih (fun x hx => hl x (List.mem_cons_of_mem e hx)) h'
    · exact h'

theorem aggregateLiveFrom (l : List ℕ) (h : Sound watchers n w) :
    Sound watchers n (aggregateLiveFrom aggregateOk l w).1 := by
  induction l generalizing w with
  | nil => exact h
  | cons watcherPos rest ih =>
    unfold Worker.aggregateLiveFrom
    have h' := h.aggregatePids aggregateOk watcherPos
      (w.liveAllocation.watcherVector.getD watcherPos ∅ : PidMap).entries
      (fun e he hne => by
        have hlook := AList.mem_lookup_iff.mpr he
        apply hasSlot_of_entries h (?_ :
          (w.liveAllocation.pidStacks watcherPos e.1).uniqueStacks.entries ≠ [])
        rw [LiveAllocation.pidStacks, UnorderedMap.get, Option.mem_def.mp hlook]
        exact hne)
    simp only
    split_ifs
    · exact ih h'
    · exact h'

theorem reportLostFrom (output : UnwindOutput) (l : List ℕ) (h : Sound watchers n w) :
    Sound watchers n (reportLostFrom aggregateOk output l w).1 := by
  induction l generalizing w with
  | nil => exact h
  | cons watcherPos rest ih =>
    unfold Worker.reportLostFrom
    simp only
    split_ifs with hlost hok
    · have h' := h.pprofAggregate aggregateOk (h.lost watcherPos hlost) output
        ⟨lostPeriod (w.watcher watcherPos) *
          BitVec.ofNat 64 (w.lostEventsPerWatcher watcherPos),
          w.lostEventsPerWatcher watcherPos, 0⟩
      refine ih (h'.withLost fun pos hpos => ?_)
      by_cases heq : pos = watcherPos
      · rw [heq, Function.update_self] at hpos
        exact absurd hpos (lt_irrefl 0)
      · rw [Function.update_of_ne heq] at hpos
        exact h.lost pos hpos
    · exact h.pprofAggregate aggregateOk (h.lost watcherPos hlost) output _
    · exact ih h

theorem clearPids (l : List ℤ) (h : Sound watchers n w) :
    Sound watchers n (clearPids aggregateOk l w).1 := by
  induction l generalizing w with
  | nil => exact h
  | cons pid rest ih =>
    unfold Worker.clearPids
    have h' := h.workerPidFree aggregateOk pid
    simp only
    split_ifs
    · exact ih h'
    · exact h'

theorem aggregateLiveAllocations (h : Sound watchers n w) :
    Sound watchers n (w.aggregateLiveAllocations aggregateOk).1 :=
  h.aggregateLiveFrom aggregateOk _

theorem reportLostEvents (h : Sound watchers n w) (output : UnwindOutput) :
    Sound watchers n (w.reportLostEvents aggregateOk output).1 :=
  h.reportLostFrom aggregateOk output _

theorem cycle (h : Sound watchers n w) (input : CycleInput) :
    Sound watchers n (w.cycle aggregateOk input).1 := by
  have h1 := h.clearPids aggregateOk input.unvisitedPids
  have h2 := h1.aggregateLiveAllocations aggregateOk
  have h3 := h2.reportLostEvents aggregateOk input.lostOutput
  unfold Worker.cycle
  simp only
  split_ifs
  · exact h1
  · exact h2
  · exact h3
  · exact ⟨h3.le, h3.indexed, h3.watchers_eq, h3.nbValues_eq, h3.calls, h3.lost, h3.live⟩
  · exact ⟨h3.le, h3.indexed, h3.watchers_eq, h3.nbValues_eq, h3.calls, h3.lost, h3.live⟩

/-- A registration can only add the stack trace of its own watcher. -/
theorem registerAllocation (h : Sound watchers n w)
    (hslot : HasSlot watchers watcherPos .liveSum) (uo : UnwindOutput) (address : ℕ)
    (value : BitVec 64) (pid : ℤ) :
    Sound watchers n { w with liveAllocation :=
      w.liveAllocation.registerAllocation uo address value watcherPos pid } := by
  refine h.withLive fun pos p hne => ?_
  rw [LiveAllocation.pidStacks_registerAllocation] at hne
  split_ifs at hne with heq
  · rw [heq.1]
    exact hslot
  · exact h.live pos p hne

theorem registerDeallocation (h : Sound watchers n w) (address watcherPos : ℕ) (pid : ℤ) :
    Sound watchers n { w with liveAllocation :=
      w.liveAllocation.registerDeallocation address watcherPos pid } := by
  refine h.withLive fun pos p hne => ?_
  rw [LiveAllocation.pidStacks_registerDeallocation] at hne
  split_ifs at hne with heq
  · rw [heq.1]
    exact h.live watcherPos pid fun hempty =>
      hne (PidStacks.uniqueStacks_registerDeallocation hempty address)
  · exact h.live pos p hne

theorem addLost (h : Sound watchers n w) {watcherPos lost : ℕ}
    (hslot : 0 < lost → HasSlot watchers watcherPos .sum) :
    Sound watchers n (w.addLost watcherPos lost) := by
  refine h.withLost fun pos hpos => ?_
  by_cases heq : pos = watcherPos
  · subst heq
    rw [Function.update_self] at hpos
    rcases Nat.eq_zero_or_pos lost with hzero | hlost
    · refine h.lost pos ?_
      rw [hzero, Nat.add_zero] at hpos
      by_contra hno
      rw [Nat.eq_zero_of_not_pos hno] at hpos
      simp at hpos
    · exact hslot hlost
  · rw [Function.update_of_ne heq] at hpos
    exact h.lost pos hpos

end Sound

/-- The samples and the losses of an event have a slot where they are going to be
aggregated. -/
def HasSlots (w : Worker) : Op → Prop
  | .event pos (.sample s) => s.pid ≠ 0 → s.fatal = false →
    ((w.watcher pos).aggregationMode.sum = true → (w.watcher pos).contributes .sum = true) ∧
    ((w.watcher pos).aggregationMode.liveSum = true → s.addr ≠ 0 →
      (w.watcher pos).contributes .liveSum = true)
  | .event pos (.lost lost) => 0 < lost → (w.watcher pos).contributes .sum = true
  | .event pos (.allocationTrackerState _ lostAllocCount) =>
    0 < lostAllocCount → (w.watcher pos).contributes .sum = true
  | _ => True

instance (w : Worker) (op : Op) : Decidable (HasSlots w op) := by
  unfold HasSlots
  split <;> infer_instance

theorem Sound.hasSlot (h : Sound watchers n w) {pos : AggregationPos}
    (hlt : watcherPos < w.watchers.length)
    (hc : (w.watcher watcherPos).contributes pos = true) : HasSlot watchers watcherPos pos := by
  rw [Worker.watcher, h.watchers_eq] at hc
  exact ⟨h.watchers_eq ▸ hlt, hc⟩

theorem Sound.aggregateSample (aggregateOk : ℕ → Bool) (h : Sound watchers n w) {s : Sample}
    (hlt : watcherPos < w.watchers.length)
    (hsum : (w.watcher watcherPos).aggregationMode.sum = true →
      (w.watcher watcherPos).contributes .sum = true)
    (hlive : (w.watcher watcherPos).aggregationMode.liveSum = true → s.addr ≠ 0 →
      (w.watcher watcherPos).contributes .liveSum = true) :
    Sound watchers n (w.aggregateSample aggregateOk watcherPos s).1 := by
  unfold Worker.aggregateSample
  simp only
  split_ifs with hmode hreg hreg
  · have hslot := h.hasSlot hlt (hlive hreg.1 hreg.2)
    exact (h.registerAllocation hslot s.output s.addr s.period s.pid).pprofAggregate aggregateOk
      (h.hasSlot hlt (hsum hmode)) _ _
  · exact h.pprofAggregate aggregateOk (h.hasSlot hlt (hsum hmode)) _ _
  · exact h.registerAllocation (h.hasSlot hlt (hlive hreg.1 hreg.2)) _ _ _ _
  · exact h

theorem Sound.step (h : Sound watchers n w) (op : Op) (hop : w.HasSlots op) {w' : Worker}
    (hs : w.step aggregateOk op = some w') : Sound watchers n w' := by
  cases op with
  | cycle input =>
    cases hs
    exact h.cycle aggregateOk input
  | event watcherPos event =>
    rw [Worker.step] at hs
    split_ifs at hs with hlt
    cases hs
    cases event with
    | sample s =>
      rw [processEvent]
      split_ifs with hpid
      · unfold ddprofPrSample
        by_cases hfatal : s.fatal = true
        · simp only [hfatal, if_true, Bool.not_true, Bool.false_eq_true, if_false]
          split_ifs
          · exact h.workerPidFree aggregateOk s.pid
          · exact h
        · obtain ⟨hsum, hlive⟩ := hop hpid (by simpa using hfatal)
          have h' := h.aggregateSample aggregateOk hlt hsum hlive
          simp only [hfatal, Bool.false_eq_true, if_false]
          split_ifs
          · exact h'
          · exact h'.workerPidFree aggregateOk s.pid
          · exact h'
      · exact h
    | comm pid exec =>
      rw [processEvent]
      split_ifs
      · exact h.workerPidFree aggregateOk pid
      · exact h
    | fork pid ppid =>
      rw [processEvent]
      split_ifs
      · exact h.workerPidFree aggregateOk pid
      · exact h
    | lost lost => exact h.addLost fun hlost => h.hasSlot hlt (hop hlost)
    | deallocation ptr pid => exact h.registerDeallocation ptr watcherPos pid
    | clearLiveAllocation pid =>
      have h' := h.aggregateLiveAllocationsForPid aggregateOk pid
      rw [processEvent]
      simp only
      split_ifs
      · refine h'.withLive fun pos p hne => ?_
        rw [LiveAllocation.pidStacks_clearPidForWatcher] at hne
        split_ifs at hne
        · exact absurd rfl hne
        · exact h'.live pos p hne
      · exact h'
    | allocationTrackerState pid lostAllocCount =>
      exact h.addLost fun hlost => h.hasSlot hlt (hop hlost)
    | mmap => exact h
    | exit => exact h
    | other => exact h

/-- A worker that comes up is sound: nothing is lost or live, and no call is made. -/
theorem init_sound {profileNewOk : Bool × Bool} {w : Worker}
    (h : Worker.init profileNewOk watchers = .ok w) : ∃ n, Sound w.watchers n w := by
  obtain ⟨⟨n, watchers'⟩, h1, h⟩ := Run.exists_of_bind_eq_ok h
  obtain ⟨⟨n', watchers''⟩, h2, h⟩ := Run.exists_of_bind_eq_ok h
  cases h
  obtain rfl := pprofCreateProfile_again h1 h2
  obtain ⟨hle, hindexed, _⟩ := pprofCreateProfile_spec h2
  refine ⟨n', hle, hindexed, rfl, fun i => by simp, by simp, ?_, ?_⟩
  · intro pos hpos
    exact absurd hpos (lt_irrefl 0)
  · intro pos pid hne
    exact absurd rfl hne

/-- In every run in which samples and losses only come from watchers that have the
slot they are aggregated to, every call of `pprof_aggregate` is in bounds. -/
theorem calls_inBounds {profileNewOk : Bool × Bool} {w₀ w : Worker} {ops : List Op}
    (hinit : Worker.init profileNewOk watchers = .ok w₀)
    (hslots : Run.Along (Worker.step aggregateOk) HasSlots w₀ ops)
    (hrun : Run.steps (Worker.step aggregateOk) w₀ ops = some w) :
    ∀ c ∈ w.calls, c.InBounds := by
  obtain ⟨n, h₀⟩ := init_sound hinit
  have h : Sound w₀.watchers n w :=
    Run.steps_invariant (fun _ op _ h hop hs => h.step op hop hs) h₀ hslots hrun
  exact h.calls

/-- The worker of a single allocation watcher in both modes, with its four slots. -/
def allocWorker : Worker :=
  { watchers := [{ ewatcher .sALLOC with
      aggregationMode := ⟨true, true⟩, pprofIndices := ⟨⟨0, 1⟩, ⟨2, 3⟩⟩ }]
    nbValues := fun i => if i then 4 else 4 }

/-- A sample, its free and a loss, over two cycles. -/
def allocOps : List Op :=
  let output : UnwindOutput := ⟨[⟨1, 1, 1, 0, 0⟩], [], [], [], 4, 4⟩
  [.event 0 (.sample ⟨4, 16, 8, 8, 0, output, false, false⟩), .event 0 (.lost 2),
    .cycle ⟨[], output, true, true⟩, .event 0 (.deallocation 16 4),
    .cycle ⟨[4], output, true, true⟩]

theorem calls_inBounds_alloc :
    Worker.init (true, true) [{ ewatcher .sALLOC with aggregationMode := ⟨true, true⟩ }] =
        .ok allocWorker ∧
      (Run.steps (Worker.step fun _ => true) allocWorker allocOps).isSome = true ∧
      ∀ w, Run.steps (Worker.step fun _ => true) allocWorker allocOps = some w →
        ∀ c ∈ w.calls, c.InBounds :=
  ⟨rfl, rfl, fun _ hw => @calls_inBounds _
    [{ ewatcher .sALLOC with aggregationMode := ⟨true, true⟩ }] (true, true) _ _ _ rfl
    (by decide) hw⟩

def presetInput (preset : List Char) : WatcherInput :=
  { events := [], preset := preset, pidOrGlobalMode := false, defaultStackSampleSize := 32000 }

/-- With the preset for allocations, the dummy watcher that is added to grab mmap
events comes first. One lost record of its ring buffer makes the next cycle write to
slot `-1`. -/
theorem lost_on_dummy_watcher_out_of_bounds :
    let output : UnwindOutput := ⟨[⟨0, 0, 0, 1, 0⟩], [], [], [], 0, 0⟩
    ∃ watchers w₀ w,
      contextAddWatchers (fun _ _ => -1) (presetInput "alloc_only".toList) = .ok watchers ∧
      Worker.init (true, true) watchers = .ok w₀ ∧
      Run.steps (Worker.step fun _ => true) w₀
        [.event 0 (.lost 1), .cycle { unvisitedPids := [], lostOutput := output }] = some w ∧
      ∃ c ∈ w.calls, c.watcherPos = 0 ∧ c.valuePos = .sum ∧ c.indices.pprofIndex = -1 :=
  ⟨_, _, _, rfl, rfl, rfl, _, List.mem_cons_self, rfl, rfl, rfl⟩

end Worker

end Ddprof
