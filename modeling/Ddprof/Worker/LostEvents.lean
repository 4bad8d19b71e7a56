import Ddprof.Worker.Basic

/-!
What a lost event stands for.

The cadence of a watcher is a frequency or a period. A negative period asks for deterministic
sampling: the library that tracks allocations takes the sign off, at the start of profiling, and
samples every `|period|` bytes. The kernel takes a frequency, and the profiler counts a second
divided by the frequency for it.

For lost events the worker computes the period of a watcher once more, from the same fields.
-/

namespace Ddprof

/-! ### The interval between samples -/

/-- `ddprof_start_profiling_internal`: the rate that the profiler sends is the interval of the
allocation tracker, and its sign asks for deterministic sampling. Without a rate allocations are
not tracked. -/
def allocationSampling (allocationProfilingRate : ℤ) : Option (ℕ × Bool) :=
  if allocationProfilingRate = 0 then none
  else some (allocationProfilingRate.natAbs, decide (allocationProfilingRate < 0))

namespace PerfWatcher

/-- The interval between two samples of a watcher. The period of the allocation watcher is sent to
the library as it is, also if it is a frequency. -/
def samplingInterval (watcher : PerfWatcher) : ℕ :=
  if watcher.type = .custom then
    ((allocationSampling watcher.samplePeriod).map Prod.fst).getD 0
  else if watcher.options.isFreq = true ∧ 0 < watcher.samplePeriod then
    1000000000 / watcher.samplePeriod.toNat
  else watcher.samplePeriod.natAbs

theorem samplingInterval_custom {watcher : PerfWatcher} (h : watcher.type = .custom) :
    watcher.samplingInterval = watcher.samplePeriod.natAbs := by
  rw [samplingInterval, if_pos h, allocationSampling]
  split_ifs with hzero
  · rw [hzero]
    rfl
  · rfl

/-- The cadences for which the worker computes the interval that is used: a frequency that the
kernel gets, or a positive period. -/
def CadenceUnderstood (watcher : PerfWatcher) : Prop :=
  if watcher.options.isFreq then
    watcher.type ≠ .custom ∧ 0 < watcher.samplePeriod ∧ watcher.samplePeriod ≤ 1000000000
  else 0 < watcher.samplePeriod

instance (watcher : PerfWatcher) : Decidable watcher.CadenceUnderstood := by
  unfold CadenceUnderstood
  infer_instance

/-! ### The period that the worker computes -/

variable {watcher : PerfWatcher}

theorem toInt_lostPeriod (h : watcher.samplePeriod.natAbs < 2 ^ 63) :
    (Worker.lostPeriod watcher).toInt =
      if watcher.options.isFreq then
        if 0 < watcher.samplePeriod then ((1000000000 / watcher.samplePeriod.toNat : ℕ) : ℤ) else 0
      else watcher.samplePeriod := by
  unfold Worker.lostPeriod
  split_ifs with hfreq hpos
  · have hunsigned : (BitVec.ofInt 64 watcher.samplePeriod).toNat =
        watcher.samplePeriod.toNat := by
      rw [BitVec.toNat_ofInt, Int.emod_eq_of_lt hpos.le (by omega)]
    have hle := Nat.div_le_self 1000000000 watcher.samplePeriod.toNat
    rw [BitVec.toInt_eq_toNat_of_lt] <;>
      rw [BitVec.toNat_udiv, hunsigned, BitVec.toNat_ofNat, Nat.mod_eq_of_lt (by decide)]
    omega
  · -- a negative number is a frequency above any that there is
    have hunsigned : (BitVec.ofInt 64 watcher.samplePeriod).toNat = 0 ∨
        1000000000 < (BitVec.ofInt 64 watcher.samplePeriod).toNat := by
      rw [BitVec.toNat_ofInt]
      omega
    have hzero : BitVec.ofNat 64 1000000000 / BitVec.ofInt 64 watcher.samplePeriod = 0 := by
      apply BitVec.eq_of_toNat_eq
      rw [BitVec.toNat_udiv, BitVec.toNat_ofNat, Nat.mod_eq_of_lt (by decide)]
      rcases hunsigned with hnone | hlarge
      · rw [hnone]
        rfl
      · exact Nat.div_eq_of_lt hlarge
    simp only [hzero]
    rfl
  · rw [BitVec.toInt_ofInt]
    apply Int.bmod_eq_of_le <;> omega

theorem samplingInterval_lt (h : watcher.samplePeriod.natAbs < 2 ^ 63) :
    watcher.samplingInterval < 2 ^ 63 := by
  by_cases hcustom : watcher.type = .custom
  · rw [samplingInterval_custom hcustom]
    exact h
  · rw [samplingInterval, if_neg hcustom]
    split_ifs
    · exact (Nat.div_le_self _ _).trans_lt (by decide)
    · exact h

/-- No frequency is its own period in nanoseconds. -/
theorem div_ne_self {f : ℕ} (hf : 0 < f) : 1000000000 / f ≠ f := by
  intro h
  have hlow := Nat.div_mul_le_self 1000000000 f
  have hhigh := Nat.lt_div_mul_add (a := 1000000000) hf
  rw [h] at hlow hhigh
  rcases le_or_gt f 31622 with hsmall | hlarge
  · nlinarith
  · nlinarith

/-- The worker computes the interval exactly for the cadences that it understands. -/
theorem lostPeriod_eq_iff (h : watcher.samplePeriod.natAbs < 2 ^ 63) :
    (0 < watcher.samplingInterval ∧
        (Worker.lostPeriod watcher).toInt = watcher.samplingInterval) ↔
      watcher.CadenceUnderstood := by
  rw [toInt_lostPeriod h]
  unfold CadenceUnderstood
  by_cases hcustom : watcher.type = .custom
  · rw [samplingInterval_custom hcustom]
    split_ifs with hfreq hpos
    · refine iff_of_false (fun hboth => ?_) (fun hunder => hunder.1 hcustom)
      have hne := div_ne_self (f := watcher.samplePeriod.toNat) (by omega)
      omega
    · exact iff_of_false (by omega) (fun hunder => hunder.1 hcustom)
    · omega
  · rw [samplingInterval, if_neg hcustom]
    by_cases hfreq : watcher.options.isFreq = true
    · simp only [hfreq, if_true, true_and]
      split_ifs with hpos
      · rw [and_iff_left rfl, Nat.div_pos_iff]
        refine ⟨fun hle => ⟨hcustom, hpos, by omega⟩, fun hunder => ⟨by omega, by omega⟩⟩
      · exact iff_of_false (by omega) (fun hunder => hpos hunder.2.1)
    · simp only [hfreq, Bool.false_eq_true, if_false, false_and]
      omega

end PerfWatcher

/-! ### What is reported -/

namespace Worker

variable {aggregateOk : ℕ → Bool} {output : UnwindOutput} {w : Worker}

/-- The calls of `pprof_aggregate` that `report_lost_events` makes. -/
def lostCalls (aggregateOk : ℕ → Bool) (output : UnwindOutput) (w : Worker) :
    List AggregateCall :=
  (w.reportLostEvents aggregateOk output).1.calls.drop w.calls.length

def lostValue (w : Worker) (watcherPos : ℕ) : BitVec 64 :=
  lostPeriod (w.watcher watcherPos) * BitVec.ofNat 64 (w.lostEventsPerWatcher watcherPos)

def lostCall (output : UnwindOutput) (w : Worker) (watcherPos : ℕ) : AggregateCall where
  pprof := w.iCurrentPprof
  watcherPos := watcherPos
  valuePos := .sum
  indices := (w.watcher watcherPos).pprofIndices.get .sum
  nbValues := w.nbValues w.iCurrentPprof
  output := output
  pack := ⟨w.lostValue watcherPos, w.lostEventsPerWatcher watcherPos, 0⟩

theorem reportLostFrom_cons (pos : ℕ) (rest : List ℕ) (w : Worker) :
    reportLostFrom aggregateOk output (pos :: rest) w =
      let called := { w with calls := w.calls ++ [w.lostCall output pos] }
      if 0 < w.lostEventsPerWatcher pos then
        if aggregateOk w.calls.length then
          reportLostFrom aggregateOk output rest
            { called with
              lostEventsPerWatcher := Function.update w.lostEventsPerWatcher pos 0 }
        else (called, false)
      else reportLostFrom aggregateOk output rest w := rfl

/-- The loop calls `pprof_aggregate` for watchers that have lost events, with the counters that
they had. A counter that it has reset stays so. -/
theorem reportLostFrom_calls (l : List ℕ) (now : Worker) (hwatchers : now.watchers = w.watchers)
    (hlost : ∀ pos, now.lostEventsPerWatcher pos = w.lostEventsPerWatcher pos ∨
      now.lostEventsPerWatcher pos = 0) :
    ∃ calls, (reportLostFrom aggregateOk output l now).1.calls = now.calls ++ calls ∧
      ∀ call ∈ calls, 0 < w.lostEventsPerWatcher call.watcherPos ∧
        call.pack.value = w.lostValue call.watcherPos := by
  induction l generalizing now with
  | nil => exact ⟨[], by simp [reportLostFrom], nofun⟩
  | cons pos rest ih =>
    rw [reportLostFrom_cons]
    by_cases hpos : 0 < now.lostEventsPerWatcher pos
    · have hsame : now.lostEventsPerWatcher pos = w.lostEventsPerWatcher pos :=
        (hlost pos).resolve_right hpos.ne'
      have hcall : 0 < w.lostEventsPerWatcher pos ∧ now.lostValue pos = w.lostValue pos := by
        refine ⟨hsame ▸ hpos, ?_⟩
        rw [lostValue, lostValue, hsame, watcher, hwatchers, watcher]
      have hreset : ∀ pos', Function.update now.lostEventsPerWatcher pos 0 pos' =
          w.lostEventsPerWatcher pos' ∨
            Function.update now.lostEventsPerWatcher pos 0 pos' = 0 := by
        intro pos'
        by_cases heq : pos' = pos
        · exact .inr (by rw [heq, Function.update_self])
        · rw [Function.update_of_ne heq]
          exact hlost pos'
      simp only [if_pos hpos]
      split_ifs
      · obtain ⟨calls, hcalls, hall⟩ := ih
          { now with
            calls := now.calls ++ [now.lostCall output pos]
            lostEventsPerWatcher := Function.update now.lostEventsPerWatcher pos 0 }
          hwatchers hreset
        refine ⟨now.lostCall output pos :: calls, hcalls.trans (List.append_assoc ..), ?_⟩
        exact List.forall_mem_cons.mpr ⟨hcall, hall⟩
      · exact ⟨[now.lostCall output pos], rfl, List.forall_mem_singleton.mpr hcall⟩
    · simp only [if_neg hpos]
      exact ih now hwatchers hlost

theorem mem_lostCalls {call : AggregateCall} (h : call ∈ w.lostCalls aggregateOk output) :
    0 < w.lostEventsPerWatcher call.watcherPos ∧ call.pack.value = w.lostValue call.watcherPos := by
  have hloop : ∃ calls, (w.reportLostEvents aggregateOk output).1.calls = w.calls ++ calls ∧
      ∀ call ∈ calls, 0 < w.lostEventsPerWatcher call.watcherPos ∧
        call.pack.value = w.lostValue call.watcherPos :=
    reportLostFrom_calls (List.range w.watchers.length) w rfl fun _ => .inl rfl
  obtain ⟨calls, hcalls, hall⟩ := hloop
  rw [lostCalls, hcalls, List.drop_left] at h
  exact hall call h

theorem toInt_lostValue {watcher : PerfWatcher} {pos : ℕ} (hwatcher : w.watcher pos = watcher)
    (hperiod : (lostPeriod watcher).toInt = watcher.samplingInterval)
    (hpos : 0 < watcher.samplingInterval)
    (hfits : w.lostEventsPerWatcher pos * watcher.samplingInterval < 2 ^ 63) :
    (w.lostValue pos).toInt = (w.lostEventsPerWatcher pos * watcher.samplingInterval : ℕ) := by
  have hcount : w.lostEventsPerWatcher pos < 2 ^ 63 :=
    (Nat.le_mul_of_pos_right _ hpos).trans_lt hfits
  have hof : (BitVec.ofNat 64 (w.lostEventsPerWatcher pos)).toInt =
      w.lostEventsPerWatcher pos := by
    rw [BitVec.toInt_ofNat']
    apply Int.bmod_eq_of_le <;> omega
  have hproduct : (watcher.samplingInterval : ℤ) * w.lostEventsPerWatcher pos =
      (w.lostEventsPerWatcher pos * watcher.samplingInterval : ℕ) := by
    push_cast
    ring
  rw [lostValue, hwatcher, BitVec.toInt_mul, hperiod, hof, hproduct]
  apply Int.bmod_eq_of_le <;> omega

def oneLost (watcher : PerfWatcher) : Worker :=
  { watchers := [watcher], nbValues := fun _ => 0, lostEventsPerWatcher := fun _ => 1 }

def noFrames : UnwindOutput := ⟨[], [], [], [], 0, 0⟩

theorem lostCalls_oneLost (watcher : PerfWatcher) :
    (oneLost watcher).lostCalls (fun _ => true) noFrames =
      [(oneLost watcher).lostCall noFrames 0] := rfl

theorem value_lostCall_oneLost (watcher : PerfWatcher) :
    ((oneLost watcher).lostCall noFrames 0).pack.value = lostPeriod watcher :=
  BitVec.mul_one (lostPeriod watcher)

/-- What `report_lost_events` aggregates for a watcher that has lost events is their number times
the positive interval between its samples, exactly for the cadences that the worker understands. -/
theorem lostCalls_value_iff (watcher : PerfWatcher)
    (hperiod : watcher.samplePeriod.natAbs < 2 ^ 63) :
    (∀ (aggregateOk : ℕ → Bool) (output : UnwindOutput) (w : Worker) (pos : ℕ),
        w.watchers[pos]? = some watcher →
        w.lostEventsPerWatcher pos * watcher.samplingInterval < 2 ^ 63 →
        ∀ call ∈ w.lostCalls aggregateOk output, call.watcherPos = pos →
          0 < watcher.samplingInterval ∧
            call.pack.value.toInt =
              (w.lostEventsPerWatcher pos * watcher.samplingInterval : ℕ)) ↔
      watcher.CadenceUnderstood := by
  rw [← PerfWatcher.lostPeriod_eq_iff hperiod]
  constructor
  · intro hall
    have hmem : (oneLost watcher).lostCall noFrames 0 ∈
        (oneLost watcher).lostCalls (fun _ => true) noFrames := by
      rw [lostCalls_oneLost]
      exact List.mem_singleton_self _
    have hfits : 1 * watcher.samplingInterval < 2 ^ 63 := by
      rw [one_mul]
      exact PerfWatcher.samplingInterval_lt hperiod
    obtain ⟨hpos, hvalue⟩ := hall _ _ (oneLost watcher) 0 rfl hfits _ hmem rfl
    rw [value_lostCall_oneLost] at hvalue
    refine ⟨hpos, hvalue.trans ?_⟩
    exact congrArg Nat.cast (one_mul watcher.samplingInterval)
  · rintro ⟨hpos, heq⟩ aggregateOk output w pos hwatcher hfits call hcall rfl
    have hget : w.watcher call.watcherPos = watcher := by
      rw [Worker.watcher, List.getD_eq_getElem?_getD, hwatcher, Option.getD_some]
    rw [(mem_lostCalls hcall).2]
    exact ⟨hpos, toInt_lostValue hget heq hpos hfits⟩

/-- The watcher of the event string `sALLOC period=-1000`. -/
def deterministicAllocations : PerfWatcher :=
  (watcherFromConfig (fun _ _ => -1)
    { eventname := "sALLOC".toList, cadType := .period, cadence := -1000 }).getD default

/-- The default watcher for the time on the processor, with its 99 samples a second. -/
theorem lostCalls_value_default :
    (0 : ℕ) < (ewatcher .sCPU).samplingInterval ∧
      ∀ call ∈ (oneLost (ewatcher .sCPU)).lostCalls (fun _ => true) noFrames,
        call.watcherPos = 0 → call.pack.value.toInt = 10101010 := by
  have hvalue := (lostCalls_value_iff (ewatcher .sCPU) (by decide)).mpr (by decide)
  refine ⟨by decide, fun call hcall hpos => ?_⟩
  exact (hvalue _ _ (oneLost (ewatcher .sCPU)) 0 rfl (by decide) call hcall hpos).2

/-- With deterministic sampling every thousand bytes, a lost allocation is reported with a
negative value. -/
theorem lostCalls_value_negative :
    let w := oneLost deterministicAllocations
    deterministicAllocations.samplingInterval = 1000 ∧
      (w.lostCalls (fun _ => true) noFrames).map (fun call => call.pack.value.toInt) =
        [-1000] := by
  decide +kernel

end Worker

end Ddprof
