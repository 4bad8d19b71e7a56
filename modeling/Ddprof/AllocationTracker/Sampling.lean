import Ddprof.AllocationTracker.Tracker

/-!
The bytes that the samples of a thread stand for, with deterministic sampling.

A sample is accounted for a whole number of intervals. What a thread has allocated is what its
samples are accounted for, and the part of an interval that has been used up since the last one.
The calls of a thread find the tracker in whatever state the other threads have left it, so each
call comes with a tracker of its own; only the sampler is the same for all of them.
-/

namespace Ddprof

namespace Sampler

variable {s : Sampler} {tl : ThreadState}

/-- `init_tl_state_internal`: the bytes up to the first sample. -/
def initTlState (s : Sampler) (gen : ℕ) : ThreadState :=
  ⟨0 - (s.nextSampleInterval gen).1, (s.nextSampleInterval gen).2⟩

theorem nextSampleInterval_of_deterministic (h : s.deterministic = true) (gen : ℕ) :
    s.nextSampleInterval gen = (s.interval, gen) := by
  rw [nextSampleInterval, if_pos h]
  split_ifs with hone
  · rw [hone]
  · rfl

theorem interval_toNat_pos (s : Sampler) : 0 < s.interval.toNat := by
  have hpos := s.interval_pos
  rw [BitVec.toInt_eq_toNat_cond] at hpos
  split_ifs at hpos <;> omega

theorem interval_toInt (s : Sampler) : s.interval.toInt = s.interval.toNat := by
  have hpos := s.interval_pos
  have hlt := s.interval.isLt
  rw [BitVec.toInt_eq_toNat_cond] at hpos ⊢
  split_ifs at hpos ⊢ <;> omega

theorem initTlState_remaining (h : s.deterministic = true) (gen : ℕ) :
    (s.initTlState gen).remainingBytes.toInt = -s.interval.toNat := by
  rw [initTlState, nextSampleInterval_of_deterministic h, toInt_sub_of_pos (by decide)
    s.interval_pos, s.interval_toInt]
  exact zero_sub _

variable (tl) in
/-- One interval is taken off what is left of the bytes after the whole intervals. -/
theorem account_of_deterministic (h : s.deterministic = true)
    (hroom : tl.remainingBytes.toNat + s.interval.toNat < 2 ^ 64) :
    (s.account tl).1.remainingBytes.toInt =
        (tl.remainingBytes.toNat % s.interval.toNat : ℕ) - s.interval.toNat ∧
      (s.account tl).2.toNat =
        (tl.remainingBytes.toNat / s.interval.toNat + 1) * s.interval.toNat := by
  have hpos := s.interval_toNat_pos
  have hmod : (tl.remainingBytes % s.interval).toInt =
      (tl.remainingBytes.toNat % s.interval.toNat : ℕ) := by
    rw [toInt_umod_interval, BitVec.toNat_umod]
  have hlt := Nat.mod_lt tl.remainingBytes.toNat hpos
  have hsub : (tl.remainingBytes % s.interval - s.interval).toInt =
      (tl.remainingBytes.toNat % s.interval.toNat : ℕ) - s.interval.toNat := by
    rw [toInt_sub_of_pos (by omega) s.interval_pos, hmod, s.interval_toInt]
  have hneg : ¬ 0 ≤ (tl.remainingBytes % s.interval - s.interval).toInt := by omega
  have hbound : (tl.remainingBytes.toNat / s.interval.toNat + 1) * s.interval.toNat < 2 ^ 64 := by
    have hdiv := Nat.div_mul_le_self tl.remainingBytes.toNat s.interval.toNat
    rw [Nat.add_mul, one_mul]
    omega
  have hcount : tl.remainingBytes.toNat / s.interval.toNat + 1 < 2 ^ 64 :=
    (Nat.le_mul_of_pos_right _ hpos).trans_lt hbound
  simp only [account, takeSamples, nextSampleInterval_of_deterministic h, if_neg hneg]
  refine ⟨hsub, ?_⟩
  rw [BitVec.toNat_mul, BitVec.toNat_add, BitVec.toNat_udiv]
  rw [show (1 : BitVec 64).toNat = 1 from rfl, Nat.mod_eq_of_lt hcount, Nat.mod_eq_of_lt hbound]

end Sampler

namespace Tracker

/-- The bytes of an allocation are added to those of the thread. -/
def addBytes (tl : ThreadState) (size : ℕ) : ThreadState :=
  { tl with remainingBytes := tl.remainingBytes + BitVec.ofNat 64 size }

/-- The size of the sample that a call of `track_allocation_s` takes, if it takes one. -/
def sampled (t : Tracker) (tl : ThreadState) (size : ℕ) : Option (BitVec 64) :=
  if t.active = true ∧ 0 ≤ (addBytes tl size).remainingBytes.toInt then
    some (t.sampler.account (addBytes tl size)).2
  else none

theorem trackAllocationS_eq (t : Tracker) (tl : ThreadState) (addr size : ℕ) (isLarge : Bool)
    (o : PushOutcome) :
    t.trackAllocationS tl addr size isLarge o =
      if t.active then
        if (addBytes tl size).remainingBytes.toInt < 0 then (t, addBytes tl size)
        else t.trackAllocation (addBytes tl size) addr isLarge o
      else (t, tl) := rfl

def allocationPeriod : LibraryEvent → Option (BitVec 64)
  | .allocation _ period _ => some period
  | .deallocation .. | .trackerState .. => none

/-- The periods of the allocation events that a call has committed. -/
def committedPeriods (t t' : Tracker) : List (BitVec 64) :=
  (t'.events.drop t.events.length).filterMap allocationPeriod

theorem committedPeriods_trackAllocation (t : Tracker) (tl : ThreadState) (addr : ℕ)
    (isLarge : Bool) (o : PushOutcome) :
    t.committedPeriods (t.trackAllocation tl addr isLarge o).1 =
      if o.reserve = .ok then [(t.sampler.account tl).2] else [] := by
  obtain ⟨_, hpushed⟩ := (t.addAddress addr isLarge).1.pushAllocSample_spec
    (t.addAddress addr isLarge).2 (t.sampler.account tl).2 o
  obtain ⟨es', hevents, hes'⟩ := hpushed.events
  have hrest : es'.filterMap allocationPeriod = [] := by
    rw [List.filterMap_eq_nil_iff]
    intro e he
    cases e with
    | allocation a period dynSize => exact absurd he (hes' a period dynSize)
    | deallocation ptr => rfl
    | trackerState => rfl
  rw [committedPeriods, trackAllocation, events_undo, events_freeOnConsecutiveFailures, hevents,
    events_addAddress, List.append_assoc, List.drop_left, List.filterMap_append, hrest,
    List.append_nil]
  split_ifs <;> rfl

/-- A call returns early and takes no sample, or goes on to `track_allocation`. -/
theorem trackAllocationS_cases (t : Tracker) (tl : ThreadState) (addr size : ℕ) (isLarge : Bool)
    (o : PushOutcome) :
    t.sampled tl size = none ∧ (t.trackAllocationS tl addr size isLarge o).1 = t ∨
      t.sampled tl size = some (t.sampler.account (addBytes tl size)).2 ∧
        t.trackAllocationS tl addr size isLarge o =
          t.trackAllocation (addBytes tl size) addr isLarge o := by
  rw [trackAllocationS_eq, sampled]
  cases t.active with
  | false => simp
  | true =>
    by_cases hneg : (addBytes tl size).remainingBytes.toInt < 0
    · simp [hneg]
    · simp [hneg, not_lt.mp hneg]

theorem committedPeriods_of_reserved (t : Tracker) (tl : ThreadState) (addr size : ℕ)
    (isLarge : Bool) {o : PushOutcome} (hok : o.reserve = .ok) :
    t.committedPeriods (t.trackAllocationS tl addr size isLarge o).1 =
      (t.sampled tl size).toList := by
  obtain ⟨hnone, hsame⟩ | ⟨hsome, hgoes⟩ := t.trackAllocationS_cases tl addr size isLarge o
  · simp [hnone, hsame, committedPeriods]
  · rw [hsome, hgoes, committedPeriods_trackAllocation, if_pos hok]
    rfl

/-- The sample that a call takes is in the event that the call commits, if there is room. -/
theorem committedPeriods_trackAllocationS (t : Tracker) (tl : ThreadState) (addr size : ℕ)
    (isLarge : Bool) (o : PushOutcome) :
    t.committedPeriods (t.trackAllocationS tl addr size isLarge o).1 =
      if o.reserve = .ok then (t.sampled tl size).toList else [] := by
  split_ifs with hok
  · exact t.committedPeriods_of_reserved tl addr size isLarge hok
  · obtain ⟨-, hsame⟩ | ⟨-, hgoes⟩ := t.trackAllocationS_cases tl addr size isLarge o
    · simp [hsame, committedPeriods]
    · rw [hgoes, committedPeriods_trackAllocation, if_neg hok]

/-! ### The calls of a thread -/

/-- The arguments of `track_allocation_s`, the tracker that it finds, and what the ring buffer
answers. -/
structure AllocationCall where
  tracker : Tracker
  addr : ℕ
  size : ℕ
  isLarge : Bool := false
  outcome : PushOutcome := {}

structure Sampled where
  tl : ThreadState
  periods : List (BitVec 64) := []

def callStep (h : Sampled) (call : AllocationCall) : Sampled where
  tl := (call.tracker.trackAllocationS h.tl call.addr call.size call.isLarge call.outcome).2
  periods := h.periods ++ (call.tracker.sampled h.tl call.size).toList

/-- As `callStep`, but with the samples read off the events that the call has committed. -/
def commitStep (h : Sampled) (call : AllocationCall) : Sampled where
  tl := (call.tracker.trackAllocationS h.tl call.addr call.size call.isLarge call.outcome).2
  periods := h.periods ++ call.tracker.committedPeriods
    (call.tracker.trackAllocationS h.tl call.addr call.size call.isLarge call.outcome).1

theorem foldl_commitStep {calls : List AllocationCall}
    (hok : ∀ call ∈ calls, call.outcome.reserve = .ok) (h : Sampled) :
    calls.foldl commitStep h = calls.foldl callStep h := by
  induction calls generalizing h with
  | nil => rfl
  | cons call rest ih =>
    have hstep : commitStep h call = callStep h call := by
      rw [commitStep, committedPeriods_of_reserved _ _ _ _ _ (hok call List.mem_cons_self)]
      rfl
    rw [List.foldl_cons, List.foldl_cons, hstep,
      ih fun c hc => hok c (List.mem_cons_of_mem call hc)]

/-- The bytes of the calls. Without a tracker a call returns at once. -/
def allocatedBytes (calls : List AllocationCall) : ℕ :=
  ((calls.filter fun call => call.tracker.active).map AllocationCall.size).sum

/-- What the samples stand for, together with what is left of an interval. -/
structure Conserved (s : Sampler) (h : Sampled) (total : ℕ) : Prop where
  le : -(s.interval.toNat : ℤ) ≤ h.tl.remainingBytes.toInt
  neg : h.tl.remainingBytes.toInt ≤ -1
  sum : ((h.periods.map BitVec.toNat).sum : ℤ) +
    (h.tl.remainingBytes.toInt - -(s.interval.toNat : ℤ)) = total
  multiple : ∀ period ∈ h.periods, ∃ k, 0 < k ∧ period.toNat = k * s.interval.toNat

variable {s : Sampler} {h : Sampled} {total : ℕ}

theorem conserved_init (hs : s.deterministic = true) (gen : ℕ) :
    Conserved s { tl := s.initTlState gen } 0 := by
  have hinit := Sampler.initTlState_remaining hs gen
  have hpos := s.interval_toNat_pos
  refine ⟨hinit.ge, ?_, ?_, nofun⟩
  · rw [hinit]
    omega
  · simp [hinit]

theorem toInt_addBytes (hi : s.interval.toNat < 2 ^ 62) (hc : Conserved s h total) {size : ℕ}
    (hsize : size < 2 ^ 62) :
    (addBytes h.tl size).remainingBytes.toInt = h.tl.remainingBytes.toInt + size := by
  have hle := hc.le
  have hneg := hc.neg
  have hof : (BitVec.ofNat 64 size).toInt = size := by
    rw [BitVec.toInt_ofNat']
    apply Int.bmod_eq_of_le <;> omega
  rw [addBytes, BitVec.toInt_add, hof]
  apply Int.bmod_eq_of_le <;> omega

/-- What a call that finds the tracker leaves: the bytes are below zero, or a sample brings them
there. -/
theorem Conserved.call (hs : s.deterministic = true) (hi : s.interval.toNat < 2 ^ 62)
    (hc : Conserved s h total) {call : AllocationCall} (hsampler : call.tracker.sampler = s)
    (hactive : call.tracker.active = true) (hsize : call.size < 2 ^ 62) :
    Conserved s (callStep h call) (total + call.size) := by
  have hadd := toInt_addBytes hi hc hsize
  obtain ⟨hle, hneg, hsum, hmultiple⟩ := hc
  by_cases hbelow : (addBytes h.tl call.size).remainingBytes.toInt < 0
  · have hstep : callStep h call = ⟨addBytes h.tl call.size, h.periods⟩ := by
      simp [callStep, trackAllocationS_eq, sampled, hactive, hbelow]
    rw [hstep]
    refine ⟨?_, ?_, ?_, hmultiple⟩
    · simp only [hadd]
      omega
    · exact Int.le_sub_one_of_lt hbelow
    · simp only [hadd]
      omega
  · have hreached := not_lt.mp hbelow
    have hstep : callStep h call = ⟨(s.account (addBytes h.tl call.size)).1,
        h.periods ++ [(s.account (addBytes h.tl call.size)).2]⟩ := by
      simp [callStep, trackAllocationS_eq, trackAllocation, sampled, hactive, hbelow, hreached,
        hsampler]
    have hnat : (addBytes h.tl call.size).remainingBytes.toInt =
        (addBytes h.tl call.size).remainingBytes.toNat := by
      rw [BitVec.toInt_eq_toNat_cond] at hreached ⊢
      split_ifs at hreached ⊢ <;> omega
    generalize addBytes h.tl call.size = tl at *
    obtain ⟨hrest, hperiod⟩ := Sampler.account_of_deterministic tl hs (by omega)
    have hlt := Nat.mod_lt tl.remainingBytes.toNat s.interval_toNat_pos
    have hdiv := Nat.div_add_mod' tl.remainingBytes.toNat s.interval.toNat
    rw [hstep]
    refine ⟨?_, ?_, ?_, ?_⟩
    · simp only [hrest]
      omega
    · simp only [hrest]
      omega
    · simp only [hrest, List.map_append, List.map_cons, List.map_nil, List.sum_append,
        List.sum_cons, List.sum_nil, hperiod, Nat.add_mul, one_mul]
      generalize tl.remainingBytes.toNat / s.interval.toNat * s.interval.toNat = whole at *
      generalize tl.remainingBytes.toNat % s.interval.toNat = rest at *
      omega
    · intro period hmem
      rcases List.mem_append.mp hmem with hmem | hmem
      · exact hmultiple period hmem
      · rw [List.mem_singleton.mp hmem]
        exact ⟨_, Nat.succ_pos _, hperiod⟩

theorem allocatedBytes_concat (calls : List AllocationCall) (call : AllocationCall) :
    allocatedBytes (calls ++ [call]) =
      allocatedBytes calls + if call.tracker.active then call.size else 0 := by
  unfold allocatedBytes
  rw [List.filter_append, List.map_append, List.sum_append, List.filter_singleton]
  split_ifs <;> simp_all

/-- With deterministic sampling, after every call of `track_allocation_s` a thread has between one
byte and a whole interval to go up to the next sample, and the samples that it has taken and the
part of the interval that is used up stand for the bytes that it has allocated. Every sample stands
for a whole number of intervals. The samples are those of the events that the calls commit, if
there is room for all of them. -/
theorem trackAllocationS_conserves (s : Sampler) (hs : s.deterministic = true)
    (hi : s.interval.toNat < 2 ^ 62) (gen : ℕ) (calls : List AllocationCall)
    (hsampler : ∀ call ∈ calls, call.tracker.sampler = s)
    (htotal : allocatedBytes calls < 2 ^ 62) :
    (s.initTlState gen).remainingBytes.toInt = -s.interval.toNat ∧
      Conserved s (calls.foldl callStep { tl := s.initTlState gen }) (allocatedBytes calls) ∧
      ((∀ call ∈ calls, call.outcome.reserve = .ok) →
        calls.foldl commitStep { tl := s.initTlState gen } =
          calls.foldl callStep { tl := s.initTlState gen }) := by
  refine ⟨Sampler.initTlState_remaining hs gen, ?_, fun hok => foldl_commitStep hok _⟩
  induction calls using List.reverseRecOn with
  | nil => exact conserved_init hs gen
  | append_singleton calls call ih =>
    rw [allocatedBytes_concat] at htotal ⊢
    have hbefore := ih (fun c hc => hsampler c (List.mem_append_left _ hc)) (by omega)
    rw [List.foldl_concat]
    cases hactive : call.tracker.active with
    | false =>
      have hstep : ∀ h, callStep h call = h := fun h => by
        simp [callStep, trackAllocationS_eq, sampled, hactive]
      rw [hstep]
      simpa using hbefore
    | true =>
      rw [hactive] at htotal
      simp only [if_true] at htotal ⊢
      exact hbefore.call hs hi (hsampler call (by simp)) hactive (by omega)

def sampleHundreds : Sampler where
  interval := 100
  deterministic := true
  draw _ := 100
  interval_pos := by decide
  draw_pos _ := by decide

/-- An allocation that ends below the first sample, and one that goes past two. -/
theorem trackAllocationS_conserves_hundreds :
    let calls : List AllocationCall :=
      [⟨init sampleHundreds true, 0x10000, 30, false, {}⟩,
        ⟨init sampleHundreds true, 0x20000, 250, false, {}⟩]
    let h := calls.foldl callStep { tl := sampleHundreds.initTlState 0 }
    h.periods = [200] ∧ allocatedBytes calls = 280 ∧
      Conserved sampleHundreds h (allocatedBytes calls) ∧
      calls.foldl commitStep { tl := sampleHundreds.initTlState 0 } = h := by
  intro calls h
  have hcalls : ∀ call ∈ calls, call.tracker.sampler = sampleHundreds ∧
      call.outcome.reserve = .ok := by
    intro call hcall
    simp only [calls, List.mem_cons, List.not_mem_nil, or_false] at hcall
    rcases hcall with rfl | rfl <;> exact ⟨rfl, rfl⟩
  obtain ⟨-, hconserved, hcommitted⟩ := trackAllocationS_conserves sampleHundreds rfl (by decide) 0
    calls (fun call hcall => (hcalls call hcall).1) (by decide +kernel)
  exact ⟨by decide +kernel, by decide +kernel, hconserved,
    hcommitted fun call hcall => (hcalls call hcall).2⟩

end Tracker

end Ddprof
