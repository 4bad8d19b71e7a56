import Ddprof.AddressBitset.Sequential
import Ddprof.AllocationTracker.Hooks
import Ddprof.Dso.Basic

/-!
The functions of the allocation tracker, each run from its beginning to its end
(`allocation_tracker.hpp`, `allocation_tracker.cc`).

A thread counts the bytes it allocates up to the next sample. A sampled allocation
is put into the set of tracked addresses before its event is pushed, and is taken out
again when the push has not succeeded. What the ring buffer answers to a push is a
parameter: whether there is room for the event and the lock is obtained, whether the
reader has to be notified, and whether the notification succeeds.
-/

namespace Ddprof

/-! ### Sampling -/

structure Sampler where
  -- `_sampling_interval`
  interval : BitVec 64
  deterministic : Bool
  /-- What the exponential distribution gives in each state of a thread's generator, cut to at
  least 8 and at most 20 intervals. -/
  draw : ℕ → BitVec 64
  interval_pos : 0 < interval.toInt
  draw_pos : ∀ gen, 0 < (draw gen).toInt

structure ThreadState where
  -- An `int64_t`, negative between two calls.
  remainingBytes : BitVec 64
  gen : ℕ := 0
  deriving DecidableEq, Repr

namespace Sampler

variable (s : Sampler)

def nextSampleInterval (gen : ℕ) : BitVec 64 × ℕ :=
  if s.interval = 1 then (1, gen)
  else if s.deterministic then (s.interval, gen)
  else (s.draw gen, gen + 1)

/-- The loop of `track_allocation`: take samples off until the remaining bytes are negative. -/
def takeSamples : ℕ → BitVec 64 → ℕ → BitVec 64 → ThreadState × BitVec 64
  | 0, remaining, gen, nsamples => (⟨remaining, gen⟩, nsamples)
  | fuel + 1, remaining, gen, nsamples =>
    let (interval, gen) := s.nextSampleInterval gen
    let remaining := remaining - interval
    if 0 ≤ remaining.toInt then takeSamples fuel remaining gen (nsamples + 1)
    else (⟨remaining, gen⟩, nsamples + 1)

/-- The size that a sampled allocation is accounted for. The loop ends because every
interval is positive. -/
def account (tl : ThreadState) : ThreadState × BitVec 64 :=
  let nsamples := tl.remainingBytes / s.interval
  let remaining := tl.remainingBytes % s.interval
  let taken := s.takeSamples (remaining.toNat + 1) remaining tl.gen nsamples
  (taken.1, taken.2 * s.interval)

variable {s}

theorem nextSampleInterval_pos (gen : ℕ) : 0 < (s.nextSampleInterval gen).1.toInt := by
  rw [nextSampleInterval]
  split_ifs
  · change 0 < (1 : BitVec 64).toInt
    decide
  · exact s.interval_pos
  · exact s.draw_pos gen

theorem toInt_sub_of_pos {r v : BitVec 64} (hr : 0 ≤ r.toInt) (hv : 0 < v.toInt) :
    (r - v).toInt = r.toInt - v.toInt := by
  have hr' := r.toInt_lt
  have hv' := v.toInt_lt
  rw [BitVec.toInt_sub]
  apply Int.bmod_eq_of_le <;> omega

theorem takeSamples_neg (fuel : ℕ) (remaining : BitVec 64) (gen : ℕ) (nsamples : BitVec 64)
    (hr : 0 ≤ remaining.toInt) (hfuel : remaining.toInt < fuel) :
    (s.takeSamples fuel remaining gen nsamples).1.remainingBytes.toInt < 0 := by
  induction fuel generalizing remaining gen nsamples with
  | zero => omega
  | succ fuel ih =>
    have hpos := nextSampleInterval_pos (s := s) gen
    have hsub := toInt_sub_of_pos hr hpos
    rw [takeSamples]
    simp only
    split_ifs with hge
    · exact ih _ _ _ hge (by omega)
    · exact not_le.mp hge

theorem toInt_umod_interval (r : BitVec 64) : (r % s.interval).toInt = (r % s.interval).toNat := by
  have hpos := s.interval_pos
  have hlt := s.interval.isLt
  rw [BitVec.toInt_eq_toNat_cond] at hpos
  have hmod : (r % s.interval).toNat < s.interval.toNat := by
    rw [BitVec.toNat_umod]
    exact Nat.mod_lt _ (by split_ifs at hpos <;> omega)
  rw [BitVec.toInt_eq_toNat_cond, if_pos]
  split_ifs at hpos <;> omega

theorem account_neg (tl : ThreadState) : (s.account tl).1.remainingBytes.toInt < 0 := by
  have hint := toInt_umod_interval (s := s) tl.remainingBytes
  rw [account]
  apply takeSamples_neg
  · omega
  · omega

end Sampler

/-! ### Pushing events -/

inductive LibraryEvent
  | allocation (addr : ℕ) (period : BitVec 64) (dynSize : ℕ)
  | deallocation (ptr : ℕ)
  | trackerState (trackedAddressCount : ℤ) (addressConflictCount : BitVec 32) (activeShards : ℕ)
      (lostAllocCount lostDeallocCount : BitVec 32)
  deriving DecidableEq, Repr

structure RingOutcome where
  reserve : Reserve := .ok
  -- `commit` returns true.
  notify : Bool := false
  -- The write to the eventfd is complete.
  writeOk : Bool := true
  deriving DecidableEq, Repr

structure PushOutcome extends RingOutcome where
  -- What `save_context` returns.
  dynSize : ℕ := 0
  -- The timer is due, and this thread pushes the state of the tracker.
  timer : Option RingOutcome := none
  deriving DecidableEq, Repr

def AddressBitset.activeShards (b : AddressBitset) : ℕ :=
  (AddressBitset.shardList.filter fun shard => (b.tables shard).isSome).length

structure Tracker where
  sampler : Sampler
  bitset : AddressBitset
  -- `_instance` is set.
  active : Bool := true
  trackDeallocations : Bool
  failureCount : BitVec 32 := 0
  lostAllocCount : BitVec 64 := 0
  lostDeallocCount : BitVec 64 := 0
  addressConflictCount : BitVec 32 := 0
  -- The events that have been committed.
  events : List LibraryEvent := []

namespace Tracker

def init (sampler : Sampler) (trackDeallocations : Bool) : Tracker :=
  { sampler := sampler, bitset := .init 0, trackDeallocations := trackDeallocations }

def push (t : Tracker) (e : LibraryEvent) : Tracker := { t with events := t.events ++ [e] }

/-- The counters have 64 bits, and the fields of the event 32. -/
def stateEvent (t : Tracker) : LibraryEvent :=
  .trackerState t.bitset.count t.addressConflictCount t.bitset.activeShards
    (t.lostAllocCount.setWidth 32) (t.lostDeallocCount.setWidth 32)

def pushAllocationTrackerState (t : Tracker) (o : RingOutcome) : Tracker :=
  match o.reserve with
  | .ok =>
    { t.push t.stateEvent with
      addressConflictCount := 0, lostAllocCount := 0, lostDeallocCount := 0 }
  | .full | .timeout => t

def checkTimer (t : Tracker) (timer : Option RingOutcome) : Tracker :=
  timer.elim t t.pushAllocationTrackerState

/-- The end of a push: the event is committed, and the reader is notified if need be. -/
def commit (t : Tracker) (e : LibraryEvent) (o : PushOutcome) : Tracker × Severity :=
  if o.notify && !o.writeOk then (t.push e, .error) else ((t.push e).checkTimer o.timer, .ok)

def pushAllocSample (t : Tracker) (addr : ℕ) (allocatedSize : BitVec 64) (o : PushOutcome) :
    Tracker × Severity :=
  match o.reserve with
  | .ok => t.commit (.allocation addr allocatedSize o.dynSize) o
  | .full => ({ t with lostAllocCount := t.lostAllocCount + 1 }, .warn)
  | .timeout => ({ t with lostAllocCount := t.lostAllocCount + 1 }, .error)

/-- `o.reserve` is what the first attempt and its retries have led to. -/
def pushDeallocSample (t : Tracker) (addr : ℕ) (o : PushOutcome) : Tracker × Severity :=
  match o.reserve with
  | .ok => t.commit (.deallocation addr) o
  | .full => ({ t with lostDeallocCount := t.lostDeallocCount + 1 }, .warn)
  | .timeout => ({ t with lostDeallocCount := t.lostDeallocCount + 1 }, .error)

/-- The next failure in a row would be one too many. -/
def freesOnFailure (t : Tracker) : Bool := 5 ≤ (t.failureCount + 1).toNat

def freeOnConsecutiveFailures (t : Tracker) (failure : Bool) : Tracker :=
  if failure then
    let t' := { t with failureCount := t.failureCount + 1 }
    if t.freesOnFailure then { t' with trackDeallocations := false, active := false } else t'
  else { t with failureCount := 0 }

/-! ### Tracking -/

/-- The address is put into the set, and the event gets the address or none. -/
def addAddress (t : Tracker) (addr : ℕ) (isLarge : Bool) : Tracker × ℕ :=
  if t.trackDeallocations then
    let added := t.bitset.add addr isLarge
    if added.2 then ({ t with bitset := added.1 }, addr)
    else ({ t with bitset := added.1, addressConflictCount := t.addressConflictCount + 1 }, 0)
  else (t, addr)

/-- The address is taken out of the set if its event has not been pushed. -/
def undo (t : Tracker) (addr : ℕ) (isLarge : Bool) (res : Severity) : Tracker :=
  if res ≠ .ok ∧ t.trackDeallocations ∧ addr ≠ 0 then
    { t with bitset := (t.bitset.remove addr isLarge).1 }
  else t

def trackAllocation (t : Tracker) (tl : ThreadState) (addr : ℕ) (isLarge : Bool)
    (o : PushOutcome) : Tracker × ThreadState :=
  let accounted := t.sampler.account tl
  let added := t.addAddress addr isLarge
  let pushed := added.1.pushAllocSample added.2 accounted.2 o
  ((pushed.1.freeOnConsecutiveFailures (pushed.2 = .error)).undo added.2 isLarge pushed.2,
    accounted.1)

def trackAllocationS (t : Tracker) (tl : ThreadState) (addr size : ℕ) (isLarge : Bool)
    (o : PushOutcome) : Tracker × ThreadState :=
  if t.active then
    let tl := { tl with remainingBytes := tl.remainingBytes + BitVec.ofNat 64 size }
    if tl.remainingBytes.toInt < 0 then (t, tl) else t.trackAllocation tl addr isLarge o
  else (t, tl)

def trackDeallocation (t : Tracker) (addr : ℕ) (isLarge : Bool) (o : PushOutcome) : Tracker :=
  if t.trackDeallocations then
    let removed := t.bitset.remove addr isLarge
    if removed.2 then
      let pushed := { t with bitset := removed.1 }.pushDeallocSample addr o
      pushed.1.freeOnConsecutiveFailures (pushed.2 = .error)
    else { t with bitset := removed.1 }
  else t

def trackDeallocationS (t : Tracker) (addr : ℕ) (isLarge : Bool) (o : PushOutcome) : Tracker :=
  if t.active then t.trackDeallocation addr isLarge o else t

end Tracker

/-! ### The address and its event -/

def PushOutcome.severity (o : PushOutcome) : Severity :=
  match o.reserve with
  | .ok => if o.notify && !o.writeOk then .error else .ok
  | .full => .warn
  | .timeout => .error

namespace Tracker

/-- What a push leaves as it was; the events of the tracker's state come after it. -/
structure Pushed (t t' : Tracker) (es : List LibraryEvent) : Prop where
  sampler : t'.sampler = t.sampler
  bitset : t'.bitset = t.bitset
  active : t'.active = t.active
  trackDeallocations : t'.trackDeallocations = t.trackDeallocations
  failureCount : t'.failureCount = t.failureCount
  events : ∃ es', t'.events = t.events ++ es ++ es' ∧ ∀ a period dynSize,
    LibraryEvent.allocation a period dynSize ∉ es'

theorem pushed_push (t : Tracker) (e : LibraryEvent) : Pushed t (t.push e) [e] :=
  ⟨rfl, rfl, rfl, rfl, rfl, [], (List.append_nil _).symm, fun _ _ _ => List.not_mem_nil⟩

theorem Pushed.checkTimer {t t' : Tracker} {es : List LibraryEvent} (h : Pushed t t' es)
    (timer : Option RingOutcome) : Pushed t (t'.checkTimer timer) es := by
  cases timer with
  | none => exact h
  | some o =>
    change Pushed t (t'.pushAllocationTrackerState o) es
    rw [pushAllocationTrackerState]
    cases o.reserve with
    | ok =>
      obtain ⟨es', hevents, hes'⟩ := h.events
      refine ⟨h.sampler, h.bitset, h.active, h.trackDeallocations, h.failureCount,
        es' ++ [t'.stateEvent], ?_, fun a period dynSize hmem => ?_⟩
      · change t'.events ++ [t'.stateEvent] = _
        rw [hevents, List.append_assoc]
      · rcases List.mem_append.mp hmem with hmem | hmem
        · exact hes' a period dynSize hmem
        · cases List.mem_singleton.mp hmem
    | full => exact h
    | timeout => exact h

theorem commit_spec (t : Tracker) (e : LibraryEvent) (o : PushOutcome) :
    Pushed t (t.commit e o).1 [e] := by
  rw [commit]
  split_ifs
  · exact t.pushed_push e
  · exact (t.pushed_push e).checkTimer o.timer

/-- The event of a push is committed if there is room for it, whatever comes after. -/
theorem pushAllocSample_spec (t : Tracker) (addr : ℕ) (size : BitVec 64) (o : PushOutcome) :
    (t.pushAllocSample addr size o).2 = o.severity ∧
      Pushed t (t.pushAllocSample addr size o).1
        (if o.reserve = .ok then [.allocation addr size o.dynSize] else []) := by
  rw [pushAllocSample, PushOutcome.severity]
  cases o.reserve with
  | ok =>
    refine ⟨?_, t.commit_spec _ o⟩
    simp only [commit]
    split_ifs <;> rfl
  | full =>
    exact ⟨rfl, rfl, rfl, rfl, rfl, rfl, [], by simp, fun _ _ _ => List.not_mem_nil⟩
  | timeout =>
    exact ⟨rfl, rfl, rfl, rfl, rfl, rfl, [], by simp, fun _ _ _ => List.not_mem_nil⟩

/-- Tracking of deallocations ends with the failure that is one too many. -/
theorem trackDeallocations_freeOnConsecutiveFailures (t : Tracker) (failure : Bool) :
    (t.freeOnConsecutiveFailures failure).trackDeallocations =
      (t.trackDeallocations && !(failure && t.freesOnFailure)) := by
  rw [freeOnConsecutiveFailures]
  cases failure with
  | false => simp
  | true => cases hfree : t.freesOnFailure <;> simp

@[simp] theorem bitset_freeOnConsecutiveFailures (t : Tracker) (failure : Bool) :
    (t.freeOnConsecutiveFailures failure).bitset = t.bitset := by
  rw [freeOnConsecutiveFailures]
  split_ifs <;> rfl

@[simp] theorem events_freeOnConsecutiveFailures (t : Tracker) (failure : Bool) :
    (t.freeOnConsecutiveFailures failure).events = t.events := by
  rw [freeOnConsecutiveFailures]
  split_ifs <;> rfl

@[simp] theorem events_undo (t : Tracker) (addr : ℕ) (isLarge : Bool) (res : Severity) :
    (t.undo addr isLarge res).events = t.events := by
  rw [undo]
  split_ifs <;> rfl

@[simp] theorem events_addAddress (t : Tracker) (addr : ℕ) (isLarge : Bool) :
    (t.addAddress addr isLarge).1.events = t.events := by
  simp only [addAddress]
  split_ifs <;> rfl

/-- The call has committed an allocation event with the address. -/
def Committed (t t' : Tracker) (addr : ℕ) : Prop :=
  ∃ period dynSize, LibraryEvent.allocation addr period dynSize ∈ t'.events.drop t.events.length

variable {t : Tracker} {tl : ThreadState} {addr : ℕ} {isLarge : Bool} {o : PushOutcome} {net : ℤ}

theorem addAddress_bitset (htrack : t.trackDeallocations = true) (addr : ℕ) (isLarge : Bool) :
    (t.addAddress addr isLarge).1.bitset = (t.bitset.add addr isLarge).1 := by
  simp only [addAddress, htrack, if_true]
  split_ifs <;> rfl

theorem addAddress_addr (htrack : t.trackDeallocations = true) (addr : ℕ) (isLarge : Bool) :
    (t.addAddress addr isLarge).2 = if (t.bitset.add addr isLarge).2 then addr else 0 := by
  simp only [addAddress, htrack, if_true]
  split_ifs <;> rfl

theorem addAddress_state (t : Tracker) (addr : ℕ) (isLarge : Bool) :
    (t.addAddress addr isLarge).1.trackDeallocations = t.trackDeallocations ∧
      (t.addAddress addr isLarge).1.failureCount = t.failureCount := by
  simp only [addAddress]
  split_ifs <;> exact ⟨rfl, rfl⟩

theorem freesOnFailure_congr {t' : Tracker} (h : t'.failureCount = t.failureCount) :
    t'.freesOnFailure = t.freesOnFailure := by
  rw [freesOnFailure, h, freesOnFailure]

theorem undo_bitset (t : Tracker) (addr : ℕ) (isLarge : Bool) (res : Severity) :
    (t.undo addr isLarge res).bitset =
      if res ≠ .ok ∧ t.trackDeallocations ∧ addr ≠ 0 then (t.bitset.remove addr isLarge).1
      else t.bitset := by
  rw [undo]
  split_ifs <;> rfl

/-- The address is taken out again unless its push has succeeded or was the failure with
which tracking ends. -/
theorem trackAllocation_bitset (htrack : t.trackDeallocations = true) (ha : IsAddress addr) :
    (t.trackAllocation tl addr isLarge o).1.bitset =
      if (t.bitset.add addr isLarge).2 = true ∧ o.severity ≠ .ok ∧
          ¬ (o.severity = .error ∧ t.freesOnFailure = true) then
        ((t.bitset.add addr isLarge).1.remove addr isLarge).1
      else (t.bitset.add addr isLarge).1 := by
  obtain ⟨htrack', hfailures⟩ := t.addAddress_state addr isLarge
  obtain ⟨hsev, hpushed⟩ := (t.addAddress addr isLarge).1.pushAllocSample_spec
    (t.addAddress addr isLarge).2 (t.sampler.account tl).2 o
  have hfree := freesOnFailure_congr (hpushed.failureCount.trans hfailures)
  rw [trackAllocation, undo_bitset, bitset_freeOnConsecutiveFailures,
    trackDeallocations_freeOnConsecutiveFailures, hpushed.bitset, hpushed.trackDeallocations,
    htrack', htrack, hfree, hsev, addAddress_bitset htrack, addAddress_addr htrack]
  cases (t.bitset.add addr isLarge).2 with
  | false => simp
  | true =>
    have hne : addr ≠ 0 := ha.1
    cases o.severity <;> cases t.freesOnFailure <;> simp [hne]

theorem trackAllocation_contains (htrack : t.trackDeallocations = true) (ha : IsAddress addr)
    (hb : t.bitset.Consistent [] net) (habs : t.bitset.Absent addr) :
    (t.trackAllocation tl addr isLarge o).1.bitset.Contains addr ↔
      (t.bitset.add addr isLarge).2 = true ∧
        (o.severity = .ok ∨ o.severity = .error ∧ t.freesOnFailure = true) := by
  have hself := habs.add hb ha isLarge
  have hcons := (hb.add ha isLarge).2
  rw [trackAllocation_bitset htrack ha]
  cases hadded : (t.bitset.add addr isLarge).2 with
  | false =>
    rw [hadded] at hself
    simp only [Bool.false_eq_true, false_and, if_false, iff_false]
    exact AddressBitset.not_contains_of_absent hself
  | true =>
    rw [hadded] at hself
    simp only [true_and]
    split_ifs with hundo
    · have habs' := (hself.remove hcons ha).2
      refine iff_of_false (AddressBitset.not_contains_of_absent habs') ?_
      rintro (hok | hfree)
      · exact hundo.1 hok
      · exact hundo.2 hfree
    · refine iff_of_true (AddressBitset.contains_of_present hself ha) ?_
      by_contra hnot
      exact hundo ⟨fun hok => hnot (.inl hok), fun hfree => hnot (.inr hfree)⟩

/-- The event is committed if there is room, and has the address if that has been added. -/
theorem trackAllocation_committed (htrack : t.trackDeallocations = true) (ha : IsAddress addr) :
    t.Committed (t.trackAllocation tl addr isLarge o).1 addr ↔
      (t.bitset.add addr isLarge).2 = true ∧ o.reserve = .ok := by
  obtain ⟨_, hpushed⟩ := (t.addAddress addr isLarge).1.pushAllocSample_spec
    (t.addAddress addr isLarge).2 (t.sampler.account tl).2 o
  obtain ⟨es', hevents, hes'⟩ := hpushed.events
  rw [Committed, trackAllocation, events_undo, events_freeOnConsecutiveFailures, hevents,
    events_addAddress, List.append_assoc, List.drop_left, addAddress_addr htrack]
  constructor
  · rintro ⟨period, dynSize, hmem⟩
    rcases List.mem_append.mp hmem with hmem | hmem
    · split_ifs at hmem with hok hadded
      · exact ⟨hadded, hok⟩
      · cases List.mem_singleton.mp hmem
        exact absurd rfl ha.1
      · cases hmem
    · exact absurd hmem (hes' addr period dynSize)
  · rintro ⟨hadded, hok⟩
    refine ⟨(t.sampler.account tl).2, o.dynSize, List.mem_append_left _ ?_⟩
    rw [if_pos hok, if_pos hadded]
    exact List.mem_singleton_self _

/-- Where the address and its event agree: a push that finds no lock must not be the failure with
which tracking ends, and a notification that fails must be. -/
def Agreeing (t : Tracker) (addr : ℕ) (isLarge : Bool) (o : PushOutcome) : Prop :=
  (t.bitset.add addr isLarge).2 = true →
    match o.reserve with
    | .ok => o.notify = true → o.writeOk = false → t.freesOnFailure = true
    | .full => True
    | .timeout => t.freesOnFailure = false

/-- After `track_allocation` of an address that was not tracked, the address is in the set if and
only if the call has committed an event with it, exactly in the cases of `Agreeing`. -/
theorem trackAllocation_agrees_iff (t : Tracker) (tl : ThreadState) (addr : ℕ) (isLarge : Bool)
    (o : PushOutcome) (htrack : t.trackDeallocations = true) (ha : IsAddress addr)
    (hb : t.bitset.Consistent [] net) (habs : t.bitset.Absent addr) :
    ((t.trackAllocation tl addr isLarge o).1.bitset.Contains addr ↔
      t.Committed (t.trackAllocation tl addr isLarge o).1 addr) ↔ t.Agreeing addr isLarge o := by
  rw [trackAllocation_contains htrack ha hb habs, trackAllocation_committed htrack ha, Agreeing,
    PushOutcome.severity]
  cases (t.bitset.add addr isLarge).2 with
  | false => simp
  | true =>
    cases o.reserve with
    | ok => cases o.notify <;> cases o.writeOk <;> simp
    | full => simp
    | timeout => simp

def sampleAll : Sampler where
  interval := 1
  deterministic := true
  draw _ := 1
  interval_pos := by decide
  draw_pos _ := by decide

theorem absent_init (tableSize : ℕ) (ha : IsAddress addr) :
    (AddressBitset.init tableSize).Absent addr :=
  (AddressBitset.represents_init tableSize false).absent addr ha (Finset.notMem_empty _)

theorem trackAllocation_agrees_iff_init :
    ((init sampleAll true).trackAllocation ⟨0, 0⟩ 0x10000 false
        { notify := true }).1.bitset.Contains 0x10000 ↔
      (init sampleAll true).Committed
        ((init sampleAll true).trackAllocation ⟨0, 0⟩ 0x10000 false { notify := true }).1 0x10000 :=
  (trackAllocation_agrees_iff (init sampleAll true) ⟨0, 0⟩ 0x10000 false { notify := true } rfl
    (by decide) (AddressBitset.consistent_init 0) (absent_init 0 (by decide))).mpr
    fun _ _ hfalse => absurd hfalse (by decide)

/-- The event is committed, its notification fails, and the address is taken out of the set. -/
theorem trackAllocation_notify_fails :
    ¬ (((init sampleAll true).trackAllocation ⟨0, 0⟩ 0x10000 false
        { notify := true, writeOk := false }).1.bitset.Contains 0x10000 ↔
      (init sampleAll true).Committed ((init sampleAll true).trackAllocation ⟨0, 0⟩ 0x10000 false
        { notify := true, writeOk := false }).1 0x10000) := by
  rw [trackAllocation_contains rfl (by decide) (AddressBitset.consistent_init 0)
    (absent_init 0 (by decide)), trackAllocation_committed rfl (by decide)]
  decide +kernel

end Tracker

end Ddprof
