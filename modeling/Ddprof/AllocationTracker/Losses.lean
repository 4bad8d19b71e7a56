import Ddprof.AllocationTracker.Tracker
import Ddprof.Lib.Run
import Ddprof.Worker.Basic

/-!
Events that are lost, and how the worker learns of them.

A push that finds no room in the ring buffer adds one to a counter. An event with the state of the
tracker takes the counters with an exchange and carries what it has taken. Any thread can push
either at any time; here they are taken apart into the accesses to shared memory that they make.
Between the reservation that fails and the increment, and between the exchanges and the commit of
the event, a loss is in the hands of one thread and nowhere else.

The counters have 64 bits, and the fields of the event have 32. What an exchange takes must fit
into the field.
-/

namespace Ddprof

inductive LossKind
  | alloc
  | dealloc
  deriving DecidableEq, Repr

/-- Where a thread is in `push_alloc_sample`, `push_dealloc_sample` or
`push_allocation_tracker_state`. -/
inductive LossPhase
  | idle
  -- No buffer could be reserved for a sample.
  | refused (kind : LossKind)
  -- A buffer is reserved for a sample.
  | sample (kind : LossKind)
  -- A buffer is reserved for the state.
  | state
  -- The first counter is in the event.
  | allocTaken (lostAllocCount : BitVec 32)
  -- Both counters are in the event.
  | bothTaken (lostAllocCount lostDeallocCount : BitVec 32)
  deriving DecidableEq, Repr

inductive LossAction
  | reserveSample (kind : LossKind) (ok : Bool)
  | addLost
  | commitSample
  | reserveState (ok : Bool)
  | takeAlloc
  | takeDealloc
  | commitState
  deriving DecidableEq, Repr

structure StateEvent where
  lostAllocCount : BitVec 32
  lostDeallocCount : BitVec 32
  deriving DecidableEq, Repr

def StateEvent.lost (event : StateEvent) : LossKind → BitVec 32
  | .alloc => event.lostAllocCount
  | .dealloc => event.lostDeallocCount

/-- The counters and the committed state events of a tracker with `n` threads. -/
structure LossState (n : ℕ) where
  phase : Fin n → LossPhase := fun _ => .idle
  lostCount : LossKind → BitVec 64 := fun _ => 0
  events : List StateEvent := []
  -- The pushes for which no buffer could be reserved.
  failed : LossKind → ℕ := fun _ => 0
  -- The losses that have been counted since an event last took the counter.
  sinceTaken : LossKind → ℕ := fun _ => 0

/-- The fields for losses of the state events of a tracker. -/
def Tracker.stateEvents (t : Tracker) : List StateEvent :=
  t.events.filterMap fun
    | .trackerState _ _ _ lostAllocCount lostDeallocCount =>
      some ⟨lostAllocCount, lostDeallocCount⟩
    | .allocation .. | .deallocation .. => none

namespace LossState

variable {n : ℕ}

def setPhase (s : LossState n) (tid : Fin n) (phase : LossPhase) : LossState n :=
  { s with phase := Function.update s.phase tid phase }

/-- `fetch_add(1)` -/
def fetchAdd (s : LossState n) (kind : LossKind) : LossState n :=
  { s with
    lostCount := Function.update s.lostCount kind (s.lostCount kind + 1)
    sinceTaken := Function.update s.sinceTaken kind (s.sinceTaken kind + 1) }

/-- `exchange(0)` -/
def exchange (s : LossState n) (kind : LossKind) : LossState n :=
  { s with
    lostCount := Function.update s.lostCount kind 0
    sinceTaken := Function.update s.sinceTaken kind 0 }

def step (s : LossState n) (act : Fin n × LossAction) : Option (LossState n) :=
  match s.phase act.1, act.2 with
  | .idle, .reserveSample kind true => some (s.setPhase act.1 (.sample kind))
  | .idle, .reserveSample kind false =>
    some { s.setPhase act.1 (.refused kind) with
      failed := Function.update s.failed kind (s.failed kind + 1) }
  | .refused kind, .addLost => some ((s.fetchAdd kind).setPhase act.1 .idle)
  | .sample _, .commitSample => some (s.setPhase act.1 .idle)
  | .idle, .reserveState true => some (s.setPhase act.1 .state)
  -- without a buffer the counters are left alone
  | .idle, .reserveState false => some s
  | .state, .takeAlloc =>
    some ((s.exchange .alloc).setPhase act.1 (.allocTaken ((s.lostCount .alloc).setWidth 32)))
  | .allocTaken lostAllocCount, .takeDealloc =>
    some ((s.exchange .dealloc).setPhase act.1
      (.bothTaken lostAllocCount ((s.lostCount .dealloc).setWidth 32)))
  | .bothTaken lostAllocCount lostDeallocCount, .commitState =>
    some { s.setPhase act.1 .idle with events := s.events ++ [⟨lostAllocCount, lostDeallocCount⟩] }
  | _, _ => none

/-- An exchange finds fewer than `2 ^ 32` losses since the previous one. -/
def FitsField (s : LossState n) (act : Fin n × LossAction) : Prop :=
  match act.2 with
  | .takeAlloc => s.sinceTaken .alloc < 2 ^ 32
  | .takeDealloc => s.sinceTaken .dealloc < 2 ^ 32
  | _ => True

instance (s : LossState n) (act : Fin n × LossAction) : Decidable (s.FitsField act) := by
  unfold FitsField
  split <;> infer_instance

def Quiescent (s : LossState n) : Prop := ∀ tid, s.phase tid = .idle

/-- The losses of a kind that the committed events carry. -/
def reported (s : LossState n) (kind : LossKind) : ℕ :=
  (s.events.map fun event => (event.lost kind).toNat).sum

/-! ### Where a loss can be -/

/-- The losses that a thread has in its hands. -/
def held (kind : LossKind) : LossPhase → ℕ
  | .refused kind' => if kind' = kind then 1 else 0
  | .allocTaken lostAllocCount => if kind = .alloc then lostAllocCount.toNat else 0
  | .bothTaken lostAllocCount lostDeallocCount =>
    (StateEvent.lost ⟨lostAllocCount, lostDeallocCount⟩ kind).toNat
  | .idle | .sample _ | .state => 0

structure Inv (s : LossState n) : Prop where
  -- A loss is held by a thread, counted, or reported.
  total : ∀ kind, s.failed kind =
    ∑ tid, held kind (s.phase tid) + s.sinceTaken kind + s.reported kind
  count : ∀ kind, s.lostCount kind = BitVec.ofNat 64 (s.sinceTaken kind)

theorem sum_held_update (kind : LossKind) (phase : Fin n → LossPhase) (tid : Fin n)
    (new : LossPhase) :
    ∑ tid', held kind (Function.update phase tid new tid') + held kind (phase tid) =
      ∑ tid', held kind (phase tid') + held kind new := by
  have hnew := Finset.add_sum_erase Finset.univ
    (fun tid' => held kind (Function.update phase tid new tid')) (Finset.mem_univ tid)
  have hold := Finset.add_sum_erase Finset.univ
    (fun tid' => held kind (phase tid')) (Finset.mem_univ tid)
  have hrest : ∑ tid' ∈ Finset.univ.erase tid, held kind (Function.update phase tid new tid') =
      ∑ tid' ∈ Finset.univ.erase tid, held kind (phase tid') := by
    refine Finset.sum_congr rfl fun tid' htid' => ?_
    rw [Function.update_of_ne (Finset.ne_of_mem_erase htid')]
  simp only [Function.update_self] at hnew
  omega

variable {s s' : LossState n}

/-- A step of one thread keeps the invariant if what it has in its hands makes up for what the
other places gain or lose. -/
theorem Inv.of_balance (h : s.Inv) (tid : Fin n) {new : LossPhase}
    (hphase : s'.phase = Function.update s.phase tid new)
    (hbalance : ∀ kind, s'.failed kind + held kind (s.phase tid) + s.sinceTaken kind +
      s.reported kind = s.failed kind + held kind new + s'.sinceTaken kind + s'.reported kind)
    (hcount : ∀ kind, s'.lostCount kind = BitVec.ofNat 64 (s'.sinceTaken kind)) : s'.Inv := by
  refine ⟨fun kind => ?_, hcount⟩
  have htotal := h.total kind
  have hsum := sum_held_update kind s.phase tid new
  have hbal := hbalance kind
  rw [hphase]
  omega

variable {s : LossState n}

/-- What an exchange takes fits into the field of the event. -/
theorem Inv.toNat_setWidth (h : s.Inv) {kind : LossKind} (hfits : s.sinceTaken kind < 2 ^ 32) :
    ((s.lostCount kind).setWidth 32).toNat = s.sinceTaken kind := by
  rw [h.count, BitVec.toNat_setWidth, BitVec.toNat_ofNat]
  omega

theorem inv_init : Inv ({} : LossState n) where
  total := fun kind => by simp [held, reported]
  count := fun _ => rfl

inductive Step (s : LossState n) (tid : Fin n) : LossAction → LossState n → Prop
  | reserved {kind : LossKind} (hphase : s.phase tid = .idle) :
      Step s tid (.reserveSample kind true) (s.setPhase tid (.sample kind))
  | refused {kind : LossKind} (hphase : s.phase tid = .idle) :
      Step s tid (.reserveSample kind false)
        { s.setPhase tid (.refused kind) with
          failed := Function.update s.failed kind (s.failed kind + 1) }
  | counted {kind : LossKind} (hphase : s.phase tid = .refused kind) :
      Step s tid .addLost ((s.fetchAdd kind).setPhase tid .idle)
  | committed {kind : LossKind} (hphase : s.phase tid = .sample kind) :
      Step s tid .commitSample (s.setPhase tid .idle)
  | stateReserved (hphase : s.phase tid = .idle) :
      Step s tid (.reserveState true) (s.setPhase tid .state)
  | stateRefused (hphase : s.phase tid = .idle) : Step s tid (.reserveState false) s
  | tookAlloc (hphase : s.phase tid = .state) :
      Step s tid .takeAlloc
        ((s.exchange .alloc).setPhase tid (.allocTaken ((s.lostCount .alloc).setWidth 32)))
  | tookDealloc {lostAllocCount : BitVec 32} (hphase : s.phase tid = .allocTaken lostAllocCount) :
      Step s tid .takeDealloc
        ((s.exchange .dealloc).setPhase tid
          (.bothTaken lostAllocCount ((s.lostCount .dealloc).setWidth 32)))
  | stateCommitted {lostAllocCount lostDeallocCount : BitVec 32}
      (hphase : s.phase tid = .bothTaken lostAllocCount lostDeallocCount) :
      Step s tid .commitState
        { s.setPhase tid .idle with
          events := s.events ++ [⟨lostAllocCount, lostDeallocCount⟩] }

theorem step_spec {act : Fin n × LossAction} (h : s.step act = some s') :
    Step s act.1 act.2 s' := by
  obtain ⟨tid, action⟩ := act
  unfold step at h
  split at h
  case h_10 => cases h
  all_goals
    rename_i hphase haction
    obtain rfl := Option.some.inj h
    obtain rfl : action = _ := haction
  · exact .reserved hphase
  · exact .refused hphase
  · exact .counted hphase
  · exact .committed hphase
  · exact .stateReserved hphase
  · exact .stateRefused hphase
  · exact .tookAlloc hphase
  · exact .tookDealloc hphase
  · exact .stateCommitted hphase

theorem Inv.step (h : s.Inv) {act : Fin n × LossAction}
    (hfits : s.FitsField act) (hstep : s.step act = some s') : s'.Inv := by
  obtain ⟨tid, action⟩ := act
  cases step_spec hstep with
  | reserved hphase =>
    refine h.of_balance tid rfl (fun kind => ?_) h.count
    rw [hphase]
    rfl
  | @refused kind hphase =>
    refine h.of_balance tid rfl (fun kind' => ?_) h.count
    rw [hphase]
    by_cases hkind : kind' = kind
    · simp [held, setPhase, hkind, reported]
    · simp [held, setPhase, hkind, Ne.symm hkind, reported]
  | @counted kind hphase =>
    refine h.of_balance tid rfl (fun kind' => ?_) (fun kind' => ?_)
    · rw [hphase]
      by_cases hkind : kind' = kind
      · simp [held, setPhase, fetchAdd, hkind, reported]
        omega
      · simp [held, setPhase, fetchAdd, hkind, Ne.symm hkind, reported]
    · by_cases hkind : kind' = kind
      · simp [setPhase, fetchAdd, hkind, h.count, BitVec.ofNat_add]
      · simp [setPhase, fetchAdd, hkind, h.count]
  | committed hphase =>
    refine h.of_balance tid rfl (fun kind => ?_) h.count
    rw [hphase]
    rfl
  | stateReserved hphase =>
    refine h.of_balance tid rfl (fun kind => ?_) h.count
    rw [hphase]
    rfl
  | stateRefused hphase => exact h
  | tookAlloc hphase =>
    have htaken := h.toNat_setWidth hfits
    refine h.of_balance tid rfl (fun kind => ?_) (fun kind => ?_)
    · rw [hphase]
      cases kind with
      | alloc =>
        simp only [held, htaken]
        simp [setPhase, exchange, reported]
      | dealloc => simp [held, setPhase, exchange, reported]
    · cases kind <;> simp [setPhase, exchange, h.count]
  | @tookDealloc lostAllocCount hphase =>
    have htaken := h.toNat_setWidth hfits
    refine h.of_balance tid rfl (fun kind => ?_) (fun kind => ?_)
    · rw [hphase]
      cases kind with
      | alloc => simp [held, StateEvent.lost, setPhase, exchange, reported]
      | dealloc =>
        simp only [held, StateEvent.lost, htaken]
        simp [setPhase, exchange, reported]
    · cases kind <;> simp [setPhase, exchange, h.count]
  | @stateCommitted lostAllocCount lostDeallocCount hphase =>
    refine h.of_balance tid rfl (fun kind => ?_) h.count
    rw [hphase]
    simp [held, setPhase, reported]
    omega

/-! ### The functions of the tracker

A function of the tracker that no other thread interferes with makes its accesses one after the
other. -/

structure Agrees (s : LossState n) (t : Tracker) : Prop where
  alloc : s.lostCount .alloc = t.lostAllocCount
  dealloc : s.lostCount .dealloc = t.lostDeallocCount
  events : s.events = t.stateEvents

/-- The accesses of `push_allocation_tracker_state`. -/
def stateActions (tid : Fin n) (o : RingOutcome) : List (Fin n × LossAction) :=
  match o.reserve with
  | .ok => [(tid, .reserveState true), (tid, .takeAlloc), (tid, .takeDealloc), (tid, .commitState)]
  | .full | .timeout => [(tid, .reserveState false)]

/-- The accesses of `push_alloc_sample` and `push_dealloc_sample`. -/
def sampleActions (tid : Fin n) (kind : LossKind) (o : PushOutcome) : List (Fin n × LossAction) :=
  match o.reserve with
  | .ok => (tid, .reserveSample kind true) :: (tid, .commitSample) ::
      if o.notify && !o.writeOk then [] else o.timer.elim [] (stateActions tid)
  | .full | .timeout => [(tid, .reserveSample kind false), (tid, .addLost)]

/-- What the accesses of a thread that is not interrupted lead to. -/
def Performs (s : LossState n) (acts : List (Fin n × LossAction)) (t : Tracker) : Prop :=
  ∃ s', Run.steps step s acts = some s' ∧ s'.phase = s.phase ∧ s'.Agrees t

variable {t : Tracker} {tid : Fin n}

theorem Agrees.pushAllocationTrackerState (h : s.Agrees t)
    (hidle : s.phase tid = .idle) (o : RingOutcome) :
    s.Performs (stateActions tid o) (t.pushAllocationTrackerState o) := by
  unfold Performs stateActions Tracker.pushAllocationTrackerState
  cases o.reserve with
  | ok =>
    refine ⟨_, by simp only [Run.steps, step, hidle, setPhase, exchange, Function.update_self,
      Option.bind_some]; rfl, by simp [← hidle], ?_⟩
    constructor
    · simp
    · simp
    · simp [h.events, h.alloc, h.dealloc, Tracker.stateEvents, Tracker.push,
        Tracker.stateEvent]
  | full => exact ⟨s, by simp [Run.steps, step, hidle], rfl, h⟩
  | timeout => exact ⟨s, by simp [Run.steps, step, hidle], rfl, h⟩

/-- A sample that finds room leaves the losses alone, but the state may be due after it. -/
theorem Agrees.commit (h : s.Agrees t)
    (hidle : s.phase tid = .idle) (kind : LossKind) {e : LibraryEvent}
    (he : (t.push e).stateEvents = t.stateEvents) (o : PushOutcome) :
    s.Performs ((tid, .reserveSample kind true) :: (tid, .commitSample) ::
      if o.notify && !o.writeOk then [] else o.timer.elim [] (stateActions tid))
      (t.commit e o).1 := by
  have hpush : s.Agrees (t.push e) := ⟨h.alloc, h.dealloc, h.events.trans he.symm⟩
  have hback : (s.setPhase tid (.sample kind)).setPhase tid .idle = s := by
    simp [setPhase, ← hidle]
  have hsteps : ∀ acts, Run.steps step s ((tid, .reserveSample kind true) ::
      (tid, .commitSample) :: acts) = Run.steps step s acts := by
    intro acts
    have hfirst : s.step (tid, .reserveSample kind true) =
        some (s.setPhase tid (.sample kind)) := by
      simp [step, hidle]
    have hsecond : (s.setPhase tid (.sample kind)).step (tid, .commitSample) = some s := by
      have hphase : (s.setPhase tid (.sample kind)).phase tid = .sample kind := by simp [setPhase]
      simp only [step, hphase, hback]
    rw [Run.steps, hfirst, Option.bind_some, Run.steps, hsecond, Option.bind_some]
  unfold Performs Tracker.commit
  rw [hsteps]
  split_ifs
  · exact ⟨s, rfl, rfl, hpush⟩
  · cases o.timer with
    | none => exact ⟨s, rfl, rfl, hpush⟩
    | some timer => exact hpush.pushAllocationTrackerState hidle timer

theorem Agrees.refused {t t' : Tracker} (h : s.Agrees t)
    (hidle : s.phase tid = .idle) {kind : LossKind} (hevents : t'.events = t.events)
    (halloc : t'.lostAllocCount = t.lostAllocCount + if kind = .alloc then 1 else 0)
    (hdealloc : t'.lostDeallocCount = t.lostDeallocCount + if kind = .dealloc then 1 else 0) :
    s.Performs [(tid, .reserveSample kind false), (tid, .addLost)] t' := by
  refine ⟨_, by simp only [Run.steps, step, hidle, setPhase, fetchAdd, Function.update_self,
    Option.bind_some]; rfl, by simp [← hidle], ?_⟩
  constructor
  · cases kind <;> simp [halloc, h.alloc]
  · cases kind <;> simp [hdealloc, h.dealloc]
  · simp only [h.events, Tracker.stateEvents, hevents]

theorem Agrees.pushAllocSample (h : s.Agrees t)
    (hidle : s.phase tid = .idle) (addr : ℕ) (allocatedSize : BitVec 64) (o : PushOutcome) :
    s.Performs (sampleActions tid .alloc o) (t.pushAllocSample addr allocatedSize o).1 := by
  unfold sampleActions Tracker.pushAllocSample
  cases o.reserve with
  | ok => exact h.commit hidle .alloc (by simp [Tracker.stateEvents, Tracker.push]) o
  | full => exact h.refused hidle rfl rfl (by simp)
  | timeout => exact h.refused hidle rfl rfl (by simp)

theorem Agrees.pushDeallocSample (h : s.Agrees t)
    (hidle : s.phase tid = .idle) (addr : ℕ) (o : PushOutcome) :
    s.Performs (sampleActions tid .dealloc o) (t.pushDeallocSample addr o).1 := by
  unfold sampleActions Tracker.pushDeallocSample
  cases o.reserve with
  | ok => exact h.commit hidle .dealloc (by simp [Tracker.stateEvents, Tracker.push]) o
  | full => exact h.refused hidle rfl (by simp) rfl
  | timeout => exact h.refused hidle rfl (by simp) rfl

inductive LossCall
  | pushAllocSample (addr : ℕ) (allocatedSize : BitVec 64) (o : PushOutcome)
  | pushDeallocSample (addr : ℕ) (o : PushOutcome)
  | pushAllocationTrackerState (o : RingOutcome)

def LossCall.run (t : Tracker) : LossCall → Tracker
  | .pushAllocSample addr allocatedSize o => (t.pushAllocSample addr allocatedSize o).1
  | .pushDeallocSample addr o => (t.pushDeallocSample addr o).1
  | .pushAllocationTrackerState o => t.pushAllocationTrackerState o

def LossCall.actions (tid : Fin n) : LossCall → List (Fin n × LossAction)
  | .pushAllocSample _ _ o => sampleActions tid .alloc o
  | .pushDeallocSample _ o => sampleActions tid .dealloc o
  | .pushAllocationTrackerState o => stateActions tid o

theorem Agrees.run (h : s.Agrees t) (hidle : s.phase tid = .idle) (call : LossCall) :
    s.Performs (call.actions tid) (call.run t) := by
  cases call with
  | pushAllocSample addr allocatedSize o => exact h.pushAllocSample hidle addr allocatedSize o
  | pushDeallocSample addr o => exact h.pushDeallocSample hidle addr o
  | pushAllocationTrackerState o => exact h.pushAllocationTrackerState hidle o

/-- Calls that threads make one after the other are a run of the accesses. It takes a new tracker
to its state after the calls, and ends with no push under way. -/
theorem performs_calls (sampler : Sampler) (trackDeallocations : Bool)
    (calls : List (Fin n × LossCall)) :
    ({} : LossState n).Performs (calls.flatMap fun c => c.2.actions c.1)
      (calls.foldl (fun t c => c.2.run t) (Tracker.init sampler trackDeallocations)) := by
  have hcalls : ∀ (s : LossState n) (t : Tracker), s.Agrees t → s.Quiescent →
      s.Performs (calls.flatMap fun c => c.2.actions c.1)
        (calls.foldl (fun t c => c.2.run t) t) := by
    induction calls with
    | nil => exact fun s t h _ => ⟨s, rfl, rfl, h⟩
    | cons c rest ih =>
      intro s t h hquiescent
      obtain ⟨s', hs', hphase, h'⟩ := h.run (hquiescent c.1) c.2
      obtain ⟨s'', hs'', hphase', h''⟩ := ih s' _ h' (by rwa [Quiescent, hphase])
      exact ⟨s'', Run.steps_append hs' hs'', hphase'.trans hphase, h''⟩
  exact hcalls _ _ ⟨rfl, rfl, rfl⟩ fun _ => rfl

/-! ### At rest -/

/-- `ddprof_pr_allocation_tracker_state`, for a state event of the library. -/
def processState (aggregateOk : ℕ → Bool) (watcherPos : ℕ) (pid : ℤ) (w : Worker)
    (event : StateEvent) : Worker :=
  (w.processEvent aggregateOk watcherPos
    (.allocationTrackerState pid event.lostAllocCount.toNat)).1

theorem lostEvents_processStates (aggregateOk : ℕ → Bool) (watcherPos : ℕ) (pid : ℤ) (w : Worker)
    (hw : w.lostEventsPerWatcher watcherPos < 2 ^ 64) (events : List StateEvent) :
    (events.foldl (processState aggregateOk watcherPos pid) w).lostEventsPerWatcher =
      Function.update w.lostEventsPerWatcher watcherPos
        ((w.lostEventsPerWatcher watcherPos +
          (events.map fun event => event.lostAllocCount.toNat).sum) % 2 ^ 64) := by
  induction events generalizing w with
  | nil =>
    rw [List.foldl_nil, List.map_nil, List.sum_nil, Nat.add_zero, Nat.mod_eq_of_lt hw,
      Function.update_eq_self]
  | cons event rest ih =>
    have hone : (processState aggregateOk watcherPos pid w event).lostEventsPerWatcher =
        Function.update w.lostEventsPerWatcher watcherPos
          ((w.lostEventsPerWatcher watcherPos + event.lostAllocCount.toNat) % 2 ^ 64) := rfl
    have hlt : (processState aggregateOk watcherPos pid w event).lostEventsPerWatcher
        watcherPos < 2 ^ 64 := by
      rw [hone, Function.update_self]
      exact Nat.mod_lt _ (by decide)
    rw [List.foldl_cons, ih _ hlt, hone, Function.update_idem, Function.update_self,
      List.map_cons, List.sum_cons, Nat.mod_add_mod, Nat.add_assoc]

/-- Whatever the threads do and however their accesses follow each other: when no push is under
way, the pushes that have failed are those that the committed state events report and those that
the counter has. The counter is a `uint64_t`. The worker adds what the events report to the losses
of the watcher. -/
theorem losses_exact (acts : List (Fin n × LossAction)) (s : LossState n)
    (hrun : Run.steps step {} acts = some s) (hfits : Run.Along step FitsField {} acts)
    (hquiescent : s.Quiescent) :
    (∀ kind, s.reported kind ≤ s.failed kind ∧
        s.lostCount kind = BitVec.ofNat 64 (s.failed kind - s.reported kind) ∧
        (s.failed kind - s.reported kind < 2 ^ 64 →
          s.failed kind = s.reported kind + (s.lostCount kind).toNat)) ∧
      ∀ (aggregateOk : ℕ → Bool) (watcherPos : ℕ) (pid : ℤ) (w : Worker),
        w.lostEventsPerWatcher watcherPos < 2 ^ 64 →
        (s.events.foldl (processState aggregateOk watcherPos pid) w).lostEventsPerWatcher =
          Function.update w.lostEventsPerWatcher watcherPos
            ((w.lostEventsPerWatcher watcherPos + s.reported .alloc) % 2 ^ 64) := by
  have hinv : s.Inv := Run.steps_invariant (fun _ _ _ h hok hstep => h.step hok hstep) inv_init
    hfits hrun
  constructor
  · intro kind
    have htotal := hinv.total kind
    have hheld : ∑ tid, held kind (s.phase tid) = 0 :=
      Finset.sum_eq_zero fun tid _ => by rw [hquiescent tid]; rfl
    have hsince : s.failed kind - s.reported kind = s.sinceTaken kind := by omega
    refine ⟨by omega, by rw [hsince, hinv.count], fun hlt => ?_⟩
    rw [hinv.count, BitVec.toNat_ofNat]
    omega
  · intro aggregateOk watcherPos pid w hw
    exact lostEvents_processStates aggregateOk watcherPos pid w hw s.events

/-- An allocation and a deallocation are lost while an event with the state takes the counters.
The event gets one of them, and the counters keep the other. -/
theorem losses_exact_interleaved :
    let acts : List (Fin 2 × LossAction) :=
      [(0, .reserveSample .alloc false), (1, .reserveState true), (0, .addLost),
        (1, .takeAlloc), (0, .reserveSample .dealloc false), (1, .takeDealloc), (0, .addLost),
        (1, .commitState)]
    ∃ s, Run.steps step {} acts = some s ∧ s.events = [⟨1, 0⟩] ∧
      s.failed .alloc = s.reported .alloc + (s.lostCount .alloc).toNat ∧
      s.failed .dealloc = s.reported .dealloc + (s.lostCount .dealloc).toNat := by
  intro acts
  have hquiescent : ∀ s, Run.steps step {} acts = some s → s.Quiescent := by
    rintro s hs tid
    obtain rfl := Option.some.inj hs
    fin_cases tid <;> rfl
  have hexact := fun s hs => (losses_exact acts s hs (by decide +kernel) (hquiescent s hs)).1
  refine ⟨_, rfl, by decide +kernel, ?_, ?_⟩
  · exact (hexact _ rfl .alloc).2.2 (by decide +kernel)
  · exact (hexact _ rfl .dealloc).2.2 (by decide +kernel)

/-! ### Losses between two events

What an event carries was taken before it is committed, so losses can lie between an exchange and
the commit. -/

/-- The pushes that fail in a part of a run. -/
def losses (part : List (Fin n × LossAction)) : ℕ :=
  part.countP fun act => act.2 matches .reserveSample _ false

/-- Fewer than `2 ^ 32` pushes fail between two committed state events. -/
def FewBetweenEvents (acts : List (Fin n × LossAction)) : Prop :=
  ∀ part ∈ acts.splitOnP fun act => act.2 = .commitState, losses part < 2 ^ 32

/-- `k` pushes of a thread that fail one after the other. -/
def failedPushes (tid : Fin n) (kind : LossKind) (k : ℕ) : List (Fin n × LossAction) :=
  (List.replicate k [(tid, .reserveSample kind false), (tid, .addLost)]).flatten

/-- The state after `k` pushes have failed and nothing else has happened. -/
def lose (s : LossState n) (kind : LossKind) (k : ℕ) : LossState n :=
  { s with
    lostCount := Function.update s.lostCount kind (s.lostCount kind + BitVec.ofNat 64 k)
    failed := Function.update s.failed kind (s.failed kind + k)
    sinceTaken := Function.update s.sinceTaken kind (s.sinceTaken kind + k) }

theorem lose_lose (s : LossState n) (kind : LossKind) (k : ℕ) :
    (s.lose kind 1).lose kind k = s.lose kind (k + 1) := by
  simp [lose, BitVec.ofNat_add, BitVec.add_assoc, BitVec.add_comm, Nat.add_assoc, Nat.add_comm]

theorem steps_failedPushes {tid : Fin n} (hidle : s.phase tid = .idle) (kind : LossKind) (k : ℕ) :
    Run.steps step s (failedPushes tid kind k) = some (s.lose kind k) := by
  induction k generalizing s with
  | zero => simp [failedPushes, Run.steps, lose]
  | succ k ih =>
    have hone : Run.steps step s [(tid, .reserveSample kind false), (tid, .addLost)] =
        some (s.lose kind 1) := by
      have hback : Function.update s.phase tid .idle = s.phase := by simp [← hidle]
      simp [Run.steps, step, hidle, setPhase, fetchAdd, lose, hback]
    rw [← lose_lose]
    exact Run.steps_append hone (ih hidle)

theorem FewBetweenEvents.commit {part rest : List (Fin n × LossAction)} {tid : Fin n}
    (hrest : FewBetweenEvents rest) (hpart : ∀ act ∈ part, act.2 ≠ .commitState)
    (hlosses : losses part < 2 ^ 32) : FewBetweenEvents (part ++ (tid, .commitState) :: rest) := by
  intro part' hpart'
  rw [List.splitOnP_append_cons_of_forall_mem (by simpa using hpart) _ (by simp),
    List.mem_cons] at hpart'
  obtain rfl | hmem := hpart'
  · exact hlosses
  · exact hrest part' hmem

/-- An event takes the counter, `k` pushes fail before it is committed and one more after that, and
then there is a second event. -/
def takenEarly (k : ℕ) : List (Fin 2 × LossAction) :=
  ([(1, .reserveState true), (1, .takeAlloc)] ++ failedPushes 0 .alloc k ++ [(1, .takeDealloc)]) ++
    (1, .commitState) :: ((failedPushes 0 .alloc 1 ++
      [(1, .reserveState true), (1, .takeAlloc), (1, .takeDealloc)]) ++ [(1, .commitState)])

theorem fewBetweenEvents_takenEarly {k : ℕ} (hk : k < 2 ^ 32) :
    FewBetweenEvents (takenEarly k) := by
  have hnone : FewBetweenEvents ([] : List (Fin 2 × LossAction)) := by
    simp [FewBetweenEvents, losses]
  refine (hnone.commit (by decide) (by decide)).commit ?_ ?_
  · simp +contextual [failedPushes, or_imp]
  · simpa [losses, failedPushes, List.countP_flatten] using hk

/-- Both events are committed, and the second one has the losses of `k + 1` pushes in 32 bits. -/
theorem steps_takenEarly (k : ℕ) :
    ∃ s, Run.steps step {} (takenEarly k) = some s ∧ s.Quiescent ∧ s.failed .alloc = k + 1 ∧
      s.reported .alloc = (k + 1) % 2 ^ 32 ∧ s.lostCount .alloc = 0 := by
  have htaken : Run.steps step ({} : LossState 2) [(1, .reserveState true), (1, .takeAlloc)] =
      some (((({} : LossState 2).setPhase 1 .state).exchange .alloc).setPhase 1 (.allocTaken 0)) :=
    rfl
  refine ⟨_, Run.steps_append (Run.steps_append (Run.steps_append htaken
    (steps_failedPushes rfl .alloc k)) rfl) (Run.steps_cons.mpr ⟨_, rfl,
      Run.steps_append (Run.steps_append (steps_failedPushes rfl .alloc 1) rfl) rfl⟩),
    ?_, ?_, ?_, ?_⟩
  · intro tid
    fin_cases tid <;> rfl
  · show 0 + k + 1 = k + 1
    omega
  · show 0 + ((0 + BitVec.ofNat 64 k + BitVec.ofNat 64 1).setWidth 32).toNat + 0 = _
    simp [← BitVec.ofNat_add]
  · rfl

/-- Fewer than `2 ^ 32` losses between two committed events do not suffice. -/
theorem losses_missed :
    ∃ (acts : List (Fin 2 × LossAction)) (s : LossState 2), FewBetweenEvents acts ∧
      Run.steps step {} acts = some s ∧ s.Quiescent ∧
      s.failed .alloc = 2 ^ 32 ∧ s.reported .alloc = 0 ∧ s.lostCount .alloc = 0 := by
  obtain ⟨s, hs, hquiescent, hfailed, hreported, hcount⟩ := steps_takenEarly (2 ^ 32 - 1)
  exact ⟨_, s, fewBetweenEvents_takenEarly (by decide), hs, hquiescent, hfailed, hreported, hcount⟩

end LossState

end Ddprof
