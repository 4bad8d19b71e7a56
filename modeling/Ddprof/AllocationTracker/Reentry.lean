import Ddprof.AllocationTracker.Hooks

/-!
The guard that keeps hooks from tracking inside of other hooks (`reentry_guard.hpp`,
`symbol_overrides.cc`).

The real allocator and the tracker call hooked functions in their turn, so that the calls of a
thread are trees. All hooks of a thread share one flag: a guard is engaged if it finds the flag
clear, it sets the flag in any case, and only an engaged guard clears it when the hook is left,
by a return or by an exception.
-/

namespace Ddprof

/-! ### The state of a thread -/

structure TrackerStatus where
  -- `_instance` is set
  active : Bool
  trackDeallocations : Bool
  deriving DecidableEq, Repr

def TrackerStatus.isDeallocationTrackingActive (status : TrackerStatus) : Bool :=
  status.active && status.trackDeallocations

structure TrackerThreadLocalState where
  reentryGuard : Bool := false
  allocationAllowed : Bool := true
  initialized : Bool := true
  deriving DecidableEq, Repr

namespace TrackerThreadLocalState

/-- `init_tl_state`, which returns null without an instance. -/
def initTlState (status : TrackerStatus) (state : TrackerThreadLocalState) :
    Bool × TrackerThreadLocalState :=
  if status.active then (true, {}) else (false, state)

/-- Whether the pointer that is returned is not null, and the state. -/
def getTlState (status : TrackerStatus) (initIfNotInitialized : Bool)
    (state : TrackerThreadLocalState) : Bool × TrackerThreadLocalState :=
  if state.initialized then (true, state)
  else if initIfNotInitialized && !state.reentryGuard then initTlState status state
  else (false, state)

/-- The constructor of `ReentryGuard`; the result is `_ok`. -/
def enterGuard (found : Bool) (state : TrackerThreadLocalState) :
    Bool × TrackerThreadLocalState :=
  if found then (!state.reentryGuard, { state with reentryGuard := true }) else (false, state)

/-- The destructor of `ReentryGuard`. -/
def leaveGuard (ok : Bool) (state : TrackerThreadLocalState) : TrackerThreadLocalState :=
  if ok then { state with reentryGuard := false } else state

end TrackerThreadLocalState

open TrackerThreadLocalState

/-- The hooks with a `DeallocTrackerHelper`. -/
def Hook.frees : Hook → Bool
  | free _ | freeSized _ _ | freeAlignedSized _ _ _ | operatorDelete _ => true
  | dallocx _ | sdallocx _ _ | munmap _ _ => true
  | _ => false

def Hook.tlState (hook : Hook) (status : TrackerStatus) (state : TrackerThreadLocalState) :
    Bool × TrackerThreadLocalState :=
  if hook.frees && !status.isDeallocationTrackingActive then (false, state)
  else getTlState status (!hook.mmapAlloc) state

/-! ### Calls -/

mutual

/-- A hooked call, with a part for each step of its body. -/
inductive NestedCall
  | mk (hook : Hook) (parts : List CallPart)

/-- What happens in a step of a hook: the address that the real allocator returns, the hooked
calls that are made meanwhile, and whether the step is left by an exception. -/
inductive CallPart
  | mk (address : ℕ) (nested : List NestedCall) (throws : Bool)

end

namespace Instr

/-- Whether the step is a call out of the hook. The tracker is not called without the guard. -/
def callsOut (ok : Bool) (ptr : ℕ) : Instr → Bool
  | .allocate | .release | .reallocate _ | .resize => true
  | .trackAllocation testPtr => ok && !(testPtr && decide (ptr = 0))
  | .trackDeallocation => ok
  | _ => false

def pointer (ptr address : ℕ) : Instr → ℕ
  | .allocate | .reallocate _ => address
  | _ => ptr

end Instr

inductive HookEvent
  | entered (depth : ℕ) (engaged : Bool)
  -- the tracker is called
  | tracked (depth : ℕ)
  -- with the flag that is left behind
  | exited (depth : ℕ) (thrown : Bool) (reentryGuard : Bool)
  deriving DecidableEq, Repr

/-- `allocation_allowed` is cleared around the tracker in the hooks of mappings. -/
def TrackerThreadLocalState.allow (state : TrackerThreadLocalState) (mapping allowed : Bool) :
    TrackerThreadLocalState :=
  if mapping then { state with allocationAllowed := allowed } else state

mutual

def NestedCall.run (status : TrackerStatus) (depth : ℕ) :
    NestedCall → TrackerThreadLocalState → List HookEvent × TrackerThreadLocalState
  | .mk hook parts, state =>
    let (found, state) := hook.tlState status state
    let (ok, state) := enterGuard found state
    let (events, state, thrown) :=
      runParts status depth hook.mmapAlloc ok parts hook.body hook.arg state
    let state := leaveGuard ok state
    (.entered depth ok :: events ++ [.exited depth thrown state.reentryGuard], state)

/-- The steps of a hook, up to an exception. Steps without a part make no hooked calls. -/
def runParts (status : TrackerStatus) (depth : ℕ) (mmapAlloc ok : Bool) :
    List CallPart → List Instr → ℕ → TrackerThreadLocalState →
      List HookEvent × TrackerThreadLocalState × Bool
  | [], steps, ptr, state =>
    ((steps.filter fun i => i.isTracking && i.callsOut ok ptr).map fun _ => .tracked depth,
      state, false)
  | _ :: _, [], _, state => ([], state, false)
  | .mk address nested throws :: parts, i :: steps, ptr, state =>
    if i.callsOut ok ptr then
      let mapping := mmapAlloc && i.isTracking
      let (events, state) := runCalls status (depth + 1) nested (state.allow mapping false)
      let events := if i.isTracking then .tracked depth :: events else events
      if throws then (events, state, true)
      else
        let (events', state, thrown) := runParts status depth mmapAlloc ok parts steps
          (i.pointer ptr address) (state.allow mapping true)
        (events ++ events', state, thrown)
    else runParts status depth mmapAlloc ok parts steps ptr state

def runCalls (status : TrackerStatus) (depth : ℕ) :
    List NestedCall → TrackerThreadLocalState → List HookEvent × TrackerThreadLocalState
  | [], state => ([], state)
  | call :: calls, state =>
    let (events, state) := call.run status depth state
    let (events', state) := runCalls status depth calls state
    (events ++ events', state)

end

/-! ### The flag -/

/-- Inside of hooks the flag is set, and outside of them it is clear. -/
structure GuardAt (depth : ℕ) (state : TrackerThreadLocalState) : Prop where
  initialized : state.initialized = true
  flag : state.reentryGuard = decide (0 < depth)

def HookEvent.IsExpected : HookEvent → Prop
  | .entered depth engaged => engaged = true ↔ depth = 0
  | .tracked depth => depth = 0
  | .exited depth _ reentryGuard => depth = 0 → reentryGuard = false

section Runs

variable {status : TrackerStatus} {depth : ℕ} {state : TrackerThreadLocalState}

theorem GuardAt.allow (h : GuardAt depth state) (mapping allowed : Bool) :
    GuardAt depth (state.allow mapping allowed) := by
  unfold TrackerThreadLocalState.allow
  split_ifs
  · exact ⟨h.initialized, h.flag⟩
  · exact h

theorem GuardAt.tlState (h : GuardAt depth state)
    (hactive : status.isDeallocationTrackingActive = true) (hook : Hook) :
    hook.tlState status state = (true, state) := by
  simp [Hook.tlState, hactive, getTlState, h.initialized]

/-- A guard is engaged exactly outside of hooks, and the flag is set behind it. -/
theorem GuardAt.enterGuard (h : GuardAt depth state) :
    (enterGuard true state).1 = decide (depth = 0) ∧
      GuardAt (depth + 1) (enterGuard true state).2 := by
  refine ⟨?_, h.initialized, by simp [TrackerThreadLocalState.enterGuard]⟩
  simp [TrackerThreadLocalState.enterGuard, h.flag, Nat.pos_iff_ne_zero]

/-- Only the guard that found the flag clear resets it. -/
theorem GuardAt.leaveGuard (h : GuardAt (depth + 1) state) :
    GuardAt depth (leaveGuard (decide (depth = 0)) state) := by
  by_cases hdepth : depth = 0
  · simp only [hdepth, decide_true, TrackerThreadLocalState.leaveGuard, if_true]
    exact ⟨h.initialized, rfl⟩
  · have hflag : decide (0 < depth + 1) = decide (0 < depth) := by simp; omega
    simp only [hdepth, decide_false, TrackerThreadLocalState.leaveGuard, Bool.false_eq_true,
      if_false]
    exact ⟨h.initialized, h.flag.trans hflag⟩

end Runs

section Trees

variable {status : TrackerStatus}

mutual

theorem NestedCall.run_expected (hactive : status.isDeallocationTrackingActive = true)
    (call : NestedCall) {depth : ℕ} {state : TrackerThreadLocalState} (h : GuardAt depth state) :
    (∀ e ∈ (call.run status depth state).1, e.IsExpected) ∧
      GuardAt depth (call.run status depth state).2 := by
  cases call with
  | mk hook parts =>
    obtain ⟨hok, hinside⟩ := h.enterGuard
    rw [NestedCall.run, h.tlState hactive]
    simp only [hok]
    obtain ⟨hevents, hparts⟩ := runParts_expected hactive parts hook.mmapAlloc
      (decide (depth = 0)) hook.body hook.arg hinside of_decide_eq_true
    have hleave := hparts.leaveGuard
    refine ⟨?_, hleave⟩
    simp only [List.cons_append, List.mem_cons, List.mem_append, List.not_mem_nil, or_false]
    rintro e (rfl | he | rfl)
    · exact decide_eq_true_iff
    · exact hevents e he
    · rintro rfl
      exact hleave.flag

theorem runParts_expected (hactive : status.isDeallocationTrackingActive = true)
    (parts : List CallPart) (mmapAlloc ok : Bool) (steps : List Instr) (ptr : ℕ) {depth : ℕ}
    {state : TrackerThreadLocalState} (h : GuardAt (depth + 1) state)
    (hok : ok = true → depth = 0) :
    (∀ e ∈ (runParts status depth mmapAlloc ok parts steps ptr state).1, e.IsExpected) ∧
      GuardAt (depth + 1) (runParts status depth mmapAlloc ok parts steps ptr state).2.1 := by
  have htracked : ∀ i : Instr, i.isTracking = true → i.callsOut ok ptr = true → depth = 0 := by
    intro i htracking hcalls
    cases i with
    | trackAllocation testPtr => exact hok (Bool.and_eq_true_iff.mp hcalls).1
    | trackDeallocation => exact hok hcalls
    | _ => cases htracking
  match parts, steps with
  | [], steps =>
    rw [runParts]
    refine ⟨fun e he => ?_, h⟩
    obtain ⟨i, hi, rfl⟩ := List.mem_map.mp he
    obtain ⟨-, htracking⟩ := List.mem_filter.mp hi
    rw [Bool.and_eq_true] at htracking
    exact htracked i htracking.1 htracking.2
  | _ :: _, [] =>
    rw [runParts]
    exact ⟨nofun, h⟩
  | .mk address nested throws :: parts, i :: steps =>
    rw [runParts]
    by_cases hcalls : i.callsOut ok ptr = true
    · rw [if_pos hcalls]
      obtain ⟨hnested, hstate⟩ := runCalls_expected hactive nested
        (h.allow (mmapAlloc && i.isTracking) false)
      have hevents : ∀ e ∈ (if i.isTracking = true then .tracked depth ::
          (runCalls status (depth + 1) nested (state.allow (mmapAlloc && i.isTracking) false)).1
          else (runCalls status (depth + 1) nested
            (state.allow (mmapAlloc && i.isTracking) false)).1), HookEvent.IsExpected e := by
        intro e he
        split_ifs at he with htracking
        · rcases List.mem_cons.mp he with rfl | he
          · exact htracked i htracking hcalls
          · exact hnested e he
        · exact hnested e he
      cases throws with
      | true => exact ⟨hevents, hstate⟩
      | false =>
        obtain ⟨hrest, hafter⟩ := runParts_expected hactive parts mmapAlloc ok steps
          (i.pointer ptr address) (hstate.allow (mmapAlloc && i.isTracking) true) hok
        refine ⟨fun e he => ?_, hafter⟩
        rcases List.mem_append.mp he with he | he
        · exact hevents e he
        · exact hrest e he
    · rw [if_neg hcalls]
      exact runParts_expected hactive parts mmapAlloc ok steps ptr h hok

theorem runCalls_expected (hactive : status.isDeallocationTrackingActive = true)
    (calls : List NestedCall) {depth : ℕ} {state : TrackerThreadLocalState}
    (h : GuardAt depth state) :
    (∀ e ∈ (runCalls status depth calls state).1, e.IsExpected) ∧
      GuardAt depth (runCalls status depth calls state).2 := by
  match calls with
  | [] => exact ⟨nofun, h⟩
  | call :: calls =>
    obtain ⟨hevents, hcall⟩ := NestedCall.run_expected hactive call h
    obtain ⟨hevents', hcalls⟩ := runCalls_expected hactive calls hcall
    rw [runCalls]
    refine ⟨fun e he => ?_, hcalls⟩
    rcases List.mem_append.mp he with he | he
    · exact hevents e he
    · exact hevents' e he

end

end Trees

/-- In any sequence of call trees of a thread with an initialized state, and with deallocation
tracking active, the guards that are engaged are those of the calls that are not inside of others,
the tracker is called by such calls only, and the flag is clear when they are left. -/
theorem runCalls_engaged_iff (status : TrackerStatus) (state : TrackerThreadLocalState)
    (calls : List NestedCall) (hactive : status.isDeallocationTrackingActive = true)
    (hinitialized : state.initialized = true) (hflag : state.reentryGuard = false) :
    (∀ depth engaged, .entered depth engaged ∈ (runCalls status 0 calls state).1 →
      (engaged = true ↔ depth = 0)) ∧
    (∀ depth, .tracked depth ∈ (runCalls status 0 calls state).1 → depth = 0) ∧
    (∀ thrown reentryGuard, .exited 0 thrown reentryGuard ∈ (runCalls status 0 calls state).1 →
      reentryGuard = false) ∧
    (runCalls status 0 calls state).2.reentryGuard = false := by
  have houtside : GuardAt 0 state := ⟨hinitialized, hflag⟩
  obtain ⟨hevents, hafter⟩ := runCalls_expected hactive calls houtside
  refine ⟨fun depth engaged he => hevents _ he, fun depth he => hevents _ he,
    fun thrown reentryGuard he => hevents _ he rfl, hafter.flag⟩

/-- `malloc` with a mapping made by the real allocator and a `free` made by the tracker, and then
`operator new` that throws out of `malloc`. -/
theorem runCalls_engaged_iff_nested :
    let calls : List NestedCall :=
      [.mk (.malloc 8) [.mk 16 [.mk (.mmap 0 4096 (-1)) [.mk 4096 [] false]] false,
        .mk 0 [.mk (.free 32) []] false],
        .mk (.operatorNew 8) [.mk 0 [.mk (.malloc 8) []] true]]
    (runCalls ⟨true, true⟩ 0 calls {}).1 =
        [.entered 0 true, .entered 1 false, .exited 1 false true, .tracked 0, .entered 1 false,
          .exited 1 false true, .exited 0 false false, .entered 0 true, .entered 1 false,
          .exited 1 false true, .exited 0 true false] ∧
      (runCalls ⟨true, true⟩ 0 calls {}).2.reentryGuard = false := by
  intro calls
  exact ⟨by decide, (runCalls_engaged_iff ⟨true, true⟩ {} calls rfl rfl rfl).2.2.2⟩

end Ddprof
