import Ddprof.AllocationTracker.Tracker
import Ddprof.Lib.Run

/-!
Hooked calls for which the real allocator fails (`symbol_overrides.cc`).

Some hooks look at the pointer they get before they track it, some do not, and those
that reallocate stop tracking the old block before they know whether there is a new one.
A failing call is without effect only where none of this reaches the tracker.
-/

namespace Ddprof

/-! ### The hooks of one thread -/

/-- The return value of `mmap` when it fails. -/
def mapFailed : ℕ := 2 ^ 64 - 1

structure HookCall where
  hook : Hook
  /-- The thread has its state and is not inside another hook. -/
  engaged : Bool := true
  /-- The return value of the real function, or the pointer it stores. -/
  result : ℕ := 0
  dealloc : PushOutcome := {}
  alloc : PushOutcome := {}
  deriving DecidableEq, Repr

structure Library where
  tracker : Tracker
  thread : ThreadState

namespace Library

def init (sampler : Sampler) (trackDeallocations : Bool) : Library where
  tracker := .init sampler trackDeallocations
  thread :=
    let (interval, gen) := sampler.nextSampleInterval 0
    ⟨0 - interval, gen⟩

/-- `helper.track(ptr, size)`. -/
def trackAllocation (s : Library) (c : HookCall) (ptr size : ℕ) (isLarge : Bool) : Library :=
  if c.engaged then
    let tracked := s.tracker.trackAllocationS s.thread ptr size isLarge c.alloc
    ⟨tracked.1, tracked.2⟩
  else s

/-- `helper.track(ptr)`, and `track_deallocation_s(ptr)` of the hooks that reallocate. -/
def trackDeallocation (s : Library) (c : HookCall) (ptr : ℕ) (isLarge : Bool) : Library :=
  if c.engaged then { s with tracker := s.tracker.trackDeallocationS ptr isLarge c.dealloc } else s

/-- The old block of a call that reallocates. -/
def trackOld (s : Library) (c : HookCall) (ptr : ℕ) : Library :=
  if ptr ≠ 0 then s.trackDeallocation c ptr false else s

def call (s : Library) (c : HookCall) : Library :=
  match c.hook with
  | .malloc size | .operatorNew size | .mallocx size => s.trackAllocation c c.result size false
  | .calloc nmemb size => s.trackAllocation c c.result (size * nmemb) false
  | .posixMemalign _ size | .alignedAlloc _ size | .memalign _ size | .pvalloc size
  | .valloc size => if c.result ≠ 0 then s.trackAllocation c c.result size false else s
  | .realloc ptr size | .rallocx ptr size =>
    if size ≠ 0 then (s.trackOld c ptr).trackAllocation c c.result size false
    else s.trackOld c ptr
  | .reallocarray ptr nmemb size =>
    if c.result ≠ 0 then (s.trackOld c ptr).trackAllocation c c.result (size * nmemb) false
    else s.trackOld c ptr
  | .xallocx ptr _ _ => (s.trackDeallocation c ptr false).trackAllocation c ptr c.result false
  | .free ptr | .freeSized ptr _ | .freeAlignedSized ptr _ _ | .operatorDelete ptr =>
    s.trackOld c ptr
  | .dallocx ptr | .sdallocx ptr _ => s.trackDeallocation c ptr false
  -- the mappings are compared with the null pointer, not with the value for a failure
  | .mmap addr length fd =>
    if addr = 0 ∧ fd = -1 ∧ c.result ≠ 0 then s.trackAllocation c c.result length true else s
  | .munmap addr _ => s.trackDeallocation c addr true

def step (s : Library) (c : HookCall) : Option Library := some (s.call c)

end Library

/-- The real function has failed. A reallocation to size zero that returns no block has freed
the old one and has not failed. -/
def HookCall.failed (c : HookCall) : Prop :=
  match c.hook with
  | .malloc _ | .operatorNew _ | .mallocx _ | .calloc _ _ | .posixMemalign _ _ | .alignedAlloc _ _
  | .memalign _ _ | .pvalloc _ | .valloc _ => c.result = 0
  | .realloc _ size | .rallocx _ size => c.result = 0 ∧ size ≠ 0
  | .reallocarray _ nmemb size => c.result = 0 ∧ nmemb * size ≠ 0
  | .mmap _ _ _ => c.result = mapFailed
  | _ => False

/-- The address would be found by `track_deallocation`. -/
def Tracker.isTracked (t : Tracker) (ptr : ℕ) : Bool :=
  t.trackDeallocations && (t.bitset.remove ptr false).2

namespace Library

variable {s : Library} {c : HookCall}

/-- Where the failure does not reach the tracker: no bytes are counted for it, and no old
block is forgotten. -/
def Unnoticed (s : Library) (c : HookCall) : Prop :=
  c.engaged = true → s.tracker.active = true →
    match c.hook with
    | .malloc size | .operatorNew size | .mallocx size => size % 2 ^ 64 = 0
    | .calloc nmemb size => size * nmemb % 2 ^ 64 = 0
    | .realloc _ _ | .rallocx _ _ => False
    | .reallocarray ptr _ _ => ptr = 0 ∨ s.tracker.isTracked ptr = false
    | .mmap addr length fd => addr = 0 → fd = -1 → length % 2 ^ 64 = 0
    | _ => True

/-- What a failing call has to leave as it was; the set of tracked addresses stands with
its counts. -/
structure Unaffected (s s' : Library) : Prop where
  remainingBytes : s'.thread.remainingBytes = s.thread.remainingBytes
  bitset : s'.tracker.bitset = s.tracker.bitset
  events : s'.tracker.events = s.tracker.events
  tracked : ∀ ptr, s.tracker.isTracked ptr = true → s'.tracker.isTracked ptr = true

theorem Unaffected.refl (s : Library) : Unaffected s s := ⟨rfl, rfl, rfl, fun _ h => h⟩

/-! ### The bytes that remain -/

theorem trackAllocation_neg (h : s.thread.remainingBytes.toInt < 0) (c : HookCall) (ptr size : ℕ)
    (isLarge : Bool) : (s.trackAllocation c ptr size isLarge).thread.remainingBytes.toInt < 0 := by
  simp only [trackAllocation, Tracker.trackAllocationS]
  split_ifs with _ _ hneg
  · exact hneg
  · exact Sampler.account_neg _
  · exact h
  · exact h

theorem trackDeallocation_thread (s : Library) (c : HookCall) (ptr : ℕ) (isLarge : Bool) :
    (s.trackDeallocation c ptr isLarge).thread = s.thread := by
  rw [trackDeallocation]
  split_ifs <;> rfl

theorem trackOld_thread (s : Library) (c : HookCall) (ptr : ℕ) :
    (s.trackOld c ptr).thread = s.thread := by
  rw [trackOld]
  split_ifs
  · exact trackDeallocation_thread ..
  · rfl

/-- Between two calls a thread has bytes to go to its next sample. -/
theorem call_neg (h : s.thread.remainingBytes.toInt < 0) (c : HookCall) :
    (s.call c).thread.remainingBytes.toInt < 0 := by
  have hold : ∀ ptr, (s.trackOld c ptr).thread.remainingBytes.toInt < 0 := fun ptr => by
    rwa [trackOld_thread]
  have hdealloc : ∀ ptr isLarge,
      (s.trackDeallocation c ptr isLarge).thread.remainingBytes.toInt < 0 := fun ptr isLarge => by
    rwa [trackDeallocation_thread]
  rw [call]
  cases c.hook with
  | malloc _ | operatorNew _ | mallocx _ | calloc _ _ => exact trackAllocation_neg h ..
  | posixMemalign _ _ | alignedAlloc _ _ | memalign _ _ | pvalloc _ | valloc _ | mmap _ _ _ =>
    simp only
    split_ifs
    · exact trackAllocation_neg h ..
    · exact h
  | realloc ptr _ | rallocx ptr _ | reallocarray ptr _ _ =>
    simp only
    split_ifs
    · exact trackAllocation_neg (hold ptr) ..
    · exact hold ptr
  | xallocx ptr _ _ => exact trackAllocation_neg (hdealloc ptr false) ..
  | free ptr | freeSized ptr _ | freeAlignedSized ptr _ _ | operatorDelete ptr => exact hold ptr
  | dallocx ptr | sdallocx ptr _ | munmap ptr _ => exact hdealloc ..

theorem init_neg (sampler : Sampler) (trackDeallocations : Bool) :
    (init sampler trackDeallocations).thread.remainingBytes.toInt < 0 := by
  have hpos := Sampler.nextSampleInterval_pos (s := sampler) 0
  have hsub := Sampler.toInt_sub_of_pos (r := 0) le_rfl hpos
  have hzero : (0 : BitVec 64).toInt = 0 := rfl
  change (0 - (sampler.nextSampleInterval 0).1).toInt < 0
  omega

/-! ### Failing calls -/

theorem add_ofNat_of_mod {size : ℕ} (r : BitVec 64) (h : size % 2 ^ 64 = 0) :
    r + BitVec.ofNat 64 size = r := by
  have hzero : BitVec.ofNat 64 size = 0#64 := by
    apply BitVec.eq_of_toNat_eq
    rw [BitVec.toNat_ofNat, h]
    rfl
  rw [hzero, BitVec.add_zero]

theorem trackAllocation_eq (hneg : s.thread.remainingBytes.toInt < 0) {size : ℕ}
    (hsize : c.engaged = true → s.tracker.active = true → size % 2 ^ 64 = 0) (ptr : ℕ)
    (isLarge : Bool) : s.trackAllocation c ptr size isLarge = s := by
  simp only [trackAllocation, Tracker.trackAllocationS]
  split_ifs with hengaged hactive hlt
  · rw [add_ofNat_of_mod _ (hsize hengaged hactive)]
  · rw [add_ofNat_of_mod _ (hsize hengaged hactive)] at hlt
    exact absurd hneg hlt
  · rfl
  · rfl

theorem trackOld_eq {ptr : ℕ}
    (h : c.engaged = true → s.tracker.active = true → ptr = 0 ∨ s.tracker.isTracked ptr = false) :
    s.trackOld c ptr = s := by
  simp only [trackOld, trackDeallocation, Tracker.trackDeallocationS, Tracker.trackDeallocation]
  split_ifs with hptr hengaged hactive htrack hremoved
  · rcases h hengaged hactive with hzero | huntracked
    · exact absurd hzero hptr
    · rw [Tracker.isTracked, htrack, hremoved] at huntracked
      cases huntracked
  · rw [((AddressBitset.remove_cases _ _ _).resolve_left fun h => hremoved h.1).2]
  · rfl
  · rfl
  · rfl
  · rfl

theorem call_eq_of_failed (hneg : s.thread.remainingBytes.toInt < 0) (hfailed : c.failed)
    (h : s.Unnoticed c) : s.call c = s := by
  unfold Unnoticed at h
  unfold HookCall.failed at hfailed
  rw [call]
  cases hhook : c.hook with
  | malloc size | operatorNew size | mallocx size | calloc nmemb size =>
    rw [hhook] at h
    exact trackAllocation_eq hneg h ..
  | posixMemalign _ _ | alignedAlloc _ _ | memalign _ _ | pvalloc _ | valloc _ =>
    rw [hhook] at hfailed
    exact if_neg (not_not.mpr hfailed)
  | realloc ptr size | rallocx ptr size =>
    rw [hhook] at h hfailed
    simp only [if_pos hfailed.2]
    rw [trackOld_eq fun hengaged hactive => (h hengaged hactive).elim]
    exact trackAllocation_eq hneg (fun hengaged hactive => (h hengaged hactive).elim) ..
  | reallocarray ptr nmemb size =>
    rw [hhook] at h hfailed
    simp only [hfailed.1, ne_eq, not_true_eq_false, if_false]
    exact trackOld_eq h
  | mmap addr length fd =>
    rw [hhook] at h
    simp only
    split_ifs with hmapping
    · exact trackAllocation_eq hneg (fun hengaged hactive =>
        h hengaged hactive hmapping.1 hmapping.2.1) ..
    · rfl
  | _ =>
    rw [hhook] at hfailed
    exact hfailed.elim

/-- In every state that a sequence of hooked calls reaches, whatever their outcomes, a failing
call that is not noticed leaves everything as it was. -/
theorem run_unaffected {sampler : Sampler} {trackDeallocations : Bool} {cs : List HookCall}
    (hrun : Run.steps step (init sampler trackDeallocations) cs = some s) (c : HookCall)
    (hfailed : c.failed) (h : s.Unnoticed c) : Unaffected s (s.call c) := by
  have hstep : ∀ s c s', s.thread.remainingBytes.toInt < 0 → step s c = some s' →
      s'.thread.remainingBytes.toInt < 0 := by
    intro s c s' hneg hs
    cases hs
    exact call_neg hneg c
  have hneg := Run.steps_keep hstep (init_neg sampler trackDeallocations) hrun
  rw [call_eq_of_failed hneg hfailed h]
  exact .refl s

def afterMalloc : Library := (init Tracker.sampleAll true).call
  { hook := .malloc 16, result := 0x10000 }

theorem steps_afterMalloc : Run.steps step (init Tracker.sampleAll true)
    [{ hook := .malloc 16, result := 0x10000 }] = some afterMalloc := rfl

/-- A failing `reallocarray` of another block. -/
theorem run_unaffected_reallocarray :
    Unaffected afterMalloc (afterMalloc.call { hook := .reallocarray 0x20000 4 8 }) :=
  run_unaffected steps_afterMalloc { hook := .reallocarray 0x20000 4 8 } ⟨rfl, by decide⟩
    fun _ _ => .inr (by decide +kernel)

/-- A failing `realloc` of the block: the program still has it, and it is no longer tracked. -/
theorem realloc_failure_untracks :
    ∃ s, Run.steps step (init Tracker.sampleAll true)
        [{ hook := .malloc 16, result := 0x10000 }] = some s ∧
      s.tracker.isTracked 0x10000 = true ∧ HookCall.failed { hook := .realloc 0x10000 32 } ∧
      (s.call { hook := .realloc 0x10000 32 }).tracker.isTracked 0x10000 = false ∧
      ¬ Unaffected s (s.call { hook := .realloc 0x10000 32 }) := by
  have htracked : afterMalloc.tracker.isTracked 0x10000 = true := by decide +kernel
  have hlost : (afterMalloc.call { hook := .realloc 0x10000 32 }).tracker.isTracked 0x10000 =
      false := by decide +kernel
  refine ⟨afterMalloc, steps_afterMalloc, htracked, ⟨rfl, by decide⟩, hlost, fun h => ?_⟩
  rw [h.tracked 0x10000 htracked] at hlost
  cases hlost

end Library

end Ddprof
