import Ddprof.AllocationTracker.Hooks
import Ddprof.Lib.Run

/-!
Who is in charge of an address.

At any time an address is in the hands of at most one party: the allocator, the
program, or a thread in the middle of a hooked call. A thread that has the
address knows what the three records of it say: whether it is allocated, whether
it is in the set of tracked addresses, and whether the events pushed so far leave
it live. What it may expect is read off the program it still has to run.
-/

namespace Ddprof

/-! ### The records of an address -/

def liveStep (a : ℕ) (live : Bool) : TrackerEvent → Bool
  | .allocation addr _ => if addr = a ∧ addr ≠ 0 then true else live
  | .deallocation ptr => if ptr = a then false else live

def liveAfter (events : List TrackerEvent) (a : ℕ) : Bool := events.foldl (liveStep a) false

theorem liveAfter_allocation {events : List TrackerEvent} {a addr : ℕ} {period : BitVec 64}
    (haddr : addr ≠ 0) : liveAfter (events ++ [.allocation addr period]) a =
      if addr = a then true else liveAfter events a := by
  simp [liveAfter, liveStep, haddr]

theorem liveAfter_deallocation {events : List TrackerEvent} {a ptr : ℕ} :
    liveAfter (events ++ [.deallocation ptr]) a =
      if ptr = a then false else liveAfter events a := by
  simp [liveAfter, liveStep]

inductive SetStage
  | absent
  | present
  | calling (op : BitsetOp)
  /-- Present, and about to be pushed as `addr`. -/
  | pushing (addr : ℕ)
  deriving DecidableEq, Repr

structure Stage where
  allocated : Bool
  inSet : SetStage
  live : Bool
  deriving DecidableEq, Repr

namespace Stage

def gone : Stage := ⟨false, .absent, false⟩

/-- Handed out by the allocator, and in no other record. -/
def untracked : Stage := ⟨true, .absent, false⟩

def tracked : Stage := ⟨true, .present, true⟩

end Stage

namespace Process

def SetAgrees (b : AddressBitset) (a : ℕ) (isLarge : Bool) : SetStage → Prop
  | .absent => b.Absent a
  | .present => b.Present a isLarge
  | .calling op => op.addr = a ∧ op.isLargeAlloc = isLarge ∧ b.Knows op
  | .pushing addr => addr = a ∧ b.Present a isLarge

structure Agrees (s : Process) (a : ℕ) (isLarge : Bool) (st : Stage) : Prop where
  allocated : a ∈ s.allocated ↔ st.allocated = true
  inSet : SetAgrees s.bitset a isLarge st.inSet
  live : liveAfter s.events a = st.live

structure Gone (s : Process) (a : ℕ) : Prop where
  allocated : a ∉ s.allocated
  inSet : ¬ s.bitset.Contains a
  live : liveAfter s.events a = false

/-! ### What a program expects of its block -/

/-- Whether the block is still allocated when `rest` follows the tracking of a
deallocation. -/
def afterTracking (rest : List Instr) (st : Option Stage) : Option Bool :=
  if rest = [] then some false else if st = some .untracked then some true else none

def startsTracking : List Instr → Bool
  | .trackAllocation _ :: _ => true
  | _ => false

/-- The programs that may follow a call of the allocator that returns no block. -/
def endsNull (rest : List Instr) : Bool := rest = [.ret] ∨ rest = [.trackAllocation true, .ret]

/-- The calls of the allocator that hand out a block are followed by its tracking. -/
def Reallocates (size : ℕ) (rest : List Instr) (st : Option Stage) : Prop :=
  (startsTracking rest = true → st = some .untracked) ∧ (size = 0 → endsNull rest = true)

instance (size : ℕ) (rest : List Instr) (st : Option Stage) :
    Decidable (Reallocates size rest st) := inferInstanceAs (Decidable (_ ∧ _))

/-- The stage of the block of a program; `none` for what is not the rest of a hook. -/
def stage : List Instr → Option Stage
  | [] => some .gone
  | .ret :: rest => if rest = [] then some .tracked else none
  | .release :: rest =>
    if rest = [] then some .untracked
    else if rest = [.trackDeallocation] then some .tracked
    else none
  | .reallocate size :: rest =>
    if Reallocates size rest (stage rest) then some .untracked else none
  | .resize :: rest => if stage rest = some .untracked then some .untracked else none
  | .trackAllocation _ :: rest =>
    if stage rest = some .tracked then some .untracked else none
  | .adding op _ :: rest =>
    if stage rest = some .tracked then some ⟨true, .calling op, false⟩ else none
  | .pushAlloc addr _ :: rest =>
    if stage rest = some .tracked then some ⟨true, .pushing addr, false⟩ else none
  | .commitAlloc _ :: rest => if stage rest = some .tracked then some .tracked else none
  | .trackDeallocation :: rest =>
    (afterTracking rest (stage rest)).map fun allocated => ⟨allocated, .present, true⟩
  | .removing op :: rest =>
    (afterTracking rest (stage rest)).map fun allocated => ⟨allocated, .calling op, true⟩
  | .pushDealloc :: rest =>
    (afterTracking rest (stage rest)).map fun allocated => ⟨allocated, .absent, true⟩
  | .commitDealloc :: rest =>
    (afterTracking rest (stage rest)).map fun allocated => ⟨allocated, .absent, false⟩
  | .allocate :: _ | .undoing _ :: _ => none

def NullProgram : List Instr → Prop
  | [] => True
  | .allocate :: rest => startsTracking rest = true → stage rest = some .untracked
  | .reallocate size :: rest => Reallocates size rest (stage rest)
  | todo => endsNull todo = true

/-- The program of a frame is the rest of a hook. -/
def WellFormed (f : Frame) : Prop :=
  f.ptr = 0 ∧ NullProgram f.todo ∨ IsAddress f.ptr ∧ ∃ st, stage f.todo = some st

theorem reallocates_unless_zero (size : ℕ) :
    let rest := (if size ≠ 0 then [Instr.trackAllocation false] else []) ++ [.ret]
    Reallocates size rest (stage rest) := by
  by_cases hsize : size = 0
  · simp only [hsize, ne_eq, not_true_eq_false, if_false]
    exact ⟨by decide, fun _ => by decide⟩
  · simp only [hsize, ne_eq, not_false_eq_true, if_true]
    exact ⟨fun _ => by decide, fun h => absurd h hsize⟩

theorem stage_reallocating {ptr size : ℕ} {track : List Instr} (hptr : ptr ≠ 0)
    (h : Reallocates size (track ++ [.ret]) (stage (track ++ [.ret]))) :
    stage (Hook.reallocating ptr size track) = some .tracked := by
  rw [Hook.reallocating, if_pos hptr]
  have hrest : stage (.reallocate size :: (track ++ [.ret])) = some .untracked := if_pos h
  change (afterTracking _ (stage (.reallocate size :: (track ++ [.ret])))).map _ = _
  rw [hrest]
  rfl

theorem stage_freeing {ptr : ℕ} (hptr : ptr ≠ 0) : stage (Hook.freeing ptr) = some .tracked := by
  rw [Hook.freeing, if_neg hptr]
  rfl

theorem stage_body (hook : Hook) (harg : hook.arg ≠ 0) : stage hook.body = some .tracked := by
  cases hook with
  | realloc ptr size => exact stage_reallocating harg (reallocates_unless_zero size)
  | reallocarray ptr nmemb size =>
    exact stage_reallocating harg ⟨fun _ => by decide, fun _ => by decide⟩
  | rallocx ptr size => exact stage_reallocating harg (reallocates_unless_zero size)
  | free ptr | freeSized ptr | freeAlignedSized ptr | operatorDelete ptr =>
    exact stage_freeing harg
  | xallocx | dallocx | sdallocx | munmap => rfl
  | malloc | operatorNew | calloc | posixMemalign | alignedAlloc | memalign | pvalloc | valloc
  | mallocx | mmap => exact absurd rfl harg

theorem nullProgram_body (hook : Hook) (harg : hook.arg = 0) (hnull : hook.acceptsNull = true) :
    NullProgram hook.body := by
  cases hook with
  | realloc ptr size =>
    obtain rfl : ptr = 0 := harg
    exact reallocates_unless_zero size
  | reallocarray ptr nmemb size =>
    obtain rfl : ptr = 0 := harg
    exact ⟨fun _ => by decide, fun _ => by decide⟩
  | rallocx ptr size =>
    obtain rfl : ptr = 0 := harg
    exact reallocates_unless_zero size
  | free ptr | freeSized ptr | freeAlignedSized ptr | operatorDelete ptr =>
    obtain rfl : ptr = 0 := harg
    trivial
  | xallocx | dallocx | sdallocx | munmap => cases hnull
  | malloc | operatorNew | calloc | posixMemalign | alignedAlloc | memalign | pvalloc | valloc
  | mallocx => exact fun _ => rfl
  | mmap addr length fd =>
    rw [Hook.body]
    split_ifs
    · exact fun _ => rfl
    · exact fun h => absurd h (by decide)

/-! ### Custody -/

variable {s s' : Process} {a k : ℕ} {isLarge : Bool} {st : Stage} {f : Frame}

/-- The frame is about the address and is not done with its records. -/
def Has (f : Frame) (a : ℕ) : Prop := f.ptr = a ∧ a ≠ 0 ∧ stage f.todo ≠ some .gone

def Owns (s : Process) (thread a : ℕ) : Prop :=
  ∃ f, AList.lookup thread s.threads = some f ∧ Has f a

/-- The address is with the allocator, with the program or with one thread, and its
records are as that party expects. -/
inductive Custody (s : Process) (a : ℕ) : Prop
  | allocator (hthreads : ∀ i, ¬ s.Owns i a) (hheld : ∀ isLarge, (a, isLarge) ∉ s.held)
      (hgone : s.Gone a)
  | program (isLarge : Bool) (hthreads : ∀ i, ¬ s.Owns i a)
      (hheld : ∀ l, (a, l) ∈ s.held ↔ l = isLarge) (haddr : IsAddress a)
      (hagrees : s.Agrees a isLarge .tracked)
  | thread (i : ℕ) (f : Frame) (st : Stage) (hf : AList.lookup i s.threads = some f)
      (hptr : f.ptr = a) (hst : stage f.todo = some st) (hne : st ≠ .gone)
      (hthreads : ∀ j, s.Owns j a → j = i) (hheld : ∀ isLarge, (a, isLarge) ∉ s.held)
      (haddr : IsAddress a) (hagrees : s.Agrees a f.isLarge st)

structure Inv (s : Process) : Prop where
  active : s.active = true
  trackDeallocations : s.trackDeallocations = true
  frames : ∀ i f, AList.lookup i s.threads = some f → WellFormed f
  custody : ∀ a, s.Custody a

/-! ### Changes to the records of one address -/

/-- The records change for the address `k` only. -/
structure LocalTo (k : ℕ) (s s' : Process) : Prop where
  allocated : ∀ a ≠ k, a ∈ s'.allocated ↔ a ∈ s.allocated
  bitset : AddressBitset.Evolves k s.bitset s'.bitset
  live : ∀ a ≠ k, liveAfter s'.events a = liveAfter s.events a

theorem LocalTo.gone (h : LocalTo k s s') (hne : a ≠ k) (hgone : s.Gone a) : s'.Gone a := by
  refine ⟨fun ha => hgone.allocated ((h.allocated a hne).mp ha), ?_, ?_⟩
  · rintro ⟨h0, h1, shard, slot, hholds⟩
    exact hgone.inSet ⟨h0, h1, shard, slot, (h.bitset.holds_iff ⟨h0, h1⟩ hne).mp hholds⟩
  · rw [h.live a hne, hgone.live]

theorem LocalTo.agrees (h : LocalTo k s s') (hk : IsAddress k) (ha : IsAddress a) (hne : a ≠ k)
    (hagrees : s.Agrees a isLarge st) : s'.Agrees a isLarge st := by
  refine ⟨(h.allocated a hne).trans hagrees.allocated, ?_, (h.live a hne).trans hagrees.live⟩
  have hset := hagrees.inSet
  cases hst : st.inSet with
  | absent =>
    rw [hst] at hset
    exact h.bitset.absent ha hne hset
  | present =>
    rw [hst] at hset
    exact h.bitset.present hk ha hne hset
  | calling op =>
    rw [hst] at hset
    obtain ⟨haddr, hlarge, hknows⟩ := hset
    subst haddr
    exact ⟨rfl, hlarge, hknows.evolves h.bitset hk ha hne⟩
  | pushing addr =>
    rw [hst] at hset
    exact ⟨hset.1, h.bitset.present hk ha hne hset.2⟩

/-- The other addresses keep their custodians when a thread changes the records of its
own address and moves on. -/
theorem Custody.frame (hcustody : s.Custody a) (h : LocalTo k s s') (hk : IsAddress k)
    (hne : a ≠ k) (hheld : ∀ l, (a, l) ∈ s'.held ↔ (a, l) ∈ s.held)
    (hthreads : ∀ i f, Has f a →
      (AList.lookup i s'.threads = some f ↔ AList.lookup i s.threads = some f)) :
    s'.Custody a := by
  have howns : ∀ i, s'.Owns i a ↔ s.Owns i a := fun i => exists_congr fun f =>
    and_congr_left (hthreads i f)
  cases hcustody with
  | allocator hno hnot hgone =>
    exact .allocator (fun i hi => hno i ((howns i).mp hi))
      (fun l hl => hnot l ((hheld l).mp hl)) (h.gone hne hgone)
  | program isLarge hno hin haddr hagrees =>
    exact .program isLarge (fun i hi => hno i ((howns i).mp hi))
      (fun l => (hheld l).trans (hin l)) haddr (h.agrees hk haddr hne hagrees)
  | thread i f st hf hptr hst hgone honly hnot haddr hagrees =>
    have hhas : Has f a := ⟨hptr, haddr.1, by rw [hst]; simpa using hgone⟩
    exact .thread i f st ((hthreads i f hhas).mpr hf) hptr hst hgone
      (fun j hj => honly j ((howns j).mp hj)) (fun l hl => hnot l ((hheld l).mp hl)) haddr
      (h.agrees hk haddr hne hagrees)

/-! ### A thread moves on -/

/-- The parts of the state that the steps of the tracker leave alone. -/
structure SameRest (s s' : Process) : Prop where
  active : s'.active = s.active
  trackDeallocations : s'.trackDeallocations = s.trackDeallocations
  held : s'.held = s.held
  threads : s'.threads = s.threads

theorem SameRest.refl : SameRest s s := ⟨rfl, rfl, rfl, rfl⟩

theorem LocalTo.refl : LocalTo k s s := ⟨fun _ _ => Iff.rfl, .refl, fun _ _ => rfl⟩

variable {i : ℕ} {f' : Frame} {st' : Stage}

theorem lookup_setThread_ne {j : ℕ} (h : j ≠ i) :
    AList.lookup j (s.setThread i f').threads = AList.lookup j s.threads :=
  AList.lookup_insert_ne h

theorem lookup_setThread_self : AList.lookup i (s.setThread i f').threads = some f' :=
  AList.lookup_insert _

theorem owns_setThread_self : (s.setThread i f').Owns i a ↔ Has f' a := by
  unfold Owns
  rw [lookup_setThread_self]
  constructor
  · rintro ⟨g, hg, h⟩
    cases hg
    exact h
  · exact fun h => ⟨f', rfl, h⟩

theorem owns_setThread_ne {j : ℕ} (h : j ≠ i) : (s.setThread i f').Owns j a ↔ s.Owns j a := by
  unfold Owns
  rw [lookup_setThread_ne h]

theorem owns_of_setThread {j : ℕ} (hthreads : s'.threads = s.threads) (hj : j ≠ i)
    (h : (s'.setThread i f').Owns j a) : s.Owns j a := by
  rw [owns_setThread_ne hj] at h
  rwa [Owns, hthreads] at h

/-- Frames that do not have the address take no part in its custody. -/
theorem lookup_setThread_other (hthreads : s'.threads = s.threads)
    (hne : ∀ f, AList.lookup i s.threads = some f → ¬ Has f a) (hne' : ¬ Has f' a) (j : ℕ)
    (g : Frame) (hg : Has g a) :
    AList.lookup j (s'.setThread i f').threads = some g ↔ AList.lookup j s.threads = some g := by
  by_cases hj : j = i
  · subst hj
    rw [lookup_setThread_self]
    exact iff_of_false (fun h => hne' (Option.some.inj h ▸ hg)) fun h => hne g h hg
  · rw [lookup_setThread_ne hj, hthreads]

theorem forall_lookup (hf : AList.lookup i s.threads = some f) (h : ¬ Has f a) (g : Frame)
    (hg : AList.lookup i s.threads = some g) : ¬ Has g a := by
  rwa [← Option.some.inj (hf.symm.trans hg)]

theorem Inv.owner (h : s.Inv) (hf : AList.lookup i s.threads = some f) (hptr : IsAddress f.ptr)
    (hst : stage f.todo = some st) (hgone : st ≠ .gone) :
    s.Agrees f.ptr f.isLarge st ∧ (∀ j, s.Owns j f.ptr → j = i) ∧
      ∀ l, (f.ptr, l) ∉ s.held := by
  have howns : s.Owns i f.ptr := ⟨f, hf, rfl, hptr.1, by rw [hst]; simpa using hgone⟩
  cases h.custody f.ptr with
  | allocator hno => exact absurd howns (hno i)
  | program _ hno => exact absurd howns (hno i)
  | thread j g st₀ hg _ hst₀ _ honly hnot _ hagrees =>
    obtain rfl := honly i howns
    rw [hf] at hg
    cases hg
    rw [hst] at hst₀
    cases hst₀
    exact ⟨hagrees, honly, hnot⟩

theorem Inv.frames_setThread (h : s.Inv) (hthreads : s'.threads = s.threads)
    (hf' : WellFormed f') (j : ℕ) (g : Frame)
    (hg : AList.lookup j (s'.setThread i f').threads = some g) : WellFormed g := by
  by_cases hj : j = i
  · subst hj
    rw [lookup_setThread_self] at hg
    cases hg
    exact hf'
  · rw [lookup_setThread_ne hj, hthreads] at hg
    exact h.frames j g hg

/-- A thread takes a step that changes the records of its address. -/
theorem Inv.advance (h : s.Inv) (hf : AList.lookup i s.threads = some f) (hptr : IsAddress f.ptr)
    (hst : stage f.todo = some st) (hgone : st ≠ .gone) (hlocal : LocalTo f.ptr s s')
    (hrest : SameRest s s') (hptr' : f'.ptr = f.ptr) (hst' : stage f'.todo = some st')
    (hnew : st' = .gone ∧ s'.Gone f.ptr ∨ st' ≠ .gone ∧ s'.Agrees f.ptr f'.isLarge st') :
    (s'.setThread i f').Inv := by
  obtain ⟨_, honly, hnot⟩ := h.owner hf hptr hst hgone
  have hother : ∀ j ≠ i, ¬ (s'.setThread i f').Owns j f.ptr := fun j hj howns =>
    hj (honly j (owns_of_setThread hrest.threads hj howns))
  refine ⟨hrest.active.trans h.active, hrest.trackDeallocations.trans h.trackDeallocations,
    h.frames_setThread hrest.threads (.inr ⟨hptr'.symm ▸ hptr, st', hst'⟩), fun a => ?_⟩
  by_cases ha : a = f.ptr
  · subst ha
    rcases hnew with ⟨rfl, hgone'⟩ | ⟨hne', hagrees'⟩
    · refine .allocator (fun j hj => ?_) (fun l => by rw [setThread, hrest.held]; exact hnot l)
        ⟨hgone'.1, hgone'.2, hgone'.3⟩
      by_cases hji : j = i
      · subst hji
        exact (owns_setThread_self.mp hj).2.2 hst'
      · exact hother j hji hj
    · refine .thread i f' st' lookup_setThread_self hptr' hst' hne' (fun j hj => ?_)
        (fun l => by rw [setThread, hrest.held]; exact hnot l) hptr
        ⟨hagrees'.1, hagrees'.2, hagrees'.3⟩
      by_contra hji
      exact hother j hji hj
  · have hlocal' : LocalTo f.ptr s (s'.setThread i f') := ⟨hlocal.1, hlocal.2, hlocal.3⟩
    refine (h.custody a).frame hlocal' hptr ha (fun l => by rw [setThread, hrest.held]) ?_
    exact lookup_setThread_other hrest.threads (forall_lookup hf fun hhas => ha hhas.1.symm)
      fun hhas => ha (hhas.1.symm.trans hptr')

structure SameRecords (s s' : Process) : Prop where
  allocated : s'.allocated = s.allocated
  bitset : s'.bitset = s.bitset
  events : s'.events = s.events

theorem SameRecords.agrees (h : SameRecords s s') (hagrees : s.Agrees a isLarge st) :
    s'.Agrees a isLarge st :=
  ⟨by rw [h.allocated]; exact hagrees.1, by rw [h.bitset]; exact hagrees.2,
    by rw [h.events]; exact hagrees.3⟩

theorem SameRecords.gone (h : SameRecords s s') (hgone : s.Gone a) : s'.Gone a :=
  ⟨by rw [h.allocated]; exact hgone.1, by rw [h.bitset]; exact hgone.2,
    by rw [h.events]; exact hgone.3⟩

/-- A thread takes a step that changes no record and leaves it the same stage. -/
theorem Inv.skip (h : s.Inv) (hf : AList.lookup i s.threads = some f) (hrec : SameRecords s s')
    (hrest : SameRest s s') (hptr' : f'.ptr = f.ptr) (hlarge' : f'.isLarge = f.isLarge)
    (hst' : f.ptr ≠ 0 → stage f'.todo = stage f.todo) (hwf : WellFormed f') :
    (s'.setThread i f').Inv := by
  have howns : ∀ j a, (s'.setThread i f').Owns j a ↔ s.Owns j a := by
    intro j a
    by_cases hj : j = i
    · subst hj
      rw [owns_setThread_self, Has, hptr']
      constructor
      · rintro ⟨rfl, ha, hst⟩
        exact ⟨f, hf, rfl, ha, by rwa [← hst' ha]⟩
      · rintro ⟨g, hg, rfl, ha, hst⟩
        rw [hf] at hg
        cases hg
        exact ⟨rfl, ha, by rwa [hst' ha]⟩
    · rw [owns_setThread_ne hj]
      unfold Owns
      rw [hrest.threads]
  have hrec' : SameRecords s (s'.setThread i f') := ⟨hrec.1, hrec.2, hrec.3⟩
  have hheld : (s'.setThread i f').held = s.held := hrest.held
  refine ⟨hrest.active.trans h.active, hrest.trackDeallocations.trans h.trackDeallocations,
    h.frames_setThread hrest.threads hwf, fun a => ?_⟩
  cases h.custody a with
  | allocator hno hnot hgone =>
    exact .allocator (fun j hj => hno j ((howns j a).mp hj)) (by rwa [hheld]) (hrec'.gone hgone)
  | program isLarge hno hin haddr hagrees =>
    exact .program isLarge (fun j hj => hno j ((howns j a).mp hj)) (by rwa [hheld]) haddr
      (hrec'.agrees hagrees)
  | thread j g st hg hptr hst hgone honly hnot haddr hagrees =>
    have honly' : ∀ j', (s'.setThread i f').Owns j' a → j' = j :=
      fun j' hj' => honly j' ((howns j' a).mp hj')
    by_cases hj : j = i
    · subst hj
      rw [hf] at hg
      cases hg
      refine .thread j f' st lookup_setThread_self (hptr'.trans hptr) ?_ hgone honly'
        (by rwa [hheld]) haddr (hlarge' ▸ hrec'.agrees hagrees)
      rw [hst' (hptr ▸ haddr.1), hst]
    · exact .thread j g st (by rw [lookup_setThread_ne hj, hrest.threads, hg]) hptr hst hgone
        honly' (by rwa [hheld]) haddr (hrec'.agrees hagrees)

theorem Inv.acquire (h : s.Inv) (hf : AList.lookup i s.threads = some f)
    (hnone : f.ptr ≠ 0 → stage f.todo = some .gone) (ha : IsAddress a) (hcustody : s.Gone a)
    (hno : ∀ j, ¬ s.Owns j a) (hnot : ∀ l, (a, l) ∉ s.held) (hptr' : f'.ptr = a)
    (hst' : stage f'.todo = some .untracked) : ((s.allocate a).setThread i f').Inv := by
  have hallocate : s.allocate a = { s with allocated := insert a s.allocated } := if_neg ha.1
  have hrest : SameRest s (s.allocate a) := by
    rw [hallocate]
    exact ⟨rfl, rfl, rfl, rfl⟩
  have hlocal : LocalTo a s ((s.allocate a).setThread i f') := by
    rw [hallocate]
    refine ⟨fun b hb => ?_, .refl, fun _ _ => rfl⟩
    exact ⟨fun hmem => (Finset.mem_insert.mp hmem).resolve_left hb, Finset.mem_insert_of_mem⟩
  refine ⟨hrest.active.trans h.active, hrest.trackDeallocations.trans h.trackDeallocations,
    h.frames_setThread hrest.threads (.inr ⟨hptr'.symm ▸ ha, _, hst'⟩), fun b => ?_⟩
  by_cases hb : b = a
  · subst hb
    refine .thread i f' .untracked lookup_setThread_self hptr' hst' (by decide) (fun j hj => ?_)
      (fun l => by rw [setThread, hrest.held]; exact hnot l) ha ?_
    · by_contra hji
      exact hno j (owns_of_setThread hrest.threads hji hj)
    · rw [hallocate]
      refine ⟨by simp [setThread, Stage.untracked], fun shard slot hholds => ?_, hcustody.live⟩
      exact hcustody.inSet ⟨ha.1, ha.2, shard, slot, hholds⟩
  · refine (h.custody b).frame hlocal ha hb (fun l => by rw [setThread, hrest.held]) ?_
    have hfree : ¬ Has f b := fun hhas => hhas.2.2 (hnone (hhas.1.symm ▸ hhas.2.1))
    exact lookup_setThread_other hrest.threads (forall_lookup hf hfree)
      fun hhas => hb (hhas.1.symm.trans hptr')

/-! ### Calls begin and end -/

/-- The custody of an address only depends on its records, on what the program has and
on the frames that have it. -/
theorem Custody.congr (hcustody : s.Custody a) (hrec : SameRecords s s')
    (hheld : ∀ l, (a, l) ∈ s'.held ↔ (a, l) ∈ s.held)
    (hthreads : ∀ i f, Has f a →
      (AList.lookup i s'.threads = some f ↔ AList.lookup i s.threads = some f)) :
    s'.Custody a := by
  have hlocal : LocalTo (a + 2) s s' :=
    ⟨fun _ _ => by rw [hrec.allocated], by rw [hrec.bitset]; exact .refl,
      fun _ _ => by rw [hrec.events]⟩
  exact hcustody.frame hlocal ⟨by simp [emptySlot], by simp [deletedSlot]⟩ (by omega) hheld hthreads

theorem not_has_of_nil {f : Frame} (hf : f.todo = []) : ¬ Has f a := by
  rintro ⟨_, _, hst⟩
  rw [hf] at hst
  exact hst rfl

theorem Inv.replace (h : s.Inv) (hf : AList.lookup i s.threads = some f) (hnone : ∀ a, ¬ Has f a)
    (hnone' : ∀ a, ¬ Has f' a) (hwf : WellFormed f') : (s.setThread i f').Inv :=
  ⟨h.active, h.trackDeallocations, h.frames_setThread rfl hwf, fun a =>
    (h.custody a).congr ⟨rfl, rfl, rfl⟩ (fun _ => Iff.rfl)
      (lookup_setThread_other rfl (forall_lookup hf (hnone a)) (hnone' a))⟩

theorem setThread_setThread (g : Frame) :
    (s.setThread i g).setThread i f' = s.setThread i f' := by
  rw [setThread, setThread, setThread, AList.insert_insert]

theorem allocate_setThread (g : Frame) :
    (s.setThread i g).allocate a = (s.allocate a).setThread i g := by
  unfold allocate
  split_ifs <;> rfl

theorem Inv.handOver (h : s.Inv) (hf : AList.lookup i s.threads = some f) (hptr : IsAddress f.ptr)
    (hst : stage f.todo = some .tracked) (hnil : f'.todo = []) (hptr' : f'.ptr = f.ptr) :
    ((s.hold f.ptr f.isLarge).setThread i f').Inv := by
  obtain ⟨hagrees, honly, hnot⟩ := h.owner hf hptr hst (by decide)
  have hhold : s.hold f.ptr f.isLarge =
      { s with held := insert (f.ptr, f.isLarge) s.held } := if_neg hptr.1
  rw [hhold]
  refine ⟨h.active, h.trackDeallocations,
    h.frames_setThread rfl (.inr ⟨hptr'.symm ▸ hptr, .gone, by rw [hnil]; rfl⟩), fun a => ?_⟩
  by_cases ha : a = f.ptr
  · subst ha
    refine .program f.isLarge (fun j hj => ?_) (fun l => ?_) hptr
      ⟨hagrees.1, hagrees.2, hagrees.3⟩
    · by_cases hji : j = i
      · subst hji
        exact not_has_of_nil hnil (owns_setThread_self.mp hj)
      · exact hji (honly j (owns_of_setThread rfl hji hj))
    · simp [setThread, hnot l]
  · refine (h.custody a).congr ⟨rfl, rfl, rfl⟩ (fun l => by simp [setThread, ha]) ?_
    exact lookup_setThread_other rfl (forall_lookup hf fun hhas => ha hhas.1.symm)
      (not_has_of_nil hnil)

theorem Inv.leave (h : s.Inv) (hf : AList.lookup i s.threads = some f) (hnil : f.todo = []) :
    (s.endThread i).Inv := by
  have hlookup : ∀ j, j ≠ i →
      AList.lookup j (s.endThread i).threads = AList.lookup j s.threads := fun j hj =>
    AList.lookup_erase_ne hj
  have hself : AList.lookup i (s.endThread i).threads = none := AList.lookup_erase _ _
  refine ⟨h.active, h.trackDeallocations, fun j g hg => ?_, fun a => ?_⟩
  · by_cases hj : j = i
    · rw [hj, hself] at hg
      cases hg
    · rw [hlookup j hj] at hg
      exact h.frames j g hg
  · refine (h.custody a).congr ⟨rfl, rfl, rfl⟩ (fun _ => Iff.rfl) fun j g hg => ?_
    by_cases hj : j = i
    · subst hj
      rw [hself]
      exact iff_of_false nofun fun h => forall_lookup hf (not_has_of_nil hnil) g h hg
    · rw [hlookup j hj]

theorem Inv.enterNull (h : s.Inv) (hidle : AList.lookup i s.threads = none) (hptr : f.ptr = 0)
    (hnull : NullProgram f.todo) : (s.setThread i f).Inv := by
  refine ⟨h.active, h.trackDeallocations, h.frames_setThread rfl (.inl ⟨hptr, hnull⟩),
    fun a => ?_⟩
  exact (h.custody a).congr ⟨rfl, rfl, rfl⟩ (fun _ => Iff.rfl) <| lookup_setThread_other rfl
    (by simp [hidle]) fun hhas => hhas.2.1 (hhas.1.symm.trans hptr)

theorem Inv.takeOver (h : s.Inv) (hidle : AList.lookup i s.threads = none)
    (hheld : (f.ptr, f.isLarge) ∈ s.held) (hst : stage f.todo = some .tracked) :
    ({ s with held := s.held.erase (f.ptr, f.isLarge) }.setThread i f).Inv := by
  cases hcust : h.custody f.ptr with
  | allocator _ hnot => exact absurd hheld (hnot f.isLarge)
  | thread _ _ _ _ _ _ _ _ hnot => exact absurd hheld (hnot f.isLarge)
  | program isLarge hno hin haddr hagrees =>
    obtain rfl := (hin f.isLarge).mp hheld
    refine ⟨h.active, h.trackDeallocations, h.frames_setThread rfl (.inr ⟨haddr, _, hst⟩),
      fun a => ?_⟩
    by_cases ha : a = f.ptr
    · subst ha
      refine .thread i f .tracked lookup_setThread_self rfl hst (by decide) (fun j hj => ?_)
        (fun l hl => ?_) haddr ⟨hagrees.1, hagrees.2, hagrees.3⟩
      · by_contra hji
        exact hno j (owns_of_setThread rfl hji hj)
      · obtain ⟨hne, hl⟩ := Finset.mem_erase.mp hl
        exact hne (by rw [(hin l).mp hl])
    · exact (h.custody a).congr ⟨rfl, rfl, rfl⟩ (fun l => by simp [setThread, ha]) <|
        lookup_setThread_other rfl (by simp [hidle]) fun hhas => ha hhas.1.symm

end Process

end Ddprof
