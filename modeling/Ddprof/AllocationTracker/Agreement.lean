import Ddprof.AllocationTracker.Custody
import Ddprof.Worker.Aggregation

/-!
The three records of the allocated addresses agree.

Runs are considered in which the environment keeps its promises: every allocation
is tracked and sampled, no call of the allocator, no reservation and no write
fails, and no table is full. If in addition no address is handed out again while
a `dallocx` or `sdallocx` call has freed it and not yet pushed the event, every
step keeps the custody invariant. When no call is in progress, the addresses
allocated, the addresses in the set and the addresses that the worker holds live
after all events are the same.
-/

namespace Ddprof.Process

variable {s s' : Process} {a i : ℕ} {f f' : Frame} {st : Stage} {c : Choice} {rest : List Instr}

/-! ### The promises of the environment -/

/-- What is promised about the step that executes an instruction. -/
def Promise (s : Process) (rest : List Instr) (c : Choice) : Instr → Prop
  | .allocate => c.address ≠ 0 ∧ startsTracking rest = true
  | .reallocate size =>
    (c.address = 0 → size = 0) ∧ (c.address ≠ 0 → startsTracking rest = true)
  | .trackAllocation _ => c.period.isSome = true
  | .adding op _ | .removing op => s.bitset.NotFull op
  | .pushAlloc _ _ | .pushDealloc => c.reserve = .ok
  | .commitAlloc _ | .commitDealloc => c.writeOk = true
  | _ => True

instance (s : Process) (rest : List Instr) (c : Choice) : DecidablePred (s.Promise rest c) := by
  intro instr
  cases instr <;> unfold Promise <;> infer_instance

/-- The call has freed its block, and the event for it is still to be pushed. -/
def freedUntracked (f : Frame) : Bool :=
  match f.todo with
  | [.trackDeallocation] | [.removing _] | [.pushDealloc] => true
  | _ => false

/-- The address that the allocator hands out is not one that a thread has freed and
not yet tracked as freed. -/
def NoReuse (s : Process) (c : Choice) : Instr → Prop
  | .allocate | .reallocate _ =>
    ∀ e ∈ s.threads.entries, e.2.ptr = c.address → freedUntracked e.2 = false
  | _ => True

instance (s : Process) (c : Choice) : DecidablePred (s.NoReuse c) := by
  intro instr
  cases instr <;> unfold NoReuse <;> infer_instance

/-- The instruction that a thread executes next, with what follows it. -/
def next (s : Process) (thread : ℕ) : Option (Instr × List Instr) :=
  match AList.lookup thread s.threads with
  | none => none
  | some f =>
    match f.todo with
    | [] => none
    | instr :: rest => some (instr, rest)

def Promised (s : Process) : Label → Prop
  | .call _ _ engaged => engaged = true
  | .run thread c => ∀ x ∈ s.next thread, s.Promise x.2 c x.1

def NotReused (s : Process) : Label → Prop
  | .call _ _ _ => True
  | .run thread c => ∀ x ∈ s.next thread, s.NoReuse c x.1

instance (s : Process) : DecidablePred s.Promised := by
  intro l
  cases l <;> unfold Promised <;> infer_instance

instance (s : Process) : DecidablePred s.NotReused := by
  intro l
  cases l <;> unfold NotReused <;> infer_instance

/-! ### Addresses that the allocator may hand out -/

/-- A frame whose block is free, and which is not done with it, has freed it before
tracking it. -/
theorem freedUntracked_of_stage (hst : stage f.todo = some st) (hfree : st.allocated = false)
    (hgone : st ≠ .gone) : freedUntracked f = true := by
  have hrest : ∀ {rest : List Instr} {t : Option Stage} {g : Bool → Stage},
      (∀ b, (g b).allocated = b) → (afterTracking rest t).map g = some st → rest = [] := by
    intro rest t g hg h
    unfold afterTracking at h
    split_ifs at h with h1 h2
    · exact h1
    · cases h
      rw [hg] at hfree
      cases hfree
    · cases h
  unfold freedUntracked
  cases htodo : f.todo with
  | nil =>
    rw [htodo] at hst
    cases hst
    exact absurd rfl hgone
  | cons instr rest =>
    rw [htodo] at hst
    cases instr with
    | trackDeallocation =>
      obtain rfl := hrest (fun _ => rfl) hst
      rfl
    | removing op =>
      obtain rfl := hrest (fun _ => rfl) hst
      rfl
    | pushDealloc =>
      obtain rfl := hrest (fun _ => rfl) hst
      rfl
    | commitDealloc =>
      obtain rfl := hrest (fun _ => rfl) hst
      cases hst
      exact absurd rfl hgone
    | allocate => cases hst
    | undoing op => cases hst
    | ret | release | reallocate | resize | trackAllocation | adding | pushAlloc | commitAlloc =>
      -- these programs belong to a block that is allocated
      rw [stage] at hst
      split_ifs at hst <;> cases hst <;> cases hfree

/-- An address that is not allocated, and that no thread has freed before tracking it,
is with the allocator. -/
theorem Inv.available (h : s.Inv) (ha : a ∉ s.allocated)
    (hreuse : ∀ e ∈ s.threads.entries, e.2.ptr = a → freedUntracked e.2 = false) :
    s.Gone a ∧ (∀ j, ¬ s.Owns j a) ∧ ∀ l, (a, l) ∉ s.held := by
  cases h.custody a with
  | allocator hno hnot hgone => exact ⟨hgone, hno, hnot⟩
  | program _ _ _ _ hagrees => exact absurd (hagrees.allocated.mpr rfl) ha
  | thread j g st hg hptr hst hgone _ _ _ hagrees =>
    have hfree : st.allocated = false := by
      by_contra hne
      exact ha (hagrees.allocated.mpr (by simpa using hne))
    have hentry : (⟨j, g⟩ : Sigma fun _ : ℕ => Frame) ∈ s.threads.entries :=
      AList.mem_lookup_iff.mp hg
    have := hreuse ⟨j, g⟩ hentry hptr
    rw [freedUntracked_of_stage hst hfree hgone] at this
    cases this

theorem Inv.release_zero (h : s.Inv) : s.release 0 = s := by
  have hzero : 0 ∉ s.allocated := by
    cases h.custody 0 with
    | allocator _ _ hgone => exact hgone.allocated
    | program _ _ _ haddr => exact absurd rfl haddr.1
    | thread _ _ _ _ _ _ _ _ _ haddr => exact absurd rfl haddr.1
  rw [Process.release, Finset.erase_eq_of_notMem hzero]

/-! ### The steps of a hook -/

section Exec

variable (h : s.Inv) (hf : AList.lookup i s.threads = some f)
include h hf

theorem Inv.block {instr : Instr} (htodo : f.todo = instr :: rest)
    (hnull : ¬ NullProgram (instr :: rest)) :
    IsAddress f.ptr ∧ ∃ st, stage (instr :: rest) = some st := by
  rcases h.frames i f hf with ⟨_, hprog⟩ | hblock
  · rw [htodo] at hprog
    exact absurd hprog hnull
  · rwa [htodo] at hblock

theorem Inv.exec_allocate (htodo : f.todo = .allocate :: rest)
    (hpromise : s.Promise rest c .allocate) (hreuse : s.NoReuse c .allocate)
    (hexec : s.exec f rest c .allocate = some (s', f')) : (s'.setThread i f').Inv := by
  obtain ⟨hne, htracks⟩ := hpromise
  have hnull : f.ptr = 0 ∧ NullProgram (.allocate :: rest) := by
    rcases h.frames i f hf with hnull | ⟨_, st, hst⟩
    · rwa [htodo] at hnull
    · rw [htodo] at hst
      cases hst
  rw [exec] at hexec
  split_ifs at hexec with havail
  cases hexec
  obtain ⟨hdel, hfree⟩ := havail.resolve_left hne
  obtain ⟨hgone, hno, hnot⟩ := h.available hfree hreuse
  exact h.acquire hf (fun hptr => absurd hnull.1 hptr) ⟨hne, hdel⟩ hgone hno hnot rfl
    (hnull.2 htracks)

theorem Inv.exec_release (htodo : f.todo = .release :: rest)
    (hexec : s.exec f rest c .release = some (s', f')) : (s'.setThread i f').Inv := by
  obtain ⟨hptr, st, hst⟩ := h.block hf htodo (by simp [NullProgram, endsNull])
  cases hexec
  have hlocal : LocalTo f.ptr s (s.release f.ptr) :=
    ⟨fun b hb => by simp [release, hb], .refl, fun _ _ => rfl⟩
  have hst₀ : stage f.todo = some st := by rw [htodo, hst]
  rw [stage] at hst
  split_ifs at hst with hnil htrack
  · cases hst
    obtain ⟨hagrees, _, _⟩ := h.owner hf hptr hst₀ (by decide)
    refine h.advance hf hptr hst₀ (by decide) hlocal ⟨rfl, rfl, rfl, rfl⟩ rfl
      (by rw [hnil]; rfl) (.inl ⟨rfl, by simp [release], ?_, hagrees.live⟩)
    rintro ⟨_, _, shard, slot, hholds⟩
    exact hagrees.inSet shard slot hholds
  · cases hst
    obtain ⟨hagrees, _, _⟩ := h.owner hf hptr hst₀ (by decide)
    have hst' : stage rest = some ⟨false, .present, true⟩ := by rw [htrack]; rfl
    exact h.advance hf hptr hst₀ (by decide) hlocal ⟨rfl, rfl, rfl, rfl⟩ rfl hst'
      (.inr ⟨by decide, by simp [release], hagrees.inSet, hagrees.live⟩)

theorem Inv.drop (hptr : IsAddress f.ptr) (hst : stage f.todo = some .untracked) :
    ((s.release f.ptr).setThread i { f with todo := [] }).Inv := by
  obtain ⟨hagrees, _, _⟩ := h.owner hf hptr hst (by decide)
  refine h.advance hf hptr hst (by decide)
    ⟨fun b hb => by simp [release, hb], .refl, fun _ _ => rfl⟩ ⟨rfl, rfl, rfl, rfl⟩ rfl rfl
    (.inl ⟨rfl, by simp [release], ?_, hagrees.live⟩)
  rintro ⟨_, _, shard, slot, hholds⟩
  exact hagrees.inSet shard slot hholds

theorem Inv.exec_reallocate {size : ℕ} (htodo : f.todo = .reallocate size :: rest)
    (hpromise : s.Promise rest c (.reallocate size)) (hreuse : s.NoReuse c (.reallocate size))
    (hexec : s.exec f rest c (.reallocate size) = some (s', f')) : (s'.setThread i f').Inv := by
  obtain ⟨hzero, htracks⟩ := hpromise
  have hrealloc : Reallocates size rest (stage rest) := by
    rcases h.frames i f hf with ⟨_, hprog⟩ | ⟨_, st, hst⟩
    · rwa [htodo] at hprog
    · rw [htodo, stage] at hst
      split_ifs at hst with hcond
      exact hcond
  rw [exec] at hexec
  split_ifs at hexec with hfail havail
  · exact absurd (hzero hfail.1) hfail.2
  cases hexec
  have hnull : c.address = 0 → WellFormed { f with ptr := c.address, todo := rest } := by
    intro hc
    have hends := hrealloc.2 (hzero hc)
    refine .inl ⟨hc, ?_⟩
    unfold endsNull at hends
    rcases of_decide_eq_true hends with rfl | rfl
    · exact hends
    · exact hends
  have hnullHas : c.address = 0 → ∀ a, ¬ Has { f with ptr := c.address, todo := rest } a :=
    fun hc a hhas => hhas.2.1 (hhas.1.symm.trans hc)
  have hnext : c.address ≠ 0 → stage rest = some .untracked := fun hc => hrealloc.1 (htracks hc)
  rcases h.frames i f hf with ⟨hptr, _⟩ | ⟨hptr, st, hst⟩
  · -- without a block the call is one of the allocator
    rw [hptr, h.release_zero] at havail ⊢
    by_cases hc : c.address = 0
    · rw [allocate, if_pos hc]
      exact h.replace hf (fun a hhas => hhas.2.1 (hhas.1.symm.trans hptr)) (hnullHas hc) (hnull hc)
    · obtain ⟨hdel, hfree⟩ := havail.resolve_left hc
      obtain ⟨hgone, hno, hnot⟩ := h.available hfree hreuse
      exact h.acquire hf (fun hne => absurd hptr hne) ⟨hc, hdel⟩ hgone hno hnot rfl (hnext hc)
  · have hst₀ : stage f.todo = some .untracked := by
      rw [htodo, stage, if_pos hrealloc]
    have hdrop := h.drop hf hptr hst₀
    by_cases hc : c.address = 0
    · rw [allocate, if_pos hc, ← setThread_setThread { f with todo := [] }]
      exact hdrop.replace lookup_setThread_self (fun _ => not_has_of_nil rfl) (hnullHas hc)
        (hnull hc)
    · obtain ⟨hdel, hfree⟩ := havail.resolve_left hc
      obtain ⟨hgone, hno, hnot⟩ := hdrop.available hfree fun e he hptr => by
        have he' : e ∈ (AList.insert i { f with todo := [] } s.threads).entries := he
        rw [AList.entries_insert] at he'
        rcases List.mem_cons.mp he' with rfl | he'
        · rfl
        · exact hreuse e ((List.kerase_sublist _ _).subset he') hptr
      have hptr' : ({ f with ptr := c.address, todo := rest } : Frame).ptr = c.address := rfl
      have := hdrop.acquire lookup_setThread_self (fun _ => rfl) ⟨hc, hdel⟩ hgone hno hnot hptr'
        (hnext hc)
      rwa [allocate_setThread, setThread_setThread] at this

/-! #### Tracking an allocation -/

theorem Inv.exec_trackAllocation {testPtr : Bool}
    (htodo : f.todo = .trackAllocation testPtr :: rest)
    (hpromise : s.Promise rest c (.trackAllocation testPtr))
    (hexec : s.exec f rest c (.trackAllocation testPtr) = some (s', f')) :
    (s'.setThread i f').Inv := by
  obtain ⟨period, hperiod⟩ := Option.isSome_iff_exists.mp hpromise
  simp only [exec, h.active, hperiod, h.trackDeallocations, Bool.not_true, Bool.false_eq_true,
    or_false, if_true] at hexec
  rcases h.frames i f hf with ⟨hptr, hprog⟩ | ⟨hptr, st, hst⟩
  · -- the hook returns without a block
    rw [htodo] at hprog
    obtain ⟨rfl, rfl⟩ : testPtr = true ∧ rest = [.ret] := by
      simpa [NullProgram, endsNull] using hprog
    rw [if_pos ⟨rfl, hptr⟩] at hexec
    cases hexec
    exact h.replace hf (fun a hhas => hhas.2.1 (hhas.1.symm.trans hptr))
      (fun a hhas => hhas.2.1 (hhas.1.symm.trans hptr))
      (.inl ⟨hptr, (rfl : endsNull [.ret] = true)⟩)
  · rw [if_neg (fun hnull => hptr.1 hnull.2)] at hexec
    cases hexec
    have hst₀ := hst
    rw [htodo, stage] at hst
    split_ifs at hst with htracked
    cases hst
    obtain ⟨hagrees, _, _⟩ := h.owner hf hptr hst₀ (by decide)
    have hst' : stage (.adding (.add f.ptr f.isLarge) period :: rest) =
        some ⟨true, .calling (.add f.ptr f.isLarge), false⟩ := if_pos htracked
    exact h.advance hf hptr hst₀ (by decide) .refl .refl rfl hst'
      (.inr ⟨nofun, hagrees.allocated, ⟨rfl, rfl, hagrees.inSet⟩, hagrees.live⟩)

theorem Inv.exec_bitset {op : BitsetOp} {allocated live : Bool} (hptr : IsAddress f.ptr)
    (hst : stage f.todo = some ⟨allocated, .calling op, live⟩) (hfull : s.bitset.NotFull op)
    (hptr' : f'.ptr = f.ptr) (hlarge' : f'.isLarge = f.isLarge)
    (hst' : stage f'.todo = some ⟨allocated, .calling (s.bitset.step op).2, live⟩) :
    ({ s with bitset := (s.bitset.step op).1 }.setThread i f').Inv := by
  obtain ⟨hagrees, _, _⟩ := h.owner hf hptr hst nofun
  obtain ⟨haddr, hlarge, hknows⟩ := hagrees.inSet
  have hevolves : AddressBitset.Evolves f.ptr s.bitset (s.bitset.step op).1 :=
    haddr ▸ hknows.step_evolves
  obtain ⟨pc, hop⟩ := s.bitset.step_op op
  refine h.advance hf hptr hst nofun ⟨fun _ _ => Iff.rfl, hevolves, fun _ _ => rfl⟩
    ⟨rfl, rfl, rfl, rfl⟩ hptr' hst' (.inr ⟨nofun, hagrees.allocated, ⟨?_, ?_, ?_⟩, hagrees.live⟩)
  · rw [hop]
    exact haddr
  · rw [hop, hlarge']
    exact hlarge
  · exact hknows.step (haddr ▸ hptr) hfull

theorem Inv.exec_adding {op : BitsetOp} {period : BitVec 64}
    (htodo : f.todo = .adding op period :: rest) (hpromise : s.Promise rest c (.adding op period))
    (hexec : s.exec f rest c (.adding op period) = some (s', f')) : (s'.setThread i f').Inv := by
  obtain ⟨hptr, st, hst⟩ := h.block hf htodo (by simp [NullProgram, endsNull])
  rw [stage] at hst
  split_ifs at hst with htracked
  have hst₀ : stage f.todo = some ⟨true, .calling op, false⟩ := by
    rw [htodo, stage, if_pos htracked]
  obtain ⟨hagrees, _, _⟩ := h.owner hf hptr hst₀ nofun
  obtain ⟨haddr, hlarge, hknows⟩ := hagrees.inSet
  rw [exec] at hexec
  split at hexec
  · -- the address has been added
    rename_i hpc
    cases hexec
    unfold AddressBitset.Knows at hknows
    rw [hpc] at hknows
    have hst' : stage (.pushAlloc f.ptr period :: rest) =
        some ⟨true, .pushing f.ptr, false⟩ := if_pos htracked
    refine h.advance hf hptr hst₀ nofun .refl .refl rfl hst'
      (.inr ⟨nofun, hagrees.allocated, ⟨rfl, ?_⟩, hagrees.live⟩)
    rw [← haddr, ← hlarge]
    exact hknows.2
  · rename_i hpc
    unfold AddressBitset.Knows at hknows
    rw [hpc] at hknows
    cases hknows.1
  · cases hexec
    exact h.exec_bitset hf hptr hst₀ hpromise rfl rfl (if_pos htracked)

theorem Inv.exec_pushAlloc {addr : ℕ} {period : BitVec 64}
    (htodo : f.todo = .pushAlloc addr period :: rest)
    (hpromise : s.Promise rest c (.pushAlloc addr period))
    (hexec : s.exec f rest c (.pushAlloc addr period) = some (s', f')) :
    (s'.setThread i f').Inv := by
  obtain ⟨hptr, st, hst⟩ := h.block hf htodo (by simp [NullProgram, endsNull])
  rw [stage] at hst
  split_ifs at hst with htracked
  have hst₀ : stage f.todo = some ⟨true, .pushing addr, false⟩ := by
    rw [htodo, stage, if_pos htracked]
  obtain ⟨hagrees, _, _⟩ := h.owner hf hptr hst₀ nofun
  obtain ⟨rfl, hpresent⟩ := hagrees.inSet
  rw [exec, show c.reserve = .ok from hpromise] at hexec
  cases hexec
  have hst' : stage (.commitAlloc f.ptr :: rest) = some .tracked := if_pos htracked
  refine h.advance hf hptr hst₀ nofun ⟨fun _ _ => Iff.rfl, .refl, fun b hb => ?_⟩
    ⟨rfl, rfl, rfl, rfl⟩ rfl hst' (.inr ⟨by decide, hagrees.allocated, hpresent, ?_⟩)
  · rw [pushEvent, liveAfter_allocation hptr.1, if_neg (Ne.symm hb)]
  · rw [pushEvent, liveAfter_allocation hptr.1, if_pos rfl]
    rfl

omit h hf in
theorem countFailure_false : SameRecords s (s.countFailure false) ∧
    SameRest s (s.countFailure false) :=
  ⟨⟨rfl, rfl, rfl⟩, rfl, rfl, rfl, rfl⟩

theorem Inv.exec_commitAlloc {addr : ℕ} (htodo : f.todo = .commitAlloc addr :: rest)
    (hpromise : s.Promise rest c (.commitAlloc addr))
    (hexec : s.exec f rest c (.commitAlloc addr) = some (s', f')) : (s'.setThread i f').Inv := by
  obtain ⟨hptr, st, hst⟩ := h.block hf htodo (by simp [NullProgram, endsNull])
  rw [stage] at hst
  split_ifs at hst with htracked
  simp only [exec, show c.writeOk = true from hpromise, Bool.not_true, if_true] at hexec
  cases hexec
  refine h.skip hf countFailure_false.1 countFailure_false.2 rfl rfl (fun _ => ?_)
    (.inr ⟨hptr, _, htracked⟩)
  rw [htodo, stage, if_pos htracked, htracked]

/-! #### Tracking a deallocation -/

omit h hf in
/-- After the tracking of a deallocation the block is free, or it is untracked and
allocated. -/
theorem stage_afterTracking {allocated : Bool}
    (hafter : afterTracking rest (stage rest) = some allocated) :
    stage rest = some ⟨allocated, .absent, false⟩ := by
  unfold afterTracking at hafter
  split_ifs at hafter with hnil hst
  · cases hafter
    rw [hnil]
    rfl
  · cases hafter
    exact hst

/-- A call that is tracking a deallocation has a block; what follows says whether it is still
allocated. -/
theorem Inv.tracking {instr : Instr} {inSet : SetStage} (htodo : f.todo = instr :: rest)
    (hnull : ¬ NullProgram (instr :: rest))
    (hstage : stage (instr :: rest) =
      (afterTracking rest (stage rest)).map fun allocated => ⟨allocated, inSet, true⟩) :
    IsAddress f.ptr ∧ ∃ allocated, afterTracking rest (stage rest) = some allocated ∧
      stage f.todo = some ⟨allocated, inSet, true⟩ ∧
      s.Agrees f.ptr f.isLarge ⟨allocated, inSet, true⟩ := by
  obtain ⟨hptr, st, hst⟩ := h.block hf htodo hnull
  have hst₀ : stage f.todo = some st := by rw [htodo, hst]
  rw [hstage] at hst
  obtain ⟨allocated, hafter, rfl⟩ := Option.map_eq_some_iff.mp hst
  exact ⟨hptr, allocated, hafter, hst₀, (h.owner hf hptr hst₀ nofun).1⟩

theorem Inv.exec_trackDeallocation (htodo : f.todo = .trackDeallocation :: rest)
    (hexec : s.exec f rest c .trackDeallocation = some (s', f')) : (s'.setThread i f').Inv := by
  obtain ⟨hptr, allocated, hafter, hst₀, hagrees⟩ :=
    h.tracking hf htodo (by simp [NullProgram, endsNull]) (by rw [stage])
  rw [exec, if_pos ⟨h.active, h.trackDeallocations⟩] at hexec
  cases hexec
  have hst' : stage (.removing (.remove f.ptr f.isLarge) :: rest) =
      some ⟨allocated, .calling (.remove f.ptr f.isLarge), true⟩ := by
    rw [stage, hafter]
    rfl
  exact h.advance hf hptr hst₀ nofun .refl .refl rfl hst'
    (.inr ⟨nofun, hagrees.allocated, ⟨rfl, rfl, hagrees.inSet⟩, hagrees.live⟩)

theorem Inv.exec_removing {op : BitsetOp} (htodo : f.todo = .removing op :: rest)
    (hpromise : s.Promise rest c (.removing op))
    (hexec : s.exec f rest c (.removing op) = some (s', f')) : (s'.setThread i f').Inv := by
  obtain ⟨hptr, allocated, hafter, hst₀, hagrees⟩ :=
    h.tracking hf htodo (by simp [NullProgram, endsNull]) (by rw [stage])
  obtain ⟨haddr, hlarge, hknows⟩ := hagrees.inSet
  rw [exec] at hexec
  split at hexec
  · -- the address has been removed
    rename_i hpc
    cases hexec
    unfold AddressBitset.Knows at hknows
    rw [hpc] at hknows
    have hst' : stage (.pushDealloc :: rest) = some ⟨allocated, .absent, true⟩ := by
      rw [stage, hafter]
      rfl
    exact h.advance hf hptr hst₀ nofun .refl .refl rfl hst'
      (.inr ⟨nofun, hagrees.allocated, haddr ▸ hknows.2, hagrees.live⟩)
  · rename_i hpc
    unfold AddressBitset.Knows at hknows
    rw [hpc] at hknows
    cases hknows.1
  · cases hexec
    exact h.exec_bitset hf hptr hst₀ hpromise rfl rfl (by rw [stage, hafter]; rfl)

theorem Inv.exec_pushDealloc (htodo : f.todo = .pushDealloc :: rest)
    (hpromise : s.Promise rest c .pushDealloc)
    (hexec : s.exec f rest c .pushDealloc = some (s', f')) : (s'.setThread i f').Inv := by
  obtain ⟨hptr, allocated, hafter, hst₀, hagrees⟩ :=
    h.tracking hf htodo (by simp [NullProgram, endsNull]) (by rw [stage])
  rw [exec, show c.reserve = .ok from hpromise] at hexec
  cases hexec
  have hst' : stage (.commitDealloc :: rest) = some ⟨allocated, .absent, false⟩ := by
    rw [stage, hafter]
    rfl
  have hlive : liveAfter (s.pushEvent (.deallocation f.ptr)).events f.ptr = false := by
    rw [pushEvent, liveAfter_deallocation, if_pos rfl]
  have hlocal : LocalTo f.ptr s (s.pushEvent (.deallocation f.ptr)) :=
    ⟨fun _ _ => Iff.rfl, .refl, fun b hb => by
      rw [pushEvent, liveAfter_deallocation, if_neg (Ne.symm hb)]⟩
  refine h.advance hf hptr hst₀ nofun hlocal ⟨rfl, rfl, rfl, rfl⟩ rfl hst' ?_
  cases allocated with
  | false =>
    refine .inl ⟨rfl, fun hmem => ?_, ?_, hlive⟩
    · cases hagrees.allocated.mp hmem
    · rintro ⟨_, _, shard, slot, hholds⟩
      exact hagrees.inSet shard slot hholds
  | true => exact .inr ⟨by decide, hagrees.allocated, hagrees.inSet, hlive⟩

theorem Inv.exec_commitDealloc (htodo : f.todo = .commitDealloc :: rest)
    (hpromise : s.Promise rest c .commitDealloc)
    (hexec : s.exec f rest c .commitDealloc = some (s', f')) : (s'.setThread i f').Inv := by
  obtain ⟨hptr, st, hst⟩ := h.block hf htodo (by simp [NullProgram, endsNull])
  rw [stage] at hst
  obtain ⟨allocated, hafter, rfl⟩ := Option.map_eq_some_iff.mp hst
  rw [exec, show c.writeOk = true from hpromise] at hexec
  cases hexec
  refine h.skip hf countFailure_false.1 countFailure_false.2 rfl rfl (fun _ => ?_)
    (.inr ⟨hptr, _, stage_afterTracking hafter⟩)
  rw [htodo, stage, hafter, stage_afterTracking hafter]
  rfl

/-! #### The other steps -/

theorem Inv.exec_resize (htodo : f.todo = .resize :: rest)
    (hexec : s.exec f rest c .resize = some (s', f')) : (s'.setThread i f').Inv := by
  obtain ⟨hptr, st, hst⟩ := h.block hf htodo (by simp [NullProgram, endsNull])
  rw [stage] at hst
  split_ifs at hst with huntracked
  cases hexec
  refine h.skip hf ⟨rfl, rfl, rfl⟩ .refl rfl rfl (fun _ => ?_) (.inr ⟨hptr, _, huntracked⟩)
  rw [htodo, stage, if_pos huntracked, huntracked]

theorem Inv.exec_ret (htodo : f.todo = .ret :: rest)
    (hexec : s.exec f rest c .ret = some (s', f')) : (s'.setThread i f').Inv := by
  cases hexec
  rcases h.frames i f hf with ⟨hptr, hprog⟩ | ⟨hptr, st, hst⟩
  · rw [htodo] at hprog
    obtain rfl : rest = [] := by simpa [NullProgram, endsNull] using hprog
    rw [hold, if_pos hptr]
    exact h.replace hf (fun a hhas => hhas.2.1 (hhas.1.symm.trans hptr))
      (fun a hhas => hhas.2.1 (hhas.1.symm.trans hptr)) (.inl ⟨hptr, trivial⟩)
  · have hst₀ := hst
    rw [htodo, stage] at hst
    split_ifs at hst with hnil
    cases hst
    exact h.handOver hf hptr hst₀ hnil rfl

theorem Inv.exec {instr : Instr} (htodo : f.todo = instr :: rest)
    (hpromise : s.Promise rest c instr) (hreuse : s.NoReuse c instr)
    (hexec : s.exec f rest c instr = some (s', f')) : (s'.setThread i f').Inv := by
  cases instr with
  | allocate => exact h.exec_allocate hf htodo hpromise hreuse hexec
  | release => exact h.exec_release hf htodo hexec
  | reallocate size => exact h.exec_reallocate hf htodo hpromise hreuse hexec
  | resize => exact h.exec_resize hf htodo hexec
  | trackAllocation testPtr => exact h.exec_trackAllocation hf htodo hpromise hexec
  | trackDeallocation => exact h.exec_trackDeallocation hf htodo hexec
  | adding op period => exact h.exec_adding hf htodo hpromise hexec
  | pushAlloc addr period => exact h.exec_pushAlloc hf htodo hpromise hexec
  | commitAlloc addr => exact h.exec_commitAlloc hf htodo hpromise hexec
  | undoing op =>
    obtain ⟨_, st, hst⟩ := h.block hf htodo (by simp [NullProgram, endsNull])
    cases hst
  | removing op => exact h.exec_removing hf htodo hpromise hexec
  | pushDealloc => exact h.exec_pushDealloc hf htodo hpromise hexec
  | commitDealloc => exact h.exec_commitDealloc hf htodo hpromise hexec
  | ret => exact h.exec_ret hf htodo hexec

end Exec

/-! ### Runs -/

theorem Inv.enter {hook : Hook} (h : s.Inv) (hidle : AList.lookup i s.threads = none)
    (henter : s.enter i hook true = some s') : s'.Inv := by
  simp only [Process.enter, if_true] at henter
  split_ifs at henter with harg hnull hheld
  · cases henter
    exact h.enterNull hidle harg (nullProgram_body hook harg hnull)
  · cases henter
    exact h.takeOver (f := ⟨hook.arg, hook.mmapAlloc, hook.body⟩) hidle hheld (stage_body hook harg)

theorem Inv.step (h : s.Inv) {l : Label} (hpromised : s.Promised l) (hreused : s.NotReused l)
    (hstep : s.step l = some s') : s'.Inv := by
  cases l with
  | call thread hook engaged =>
    obtain rfl : engaged = true := hpromised
    rw [Process.step] at hstep
    split at hstep
    · exact h.enter ‹_› hstep
    · cases hstep
  | run thread c =>
    rw [Process.step] at hstep
    split at hstep
    · cases hstep
    rename_i f hf
    split at hstep
    · rename_i hnil
      cases hstep
      exact h.leave hf hnil
    rename_i instr rest htodo
    have hnext : (instr, rest) ∈ s.next thread := by
      unfold next
      rw [hf]
      simp only [htodo]
      rfl
    split at hstep
    · cases hstep
    rename_i hexec
    cases hstep
    exact h.exec hf htodo (hpromised _ hnext) (hreused _ hnext) hexec

theorem inv_init : ({} : Process).Inv := by
  have hlookup : ∀ j, AList.lookup j ({} : Process).threads = none := fun _ => rfl
  refine ⟨rfl, rfl, fun j f hf => (by rw [hlookup] at hf; cases hf), fun a => ?_⟩
  refine .allocator ?_ (fun _ => Finset.notMem_empty _) ⟨Finset.notMem_empty _, ?_, rfl⟩
  · rintro j ⟨f, hf, _⟩
    rw [hlookup] at hf
    cases hf
  · rintro ⟨h0, _, shard, slot, t, ht, hslot⟩
    cases shard with
    | chunk idx => cases ht
    | large =>
      cases ht
      exact h0 hslot.symm

def Quiescent (s : Process) : Prop := s.threads.entries = []

instance : Decidable s.Quiescent := inferInstanceAs (Decidable (_ = _))

/-- When all calls have returned, the records of every address agree. -/
theorem Inv.agree (h : s.Inv) (hquiet : s.Quiescent) (a : ℕ) :
    (a ∈ s.allocated ↔ s.bitset.Contains a) ∧ (a ∈ s.allocated ↔ liveAfter s.events a = true) := by
  cases h.custody a with
  | allocator _ _ hgone =>
    exact ⟨iff_of_false hgone.allocated hgone.inSet,
      iff_of_false hgone.allocated (by simp [hgone.live])⟩
  | program isLarge _ _ haddr hagrees =>
    have hin : a ∈ s.allocated := hagrees.allocated.mpr rfl
    obtain ⟨t, n, hs⟩ := hagrees.inSet
    exact ⟨iff_of_true hin ⟨haddr.1, haddr.2, _, _, t, hs.table, hs.stored⟩,
      iff_of_true hin hagrees.live⟩
  | thread j f _ hf =>
    have hentry := AList.mem_lookup_iff.mp hf
    rw [hquiet] at hentry
    cases hentry

end Ddprof.Process

namespace Ddprof

/-! ### The profiler -/

/-- The record that the worker decodes from an event of the process `pid`: unwinding
gives a stack trace and finds nothing wrong with the process. -/
def Decodes (pid : ℤ) : TrackerEvent → WorkerEvent → Prop
  | .allocation addr period, .sample s => s.pid = pid ∧ s.addr = addr ∧ s.period = period ∧
      s.output.locs ≠ [] ∧ s.fatal = false ∧ s.inconsistent = false
  | .deallocation ptr, .deallocation ptr' pid' => ptr' = ptr ∧ pid' = pid
  | _, _ => False

instance (pid : ℤ) (e : TrackerEvent) (e' : WorkerEvent) : Decidable (Decodes pid e e') := by
  cases e <;> cases e' <;> unfold Decodes <;> infer_instance

namespace Worker

variable {aggregateOk : ℕ → Bool} {watcherPos : ℕ} {pid : ℤ} {w : Worker}

def processEvents (w : Worker) (aggregateOk : ℕ → Bool) (watcherPos : ℕ)
    (events : List WorkerEvent) : Worker :=
  events.foldl (fun w e => (w.processEvent aggregateOk watcherPos e).1) w

/-- The live allocations that the profiler has for a process. -/
def addressMap (w : Worker) (watcherPos : ℕ) (pid : ℤ) : UnorderedMap ℕ ValuePerAddress :=
  (w.liveAllocation.pidStacks watcherPos pid).addressMap

theorem aggregateSample_spec (w : Worker) (aggregateOk : ℕ → Bool) (watcherPos : ℕ) (s : Sample) :
    (w.aggregateSample aggregateOk watcherPos s).1.watchers = w.watchers ∧
    (w.aggregateSample aggregateOk watcherPos s).1.liveAllocation =
      if (w.watcher watcherPos).aggregationMode.liveSum = true ∧ s.addr ≠ 0 then
        w.liveAllocation.registerAllocation s.output s.addr s.period watcherPos s.pid
      else w.liveAllocation := by
  unfold aggregateSample
  simp only [pprofAggregate]
  split_ifs <;> exact ⟨rfl, rfl⟩

theorem processEvent_sample {s : Sample} (hpid : s.pid ≠ 0) (hfatal : s.fatal = false)
    (hinc : s.inconsistent = false) : (w.processEvent aggregateOk watcherPos (.sample s)).1 =
      (w.aggregateSample aggregateOk watcherPos s).1 := by
  simp only [processEvent, ddprofPrSample, if_pos hpid, hfatal, hinc, Bool.false_eq_true, if_false]
  split_ifs <;> rfl

theorem mem_addressMap {a : ℕ} :
    a ∈ w.addressMap watcherPos pid ↔
      ((w.liveAllocation.pidStacks watcherPos pid).entryAt a).isSome = true := by
  rw [addressMap, PidStacks.entryAt, Option.isSome_map, AList.lookup_isSome]

theorem processEvent_decodes (hpid : pid ≠ 0)
    (hlive : (w.watcher watcherPos).aggregationMode.liveSum = true) {e : TrackerEvent}
    {e' : WorkerEvent} (he : Decodes pid e e') {a : ℕ} {live : Bool}
    (ha : a ∈ w.addressMap watcherPos pid ↔ live = true) :
    ((w.processEvent aggregateOk watcherPos e').1.watcher watcherPos).aggregationMode.liveSum =
        true ∧
      (a ∈ (w.processEvent aggregateOk watcherPos e').1.addressMap watcherPos pid ↔
        liveStep a live e = true) := by
  cases e with
  | allocation addr period =>
    cases e' with
    | sample s =>
      obtain ⟨rfl, rfl, rfl, hlocs, hfatal, hinc⟩ := he
      obtain ⟨hwatchers, hla⟩ := w.aggregateSample_spec aggregateOk watcherPos s
      rw [processEvent_sample hpid hfatal hinc]
      refine ⟨by rw [watcher, hwatchers]; exact hlive, ?_⟩
      rw [mem_addressMap, hla, liveStep]
      by_cases haddr : s.addr = 0
      · simp only [haddr, ne_eq, not_true_eq_false, and_false, if_false]
        rw [← mem_addressMap, ha]
      · rw [if_pos ⟨hlive, haddr⟩, LiveAllocation.pidStacks_registerAllocation,
          if_pos ⟨rfl, rfl⟩, PidStacks.entryAt_registerAllocation _ hlocs]
        by_cases hsame : a = s.addr
        · simp [hsame, haddr]
        · rw [if_neg hsame, ← mem_addressMap, ha]
          simp [Ne.symm hsame]
    | _ => cases he
  | deallocation ptr =>
    cases e' with
    | deallocation ptr' pid' =>
      obtain ⟨rfl, rfl⟩ := he
      refine ⟨hlive, ?_⟩
      rw [mem_addressMap, processEvent, liveStep]
      simp only [LiveAllocation.pidStacks_registerDeallocation, if_pos, and_self,
        PidStacks.entryAt_registerDeallocation]
      by_cases hsame : a = ptr'
      · simp [hsame]
      · rw [if_neg hsame, ← mem_addressMap, ha]
        simp [Ne.symm hsame]
    | _ => cases he

theorem mem_addressMap_processEvents (hpid : pid ≠ 0)
    (hlive : (w.watcher watcherPos).aggregationMode.liveSum = true)
    {events : List TrackerEvent} {events' : List WorkerEvent}
    (hdecodes : List.Forall₂ (Decodes pid) events events') {a : ℕ} {live : Bool}
    (ha : a ∈ w.addressMap watcherPos pid ↔ live = true) :
    a ∈ (w.processEvents aggregateOk watcherPos events').addressMap watcherPos pid ↔
      events.foldl (liveStep a) live = true := by
  induction hdecodes generalizing w live with
  | nil => exact ha
  | cons he _ ih =>
    obtain ⟨hlive', ha'⟩ := processEvent_decodes hpid hlive he ha
    exact ih hlive' ha'

end Worker

namespace Process

/-- In every run whose environment keeps its promises, and in which no address is handed
out again between a `dallocx` or `sdallocx` call's free of it and its event: when all
calls have returned, the addresses in the set and, once the events are processed, the
addresses that the profiler holds live are the addresses allocated. -/
theorem records_agree {labels : List Label} {s : Process}
    (hok : Run.Along step (fun s l => s.Promised l ∧ s.NotReused l) {} labels)
    (hrun : Run.steps step {} labels = some s) (hquiet : s.Quiescent)
    {w : Worker} {watcherPos : ℕ} {pid : ℤ} (hpid : pid ≠ 0)
    (hlive : (w.watcher watcherPos).aggregationMode.liveSum = true)
    (hempty : w.addressMap watcherPos pid = ∅) {events : List WorkerEvent}
    (hdecodes : List.Forall₂ (Decodes pid) s.events events) (aggregateOk : ℕ → Bool) (a : ℕ) :
    (s.bitset.Contains a ↔ a ∈ s.allocated) ∧
      (a ∈ (w.processEvents aggregateOk watcherPos events).addressMap watcherPos pid ↔
        a ∈ s.allocated) := by
  have hinv : s.Inv := Run.steps_invariant
    (fun _ _ _ hinv hl hstep => hinv.step hl.1 hl.2 hstep) inv_init hok hrun
  obtain ⟨hset, hevents⟩ := hinv.agree hquiet a
  refine ⟨hset.symm, ?_⟩
  rw [hevents]
  refine Worker.mem_addressMap_processEvents hpid hlive hdecodes ?_
  rw [hempty]
  simp

/-- The choices of an environment in which the allocator hands out one address. -/
def oneAddress : Choice := { address := 65536, period := some 8 }

/-- What the profiler decodes for an allocation. -/
def sampleAt (addr : ℕ) : WorkerEvent :=
  .sample { pid := 4, addr := addr, period := 8, value := 8, timestamp := 0
            output := ⟨[⟨1, 1, 1, 0, 0⟩], [], [], [], 4, 4⟩ }

/-- A thread allocates and another one frees with `dallocx` and allocates again. -/
def reuseRun : List Label :=
  .call 0 (.mallocx 8) true :: List.replicate 13 (.run 0 oneAddress) ++
    .call 1 (.dallocx 65536) true :: List.replicate 10 (.run 1 oneAddress) ++
    .call 1 (.mallocx 8) true :: List.replicate 12 (.run 1 oneAddress)

theorem records_agree_reuse :
    ∃ s, Run.steps step {} reuseRun = some s ∧ s.allocated = {65536} ∧
      ∀ a, (s.bitset.Contains a ↔ a ∈ s.allocated) ∧
        (a ∈ (Worker.allocWorker.processEvents (fun _ => true) 0
          [sampleAt 65536, .deallocation 65536 4, sampleAt 65536]).addressMap 0 4 ↔
            a ∈ s.allocated) := by
  have hend : (Run.steps step {} reuseRun).any (fun s => s.allocated = {65536} ∧ s.Quiescent ∧
      List.Forall₂ (Decodes 4) s.events
        [sampleAt 65536, .deallocation 65536 4, sampleAt 65536]) = true := by decide +kernel
  obtain ⟨s, hrun, hend⟩ := (Option.any_eq_true _ _).mp hend
  obtain ⟨hallocated, hquiet, hdecodes⟩ := of_decide_eq_true hend
  exact ⟨s, hrun, hallocated, fun a =>
    records_agree (by decide +kernel) hrun hquiet (by decide) rfl rfl hdecodes _ a⟩

/-- A block is handed out again between the free of a `dallocx` call and its event.
The block is then allocated, and the profiler has no live allocation for it. -/
def gapRun : List Label :=
  .call 0 (.mallocx 8) true :: List.replicate 13 (.run 0 oneAddress) ++
    .call 0 (.dallocx 65536) true :: .run 0 oneAddress ::
    .call 1 (.mallocx 8) true :: List.replicate 10 (.run 1 oneAddress) ++
    List.replicate 9 (.run 0 oneAddress)

theorem dallocx_gap_loses_address :
    ∃ s, Run.steps step {} gapRun = some s ∧ Run.Along step Promised {} gapRun ∧ s.Quiescent ∧
      List.Forall₂ (Decodes 4) s.events [sampleAt 65536, sampleAt 0, .deallocation 65536 4] ∧
      65536 ∈ s.allocated ∧
      65536 ∉ (Worker.allocWorker.processEvents (fun _ => true) 0
        [sampleAt 65536, sampleAt 0, .deallocation 65536 4]).addressMap 0 4 := by
  have hend : (Run.steps step {} gapRun).any (fun s => s.Quiescent ∧
      List.Forall₂ (Decodes 4) s.events [sampleAt 65536, sampleAt 0, .deallocation 65536 4] ∧
      65536 ∈ s.allocated) = true := by decide +kernel
  obtain ⟨s, hrun, hend⟩ := (Option.any_eq_true _ _).mp hend
  obtain ⟨hquiet, hdecodes, hallocated⟩ := of_decide_eq_true hend
  exact ⟨s, hrun, by decide +kernel, hquiet, hdecodes, hallocated, by decide +kernel⟩

end Process

end Ddprof
