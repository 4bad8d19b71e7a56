import Ddprof.MainLoop.Order

/-!
A drain call with no writer around: it ends, it passes on all records that were left in the ring
buffers, in order, and the ring buffers are empty afterwards.
-/

namespace Ddprof

namespace Loop

variable {s s' : Loop}

/-! ### Steps of a call

A turn of the outer loop takes a number of steps that is bounded by what is in the queue and in
the ring buffers. A turn that is followed by another one has read something.
-/

def unread (s : Loop) : ℕ :=
  ∑ i ∈ Finset.range s.size, ((s.ring i).items.length - (s.ring i).next)

def load (s : Loop) : ℕ := s.queue.length + s.unread

def turnsLeft (s : Loop) : ℕ :=
  match s.phase with
  | .idle | .failed => 0
  | .outer _ => s.unread + 1
  | .dequeue c _ | .process c | .advance c _ | .readNext c _ | .pop c =>
    s.unread + min c.newEvents 1

def turnSteps (s : Loop) : ℕ :=
  match s.phase with
  | .idle | .failed | .outer _ => 0
  | .dequeue _ i => 4 * s.load + 4 + (s.size - i) + s.unread
  | .process _ => 4 * s.load + 3
  | .advance _ _ => 4 * s.load + 2
  | .readNext _ _ => 4 * s.load + 1
  | .pop _ => 4 * s.load

def turnBound (s : Loop) : ℕ := 4 * s.load + s.size + s.unread + 5

def stepsLeft (s : Loop) : ℕ := s.turnsLeft * s.turnBound + s.turnSteps

theorem Touches.next_le {ring ring' : Ring} (h : Touches ring ring') : ring.next ≤ ring'.next := by
  rcases h with rfl | hpass | ⟨j, hf⟩
  · exact le_rfl
  · exact hpass.next_le
  · exact hf.next.ge

theorem unread_le (hsize : s'.size = s.size) (h : ∀ i, Touches (s.ring i) (s'.ring i)) :
    s'.unread ≤ s.unread := by
  rw [unread, unread, hsize]
  refine Finset.sum_le_sum fun i _ => ?_
  have hlen := (h i).sameRecords.length
  have hnext := (h i).next_le
  omega

theorem unread_readEvent {i : ℕ} {r : Ring} {ptr : EventPtr} (hi : i < s.size)
    (hpass : (s.ring i).Passes r) (hreads : (s.ring i).Reads r (some ptr)) :
    (s.setRing i r).unread < s.unread := by
  have htouches := touches_setRing (s := s) (i := i) (.inr (.inl hpass))
  refine Finset.sum_lt_sum (fun i' _ => ?_) ⟨i, Finset.mem_range.mpr hi, ?_⟩
  · have hlen := (htouches i').sameRecords.length
    have hnext := (htouches i').next_le
    omega
  · obtain ⟨content, hholds, -, hnext, hskips⟩ := eventWrapper_spec hpass hreads
    rw [ring_setRing_self, hpass.items, hnext]
    have hitem := hholds.item
    rw [hpass.items] at hitem
    have hlt := (List.getElem?_eq_some_iff.mp hitem).1
    have hle := hskips.le
    omega

theorem unread_push (e : EventWrapper) (phase : LoopPhase) :
    Loop.unread { s.push e with phase := phase } = s.unread := rfl

theorem length_push {i : ℕ} {r : Ring} (h : s.Inv) (e : EventWrapper) :
    ((s.setRing i r).push e).queue.length = s.queue.length + 1 := by
  have hperm := (heap_push (s := s.setRing i r) h.heap e).2
  rw [hperm.length_eq, List.length_cons]
  rfl

theorem length_pop {c : Call} (h : s.Inv) (hphase : s.phase = .pop c) :
    (s.pop c).queue.length + 1 = s.queue.length := by
  have hheap := h.heap
  have hknown := h.phase
  simp only [PhaseInv, hphase] at hknown
  cases hqueue : s.queue with
  | nil => exact absurd hqueue hknown.1
  | cons evt rest =>
    rw [hqueue] at hheap
    rw [Loop.pop, hqueue, (BinaryHeap.pop_spec hheap).2.length_eq, List.length_cons]

/-- With a step, less is left of the turn, or a new turn begins. -/
theorem Works.turn (h : s.Inv) (hw : Works s s') : s'.turnBound ≤ s.turnBound ∧
    (s'.turnsLeft ≤ s.turnsLeft ∧ s'.turnSteps < s.turnSteps ∨
      s'.turnsLeft < s.turnsLeft ∧ s'.turnSteps < s'.turnBound) := by
  have hunread := unread_le hw.sameContents.size hw.touches
  have hknown := h.phase
  cases hw with
  | stop hphase | start hphase | dequeued hphase | finished hphase | again hphase
  | tooRecent hphase | process hphase | advancePerf hphase | advanceMpsc hphase | noNext hphase =>
    simp only [turnBound, turnsLeft, turnSteps, load, setRing, hphase] at hunread ⊢
    omega
  | inFlight hphase hi | readNothing hphase hi =>
    simp only [turnBound, turnsLeft, turnSteps, load, setRing, hphase] at hunread ⊢
    omega
  | readEvent hphase hi hpass hreads hnext =>
    have hlt := unread_readEvent hi hpass hreads
    simp only [turnBound, turnsLeft, turnSteps, load, unread_push, length_push h, hphase]
    simp only [push, setRing] at hlt ⊢
    omega
  | next hphase hpass hreads =>
    simp only [PhaseInv, hphase] at hknown
    have hlt := unread_readEvent hknown.1.lt hpass hreads
    simp only [turnBound, turnsLeft, turnSteps, load, unread_push, length_push h, hphase]
    simp only [push, setRing] at hlt ⊢
    omega
  | pop hphase =>
    have hlen := length_pop h hphase
    simp only [turnBound, turnsLeft, turnSteps, load, Loop.pop, hphase] at hunread hlen ⊢
    omega

theorem Works.stepsLeft_lt (h : s.Inv) (hw : Works s s') : s'.stepsLeft < s.stepsLeft := by
  obtain ⟨hbound, ⟨hturns, hsteps⟩ | ⟨hturns, hsteps⟩⟩ := hw.turn h
  · exact Nat.add_lt_add_of_le_of_lt (Nat.mul_le_mul hturns hbound) hsteps
  · calc s'.turnsLeft * s'.turnBound + s'.turnSteps
          < s'.turnsLeft * s'.turnBound + s'.turnBound := Nat.add_lt_add_left hsteps _
      _ = (s'.turnsLeft + 1) * s'.turnBound := (Nat.succ_mul _ _).symm
      _ ≤ s.turnsLeft * s.turnBound := Nat.mul_le_mul hturns hbound
      _ ≤ s.stepsLeft := Nat.le_add_right _ _

/-! ### Released space -/

/-- The first record that has not been released is not done. -/
def Swept (s : Loop) : Prop :=
  ∀ i it, (s.ring i).items[(s.ring i).released]? = some it → it.done = false

theorem Swept.works (h : s.Swept) (hw : Works s s') : s'.Swept := by
  intro i it hit
  rcases hw.touches i with heq | hpass | ⟨j, hf⟩
  · rw [heq] at hit
    exact h i it hit
  · rw [hpass.items, hpass.released] at hit
    exact h i it hit
  · exact hf.first it hit

variable {label : LoopLabel}

theorem Swept.extended (h : s.Swept) (he : Extended s s' label) :
    s'.Swept := by
  intro i it hit
  rw [(he.ring i).released] at hit
  by_contra hdone
  rw [Bool.not_eq_false] at hdone
  obtain ⟨it', hit', hdone'⟩ := ((he.ring i).grows.done_iff _).mp ⟨it, hit, hdone⟩
  rw [h i it' hit'] at hdone'
  cases hdone'

theorem Swept.step (h : s.Swept) (hi : s.Inv) (hm : Moves s label s') :
    s'.Swept := by
  cases hm with
  | around he => exact h.extended he
  | work hw => exact h.works hw
  | call drain => exact h
  | restart =>
    intro i it hit
    obtain ⟨hvalid, hitems⟩ := (hi.accounts.valid i).at.init_spec
    change (s.ring i).init.items[(s.ring i).init.released]? = some it at hit
    rw [hvalid.released_eq, hitems] at hit
    exact h i it hit

/-! ### The drain call -/

def pending (s : Loop) : List (ℕ × ℕ) :=
  (List.range s.size).flatMap fun i =>
    ((List.range (s.ring i).items.length).filter fun j =>
      (s.ring i).items[j]?.any fun it => !it.done).map (i, ·)

theorem mem_pending {i j : ℕ} : (i, j) ∈ s.pending ↔
    i < s.size ∧ ∃ it, (s.ring i).items[j]? = some it ∧ it.done = false := by
  simp only [pending, List.mem_flatMap, List.mem_range, List.mem_map, List.mem_filter,
    Option.any_eq_true, Bool.not_eq_true', Prod.mk.injEq]
  constructor
  · rintro ⟨i', hi, j', ⟨-, hit⟩, rfl, rfl⟩
    exact ⟨hi, hit⟩
  · rintro ⟨hi, it, hit, hdone⟩
    exact ⟨i, hi, j, ⟨(List.getElem?_eq_some_iff.mp hit).1, it, hit, hdone⟩, rfl, rfl⟩

theorem nodup_pending (s : Loop) : s.pending.Nodup := by
  refine List.nodup_flatMap.mpr ⟨fun i _ => ?_, ?_⟩
  · exact (List.nodup_range.filter _).map fun j j' heq => (Prod.mk.inj heq).2
  · refine List.nodup_range.imp fun {i i'} hne id hid hid' => ?_
    obtain ⟨j, -, rfl⟩ := List.mem_map.mp hid
    obtain ⟨j', -, heq⟩ := List.mem_map.mp hid'
    exact hne (Prod.mk.inj heq).1.symm

/-- What a drain call that began in `s` and has returned in `s'` has done. -/
structure Drains (s s' : Loop) : Prop where
  processed : ∃ new, s'.log = s.log ++ new ∧ (new.map Processed.id).Perm s.pending ∧
    new.Pairwise s.InOrder ∧
    ∀ p ∈ new, ∃ it, (s.ring p.bufferIdx).items[p.index]? = some it ∧ p.bytes = it.content ∧
      p.timestamp = s.timestamp p.bufferIdx it.content
  empty : ∀ i < s.size, (s'.ring i).rb.readerPos = (s'.ring i).rb.writerPos
  queue : s'.queue = []

/-- The variables of a drain call, at the condition of the outer loop and within a turn. -/
def DrainCall (c : Call) : Prop :=
  c.drain = true ∧ c.deadline = timePointMax ∧ c.now ≤ timePointMax

def DrainTurn (c : Call) : Prop :=
  c.drain = true ∧ c.deadline = timePointMax ∧ c.maxTimestamp = timePointMax

/-- A drain call that began in `s` is at `t`. It leaves nothing unread but what is behind a
record in flight. -/
structure Draining (s t : Loop) : Prop where
  inv : t.Inv
  sorted : t.PerfSorted
  swept : t.Swept
  same : SameContents s t
  going : t.terminationRequested = false
  call : OfCall DrainCall DrainTurn t.phase
  ordered : Ordered (fun _ _ => False) s.log t
  finished : t.phase = .idle → t.queue = [] ∧ ∀ i j ts, ¬ t.Awaits i j ts

section Drain

variable {t t' : Loop}

theorem timestamp_le (s : Loop) (i : ℕ) (content : List Circular.Byte) :
    s.timestamp i content ≤ timePointMax :=
  perfClockTimePoint_le _

theorem Draining.farBehind (h : Draining s t)
    (hcommitted : ∀ i < s.size, ∀ it ∈ (s.ring i).items, it.committed = true) {c : Call} {i : ℕ}
    (hphase : t.phase = .dequeue c i) :
    t.FarBehind (fun _ => False) c.maxTimestamp i := by
  intro _ j j' it ts _ _ hit _ hcases ha
  have hcall := h.call
  rw [hphase] at hcall
  rcases hcases with hnot | hlt
  · obtain ⟨it', hit', -, heq, -⟩ := (h.same.ring i).item j it hit
    have hi : i < s.size := h.same.size ▸ ha.1
    rw [← heq, hcommitted i hi it' (List.mem_of_getElem? hit')] at hnot
    cases hnot
  · rw [hcall.2.2] at hlt
    exact absurd (t.timestamp_le i it.content) (not_le.mpr hlt)

/-- The call does not return before everything is done. -/
theorem Draining.finished_of_works (h : Draining s t) (hw : Works t t') (hidle : t'.phase = .idle) :
    t'.queue = [] ∧ ∀ i j ts, ¬ t'.Awaits i j ts := by
  have hcall := h.call
  have hturn := h.ordered.turn
  cases hw with
  | stop hphase hstop =>
    rw [hphase] at hcall
    obtain ⟨-, hdeadline, hnow⟩ := hcall
    rcases hstop with hrequest | hlate
    · rw [h.going] at hrequest
      cases hrequest
    · rw [hdeadline] at hlate
      exact absurd hnow (not_le.mpr hlate)
  | tooRecent hphase hqueue hlt =>
    have hacc := h.inv.accounts
    simp only [live, hand, hphase, hqueue] at hacc
    rw [hphase] at hcall
    obtain ⟨-, content, -, hts⟩ := hacc.entry _ List.mem_cons_self
    rw [hcall.2.2, hts] at hlt
    exact absurd (t.timestamp_le _ content) (not_le.mpr hlt)
  | finished hphase hqueue =>
    refine ⟨hqueue, fun i j ts ha => ?_⟩
    rw [TurnInv, hphase] at hturn
    rcases h.inv.exists_queued_le h.sorted hphase (hturn i) ha with hfalse | ⟨e, he, -⟩
    · exact hfalse
    · rw [hqueue] at he
      cases he
  | start | inFlight | readNothing | readEvent | dequeued | again | process | advancePerf
  | advanceMpsc | noNext | next | pop => cases hidle

theorem Draining.works (h : Draining s t)
    (hcommitted : ∀ i < s.size, ∀ it ∈ (s.ring i).items, it.committed = true)
    (hw : Works t t') : Draining s t' where
  inv := h.inv.works (h.sorted.nextInOrder h.inv .work) hw
  sorted := h.sorted.sameContents hw.sameContents
  swept := h.swept.works hw
  same := h.same.trans hw.sameContents
  going := by
    have hgoing := h.going
    cases hw <;> exact hgoing
  call := h.call.works
    (fun c hc => ⟨hc.1, hc.2.1, if_pos hc.1⟩)
    (fun c hc => hc)
    (fun c hc => ⟨hc.1, hc.2.1, h.inv.clock⟩) hw
  ordered := h.ordered.works h.inv h.sorted (fun _ _ => False.elim)
    (fun c i hphase => h.farBehind hcommitted hphase) hw
  finished := h.finished_of_works hw

theorem Draining.step (h : Draining s t)
    (hcommitted : ∀ i < s.size, ∀ it ∈ (s.ring i).items, it.committed = true)
    (hlabel : label = .work ∨ ∃ d, label = .tick d) (hstep : t.step label = some t') :
    Draining s t' ∧ t'.stepsLeft + (if label == .work then 1 else 0) ≤ t.stepsLeft := by
  rcases hlabel with rfl | ⟨d, rfl⟩
  · have hw := h.inv.works_of_step hstep
    exact ⟨h.works hcommitted hw, hw.stepsLeft_lt h.inv⟩
  · have hm : Moves t (.tick d) t' := h.inv.moves trivial hstep
    have horder : t.NextInOrder (.tick d) := trivial
    have hinv := h.inv.step horder hm
    simp only [Loop.step, Loop.tick, Option.ite_none_right_eq_some, Option.some.injEq] at hstep
    obtain ⟨-, rfl⟩ := hstep
    refine ⟨⟨hinv, h.sorted, h.swept, ⟨h.same.size, h.same.timestamp, h.same.ring⟩, h.going, h.call,
      ⟨?_, h.ordered.turn⟩, h.finished⟩, le_rfl⟩
    obtain ⟨new, hlog, hnew⟩ := h.ordered.log
    exact ⟨new, hlog, hnew.pairwise, hnew.le⟩

theorem draining_call (hi : s.Inv) (hsorted : s.PerfSorted) (hswept : s.Swept)
    (hgo : s.terminationRequested = false) (hcall : s.step (.call true) = some t) :
    Draining s t := by
  have hm : Moves s (.call true) t := hi.moves trivial hcall
  have horder : s.NextInOrder (.call true) := trivial
  have hinv := hi.step horder hm
  simp only [Loop.step, Loop.call] at hcall
  split at hcall
  · cases hcall
    exact {
      inv := hinv
      sorted := hsorted
      swept := hswept
      same := ⟨rfl, rfl, fun i => .refl _⟩
      going := hgo
      call := ⟨rfl, rfl, hi.clock⟩
      ordered := ⟨⟨[], (List.append_nil _).symm, List.Pairwise.nil, List.forall_mem_nil _⟩, trivial⟩
      finished := by rintro ⟨⟩ }
  · cases hcall

section Finished

variable (h : Draining s t) (hover : t.phase = .idle)
  (hcommitted : ∀ i < s.size, ∀ it ∈ (s.ring i).items, it.committed = true)
include h hover hcommitted

theorem Draining.done {i j : ℕ} {it : Item} (hi : i < s.size)
    (hit : (t.ring i).items[j]? = some it) : it.done = true := by
  obtain ⟨it', hit', -, heq, -⟩ := (h.same.ring i).item j it hit
  have hc := hcommitted i hi it' (List.mem_of_getElem? hit')
  by_contra hnot
  exact (h.finished hover).2 i j _
    ⟨h.same.size ▸ hi, it, hit, heq ▸ hc, by rwa [Bool.not_eq_true] at hnot, rfl⟩

theorem Draining.mem_new {new : List Processed} (hinv : s.Inv) (hidle : s.phase = .idle)
    (hlog : t.log = s.log ++ new) (i j : ℕ) :
    (i, j) ∈ new.map Processed.id ↔ (i, j) ∈ s.pending := by
  have hacc := hinv.accounts
  have hacc' := h.inv.accounts
  simp only [live, hand, hidle] at hacc
  simp only [live, hand, hover] at hacc'
  have hids : t.log.map Processed.id = s.log.map Processed.id ++ new.map Processed.id := by
    rw [hlog, List.map_append]
  rw [mem_pending]
  constructor
  · intro hmem
    have hnot : (i, j) ∉ s.log.map Processed.id := by
      have hnodup := hacc'.logNodup
      rw [hids] at hnodup
      exact fun hold => List.disjoint_of_nodup_append hnodup hold hmem
    obtain ⟨p, hp, hid⟩ := List.mem_map.mp hmem
    have hlt := hacc'.inRange p (hlog ▸ List.mem_append_right _ hp)
    rw [Processed.id, Prod.mk.injEq] at hid
    rw [hid.1, h.same.size] at hlt
    rcases (hacc'.logged i j).mp (hids ▸ List.mem_append_right _ hmem) with ⟨it', hit', -⟩ | hnone
    · obtain ⟨it, hit, -⟩ := (h.same.ring i).item j it' hit'
      refine ⟨hlt, it, hit, ?_⟩
      by_contra hdone
      rw [Bool.not_eq_false] at hdone
      exact hnot ((hacc.logged i j).mpr (.inl ⟨it, hit, hdone⟩))
    · cases hnone
  · rintro ⟨hi, it, hit, hdone⟩
    have hlen := (List.getElem?_eq_some_iff.mp hit).1
    rw [← (h.same.ring i).length] at hlen
    have hget := List.getElem?_eq_getElem hlen
    have hmem := (hacc'.logged i j).mpr (.inl ⟨_, hget, h.done hover hcommitted hi hget⟩)
    rw [hids] at hmem
    refine (List.mem_append.mp hmem).resolve_left fun hold => ?_
    rcases (hacc.logged i j).mp hold with ⟨it', hit', hdone'⟩ | hnone
    · rw [hit] at hit'
      cases hit'
      rw [hdone] at hdone'
      cases hdone'
    · cases hnone

theorem Draining.drains (hinv : s.Inv) (hidle : s.phase = .idle) : Drains s t := by
  obtain ⟨new, hlog, hnew⟩ := h.ordered.log
  have hacc := h.inv.accounts
  have hnodup : (new.map Processed.id).Nodup := by
    have hnodup := hacc.logNodup
    rw [hlog, List.map_append] at hnodup
    exact hnodup.of_append_right
  refine ⟨⟨new, hlog, ?_, hnew.pairwise.imp fun {p q} hpq => ?_, fun p hp => ?_⟩, fun i hi => ?_,
    (h.finished hover).1⟩
  · refine (List.perm_ext_iff_of_nodup hnodup (nodup_pending s)).mpr fun id => ?_
    exact h.mem_new hover hcommitted hinv hidle hlog id.1 id.2
  · rw [InOrder, ← (h.same.ring p.bufferIdx).isPerf]
    exact hpq
  · obtain ⟨-, it', hit', -, hbytes, hts⟩ := hacc.record p (hlog ▸ List.mem_append_right _ hp)
    obtain ⟨it, hit, hcontent, -⟩ := (h.same.ring _).item _ it' hit'
    rw [← hcontent] at hbytes hts
    exact ⟨it, hit, hbytes, h.same.timestamp ▸ hts⟩
  · -- the release stops at a record that is not done, and there is none
    have hvalid := (hacc.valid i).at
    have hle := hvalid.released_le.trans hvalid.next_le
    refine hvalid.readerPos_eq_iff.mpr (hle.antisymm (not_lt.mp fun hlt => ?_))
    have hget := List.getElem?_eq_getElem hlt
    have hnot := h.swept i _ hget
    rw [h.done hover hcommitted hi hget] at hnot
    cases hnot

end Finished

variable {size : ℕ} {specs : ℕ → RingSpec} {watcherPos sampleType : ℕ → ℕ}

theorem swept_of_run (hspecs : ∀ i, 3 ≤ (specs i).order) {labels : List LoopLabel}
    (hok : Run.Along step (fun s label => s.Admissible label ∧ s.OrderedWrites label)
      (init size specs watcherPos sampleType) labels)
    (hrun : Run.steps step (init size specs watcherPos sampleType) labels = some s) :
    (s.Inv ∧ s.PerfSorted) ∧ s.Swept := by
  have hinit : (init size specs watcherPos sampleType).Swept := by
    intro i it hit
    rw [items_init i] at hit
    cases hit
  have hstep : ∀ (s : Loop) label (s' : Loop), (s.Inv ∧ s.PerfSorted) ∧ s.Swept →
      s.Admissible label ∧ s.OrderedWrites label → s.step label = some s' →
      (s'.Inv ∧ s'.PerfSorted) ∧ s'.Swept := fun _ _ _ h hok hstep =>
    ⟨ordered_step h.1 hok.1 hok.2 hstep, h.2.step h.1.1 (h.1.1.moves hok.1 hstep)⟩
  exact Run.steps_invariant hstep ⟨⟨inv_init hspecs, perfSorted_init⟩, hinit⟩ hok hrun

/-- A drain call takes a bounded number of steps, and it does not get stuck before it returns.
When it returns, it has passed on each record that was not done, in the order of the timestamps
and for each perf ring buffer in the order of the ring buffer; and all ring buffers are empty. -/
theorem drain_returns (hspecs : ∀ i, 3 ≤ (specs i).order) {labels : List LoopLabel}
    (hok : Run.Along step (fun s label => s.Admissible label ∧ s.OrderedWrites label)
      (init size specs watcherPos sampleType) labels)
    (hrun : Run.steps step (init size specs watcherPos sampleType) labels = some s)
    (hidle : s.phase = .idle) (hgo : s.terminationRequested = false)
    (hcommitted : ∀ i < s.size, ∀ it ∈ (s.ring i).items, it.committed = true) :
    ∃ bound, ∀ (steps : List LoopLabel) (t : Loop), (∀ l ∈ steps, l = .work ∨ ∃ d, l = .tick d) →
      Run.steps step s (.call true :: steps) = some t →
      steps.count .work ≤ bound ∧ (t.phase ≠ .idle → ∃ t', t.step .work = some t') ∧
        (t.phase = .idle → Drains s t) := by
  obtain ⟨⟨hinv, hsorted⟩, hswept⟩ := swept_of_run hspecs hok hrun
  obtain ⟨first, hcall⟩ : ∃ first, s.step (.call true) = some first :=
    ⟨_, by rw [Loop.step, Loop.call, hidle]⟩
  have hfirst := draining_call hinv hsorted hswept hgo hcall
  refine ⟨first.stepsLeft, fun steps t hlabels hsteps => ?_⟩
  obtain ⟨first', hfirst', hrest⟩ := Run.steps_cons.mp hsteps
  rw [hcall] at hfirst'
  cases hfirst'
  have halong : Run.Along step (fun _ l => l = .work ∨ ∃ d, l = .tick d) first steps :=
    Run.along_of_forall hlabels
  have hstep : ∀ u l u', Draining s u → (l = .work ∨ ∃ d, l = .tick d) → u.step l = some u' →
      Draining s u' ∧ u'.stepsLeft + (if l == .work then 1 else 0) ≤ u.stepsLeft :=
    fun u l u' hu hl hul => hu.step hcommitted hl hul
  have hcount := Run.countP_le_measure hstep hfirst halong hrest
  have ht := Run.steps_invariant (fun u l u' hu hl hul => (hstep u l u' hu hl hul).1) hfirst
    halong hrest
  refine ⟨(Nat.le_add_left _ _).trans hcount, fun hnot => ?_, fun hover => ?_⟩
  · have hfailed : t.phase ≠ .failed := by
      intro hphase
      have hc := ht.call
      rw [hphase] at hc
      exact hc
    obtain ⟨t', ht', -⟩ := ht.inv.work hnot hfailed
    exact ⟨t', ht'⟩
  · exact ht.drains hover hcommitted hinv hidle

end Drain

/-- A perf ring buffer in front of MPSC ring buffers. -/
def perfFirst : ℕ → RingSpec
  | 0 => .perf 6 (fun _ => 0) true
  | _ + 1 => .mpsc 7 (fun _ => 0) (fun _ => 0)

theorem order_perfFirst (i : ℕ) : 3 ≤ (perfFirst i).order := by
  cases i with
  | zero => exact (by decide : 3 ≤ 6)
  | succ i => exact (by decide : 3 ≤ 7)

def perfAndMpsc : Loop := init 2 perfFirst (fun _ => 0) (fun _ => PerfSample.time)

/-- Two records of one time, and two that are out of order. -/
def fillBoth : List LoopLabel :=
  .kernelWrite 0 (sampleRecord 100) :: .kernelWrite 0 (sampleRecord 100) ::
    (put 1 0 [(0, 9), (8, 120)] ++ put 1 1 [(0, 9), (8, 60)])

theorem drain_returns_merged :
    ∃ s t, Run.steps step perfAndMpsc fillBoth = some s ∧
      Run.steps step s (callFor true 26) = some t ∧ t.phase = .idle ∧
      t.log.map Processed.id = [(1, 1), (0, 0), (0, 1), (1, 0)] ∧ Drains s t := by
  have hend : (Run.steps step perfAndMpsc fillBoth).any (fun s =>
      s.phase = .idle ∧ s.terminationRequested = false ∧
      (∀ i < s.size, ∀ it ∈ (s.ring i).items, it.committed = true) ∧
      (Run.steps step s (callFor true 26)).any (fun t =>
        t.phase = .idle ∧ t.log.map Processed.id = [(1, 1), (0, 0), (0, 1), (1, 0)]) = true) =
      true := by
    decide +kernel
  obtain ⟨s, hrun, hend⟩ := (Option.any_eq_true _ _).mp hend
  obtain ⟨hidle, hgo, hcommitted, hend⟩ := of_decide_eq_true hend
  obtain ⟨t, hdrain, hend⟩ := (Option.any_eq_true _ _).mp hend
  obtain ⟨hover, hlog⟩ := of_decide_eq_true hend
  obtain ⟨bound, hbound⟩ :=
    drain_returns order_perfFirst (by decide +kernel) hrun hidle hgo hcommitted
  have hlabels : ∀ l ∈ List.replicate 26 LoopLabel.work, l = .work ∨ ∃ d, l = .tick d :=
    fun l hl => .inl (List.eq_of_mem_replicate hl)
  exact ⟨s, t, hrun, hdrain, hover, hlog, (hbound _ t hlabels hdrain).2.2 hover⟩

end Loop

end Ddprof
