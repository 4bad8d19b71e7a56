import Ddprof.MainLoop.Accounts

/-!
The invariant of the worker loop.

It joins the accounts of the worker with what a phase knows. Two facts carry it through the loop
over the queue. The event that has been processed stays on top of the queue until it is popped,
as long as the next record of its ring buffer is not older than it. And each MPSC ring buffer
has, among the records that the worker has passed or as the first one after these, a record that
is not done and is not processed in this turn; so a release never goes beyond what has been
read.
-/

namespace Ddprof

open Circular (Byte)
open BinaryHeap (IsHeap)

namespace Loop

variable {s s' : Loop} {c : Call} {evt : EventWrapper} {r : Ring} {ptr : EventPtr} {i : ℕ}

/-! ### The ring buffers of the loop -/

theorem ring_setRing (s : Loop) (i : ℕ) (r : Ring) :
    (s.setRing i r).ring = Function.update s.ring i r := by
  funext i'
  by_cases hi : i' = i
  · subst hi
    simp only [ring, setRing, Function.update_self]
  · simp only [ring, setRing, Function.update_of_ne hi]

theorem ring_setRing_self (s : Loop) (i : ℕ) (r : Ring) : (s.setRing i r).ring i = r := by
  rw [ring_setRing, Function.update_self]

theorem ring_setRing_of_ne (s : Loop) {i' : ℕ} (hne : i' ≠ i) (r : Ring) :
    (s.setRing i r).ring i' = s.ring i' := by
  rw [ring_setRing, Function.update_of_ne hne]

theorem timestamp_setRing (s : Loop) (i : ℕ) (r : Ring) :
    (s.setRing i r).timestamp = s.timestamp := by
  funext i' content
  by_cases hi : i' = i
  · subst hi
    simp only [timestamp, setRing, Function.update_self]
  · simp only [timestamp, setRing, Function.update_of_ne hi]

/-- Some record that is not done stops the release in this turn. -/
def Stops (ring : ℕ → Ring) (live : List EventWrapper) (maxTimestamp : ℤ) (i : ℕ) : Prop :=
  ¬ (ring i).IsPerf → ∃ m, (ring i).StopsAt m ∧
    (m = (ring i).next ∨ ∃ e ∈ live, e.id = (i, m) ∧ maxTimestamp < e.timestamp)

section Stops

variable {ring ring' : ℕ → Ring} {live live' : List EventWrapper} {maxTimestamp : ℤ}

theorem Stops.mono (h : Stops ring live maxTimestamp i)
    (hlive : ∀ e ∈ live, maxTimestamp < e.timestamp → e ∈ live') :
    Stops ring live' maxTimestamp i := by
  intro hperf
  obtain ⟨m, hm, hcases⟩ := h hperf
  refine ⟨m, hm, hcases.imp_right ?_⟩
  rintro ⟨e, he, hid, hlt⟩
  exact ⟨e, hlive e he hlt, hid, hlt⟩

theorem Stops.congr (h : Stops ring live maxTimestamp i) (hring : ring' i = ring i) :
    Stops ring' live maxTimestamp i := by
  unfold Stops
  rw [hring]
  exact h

theorem Stops.extend (h : Stops ring live maxTimestamp i) {fresh : List Byte → Prop}
    (he : Ring.Extends fresh (ring i) (ring' i)) : Stops ring' live maxTimestamp i := by
  intro hperf
  rw [he.isPerf] at hperf
  obtain ⟨m, ⟨hm, hstop⟩, hcases⟩ := h hperf
  refine ⟨m, ⟨he.next ▸ hm, fun it hit => ?_⟩, he.next ▸ hcases⟩
  by_contra hdone
  obtain ⟨it', hit', hdone'⟩ := (he.grows.done_iff m).mp ⟨it, hit, by simpa using hdone⟩
  rw [hstop it' hit'] at hdone'
  cases hdone'

theorem Stops.finish (h : Stops ring live maxTimestamp i) {j : ℕ}
    (hf : (ring i).Finishes (ring' i) j) (hj : j < (ring i).next)
    (hlive : (i, j) ∉ live.map EventWrapper.id) : Stops ring' live maxTimestamp i := by
  intro hperf
  rw [hf.isPerf] at hperf
  obtain ⟨m, ⟨hm, hstop⟩, hcases⟩ := h hperf
  have hne : j ≠ m := by
    rintro rfl
    rcases hcases with heq | ⟨e, he, hid, -⟩
    · omega
    · exact hlive (List.mem_map.mpr ⟨e, he, hid⟩)
  refine ⟨m, ⟨hf.next ▸ hm, fun it hit => hstop it ?_⟩, hf.next ▸ hcases⟩
  rwa [hf.items, List.getElem?_modify_ne _ _ hne] at hit

end Stops

/-! ### The invariant -/

/-- The records in the queue. An event that has been processed is on top of the queue until it
is popped, and does not count. -/
def live (s : Loop) : List EventWrapper :=
  match s.phase with
  | .advance _ _ | .readNext _ _ | .pop _ => s.queue.tail
  | _ => s.queue

/-- The record that has been passed on and not handed back. -/
def hand (s : Loop) : Option (ℕ × ℕ) :=
  match s.phase with
  | .advance _ evt => some evt.id
  | _ => none

structure InHand (s : Loop) (c : Call) (evt : EventWrapper) : Prop where
  top : s.queue.head? = some evt
  le : evt.timestamp ≤ c.maxTimestamp
  lt : evt.bufferIdx < s.size
  held : ∃ content, (s.ring evt.bufferIdx).Holds evt.event evt.index content ∧
    evt.timestamp = s.timestamp evt.bufferIdx content
  unique : evt.id ∉ s.queue.tail.map EventWrapper.id

/-- What is known of an event that has been handed back to a perf ring buffer. -/
structure HandedBack (s : Loop) (evt : EventWrapper) : Prop where
  top : s.queue.head? = some evt
  lt : evt.bufferIdx < s.size
  isPerf : (s.ring evt.bufferIdx).IsPerf
  free : (s.ring evt.bufferIdx).next = (s.ring evt.bufferIdx).released
  last : evt.index + 1 = (s.ring evt.bufferIdx).next
  item : ∃ it, (s.ring evt.bufferIdx).items[evt.index]? = some it ∧ it.committed = true ∧
    evt.timestamp = s.timestamp evt.bufferIdx it.content

def PhaseInv (s : Loop) : Prop :=
  match s.phase with
  | .idle | .outer _ | .failed => True
  | .dequeue c i => i ≤ s.size ∧ ∀ i' < i, Stops s.ring s.queue c.maxTimestamp i'
  | .process c => ∀ i < s.size, Stops s.ring s.queue c.maxTimestamp i
  | .advance c evt => s.InHand c evt ∧ ∀ i < s.size, Stops s.ring s.queue.tail c.maxTimestamp i
  | .readNext c evt =>
    s.HandedBack evt ∧ ∀ i < s.size, Stops s.ring s.queue.tail c.maxTimestamp i
  | .pop c => s.queue ≠ [] ∧ ∀ i < s.size, Stops s.ring s.queue.tail c.maxTimestamp i

structure Inv (s : Loop) : Prop where
  accounts : Accounts s.size s.ring s.timestamp s.log s.live s.hand
  heap : IsHeap EventWrapper.timestamp s.queue
  phase : s.PhaseInv
  clock : s.clock ≤ timePointMax

/-- The next record of the ring buffer is not older than the one that has been processed. -/
def NextInOrder (s : Loop) : LoopLabel → Prop
  | .work =>
    match s.phase with
    | .readNext _ evt => ∀ it,
      (s.ring evt.bufferIdx).items[(s.ring evt.bufferIdx).next]? = some it →
        evt.timestamp ≤ s.timestamp evt.bufferIdx it.content
    | _ => True
  | _ => True

instance (s : Loop) (label : LoopLabel) : Decidable (s.NextInOrder label) := by
  unfold NextInOrder
  simp only [← Option.mem_def]
  split <;> try split
  all_goals infer_instance

/-! ### What the worker does -/

/-- The steps of the worker, with what they do to the ring buffer that they touch. -/
inductive Works (s : Loop) : Loop → Prop
  | stop {c : Call} (hphase : s.phase = .outer c)
      (hstop : s.terminationRequested = true ∨ c.deadline < c.now) :
      Works s { s with phase := .idle }
  | start {c : Call} (hphase : s.phase = .outer c) (hgo : s.terminationRequested = false)
      (hnow : c.now ≤ c.deadline) :
      Works s { s with phase := .dequeue { c with
        maxTimestamp := if c.drain then timePointMax else c.now - maxSampleLatency
        newEvents := 0 } 0 }
  | inFlight {c : Call} {i : ℕ} (hphase : s.phase = .dequeue c i) (hi : i < s.size)
      (hperf : (s.ring i).IsPerf) (hinflight : (s.ring i).next ≠ (s.ring i).released) :
      Works s { s with phase := .dequeue c (i + 1) }
  | readNothing {c : Call} {i : ℕ} {r : Ring} (hphase : s.phase = .dequeue c i) (hi : i < s.size)
      (hpass : (s.ring i).Passes r) (hreads : (s.ring i).Reads r none) :
      Works s { s.setRing i r with phase := .dequeue c (i + 1) }
  | readEvent {c : Call} {i : ℕ} {r : Ring} {ptr : EventPtr} (hphase : s.phase = .dequeue c i)
      (hi : i < s.size) (hpass : (s.ring i).Passes r) (hreads : (s.ring i).Reads r (some ptr))
      {i' : ℕ} (hnext : i' = i + 1 ∧ ((s.ring i).IsPerf ∨
          c.maxTimestamp < ((s.setRing i r).eventWrapper i ptr).timestamp) ∨
        i' = i ∧ ¬ (s.ring i).IsPerf ∧
          ((s.setRing i r).eventWrapper i ptr).timestamp ≤ c.maxTimestamp) :
      Works s { (s.setRing i r).push ((s.setRing i r).eventWrapper i ptr) with
        phase := .dequeue { c with newEvents := c.newEvents + 1 } i' }
  | dequeued {c : Call} {i : ℕ} (hphase : s.phase = .dequeue c i) (hi : s.size ≤ i) :
      Works s { s with phase := .process c }
  | finished {c : Call} (hphase : s.phase = .process c) (hqueue : s.queue = [])
      (hnew : c.newEvents = 0) : Works s { s with phase := .idle }
  | again {c : Call} (hphase : s.phase = .process c) (hqueue : s.queue = [])
      (hnew : c.newEvents ≠ 0) : Works s { s with phase := .outer { c with now := s.clock } }
  | tooRecent {c : Call} {evt : EventWrapper} {rest : List EventWrapper}
      (hphase : s.phase = .process c) (hqueue : s.queue = evt :: rest)
      (hlt : c.maxTimestamp < evt.timestamp) : Works s { s with phase := .idle }
  | process {c : Call} {evt : EventWrapper} {rest : List EventWrapper}
      (hphase : s.phase = .process c) (hqueue : s.queue = evt :: rest)
      (hle : evt.timestamp ≤ c.maxTimestamp) :
      Works s { s with log := s.log ++ [s.processed evt], phase := .advance c evt }
  | advancePerf {c : Call} {evt : EventWrapper} {r : Ring} (hphase : s.phase = .advance c evt)
      (hperf : (s.ring evt.bufferIdx).IsPerf)
      (hfinishes : (s.ring evt.bufferIdx).Finishes r evt.index) :
      Works s { s.setRing evt.bufferIdx r with phase := .readNext c evt }
  | advanceMpsc {c : Call} {evt : EventWrapper} {r : Ring} (hphase : s.phase = .advance c evt)
      (hmpsc : ¬ (s.ring evt.bufferIdx).IsPerf)
      (hfinishes : (s.ring evt.bufferIdx).Finishes r evt.index) :
      Works s { s.setRing evt.bufferIdx r with phase := .pop c }
  | noNext {c : Call} {evt : EventWrapper} {r : Ring} (hphase : s.phase = .readNext c evt)
      (hpass : (s.ring evt.bufferIdx).Passes r) (hreads : (s.ring evt.bufferIdx).Reads r none) :
      Works s { s.setRing evt.bufferIdx r with phase := .pop c }
  | next {c : Call} {evt : EventWrapper} {r : Ring} {ptr : EventPtr}
      (hphase : s.phase = .readNext c evt) (hpass : (s.ring evt.bufferIdx).Passes r)
      (hreads : (s.ring evt.bufferIdx).Reads r (some ptr)) :
      Works s { (s.setRing evt.bufferIdx r).push
          ((s.setRing evt.bufferIdx r).eventWrapper evt.bufferIdx ptr) with phase := .pop c }
  | pop {c : Call} (hphase : s.phase = .pop c) : Works s (s.pop c)

theorem hasInflightEvents_iff {p : PerfRing} (h : (Ring.perf p).Valid) :
    p.rb.hasInflightEvents = true ↔ (Ring.perf p).next ≠ (Ring.perf p).released := by
  have hinv := h.at.1
  rw [RingBuffer.hasInflightEvents, decide_eq_true_iff, hinv.intermediate, hinv.layout.readerPos]
  refine not_congr ⟨fun heq => ?_, fun heq => by rw [heq]⟩
  exact hinv.layout.tiled.pos_inj hinv.read_le (hinv.released_le.trans hinv.read_le) heq

theorem works_outer (hphase : s.phase = .outer c) : Works s (s.outer c) := by
  unfold Loop.outer
  by_cases hgo : (!s.terminationRequested && decide (c.now ≤ c.deadline)) = true
  · rw [if_pos hgo]
    rw [Bool.and_eq_true, Bool.not_eq_true', decide_eq_true_iff] at hgo
    exact .start hphase hgo.1 hgo.2
  · rw [if_neg hgo]
    rw [Bool.and_eq_true, Bool.not_eq_true', decide_eq_true_iff, not_and_or,
      Bool.not_eq_false, not_le] at hgo
    exact .stop hphase hgo

theorem works_dequeue (hvalid : ∀ i, (s.ring i).Valid) (hphase : s.phase = .dequeue c i) :
    ∃ s', s.dequeue c i = some s' ∧ Works s s' := by
  unfold Loop.dequeue
  by_cases hi : i < s.size
  · rw [if_pos hi]
    cases hring : s.ring i with
    | perf p =>
      have hv : (Ring.perf p).Valid := hring ▸ hvalid i
      have hperf : (s.ring i).IsPerf := hring ▸ trivial
      by_cases hflight : p.rb.hasInflightEvents = true
      · simp only [hflight, if_true]
        refine ⟨_, rfl, .inFlight hphase hi hperf ?_⟩
        rw [hring]
        exact (hasInflightEvents_iff hv).mp hflight
      · have hfree : (s.ring i).next = (s.ring i).released := by
          rw [hring]
          exact not_not.mp (mt (hasInflightEvents_iff hv).mpr hflight)
        obtain ⟨r, event, hread, hpass, hreads⟩ := (hvalid i).readEvent fun _ => hfree
        rw [hring] at hread
        simp only [hflight, Bool.false_eq_true, if_false, hread, Option.map_some]
        cases event with
        | none => exact ⟨_, rfl, .readNothing hphase hi hpass hreads⟩
        | some ptr => exact ⟨_, rfl, .readEvent hphase hi hpass hreads (.inl ⟨rfl, .inl hperf⟩)⟩
    | mpsc ch =>
      have hmpsc : ¬ (s.ring i).IsPerf := by
        rw [hring]
        exact id
      obtain ⟨r, event, hread, hpass, hreads⟩ := (hvalid i).readEvent fun hp => absurd hp hmpsc
      rw [hring] at hread
      simp only [hread, Option.map_some]
      cases event with
      | none => exact ⟨_, rfl, .readNothing hphase hi hpass hreads⟩
      | some ptr =>
        refine ⟨_, rfl, .readEvent hphase hi hpass hreads ?_⟩
        split_ifs with hlt
        · exact .inl ⟨rfl, .inr hlt⟩
        · exact .inr ⟨rfl, hmpsc, not_lt.mp hlt⟩
  · rw [if_neg hi]
    exact ⟨_, rfl, .dequeued hphase (not_lt.mp hi)⟩

theorem works_process (hphase : s.phase = .process c) : Works s (s.process c) := by
  unfold Loop.process
  split
  · rename_i hqueue
    split_ifs with hnew
    · exact .finished hphase hqueue hnew
    · exact .again hphase hqueue hnew
  · rename_i evt rest hqueue
    split_ifs with hlt
    · exact .tooRecent hphase hqueue hlt
    · exact .process hphase hqueue (not_lt.mp hlt)

theorem works_advance (hvalid : ∀ i, (s.ring i).Valid)
    (hphase : s.phase = .advance c evt) (hhand : s.InHand c evt)
    (hstops : Stops s.ring s.queue.tail c.maxTimestamp evt.bufferIdx) :
    ∃ s', s.advance c evt = some s' ∧ Works s s' := by
  obtain ⟨content, hholds, -⟩ := hhand.held
  obtain ⟨r, hadv, hfinishes⟩ := hholds.advance (hvalid _) fun hperf => by
    obtain ⟨m, hm, hcases⟩ := hstops hperf
    refine ⟨m, hm, ?_⟩
    rintro rfl
    rcases hcases with heq | ⟨e, he, hid, -⟩
    · exact absurd heq hholds.lt.ne
    · exact hhand.unique (List.mem_map.mpr ⟨e, he, hid⟩)
  unfold Loop.advance
  rw [hadv, Option.map_some]
  cases r with
  | perf p =>
    have hperf : (s.ring evt.bufferIdx).IsPerf := hfinishes.isPerf ▸ trivial
    exact ⟨_, rfl, .advancePerf hphase hperf hfinishes⟩
  | mpsc ch =>
    have hmpsc : ¬ (s.ring evt.bufferIdx).IsPerf := hfinishes.isPerf ▸ id
    exact ⟨_, rfl, .advanceMpsc hphase hmpsc hfinishes⟩

theorem works_readNext (hvalid : ∀ i, (s.ring i).Valid)
    (hphase : s.phase = .readNext c evt) (hback : s.HandedBack evt) :
    ∃ s', s.readNext c evt = some s' ∧ Works s s' := by
  obtain ⟨r, event, hread, hpass, hreads⟩ :=
    (hvalid evt.bufferIdx).readEvent fun _ => hback.free
  unfold Loop.readNext
  rw [hread, Option.map_some]
  cases event with
  | none => exact ⟨_, rfl, .noNext hphase hpass hreads⟩
  | some ptr => exact ⟨_, rfl, .next hphase hpass hreads⟩

theorem Inv.work (h : s.Inv) (hidle : s.phase ≠ .idle) (hfailed : s.phase ≠ .failed) :
    ∃ s', s.work = some s' ∧ Works s s' := by
  have hvalid := h.accounts.valid
  have hknown := h.phase
  unfold Loop.work
  cases hphase : s.phase with
  | idle => exact absurd hphase hidle
  | failed => exact absurd hphase hfailed
  | outer c => exact ⟨_, rfl, works_outer hphase⟩
  | dequeue c i => exact works_dequeue hvalid hphase
  | process c => exact ⟨_, rfl, works_process hphase⟩
  | advance c evt =>
    rw [PhaseInv, hphase] at hknown
    exact works_advance hvalid hphase hknown.1 (hknown.2 _ hknown.1.lt)
  | readNext c evt =>
    rw [PhaseInv, hphase] at hknown
    exact works_readNext hvalid hphase hknown.1
  | pop c => exact ⟨_, rfl, .pop hphase⟩

/-! ### The accounts along the steps of the worker -/

theorem passes_update (hvalid : ∀ i, (s.ring i).Valid) (hpass : (s.ring i).Passes r) (i' : ℕ) :
    (s.ring i').Passes ((s.setRing i r).ring i') := by
  rw [ring_setRing]
  exact (Function.forall_update_iff s.ring fun i' r' => (s.ring i').Passes r').mpr
    ⟨hpass, fun i' _ => .refl (hvalid i')⟩ i'

/-- What has been read and is in the queue now. -/
theorem eventWrapper_spec (hpass : (s.ring i).Passes r)
    (hreads : (s.ring i).Reads r (some ptr)) :
    ∃ content, r.Holds ptr ((s.setRing i r).eventWrapper i ptr).index content ∧
      ((s.setRing i r).eventWrapper i ptr).timestamp = s.timestamp i content ∧
      r.next = ((s.setRing i r).eventWrapper i ptr).index + 1 ∧
      Ring.Skips (s.ring i).items (s.ring i).next
        ((s.setRing i r).eventWrapper i ptr).index := by
  have hring := ring_setRing_self s i r
  cases hreads with
  | @event _ j content hskips hnext hholds =>
    have hindex : ((s.setRing i r).eventWrapper i ptr).index = j := by
      rw [eventWrapper, hring, hnext]
      rfl
    rw [hindex]
    refine ⟨content, hholds, ?_, hnext, hskips⟩
    rw [eventWrapper, timestamp_setRing, hring, hholds.eventBytes_eq hpass.valid]

section Accounts

variable {log : List Processed} {live : List EventWrapper} {hand : Option (ℕ × ℕ)}

theorem accounts_readNothing (h : Accounts s.size s.ring s.timestamp log live hand)
    (hpass : (s.ring i).Passes r) (hreads : (s.ring i).Reads r none) :
    Accounts s.size (s.setRing i r).ring (s.setRing i r).timestamp log live hand := by
  rw [timestamp_setRing]
  refine h.pass (passes_update h.valid hpass) [] nofun List.nodup_nil nofun ?_
  intro i' j it hj hj' hit hdone
  by_cases hi : i' = i
  · subst hi
    rw [ring_setRing_self] at hj'
    cases hreads with
    | nothing hskips hstop =>
      rw [hskips.done j it hj hj' hit] at hdone
      cases hdone
  · rw [ring_setRing_of_ne s hi] at hj'
    omega

theorem accounts_readEvent (h : Accounts s.size s.ring s.timestamp log live hand)
    (hi : i < s.size) (hpass : (s.ring i).Passes r)
    (hreads : (s.ring i).Reads r (some ptr)) :
    Accounts s.size (s.setRing i r).ring (s.setRing i r).timestamp log
      ((s.setRing i r).eventWrapper i ptr :: live) hand := by
  obtain ⟨content, hholds, hts, hnext, hskips⟩ := eventWrapper_spec hpass hreads
  have hring := ring_setRing_self s i r
  rw [timestamp_setRing]
  generalize hevt : (s.setRing i r).eventWrapper i ptr = evt at *
  have hbuffer : evt.bufferIdx = i := hevt ▸ rfl
  have hevent : evt.event = ptr := hevt ▸ rfl
  refine h.pass (passes_update h.valid hpass) [evt] ?_ (List.nodup_singleton _) ?_ ?_
  · intro e he
    obtain rfl := List.mem_singleton.mp he
    rw [hbuffer, hring, hevent]
    exact ⟨hi, content, hholds, hts⟩
  · intro e he
    obtain rfl := List.mem_singleton.mp he
    rw [hbuffer]
    exact hskips.le
  · intro i' j it hj hj' hit hdone
    by_cases hi' : i' = i
    · subst hi'
      rw [hring, hnext] at hj'
      rcases Nat.lt_or_eq_of_le (Nat.le_of_lt_succ hj') with hlt | rfl
      · rw [hskips.done j it hj hlt hit] at hdone
        cases hdone
      · rw [List.map_singleton, List.mem_singleton, EventWrapper.id, hbuffer]
    · rw [ring_setRing_of_ne s hi'] at hj'
      omega

end Accounts

/-! ### The invariant along the steps of the worker -/

theorem Inv.accounts_at (h : s.Inv) {phase : LoopPhase} (hphase : s.phase = phase) :
    Accounts s.size s.ring s.timestamp s.log (live { s with phase := phase })
      (hand { s with phase := phase }) := by
  subst hphase
  exact h.accounts

theorem heap_push (h : IsHeap EventWrapper.timestamp s.queue) (e : EventWrapper) :
    IsHeap EventWrapper.timestamp (s.push e).queue ∧ (s.push e).queue.Perm (e :: s.queue) :=
  BinaryHeap.push_spec h e

variable {live : List EventWrapper} {maxTimestamp : ℤ}

/-- A ring buffer other than the one that was touched stops where it did. -/
theorem Stops.setRing_of_ne {i' : ℕ} (h : Stops s.ring live maxTimestamp i') (hne : i' ≠ i) :
    Stops (s.setRing i r).ring live maxTimestamp i' :=
  h.congr (ring_setRing_of_ne s hne r)

theorem stops_readNothing (hpass : (s.ring i).Passes r) (hreads : (s.ring i).Reads r none) :
    Stops (s.setRing i r).ring live maxTimestamp i := by
  intro _
  rw [ring_setRing_self]
  cases hreads with
  | nothing hskips hstop =>
    refine ⟨r.next, ⟨le_rfl, fun it hit => ?_⟩, .inl rfl⟩
    rw [hpass.items] at hit
    exact (hstop it hit).2

theorem Inv.readNothing (h : s.Inv) (hphase : s.phase = .dequeue c i)
    (hi : i < s.size) (hpass : (s.ring i).Passes r) (hreads : (s.ring i).Reads r none) :
    Inv { s.setRing i r with phase := .dequeue c (i + 1) } := by
  have hacc := h.accounts_at hphase
  have hknown := h.phase
  rw [PhaseInv, hphase] at hknown
  refine ⟨accounts_readNothing hacc hpass hreads, h.heap, ⟨hi, fun i' hi' => ?_⟩, h.clock⟩
  rcases Nat.lt_or_eq_of_le (Nat.le_of_lt_succ hi') with hlt | rfl
  · exact (hknown.2 i' hlt).setRing_of_ne hlt.ne
  · exact stops_readNothing hpass hreads

theorem Inv.readEvent (h : s.Inv) {c' : Call} {i' : ℕ}
    (hphase : s.phase = .dequeue c i) (hi : i < s.size) (hpass : (s.ring i).Passes r)
    (hreads : (s.ring i).Reads r (some ptr)) (hmax : c'.maxTimestamp = c.maxTimestamp)
    (hnext : i' = i + 1 ∧ ((s.ring i).IsPerf ∨
        c.maxTimestamp < ((s.setRing i r).eventWrapper i ptr).timestamp) ∨ i' = i) :
    Inv { (s.setRing i r).push ((s.setRing i r).eventWrapper i ptr) with
      phase := .dequeue c' i' } := by
  have hacc := h.accounts_at hphase
  have hknown := h.phase
  rw [PhaseInv, hphase] at hknown
  obtain ⟨content, hholds, -, -, -⟩ := eventWrapper_spec hpass hreads
  have hacc' := accounts_readEvent hacc hi hpass hreads
  generalize hevt : (s.setRing i r).eventWrapper i ptr = evt at *
  have hbuffer : evt.bufferIdx = i := hevt ▸ rfl
  obtain ⟨hheap, hperm⟩ := heap_push (s := s.setRing i r) h.heap evt
  have hold : ∀ x < i, Stops (s.setRing i r).ring ((s.setRing i r).push evt).queue
      c.maxTimestamp x := fun x hx =>
    ((hknown.2 x hx).mono fun e he _ => hperm.mem_iff.mpr (List.mem_cons_of_mem _ he)).setRing_of_ne
      hx.ne
  refine ⟨hacc'.perm hperm.symm, hheap, ⟨?_, fun x hx => ?_⟩, h.clock⟩
  · rcases hnext with ⟨rfl, -⟩ | rfl
    · exact hi
    · exact hi.le
  · rw [hmax]
    rcases hnext with ⟨rfl, hcases⟩ | rfl
    · rcases Nat.lt_or_eq_of_le (Nat.le_of_lt_succ hx) with hlt | rfl
      · exact hold x hlt
      · -- the event that was read is too recent to be processed in this turn
        intro hmpsc
        have hring := ring_setRing_self s x r
        change ¬ ((s.setRing x r).ring x).IsPerf at hmpsc
        change ∃ m, ((s.setRing x r).ring x).StopsAt m ∧ _
        rw [hring, hpass.isPerf] at hmpsc
        rw [hring]
        refine ⟨evt.index, ⟨hholds.lt.le, fun it hit => ?_⟩, .inr ⟨evt, ?_, ?_, ?_⟩⟩
        · rw [hholds.item] at hit
          cases hit
          rfl
        · exact hperm.mem_iff.mpr List.mem_cons_self
        · rw [EventWrapper.id, hbuffer]
        · exact hcases.resolve_left hmpsc
    · exact hold x hx

theorem Inv.process (h : s.Inv) {rest : List EventWrapper}
    (hphase : s.phase = .process c) (hqueue : s.queue = evt :: rest)
    (hle : evt.timestamp ≤ c.maxTimestamp) :
    Inv { s with log := s.log ++ [s.processed evt], phase := .advance c evt } := by
  have hacc := h.accounts
  have hknown := h.phase
  simp only [live, hand, hphase, hqueue] at hacc
  simp only [PhaseInv, hphase] at hknown
  have htail : s.queue.tail = rest := by rw [hqueue, List.tail_cons]
  obtain ⟨hlt, hheld⟩ := hacc.entry evt List.mem_cons_self
  have hunique : evt.id ∉ rest.map EventWrapper.id := (List.nodup_cons.mp hacc.nodup).1
  refine ⟨?_, h.heap, ⟨⟨by rw [hqueue, List.head?_cons], hle, hlt, hheld, ?_⟩, fun i hi => ?_⟩,
    h.clock⟩
  · change Accounts s.size s.ring s.timestamp _ s.queue.tail (some evt.id)
    rw [htail]
    exact hacc.take rfl rfl rfl rfl
  · rw [htail]
    exact hunique
  · rw [htail]
    refine (hknown i hi).mono fun e he hlt' => ?_
    rw [hqueue] at he
    rcases List.mem_cons.mp he with rfl | he
    · exact absurd hle (not_le.mpr hlt')
    · exact he

/-- Handing back keeps the accounts, and every ring buffer stops where it did. -/
theorem Inv.advance (h : s.Inv)
    (hphase : s.phase = .advance c evt) (hf : (s.ring evt.bufferIdx).Finishes r evt.index) :
    Accounts s.size (s.setRing evt.bufferIdx r).ring s.timestamp s.log s.queue.tail none ∧
      ∀ i < s.size,
        Stops (s.setRing evt.bufferIdx r).ring s.queue.tail c.maxTimestamp i := by
  have hacc := h.accounts_at hphase
  have hknown := h.phase
  rw [PhaseInv, hphase] at hknown
  obtain ⟨hhand, hstops⟩ := hknown
  obtain ⟨content, hholds, -⟩ := hhand.held
  rw [ring_setRing]
  refine ⟨hacc.finish hhand.unique hf ⟨_, hholds.item⟩, fun i hi => ?_⟩
  by_cases heq : i = evt.bufferIdx
  · subst heq
    refine (hstops _ hi).finish ?_ hholds.lt hhand.unique
    rw [Function.update_self]
    exact hf
  · exact (hstops i hi).congr (Function.update_of_ne heq _ _)

theorem Inv.advancePerf (h : s.Inv) (hphase : s.phase = .advance c evt)
    (hperf : (s.ring evt.bufferIdx).IsPerf)
    (hf : (s.ring evt.bufferIdx).Finishes r evt.index) :
    Inv { s.setRing evt.bufferIdx r with phase := .readNext c evt } := by
  obtain ⟨hacc, hstops⟩ := h.advance hphase hf
  have hvalid := h.accounts.valid evt.bufferIdx
  have hknown := h.phase
  simp only [PhaseInv, hphase] at hknown
  obtain ⟨hhand, -⟩ := hknown
  obtain ⟨content, hholds, hts⟩ := hhand.held
  have hring : ∀ phase, ({ s.setRing evt.bufferIdx r with phase := phase } : Loop).ring
      evt.bufferIdx = r := fun _ => ring_setRing_self s evt.bufferIdx r
  refine ⟨(timestamp_setRing s _ r).symm ▸ hacc, h.heap, ⟨?_, hstops⟩, h.clock⟩
  refine ⟨hhand.top, hhand.lt, ?_, ?_, ?_, ?_⟩
  · rw [hring, hf.isPerf]
    exact hperf
  · rw [hring]
    exact hf.free hperf
  · rw [hring, hf.next]
    exact hholds.succ_eq_next hvalid hperf
  · rw [hring, hf.items, List.getElem?_modify_eq, hholds.item]
    exact ⟨_, rfl, rfl, (congrFun₂ (timestamp_setRing s _ r) _ _).symm ▸ hts⟩

theorem Inv.advanceMpsc (h : s.Inv) (hphase : s.phase = .advance c evt)
    (hf : (s.ring evt.bufferIdx).Finishes r evt.index) :
    Inv { s.setRing evt.bufferIdx r with phase := .pop c } := by
  obtain ⟨hacc, hstops⟩ := h.advance hphase hf
  have hknown := h.phase
  simp only [PhaseInv, hphase] at hknown
  exact ⟨(timestamp_setRing s _ r).symm ▸ hacc, h.heap,
    ⟨List.ne_nil_of_mem (List.mem_of_head? hknown.1.top), hstops⟩, h.clock⟩

/-- Reading from a perf ring buffer leaves the places where the others stop. -/
theorem stops_setRing_perf {i' : ℕ} (hperf : (s.ring i).IsPerf) (hpass : (s.ring i).Passes r)
    (h : Stops s.ring live maxTimestamp i') :
    Stops (s.setRing i r).ring live maxTimestamp i' := by
  by_cases hi : i' = i
  · subst hi
    intro hmpsc
    rw [ring_setRing_self, hpass.isPerf] at hmpsc
    exact absurd hperf hmpsc
  · exact h.setRing_of_ne hi

theorem Inv.noNext (h : s.Inv) (hphase : s.phase = .readNext c evt)
    (hpass : (s.ring evt.bufferIdx).Passes r)
    (hreads : (s.ring evt.bufferIdx).Reads r none) :
    Inv { s.setRing evt.bufferIdx r with phase := .pop c } := by
  have hacc := h.accounts_at hphase
  have hknown := h.phase
  rw [PhaseInv, hphase] at hknown
  obtain ⟨hback, hstops⟩ := hknown
  exact ⟨accounts_readNothing hacc hpass hreads, h.heap,
    ⟨List.ne_nil_of_mem (List.mem_of_head? hback.top), fun i hi =>
      stops_setRing_perf hback.isPerf hpass (hstops i hi)⟩, h.clock⟩

theorem Inv.next (h : s.Inv) (hphase : s.phase = .readNext c evt)
    (hpass : (s.ring evt.bufferIdx).Passes r)
    (hreads : (s.ring evt.bufferIdx).Reads r (some ptr)) (horder : s.NextInOrder .work) :
    Inv { (s.setRing evt.bufferIdx r).push
        ((s.setRing evt.bufferIdx r).eventWrapper evt.bufferIdx ptr) with phase := .pop c } := by
  have hacc : Accounts s.size s.ring s.timestamp s.log s.queue.tail none := h.accounts_at hphase
  have hknown := h.phase
  rw [PhaseInv, hphase] at hknown
  simp only [NextInOrder, hphase] at horder
  obtain ⟨hback, hstops⟩ := hknown
  obtain ⟨content, hholds, hts, hnext, hskips⟩ := eventWrapper_spec hpass hreads
  have hacc' := accounts_readEvent hacc hback.lt hpass hreads
  generalize hevt : (s.setRing evt.bufferIdx r).eventWrapper evt.bufferIdx ptr = new at *
  have hindex : new.index = (s.ring evt.bufferIdx).next := by
    -- in a perf ring buffer, nothing behind the released records is done
    by_contra hne
    have hlt : (s.ring evt.bufferIdx).next < new.index := lt_of_le_of_ne hskips.le (Ne.symm hne)
    have hget := List.getElem?_eq_getElem (hlt.trans_le hskips.le_length)
    have hvalid := (hacc.valid evt.bufferIdx).at
    have hnot := hvalid.not_done_of_perf hback.isPerf hback.free.ge hget
    rw [hskips.done _ _ le_rfl hlt hget] at hnot
    cases hnot
  have hle : evt.timestamp ≤ new.timestamp := by
    rw [hts]
    refine horder ⟨content, true, false⟩ ?_
    rw [← hindex, ← hpass.items]
    exact hholds.item
  obtain ⟨rest, hqueue⟩ := List.head?_eq_some_iff.mp hback.top
  obtain ⟨hheap, hperm⟩ := heap_push (s := s.setRing evt.bufferIdx r) h.heap new
  obtain ⟨rest', hpush⟩ : ∃ rest', BinaryHeap.push EventWrapper.timestamp (evt :: rest) new =
      evt :: rest' := BinaryHeap.head?_push hle
  have hqueue' : ((s.setRing evt.bufferIdx r).push new).queue = evt :: rest' := by
    rw [← hpush, ← hqueue]
    rfl
  have hperm' : rest'.Perm (new :: rest) := by
    have := hperm
    rw [hqueue', show (s.setRing evt.bufferIdx r).queue = evt :: rest from hqueue] at this
    exact (this.trans (List.Perm.swap evt new rest)).cons_inv
  rw [hqueue, List.tail_cons] at hacc' hstops
  refine ⟨?_, hheap, ⟨?_, fun i hi => ?_⟩, h.clock⟩
  · change Accounts _ _ _ _ ((s.setRing evt.bufferIdx r).push new).queue.tail none
    rw [hqueue', List.tail_cons]
    exact hacc'.perm hperm'.symm
  · change ((s.setRing evt.bufferIdx r).push new).queue ≠ []
    rw [hqueue']
    exact List.cons_ne_nil _ _
  · change Stops (s.setRing evt.bufferIdx r).ring
      ((s.setRing evt.bufferIdx r).push new).queue.tail c.maxTimestamp i
    rw [hqueue', List.tail_cons]
    refine stops_setRing_perf hback.isPerf hpass ((hstops i hi).mono fun e he _ => ?_)
    exact hperm'.mem_iff.mpr (List.mem_cons_of_mem _ he)

theorem Inv.pop (h : s.Inv) (hphase : s.phase = .pop c) : (s.pop c).Inv := by
  have hacc : Accounts s.size s.ring s.timestamp s.log s.queue.tail none := h.accounts_at hphase
  have hknown := h.phase
  have hheap := h.heap
  rw [PhaseInv, hphase] at hknown
  obtain ⟨hne, hstops⟩ := hknown
  cases hqueue : s.queue with
  | nil => exact absurd hqueue hne
  | cons evt rest =>
    rw [hqueue] at hheap hacc hstops
    obtain ⟨hheap', hperm⟩ := BinaryHeap.pop_spec hheap
    rw [Loop.pop, hqueue]
    refine ⟨hacc.perm hperm.symm, hheap', fun i hi => ?_, h.clock⟩
    exact (hstops i hi).mono fun e he _ => hperm.mem_iff.mpr he

/-- Every step of the worker keeps the invariant, provided that records come in order. -/
theorem Inv.works (h : s.Inv) (horder : s.NextInOrder .work) (hw : Works s s') : s'.Inv := by
  have hknown := h.phase
  cases hw with
  | stop hphase => exact ⟨(h.accounts_at hphase :), h.heap, trivial, h.clock⟩
  | start hphase => exact ⟨(h.accounts_at hphase :), h.heap, ⟨Nat.zero_le _, nofun⟩, h.clock⟩
  | inFlight hphase hi hperf =>
    rw [PhaseInv, hphase] at hknown
    refine ⟨(h.accounts_at hphase :), h.heap, ⟨hi, fun i' hi' => ?_⟩, h.clock⟩
    rcases Nat.lt_or_eq_of_le (Nat.le_of_lt_succ hi') with hlt | rfl
    · exact hknown.2 i' hlt
    · exact fun hmpsc => absurd hperf hmpsc
  | readNothing hphase hi hpass hreads => exact h.readNothing hphase hi hpass hreads
  | readEvent hphase hi hpass hreads hnext =>
    refine h.readEvent hphase hi hpass hreads rfl (hnext.imp_right And.left)
  | dequeued hphase hi =>
    rw [PhaseInv, hphase] at hknown
    exact ⟨(h.accounts_at hphase :), h.heap, fun i hlt => hknown.2 i (hlt.trans_le hi), h.clock⟩
  | finished hphase => exact ⟨(h.accounts_at hphase :), h.heap, trivial, h.clock⟩
  | again hphase => exact ⟨(h.accounts_at hphase :), h.heap, trivial, h.clock⟩
  | tooRecent hphase => exact ⟨(h.accounts_at hphase :), h.heap, trivial, h.clock⟩
  | process hphase hqueue hle => exact h.process hphase hqueue hle
  | advancePerf hphase hperf hfinishes => exact h.advancePerf hphase hperf hfinishes
  | advanceMpsc hphase _ hfinishes => exact h.advanceMpsc hphase hfinishes
  | noNext hphase hpass hreads => exact h.noNext hphase hpass hreads
  | next hphase hpass hreads => exact h.next hphase hpass hreads horder
  | pop hphase => exact h.pop hphase

/-! ### The invariant along the other steps -/

/-- The record that a step commits, with its ring buffer. -/
def commits (s : Loop) : LoopLabel → Option (ℕ × List Byte)
  | .kernelWrite i record => some (i, record)
  | .producer i w .publish =>
    match s.ring i with
    | .perf _ => none
    | .mpsc ch =>
      match (ch.writers w).phase with
      | .writing j _ => ch.slots[j]?.map fun t => (i, t.content)
      | _ => none
  | _ => none

/-- A step around the worker: writers extend ring buffers, and time passes. -/
structure Extended (s s' : Loop) (label : LoopLabel) : Prop where
  size : s'.size = s.size
  timestamp : s'.timestamp = s.timestamp
  log : s'.log = s.log
  queue : s'.queue = s.queue
  phase : s'.phase = s.phase
  clock_le : s.clock ≤ s'.clock
  ring : ∀ i, Ring.Extends (fun content => s.commits label = some (i, content)) (s.ring i)
    (s'.ring i)

variable {label : LoopLabel}

theorem extended_setRing (hvalid : ∀ i, (s.ring i).Valid)
    (hr : Ring.Extends (fun content => s.commits label = some (i, content)) (s.ring i) r) :
    Extended s (s.setRing i r) label := by
  refine ⟨rfl, timestamp_setRing s i r, rfl, rfl, rfl, le_rfl, ?_⟩
  rw [ring_setRing]
  exact (Function.forall_update_iff s.ring fun i' => Ring.Extends _ (s.ring i')).mpr
    ⟨hr, fun i' _ => .refl _ (hvalid i')⟩

theorem extended_kernelWrite (hvalid : ∀ i, (s.ring i).Valid) {record : List Byte}
    (hok : s.Admissible (.kernelWrite i record))
    (hstep : s.step (.kernelWrite i record) = some s') :
    Extended s s' (.kernelWrite i record) ∧ s'.clock = s.clock := by
  have hv := hvalid i
  simp only [step, kernelWrite] at hstep
  simp only [Admissible] at hok
  cases hring : s.ring i with
  | mpsc ch =>
    rw [hring] at hstep
    cases hstep
  | perf p =>
    rw [hring] at hstep hok hv
    simp only [Option.ite_none_right_eq_some, Option.some.injEq] at hstep
    obtain ⟨⟨hrecord, hspace⟩, rfl⟩ := hstep
    refine ⟨extended_setRing hvalid ?_, rfl⟩
    rw [hring]
    refine (Ring.Written.extends (hv.at.kernelWrite hrecord hspace hok)).mono ?_
    rintro content rfl
    rfl

theorem extended_produce (hvalid : ∀ i, (s.ring i).Valid) {w : ℕ} {a : ProducerAction}
    (hok : s.Admissible (.producer i w a)) (hstep : s.step (.producer i w a) = some s') :
    Extended s s' (.producer i w a) ∧ s'.clock = s.clock := by
  have hv := hvalid i
  simp only [step, produce] at hstep
  simp only [Admissible] at hok
  cases hring : s.ring i with
  | perf p =>
    rw [hring] at hstep
    cases hstep
  | mpsc ch =>
    rw [hring] at hstep hok hv
    obtain ⟨ch', hproduce, rfl⟩ := Option.map_eq_some_iff.mp hstep
    refine ⟨extended_setRing hvalid ?_, rfl⟩
    rw [hring]
    refine (Ring.Written.extends (hv.at.produce hok hproduce)).mono ?_
    rintro content ⟨rfl, j, buf, t, hw, ht, rfl⟩
    simp only [commits, hring, hw, ht, Option.map_some]

section Extended

variable {label : LoopLabel}

theorem Extended.inHand (he : Extended s s' label) (h : s.InHand c evt) : s'.InHand c evt := by
  obtain ⟨content, hholds, hts⟩ := h.held
  refine ⟨he.queue ▸ h.top, h.le, he.size ▸ h.lt, ⟨content, ?_, ?_⟩, he.queue ▸ h.unique⟩
  · exact (he.ring _).holds _ _ _ hholds
  · rw [he.timestamp]
    exact hts

theorem Extended.handedBack (he : Extended s s' label) (h : s.HandedBack evt) :
    s'.HandedBack evt := by
  have hr := he.ring evt.bufferIdx
  refine ⟨he.queue ▸ h.top, he.size ▸ h.lt, hr.isPerf ▸ h.isPerf, ?_, hr.next ▸ h.last, ?_⟩
  · rw [hr.next, hr.released]
    exact h.free
  · obtain ⟨it, hit, hcommitted, hts⟩ := h.item
    obtain ⟨it', hit', -, hsame⟩ := hr.grows.old _ it hit
    refine ⟨it', hit', ?_⟩
    rw [hsame hcommitted, he.timestamp]
    exact ⟨hcommitted, hts⟩

/-- What happens around the worker keeps the invariant. -/
theorem Inv.extended (h : s.Inv) (he : Extended s s' label) (hclock : s'.clock ≤ timePointMax) :
    s'.Inv := by
  have hlive : s'.live = s.live := by rw [live, live, he.phase, he.queue]
  have hhand : s'.hand = s.hand := by rw [hand, hand, he.phase]
  have hknown := h.phase
  have hstops {live : List EventWrapper} {maxTimestamp : ℤ} {i : ℕ}
      (hs : Stops s.ring live maxTimestamp i) : Stops s'.ring live maxTimestamp i :=
    hs.extend (he.ring i)
  refine ⟨?_, he.queue ▸ h.heap, ?_, hclock⟩
  · rw [hlive, hhand, he.size, he.timestamp, he.log]
    exact h.accounts.extend he.ring
  · unfold PhaseInv at hknown ⊢
    rw [he.phase, he.queue, he.size]
    generalize s.phase = phase at hknown ⊢
    cases phase with
    | idle | outer | failed => trivial
    | dequeue c i => exact ⟨hknown.1, fun i' hi' => hstops (hknown.2 i' hi')⟩
    | process c => exact fun i hi => hstops (hknown i hi)
    | advance c evt => exact ⟨he.inHand hknown.1, fun i hi => hstops (hknown.2 i hi)⟩
    | readNext c evt => exact ⟨he.handedBack hknown.1, fun i hi => hstops (hknown.2 i hi)⟩
    | pop c => exact ⟨hknown.1, fun i hi => hstops (hknown.2 i hi)⟩

end Extended

inductive Moves (s : Loop) : LoopLabel → Loop → Prop
  | around {label : LoopLabel} {s' : Loop} (he : Extended s s' label)
      (hclock : s'.clock ≤ timePointMax) : Moves s label s'
  | call (drain : Bool) (hphase : s.phase = .idle) :
      Moves s (.call drain) { s with phase := .outer {
        drain := drain
        now := s.clock
        deadline := if drain then timePointMax else s.clock + sampleDefaultWakeup } }
  | work {s' : Loop} (hw : Works s s') : Moves s .work s'
  | restart (hphase : s.phase = .idle) :
      Moves s .restart
        { s with queue := [], pes := fun i => { s.pes i with ring := (s.pes i).ring.init } }

theorem Inv.works_of_step (h : s.Inv) (hstep : s.step .work = some s') : Works s s' := by
  have hne : ∀ phase, phase = .idle ∨ phase = .failed → s.phase ≠ phase := by
    rintro phase (rfl | rfl) hphase <;>
    · rw [Loop.step, Loop.work, hphase] at hstep
      cases hstep
  obtain ⟨s'', hwork, hw⟩ := h.work (hne _ (.inl rfl)) (hne _ (.inr rfl))
  rw [show s.work = some s' from hstep] at hwork
  cases hwork
  exact hw

theorem Inv.moves (h : s.Inv) (hok : s.Admissible label)
    (hstep : s.step label = some s') : Moves s label s' := by
  have hvalid := h.accounts.valid
  cases label with
  | kernelWrite i record =>
    obtain ⟨he, hclock⟩ := extended_kernelWrite hvalid hok hstep
    exact .around he (hclock ▸ h.clock)
  | producer i w a =>
    obtain ⟨he, hclock⟩ := extended_produce hvalid hok hstep
    exact .around he (hclock ▸ h.clock)
  | tick d =>
    simp only [Loop.step, Loop.tick, Option.ite_none_right_eq_some, Option.some.injEq] at hstep
    obtain ⟨hclock, rfl⟩ := hstep
    refine .around ⟨rfl, rfl, rfl, rfl, rfl, ?_, fun i => .refl _ (hvalid i)⟩ hclock
    exact Int.le_add_of_nonneg_right (Int.natCast_nonneg d)
  | requestTermination =>
    cases hstep
    exact .around ⟨rfl, rfl, rfl, rfl, rfl, le_rfl, fun i => .refl _ (hvalid i)⟩ h.clock
  | call drain =>
    simp only [Loop.step, Loop.call] at hstep
    split at hstep
    · rename_i hphase
      cases hstep
      exact .call drain hphase
    · cases hstep
  | work => exact .work (h.works_of_step hstep)
  | fail => exact absurd hok id
  | restart =>
    simp only [Loop.step, Loop.restart] at hstep
    split at hstep
    · rename_i hphase
      cases hstep
      exact .restart hphase
    · cases hstep

theorem Inv.step (h : s.Inv) (horder : s.NextInOrder label) (hm : Moves s label s') : s'.Inv := by
  cases hm with
  | around he hclock => exact h.extended he hclock
  | work hw => exact h.works horder hw
  | call drain hphase => exact ⟨(h.accounts_at hphase :), h.heap, trivial, h.clock⟩
  | restart hphase =>
    have hacc := h.accounts_at hphase
    refine ⟨?_, BinaryHeap.isHeap_nil, ?_, h.clock⟩
    · simp only [live, hand, hphase]
      exact hacc.restart
    · simp only [PhaseInv, hphase]

end Loop

end Ddprof
