import Ddprof.RingBuffer.Producers

/-!
The reader of a ring buffer with several producers when events are not reordered
(`worker_process_ring_buffers`, `MPSCRingBufferReader`).

The reader waits on the eventfd, reads it when it is readable, and then runs passes:
it takes a snapshot of `writer_pos` and reads, processes and releases samples until
a read returns none. After a pass without any sample it waits again. A producer
writes to the eventfd only when it finds the reader at its own sample, so a sample
that the reader meets in the middle of its passes is never announced; the pass that
is sure to follow finds it.
-/

namespace Ddprof

open Circular (Byte)
open RingBuffer (Layout Found)

inductive ReaderPhase where
  -- In `poll`.
  | waiting
  -- Before a pass; the eventfd is to be read first when it was readable.
  | awake (pollin : Bool)
  -- In a pass, before a read.
  | reading (head : ℕ) (events : Bool)
  -- `ddprof_worker_process_event` has the sample.
  | processing (head : ℕ)
  -- A read has returned nothing.
  | passed (events : Bool)
  deriving DecidableEq, Repr

structure Wakeup where
  channel : Channel
  phase : ReaderPhase := .waiting
  -- The producer that committed each sample.
  committer : ℕ → Option ℕ := fun _ => none
  -- The notifications that are pending and were sent since the last pass began.
  fresh : ℕ := 0

inductive WakeupLabel where
  | producer (w : ℕ) (a : ProducerAction)
  -- `poll` returns; it also does when another file is readable, or after 10 ms.
  | poll
  | readEventfd
  | beginPass
  | readSample
  | advance
  -- The pass ends; it may have found events in other ring buffers.
  | endPass (elsewhere : Bool)
  deriving DecidableEq, Repr

namespace Wakeup

def setRingBuffer (s : Wakeup) (rb : RingBuffer) : Wakeup :=
  { s with channel := { s.channel with rb := rb } }

/-- Who committed each sample after a step of the producer `w`. -/
def committers (s : Wakeup) (w : ℕ) : ProducerAction → ℕ → Option ℕ
  | .publish =>
    match (s.channel.writers w).phase with
    | .writing i _ => Function.update s.committer i (some w)
    | _ => s.committer
  | _ => s.committer

def produce (s : Wakeup) (w : ℕ) (a : ProducerAction) : Option Wakeup :=
  (s.channel.produce w a).map fun c =>
    { s with
      channel := c
      committer := s.committers w a
      fresh := if a = .notify then s.fresh + 1 else s.fresh }

def poll (s : Wakeup) : Option Wakeup :=
  match s.phase with
  | .waiting => some { s with phase := .awake (0 < s.channel.eventfd) }
  | _ => none

def readEventfd (s : Wakeup) : Option Wakeup :=
  match s.phase with
  | .awake true =>
    some { s with channel := { s.channel with eventfd := 0 }, phase := .awake false, fresh := 0 }
  | _ => none

/-- The constructor of `MPSCRingBufferReader`. -/
def beginPass (s : Wakeup) : Option Wakeup :=
  match s.phase with
  | .awake false => some { s with phase := .reading s.channel.rb.writerPos false, fresh := 0 }
  | _ => none

def readSample (s : Wakeup) : Option Wakeup :=
  match s.phase with
  | .reading head events =>
    (s.channel.rb.readSample head).map fun (rb, buf) =>
      { s.setRingBuffer rb with
        phase :=
          match buf with
          | none => .passed events
          | some buf => if buf.size = 0 then .passed events else .processing head }
  | _ => none

def advance (s : Wakeup) : Option Wakeup :=
  match s.phase with
  | .processing head =>
    some { s.setRingBuffer s.channel.rb.advance with phase := .reading head true }
  | _ => none

/-- The destructor of `MPSCRingBufferReader`, and the condition of the loop over passes;
when the loop has run for too long it is entered again without `poll`. -/
def endPass (s : Wakeup) (elsewhere : Bool) : Option Wakeup :=
  match s.phase with
  | .passed events =>
    let rb := s.channel.rb
    some { s.setRingBuffer (if rb.readerPos < rb.intermediateReaderPos then rb.advance else rb) with
      phase := if events || elsewhere then .awake false else .waiting }
  | _ => none

def step (s : Wakeup) : WakeupLabel → Option Wakeup
  | .producer w a => s.produce w a
  | .poll => s.poll
  | .readEventfd => s.readEventfd
  | .beginPass => s.beginPass
  | .readSample => s.readSample
  | .advance => s.advance
  | .endPass elsewhere => s.endPass elsewhere

def Admissible (s : Wakeup) : WakeupLabel → Prop
  | .producer w a => s.channel.Admissible w a
  | _ => True

instance (s : Wakeup) : DecidablePred s.Admissible := by
  intro l
  cases l <;> unfold Admissible <;> infer_instance

def init (order : ℕ) (data : ℕ → Byte) (areas : ℕ → ℕ) : Wakeup where
  channel := .init order data areas

/-! ### What announces a sample -/

/-- The sample `i` is committed, and it is the one at `reader_pos`. -/
def CommittedAtReader (s : Wakeup) (i : ℕ) : Prop :=
  mpscFormat.pos s.channel.slots i = s.channel.rb.readerPos ∧
    ∃ t, s.channel.slots[i]? = some t ∧ t.busy = false

/-- A notification sent since the last pass began is pending. -/
def Notified (s : Wakeup) : Prop := 0 < s.fresh ∧ s.fresh ≤ s.channel.eventfd

/-- The producer that committed the sample has not loaded the tail yet. -/
def BeforeTailLoad (s : Wakeup) (i : ℕ) : Prop :=
  ∃ w buf, s.committer i = some w ∧ (s.channel.writers w).phase = .published i buf

/-- The producer that committed the sample is about to write to the eventfd. -/
def AboutToNotify (s : Wakeup) (i : ℕ) : Prop :=
  ∃ w, s.committer i = some w ∧ (s.channel.writers w).phase = .notifying

/-- If the sample `i` is committed, it has been announced or its producer will do so. -/
def Announced (s : Wakeup) (i : ℕ) : Prop :=
  ∀ t, s.channel.slots[i]? = some t → t.busy = false →
    0 < s.fresh ∨ s.BeforeTailLoad i ∨ s.AboutToNotify i

/-- What holds of the reader when `r` samples have been released. A pass that has found
nothing and reached the end of its snapshot relies on announcements. -/
def Reads (s : Wakeup) (r : ℕ) : Prop :=
  let slots := s.channel.slots
  match s.phase with
  | .waiting => s.channel.rb.intermediateReaderPos = mpscFormat.pos slots r ∧ s.Announced r
  | .awake _ => s.channel.rb.intermediateReaderPos = mpscFormat.pos slots r
  | .reading head events =>
    s.channel.rb.intermediateReaderPos = mpscFormat.pos slots r ∧
      ∃ hd, head = mpscFormat.pos slots hd ∧ r ≤ hd ∧ hd ≤ slots.length ∧
        (events = false → r = hd → s.Announced r)
  | .processing head =>
    s.channel.rb.intermediateReaderPos = mpscFormat.pos slots (r + 1) ∧
      (∃ t, slots[r]? = some t ∧ t.busy = false) ∧
      ∃ hd, head = mpscFormat.pos slots hd ∧ r < hd ∧ hd ≤ slots.length
  | .passed events =>
    s.channel.rb.intermediateReaderPos = mpscFormat.pos slots r ∧ (events = false → s.Announced r)

structure Inv (s : Wakeup) (r : ℕ) : Prop where
  channel : s.channel.Inv r
  kept : ∀ t ∈ s.channel.slots, t.discarded = false ∧ 0 < t.size
  fresh_le : s.fresh ≤ s.channel.eventfd
  reads : s.Reads r

/-! ### Steps of the producers -/

section Producers

variable {s : Wakeup} {c c' : Channel} {r w w' i : ℕ} {a : ProducerAction}

theorem kept_modify {slots : List Slot} {change : Slot → Slot} {j : ℕ} {t : Slot}
    (hkept : ∀ t ∈ slots, t.discarded = false ∧ 0 < t.size) (ht : t ∈ slots.modify j change)
    (hchange : ∀ u, (change u).discarded = u.discarded ∧ (change u).size = u.size) :
    t.discarded = false ∧ 0 < t.size := by
  obtain ⟨i, hi⟩ := List.getElem?_of_mem ht
  rw [List.getElem?_modify] at hi
  obtain ⟨u, hu, rfl⟩ := Option.map_eq_some_iff.mp hi
  have huKept := hkept u (List.mem_of_getElem? hu)
  split
  · rwa [(hchange u).1, (hchange u).2]
  · exact huKept

/-- Producers do not discard samples, and reserve none without bytes. -/
theorem kept_of_acts (hok : c.Admissible w a) (hacts : c.Acts w a c')
    (hkept : ∀ t ∈ c.slots, t.discarded = false ∧ 0 < t.size) :
    ∀ t ∈ c'.slots, t.discarded = false ∧ 0 < t.size := by
  intro t ht
  cases hacts with
  | updateTail | full | loadTail | notify => exact hkept t ht
  | @reserve n highPriority rb buf hidle hres =>
    rcases List.mem_append.mp ht with ht | ht
    · exact hkept t ht
    · rw [List.mem_singleton.mp ht]
      refine ⟨rfl, ?_⟩
      rw [Slot.size, RingBuffer.bytes, Circular.length_read, RingBuffer.size_of_reserve hres]
      exact hok.1
  | @writeByte k j b buf hw hk =>
    exact kept_modify hkept ht fun u => ⟨rfl, List.length_set⟩
  | @publish j buf hw =>
    exact kept_modify hkept ht fun u => ⟨rfl, rfl⟩

/-- A producer that finds the reader at the sample that it has published notifies it. -/
theorem needsNotification_of_readerPos (h : c.Inv r) {buf : Buffer}
    (hw : (c.writers w).phase = .published r buf) : c.rb.needsNotification buf = true := by
  have hown := h.owns w
  rw [hw] at hown
  obtain ⟨t, -, -, rfl⟩ := hown
  rw [RingBuffer.needsNotification, RingBuffer.sampleBuffer, h.layout.readerPos]
  simp

/-- A sample that has been committed is not committed again. -/
theorem committers_of_committed (h : s.channel.Inv r) {u : Slot} (hu : s.channel.slots[i]? = some u)
    (hub : u.busy = false) : s.committers w a i = s.committer i := by
  have hown := h.owns w
  cases a with
  | publish =>
    cases hw : (s.channel.writers w).phase with
    | writing j buf =>
      rw [hw] at hown
      obtain ⟨v, hv, hvb, -⟩ := hown
      rw [committers, hw]
      refine Function.update_of_ne ?_ ..
      rintro rfl
      rw [hu] at hv
      cases hv
      rw [hub] at hvb
      cases hvb
    | idle | published | notifying => rw [committers, hw]
  | updateTail | reserve | writeByte | loadTail | notify => rfl

/-- What has been announced stays so: the producer of the sample at `reader_pos` goes on to
notify the reader, and no other producer interferes. -/
theorem Announced.produce (h : s.channel.Inv r) (hann : s.Announced r)
    (hacts : s.channel.Acts w a c) (phase : ReaderPhase) :
    Announced { s with
      channel := c
      phase := phase
      committer := s.committers w a
      fresh := if a = .notify then s.fresh + 1 else s.fresh } r := by
  intro t ht hb
  rcases hacts.committed ht hb with ⟨u, hu, hub⟩ | ⟨rfl, buf, u, hw, -, -, hw'⟩
  · have hcommitter : s.committers w a r = s.committer r := committers_of_committed h hu hub
    rcases hann u hu hub with hfresh | ⟨w', buf, hw', hphase⟩ | ⟨w', hw', hphase⟩
    · refine .inl ?_
      dsimp only
      split <;> omega
    · by_cases hww : w' = w
      · subst hww
        -- the only step of the producer that committed the sample is to load the tail
        cases hacts with
        | updateTail hidle | full hidle | reserve hidle =>
          rw [hphase] at hidle
          cases hidle
        | writeByte hw | publish hw | notify hw =>
          rw [hphase] at hw
          cases hw
        | loadTail hw =>
          rw [hphase] at hw
          cases hw
          refine .inr (.inr ⟨w', hcommitter.trans hw', ?_⟩)
          simp [needsNotification_of_readerPos h hphase]
      · refine .inr (.inl ⟨w', buf, hcommitter.trans hw', ?_⟩)
        rw [hacts.writers_of_ne hww]
        exact hphase
    · by_cases hww : w' = w
      · subst hww
        cases hacts with
        | updateTail hidle | full hidle | reserve hidle =>
          rw [hphase] at hidle
          cases hidle
        | writeByte hw | publish hw | loadTail hw =>
          rw [hphase] at hw
          cases hw
        | notify hw => exact .inl (Nat.succ_pos _)
      · refine .inr (.inr ⟨w', hcommitter.trans hw', ?_⟩)
        rw [hacts.writers_of_ne hww]
        exact hphase
  · refine .inr (.inl ⟨w, buf, ?_, hw'⟩)
    simp [committers, hw]

theorem Inv.produce {s' : Wakeup} (h : s.Inv r) (hok : s.channel.Admissible w a)
    (hstep : s.produce w a = some s') : s'.Inv r := by
  obtain ⟨c, hc, rfl⟩ := Option.map_eq_some_iff.mp hstep
  obtain ⟨hinv, hev, horder, hreader, hinter⟩ := h.channel.produce hok hc
  have hacts := Channel.acts_of_produce hc
  have hr : r ≤ s.channel.slots.length := h.channel.layout.tiled.released
  have hpos : c.rb.intermediateReaderPos = s.channel.rb.intermediateReaderPos := hinter
  refine ⟨hinv, kept_of_acts hok hacts h.kept, ?_, ?_⟩
  · have hfresh := h.fresh_le
    dsimp only
    rw [hacts.eventfd_eq]
    split <;> omega
  · have hreads := h.reads
    cases hphase : s.phase with
    | waiting =>
      rw [Reads, hphase] at hreads
      simp only [Reads]
      rw [hinter, hev.pos r hr]
      exact ⟨hreads.1, hreads.2.produce h.channel hacts _⟩
    | awake pollin =>
      rw [Reads, hphase] at hreads
      simp only [Reads]
      rw [hinter, hev.pos r hr]
      exact hreads
    | reading head events =>
      rw [Reads, hphase] at hreads
      obtain ⟨hint, hd, hhead, hle, hlen, hann⟩ := hreads
      simp only [Reads]
      rw [hinter, hev.pos r hr]
      refine ⟨hint, hd, ?_, hle, hlen.trans hev.length_le, fun he hrd => ?_⟩
      · rw [hev.pos hd hlen]
        exact hhead
      · exact (hann he hrd).produce h.channel hacts _
    | processing head =>
      rw [Reads, hphase] at hreads
      obtain ⟨hint, ⟨t, ht, hb⟩, hd, hhead, hlt, hlen⟩ := hreads
      simp only [Reads]
      rw [hinter, hev.pos (r + 1) (by omega)]
      refine ⟨hint, ⟨t, hev.committed r t ht hb, hb⟩, hd, ?_, hlt, hlen.trans hev.length_le⟩
      rw [hev.pos hd hlen]
      exact hhead
    | passed events =>
      rw [Reads, hphase] at hreads
      simp only [Reads]
      rw [hinter, hev.pos r hr]
      exact ⟨hreads.1, fun he => (hreads.2 he).produce h.channel hacts _⟩

end Producers

/-! ### Steps of the reader -/

section Reader

variable {s s' : Wakeup} {r : ℕ}

theorem Inv.poll (h : s.Inv r) (hstep : s.poll = some s') : s'.Inv r := by
  have hreads := h.reads
  rw [Wakeup.poll] at hstep
  split at hstep <;> cases hstep
  rename_i hphase
  rw [Reads, hphase] at hreads
  exact ⟨h.channel, h.kept, h.fresh_le, hreads.1⟩

theorem Inv.readEventfd (h : s.Inv r) (hstep : s.readEventfd = some s') : s'.Inv r := by
  have hreads := h.reads
  rw [Wakeup.readEventfd] at hstep
  split at hstep <;> cases hstep
  rename_i hphase
  rw [Reads, hphase] at hreads
  exact ⟨h.channel.setEventfd 0, h.kept, le_rfl, hreads⟩

theorem Inv.beginPass (h : s.Inv r) (hstep : s.beginPass = some s') : s'.Inv r := by
  have hreads := h.reads
  rw [Wakeup.beginPass] at hstep
  split at hstep <;> cases hstep
  rename_i hphase
  rw [Reads, hphase] at hreads
  refine ⟨h.channel, h.kept, Nat.zero_le _, hreads, s.channel.slots.length,
    h.channel.layout.writerPos, h.channel.layout.tiled.released, le_rfl, fun _ hr t ht => ?_⟩
  rw [hr] at ht
  simp at ht

/-- Nothing is discarded, so a read returns the sample at `reader_pos` unless that is busy
or beyond the snapshot. -/
theorem Inv.readSample (h : s.Inv r) (hstep : s.readSample = some s') : s'.Inv r := by
  have hreads := h.reads
  rw [Wakeup.readSample] at hstep
  split at hstep
  case h_2 => cases hstep
  rename_i head events hphase
  rw [Reads, hphase] at hreads
  obtain ⟨hint, hd, rfl, hle, hlen, hann⟩ := hreads
  obtain ⟨res, hres, hfound⟩ := h.channel.layout.readSample_spec hint le_rfl hle hlen
  rw [hres] at hstep
  have hskip : ∀ k', r ≤ k' → k' ≤ hd → (∀ (j : ℕ) (t : Slot), r ≤ j → j < k' →
      s.channel.slots[j]? = some t → t.busy = false ∧ t.discarded = true) → k' = r := by
    intro k' hk hk' hall
    by_contra hne
    have hget : s.channel.slots[r]? = some s.channel.slots[r] :=
      List.getElem?_eq_getElem (by omega)
    have hdisc := (hall r _ le_rfl (by omega) hget).2
    rw [(h.kept _ (List.mem_of_getElem? hget)).1] at hdisc
    cases hdisc
  cases hfound with
  | nothing k' hk hk' hall hstop =>
    obtain rfl := hskip k' hk hk' hall
    cases hstep
    refine ⟨h.channel.setIntermediate _, h.kept, h.fresh_le, rfl, fun he => ?_⟩
    rcases hstop with hend | ⟨u, hu, hbusy⟩
    · exact hann he hend
    · intro t ht hb
      have ht' : s.channel.slots[k']? = some t := ht
      rw [hu] at ht'
      cases ht'
      rw [hbusy] at hb
      cases hb
  | sample k' t hk hk' hall ht hb hdt =>
    obtain rfl := hskip k' hk hk'.le hall
    cases hstep
    have hsize : (s.channel.rb.sampleBuffer s.channel.slots k' t.size).size ≠ 0 :=
      (h.kept t (List.mem_of_getElem? ht)).2.ne'
    simp only [if_neg hsize]
    exact ⟨h.channel.setIntermediate _, h.kept, h.fresh_le, rfl, ⟨t, ht, hb⟩, hd, rfl, hk', hlen⟩

theorem Inv.advance (h : s.Inv r) (hstep : s.advance = some s') : s'.Inv (r + 1) := by
  have hreads := h.reads
  rw [Wakeup.advance] at hstep
  split at hstep <;> cases hstep
  rename_i head hphase
  rw [Reads, hphase] at hreads
  obtain ⟨hint, ⟨t, ht, hb⟩, hd, hhead, hlt, hlen⟩ := hreads
  have hinv := h.channel.release (Nat.le_succ r) (by omega) fun i u hu hbusy => by
    have hri := (h.channel.busy i u hu hbusy).1
    rcases Nat.eq_or_lt_of_le hri with rfl | hlt
    · rw [ht] at hu
      cases hu
      rw [hb] at hbusy
      cases hbusy
    · exact hlt
  rw [← hint] at hinv
  exact ⟨hinv, h.kept, h.fresh_le, hint, hd, hhead, hlt, hlen, nofun⟩

/-- Where a pass ends the reader has released all that it has read. -/
theorem Inv.endPass (h : s.Inv r) {elsewhere : Bool} (hstep : s.endPass elsewhere = some s') :
    s'.Inv r := by
  have hreads := h.reads
  rw [Wakeup.endPass] at hstep
  split at hstep <;> cases hstep
  rename_i events hphase
  rw [Reads, hphase] at hreads
  obtain ⟨hint, hann⟩ := hreads
  have hsame : (if s.channel.rb.readerPos < s.channel.rb.intermediateReaderPos then
      s.channel.rb.advance else s.channel.rb) = s.channel.rb := by
    rw [hint, h.channel.layout.readerPos]
    exact if_neg (Nat.lt_irrefl _)
  rw [hsame]
  refine ⟨h.channel, h.kept, h.fresh_le, ?_⟩
  by_cases hagain : (events || elsewhere) = true
  · simp only [hagain, if_true, Reads]
    exact hint
  · have hevents : events = false := by
      cases events
      · rfl
      · exact absurd rfl hagain
    simp only [if_neg hagain, Reads]
    exact ⟨hint, hann hevents⟩

theorem Inv.step (h : s.Inv r) {l : WakeupLabel} (hok : s.Admissible l)
    (hstep : s.step l = some s') : ∃ r', s'.Inv r' := by
  cases l with
  | producer w a => exact ⟨r, h.produce hok hstep⟩
  | poll => exact ⟨r, h.poll hstep⟩
  | readEventfd => exact ⟨r, h.readEventfd hstep⟩
  | beginPass => exact ⟨r, h.beginPass hstep⟩
  | readSample => exact ⟨r, h.readSample hstep⟩
  | advance => exact ⟨r + 1, h.advance hstep⟩
  | endPass elsewhere => exact ⟨r, h.endPass hstep⟩

end Reader

theorem inv_init {order : ℕ} (data : ℕ → Byte) (areas : ℕ → ℕ) (horder : 3 ≤ order) :
    (init order data areas).Inv 0 where
  channel := Channel.inv_init data areas horder
  kept := nofun
  fresh_le := le_rfl
  reads := ⟨rfl, nofun⟩

/-- A waiting reader has been notified of the sample at its position, or will be. -/
theorem Inv.notified {s : Wakeup} {r i : ℕ} (h : s.Inv r) (hwaiting : s.phase = .waiting)
    (hi : s.CommittedAtReader i) : s.Notified ∨ s.BeforeTailLoad i ∨ s.AboutToNotify i := by
  obtain ⟨hpos, t, ht, hb⟩ := hi
  rw [h.channel.layout.readerPos] at hpos
  obtain rfl := h.channel.layout.tiled.pos_inj (List.getElem?_eq_some_iff.mp ht).1.le
    h.channel.layout.tiled.released hpos
  have hreads := h.reads
  rw [Reads, hwaiting] at hreads
  exact (hreads.2 t ht hb).imp_left fun hfresh => ⟨hfresh, h.fresh_le⟩

/-- In every interleaving, a reader that waits while the sample at its position is committed
has been notified since its last pass began, or the producer of the sample has not yet
loaded the tail, or has found that it must notify and is about to. -/
theorem run_notified {order : ℕ} {data : ℕ → Byte} {areas : ℕ → ℕ} {ls : List WakeupLabel}
    {s : Wakeup} {i : ℕ} (horder : 3 ≤ order)
    (hok : Run.Along step Admissible (init order data areas) ls)
    (hrun : Run.steps step (init order data areas) ls = some s) (hwaiting : s.phase = .waiting)
    (hi : s.CommittedAtReader i) : s.Notified ∨ s.BeforeTailLoad i ∨ s.AboutToNotify i := by
  have hstep : ∀ s l s', (∃ r, Inv s r) → s.Admissible l → s.step l = some s' → ∃ r, Inv s' r :=
    fun _ _ _ ⟨_, h⟩ hok hstep => h.step hok hstep
  obtain ⟨r, h⟩ := Run.steps_invariant hstep ⟨0, inv_init data areas horder⟩ hok hrun
  exact h.notified hwaiting hi

/-- A first sample is read, and the reader then meets a second one that is still busy. It is
committed while the reader waits, and its producer has loaded the tail. -/
def committedWhileWaiting : List WakeupLabel :=
  [.producer 0 (.reserve 4 false), .producer 1 (.reserve 2 false),
    .producer 0 .publish, .producer 0 .loadTail, .producer 0 .notify,
    .poll, .readEventfd, .beginPass, .readSample, .advance, .readSample, .endPass false,
    .beginPass, .readSample, .endPass false,
    .producer 1 .publish, .producer 1 .loadTail]

theorem run_notified_committedWhileWaiting :
    ∃ s, Run.steps step (init 6 (fun _ => 0) fun _ => 0) committedWhileWaiting = some s ∧
      (s.Notified ∨ s.BeforeTailLoad 1 ∨ s.AboutToNotify 1) := by
  have hrun : (Run.steps step (init 6 (fun _ => 0) fun _ => 0) committedWhileWaiting).any
      (fun s => s.phase = .waiting ∧ mpscFormat.pos s.channel.slots 1 = s.channel.rb.readerPos ∧
        s.channel.slots[1]?.any fun t => !t.busy) = true := by
    decide +kernel
  obtain ⟨s, hs, hstate⟩ := Option.any_eq_true _ _ |>.mp hrun
  obtain ⟨hwaiting, hpos, hslot⟩ := of_decide_eq_true hstate
  obtain ⟨t, ht, hb⟩ := Option.any_eq_true _ _ |>.mp hslot
  exact ⟨s, hs, run_notified (by decide) (by decide +kernel) hs hwaiting
    ⟨hpos, t, ht, by simpa using hb⟩⟩

/-- The write to the eventfd comes after the load of the tail: in between, nothing is pending
and the load has been executed. -/
theorem committed_before_notification :
    Run.Along step Admissible (init 6 (fun _ => 0) fun _ => 0) committedWhileWaiting ∧
      ∃ s, Run.steps step (init 6 (fun _ => 0) fun _ => 0) committedWhileWaiting = some s ∧
        s.phase = .waiting ∧ s.CommittedAtReader 1 ∧ ¬ s.Notified ∧ ¬ s.BeforeTailLoad 1 := by
  have hrun : (Run.steps step (init 6 (fun _ => 0) fun _ => 0) committedWhileWaiting).any
      (fun s => s.phase = .waiting ∧ mpscFormat.pos s.channel.slots 1 = s.channel.rb.readerPos ∧
        (s.channel.slots[1]?.any fun t => !t.busy) ∧ s.channel.eventfd = 0 ∧ s.fresh = 0 ∧
        s.committer 1 = some 1 ∧ (s.channel.writers 1).phase = .notifying) = true := by
    decide +kernel
  obtain ⟨s, hs, hstate⟩ := Option.any_eq_true _ _ |>.mp hrun
  obtain ⟨hwaiting, hpos, hslot, -, hfresh, hcommitter, hphase⟩ := of_decide_eq_true hstate
  obtain ⟨t, ht, hb⟩ := Option.any_eq_true _ _ |>.mp hslot
  refine ⟨by decide +kernel, s, hs, hwaiting, ⟨hpos, t, ht, by simpa using hb⟩, ?_, ?_⟩
  · rintro ⟨hpos, -⟩
    omega
  · rintro ⟨w, buf, hw, hpublished⟩
    rw [hcommitter] at hw
    cases hw
    rw [hphase] at hpublished
    cases hpublished

end Wakeup

end Ddprof
