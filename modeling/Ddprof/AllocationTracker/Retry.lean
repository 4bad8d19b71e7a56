import Ddprof.RingBuffer.Mpsc

/-!
The retries of a deallocation event (`push_dealloc_sample`, `sleep_and_retry_reserve`).

The event gets a writer of its own, which loads `reader_pos` when it is constructed. When
there is no room, the thread sleeps and reserves again with the same writer, and a
reservation does not load `reader_pos` a second time. Whatever the reader releases
meanwhile, the writer does not see it.
-/

namespace Ddprof

open Circular (Byte)

/-! ### What moves the end of the ring buffer -/

namespace RingBuffer

variable {rb rb' : RingBuffer} {tail n area : ℕ} {buf : Option Buffer}

theorem readSampleFrom_frame {head fuel : ℕ}
    (h : readSampleFrom head fuel rb = some (rb', buf)) :
    rb'.writerPos = rb.writerPos ∧ rb'.order = rb.order := by
  induction fuel generalizing rb with
  | zero => cases h
  | succ fuel ih =>
    simp only [readSampleFrom] at h
    split_ifs at h
    · cases h
      exact ⟨rfl, rfl⟩
    · cases h
      exact ⟨rfl, rfl⟩
    · have hrest := ih h
      exact hrest
    · cases h
      exact ⟨rfl, rfl⟩

theorem advanceIfPossible_frame {event : ℕ} (h : rb.advanceIfPossible event = some rb') :
    rb'.writerPos = rb.writerPos ∧ rb'.order = rb.order := by
  obtain ⟨newTail, _, rfl⟩ := Option.map_eq_some_iff.mp h
  exact ⟨rfl, rfl⟩

/-- With positions below `2 ^ 64`, a sample of high priority gets no room when it would reach
further than the size of the buffer beyond the tail. -/
theorem reserve_eq_none_iff (hn : n < 2 ^ 32) (hpos : rb.writerPos + sampleSpace n < 2 ^ 64)
    (htail : tail ≤ rb.writerPos) :
    rb.reserve tail area n true = none ↔ rb.mask + tail < rb.writerPos + sampleSpace n := by
  have hspace := sampleSpace_eq (show n < 2 ^ 62 by omega)
  have hne : sampleSpace n ≠ 0 := by omega
  have hdiff : u64 (rb.writerPos + sampleSpace n + 2 ^ 64 - tail) =
      rb.writerPos + sampleSpace n - tail := by
    rw [u64]
    omega
  rw [reserve]
  simp only [if_neg hne, if_true, u64_of_lt hpos, hdiff]
  split_ifs with hfull
  · exact iff_of_true rfl (by omega)
  · exact iff_of_false (by simp) (by omega)

theorem reserve_frame {highPriority : Bool} {b : Buffer}
    (h : rb.reserve tail area n highPriority = some (rb', b)) :
    rb'.writerPos = u64 (rb.writerPos + sampleSpace n) ∧ rb'.order = rb.order := by
  rw [reserve] at h
  simp only at h
  split_ifs at h <;> cases h <;> exact ⟨rfl, rfl⟩

end RingBuffer

def MpscLabel.writer : MpscLabel → Option ℕ
  | .producer w _ => some w
  | _ => none

namespace Channel

variable {c c' : Channel} {w w' : ℕ} {a : ProducerAction}

theorem produce_frame (hok : c.Admissible w' a) (h : c.produce w' a = some c') :
    c.rb.writerPos ≤ c'.rb.writerPos ∧ c'.rb.order = c.rb.order ∧
      ∀ w ≠ w', c'.writers w = c.writers w := by
  cases a with
  | updateTail =>
    rw [produce, updateTail] at h
    split at h
    · cases h
      exact ⟨le_rfl, rfl, fun w hw => c.setWriter_of_ne _ hw⟩
    · cases h
  | reserve n highPriority =>
    rw [produce, reserve] at h
    split at h
    · simp only [Option.some.injEq] at h
      subst h
      cases hres : c.rb.reserve (c.writers w').tail (c.writers w').highPriorityAreaSize n
          highPriority with
      | none => exact ⟨le_rfl, rfl, fun _ _ => rfl⟩
      | some res =>
        obtain ⟨hwriter, horder⟩ := RingBuffer.reserve_frame hres
        have hpos := hok.2.2 (by rw [hres]; rfl)
        rw [u64_of_lt (by omega)] at hwriter
        refine ⟨?_, horder, fun w hw => c.setWriter_of_ne _ hw⟩
        exact (Nat.le_add_right _ _).trans hwriter.ge
    · cases h
  | writeByte k b =>
    rw [produce, writeByte] at h
    split at h
    · split_ifs at h
      cases h
      exact ⟨le_rfl, rfl, fun _ _ => rfl⟩
    · cases h
  | publish =>
    rw [produce, publish] at h
    split at h
    · cases h
      exact ⟨le_rfl, rfl, fun w hw => c.setWriter_of_ne _ hw⟩
    · cases h
  | loadTail =>
    rw [produce, loadTail] at h
    split at h
    · cases h
      exact ⟨le_rfl, rfl, fun w hw => c.setWriter_of_ne _ hw⟩
    · cases h
  | notify =>
    rw [produce, notify] at h
    split at h
    · cases h
      exact ⟨le_rfl, rfl, fun w hw => c.setWriter_of_ne _ hw⟩
    · cases h

end Channel

/-- A step of another party moves the end of the ring buffer forward only, and leaves the
writer as it is. -/
theorem Mpsc.step_frame {s s' : Mpsc} {l : MpscLabel} (hok : s.Admissible l)
    (h : s.step l = some s') : s.channel.rb.writerPos ≤ s'.channel.rb.writerPos ∧
      s'.channel.rb.order = s.channel.rb.order ∧
      ∀ w, l.writer ≠ some w → s'.channel.writers w = s.channel.writers w := by
  cases l with
  | producer w' a =>
    obtain ⟨c, hc, rfl⟩ := Option.map_eq_some_iff.mp h
    obtain ⟨hpos, horder, hwriters⟩ := Channel.produce_frame hok hc
    exact ⟨hpos, horder, fun w hw => hwriters w fun heq => hw (congrArg some heq.symm)⟩
  | loadHead =>
    cases h
    exact ⟨le_rfl, rfl, fun _ _ => rfl⟩
  | readSample =>
    obtain ⟨⟨rb, buf⟩, hread, rfl⟩ := Option.map_eq_some_iff.mp h
    obtain ⟨hpos, horder⟩ := RingBuffer.readSampleFrom_frame hread
    cases buf with
    | none => exact ⟨hpos.ge, horder, fun _ _ => rfl⟩
    | some b => exact ⟨hpos.ge, horder, fun _ _ => rfl⟩
  | advanceIfPossible j =>
    obtain ⟨⟨i, buf⟩, _, hadvance⟩ := Option.bind_eq_some_iff.mp h
    obtain ⟨rb, hrb, rfl⟩ := Option.map_eq_some_iff.mp hadvance
    obtain ⟨hpos, horder⟩ := RingBuffer.advanceIfPossible_frame hrb
    exact ⟨hpos.ge, horder, fun _ _ => rfl⟩

/-! ### The push -/

/-- `sizeof(DeallocationEvent)` -/
def deallocationEventSize : ℕ := 32

def maxSleepAttempts : ℕ := 5

inductive PushPhase
  | start
  -- The writer is constructed.
  | first
  -- So many retries have failed.
  | retry (i : ℕ)
  | reserved
  | lost
  deriving DecidableEq, Repr

structure DeallocPush where
  mpsc : Mpsc
  phase : PushPhase := .start
  timeout : Bool := false
  lostDeallocCount : ℕ := 0
  -- The first attempt had the lock and found no room.
  full : Bool := false

inductive PushLabel
  -- A step of the reader or of another producer.
  | other (l : MpscLabel)
  | construct
  -- The next attempt; `lock` says whether the lock is obtained in time.
  | reserve (lock : Bool)
  deriving DecidableEq, Repr

namespace DeallocPush

variable {w : ℕ} {s s' : DeallocPush}

def init (order : ℕ) (data : ℕ → Byte) (areas : ℕ → ℕ) : DeallocPush where
  mpsc := .init order data areas

def hasBuffer (m : Mpsc) (w : ℕ) : Bool :=
  match (m.channel.writers w).phase with
  | .writing _ _ => true
  | _ => false

def attempt (w : ℕ) (m : Mpsc) (lock : Bool) : Option Mpsc :=
  if lock then m.step (.producer w (.reserve deallocationEventSize true)) else some m

/-- What an attempt without a buffer leads to. -/
def failedAttempt (s : DeallocPush) (m : Mpsc) (lock : Bool) : PushPhase → DeallocPush
  | .first =>
    { s with mpsc := m, timeout := s.timeout || !lock, full := lock, phase := .retry 0 }
  | .retry i =>
    if s.timeout || !lock || maxSleepAttempts ≤ i + 1 then
      { s with
        mpsc := m, timeout := s.timeout || !lock, phase := .lost
        lostDeallocCount := s.lostDeallocCount + 1 }
    else { s with mpsc := m, phase := .retry (i + 1) }
  | _ => { s with mpsc := m }

def reserve (w : ℕ) (s : DeallocPush) (lock : Bool) : Option DeallocPush :=
  (attempt w s.mpsc lock).map fun m =>
    if hasBuffer m w then { s with mpsc := m, phase := .reserved }
    else s.failedAttempt m lock s.phase

def step (w : ℕ) (s : DeallocPush) : PushLabel → Option DeallocPush
  | .other l =>
    if l.writer = some w then none else (s.mpsc.step l).map fun m => { s with mpsc := m }
  | .construct =>
    match s.phase with
    | .start =>
      (s.mpsc.step (.producer w .updateTail)).map fun m => { s with mpsc := m, phase := .first }
    | _ => none
  | .reserve lock =>
    match s.phase with
    | .first | .retry _ => s.reserve w lock
    | _ => none

/-- All positions stay below `2 ^ 64`. -/
def Admissible (s : DeallocPush) : PushLabel → Prop
  | .other l => s.mpsc.Admissible l
  | .construct => True
  | .reserve _ => s.mpsc.channel.rb.writerPos + sampleSpace deallocationEventSize < 2 ^ 64

instance (s : DeallocPush) : DecidablePred s.Admissible := by
  intro l
  cases l <;> unfold Admissible <;> infer_instance

/-- There is room between `writer_pos` and the current `reader_pos`: a writer that is constructed
now gets a buffer. -/
def HasRoom (s : DeallocPush) : Prop :=
  s.mpsc.channel.rb.writerPos + sampleSpace deallocationEventSize ≤
    s.mpsc.channel.rb.mask + s.mpsc.channel.rb.readerPos

instance : Decidable s.HasRoom := inferInstanceAs (Decidable (_ ≤ _))

/-! ### The retries -/

/-- The event does not fit behind the tail that the writer has loaded. -/
def Stuck (w : ℕ) (s : DeallocPush) : Prop :=
  s.mpsc.channel.rb.mask + (s.mpsc.channel.writers w).tail <
    s.mpsc.channel.rb.writerPos + sampleSpace deallocationEventSize

structure Inv (w : ℕ) (s : DeallocPush) : Prop where
  mpsc : ∃ r hd, s.mpsc.Inv r hd
  idle : s.phase ≠ .reserved → (s.mpsc.channel.writers w).phase = .idle
  stuck : s.full = true → s.Stuck w ∧ ((∃ i, s.phase = .retry i) ∨ s.phase = .lost)
  lost : s.lostDeallocCount = if s.phase = .lost then 1 else 0

variable {m : Mpsc}

theorem tail_le_writerPos {r hd : ℕ} (h : m.Inv r hd) (w : ℕ) :
    (m.channel.writers w).tail ≤ m.channel.rb.writerPos :=
  (h.channel.tail_le w).trans h.channel.layout.readerPos_le

/-- An attempt with the lock gets a buffer, or there is no room and nothing changes. -/
theorem attempt_spec (hidle : (m.channel.writers w).phase = .idle) :
    ∃ m', attempt w m true = some m' ∧
      (hasBuffer m' w = true ∧ m.channel.rb.reserve (m.channel.writers w).tail
          (m.channel.writers w).highPriorityAreaSize deallocationEventSize true ≠ none ∨
        m' = m ∧ m.channel.rb.reserve (m.channel.writers w).tail
          (m.channel.writers w).highPriorityAreaSize deallocationEventSize true = none) := by
  rw [attempt, if_pos rfl, Mpsc.step, Channel.produce, Channel.reserve]
  simp only [hidle]
  cases hres : m.channel.rb.reserve (m.channel.writers w).tail
      (m.channel.writers w).highPriorityAreaSize deallocationEventSize true with
  | none => exact ⟨m, rfl, .inr ⟨rfl, rfl⟩⟩
  | some res =>
    refine ⟨_, rfl, .inl ⟨?_, Option.some_ne_none _⟩⟩
    simp [hasBuffer, Channel.setWriter]

theorem hasBuffer_of_idle (hidle : (m.channel.writers w).phase = .idle) :
    hasBuffer m w = false := by
  rw [hasBuffer, hidle]

theorem Inv.other (h : s.Inv w) {l : MpscLabel} (hok : s.mpsc.Admissible l)
    (hl : l.writer ≠ some w) (hm : s.mpsc.step l = some m) :
    Inv w { s with mpsc := m } := by
  obtain ⟨r, hd, hinv⟩ := h.mpsc
  obtain ⟨hpos, horder, hwriters⟩ := Mpsc.step_frame hok hm
  have hmask : m.channel.rb.mask = s.mpsc.channel.rb.mask := by
    rw [RingBuffer.mask, RingBuffer.dataSize, horder, RingBuffer.mask, RingBuffer.dataSize]
  refine ⟨hinv.step hok hm, fun hphase => ?_, fun hfull => ⟨?_, (h.stuck hfull).2⟩, h.lost⟩
  · change (m.channel.writers w).phase = .idle
    rw [hwriters w hl]
    exact h.idle hphase
  · have hstuck := (h.stuck hfull).1
    change m.channel.rb.mask + (m.channel.writers w).tail < _
    rw [hmask, hwriters w hl]
    exact hstuck.trans_le (Nat.add_le_add_right hpos _)

theorem Inv.construct (h : s.Inv w) (hphase : s.phase = .start)
    (hm : s.mpsc.step (.producer w .updateTail) = some m) :
    Inv w { s with mpsc := m, phase := .first } := by
  obtain ⟨r, hd, hinv⟩ := h.mpsc
  have hfull : s.full ≠ true := fun hfull => by
    obtain ⟨i, hi⟩ | hlost := (h.stuck hfull).2
    · exact nomatch hphase.symm.trans hi
    · exact nomatch hphase.symm.trans hlost
  have hlost := h.lost
  rw [if_neg (by rw [hphase]; nofun)] at hlost
  refine ⟨hinv.step (show s.mpsc.Admissible (.producer w .updateTail) from trivial) hm, fun _ => ?_,
    fun hf => absurd hf hfull, by simpa using hlost⟩
  have hidle := h.idle (by rw [hphase]; nofun)
  rw [Mpsc.step, Channel.produce, Channel.updateTail] at hm
  simp only [hidle, Option.map_some, Option.some.injEq] at hm
  subst hm
  simp [Channel.setWriter]

/-- A reservation with the lock gets no buffer exactly when the event does not fit behind the
loaded tail. -/
theorem Inv.reserve_eq_none_iff (h : s.Inv w) (hok : s.Admissible (.reserve true)) :
    s.mpsc.channel.rb.reserve (s.mpsc.channel.writers w).tail
      (s.mpsc.channel.writers w).highPriorityAreaSize deallocationEventSize true = none ↔
      s.Stuck w := by
  obtain ⟨r, hd, hinv⟩ := h.mpsc
  exact RingBuffer.reserve_eq_none_iff (by decide) hok (tail_le_writerPos hinv w)

/-- A failed attempt leaves the thread in a retry or gives the event up. -/
theorem Inv.failedAttempt (h : s.Inv w) {lock : Bool}
    (hphase : s.phase = .first ∨ ∃ i, s.phase = .retry i) (hstuck : lock = true → s.Stuck w) :
    Inv w (s.failedAttempt s.mpsc lock s.phase) := by
  have hidle := h.idle (by rintro heq; simp [heq] at hphase)
  have hlost := h.lost
  obtain hfirst | ⟨i, hi⟩ := hphase
  · rw [if_neg (by rw [hfirst]; nofun)] at hlost
    rw [hfirst, DeallocPush.failedAttempt]
    exact ⟨h.mpsc, fun _ => hidle, fun hfull => ⟨hstuck hfull, .inl ⟨0, rfl⟩⟩, by simpa using hlost⟩
  · rw [if_neg (by rw [hi]; nofun)] at hlost
    rw [hi, DeallocPush.failedAttempt]
    split_ifs
    · exact ⟨h.mpsc, fun _ => hidle, fun hfull => ⟨(h.stuck hfull).1, .inr rfl⟩, by simp [hlost]⟩
    · exact ⟨h.mpsc, fun _ => hidle, fun hfull => ⟨(h.stuck hfull).1, .inl ⟨_, rfl⟩⟩,
        by simpa using hlost⟩

/-- An attempt ends with a buffer, or fails; with the lock it fails when the event does not fit
behind the loaded tail. -/
theorem Inv.reserve (h : s.Inv w) {lock : Bool} (hok : s.Admissible (.reserve lock))
    (hphase : s.phase = .first ∨ ∃ i, s.phase = .retry i) :
    ∃ s', s.reserve w lock = some s' ∧ s'.Inv w ∧
      ((s'.phase = .reserved ∧ ¬ s.Stuck w) ∨
        s' = s.failedAttempt s.mpsc lock s.phase ∧ (lock = true → s.Stuck w)) := by
  obtain ⟨r, hd, hinv⟩ := h.mpsc
  have hidle := h.idle (by rintro heq; simp [heq] at hphase)
  have hlost := h.lost
  rw [if_neg (by rintro heq; simp [heq] at hphase)] at hlost
  have hfailed : ∀ m, hasBuffer m w = false → attempt w s.mpsc lock = some m → 
      s.reserve w lock = some (s.failedAttempt m lock s.phase) := fun m hbuf hm => by
    rw [DeallocPush.reserve, hm, Option.map_some, hbuf, if_neg nofun]
  cases lock with
  | false =>
    have hm : attempt w s.mpsc false = some s.mpsc := rfl
    exact ⟨_, hfailed _ (hasBuffer_of_idle hidle) hm, h.failedAttempt hphase nofun,
      .inr ⟨rfl, nofun⟩⟩
  | true =>
    obtain ⟨m, hm, ⟨hbuf, hsome⟩ | ⟨rfl, hnone⟩⟩ := attempt_spec hidle
    · have hroom := mt (h.reserve_eq_none_iff hok).mpr hsome
      have hlabel : s.mpsc.Admissible (.producer w (.reserve deallocationEventSize true)) :=
        ⟨by decide, by decide, fun _ => hok⟩
      rw [attempt, if_pos rfl] at hm
      refine ⟨{ s with mpsc := m, phase := .reserved }, ?_, ⟨hinv.step hlabel hm, nofun,
        fun hfull => absurd (h.stuck hfull).1 hroom, by simpa using hlost⟩, .inl ⟨rfl, hroom⟩⟩
      rw [DeallocPush.reserve, attempt, if_pos rfl, hm, Option.map_some, if_pos hbuf]
    · have hstuck := (h.reserve_eq_none_iff hok).mp hnone
      exact ⟨_, hfailed _ (hasBuffer_of_idle hidle) hm,
        h.failedAttempt hphase fun _ => hstuck, .inr ⟨rfl, fun _ => hstuck⟩⟩

theorem Inv.step (h : s.Inv w) {l : PushLabel} (hok : s.Admissible l)
    (hstep : s.step w l = some s') : s'.Inv w := by
  cases l with
  | other l =>
    rw [DeallocPush.step] at hstep
    split_ifs at hstep with hl
    obtain ⟨m, hm, rfl⟩ := Option.map_eq_some_iff.mp hstep
    exact h.other hok hl hm
  | construct =>
    rw [DeallocPush.step] at hstep
    split at hstep
    case h_1 hphase =>
      obtain ⟨m, hm, rfl⟩ := Option.map_eq_some_iff.mp hstep
      exact h.construct hphase hm
    case h_2 => cases hstep
  | reserve lock =>
    rw [DeallocPush.step] at hstep
    split at hstep
    case h_1 hphase =>
      obtain ⟨t, ht, hinv, -⟩ := h.reserve hok (.inl hphase)
      cases ht.symm.trans hstep
      exact hinv
    case h_2 i hphase =>
      obtain ⟨t, ht, hinv, -⟩ := h.reserve hok (.inr ⟨i, hphase⟩)
      cases ht.symm.trans hstep
      exact hinv
    case h_3 => cases hstep

theorem inv_init (w : ℕ) {order : ℕ} (data : ℕ → Byte) (areas : ℕ → ℕ) (horder : 3 ≤ order) :
    (init order data areas).Inv w :=
  ⟨⟨0, 0, Mpsc.inv_init data areas horder⟩, fun _ => rfl, nofun, rfl⟩

/-- A retry that gets the lock gets no buffer. -/
def RetryFails (w : ℕ) (s : DeallocPush) : Prop :=
  ∃ s', s.step w (.reserve true) = some s' ∧ s'.phase ≠ .reserved

theorem Inv.retryFails (h : s.Inv w) (hfull : s.full = true) {i : ℕ} (hi : s.phase = .retry i)
    (hok : s.Admissible (.reserve true)) : s.RetryFails w := by
  obtain ⟨s', hs', -, ⟨-, hroom⟩ | ⟨rfl, -⟩⟩ := h.reserve hok (.inr ⟨i, hi⟩)
  · exact absurd (h.stuck hfull).1 hroom
  · refine ⟨_, by rw [DeallocPush.step, hi]; exact hs', ?_⟩
    rw [hi, DeallocPush.failedAttempt]
    split_ifs <;> exact nofun

/-- Once the first attempt has found the ring buffer full, no retry gets a buffer, however
much the reader has released by then, and a push that ends has lost its event. -/
theorem run_retryFails {order : ℕ} {data : ℕ → Byte} {areas : ℕ → ℕ} {ls : List PushLabel}
    (horder : 3 ≤ order) (hok : Run.Along (step w) Admissible (init order data areas) ls)
    (hrun : Run.steps (step w) (init order data areas) ls = some s) (hfull : s.full = true) :
    s.phase ≠ .reserved ∧ (s.phase = .lost → s.lostDeallocCount = 1) ∧
      ∀ i, s.phase = .retry i → s.Admissible (.reserve true) → s.RetryFails w := by
  have h : s.Inv w := Run.steps_invariant (fun _ _ _ h hok hstep => h.step hok hstep)
    (inv_init w data areas horder) hok hrun
  refine ⟨fun hreserved => ?_, fun hlost => ?_, fun i hi hpos => h.retryFails hfull hi hpos⟩
  · obtain ⟨i, hi⟩ | hlost := (h.stuck hfull).2
    · exact nomatch hreserved.symm.trans hi
    · exact nomatch hreserved.symm.trans hlost
  · rw [h.lost, if_pos hlost]

/-- Another producer fills a ring buffer of 64 bytes, and after the first attempt the reader
takes its sample and releases all of it. -/
def drainedBeforeRetry : List PushLabel :=
  [.other (.producer 1 (.reserve 32 true)), .other (.producer 1 .publish), .construct,
    .reserve true,
    .other .loadHead, .other .readSample, .other (.advanceIfPossible 0)]

theorem run_retryFails_drained :
    (Run.steps (step 0) (init 6 (fun _ => 0) fun _ => 0) drainedBeforeRetry).any
      (fun s => decide (s.full = true ∧ s.HasRoom ∧ s.phase = .retry 0)) = true ∧
    ∀ s, Run.steps (step 0) (init 6 (fun _ => 0) fun _ => 0) drainedBeforeRetry = some s →
      s.full = true → s.phase ≠ .reserved ∧ (s.phase = .lost → s.lostDeallocCount = 1) ∧
        ∀ i, s.phase = .retry i → s.Admissible (.reserve true) → s.RetryFails 0 :=
  ⟨by decide +kernel, fun _ hrun hfull =>
    run_retryFails (by decide) (by decide +kernel) hrun hfull⟩

/-- There is room before each of the five retries, and the event is lost. -/
theorem drained_retries_lose :
    (Run.steps (step 0) (init 6 (fun _ => 0) fun _ => 0)
        (drainedBeforeRetry ++ List.replicate 4 (.reserve true))).any
      (fun s => decide (s.HasRoom ∧ s.phase = .retry 4)) = true ∧
    (Run.steps (step 0) (init 6 (fun _ => 0) fun _ => 0)
        (drainedBeforeRetry ++ List.replicate 5 (.reserve true))).any
      (fun s => decide (s.HasRoom ∧ s.phase = .lost ∧ s.lostDeallocCount = 1)) = true := by
  decide +kernel

end DeallocPush

end Ddprof
