import Ddprof.RingBuffer.Samples
import Ddprof.Lib.Run

/-!
The producers of a ring buffer (`MPSCRingBufferWriter`).

Any number of producers share a ring buffer. Each has a writer with its own view
of `reader_pos`, which may be out of date, and goes through the same phases: it
reserves a sample with the lock held, writes its bytes, publishes it, reads
`reader_pos` again to decide whether the reader may be waiting, and if so writes
to the eventfd. A step of the system is one step of one producer.
-/

namespace Ddprof

open Circular (Byte)
open RingBuffer (Layout)

inductive WriterPhase where
  | idle
  /-- The sample is reserved. -/
  | writing (index : ℕ) (buf : Buffer)
  /-- `commit_internal` has stored the header and not yet loaded the tail. -/
  | published (index : ℕ) (buf : Buffer)
  /-- `commit` has returned `true`. -/
  | notifying
  deriving DecidableEq, Repr

structure Writer where
  tail : ℕ := 0
  highPriorityAreaSize : ℕ := 0
  phase : WriterPhase := .idle
  deriving DecidableEq, Repr

/-- A ring buffer with its producers; `slots` records all samples ever reserved. -/
structure Channel where
  rb : RingBuffer
  writers : ℕ → Writer
  eventfd : ℕ := 0
  slots : List Slot := []

inductive ProducerAction where
  | updateTail
  | reserve (n : ℕ) (highPriority : Bool)
  | writeByte (k : ℕ) (b : Byte)
  | publish
  | loadTail
  | notify
  deriving DecidableEq, Repr

namespace Channel

def setWriter (c : Channel) (w : ℕ) (writer : Writer) : Channel :=
  { c with writers := Function.update c.writers w writer }

/-- `update_tail`. -/
def updateTail (c : Channel) (w : ℕ) : Option Channel :=
  match (c.writers w).phase with
  | .idle => some (c.setWriter w { c.writers w with tail := c.rb.readerPos })
  | _ => none

/-- `reserve`; the producer gets no buffer when there is no room. -/
def reserve (c : Channel) (w n : ℕ) (highPriority : Bool) : Option Channel :=
  match (c.writers w).phase with
  | .idle =>
    let res := c.rb.reserve (c.writers w).tail (c.writers w).highPriorityAreaSize n highPriority
    some (res.elim c fun (rb, buf) =>
      { c.setWriter w { c.writers w with phase := .writing c.slots.length buf } with
        rb := rb
        slots := c.slots ++ [{ content := rb.bytes buf }] })
  | _ => none

def writeByte (c : Channel) (w k : ℕ) (b : Byte) : Option Channel :=
  match (c.writers w).phase with
  | .writing i buf =>
    if k < buf.size then
      some { c with
        rb := c.rb.writeByte buf k b
        slots := c.slots.modify i fun s => { s with content := s.content.set k b } }
    else none
  | _ => none

/-- The store of `commit`. -/
def publish (c : Channel) (w : ℕ) : Option Channel :=
  match (c.writers w).phase with
  | .writing i buf =>
    some { c.setWriter w { c.writers w with phase := .published i buf } with
      rb := c.rb.commit buf false
      slots := c.slots.modify i fun s => { s with busy := false } }
  | _ => none

/-- The load of `commit`, and what it returns. -/
def loadTail (c : Channel) (w : ℕ) : Option Channel :=
  match (c.writers w).phase with
  | .published _ buf =>
    some (c.setWriter w { c.writers w with
      tail := c.rb.readerPos
      phase := if c.rb.needsNotification buf then .notifying else .idle })
  | _ => none

def notify (c : Channel) (w : ℕ) : Option Channel :=
  match (c.writers w).phase with
  | .notifying =>
    some { c.setWriter w { c.writers w with phase := .idle } with eventfd := c.eventfd + 1 }
  | _ => none

/-- One step of the producer `w`; `none` when its phase does not allow the action. -/
def produce (c : Channel) (w : ℕ) : ProducerAction → Option Channel
  | .updateTail => c.updateTail w
  | .reserve n highPriority => c.reserve w n highPriority
  | .writeByte k b => c.writeByte w k b
  | .publish => c.publish w
  | .loadTail => c.loadTail w
  | .notify => c.notify w

/-- What a producer finds and does, one case for each outcome of an action. -/
inductive Acts (c : Channel) (w : ℕ) : ProducerAction → Channel → Prop
  | updateTail (hidle : (c.writers w).phase = .idle) :
      Acts c w .updateTail (c.setWriter w { c.writers w with tail := c.rb.readerPos })
  | full {n : ℕ} {highPriority : Bool} (hidle : (c.writers w).phase = .idle)
      (hres : c.rb.reserve (c.writers w).tail (c.writers w).highPriorityAreaSize n highPriority =
        none) : Acts c w (.reserve n highPriority) c
  | reserve {n : ℕ} {highPriority : Bool} {rb : RingBuffer} {buf : Buffer}
      (hidle : (c.writers w).phase = .idle)
      (hres : c.rb.reserve (c.writers w).tail (c.writers w).highPriorityAreaSize n highPriority =
        some (rb, buf)) :
      Acts c w (.reserve n highPriority)
        { c.setWriter w { c.writers w with phase := .writing c.slots.length buf } with
          rb := rb
          slots := c.slots ++ [{ content := rb.bytes buf }] }
  | writeByte {k i : ℕ} {b : Byte} {buf : Buffer} (hw : (c.writers w).phase = .writing i buf)
      (hk : k < buf.size) :
      Acts c w (.writeByte k b) { c with
        rb := c.rb.writeByte buf k b
        slots := c.slots.modify i fun s => { s with content := s.content.set k b } }
  | publish {i : ℕ} {buf : Buffer} (hw : (c.writers w).phase = .writing i buf) :
      Acts c w .publish { c.setWriter w { c.writers w with phase := .published i buf } with
        rb := c.rb.commit buf false
        slots := c.slots.modify i fun s => { s with busy := false } }
  | loadTail {i : ℕ} {buf : Buffer} (hw : (c.writers w).phase = .published i buf) :
      Acts c w .loadTail (c.setWriter w { c.writers w with
        tail := c.rb.readerPos
        phase := if c.rb.needsNotification buf then .notifying else .idle })
  | notify (hw : (c.writers w).phase = .notifying) :
      Acts c w .notify
        { c.setWriter w { c.writers w with phase := .idle } with eventfd := c.eventfd + 1 }

theorem acts_of_produce {c c' : Channel} {w : ℕ} {a : ProducerAction}
    (hstep : c.produce w a = some c') : Acts c w a c' := by
  cases a with
  | updateTail =>
    rw [produce, updateTail] at hstep
    split at hstep <;> cases hstep
    exact .updateTail ‹_›
  | reserve n highPriority =>
    rw [produce, reserve] at hstep
    split at hstep <;> cases hstep
    generalize hres : c.rb.reserve (c.writers w).tail (c.writers w).highPriorityAreaSize n
      highPriority = res
    cases res with
    | none => exact .full ‹_› hres
    | some res => exact .reserve ‹_› hres
  | writeByte k b =>
    rw [produce, writeByte] at hstep
    split at hstep
    · split at hstep <;> cases hstep
      exact .writeByte ‹_› ‹_›
    · cases hstep
  | publish =>
    rw [produce, publish] at hstep
    split at hstep <;> cases hstep
    exact .publish ‹_›
  | loadTail =>
    rw [produce, loadTail] at hstep
    split at hstep <;> cases hstep
    exact .loadTail ‹_›
  | notify =>
    rw [produce, notify] at hstep
    split at hstep <;> cases hstep
    exact .notify ‹_›

/-- The sizes that producers reserve, and the positions they reach. A position that
`reserve` computes stays below `2 ^ 64`; without an area for samples of high priority
this says that fewer bytes than that are reserved in total. -/
def Admissible (c : Channel) (w : ℕ) : ProducerAction → Prop
  | .reserve n highPriority =>
    1 ≤ n ∧ n < 2 ^ 32 ∧
      ((c.rb.reserve (c.writers w).tail (c.writers w).highPriorityAreaSize n
          highPriority).isSome →
        c.rb.writerPos + sampleSpace n +
          (if highPriority then 0 else (c.writers w).highPriorityAreaSize) < 2 ^ 64)
  | _ => True

instance (c : Channel) (w : ℕ) : DecidablePred (c.Admissible w) := by
  intro a
  cases a <;> unfold Admissible <;> infer_instance

def init (order : ℕ) (data : ℕ → Byte) (areas : ℕ → ℕ) : Channel where
  rb := { order := order, data := data }
  writers w := { highPriorityAreaSize := areas w }

/-! ### The samples while producers run -/

/-- What producers can do to the samples: they append new ones, and change busy ones
without changing their sizes. -/
structure Evolves (slots slots' : List Slot) : Prop where
  length_le : slots.length ≤ slots'.length
  pos : ∀ i ≤ slots.length, mpscFormat.pos slots' i = mpscFormat.pos slots i
  committed : ∀ (i : ℕ) (s : Slot), slots[i]? = some s → s.busy = false → slots'[i]? = some s
  old : ∀ (i : ℕ) (s : Slot), slots[i]? = some s →
    ∃ s' : Slot, slots'[i]? = some s' ∧ s'.size = s.size ∧ s'.discarded = s.discarded
  fresh : ∀ (i : ℕ) (s' : Slot), slots.length ≤ i → slots'[i]? = some s' → s'.discarded = false

variable {rb rb' : RingBuffer}

section Evolves

variable {slots : List Slot} {i : ℕ} {s s' : Slot}

theorem Evolves.refl (slots : List Slot) : Evolves slots slots where
  length_le := le_rfl
  pos _ _ := rfl
  committed _ _ hs _ := hs
  old i s hs := ⟨s, hs, rfl, rfl⟩
  fresh i s hi hs := absurd (List.getElem?_eq_some_iff.mp hs).1 (by omega)

theorem Evolves.append (hs : s.discarded = false) : Evolves slots (slots ++ [s]) where
  length_le := by simp
  pos i hi := Circular.offset_append _ hi
  committed i t ht _ := by
    rw [List.getElem?_append_left (List.getElem?_eq_some_iff.mp ht).1]
    exact ht
  old i t ht := by
    refine ⟨t, ?_, rfl, rfl⟩
    rw [List.getElem?_append_left (List.getElem?_eq_some_iff.mp ht).1]
    exact ht
  fresh i t hi ht := by
    rw [List.getElem?_append_right hi] at ht
    rw [List.mem_singleton.mp (List.mem_of_getElem? ht)]
    exact hs

theorem Evolves.set (hi : slots[i]? = some s) (hbusy : s.busy = true) (hsize : s'.size = s.size)
    (hdiscarded : s'.discarded = s.discarded) : Evolves slots (slots.set i s') where
  length_le := by simp
  pos j _ := Circular.offset_set hi
    (show s'.space = s.space by rw [Slot.space, hsize, Slot.space]) j
  committed j t ht hb := by
    rw [List.getElem?_set_ne]
    · exact ht
    · rintro rfl
      rw [hi] at ht
      cases ht
      rw [hbusy] at hb
      cases hb
  old j t ht := by
    by_cases hij : i = j
    · subst hij
      rw [hi] at ht
      cases ht
      exact ⟨s', List.getElem?_set_self (List.getElem?_eq_some_iff.mp hi).1, hsize, hdiscarded⟩
    · exact ⟨t, by rw [List.getElem?_set_ne hij]; exact ht, rfl, rfl⟩
  fresh j t hj ht := by
    have := (List.getElem?_eq_some_iff.mp ht).1
    rw [List.length_set] at this
    omega

theorem Evolves.discarded_iff {slots' : List Slot} (h : Evolves slots slots')
    (hs : slots'[i]? = some s') :
    s'.discarded = true ↔ ∃ s, slots[i]? = some s ∧ s.discarded = true := by
  rcases Nat.lt_or_ge i slots.length with hlt | hge
  · obtain ⟨t, ht⟩ : ∃ t, slots[i]? = some t := ⟨_, List.getElem?_eq_getElem hlt⟩
    obtain ⟨t', ht', -, hd⟩ := h.old i t ht
    rw [hs] at ht'
    cases ht'
    rw [hd, ht]
    simp
  · rw [h.fresh i s' hge hs, List.getElem?_eq_none hge]
    simp

theorem Evolves.sampleBuffer {slots' : List Slot} {n : ℕ}
    (h : Evolves slots slots') (horder : rb'.order = rb.order) (hi : i ≤ slots.length) :
    rb'.sampleBuffer slots' i n = rb.sampleBuffer slots i n := by
  rw [RingBuffer.sampleBuffer, RingBuffer.sampleBuffer, h.pos i hi, RingBuffer.mask,
    RingBuffer.mask, RingBuffer.dataSize, RingBuffer.dataSize, horder]

end Evolves

/-! ### The invariant -/

/-- The sample that a producer is working on is its own. -/
def Owns (rb : RingBuffer) (slots : List Slot) : WriterPhase → Prop
  | .writing i buf =>
    ∃ s, slots[i]? = some s ∧ s.busy = true ∧ buf = rb.sampleBuffer slots i s.size
  | .published i buf =>
    ∃ s, slots[i]? = some s ∧ s.busy = false ∧ buf = rb.sampleBuffer slots i s.size
  | .idle | .notifying => True

/-- The ring buffer holds the samples, of which `r` have been released, and every
busy sample has exactly one producer. -/
structure Inv (c : Channel) (r : ℕ) : Prop where
  layout : Layout mpscFormat c.rb c.slots r
  tail_le : ∀ w, (c.writers w).tail ≤ c.rb.readerPos
  owns : ∀ w, Owns c.rb c.slots (c.writers w).phase
  unique : ∀ w w' i buf buf', (c.writers w).phase = .writing i buf →
    (c.writers w').phase = .writing i buf' → w = w'
  busy : ∀ (i : ℕ) (s : Slot), c.slots[i]? = some s → s.busy = true →
    r ≤ i ∧ ∃ w buf, (c.writers w).phase = .writing i buf
  discarded : ∀ (i : ℕ) (s : Slot), c.slots[i]? = some s → s.discarded = true → s.busy = false

structure Produced (c c' : Channel) : Prop where
  evolves : Evolves c.slots c'.slots
  order : c'.rb.order = c.rb.order
  readerPos : c'.rb.readerPos = c.rb.readerPos
  intermediate : c'.rb.intermediateReaderPos = c.rb.intermediateReaderPos

variable {slots slots' : List Slot} {rb : RingBuffer}

section Step

variable {c c' : Channel} {r w : ℕ}

@[simp] theorem setWriter_rb (c : Channel) (w : ℕ) (writer : Writer) :
    (c.setWriter w writer).rb = c.rb := rfl

@[simp] theorem setWriter_self (c : Channel) (w : ℕ) (writer : Writer) :
    (c.setWriter w writer).writers w = writer := Function.update_self ..

theorem setWriter_of_ne {w' : ℕ} (c : Channel) (writer : Writer) (h : w' ≠ w) :
    (c.setWriter w writer).writers w' = c.writers w' := Function.update_of_ne h ..

theorem modify_eq_set {slots : List Slot} {i : ℕ} {s : Slot} (hi : slots[i]? = some s)
    (f : Slot → Slot) : slots.modify i f = slots.set i (f s) := by
  obtain ⟨hlt, rfl⟩ := List.getElem?_eq_some_iff.mp hi
  exact List.modify_eq_set_get f hlt

section Acts

variable {a : ProducerAction}

theorem Acts.writers_of_ne {w' : ℕ} (hacts : c.Acts w a c') (hne : w' ≠ w) :
    c'.writers w' = c.writers w' := by
  cases hacts with
  | full | writeByte => rfl
  | updateTail | reserve | publish | loadTail | notify => exact setWriter_of_ne c _ hne

theorem Acts.eventfd_eq (hacts : c.Acts w a c') :
    c'.eventfd = if a = .notify then c.eventfd + 1 else c.eventfd := by
  cases hacts <;> rfl

/-- A sample is committed by the store of its producer and by nothing else. -/
theorem Acts.committed {i : ℕ} {t : Slot} (hacts : c.Acts w a c') (ht : c'.slots[i]? = some t)
    (hb : t.busy = false) : (∃ u, c.slots[i]? = some u ∧ u.busy = false) ∨
      a = .publish ∧ ∃ buf u, (c.writers w).phase = .writing i buf ∧ c.slots[i]? = some u ∧
        t.content = u.content ∧ (c'.writers w).phase = .published i buf := by
  cases hacts with
  | updateTail | full | loadTail | notify => exact .inl ⟨t, ht, hb⟩
  | reserve hidle hres =>
    rcases Nat.lt_or_ge i c.slots.length with hlt | hge
    · rw [List.getElem?_append_left hlt] at ht
      exact .inl ⟨t, ht, hb⟩
    · rw [List.getElem?_append_right hge] at ht
      rw [List.mem_singleton.mp (List.mem_of_getElem? ht)] at hb
      cases hb
  | @writeByte k j b buf hw hk =>
    rw [List.getElem?_modify] at ht
    obtain ⟨u, hu, rfl⟩ := Option.map_eq_some_iff.mp ht
    refine .inl ⟨u, hu, ?_⟩
    split at hb <;> exact hb
  | @publish j buf hw =>
    by_cases hij : j = i
    · subst hij
      rw [List.getElem?_modify_eq] at ht
      obtain ⟨u, hu, rfl⟩ := Option.map_eq_some_iff.mp ht
      exact .inr ⟨rfl, buf, u, hw, hu, rfl, congrArg Writer.phase (setWriter_self ..)⟩
    · rw [List.getElem?_modify_ne _ _ hij] at ht
      exact .inl ⟨t, ht, hb⟩

end Acts

/-- What a producer owns stays its own while other samples evolve. -/
theorem Owns.evolves {phase : WriterPhase}
    (h : Owns rb slots phase) (hev : Evolves slots slots') (horder : rb'.order = rb.order)
    (hkeep : ∀ i buf, phase = .writing i buf → slots'[i]? = slots[i]?) :
    Owns rb' slots' phase := by
  cases phase with
  | idle => trivial
  | notifying => trivial
  | writing i buf =>
    obtain ⟨s, hs, hbusy, hbuf⟩ := h
    have hlt := (List.getElem?_eq_some_iff.mp hs).1
    exact ⟨s, (hkeep i buf rfl).trans hs, hbusy, by rw [hev.sampleBuffer horder hlt.le, hbuf]⟩
  | published i buf =>
    obtain ⟨s, hs, hbusy, hbuf⟩ := h
    have hlt := (List.getElem?_eq_some_iff.mp hs).1
    exact ⟨s, hev.committed i s hs hbusy, hbusy, by rw [hev.sampleBuffer horder hlt.le, hbuf]⟩

/-- A producer that has no busy sample, before and after, changes its own fields. -/
theorem Inv.setWriter (h : c.Inv r) {writer : Writer} (fd : ℕ)
    (htail : writer.tail ≤ c.rb.readerPos)
    (hbefore : ∀ i buf, (c.writers w).phase ≠ .writing i buf)
    (hafter : writer.phase = .idle ∨ writer.phase = .notifying) :
    Inv { c.setWriter w writer with eventfd := fd } r := by
  have hphase : ∀ w' i buf, ((c.setWriter w writer).writers w').phase = .writing i buf ↔
      (c.writers w').phase = .writing i buf := by
    intro w' i buf
    by_cases hw : w' = w
    · subst hw
      rw [setWriter_self]
      refine ⟨fun heq => ?_, fun heq => absurd heq (hbefore i buf)⟩
      rcases hafter with ha | ha <;> rw [ha] at heq <;> cases heq
    · rw [c.setWriter_of_ne writer hw]
  refine ⟨h.layout, fun w' => ?_, fun w' => ?_, fun w₁ w₂ i b₁ b₂ h₁ h₂ => ?_,
    fun i s hs hb => ?_, h.discarded⟩
  · by_cases hw : w' = w
    · subst hw
      simpa using htail
    · exact (congrArg Writer.tail (c.setWriter_of_ne writer hw)).trans_le (h.tail_le w')
  · by_cases hw : w' = w
    · subst hw
      rw [show (({ c.setWriter w' writer with eventfd := fd } : Channel).writers w').phase =
        writer.phase by simp]
      rcases hafter with ha | ha <;> rw [ha] <;> trivial
    · have := h.owns w'
      rwa [← c.setWriter_of_ne writer hw] at this
  · exact h.unique w₁ w₂ i b₁ b₂ ((hphase w₁ i b₁).mp h₁) ((hphase w₂ i b₂).mp h₂)
  · obtain ⟨hr, w', buf, hw'⟩ := h.busy i s hs hb
    exact ⟨hr, w', buf, (hphase w' i buf).mpr hw'⟩

theorem Inv.tail_setPhase_le (h : c.Inv r) (phase : WriterPhase) (w' : ℕ) :
    ((c.setWriter w { c.writers w with phase := phase }).writers w').tail ≤ c.rb.readerPos := by
  by_cases hne : w' = w
  · subst hne
    simpa using h.tail_le w'
  · exact (congrArg Writer.tail (c.setWriter_of_ne _ hne)).trans_le (h.tail_le w')

/-- A producer changes its sample, and either goes on with it or publishes it. -/
theorem Inv.setSlot (h : c.Inv r) {i : ℕ} {buf : Buffer} {s s' : Slot}
    {phase : WriterPhase} (hw : (c.writers w).phase = .writing i buf)
    (hs : c.slots[i]? = some s) (hsize : s'.size = s.size)
    (hdiscarded : s'.discarded = s.discarded)
    (hlayout : Layout mpscFormat rb (c.slots.set i s') r) (horder : rb.order = c.rb.order)
    (hreader : rb.readerPos = c.rb.readerPos)
    (hphase : phase = .writing i buf ∧ s'.busy = true ∨
      phase = .published i buf ∧ s'.busy = false) :
    Inv { c.setWriter w { c.writers w with phase := phase } with
      rb := rb, slots := c.slots.set i s' } r := by
  have hlt : i < c.slots.length := (List.getElem?_eq_some_iff.mp hs).1
  have hself : (c.slots.set i s')[i]? = some s' := List.getElem?_set_self hlt
  obtain ⟨t, ht, hbusy, hbuf⟩ : ∃ t, c.slots[i]? = some t ∧ t.busy = true ∧
      buf = c.rb.sampleBuffer c.slots i t.size := by
    have := h.owns w
    rwa [hw] at this
  obtain rfl : t = s := by
    rw [hs] at ht
    cases ht
    rfl
  have hev : Evolves c.slots (c.slots.set i s') := .set hs hbusy hsize hdiscarded
  have hother : ∀ w' ≠ w, ∀ j b, (c.writers w').phase = .writing j b → j ≠ i := by
    rintro w' hne j b hw' rfl
    exact hne (h.unique w' w j b buf hw' hw)
  refine ⟨hlayout, fun w' => ?_, fun w' => ?_, fun w₁ w₂ j b₁ b₂ h₁ h₂ => ?_,
    fun j u hu hb => ?_, fun j u hu hd => ?_⟩
  · rw [hreader]
    exact h.tail_setPhase_le _ w'
  · by_cases hne : w' = w
    · subst hne
      have hbuf' : buf = rb.sampleBuffer (c.slots.set i s') i s'.size := by
        rw [hev.sampleBuffer horder hlt.le, hsize, hbuf]
      change Owns rb _ ((c.setWriter w' _).writers w').phase
      rw [setWriter_self]
      rcases hphase with ⟨rfl, hb⟩ | ⟨rfl, hb⟩
      · exact ⟨s', hself, hb, hbuf'⟩
      · exact ⟨s', hself, hb, hbuf'⟩
    · have hkeep : ∀ j b, (c.writers w').phase = .writing j b →
          (c.slots.set i s')[j]? = c.slots[j]? := fun j b hj =>
        List.getElem?_set_ne (hother w' hne j b hj).symm
      have := (h.owns w').evolves hev horder hkeep
      rwa [← c.setWriter_of_ne _ hne] at this
  · -- the producer itself writes the sample `i` or none, the others write other samples
    have hphases : ∀ w' b, ((c.setWriter w { c.writers w with phase := phase }).writers w').phase =
        .writing j b → ∃ b', (c.writers w').phase = .writing j b' := by
      intro w' b hwb
      by_cases hne : w' = w
      · subst hne
        rw [setWriter_self] at hwb
        rcases hphase with ⟨rfl, -⟩ | ⟨rfl, -⟩
        · cases hwb
          exact ⟨_, hw⟩
        · cases hwb
      · rw [c.setWriter_of_ne _ hne] at hwb
        exact ⟨b, hwb⟩
    obtain ⟨b₁', h₁'⟩ := hphases w₁ b₁ h₁
    obtain ⟨b₂', h₂'⟩ := hphases w₂ b₂ h₂
    exact h.unique w₁ w₂ j b₁' b₂' h₁' h₂'
  · by_cases hij : i = j
    · subst hij
      rw [hself] at hu
      cases hu
      refine ⟨(h.busy i t hs hbusy).1, w, buf, ?_⟩
      rcases hphase with ⟨rfl, -⟩ | ⟨-, hb'⟩
      · simp
      · rw [hb'] at hb
        cases hb
    · rw [List.getElem?_set_ne hij] at hu
      obtain ⟨hr, w', b, hw'⟩ := h.busy j u hu hb
      have hne : w' ≠ w := by
        rintro rfl
        rw [hw] at hw'
        cases hw'
        exact hij rfl
      exact ⟨hr, w', b, (congrArg Writer.phase (c.setWriter_of_ne _ hne)).trans hw'⟩
  · by_cases hij : i = j
    · subst hij
      rw [hself] at hu
      cases hu
      rw [hdiscarded] at hd
      rw [h.discarded i t hs hd] at hbusy
      cases hbusy
    · rw [List.getElem?_set_ne hij] at hu
      exact h.discarded j u hu hd

theorem Inv.appendSlot (h : c.Inv r) {s : Slot}
    (hidle : (c.writers w).phase = .idle) (hbusy : s.busy = true) (hdiscarded : s.discarded = false)
    (hlayout : Layout mpscFormat rb (c.slots ++ [s]) r) (horder : rb.order = c.rb.order)
    (hreader : rb.readerPos = c.rb.readerPos) :
    Inv { c.setWriter w { c.writers w with
        phase := .writing c.slots.length (c.rb.sampleBuffer c.slots c.slots.length s.size) } with
      rb := rb, slots := c.slots ++ [s] } r := by
  have hev : Evolves c.slots (c.slots ++ [s]) := .append hdiscarded
  have hlast : (c.slots ++ [s])[c.slots.length]? = some s := by simp
  have hold : ∀ j u, (c.slots ++ [s])[j]? = some u → c.slots[j]? = some u ∨
      j = c.slots.length ∧ u = s := by
    intro j u hu
    rcases Nat.lt_or_ge j c.slots.length with hj | hj
    · rw [List.getElem?_append_left hj] at hu
      exact .inl hu
    · have hlen := (List.getElem?_eq_some_iff.mp hu).1
      rw [List.length_append, List.length_singleton] at hlen
      obtain rfl : j = c.slots.length := by omega
      rw [hlast] at hu
      cases hu
      exact .inr ⟨rfl, rfl⟩
  have hindex : ∀ w' j b, (c.writers w').phase = .writing j b → j < c.slots.length := by
    intro w' j b hw'
    have := h.owns w'
    rw [hw'] at this
    obtain ⟨t, ht, -⟩ := this
    exact (List.getElem?_eq_some_iff.mp ht).1
  refine ⟨hlayout, fun w' => ?_, fun w' => ?_, fun w₁ w₂ j b₁ b₂ h₁ h₂ => ?_,
    fun j u hu hb => ?_, fun j u hu hd => ?_⟩
  · rw [hreader]
    exact h.tail_setPhase_le _ w'
  · by_cases hne : w' = w
    · subst hne
      have hbuf : rb.sampleBuffer (c.slots ++ [s]) c.slots.length s.size =
          c.rb.sampleBuffer c.slots c.slots.length s.size := hev.sampleBuffer horder le_rfl
      change Owns rb _ ((c.setWriter w' _).writers w').phase
      rw [setWriter_self]
      exact ⟨s, hlast, hbusy, hbuf.symm⟩
    · have hkeep : ∀ j b, (c.writers w').phase = .writing j b →
          (c.slots ++ [s])[j]? = c.slots[j]? := fun j b hj =>
        List.getElem?_append_left (hindex w' j b hj)
      have := (h.owns w').evolves hev horder hkeep
      rwa [← c.setWriter_of_ne _ hne] at this
  · -- the new sample has an index that no other producer has
    have hphases : ∀ w' b, ((c.setWriter w { c.writers w with
        phase := .writing c.slots.length
          (c.rb.sampleBuffer c.slots c.slots.length s.size) }).writers
          w').phase = .writing j b →
        w' = w ∧ j = c.slots.length ∨ (c.writers w').phase = .writing j b := by
      intro w' b hwb
      by_cases hne : w' = w
      · subst hne
        rw [setWriter_self] at hwb
        cases hwb
        exact .inl ⟨rfl, rfl⟩
      · rw [c.setWriter_of_ne _ hne] at hwb
        exact .inr hwb
    rcases hphases w₁ b₁ h₁ with ⟨rfl, rfl⟩ | h₁' <;> rcases hphases w₂ b₂ h₂ with ⟨rfl, hj⟩ | h₂'
    · rfl
    · exact absurd (hindex w₂ _ b₂ h₂') (by omega)
    · exact absurd (hindex w₁ _ b₁ h₁') (by omega)
    · exact h.unique w₁ w₂ j b₁ b₂ h₁' h₂'
  · rcases hold j u hu with hu | ⟨rfl, rfl⟩
    · obtain ⟨hr, w', b, hw'⟩ := h.busy j u hu hb
      have hne : w' ≠ w := by
        rintro rfl
        rw [hidle] at hw'
        cases hw'
      exact ⟨hr, w', b, (congrArg Writer.phase (c.setWriter_of_ne _ hne)).trans hw'⟩
    · exact ⟨h.layout.tiled.released, w, _, congrArg Writer.phase (setWriter_self ..)⟩
  · rcases hold j u hu with hu | ⟨rfl, rfl⟩
    · exact h.discarded j u hu hd
    · rw [hdiscarded] at hd
      cases hd

theorem Inv.produce (h : c.Inv r) {a : ProducerAction} (hok : c.Admissible w a)
    (hstep : c.produce w a = some c') : c'.Inv r ∧ Produced c c' := by
  have hown := h.owns w
  cases acts_of_produce hstep with
  | updateTail hidle =>
    refine ⟨h.setWriter c.eventfd le_rfl (fun i b => by rw [hidle]; rintro ⟨⟩) (.inl hidle), ?_⟩
    exact ⟨.refl _, rfl, rfl, rfl⟩
  | full hidle hres => exact ⟨h, .refl _, rfl, rfl, rfl⟩
  | @reserve n highPriority rb buf hidle hres =>
    obtain ⟨-, hlt, hfits⟩ := hok
    have hn : n < 2 ^ 62 := hlt.trans (by norm_num)
    have hbound := hfits (by rw [hres]; rfl)
    obtain ⟨rfl, rfl, hspace⟩ := h.layout.reserve_spec (h.tail_le w) hn hbound hres
    have hlayout := h.layout.reserved hn hspace (by omega)
    have hcontent : (c.rb.reserved n).bytes (c.rb.sampleBuffer c.slots c.slots.length n) =
        (c.rb.newSlot n).content := by
      rw [RingBuffer.sampleBuffer, ← h.layout.writerPos, RingBuffer.newSlot]
      exact RingBuffer.bytes_and_mask (c.rb.reserved n) _ _ _
    have hsize : (c.rb.newSlot n).size = n := Circular.length_read
    have hinv := h.appendSlot (w := w) hidle rfl rfl hlayout rfl rfl
    rw [hsize] at hinv
    rw [hcontent]
    exact ⟨hinv, .append rfl, rfl, rfl, rfl⟩
  | @writeByte k i b buf hw hk =>
    rw [hw] at hown
    obtain ⟨s, hs, hbusy, rfl⟩ := hown
    have hsize : Slot.size { s with content := s.content.set k b } = s.size := by
      rw [Slot.size, List.length_set, Slot.size]
    have hlayout := h.layout.writeByte (n := s.size) (h.busy i s hs hbusy).1 hs hk b
    have hinv := h.setSlot hw hs hsize rfl hlayout rfl rfl (.inl ⟨rfl, hbusy⟩)
    have hsame : c.setWriter w { c.writers w with
        phase := .writing i (c.rb.sampleBuffer c.slots i s.size) } = c := by
      rw [← hw, Channel.setWriter, Function.update_eq_self]
    rw [hsame] at hinv
    rw [modify_eq_set hs]
    exact ⟨hinv, .set hs hbusy hsize rfl, rfl, rfl, rfl⟩
  | @publish i buf hw =>
    rw [hw] at hown
    obtain ⟨s, hs, hbusy, rfl⟩ := hown
    have hlayout := h.layout.commit (n := s.size) (h.busy i s hs hbusy).1 hs hbusy false
    rw [Bool.or_false] at hlayout
    have hinv := h.setSlot hw hs (rfl : Slot.size { s with busy := false } = s.size) rfl hlayout
      rfl rfl (.inr ⟨rfl, rfl⟩)
    rw [modify_eq_set hs]
    exact ⟨hinv, .set hs hbusy rfl rfl, rfl, rfl, rfl⟩
  | @loadTail i buf hw =>
    refine ⟨h.setWriter c.eventfd le_rfl (fun i b => by rw [hw]; rintro ⟨⟩) ?_, .refl _, rfl, rfl,
      rfl⟩
    by_cases hnotify : c.rb.needsNotification buf = true
    · exact .inr (if_pos hnotify)
    · exact .inl (if_neg hnotify)
  | notify hw =>
    exact ⟨h.setWriter (c.eventfd + 1) (h.tail_le w) (fun i b => by rw [hw]; rintro ⟨⟩) (.inl rfl),
      .refl _, rfl, rfl, rfl⟩

end Step

/-! ### The reader's side -/

/-- What the reader can do to the samples: it sets discard flags of complete samples. -/
structure Marks (slots slots' : List Slot) : Prop where
  length : slots'.length = slots.length
  pos : ∀ i, mpscFormat.pos slots' i = mpscFormat.pos slots i
  get : ∀ (i : ℕ) (s : Slot), slots[i]? = some s → ∃ s' : Slot, slots'[i]? = some s' ∧
    s'.content = s.content ∧ s'.busy = s.busy ∧ (s'.discarded = true → s.busy = false)

variable {c : Channel}

theorem Marks.refl {r : ℕ} (h : c.Inv r) : Marks c.slots c.slots where
  length := rfl
  pos _ := rfl
  get i s hs := ⟨s, hs, rfl, rfl, h.discarded i s hs⟩

theorem Marks.set {r i : ℕ} {s : Slot} (h : c.Inv r) (hi : c.slots[i]? = some s)
    (hbusy : s.busy = false) : Marks c.slots (c.slots.set i { s with discarded := true }) where
  length := List.length_set
  pos := Circular.offset_set hi rfl
  get j t ht := by
    by_cases hij : i = j
    · subst hij
      rw [hi] at ht
      cases ht
      exact ⟨_, List.getElem?_set_self (List.getElem?_eq_some_iff.mp hi).1,
        rfl, rfl, fun _ => hbusy⟩
    · exact ⟨t, by rw [List.getElem?_set_ne hij]; exact ht, rfl, rfl, h.discarded j t ht⟩

/-- The sample of the old list that a sample of the marked list comes from. -/
theorem Marks.get_inv (hm : Marks slots slots') {i : ℕ} {s' : Slot}
    (hs : slots'[i]? = some s') : ∃ s, slots[i]? = some s ∧ s'.content = s.content ∧
      s'.busy = s.busy ∧ (s'.discarded = true → s.busy = false) := by
  have hlt : i < slots.length := hm.length ▸ (List.getElem?_eq_some_iff.mp hs).1
  obtain ⟨t, ht, hrest⟩ := hm.get i _ (List.getElem?_eq_getElem hlt)
  rw [hs] at ht
  cases ht
  exact ⟨_, List.getElem?_eq_getElem hlt, hrest⟩

theorem Marks.sampleBuffer {i n : ℕ} (hm : Marks slots slots') (horder : rb'.order = rb.order) :
    rb'.sampleBuffer slots' i n = rb.sampleBuffer slots i n := by
  rw [RingBuffer.sampleBuffer, RingBuffer.sampleBuffer, hm.pos, RingBuffer.mask, RingBuffer.mask,
    RingBuffer.dataSize, RingBuffer.dataSize, horder]

/-- The reader marks samples and releases samples that are not busy. -/
theorem Inv.reader {r r' : ℕ} {slots : List Slot} (h : c.Inv r)
    (hm : Marks c.slots slots) (hlayout : Layout mpscFormat rb slots r')
    (horder : rb.order = c.rb.order) (hr : r ≤ r')
    (hbusy : ∀ i s, c.slots[i]? = some s → s.busy = true → r' ≤ i) :
    Inv { c with rb := rb, slots := slots } r' := by
  have hreader : c.rb.readerPos ≤ rb.readerPos := by
    rw [h.layout.readerPos, hlayout.readerPos, hm.pos]
    exact Circular.offset_mono hr
  have howns : ∀ {i n s}, c.slots[i]? = some s → n = s.size → ∃ s', slots[i]? = some s' ∧
      s'.busy = s.busy ∧ c.rb.sampleBuffer c.slots i n = rb.sampleBuffer slots i s'.size := by
    rintro i n s hs rfl
    obtain ⟨s', hs', hcontent, hb, -⟩ := hm.get i s hs
    exact ⟨s', hs', hb, by rw [hm.sampleBuffer horder, Slot.size, Slot.size, hcontent]⟩
  refine ⟨hlayout, fun w => (h.tail_le w).trans hreader, fun w => ?_, h.unique,
    fun i s' hs' hb => ?_, fun i s' hs' hd => ?_⟩
  · have := h.owns w
    cases hphase : (c.writers w).phase with
    | idle => trivial
    | notifying => trivial
    | writing i buf =>
      rw [hphase] at this
      obtain ⟨s, hs, hb, rfl⟩ := this
      obtain ⟨s', hs', hb', hbuf⟩ := howns hs rfl
      exact ⟨s', hs', hb'.trans hb, hbuf⟩
    | published i buf =>
      rw [hphase] at this
      obtain ⟨s, hs, hb, rfl⟩ := this
      obtain ⟨s', hs', hb', hbuf⟩ := howns hs rfl
      exact ⟨s', hs', hb'.trans hb, hbuf⟩
  · obtain ⟨s, hs, -, hb', -⟩ := hm.get_inv hs'
    rw [hb'] at hb
    exact ⟨hbusy i s hs hb, (h.busy i s hs hb).2⟩
  · obtain ⟨s, hs, -, hb', hd'⟩ := hm.get_inv hs'
    rw [hb']
    exact hd' hd

/-- A read changes nothing that the producers see. -/
theorem Inv.setIntermediate {r : ℕ} (h : c.Inv r) (p : ℕ) :
    Inv { c with rb := { c.rb with intermediateReaderPos := p } } r :=
  h.reader (.refl h) (h.layout.setIntermediate p) rfl le_rfl fun i s hs hb => (h.busy i s hs hb).1

theorem Inv.setEventfd {r : ℕ} (h : c.Inv r) (fd : ℕ) : Inv { c with eventfd := fd } r :=
  ⟨h.layout, h.tail_le, h.owns, h.unique, h.busy, h.discarded⟩

/-- The reader releases samples that are not busy. -/
theorem Inv.release {r r' : ℕ} (h : c.Inv r) (hr : r ≤ r') (hlen : r' ≤ c.slots.length)
    (hbusy : ∀ (i : ℕ) (s : Slot), c.slots[i]? = some s → s.busy = true → r' ≤ i) :
    Inv { c with rb := { c.rb with readerPos := mpscFormat.pos c.slots r' } } r' :=
  h.reader (.refl h) (h.layout.release hr hlen) rfl hr hbusy

theorem inv_init {order : ℕ} (data : ℕ → Byte) (areas : ℕ → ℕ) (horder : 3 ≤ order) :
    (init order data areas).Inv 0 where
  layout := ⟨horder, rfl, rfl, Nat.zero_le _, Nat.two_pow_pos 64,
    ⟨nofun, le_rfl, Nat.zero_le _, nofun⟩⟩
  tail_le _ := le_rfl
  owns _ := trivial
  unique := nofun
  busy := nofun
  discarded := nofun

end Channel

end Ddprof
