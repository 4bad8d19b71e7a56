import Ddprof.RingBuffer.Perf
import Ddprof.Lib.Run

/-!
The worker loop without reordering (`worker_process_ring_buffers`), on a perf ring buffer that
is mapped twice in a row.

A pass reads all that is available as one buffer and goes through its records. The space of a
record is released as soon as it has been processed, and the size of the record, which leads to
the next one, is read from its header after that. In between, the writer may have written over
the header.

The accesses to the data and to `reader_pos` are logged, with positions that only grow in place
of addresses.
-/

namespace Ddprof

open Circular (Byte)
open RingBuffer (Layout)

inductive Access
  -- `n` bytes are loaded from a position on.
  | load (pos n : ℕ)
  -- A store to `reader_pos` releases the bytes between two positions.
  | release (pos pos' : ℕ)
  deriving DecidableEq, Repr

/-- A byte is loaded after a store that releases it; the last access comes first. -/
def ReadsReleased : List Access → Prop
  | [] => False
  | .load pos n :: earlier =>
    (∃ p a b, pos ≤ p ∧ p < pos + n ∧ .release a b ∈ earlier ∧ a ≤ p ∧ p < b) ∨
      ReadsReleased earlier
  | .release _ _ :: earlier => ReadsReleased earlier

inductive PassPhase
  -- Between two passes.
  | idle
  -- At the condition of the loop.
  | loop (buffer : Buffer)
  -- In `ddprof_worker_process_event`.
  | process (buffer : Buffer)
  -- At `reader.advance(hdr->size)`.
  | advance (buffer : Buffer)
  -- At `buffer = remaining(buffer, hdr->size)`.
  | remaining (buffer : Buffer)
  -- An event could not be processed, and the worker gives up.
  | failed
  deriving DecidableEq, Repr

structure PerfPass where
  rb : RingBuffer
  phase : PassPhase := .idle
  accesses : List Access := []

inductive PassLabel
  -- The kernel adds a record.
  | kernelWrite (record : List Byte)
  -- The writer stores a byte at a position that is free.
  | overwrite (pos : ℕ) (b : Byte)
  -- The construction of the reader, and `read_all_available`.
  | begin
  -- `ddprof_worker_process_event` loads a byte of the record.
  | load (i : ℕ)
  -- `ddprof_worker_process_event` returns.
  | processed (ok : Bool)
  -- The next statement of the loop.
  | work
  deriving DecidableEq, Repr

namespace PerfPass

/-- `hdr->size`, at a position. -/
def hdrSize (s : PerfPass) (pos : ℕ) : ℕ := s.rb.recordSize (pos &&& s.rb.mask)

/-- The offset of the size in the header. -/
def loadSize (pos : ℕ) : Access := .load (pos + 6) 2

/-- A store to `reader_pos`. -/
def release (s : PerfPass) (newPos : ℕ) : PerfPass :=
  { s with
    rb := { s.rb with readerPos := newPos }
    accesses := .release s.rb.readerPos newPos :: s.accesses }

/-- The destructor of the reader. -/
def endPass (s : PerfPass) : PerfPass :=
  if s.rb.readerPos < s.rb.intermediateReaderPos then s.release s.rb.intermediateReaderPos else s

def kernelWrite (s : PerfPass) (record : List Byte) : Option PerfPass :=
  if ValidRecord record ∧ s.rb.writerPos + record.length ≤ s.rb.readerPos + s.rb.mask ∧
      s.rb.writerPos + record.length < 2 ^ 64 then
    some { s with rb := s.rb.kernelWrite record }
  else none

def overwrite (s : PerfPass) (pos : ℕ) (b : Byte) : Option PerfPass :=
  if s.rb.writerPos ≤ pos ∧ pos < s.rb.readerPos + s.rb.dataSize then
    some { s with rb := { s.rb with
      data := Function.update s.rb.data (pos % s.rb.dataSize) b } }
  else none

/-- `read_all_available` where the data is mapped twice. -/
def begin (s : PerfPass) : Option PerfPass :=
  match s.phase with
  | .idle =>
    let currentTail := s.rb.intermediateReaderPos
    some { s with
      rb := { s.rb with intermediateReaderPos := s.rb.writerPos }
      phase := .loop ⟨currentTail, u64 (s.rb.writerPos + 2 ^ 64 - currentTail)⟩ }
  | _ => none

def load (s : PerfPass) (i : ℕ) : Option PerfPass :=
  match s.phase with
  | .process buffer =>
    if i < s.hdrSize buffer.data then
      some { s with accesses := .load (buffer.data + i) 1 :: s.accesses }
    else none
  | _ => none

def processed (s : PerfPass) (ok : Bool) : Option PerfPass :=
  match s.phase with
  | .process buffer =>
    if ok then some { s with phase := .advance buffer }
    else some { s.endPass with phase := .failed }
  | _ => none

def work (s : PerfPass) : Option PerfPass :=
  match s.phase with
  | .loop buffer =>
    if buffer.size = 0 then some { s.endPass with phase := .idle }
    else some { s with phase := .process buffer }
  | .advance buffer =>
    let n := alignUp (s.hdrSize buffer.data) ringBufferAlignment
    some { ({ s with accesses := loadSize buffer.data :: s.accesses } : PerfPass).release
        (u64 (s.rb.readerPos + n)) with phase := .remaining buffer }
  | .remaining buffer =>
    let offset := min (s.hdrSize buffer.data) buffer.size
    some { s with
      accesses := loadSize buffer.data :: s.accesses
      phase := .loop ⟨buffer.data + offset, buffer.size - offset⟩ }
  | _ => none

def step (s : PerfPass) : PassLabel → Option PerfPass
  | .kernelWrite record => s.kernelWrite record
  | .overwrite pos b => s.overwrite pos b
  | .begin => s.begin
  | .load i => s.load i
  | .processed ok => s.processed ok
  | .work => s.work

end PerfPass

/-! ### Loads and releases -/

variable {accesses : List Access}

theorem readsReleased_cons (h : ReadsReleased accesses) (a : Access) :
    ReadsReleased (a :: accesses) := by
  cases a with
  | load pos n => exact .inr h
  | release pos pos' => exact h

theorem readsReleased_append (h : ReadsReleased accesses)
    (new : List Access) : ReadsReleased (new ++ accesses) := by
  induction new with
  | nil => exact h
  | cons a rest ih => exact readsReleased_cons ih a

/-- Nothing is read late as long as nothing has been released. -/
theorem not_readsReleased (h : ∀ a b, .release a b ∉ accesses) :
    ¬ ReadsReleased accesses := by
  induction accesses with
  | nil => exact id
  | cons x rest ih =>
    have hrest : ∀ a b, .release a b ∉ rest := fun a b hmem => h a b (List.mem_cons_of_mem x hmem)
    cases x with
    | load pos n =>
      rintro (⟨p, a, b, -, -, hmem, -⟩ | hlate)
      · exact hrest a b hmem
      · exact ih hrest hlate
    | release pos pos' => exact absurd List.mem_cons_self (h pos pos')

namespace PerfPass

variable {s s' : PerfPass}

theorem accesses_endPass (s : PerfPass) : ∃ new, s.endPass.accesses = new ++ s.accesses := by
  unfold endPass
  split_ifs
  · exact ⟨[_], rfl⟩
  · exact ⟨[], rfl⟩

variable {label : PassLabel}

theorem accesses_step (h : s.step label = some s') :
    ∃ new, s'.accesses = new ++ s.accesses := by
  cases label with
  | kernelWrite record =>
    simp only [step, kernelWrite, Option.ite_none_right_eq_some, Option.some.injEq] at h
    obtain ⟨-, rfl⟩ := h
    exact ⟨[], rfl⟩
  | overwrite pos b =>
    simp only [step, overwrite, Option.ite_none_right_eq_some, Option.some.injEq] at h
    obtain ⟨-, rfl⟩ := h
    exact ⟨[], rfl⟩
  | begin =>
    simp only [step, begin] at h
    split at h
    · cases h
      exact ⟨[], rfl⟩
    · cases h
  | load i =>
    simp only [step, load] at h
    split at h
    · simp only [Option.ite_none_right_eq_some, Option.some.injEq] at h
      obtain ⟨-, rfl⟩ := h
      exact ⟨[_], rfl⟩
    · cases h
  | processed ok =>
    simp only [step, processed] at h
    split at h
    · split_ifs at h
      · cases h
        exact ⟨[], rfl⟩
      · cases h
        exact s.accesses_endPass
    · cases h
  | work =>
    simp only [step, work] at h
    split at h
    · split_ifs at h
      · cases h
        exact s.accesses_endPass
      · cases h
        exact ⟨[], rfl⟩
    · cases h
      exact ⟨[_, _], rfl⟩
    · cases h
      exact ⟨[_], rfl⟩
    · cases h

/-! ### Before the first record has been released -/

/-- The buffer starts at the first record that has not been released. -/
def AtRecord (s : PerfPass) (buffer : Buffer) : Prop :=
  buffer.data = s.rb.readerPos ∧ buffer.data < s.rb.writerPos

/-- The phases of a worker that has not processed a record. -/
def Untouched (s : PerfPass) : Prop :=
  match s.phase with
  | .idle => s.rb.intermediateReaderPos = s.rb.readerPos
  | .loop buffer => buffer.data = s.rb.readerPos ∧ buffer.data + buffer.size ≤ s.rb.writerPos ∧
      s.rb.intermediateReaderPos = buffer.data + buffer.size
  | .process buffer => s.AtRecord buffer
  | _ => False

structure Fresh (s : PerfPass) : Prop where
  layout : ∃ records r, Layout recordFormat s.rb records r
  unreleased : ∀ a b, .release a b ∉ s.accesses

structure Clean (s : PerfPass) : Prop where
  not_late : ¬ ReadsReleased s.accesses
  untouched : s.phase = .failed ∨ s.Fresh ∧ s.Untouched

/-- The header of a record that has been processed is about to be read once more. -/
def Pending (s : PerfPass) : Prop :=
  match s.phase with
  | .advance buffer => s.Fresh ∧ s.AtRecord buffer
  | .remaining buffer =>
    ∃ a b, .release a b ∈ s.accesses ∧ a ≤ buffer.data + 6 ∧ buffer.data + 6 < b
  | _ => False

/-- Something has been read late, or is about to be. -/
def Doomed (s : PerfPass) : Prop := ReadsReleased s.accesses ∨ s.Pending

theorem Fresh.kernelWrite (h : s.Fresh) {record : List Byte} (hvalid : ValidRecord record)
    (hspace : s.rb.writerPos + record.length ≤ s.rb.readerPos + s.rb.mask)
    (hbound : s.rb.writerPos + record.length < 2 ^ 64) :
    Fresh { s with rb := s.rb.kernelWrite record } := by
  obtain ⟨⟨records, r, hlayout⟩, hunreleased⟩ := h
  exact ⟨⟨_, r, hlayout.kernelWrite hvalid hspace hbound⟩, hunreleased⟩

theorem Fresh.overwrite (h : s.Fresh) {pos : ℕ} (hpos : s.rb.writerPos ≤ pos)
    (hpos' : pos < s.rb.readerPos + s.rb.dataSize) (b : Byte) :
    Fresh { s with rb := { s.rb with
      data := Function.update s.rb.data (pos % s.rb.dataSize) b } } := by
  obtain ⟨⟨records, r, hlayout⟩, hunreleased⟩ := h
  refine ⟨⟨records, r, hlayout.order, hlayout.writerPos, hlayout.readerPos, hlayout.space,
    hlayout.bound, ?_⟩, hunreleased⟩
  refine hlayout.tiled.overwrite b ?_ ?_
  · rw [← hlayout.writerPos]
    exact hpos
  · rw [← hlayout.readerPos]
    exact hpos'

/-- The store that releases the record at the start of the buffer covers its header. -/
theorem Fresh.release_covers (h : s.Fresh) {buffer : Buffer} (hat : s.AtRecord buffer) :
    buffer.data + 6 <
      u64 (s.rb.readerPos + alignUp (s.hdrSize buffer.data) ringBufferAlignment) := by
  obtain ⟨⟨records, r, hlayout⟩, -⟩ := h
  obtain ⟨hdata, hlt⟩ := hat
  rw [hdata] at hlt ⊢
  rw [hlayout.readerPos, hlayout.writerPos] at hlt
  have hr : r < records.length := by
    by_contra hge
    have hle : recordFormat.pos records records.length ≤ recordFormat.pos records r :=
      Circular.offset_mono (not_lt.mp hge)
    exact absurd hle (not_le.mpr hlt)
  have hget : records[r]? = some records[r] := List.getElem?_eq_getElem hr
  generalize records[r] = record at hget
  have hvalid : ValidRecord record := hlayout.tiled.valid_of_getElem? hget
  have height := hvalid.eight_le
  have hend : recordFormat.pos records (r + 1) = recordFormat.pos records r + record.length :=
    Circular.offset_succ hget
  have hbound := hlayout.pos_lt_bound (i := r + 1) hr
  rw [hdrSize, hlayout.readerPos, hlayout.recordSize_eq le_rfl hget, hvalid.alignUp_length,
    ← hend, u64_of_lt hbound, hend]
  omega

theorem Untouched.mono (h : s.Untouched) {rb : RingBuffer}
    (hreader : rb.readerPos = s.rb.readerPos) (hwriter : s.rb.writerPos ≤ rb.writerPos)
    (hinter : rb.intermediateReaderPos = s.rb.intermediateReaderPos) :
    Untouched { s with rb := rb } := by
  unfold Untouched at h ⊢
  split at h
  · rename_i hphase
    simp only [hphase, hinter, hreader, h]
  · rename_i buffer hphase
    simp only [hphase, hinter, hreader]
    exact ⟨h.1, h.2.1.trans hwriter, h.2.2⟩
  · rename_i buffer hphase
    simp only [hphase, AtRecord, hreader]
    exact ⟨h.1, h.2.trans_le hwriter⟩
  · exact h.elim

/-- What the writer does: it adds a record or stores a byte, and keeps the records. -/
theorem writer_step (h : s.step label = some s')
    (hlabel : (∃ record, label = .kernelWrite record) ∨ ∃ pos b, label = .overwrite pos b) :
    ∃ rb, s' = { s with rb := rb } ∧ rb.readerPos = s.rb.readerPos ∧
      s.rb.writerPos ≤ rb.writerPos ∧
      rb.intermediateReaderPos = s.rb.intermediateReaderPos ∧
      (s.Fresh → Fresh { s with rb := rb }) := by
  rcases hlabel with ⟨record, rfl⟩ | ⟨pos, b, rfl⟩
  · simp only [step, kernelWrite, Option.ite_none_right_eq_some, Option.some.injEq] at h
    obtain ⟨⟨hvalid, hspace, hbound⟩, rfl⟩ := h
    refine ⟨_, rfl, rfl, ?_, rfl, fun hfresh => hfresh.kernelWrite hvalid hspace hbound⟩
    rw [RingBuffer.kernelWrite, u64_of_lt hbound]
    exact Nat.le_add_right _ _
  · simp only [step, overwrite, Option.ite_none_right_eq_some, Option.some.injEq] at h
    obtain ⟨⟨hpos, hpos'⟩, rfl⟩ := h
    exact ⟨_, rfl, rfl, le_rfl, rfl, fun hfresh => hfresh.overwrite hpos hpos' b⟩

theorem Clean.writer (hc : s.Clean) (h : s.step label = some s')
    (hlabel : (∃ record, label = .kernelWrite record) ∨ ∃ pos b, label = .overwrite pos b) :
    s'.Clean := by
  obtain ⟨rb, rfl, hreader, hwriter, hinter, hfresh⟩ := writer_step h hlabel
  refine ⟨hc.not_late, hc.untouched.imp id fun ⟨hf, hu⟩ => ?_⟩
  exact ⟨hfresh hf, hu.mono hreader hwriter hinter⟩

theorem Clean.step (hc : s.Clean) (h : s.step label = some s')
    (hlabel : label ≠ .processed true) : s'.Clean := by
  cases label with
  | kernelWrite record => exact hc.writer h (.inl ⟨record, rfl⟩)
  | overwrite pos b => exact hc.writer h (.inr ⟨pos, b, rfl⟩)
  | begin =>
    simp only [PerfPass.step, begin] at h
    split at h
    · rename_i hphase
      cases h
      obtain ⟨hf, hu⟩ := hc.untouched.resolve_left (by rw [hphase]; rintro ⟨⟩)
      refine ⟨hc.not_late, .inr ⟨⟨?_, hf.unreleased⟩, ?_⟩⟩
      · obtain ⟨records, r, hlayout⟩ := hf.layout
        exact ⟨records, r, hlayout.setIntermediate _⟩
      · obtain ⟨records, r, hlayout⟩ := hf.layout
        have hle := hlayout.readerPos_le
        have hlt : s.rb.writerPos < 2 ^ 64 := hlayout.writerPos ▸ hlayout.bound
        simp only [Untouched, hphase] at hu ⊢
        have hsize : u64 (s.rb.writerPos + 2 ^ 64 - s.rb.intermediateReaderPos) =
            s.rb.writerPos - s.rb.readerPos := by
          rw [hu, u64]
          omega
        rw [hsize, hu]
        omega
    · cases h
  | load i =>
    simp only [PerfPass.step, load] at h
    split at h
    · rename_i buffer hphase
      simp only [Option.ite_none_right_eq_some, Option.some.injEq] at h
      obtain ⟨-, rfl⟩ := h
      obtain ⟨hf, hu⟩ := hc.untouched.resolve_left (by rw [hphase]; rintro ⟨⟩)
      have hunreleased : ∀ a b, .release a b ∉ Access.load (buffer.data + i) 1 :: s.accesses := by
        intro a b hmem
        rcases List.mem_cons.mp hmem with heq | hmem
        · cases heq
        · exact hf.unreleased a b hmem
      exact ⟨not_readsReleased hunreleased, .inr ⟨⟨hf.layout, hunreleased⟩, hu⟩⟩
    · cases h
  | processed ok =>
    cases ok with
    | true => exact absurd rfl hlabel
    | false =>
      simp only [PerfPass.step, processed] at h
      split at h
      · simp only [Bool.false_eq_true, if_false] at h
        cases h
        refine ⟨?_, .inl rfl⟩
        unfold endPass
        split_ifs
        · exact hc.not_late
        · exact hc.not_late
      · cases h
  | work =>
    simp only [PerfPass.step, work] at h
    split at h
    · rename_i buffer hphase
      obtain ⟨hf, hu⟩ := hc.untouched.resolve_left (by rw [hphase]; rintro ⟨⟩)
      simp only [Untouched, hphase] at hu
      split_ifs at h with hzero
      · have hend : s.endPass = s := by
          unfold endPass
          exact if_neg (by omega)
        cases h
        rw [hend]
        refine ⟨hc.not_late, .inr ⟨⟨hf.layout, hf.unreleased⟩, ?_⟩⟩
        simp only [Untouched]
        omega
      · cases h
        refine ⟨hc.not_late, .inr ⟨⟨hf.layout, hf.unreleased⟩, ?_⟩⟩
        simp only [Untouched, AtRecord]
        omega
    · rename_i buffer hphase
      rcases hc.untouched with hfailed | ⟨-, hu⟩
      · rw [hphase] at hfailed
        cases hfailed
      · simp only [Untouched, hphase] at hu
    · rename_i buffer hphase
      rcases hc.untouched with hfailed | ⟨-, hu⟩
      · rw [hphase] at hfailed
        cases hfailed
      · simp only [Untouched, hphase] at hu
    · cases h

theorem Clean.processed (hc : s.Clean) (h : s.step (.processed true) = some s') : s'.Doomed := by
  simp only [PerfPass.step, PerfPass.processed] at h
  split at h
  · rename_i buffer hphase
    simp only [if_true] at h
    cases h
    obtain ⟨hf, hu⟩ := hc.untouched.resolve_left (by rw [hphase]; exact fun h => nomatch h)
    simp only [Untouched, hphase] at hu
    exact .inr ⟨⟨hf.layout, hf.unreleased⟩, hu⟩
  · cases h

theorem Pending.writer (hp : s.Pending) (h : s.step label = some s')
    (hlabel : (∃ record, label = .kernelWrite record) ∨ ∃ pos b, label = .overwrite pos b) :
    s'.Pending := by
  obtain ⟨rb, rfl, hreader, hwriter, -, hfresh⟩ := writer_step h hlabel
  unfold Pending at hp ⊢
  split at hp
  · rename_i buffer hphase
    have hf := hfresh hp.1
    rw [hphase]
    exact ⟨⟨hf.layout, hf.unreleased⟩, hp.2.1.trans hreader.symm, hp.2.2.trans_le hwriter⟩
  · rename_i buffer hphase
    simp only [hphase]
    exact hp
  · exact hp.elim

/-- `advance` releases the header, and `remaining` reads it. -/
theorem Pending.work (hp : s.Pending) (h : s.work = some s') : s'.Doomed := by
  unfold Pending at hp
  split at hp
  · rename_i buffer hphase
    simp only [PerfPass.work, hphase, Option.some.injEq] at h
    subst h
    have hle : s.rb.readerPos ≤ buffer.data + 6 := hp.2.1 ▸ Nat.le_add_right _ _
    exact .inr ⟨_, _, List.mem_cons_self, hle, hp.1.release_covers hp.2⟩
  · rename_i buffer hphase
    obtain ⟨a, b, hmem, hle, hlt⟩ := hp
    simp only [PerfPass.work, hphase, Option.some.injEq] at h
    subst h
    exact .inl (.inl ⟨buffer.data + 6, a, b, le_rfl, by omega, hmem, hle, hlt⟩)
  · exact hp.elim

theorem Doomed.step (hd : s.Doomed) (h : s.step label = some s') :
    s'.Doomed := by
  rcases hd with hlate | hp
  · obtain ⟨new, hnew⟩ := accesses_step h
    exact .inl (hnew ▸ readsReleased_append hlate new)
  · have hphase : (∃ buffer, s.phase = .advance buffer) ∨
        ∃ buffer, s.phase = .remaining buffer := by
      unfold Pending at hp
      split at hp
      · rename_i buffer hphase
        exact .inl ⟨buffer, hphase⟩
      · rename_i buffer hphase
        exact .inr ⟨buffer, hphase⟩
      · exact hp.elim
    cases label with
    | kernelWrite record => exact .inr (hp.writer h (.inl ⟨record, rfl⟩))
    | overwrite pos b => exact .inr (hp.writer h (.inr ⟨pos, b, rfl⟩))
    | begin => rcases hphase with ⟨buffer, hphase⟩ | ⟨buffer, hphase⟩ <;>
        simp [PerfPass.step, begin, hphase] at h
    | load i => rcases hphase with ⟨buffer, hphase⟩ | ⟨buffer, hphase⟩ <;>
        simp [PerfPass.step, load, hphase] at h
    | processed ok => rcases hphase with ⟨buffer, hphase⟩ | ⟨buffer, hphase⟩ <;>
        simp [PerfPass.step, PerfPass.processed, hphase] at h
    | work => exact hp.work h

/-! ### Whole runs -/

theorem Doomed.run {labels : List PassLabel} (hd : s.Doomed)
    (hrun : Run.steps PerfPass.step s labels = some s') : s'.Doomed :=
  Run.steps_keep (fun _ _ _ hd h => Doomed.step hd h) hd hrun

theorem Clean.run {labels : List PassLabel} (hc : s.Clean)
    (hrun : Run.steps PerfPass.step s labels = some s') :
    .processed true ∉ labels ∧ s'.Clean ∨ .processed true ∈ labels ∧ s'.Doomed := by
  induction labels generalizing s with
  | nil =>
    cases hrun
    exact .inl ⟨List.not_mem_nil, hc⟩
  | cons label rest ih =>
    obtain ⟨t, ht, hrest⟩ := Run.steps_cons.mp hrun
    by_cases hlabel : label = .processed true
    · subst hlabel
      exact .inr ⟨List.mem_cons_self, (hc.processed ht).run hrest⟩
    · rcases ih (hc.step ht hlabel) hrest with ⟨hnot, hc'⟩ | ⟨hmem, hd⟩
      · exact .inl ⟨List.not_mem_cons_of_ne_of_not_mem (Ne.symm hlabel) hnot, hc'⟩
      · exact .inr ⟨List.mem_cons_of_mem label hmem, hd⟩

structure Attached (s : PerfPass) : Prop where
  layout : ∃ records r, Layout recordFormat s.rb records r
  intermediate : s.rb.intermediateReaderPos = s.rb.readerPos
  idle : s.phase = .idle
  accesses : s.accesses = []

theorem Attached.clean (h : s.Attached) : s.Clean := by
  have hunreleased : ∀ a b, .release a b ∉ s.accesses := by
    intro a b
    rw [h.accesses]
    exact List.not_mem_nil
  refine ⟨not_readsReleased hunreleased, .inr ⟨⟨h.layout, hunreleased⟩, ?_⟩⟩
  simp only [Untouched, h.idle]
  exact h.intermediate

/-- The phases in which the header of a processed record is not being read. -/
def BetweenRecords (s : PerfPass) : Prop :=
  match s.phase with
  | .advance _ | .remaining _ => False
  | _ => True

theorem Doomed.readsReleased (hd : s.Doomed) (hb : s.BetweenRecords) :
    ReadsReleased s.accesses := by
  refine hd.resolve_right fun hp => ?_
  unfold Pending at hp
  unfold BetweenRecords at hb
  split at hp
  · rename_i buffer hphase
    simp only [hphase] at hb
  · rename_i buffer hphase
    simp only [hphase] at hb
  · exact hp

/-- No byte is read after the store that releases it exactly when no record is processed
with success: the size of each record that is comes out of its header once more, after its
space has been released. -/
theorem not_readsReleased_iff {labels : List PassLabel} (h : s.Attached)
    (hrun : Run.steps step s labels = some s') (hb : s'.BetweenRecords) :
    ¬ ReadsReleased s'.accesses ↔ .processed true ∉ labels := by
  rcases h.clean.run hrun with ⟨hnot, hc⟩ | ⟨hmem, hd⟩
  · exact iff_of_true hc.not_late hnot
  · exact iff_of_false (not_not_intro (hd.readsReleased hb)) (not_not_intro hmem)

def attach (order : ℕ) : PerfPass := { rb := { order := order, data := fun _ => 0 } }

theorem attached_attach {order : ℕ} (horder : 3 ≤ order) : (attach order).Attached where
  layout := ⟨[], 0, horder, rfl, rfl, Nat.zero_le _, Nat.two_pow_pos 64,
    ⟨nofun, le_rfl, Nat.zero_le _, nofun⟩⟩
  intermediate := rfl
  idle := rfl
  accesses := rfl

def shortRecord : List Byte := [0, 0, 0, 0, 0, 0, 16, 0, 0, 0, 0, 0, 0, 0, 0, 0]

/-- A record that cannot be processed: the destructor of the reader releases it, and nothing
is read after that. -/
theorem not_readsReleased_iff_failed : ∃ s', Run.steps step (attach 6)
      [.kernelWrite shortRecord, .begin, .work, .load 3, .processed false] = some s' ∧
    ¬ ReadsReleased s'.accesses := by
  have hend : (Run.steps step (attach 6) [.kernelWrite shortRecord, .begin, .work, .load 3,
      .processed false]).any (fun s' => s'.phase == .failed) = true := by
    decide +kernel
  obtain ⟨s', hrun, hphase⟩ := (Option.any_eq_true _ _).mp hend
  have hb : s'.BetweenRecords := by
    simp only [BetweenRecords, eq_of_beq hphase]
  refine ⟨s', hrun, ?_⟩
  exact (not_readsReleased_iff (attached_attach (by decide)) hrun hb).mpr (by decide)

/-- Two records of 16 bytes. Between the store that releases the first one and the second read
of its size the writer puts a size of 32 there, and the worker takes the pass to be over: it
never looks at the second record. -/
theorem readsReleased_second_size : ∃ s', Run.steps step (attach 6)
      [.kernelWrite shortRecord, .kernelWrite shortRecord, .begin, .work,
        .processed true, .work, .overwrite 70 32, .work] = some s' ∧
    s'.phase = .loop ⟨32, 0⟩ ∧ s'.rb.readerPos = 16 ∧ s'.rb.writerPos = 32 ∧
    ReadsReleased s'.accesses := by
  have hend : (Run.steps step (attach 6) [.kernelWrite shortRecord,
      .kernelWrite shortRecord, .begin, .work, .processed true, .work, .overwrite 70 32,
      .work]).any (fun s' => decide (s'.phase = .loop ⟨32, 0⟩ ∧ s'.rb.readerPos = 16 ∧
        s'.rb.writerPos = 32 ∧ s'.accesses = [.load 6 2, .release 0 16, .load 6 2])) = true := by
    decide +kernel
  obtain ⟨s', hrun, hstate⟩ := (Option.any_eq_true _ _).mp hend
  obtain ⟨hphase, hreader, hwriter, haccesses⟩ := of_decide_eq_true hstate
  refine ⟨s', hrun, hphase, hreader, hwriter, ?_⟩
  rw [haccesses]
  exact .inl ⟨6, 0, 16, by decide, by decide, List.mem_cons_self, by decide, by decide⟩

end PerfPass

end Ddprof
