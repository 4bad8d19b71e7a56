import Ddprof.RingBuffer.Perf
import Ddprof.Lib.Memory

/-!
Reading perf ring buffers whose data is mapped only once.

Where the data is mapped twice in a row, a record that runs over the end of the data is read in
place. Where it is mapped once, what stands in memory behind the data is something else, and the
reader puts the record together in a buffer of its own, from two pieces. The two mappings are shown
to give the same bytes.
-/

namespace Ddprof

open Circular (Byte)
open Memory (load mirror)

/-- A perf ring buffer as it is mapped. The data of `rb` is the memory from `rb.data` on. -/
structure MappedRing where
  rb : RingBuffer
  mirroredMapping : Bool
  /-- `wrap_copy_capacity`, if there is a buffer. -/
  wrapCopy : Option ℕ := none

/-- `ensure_wrap_copy_buffer`: the buffer after the call, and whether a pointer is returned.
`memalignOk` says whether memory can be had. -/
def ensureWrapCopyBuffer (wrapCopy : Option ℕ) (requiredSize : ℕ) (memalignOk : Bool) :
    Option ℕ × Bool :=
  if requiredSize = 0 then (wrapCopy, wrapCopy.isSome)
  else
    let alignedSize := alignUp requiredSize ringBufferAlignment
    match wrapCopy with
    | some capacity =>
      if capacity < alignedSize then
        if memalignOk then (some alignedSize, true) else (none, false)
      else (some capacity, true)
    | none => if memalignOk then (some alignedSize, true) else (none, false)

namespace MappedRing

def memory (m : MappedRing) : ℕ → Byte :=
  if m.mirroredMapping then mirror m.rb.dataSize m.rb.data else m.rb.data

/-- What the two calls of `memcpy` put together. -/
def wrapped (m : MappedRing) (tailLinear n : ℕ) : List Byte :=
  let firstChunk := m.rb.dataSize - tailLinear
  load m.memory tailLinear firstChunk ++ load m.memory 0 (n - firstChunk)

/-- `perf_rb_read_event`, with the bytes that the returned pointer leads to. -/
def perfRbReadEvent (m : MappedRing) (memalignOk : Bool) : MappedRing × Option (List Byte) :=
  let head := m.rb.writerPos
  let tail := m.rb.intermediateReaderPos
  if tail = head then (m, none)
  else
    let tailLinear := tail &&& m.rb.mask
    let copiesHdr := !m.mirroredMapping && m.rb.dataSize < tailLinear + perfHeaderSize
    let hdr := if copiesHdr then m.wrapped tailLinear perfHeaderSize
      else load m.memory tailLinear perfHeaderSize
    let szSample := headerSize hdr
    let bytesToCopy := max szSample perfHeaderSize
    let needsCopy :=
      copiesHdr || (!m.mirroredMapping && m.rb.dataSize < tailLinear + bytesToCopy)
    let rb := { m.rb with
      intermediateReaderPos := u64 (tail + alignUp szSample ringBufferAlignment) }
    if !needsCopy then ({ m with rb := rb }, some (load m.memory tailLinear bytesToCopy))
    else
      match ensureWrapCopyBuffer m.wrapCopy bytesToCopy memalignOk with
      | (wrapCopy, false) => ({ m with wrapCopy := wrapCopy }, none)
      | (wrapCopy, true) =>
        ({ m with rb := rb, wrapCopy := wrapCopy }, some (m.wrapped tailLinear bytesToCopy))

/-- `PerfRingBufferReader::available_size`, with `_head` up to date. -/
def available (m : MappedRing) : ℕ := u64 (m.rb.writerPos + 2 ^ 64 - m.rb.intermediateReaderPos)

/-- `PerfRingBufferReader::read_all_available`, with `_head` up to date. -/
def readAllAvailable (m : MappedRing) (memalignOk : Bool) : MappedRing × Option (List Byte) :=
  let currentTail := m.rb.intermediateReaderPos
  let tailLinear := currentTail &&& m.rb.mask
  let n := m.available
  let rb := { m.rb with intermediateReaderPos := m.rb.writerPos }
  if m.mirroredMapping || tailLinear + n ≤ m.rb.dataSize then
    ({ m with rb := rb }, some (load m.memory tailLinear n))
  else
    match ensureWrapCopyBuffer m.wrapCopy n memalignOk with
    | (wrapCopy, false) => ({ m with wrapCopy := wrapCopy }, none)
    | (wrapCopy, true) => ({ m with rb := rb, wrapCopy := wrapCopy }, some (m.wrapped tailLinear n))

/-- The results of a number of reads, with memory to be had. -/
def readEvents : ℕ → MappedRing → List (Option (List Byte))
  | 0, _ => []
  | n + 1, m => (m.perfRbReadEvent true).2 :: readEvents n (m.perfRbReadEvent true).1

end MappedRing

theorem ensureWrapCopyBuffer_of_pos (wrapCopy : Option ℕ) {requiredSize : ℕ}
    (hpos : 0 < requiredSize) :
    ∃ wrapCopy', ensureWrapCopyBuffer wrapCopy requiredSize true = (wrapCopy', true) := by
  rw [ensureWrapCopyBuffer, if_neg (by omega)]
  cases wrapCopy with
  | none => exact ⟨_, rfl⟩
  | some capacity =>
    simp only [if_true]
    split <;> exact ⟨_, rfl⟩

namespace MappedRing

/-! ### One read -/

/-- The positions are words, aligned, and not further apart than the data is long. -/
structure Aligned (m : MappedRing) : Prop where
  order_le : m.rb.order ≤ 63
  tail_lt : m.rb.intermediateReaderPos < 2 ^ 64
  head_lt : m.rb.writerPos < 2 ^ 64
  tail_dvd : 8 ∣ m.rb.intermediateReaderPos
  head_dvd : 8 ∣ m.rb.writerPos
  available_le : m.available ≤ m.rb.dataSize

variable {m : MappedRing} {n : ℕ}

theorem and_mask_lt (m : MappedRing) (pos : ℕ) : pos &&& m.rb.mask < m.rb.dataSize := by
  rw [m.rb.and_mask]
  exact Nat.mod_lt _ m.rb.dataSize_pos

/-- In place or put together, the bytes are those of the circular memory. -/
theorem bytes_eq_read (m : MappedRing) (pos : ℕ) (hn : n ≤ m.rb.dataSize) :
    (if !m.mirroredMapping && m.rb.dataSize < (pos &&& m.rb.mask) + n
      then m.wrapped (pos &&& m.rb.mask) n else load m.memory (pos &&& m.rb.mask) n) =
      m.rb.bytesAt pos n := by
  have hlt := m.and_mask_lt pos
  rw [RingBuffer.bytesAt, ← Circular.read_mod, ← m.rb.and_mask, Memory.read_eq_load]
  cases hmirrored : m.mirroredMapping with
  | true =>
    rw [memory, hmirrored]
    rfl
  | false =>
    simp only [Bool.not_false, Bool.true_and, decide_eq_true_eq, wrapped, memory, hmirrored,
      Bool.false_eq_true, if_false]
    split
    · exact (Memory.load_mirror_of_lt (by omega) (by omega) (by omega)).symm
    · exact (Memory.load_mirror_of_le (by omega)).symm

theorem headerSize_bytesAt (rb : RingBuffer) (pos : ℕ) (hn : 8 ≤ n) :
    headerSize (rb.bytesAt pos n) = rb.recordSize (pos &&& rb.mask) := by
  rw [headerSize, RingBuffer.bytesAt, Circular.take_drop_read (by omega), RingBuffer.recordSize,
    rb.and_mask, ← Circular.read_mod (p := pos % rb.dataSize + 6), Nat.mod_add_mod,
    Circular.read_mod]

theorem recordSize_lt (rb : RingBuffer) (offset : ℕ) : rb.recordSize offset < 2 ^ 16 := by
  have hlt := Circular.leWord_lt (Circular.read rb.dataSize rb.data (offset + 6) 2)
  rwa [Circular.length_read] at hlt

theorem perfRbReadEvent_eq (m : MappedRing) (hne : m.rb.intermediateReaderPos ≠ m.rb.writerPos)
    (hsize : m.rb.recordSize (m.rb.intermediateReaderPos &&& m.rb.mask) = n) (hpos : 0 < n)
    (hdvd : 8 ∣ n) (hle : n ≤ m.rb.dataSize) :
    ∃ wrapCopy, m.perfRbReadEvent true =
      ({ m with
          rb := { m.rb with intermediateReaderPos := u64 (m.rb.intermediateReaderPos + n) }
          wrapCopy := wrapCopy },
        some (m.rb.bytesAt m.rb.intermediateReaderPos n)) := by
  have height : perfHeaderSize ≤ n := Nat.le_of_dvd hpos hdvd
  have hn : n < 2 ^ 16 := hsize ▸ recordSize_lt m.rb _
  have halign : alignUp n ringBufferAlignment = n := alignUp_of_dvd (by omega) hdvd
  have hhdr := m.bytes_eq_read m.rb.intermediateReaderPos (height.trans hle)
  have hbytes := m.bytes_eq_read m.rb.intermediateReaderPos hle
  have hsz := (headerSize_bytesAt m.rb m.rb.intermediateReaderPos (n := perfHeaderSize)
    le_rfl).trans hsize
  -- a record whose header is copied is copied as a whole
  have hneeds : (!m.mirroredMapping &&
        decide (m.rb.dataSize < (m.rb.intermediateReaderPos &&& m.rb.mask) + perfHeaderSize) ||
      !m.mirroredMapping &&
        decide (m.rb.dataSize < (m.rb.intermediateReaderPos &&& m.rb.mask) + n)) =
      (!m.mirroredMapping &&
        decide (m.rb.dataSize < (m.rb.intermediateReaderPos &&& m.rb.mask) + n)) := by
    rw [← Bool.and_or_distrib_left, ← Bool.decide_or]
    congr 2
    rw [eq_iff_iff]
    omega
  rw [perfRbReadEvent, if_neg hne]
  simp only [hhdr, hsz, max_eq_left height, halign, hneeds]
  cases hcopy : !m.mirroredMapping &&
      decide (m.rb.dataSize < (m.rb.intermediateReaderPos &&& m.rb.mask) + n) with
  | false =>
    rw [hcopy, if_neg Bool.false_ne_true] at hbytes
    exact ⟨m.wrapCopy, by rw [hbytes]; rfl⟩
  | true =>
    rw [hcopy, if_pos rfl] at hbytes
    obtain ⟨wrapCopy, hensure⟩ := ensureWrapCopyBuffer_of_pos m.wrapCopy hpos
    exact ⟨wrapCopy, by rw [hbytes, hensure]; rfl⟩

/-- The reader of perf ring buffers, which leaves out how a record is put together, returns the
same. -/
theorem perfRbReadEvent_eq_readEvent (p : PerfRing) (wrapCopy : Option ℕ)
    (hne : p.rb.intermediateReaderPos ≠ p.rb.writerPos)
    (hsize : p.rb.recordSize (p.rb.intermediateReaderPos &&& p.rb.mask) = n) (hpos : 0 < n)
    (hdvd : 8 ∣ n) (hle : n ≤ p.rb.dataSize) :
    let m : MappedRing := ⟨p.rb, p.mirroredMapping, wrapCopy⟩
    (m.perfRbReadEvent true).1.rb = p.readEvent.1.rb ∧
      (m.perfRbReadEvent true).2 = p.readEvent.2.map p.readEvent.1.eventBytes := by
  obtain ⟨wrapCopy', hread⟩ := perfRbReadEvent_eq ⟨p.rb, p.mirroredMapping, wrapCopy⟩ hne hsize hpos
    hdvd hle
  have height : perfHeaderSize ≤ n := Nat.le_of_dvd hpos hdvd
  have hn : n < 2 ^ 16 := hsize ▸ recordSize_lt p.rb _
  have hbytes : p.rb.bytes ⟨p.rb.intermediateReaderPos &&& p.rb.mask, n⟩ =
      p.rb.bytesAt p.rb.intermediateReaderPos n := p.rb.bytes_and_mask _ 0 n
  intro m
  rw [hread, PerfRing.readEvent, RingBuffer.readEvent, if_neg hne]
  simp only [hsize, max_eq_left height, alignUp_of_dvd (by omega) hdvd]
  split
  · refine ⟨rfl, congrArg some ?_⟩
    show _ = (p.rb.bytes _).take n
    rw [hbytes]
    exact (List.take_of_length_le Circular.length_read.le).symm
  · exact ⟨rfl, congrArg some hbytes.symm⟩

theorem readAllAvailable_eq (m : MappedRing) (hle : m.available ≤ m.rb.dataSize) :
    ∃ wrapCopy, m.readAllAvailable true =
      ({ m with
          rb := { m.rb with intermediateReaderPos := m.rb.writerPos }
          wrapCopy := wrapCopy },
        some (m.rb.bytesAt m.rb.intermediateReaderPos m.available)) := by
  have hlt := m.and_mask_lt m.rb.intermediateReaderPos
  have hbytes := m.bytes_eq_read m.rb.intermediateReaderPos hle
  have hneeds : (m.mirroredMapping ||
        decide ((m.rb.intermediateReaderPos &&& m.rb.mask) + m.available ≤ m.rb.dataSize)) =
      !(!m.mirroredMapping &&
        decide (m.rb.dataSize < (m.rb.intermediateReaderPos &&& m.rb.mask) + m.available)) := by
    simp only [Bool.not_and, Bool.not_not, ← decide_not, Nat.not_lt]
  rw [readAllAvailable]
  simp only [hneeds]
  cases hcopy : !m.mirroredMapping &&
      decide (m.rb.dataSize < (m.rb.intermediateReaderPos &&& m.rb.mask) + m.available) with
  | false =>
    rw [hcopy, if_neg Bool.false_ne_true] at hbytes
    exact ⟨m.wrapCopy, by rw [hbytes]; rfl⟩
  | true =>
    rw [hcopy, if_pos rfl] at hbytes
    have hpos : 0 < m.available := by
      simp only [Bool.and_eq_true, decide_eq_true_eq] at hcopy
      omega
    obtain ⟨wrapCopy, hensure⟩ := ensureWrapCopyBuffer_of_pos m.wrapCopy hpos
    exact ⟨wrapCopy, by rw [hbytes, hensure]; rfl⟩

/-! ### All reads -/

theorem dataSize_dvd {rb : RingBuffer} (horder : rb.order ≤ 63) : rb.dataSize ∣ 2 ^ 64 :=
  Nat.pow_dvd_pow 2 (by omega)

theorem bytesAt_u64 {rb : RingBuffer} (horder : rb.order ≤ 63) (pos n : ℕ) :
    rb.bytesAt (u64 pos) n = rb.bytesAt pos n := by
  rw [RingBuffer.bytesAt, ← Circular.read_mod, u64, Nat.mod_mod_of_dvd _ (dataSize_dvd horder),
    Circular.read_mod, RingBuffer.bytesAt]

theorem available_pos_iff (h : m.Aligned) :
    m.rb.intermediateReaderPos ≠ m.rb.writerPos ↔ 0 < m.available := by
  have htail := h.tail_lt
  have hhead := h.head_lt
  rw [available, u64]
  omega

theorem Aligned.advance (h : m.Aligned) (hdvd : 8 ∣ n) (hle : n ≤ m.available) (m' : MappedRing)
    (hrb : m'.rb = { m.rb with intermediateReaderPos := u64 (m.rb.intermediateReaderPos + n) }) :
    m'.Aligned ∧ m'.available + n = m.available := by
  have htail := h.tail_lt
  have hhead := h.head_lt
  have htailDvd := h.tail_dvd
  have havail := h.available_le
  have hpos : m'.rb.intermediateReaderPos = (m.rb.intermediateReaderPos + n) % 2 ^ 64 := by
    rw [hrb, u64]
  have hwriter : m'.rb.writerPos = m.rb.writerPos := by rw [hrb]
  have hleft : m'.available + n = m.available := by
    rw [available, u64] at hle ⊢
    rw [available, u64, hwriter, hpos]
    omega
  refine ⟨⟨?_, ?_, ?_, ?_, ?_, ?_⟩, hleft⟩
  · rw [hrb]
    exact h.order_le
  · omega
  · omega
  · omega
  · rw [hwriter]
    exact h.head_dvd
  · rw [show m'.rb.dataSize = m.rb.dataSize by rw [hrb]; rfl]
    omega

/-- The reads give the records one after the other, and then nothing. -/
theorem readEvents_eq (h : m.Aligned) {records : List (List Byte)}
    (hvalid : ∀ record ∈ records, ValidRecord record)
    (hbytes : m.rb.bytesAt m.rb.intermediateReaderPos m.available = records.flatten) :
    m.readEvents (records.length + 1) = records.map some ++ [none] := by
  induction records generalizing m with
  | nil =>
    have hzero : m.available = 0 := by
      have hlength := congrArg List.length hbytes
      rwa [RingBuffer.bytesAt, Circular.length_read] at hlength
    have heq : m.rb.intermediateReaderPos = m.rb.writerPos := by
      by_contra hne
      have hpos := (available_pos_iff h).mp hne
      omega
    rw [readEvents, perfRbReadEvent, if_pos heq]
    rfl
  | cons record rest ih =>
    have hrecord := hvalid record List.mem_cons_self
    have hlength : m.available = record.length + rest.flatten.length := by
      have hlength := congrArg List.length hbytes
      rwa [RingBuffer.bytesAt, Circular.length_read, List.flatten_cons,
        List.length_append] at hlength
    rw [hlength, RingBuffer.bytesAt, Circular.read_add, List.flatten_cons] at hbytes
    obtain ⟨hfirst, hrest⟩ := List.append_inj hbytes Circular.length_read
    have hsize : m.rb.recordSize (m.rb.intermediateReaderPos &&& m.rb.mask) = record.length := by
      rw [← headerSize_bytesAt m.rb _ hrecord.eight_le, RingBuffer.bytesAt, hfirst]
      exact hrecord.size
    have hpos := hrecord.pos
    obtain ⟨wrapCopy, hread⟩ := perfRbReadEvent_eq m
      ((available_pos_iff h).mpr (by omega)) hsize hpos hrecord.aligned
      (by have := h.available_le; omega)
    obtain ⟨haligned, hleft⟩ := h.advance hrecord.aligned (by omega)
      (m.perfRbReadEvent true).1 (by rw [hread])
    have hnext : (m.perfRbReadEvent true).1.rb.bytesAt
        (m.perfRbReadEvent true).1.rb.intermediateReaderPos
        (m.perfRbReadEvent true).1.available = rest.flatten := by
      rw [show (m.perfRbReadEvent true).1.available = rest.flatten.length by omega, hread]
      exact (bytesAt_u64 h.order_le _ _).trans hrest
    rw [List.length_cons, readEvents, List.map_cons, List.cons_append,
      ih haligned (fun c hc => hvalid c (List.mem_cons_of_mem record hc)) hnext, hread,
      RingBuffer.bytesAt, hfirst]

/-- Reading from a single mapping is reading from a mirrored one: for a record, for all that is
available, and for one record after the other. -/
theorem single_eq_mirrored {rb : RingBuffer} {wrapCopy : Option ℕ} (wrapCopy' : Option ℕ)
    (h : Aligned ⟨rb, false, wrapCopy⟩) :
    let single : MappedRing := ⟨rb, false, wrapCopy⟩
    let mirrored : MappedRing := ⟨rb, true, wrapCopy'⟩
    (∀ size, rb.recordSize (rb.intermediateReaderPos &&& rb.mask) = size → 0 < size → 8 ∣ size →
      size ≤ single.available →
      (single.perfRbReadEvent true).2 = some (rb.bytesAt rb.intermediateReaderPos size) ∧
      (single.perfRbReadEvent true).2 = (mirrored.perfRbReadEvent true).2 ∧
      (single.perfRbReadEvent true).1.rb = (mirrored.perfRbReadEvent true).1.rb) ∧
    ((single.readAllAvailable true).2 =
        some (rb.bytesAt rb.intermediateReaderPos single.available) ∧
      (single.readAllAvailable true).1.rb = { rb with intermediateReaderPos := rb.writerPos } ∧
      (single.readAllAvailable true).2 = (mirrored.readAllAvailable true).2 ∧
      (single.readAllAvailable true).1.rb = (mirrored.readAllAvailable true).1.rb) ∧
    ∀ records : List (List Byte), (∀ record ∈ records, ValidRecord record) →
      rb.bytesAt rb.intermediateReaderPos single.available = records.flatten →
      single.readEvents (records.length + 1) = records.map some ++ [none] := by
  have hle := h.available_le
  refine ⟨fun size hsize hpos hdvd havail => ?_, ?_, fun records hvalid => readEvents_eq h hvalid⟩
  · have hne := (available_pos_iff h).mpr (by omega)
    obtain ⟨w, hread⟩ := perfRbReadEvent_eq ⟨rb, false, wrapCopy⟩ hne hsize hpos hdvd
      (havail.trans hle)
    obtain ⟨w', hread'⟩ := perfRbReadEvent_eq ⟨rb, true, wrapCopy'⟩ hne hsize hpos hdvd
      (havail.trans hle)
    rw [hread, hread']
    exact ⟨rfl, rfl, rfl⟩
  · obtain ⟨w, hread⟩ := readAllAvailable_eq ⟨rb, false, wrapCopy⟩ hle
    obtain ⟨w', hread'⟩ := readAllAvailable_eq ⟨rb, true, wrapCopy'⟩ hle
    rw [hread, hread']
    exact ⟨rfl, rfl, rfl, rfl⟩

/-- A ring of 16 bytes whose 16 bytes are a record that begins in the middle. -/
def halfwayRing : RingBuffer where
  order := 4
  data := fun a => if a = 14 then 16 else 0
  writerPos := 24
  readerPos := 8
  intermediateReaderPos := 8

theorem single_eq_mirrored_halfway :
    let single : MappedRing := ⟨halfwayRing, false, none⟩
    Aligned single ∧ (single.perfRbReadEvent true).2 =
        some (halfwayRing.bytesAt halfwayRing.intermediateReaderPos 16) ∧
      (single.readAllAvailable true).2 =
        some (halfwayRing.bytesAt halfwayRing.intermediateReaderPos single.available) ∧
      (single.readAllAvailable true).1.rb.intermediateReaderPos = 24 := by
  intro single
  have haligned : Aligned single :=
    ⟨by decide, by decide, by decide, by decide, by decide, by decide +kernel⟩
  obtain ⟨hevent, ⟨hall, hpos, -⟩, -⟩ := single_eq_mirrored none haligned
  refine ⟨haligned, (hevent 16 (by decide +kernel) (by decide) (by decide)
    (by decide +kernel)).1, hall, ?_⟩
  rw [hpos]
  rfl

theorem perfRbReadEvent_eq_readEvent_halfway :
    let p : PerfRing := { rb := halfwayRing, mirroredMapping := false }
    (MappedRing.perfRbReadEvent ⟨halfwayRing, false, none⟩ true).2 =
      p.readEvent.2.map p.readEvent.1.eventBytes :=
  (perfRbReadEvent_eq_readEvent (n := 16) { rb := halfwayRing, mirroredMapping := false } none
    (by decide) (by decide +kernel) (by decide) (by decide) (by decide)).2

end MappedRing

end Ddprof
