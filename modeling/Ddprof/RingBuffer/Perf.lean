import Ddprof.RingBuffer.Layout

/-!
Perf ring buffers.

The kernel puts records one after the other into the ring buffer; each begins with
a header that holds its type and its size. The profiler reads a record in place.
Where the data is not mapped twice in a row and the record runs over the end of the
data, it reads a copy, for which a ring buffer has room once.
-/

namespace Ddprof

open Circular (Byte Format)
open RingBuffer (Layout)

/-! ### Records -/

def headerSize (bytes : List Byte) : ℕ := Circular.leWord ((bytes.drop 6).take 2)

/-- The kernel aligns records. -/
structure ValidRecord (bytes : List Byte) : Prop where
  size : headerSize bytes = bytes.length
  pos : 0 < bytes.length
  aligned : 8 ∣ bytes.length

instance (bytes : List Byte) : Decidable (ValidRecord bytes) :=
  decidable_of_iff (headerSize bytes = bytes.length ∧ 0 < bytes.length ∧ 8 ∣ bytes.length)
    ⟨fun ⟨hsize, hpos, haligned⟩ => ⟨hsize, hpos, haligned⟩, fun h => ⟨h.size, h.pos, h.aligned⟩⟩

variable {bytes : List Byte}

theorem ValidRecord.eight_le (h : ValidRecord bytes) : 8 ≤ bytes.length :=
  Nat.le_of_dvd h.pos h.aligned

theorem ValidRecord.length_lt (h : ValidRecord bytes) :
    bytes.length < 2 ^ 16 := by
  have hlt := Circular.leWord_lt ((bytes.drop 6).take 2)
  have hlen : ((bytes.drop 6).take 2).length ≤ 2 := by simp
  calc bytes.length = headerSize bytes := h.size.symm
    _ < 256 ^ ((bytes.drop 6).take 2).length := hlt
    _ ≤ 256 ^ 2 := Nat.pow_le_pow_right (by norm_num) hlen
    _ = 2 ^ 16 := by norm_num

theorem ValidRecord.alignUp_length (h : ValidRecord bytes) :
    alignUp bytes.length ringBufferAlignment = bytes.length :=
  alignUp_of_dvd (h.length_lt.trans (by norm_num)) h.aligned

def recordFormat : Format (List Byte) where
  space := List.length
  Valid := ValidRecord
  At size m p c := Circular.read size m p c.length = c
  space_pos _ h := h.pos
  congr size m m' p c _ hdata hat := by
    rw [Circular.read_congr hdata]
    exact hat

namespace RingBuffer

/-- The kernel adds a record, for which it has found room. -/
def kernelWrite (rb : RingBuffer) (record : List Byte) : RingBuffer :=
  { rb with
    data := Circular.write rb.dataSize rb.data rb.writerPos record
    writerPos := u64 (rb.writerPos + record.length) }

namespace Layout

variable {rb : RingBuffer} {records : List (List Byte)} {record : List Byte} {r k : ℕ}
  (h : Layout recordFormat rb records r)
include h

theorem kernelWrite (hvalid : ValidRecord record)
    (hspace : rb.writerPos + record.length ≤ rb.readerPos + rb.mask)
    (hbound : rb.writerPos + record.length < 2 ^ 64) :
    Layout recordFormat (rb.kernelWrite record) (records ++ [record]) r := by
  have hreader := h.readerPos_le
  have hmask := rb.mask_lt
  refine h.append hvalid rfl (u64_of_lt hbound) rfl hspace hbound (fun c hc => ?_) ?_
  · exact Circular.write_of_outside hc
  · exact Circular.read_write_self (by omega)

theorem bytes_record (hr : r ≤ k) (hk : records[k]? = some record) :
    rb.bytes ⟨recordFormat.pos records k &&& rb.mask, record.length⟩ = record := by
  rw [bytes, and_mask, Circular.read_mod]
  exact h.tiled.item k record hr hk

theorem recordSize_eq (hr : r ≤ k) (hk : records[k]? = some record) :
    rb.recordSize (recordFormat.pos records k &&& rb.mask) = record.length := by
  have hvalid : ValidRecord record := h.tiled.valid_of_getElem? hk
  have height := hvalid.eight_le
  have hitem : Circular.read rb.dataSize rb.data (recordFormat.pos records k) record.length =
    record := h.tiled.item k record hr hk
  have hfield : ((Circular.read rb.dataSize rb.data (recordFormat.pos records k)
      record.length).drop 6).take 2 =
      Circular.read rb.dataSize rb.data (recordFormat.pos records k + 6) 2 :=
    Circular.take_drop_read (by omega)
  rw [hitem] at hfield
  rw [recordSize, and_mask, ← Circular.read_mod, Nat.mod_add_mod, Circular.read_mod, ← hfield]
  exact hvalid.size

theorem readEvent_spec (hk : rb.intermediateReaderPos = recordFormat.pos records k) (hrk : r ≤ k)
    (hlen : k ≤ records.length) :
    k = records.length ∧ rb.readEvent = (rb, none) ∨
      ∃ record, records[k]? = some record ∧
        rb.readEvent = ({ rb with intermediateReaderPos := recordFormat.pos records (k + 1) },
          some ⟨recordFormat.pos records k &&& rb.mask, record.length⟩) := by
  rcases Nat.eq_or_lt_of_le hlen with heq | hlt
  · refine .inl ⟨heq, ?_⟩
    rw [RingBuffer.readEvent, hk, h.writerPos, heq]
    exact if_pos rfl
  · have hget : records[k]? = some records[k] := List.getElem?_eq_getElem hlt
    generalize records[k] = record at hget
    have hvalid : ValidRecord record := h.tiled.valid_of_getElem? hget
    have hsucc : recordFormat.pos records (k + 1) = recordFormat.pos records k + record.length :=
      Circular.offset_succ hget
    have hbound := h.pos_lt_bound (i := k + 1) hlt
    refine .inr ⟨record, hget, ?_⟩
    rw [RingBuffer.readEvent, hk, h.writerPos, if_neg (h.tiled.pos_lt hlt le_rfl).ne]
    simp only [h.recordSize_eq hrk hget, hvalid.alignUp_length]
    rw [u64_of_lt (by omega), hsucc]

end Layout

end RingBuffer

/-! ### Reading -/

/-- Where a record is read: in the data, or in the copy. -/
inductive EventPtr where
  | data (buf : Buffer)
  | copy (size : ℕ)
  deriving DecidableEq, Repr

/-- A perf ring buffer; `records` are all records that the kernel has put into it. -/
structure PerfRing where
  rb : RingBuffer
  mirroredMapping : Bool := true
  wrapCopy : List Byte := []
  records : List (List Byte) := []

/-- `sizeof(perf_event_header)`. -/
def perfHeaderSize : ℕ := 8

namespace PerfRing

/-- `perf_rb_read_event`. -/
def readEvent (p : PerfRing) : PerfRing × Option EventPtr :=
  match p.rb.readEvent with
  | (_, none) => (p, none)
  | (rb, some buf) =>
    let bytesToCopy := max buf.size perfHeaderSize
    let needsCopy := !p.mirroredMapping && (p.rb.dataSize < buf.data + perfHeaderSize ||
      p.rb.dataSize < buf.data + bytesToCopy)
    if needsCopy then
      ({ p with rb := rb, wrapCopy := p.rb.bytes ⟨buf.data, bytesToCopy⟩ }, some (.copy buf.size))
    else ({ p with rb := rb }, some (.data buf))

def eventBytes (p : PerfRing) : EventPtr → List Byte
  | .data buf => p.rb.bytes buf
  | .copy size => p.wrapCopy.take size

/-- The pointer leads to the record `k`. -/
def Points (p : PerfRing) (ptr : EventPtr) (k : ℕ) : Prop :=
  ∃ record, p.records[k]? = some record ∧
    (ptr = .data ⟨recordFormat.pos p.records k &&& p.rb.mask, record.length⟩ ∨
      ptr = .copy record.length ∧ p.wrapCopy.take record.length = record)

/-- Of the records, `r` have been released and `k` have been read. -/
structure Inv (p : PerfRing) (r k : ℕ) : Prop where
  layout : Layout recordFormat p.rb p.records r
  intermediate : p.rb.intermediateReaderPos = recordFormat.pos p.records k
  released_le : r ≤ k
  read_le : k ≤ p.records.length

section

variable {p : PerfRing} {r k i : ℕ} {ptr : EventPtr} (h : p.Inv r k)
include h

theorem Inv.eventBytes_of_points {record : List Byte} (hr : r ≤ i)
    (hi : p.records[i]? = some record)
    (hptr : p.Points ptr i) : p.eventBytes ptr = record := by
  obtain ⟨record', hi', rfl | ⟨rfl, hcopy⟩⟩ := hptr
  · rw [hi] at hi'
    cases hi'
    exact h.layout.bytes_record hr hi
  · rw [hi] at hi'
    cases hi'
    exact hcopy

theorem Inv.readEvent_spec :
    k = p.records.length ∧ p.readEvent = (p, none) ∨
      ∃ p' ptr, k < p.records.length ∧ p.readEvent = (p', some ptr) ∧ p'.Inv r (k + 1) ∧
        p'.Points ptr k ∧ p'.records = p.records ∧ p'.rb.readerPos = p.rb.readerPos := by
  rcases h.layout.readEvent_spec h.intermediate h.released_le h.read_le with
    ⟨hk, hread⟩ | ⟨record, hk, hread⟩
  · exact .inl ⟨hk, by rw [readEvent, hread]⟩
  · have hlt := (List.getElem?_eq_some_iff.mp hk).1
    have hvalid : ValidRecord record := h.layout.tiled.valid_of_getElem? hk
    have hmax : max record.length perfHeaderSize = record.length := max_eq_left hvalid.eight_le
    have hinv : ∀ copy, Inv { p with
        rb := { p.rb with intermediateReaderPos := recordFormat.pos p.records (k + 1) }
        wrapCopy := copy } r (k + 1) := fun copy =>
      ⟨h.layout.setIntermediate _, rfl, Nat.le_succ_of_le h.released_le, hlt⟩
    refine .inr ?_
    rw [readEvent, hread]
    simp only [hmax]
    split
    · refine ⟨_, _, hlt, rfl, hinv _, ⟨record, hk, .inr ⟨rfl, ?_⟩⟩, rfl, rfl⟩
      dsimp only
      rw [h.layout.bytes_record h.released_le hk, List.take_length]
    · exact ⟨_, _, hlt, rfl, hinv _, ⟨record, hk, .inl rfl⟩, rfl, rfl⟩

theorem Inv.advance : Inv { p with rb := p.rb.advance } k k := by
  have hlayout := h.layout.release h.released_le h.read_le
  rw [← h.intermediate] at hlayout
  exact ⟨hlayout, h.intermediate, le_rfl, h.read_le⟩

theorem Inv.init (copy : List Byte) : Inv { p with rb := p.rb.init, wrapCopy := copy } r r :=
  ⟨h.layout.setIntermediate _, h.layout.readerPos, le_rfl, h.released_le.trans h.read_le⟩

theorem Inv.kernelWrite {record : List Byte} (hvalid : ValidRecord record)
    (hspace : p.rb.writerPos + record.length ≤ p.rb.readerPos + p.rb.mask)
    (hbound : p.rb.writerPos + record.length < 2 ^ 64) :
    Inv { p with rb := p.rb.kernelWrite record, records := p.records ++ [record] } r k := by
  refine ⟨h.layout.kernelWrite hvalid hspace hbound, ?_, h.released_le, ?_⟩
  · dsimp only
    rw [Format.pos, Circular.offset_append _ h.read_le]
    exact h.intermediate
  · exact h.read_le.trans (by simp)

end

theorem Points.kernelWrite {p : PerfRing} {ptr : EventPtr} {i : ℕ} (hptr : p.Points ptr i)
    (record : List Byte) :
    Points { p with rb := p.rb.kernelWrite record, records := p.records ++ [record] } ptr i := by
  obtain ⟨c, hc, hcases⟩ := hptr
  have hlt := (List.getElem?_eq_some_iff.mp hc).1
  refine ⟨c, ?_, ?_⟩
  · rw [List.getElem?_append_left hlt]
    exact hc
  · dsimp only
    rw [Format.pos, Circular.offset_append _ hlt.le]
    exact hcases

end PerfRing

end Ddprof
