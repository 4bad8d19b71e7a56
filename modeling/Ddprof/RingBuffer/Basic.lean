import Ddprof.Lib.Circular

/-!
Ring buffers (`ringbuffer_utils.hpp`).

A ring buffer is a circular memory that is mapped twice in a row, with two
positions of 64 bits that only grow: what lies between `reader_pos` and
`writer_pos` belongs to the reader. `intermediate_reader_pos` is the part that
the reader has read and not released. Perf ring buffers hold records of the
kernel one after the other. In a ring buffer with several producers each sample
is preceded by a header word: its size, a bit that says that the producer is
still writing it, and a bit that says that it may be released.
-/

namespace Ddprof

open Circular (Byte)

/-- Arithmetic of `uint64_t`. It is not unfolded by unification, which would count
up to `2 ^ 64` in unary. -/
@[irreducible] def u64 (x : ℕ) : ℕ := x % 2 ^ 64

def alignUp (x pow2 : ℕ) : ℕ := u64 ((u64 (x + 2 ^ 64 - 1) ||| (pow2 - 1)) + 1)

def ringBufferAlignment : ℕ := 8

structure RingBuffer where
  /-- The size of the data is a power of two. -/
  order : ℕ
  data : ℕ → Byte
  writerPos : ℕ := 0
  readerPos : ℕ := 0
  intermediateReaderPos : ℕ := 0

/-- A part of the data, by the offset of its first byte. -/
structure Buffer where
  data : ℕ
  size : ℕ
  deriving DecidableEq, Repr

namespace RingBuffer

def dataSize (rb : RingBuffer) : ℕ := 2 ^ rb.order

def mask (rb : RingBuffer) : ℕ := rb.dataSize - 1

/-- The bytes of a buffer; past the end of the data the second mapping begins. -/
def bytes (rb : RingBuffer) (buf : Buffer) : List Byte :=
  Circular.read rb.dataSize rb.data buf.data buf.size

/-- `rb_init` on ring buffers that exist already. -/
def init (rb : RingBuffer) : RingBuffer := { rb with intermediateReaderPos := rb.readerPos }

end RingBuffer

/-! ### Headers -/

namespace MpscHeader

def discardBit : ℕ := 2 ^ 62

def busyBit : ℕ := 2 ^ 63

def sizeOf : ℕ := 8

def isBusy (size : ℕ) : Bool := size &&& busyBit ≠ 0

def isDiscarded (size : ℕ) : Bool := size &&& discardBit ≠ 0

/-- `size & ~k_discard_bit`. -/
def getSize (size : ℕ) : ℕ := size &&& (2 ^ 64 - 1 - discardBit)

end MpscHeader

def sampleSpace (n : ℕ) : ℕ := alignUp (u64 (n + MpscHeader.sizeOf)) ringBufferAlignment

namespace RingBuffer

def header (rb : RingBuffer) (offset : ℕ) : ℕ :=
  Circular.leWord (Circular.read rb.dataSize rb.data offset MpscHeader.sizeOf)

def setHeader (rb : RingBuffer) (offset size : ℕ) : RingBuffer :=
  { rb with data :=
      Circular.write rb.dataSize rb.data offset (Circular.leBytes MpscHeader.sizeOf size) }

/-! ### Producers -/

/-- `MPSCRingBufferWriter::reserve` with the lock held. -/
def reserve (rb : RingBuffer) (tail highPriorityAreaSize n : ℕ) (highPriority : Bool) :
    Option (RingBuffer × Buffer) :=
  let n2 := sampleSpace n
  if n2 = 0 then none
  else
    let newWriterPos := u64 (rb.writerPos + n2)
    let adjustedWriterPos :=
      if highPriority then newWriterPos else u64 (newWriterPos + highPriorityAreaSize)
    if rb.mask < u64 (adjustedWriterPos + 2 ^ 64 - tail) then none
    else
      let headLinear := rb.writerPos &&& rb.mask
      some ({ rb.setHeader headLinear (n ||| MpscHeader.busyBit) with writerPos := newWriterPos },
        ⟨headLinear + MpscHeader.sizeOf, n⟩)

def writeByte (rb : RingBuffer) (buf : Buffer) (i : ℕ) (b : Byte) : RingBuffer :=
  { rb with data := Function.update rb.data ((buf.data + i) % rb.dataSize) b }

/-- The store of `commit_internal`. -/
def commit (rb : RingBuffer) (buf : Buffer) (discard : Bool) : RingBuffer :=
  let hdr := buf.data - MpscHeader.sizeOf
  let newSize := rb.header hdr ^^^ MpscHeader.busyBit
  rb.setHeader hdr (if discard then newSize ||| MpscHeader.discardBit else newSize)

/-- The result of `commit_internal`, which reads the tail again after the store. -/
def needsNotification (rb : RingBuffer) (buf : Buffer) : Bool :=
  rb.readerPos &&& rb.mask = buf.data - MpscHeader.sizeOf

/-! ### Reader -/

/-- The loop of `mpsc_rb_read_sample`; `none` when it has not ended after `fuel` turns. -/
def readSampleFrom (head : ℕ) : ℕ → RingBuffer → Option (RingBuffer × Option Buffer)
  | 0, _ => none
  | fuel + 1, rb =>
    let tail := rb.intermediateReaderPos
    if head = tail then some (rb, none)
    else
      let tailLinear := tail &&& rb.mask
      let sz := rb.header tailLinear
      if MpscHeader.isBusy sz then some (rb, none)
      else
        let rb := { rb with
          intermediateReaderPos := u64 (tail + sampleSpace (MpscHeader.getSize sz)) }
        if MpscHeader.isDiscarded sz then readSampleFrom head fuel rb
        else some (rb, some ⟨tailLinear + MpscHeader.sizeOf, sz⟩)

/-- Every turn of the loop passes a header, so there are fewer turns than bytes. -/
def readSample (rb : RingBuffer) (head : ℕ) : Option (RingBuffer × Option Buffer) :=
  readSampleFrom head (rb.dataSize + 1) rb

/-- The loop of `mpsc_rb_advance_if_possible`. -/
def releasedFrom (rb : RingBuffer) (head : ℕ) : ℕ → ℕ → Option ℕ
  | 0, _ => none
  | fuel + 1, newTail =>
    if newTail < head then
      let hdr := rb.header (newTail &&& rb.mask)
      if MpscHeader.isDiscarded hdr then
        releasedFrom rb head fuel (u64 (newTail + sampleSpace (MpscHeader.getSize hdr)))
      else some newTail
    else some newTail

/-- `mpsc_rb_advance_if_possible` for the sample whose first byte is at `event`. -/
def advanceIfPossible (rb : RingBuffer) (event : ℕ) : Option RingBuffer :=
  let hdr := event - MpscHeader.sizeOf
  let rb := rb.setHeader hdr (rb.header hdr ||| MpscHeader.discardBit)
  (rb.releasedFrom rb.writerPos (rb.dataSize + 1) rb.readerPos).map fun newTail =>
    { rb with readerPos := newTail }

/-- `MPSCRingBufferReader::advance` and `perf_rb_advance`. -/
def advance (rb : RingBuffer) : RingBuffer := { rb with readerPos := rb.intermediateReaderPos }

/-! ### Perf ring buffers -/

/-- The 16-bit size field of the record at an offset. -/
def recordSize (rb : RingBuffer) (offset : ℕ) : ℕ :=
  Circular.leWord (Circular.read rb.dataSize rb.data (offset + 6) 2)

/-- `perf_rb_read_event` on a mirrored mapping. -/
def readEvent (rb : RingBuffer) : RingBuffer × Option Buffer :=
  let tail := rb.intermediateReaderPos
  if tail = rb.writerPos then (rb, none)
  else
    let tailLinear := tail &&& rb.mask
    let size := rb.recordSize tailLinear
    ({ rb with intermediateReaderPos := u64 (tail + alignUp size ringBufferAlignment) },
      some ⟨tailLinear, size⟩)

def hasInflightEvents (rb : RingBuffer) : Bool := rb.intermediateReaderPos ≠ rb.readerPos

end RingBuffer

end Ddprof
