import Ddprof.RingBuffer.Header
import Ddprof.Lib.Tiling

/-!
The layout of a ring buffer.

The abstract view of a ring buffer is the list of all that was ever put into it
and the number of items that have been released. The unreleased items lie one
after the other between `reader_pos` and `writer_pos`. The items of a ring buffer
with several producers are its samples, each with the bytes of its buffer and
two flags; every operation of a producer or of the reader is shown to act on the
list: it appends a sample, changes one, or finds the next one.
-/

namespace Ddprof

open Circular (Byte Format)

namespace RingBuffer

def bytesAt (rb : RingBuffer) (pos n : ℕ) : List Byte := Circular.read rb.dataSize rb.data pos n

theorem dataSize_pos (rb : RingBuffer) : 0 < rb.dataSize := Nat.two_pow_pos _

theorem mask_lt (rb : RingBuffer) : rb.mask < rb.dataSize := Nat.sub_one_lt rb.dataSize_pos.ne'

theorem and_mask (rb : RingBuffer) (pos : ℕ) : pos &&& rb.mask = pos % rb.dataSize :=
  Nat.and_two_pow_sub_one_eq_mod pos rb.order

theorem header_and_mask (rb : RingBuffer) (pos : ℕ) :
    rb.header (pos &&& rb.mask) = Circular.leWord (rb.bytesAt pos MpscHeader.sizeOf) := by
  rw [header, and_mask, bytesAt, Circular.read_mod]

theorem bytes_and_mask (rb : RingBuffer) (pos k n : ℕ) :
    rb.bytes ⟨(pos &&& rb.mask) + k, n⟩ = rb.bytesAt (pos + k) n := by
  rw [bytes, and_mask, bytesAt, ← Circular.read_mod, Nat.mod_add_mod, Circular.read_mod]

theorem data_setHeader (rb : RingBuffer) (pos w : ℕ) :
    (rb.setHeader (pos &&& rb.mask) w).data =
      Circular.write rb.dataSize rb.data pos (Circular.leBytes MpscHeader.sizeOf w) := by
  rw [setHeader, and_mask, Circular.write_mod]

theorem size_of_reserve {rb rb' : RingBuffer} {tail area n : ℕ} {highPriority : Bool} {buf : Buffer}
    (hres : rb.reserve tail area n highPriority = some (rb', buf)) : buf.size = n := by
  rw [reserve] at hres
  dsimp only at hres
  split_ifs at hres <;> cases hres <;> rfl

/-- The ring buffer holds the items, of which the first `r` have been released. -/
structure Layout {α : Type} (F : Format α) (rb : RingBuffer) (xs : List α) (r : ℕ) : Prop where
  order : 3 ≤ rb.order
  writerPos : rb.writerPos = F.pos xs xs.length
  readerPos : rb.readerPos = F.pos xs r
  space : F.pos xs xs.length ≤ F.pos xs r + rb.mask
  bound : F.pos xs xs.length < 2 ^ 64
  tiled : F.Tiled rb.dataSize rb.data xs r

namespace Layout

variable {α : Type} {F : Format α} {rb rb' : RingBuffer} {xs : List α} {x y : α} {r i : ℕ}
  (h : Layout F rb xs r)
include h

theorem eight_le : 8 ≤ rb.dataSize :=
  le_trans (by norm_num) (Nat.pow_le_pow_right (by norm_num) h.order : 2 ^ 3 ≤ 2 ^ rb.order)

theorem readerPos_le : rb.readerPos ≤ rb.writerPos := by
  rw [h.readerPos, h.writerPos]
  exact Circular.offset_mono h.tiled.released

theorem space_le (hr : r ≤ i) (hi : xs[i]? = some x) : F.space x ≤ rb.mask := by
  have hend : F.pos xs i + F.space x ≤ F.pos xs xs.length :=
    Circular.offset_add_space_le hi (List.getElem?_eq_some_iff.mp hi).1
  have hstart : F.pos xs r ≤ F.pos xs i := Circular.offset_mono hr
  have hspace := h.space
  omega

theorem pos_lt_bound (hi : i ≤ xs.length) : F.pos xs i < 2 ^ 64 :=
  lt_of_le_of_lt (Circular.offset_mono hi) h.bound

theorem modify (hr : r ≤ i) (hi : xs[i]? = some x) (hvalid : F.Valid y)
    (hspace : F.space y = F.space x) (horder : rb'.order = rb.order)
    (hwriter : rb'.writerPos = rb.writerPos) (hreader : rb'.readerPos = rb.readerPos)
    (hdata : ∀ c, (∀ k < F.space x, (F.pos xs i + k) % rb.dataSize ≠ c) → rb'.data c = rb.data c)
    (hitem : F.At rb.dataSize rb'.data (F.pos xs i) y) : Layout F rb' (xs.set i y) r := by
  have hpos : ∀ j, F.pos (xs.set i y) j = F.pos xs j := Circular.offset_set hi hspace
  have hsize : rb'.dataSize = rb.dataSize := by rw [dataSize, dataSize, horder]
  refine ⟨horder ▸ h.order, ?_, ?_, ?_, ?_, ?_⟩
  · rw [hpos, List.length_set, hwriter, h.writerPos]
  · rw [hpos, hreader, h.readerPos]
  · rw [hpos, hpos, List.length_set, mask, hsize]
    exact h.space
  · rw [hpos, List.length_set]
    exact h.bound
  · rw [hsize]
    exact h.tiled.modify hr hi hvalid hspace hdata hitem

theorem append (hvalid : F.Valid x) (horder : rb'.order = rb.order)
    (hwriter : rb'.writerPos = rb.writerPos + F.space x) (hreader : rb'.readerPos = rb.readerPos)
    (hspace : rb.writerPos + F.space x ≤ rb.readerPos + rb.mask)
    (hbound : rb.writerPos + F.space x < 2 ^ 64)
    (hdata : ∀ c, (∀ k < F.space x, (rb.writerPos + k) % rb.dataSize ≠ c) → rb'.data c = rb.data c)
    (hitem : F.At rb.dataSize rb'.data rb.writerPos x) : Layout F rb' (xs ++ [x]) r := by
  have hsize : rb'.dataSize = rb.dataSize := by rw [dataSize, dataSize, horder]
  have hend : F.pos (xs ++ [x]) (xs ++ [x]).length = rb.writerPos + F.space x := by
    rw [Format.pos, Circular.offset_append_length, h.writerPos, Format.pos]
  have hstart : F.pos (xs ++ [x]) r = rb.readerPos := by
    rw [Format.pos, Circular.offset_append _ h.tiled.released, h.readerPos, Format.pos]
  have hmask := rb.mask_lt
  refine ⟨horder ▸ h.order, ?_, ?_, ?_, ?_, ?_⟩
  · rw [hwriter, hend]
  · rw [hreader, hstart]
  · rw [hend, hstart, mask, hsize]
    exact hspace
  · rw [hend]
    exact hbound
  · rw [hsize]
    refine h.tiled.append hvalid ?_ ?_ ?_
    · rw [← h.writerPos, ← h.readerPos]
      omega
    · rw [← h.writerPos]
      exact hdata
    · rw [← h.writerPos]
      exact hitem

/-- The reader moves on, over items that it has read. -/
theorem release {r' : ℕ} (hr : r ≤ r') (hr' : r' ≤ xs.length) :
    Layout F { rb with readerPos := F.pos xs r' } xs r' := by
  refine ⟨h.order, h.writerPos, rfl, ?_, h.bound, h.tiled.release hr hr'⟩
  exact h.space.trans (Nat.add_le_add_right (Circular.offset_mono hr) _)

theorem setIntermediate (p : ℕ) : Layout F { rb with intermediateReaderPos := p } xs r :=
  ⟨h.order, h.writerPos, h.readerPos, h.space, h.bound, h.tiled⟩

end Layout

end RingBuffer

/-! ### Samples -/

/-- A sample from its reservation on: the bytes of its buffer and its two flags. -/
structure Slot where
  content : List Byte
  busy : Bool := true
  discarded : Bool := false
  deriving DecidableEq, Repr

namespace Slot

def size (s : Slot) : ℕ := s.content.length

def space (s : Slot) : ℕ := sampleSpace s.size

def header (s : Slot) : ℕ := MpscHeader.encode s.size s.busy s.discarded

theorem eight_add_size_le {s : Slot} (hs : s.size < 2 ^ 62) : 8 + s.size ≤ s.space := by
  rw [space, sampleSpace_eq (by omega)]
  omega

/-- The memory holds the sample behind its header. -/
structure At (size : ℕ) (m : ℕ → Byte) (p : ℕ) (s : Slot) : Prop where
  header : Circular.leWord (Circular.read size m p MpscHeader.sizeOf) = s.header
  content : Circular.read size m (p + MpscHeader.sizeOf) s.size = s.content

theorem space_pos {s : Slot} (hs : s.size < 2 ^ 62) : 0 < s.space :=
  Nat.lt_of_lt_of_le (by omega) (eight_add_size_le hs)

theorem At.congr {size p : ℕ} {m m' : ℕ → Byte} {s : Slot} (hs : s.size < 2 ^ 62)
    (hdata : ∀ k < s.space, m' ((p + k) % size) = m ((p + k) % size)) (hat : At size m p s) :
    At size m' p s := by
  have hle := eight_add_size_le hs
  have hread : ∀ k n, k + n ≤ s.space →
      Circular.read size m' (p + k) n = Circular.read size m (p + k) n := by
    intro k n hkn
    refine Circular.read_congr fun l hl => ?_
    rw [Nat.add_assoc]
    exact hdata (k + l) (by omega)
  refine ⟨?_, ?_⟩
  · have h0 := hread 0 MpscHeader.sizeOf (by rw [MpscHeader.sizeOf]; omega)
    rw [Nat.add_zero] at h0
    rw [h0, hat.header]
  · rw [hread _ _ (by rw [MpscHeader.sizeOf]; omega), hat.content]

end Slot

def mpscFormat : Format Slot where
  space := Slot.space
  Valid s := s.size < 2 ^ 62
  At := Slot.At
  space_pos _ := Slot.space_pos
  congr _ _ _ _ _ := Slot.At.congr

end Ddprof
