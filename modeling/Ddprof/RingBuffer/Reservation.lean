import Ddprof.RingBuffer.Layout
import Ddprof.Lib.Run

/-!
What a reservation in a ring buffer with several producers promises, for sizes and positions of all
64 bits.

The room for a sample is found by a comparison of sums that may run over the end of their type. As
long as they do not, a reservation gets nothing, or as many bytes as it asks for from those that
are free, and a part of the ring buffer is left for samples of high priority.
-/

namespace Ddprof

open Circular (Byte)

/-! ### The check -/

/-- How far the position `b` is ahead of the position `a`, as a `uint64_t`. -/
def ahead (a b : ℕ) : ℕ := u64 (b + 2 ^ 64 - a)

/-- The space of a sample with its header, as a number without bounds. -/
def exactSpace (n : ℕ) : ℕ := (n + 15) / 8 * 8

theorem sampleSpace_eq_u64 (n : ℕ) : sampleSpace n = u64 (exactSpace n) := by
  have hlt : u64 (n + MpscHeader.sizeOf) < 2 ^ 64 := by
    rw [u64]
    exact Nat.mod_lt _ (by norm_num)
  rw [sampleSpace, ringBufferAlignment, alignUp_eight_eq_u64 hlt, MpscHeader.sizeOf, exactSpace,
    u64, u64, u64]
  omega

namespace RingBuffer

/-- What a reservation leaves free besides its own bytes. -/
def keptFree (highPriorityAreaSize : ℕ) (highPriority : Bool) : ℕ :=
  if highPriority then 0 else highPriorityAreaSize

variable {rb : RingBuffer} {tail highPriorityAreaSize n : ℕ} {highPriority : Bool}

/-- The sum that is compared is the exact one, modulo `2 ^ 64`. -/
theorem reserve_eq (hn : n < 2 ^ 64) (hwriter : rb.writerPos < 2 ^ 64) (htail : tail < 2 ^ 64) :
    rb.reserve tail highPriorityAreaSize n highPriority =
      if exactSpace n = 2 ^ 64 ∨ rb.mask < u64 (ahead tail rb.writerPos + exactSpace n +
          keptFree highPriorityAreaSize highPriority) then none
      else some ({ rb.setHeader (rb.writerPos &&& rb.mask) (n ||| MpscHeader.busyBit) with
          writerPos := u64 (rb.writerPos + exactSpace n) },
        ⟨(rb.writerPos &&& rb.mask) + MpscHeader.sizeOf, n⟩) := by
  have hzero : sampleSpace n = 0 ↔ exactSpace n = 2 ^ 64 := by
    rw [sampleSpace_eq_u64, u64, exactSpace]
    omega
  have hnew : u64 (rb.writerPos + sampleSpace n) = u64 (rb.writerPos + exactSpace n) := by
    rw [sampleSpace_eq_u64, u64, u64, u64, Nat.add_mod_mod]
  have hsum : u64 ((if highPriority then u64 (rb.writerPos + exactSpace n)
        else u64 (u64 (rb.writerPos + exactSpace n) + highPriorityAreaSize)) + 2 ^ 64 - tail) =
      u64 (ahead tail rb.writerPos + exactSpace n +
        keptFree highPriorityAreaSize highPriority) := by
    rw [ahead, keptFree]
    cases highPriority
    · simp only [Bool.false_eq_true, if_false, u64]
      omega
    · simp only [if_true, u64]
      omega
  rw [reserve]
  simp only [hnew, hsum, hzero]
  split_ifs <;> first | rfl | (exfalso; tauto)

theorem of_reserve_eq_some {rb' : RingBuffer} {buf : Buffer} (hn : n < 2 ^ 64)
    (hwriter : rb.writerPos < 2 ^ 64) (htail : tail < 2 ^ 64)
    (hres : rb.reserve tail highPriorityAreaSize n highPriority = some (rb', buf)) :
    rb'.order = rb.order ∧ rb'.readerPos = rb.readerPos ∧
      rb'.writerPos = u64 (rb.writerPos + exactSpace n) ∧
      u64 (ahead tail rb.writerPos + exactSpace n + keptFree highPriorityAreaSize highPriority) ≤
        rb.mask := by
  rw [reserve_eq hn hwriter htail] at hres
  split_ifs at hres with hrefused
  cases hres
  exact ⟨rfl, rfl, rfl, Nat.not_lt.mp (not_or.mp hrefused).2⟩

/-! ### All or nothing -/

/-- The positions of a ring buffer and the tail of one of its writers, which may be out of date.
They may have run over the end of their type. -/
structure Positions (rb : RingBuffer) (tail : ℕ) : Prop where
  order_le : rb.order ≤ 63
  writer_lt : rb.writerPos < 2 ^ 64
  reader_lt : rb.readerPos < 2 ^ 64
  tail_lt : tail < 2 ^ 64
  used_le : ahead rb.readerPos rb.writerPos ≤ rb.mask
  tail_behind : ahead tail rb.writerPos = ahead tail rb.readerPos + ahead rb.readerPos rb.writerPos

/-- An empty buffer leaves the ring buffer as it was; the bytes of another one, with its header,
are among those that were free by the tail, and share no byte with the samples between the reader
and the writer. No buffer is the empty one. -/
def AllOrNothing (rb : RingBuffer) (tail n : ℕ) (result : Option (RingBuffer × Buffer)) : Prop :=
  let after := result.getD (rb, ⟨0, 0⟩)
  (after.2.size = 0 → after.1.writerPos = rb.writerPos ∧ after.1.data = rb.data) ∧
    (after.2.size ≠ 0 → after.2.size = n ∧
      after.2.data = (rb.writerPos &&& rb.mask) + MpscHeader.sizeOf ∧
      n + MpscHeader.sizeOf ≤ rb.mask - ahead tail rb.writerPos ∧
      Circular.Apart rb.dataSize rb.readerPos (ahead rb.readerPos rb.writerPos) rb.writerPos
        (n + MpscHeader.sizeOf))

/-- The sum that is compared with the mask has run over the end of its type, to a number that
passes. -/
def Overflows (rb : RingBuffer) (tail kept n : ℕ) : Prop :=
  2 ^ 64 ≤ ahead tail rb.writerPos + exactSpace n + kept ∧
    u64 (ahead tail rb.writerPos + exactSpace n + kept) ≤ rb.mask

theorem Positions.apart (h : rb.Positions tail)
    (hfree : n + MpscHeader.sizeOf ≤ rb.mask - ahead tail rb.writerPos) :
    Circular.Apart rb.dataSize rb.readerPos (ahead rb.readerPos rb.writerPos) rb.writerPos
      (n + MpscHeader.sizeOf) := by
  have hbehind := h.tail_behind
  have hmask := rb.mask_lt
  have hdvd : rb.dataSize ∣ 2 ^ 64 := Nat.pow_dvd_pow 2 (h.order_le.trans (by norm_num))
  -- the writer stands where the samples end
  have hwriter (j : ℕ) : (rb.writerPos + j) % rb.dataSize =
      (rb.readerPos + (ahead rb.readerPos rb.writerPos + j)) % rb.dataSize := by
    have hwrap : (rb.readerPos + ahead rb.readerPos rb.writerPos) % 2 ^ 64 = rb.writerPos := by
      have hw := h.writer_lt
      have hr := h.reader_lt
      rw [ahead, u64]
      omega
    calc (rb.writerPos + j) % rb.dataSize
        = ((rb.readerPos + ahead rb.readerPos rb.writerPos) % 2 ^ 64 + j) % rb.dataSize := by
          rw [hwrap]
      _ = (rb.readerPos + ahead rb.readerPos rb.writerPos + j) % rb.dataSize := by
          rw [Nat.add_mod, Nat.mod_mod_of_dvd _ hdvd, ← Nat.add_mod]
      _ = _ := by rw [Nat.add_assoc]
  intro i hi j hj
  rw [hwriter]
  refine Circular.mod_ne_mod (by omega) ?_
  rw [MpscHeader.sizeOf] at hfree hj
  omega

/-- A reservation is all or nothing exactly if its size is not 0, or there is no room for a header
either, and the sum for the check does not run over the end of its type, or runs to a size of 0 or
to a number that does not pass, or would pass as well without that. -/
theorem reserve_allOrNothing_iff (h : rb.Positions tail) (hn : n < 2 ^ 64) :
    AllOrNothing rb tail n (rb.reserve tail highPriorityAreaSize n highPriority) ↔
      (0 < n ∨ rb.mask < u64 (ahead tail rb.writerPos + exactSpace 0 +
        keptFree highPriorityAreaSize highPriority)) ∧
      (¬rb.Overflows tail (keptFree highPriorityAreaSize highPriority) n ∨
        exactSpace n = 2 ^ 64 ∨
        n + MpscHeader.sizeOf ≤ rb.mask - ahead tail rb.writerPos) := by
  have hwriter := h.writer_lt
  have hle : n + 8 ≤ exactSpace n := by
    rw [exactSpace]
    omega
  rw [reserve_eq hn hwriter h.tail_lt, Overflows]
  generalize keptFree highPriorityAreaSize highPriority = kept
  split_ifs with hrefused
  · -- nothing is written
    refine iff_of_true ⟨fun _ => ⟨rfl, rfl⟩, fun hne => absurd rfl hne⟩ ⟨?_, ?_⟩
    · rcases Nat.eq_zero_or_pos n with rfl | hpos
      · exact .inr (hrefused.resolve_left (by decide))
      · exact .inl hpos
    · rcases hrefused with hzero | hmask
      · exact .inr (.inl hzero)
      · exact .inl fun hover => absurd hover.2 (by omega)
  · obtain ⟨hspace, hpass⟩ := not_or.mp hrefused
    rcases Nat.eq_zero_or_pos n with rfl | hpos
    · -- the writer has moved on, but the buffer is empty
      refine iff_of_false (fun hall => ?_) fun hcond => ?_
      · have hmoved : u64 (rb.writerPos + exactSpace 0) = rb.writerPos := (hall.1 rfl).1
        rw [u64, exactSpace] at hmoved
        omega
      · exact hcond.1.elim (by omega) hpass
    · have hfits : AllOrNothing rb tail n (some
          ({ rb.setHeader (rb.writerPos &&& rb.mask) (n ||| MpscHeader.busyBit) with
              writerPos := u64 (rb.writerPos + exactSpace n) },
            ⟨(rb.writerPos &&& rb.mask) + MpscHeader.sizeOf, n⟩)) ↔
          n + MpscHeader.sizeOf ≤ rb.mask - ahead tail rb.writerPos :=
        ⟨fun hall => (hall.2 hpos.ne').2.2.1,
          fun hfree => ⟨fun hzero => absurd hzero hpos.ne',
            fun _ => ⟨rfl, rfl, hfree, h.apart hfree⟩⟩⟩
      rw [hfits]
      refine ⟨fun hfree => ⟨.inl hpos, .inr (.inr hfree)⟩, fun hcond => ?_⟩
      rcases hcond.2 with hexact | hzero | hfree
      · have hlt : ahead tail rb.writerPos + exactSpace n + kept < 2 ^ 64 := by
          by_contra hge
          exact hexact ⟨by omega, by omega⟩
        rw [u64_of_lt hlt] at hpass
        rw [MpscHeader.sizeOf]
        omega
      · exact absurd hzero hspace
      · exact hfree

/-- A ring buffer of 64 bytes after the reservation of 8 bytes. -/
def cacheLine : RingBuffer :=
  { ({ order := 6, data := fun _ => 0 } : RingBuffer).setHeader 0 (8 ||| MpscHeader.busyBit) with
    writerPos := 16 }

theorem positions_cacheLine : cacheLine.Positions 0 :=
  ⟨by decide, by decide, by decide, by decide, by decide +kernel, by decide +kernel⟩

theorem reserve_cacheLine_allOrNothing :
    cacheLine.Positions 0 ∧ AllOrNothing cacheLine 0 20 (cacheLine.reserve 0 8 20 false) :=
  ⟨positions_cacheLine, (reserve_allOrNothing_iff positions_cacheLine (by norm_num)).mpr
    ⟨.inl (by norm_num), .inr (.inr (by decide +kernel))⟩⟩

/-- A reservation of 0 bytes returns an empty buffer and leaves a header behind that nobody
commits. One of `2 ^ 64 - 1` bytes succeeds with the space of a header. One of `2 ^ 64 - 24` bytes
moves the writer back over the sample that is there. -/
theorem reserve_cacheLine_not_allOrNothing :
    cacheLine.Positions 0 ∧
      ¬AllOrNothing cacheLine 0 0 (cacheLine.reserve 0 0 0 false) ∧
      ¬AllOrNothing cacheLine 0 (2 ^ 64 - 1) (cacheLine.reserve 0 0 (2 ^ 64 - 1) false) ∧
      ¬AllOrNothing cacheLine 0 (2 ^ 64 - 24) (cacheLine.reserve 0 0 (2 ^ 64 - 24) false) ∧
      (cacheLine.reserve 0 0 (2 ^ 64 - 24) false).map (·.1.writerPos) = some 0 := by
  refine ⟨positions_cacheLine, fun hall => ?_, fun hall => ?_, fun hall => ?_, by decide +kernel⟩
  · exact absurd (hall.1 (by decide +kernel)).1 (by decide +kernel)
  · exact absurd (hall.2 (by decide +kernel)).2.2.1 (by decide +kernel)
  · exact absurd (hall.2 (by decide +kernel)).2.2.1 (by decide +kernel)

end RingBuffer

/-! ### Room for samples of high priority -/

/-- A ring buffer with its writers, which have the same area for samples of high priority. -/
structure Headroom where
  rb : RingBuffer
  tails : ℕ → ℕ
  /-- The bytes that have been released since a writer has loaded its tail. -/
  age : ℕ → ℕ
  /-- The space of the samples of high priority that have been reserved since the last one of low
  priority. -/
  sinceLow : ℕ := 0

inductive HeadroomLabel where
  | updateTail (w : ℕ)
  | reserve (w n : ℕ) (highPriority : Bool)
  /-- The reader moves on by a number of bytes. -/
  | release (n : ℕ)
  deriving DecidableEq, Repr

namespace Headroom

variable (area : ℕ)

def reserve (s : Headroom) (w n : ℕ) (highPriority : Bool) : Headroom :=
  (s.rb.reserve (s.tails w) area n highPriority).elim s fun (rb, _) =>
    { s with rb := rb, sinceLow := if highPriority then s.sinceLow + sampleSpace n else 0 }

def step (s : Headroom) : HeadroomLabel → Option Headroom
  | .updateTail w =>
    some { s with
      tails := Function.update s.tails w s.rb.readerPos
      age := Function.update s.age w 0 }
  | .reserve w n highPriority => some (s.reserve area w n highPriority)
  | .release n =>
    if n ≤ ahead s.rb.readerPos s.rb.writerPos then
      some { s with
        rb := { s.rb with readerPos := u64 (s.rb.readerPos + n) }
        age := fun w => s.age w + n }
    else none

/-- Events are smaller than 4 GB, and tails less than `2 ^ 62` bytes old. -/
def Recent (s : Headroom) : HeadroomLabel → Prop
  | .reserve w n _ => n < 2 ^ 32 ∧ s.age w < 2 ^ 62
  | .updateTail _ | .release _ => True

instance (s : Headroom) : ∀ l, Decidable (s.Recent l)
  | .reserve _ _ _ => inferInstanceAs (Decidable (_ ∧ _))
  | .updateTail _ | .release _ => inferInstanceAs (Decidable True)

/-- An empty ring buffer, with its positions anywhere. -/
def init (order : ℕ) (data : ℕ → Byte) (pos : ℕ) : Headroom where
  rb := { order := order, data := data, writerPos := pos, readerPos := pos }
  tails _ := pos
  age _ := 0

/-- What has been reserved since the last sample of low priority is all that can be missing from
the area. -/
structure Inv (s : Headroom) : Prop where
  order_le : s.rb.order ≤ 62
  writer_lt : s.rb.writerPos < 2 ^ 64
  reader_lt : s.rb.readerPos < 2 ^ 64
  tail : ∀ w, s.tails w < 2 ^ 64 ∧ u64 (s.tails w + s.age w) = s.rb.readerPos
  used_le : ahead s.rb.readerPos s.rb.writerPos ≤ s.rb.mask
  area_le : area ≤ s.rb.mask
  room : ahead s.rb.readerPos s.rb.writerPos + area ≤ s.rb.mask + s.sinceLow

section Step

variable {area} {s s' : Headroom}

theorem mask_lt_of_order_le {rb : RingBuffer} (h : rb.order ≤ 62) : rb.mask < 2 ^ 62 :=
  rb.mask_lt.trans_le (Nat.pow_le_pow_right (by norm_num) h)

theorem ahead_self {pos : ℕ} : ahead pos pos = 0 := by
  rw [ahead, Nat.add_sub_cancel_left, u64, Nat.mod_self]

theorem inv_init {order : ℕ} (data : ℕ → Byte) {pos : ℕ} (horder : order ≤ 62) (hpos : pos < 2 ^ 64)
    (harea : area ≤ 2 ^ order - 1) : Inv area (init order data pos) where
  order_le := horder
  writer_lt := hpos
  reader_lt := hpos
  tail _ := ⟨hpos, u64_of_lt hpos⟩
  used_le := by
    rw [init, ahead_self]
    exact Nat.zero_le _
  area_le := harea
  room := by
    rw [init, ahead_self, Nat.zero_add]
    exact harea

variable (h : Inv area s)
include h

theorem Inv.updateTail (w : ℕ) :
    Inv area { s with
      tails := Function.update s.tails w s.rb.readerPos
      age := Function.update s.age w 0 } := by
  refine ⟨h.order_le, h.writer_lt, h.reader_lt, fun v => ?_, h.used_le, h.area_le, h.room⟩
  simp only
  by_cases hvw : v = w
  · rw [hvw, Function.update_self, Function.update_self]
    exact ⟨h.reader_lt, u64_of_lt h.reader_lt⟩
  · rw [Function.update_of_ne hvw, Function.update_of_ne hvw]
    exact h.tail v

theorem Inv.release {n : ℕ} (hn : n ≤ ahead s.rb.readerPos s.rb.writerPos) :
    Inv area { s with
      rb := { s.rb with readerPos := u64 (s.rb.readerPos + n) }
      age := fun w => s.age w + n } := by
  have hreader := h.reader_lt
  have hwriter := h.writer_lt
  have hused := h.used_le
  have hroom := h.room
  have hleft : ahead (u64 (s.rb.readerPos + n)) s.rb.writerPos + n =
      ahead s.rb.readerPos s.rb.writerPos := by
    rw [ahead, u64] at hn ⊢
    rw [ahead, u64, u64]
    omega
  refine ⟨h.order_le, hwriter, ?_, fun w => ⟨(h.tail w).1, ?_⟩, ?_, h.area_le, ?_⟩
  · show u64 (s.rb.readerPos + n) < 2 ^ 64
    rw [u64]
    exact Nat.mod_lt _ (by norm_num)
  · show u64 (s.tails w + (s.age w + n)) = u64 (s.rb.readerPos + n)
    have hage := (h.tail w).2
    rw [u64] at hage ⊢
    rw [u64]
    omega
  · show ahead (u64 (s.rb.readerPos + n)) s.rb.writerPos ≤ s.rb.mask
    omega
  · show ahead (u64 (s.rb.readerPos + n)) s.rb.writerPos + area ≤ s.rb.mask + s.sinceLow
    omega

/-- A writer sees the samples and what has been released behind its back. -/
theorem Inv.ahead_tail {w : ℕ} (hage : s.age w < 2 ^ 62) :
    ahead (s.tails w) s.rb.writerPos = s.age w + ahead s.rb.readerPos s.rb.writerPos := by
  have hwriter := h.writer_lt
  have hused := h.used_le
  have hmask := mask_lt_of_order_le h.order_le
  obtain ⟨htail, hreader⟩ := h.tail w
  rw [ahead, u64] at hused ⊢
  rw [ahead, u64]
  rw [u64] at hreader
  omega

/-- The writer moves on, into bytes that are free. -/
theorem Inv.moveWriter {rb : RingBuffer} {n sinceLow : ℕ} (horder : rb.order = s.rb.order)
    (hreader : rb.readerPos = s.rb.readerPos) (hwriter : rb.writerPos = u64 (s.rb.writerPos + n))
    (hfree : ahead s.rb.readerPos s.rb.writerPos + n ≤ s.rb.mask)
    (hroom : ahead s.rb.readerPos s.rb.writerPos + n + area ≤ s.rb.mask + sinceLow) :
    Inv area { s with rb := rb, sinceLow := sinceLow } := by
  have hwriterLt := h.writer_lt
  have hreaderLt := h.reader_lt
  have hmaskLt := mask_lt_of_order_le h.order_le
  have hmask : rb.mask = s.rb.mask := by
    rw [RingBuffer.mask, RingBuffer.dataSize, horder, RingBuffer.mask, RingBuffer.dataSize]
  have hnew : ahead rb.readerPos rb.writerPos = ahead s.rb.readerPos s.rb.writerPos + n := by
    rw [hreader, hwriter]
    rw [ahead, u64] at hfree ⊢
    rw [ahead, u64, u64]
    omega
  refine ⟨horder ▸ h.order_le, ?_, hreader ▸ hreaderLt, fun w => ?_, ?_, ?_, ?_⟩
  · rw [hwriter, u64]
    exact Nat.mod_lt _ (by norm_num)
  · rw [hreader]
    exact h.tail w
  · rw [hnew, hmask]
    exact hfree
  · rw [hmask]
    exact h.area_le
  · rw [hnew, hmask]
    exact hroom

theorem Inv.reserve {w n : ℕ} (hn : n < 2 ^ 32) (hage : s.age w < 2 ^ 62) (highPriority : Bool) :
    Inv area (s.reserve area w n highPriority) := by
  have hroom := h.room
  have hspace : exactSpace n ≤ 2 ^ 33 := by
    rw [exactSpace]
    omega
  have hsum : ahead (s.tails w) s.rb.writerPos + exactSpace n +
      RingBuffer.keptFree area highPriority < 2 ^ 64 := by
    have hused := h.used_le
    have harea := h.area_le
    have hmask := mask_lt_of_order_le h.order_le
    rw [h.ahead_tail hage, RingBuffer.keptFree]
    split_ifs <;> omega
  rw [Headroom.reserve]
  generalize hres : s.rb.reserve (s.tails w) area n highPriority = res
  cases res with
  | none => exact h
  | some res =>
    obtain ⟨horder, hreader, hwriter, hpass⟩ := RingBuffer.of_reserve_eq_some
      (hn.trans (by norm_num)) h.writer_lt (h.tail w).1 hres
    rw [u64_of_lt hsum, h.ahead_tail hage] at hpass
    refine h.moveWriter horder hreader hwriter (by omega) ?_
    rw [sampleSpace_eq_u64, u64_of_lt (by omega)]
    cases highPriority with
    | false =>
      rw [RingBuffer.keptFree, if_neg Bool.false_ne_true] at hpass
      rw [if_neg Bool.false_ne_true]
      omega
    | true =>
      rw [if_pos rfl]
      omega

theorem Inv.step {l : HeadroomLabel} (hok : s.Recent l) (hstep : s.step area l = some s') :
    Inv area s' := by
  cases l with
  | updateTail w =>
    cases hstep
    exact h.updateTail w
  | reserve w n highPriority =>
    cases hstep
    exact h.reserve hok.1 hok.2 highPriority
  | release n =>
    rw [Headroom.step] at hstep
    split_ifs at hstep with hn
    cases hstep
    exact h.release hn

end Step

/-- What is left of the area is there for a sample of high priority, whatever has happened before,
if its writer has loaded the tail. -/
theorem reserve_highPriority_isSome {area order pos : ℕ} {data : ℕ → Byte} {ls : List HeadroomLabel}
    {s : Headroom} {n : ℕ} (horder : order ≤ 62) (hpos : pos < 2 ^ 64)
    (harea : area ≤ 2 ^ order - 1) (hok : Run.Along (step area) Recent (init order data pos) ls)
    (hrun : Run.steps (step area) (init order data pos) ls = some s) (hn : n < 2 ^ 32)
    (hroom : sampleSpace n + s.sinceLow ≤ area) :
    (s.rb.reserve s.rb.readerPos area n true).isSome = true := by
  have h : Inv area s := Run.steps_invariant (fun _ _ _ h hok hstep => h.step hok hstep)
    (inv_init data horder hpos harea) hok hrun
  have hinv := h.room
  have hmask := mask_lt_of_order_le h.order_le
  have hspace : exactSpace n ≤ 2 ^ 33 := by
    rw [exactSpace]
    omega
  rw [sampleSpace_eq_u64, u64_of_lt (by omega)] at hroom
  rw [RingBuffer.reserve_eq (by omega) h.writer_lt h.reader_lt, if_neg, Option.isSome_some]
  rw [RingBuffer.keptFree, if_pos rfl, Nat.add_zero, u64_of_lt (by omega)]
  omega

/-- Samples of low priority up to the area of 64 bytes, and two of high priority behind them. -/
def fillWithLow : List HeadroomLabel :=
  [.reserve 0 40 false, .reserve 1 40 false, .reserve 0 40 false, .reserve 1 40 false,
    .release 48, .reserve 2 24 true, .updateTail 0, .reserve 0 8 true]

theorem reserve_highPriority_fillWithLow :
    ∃ s, Run.steps (step 64) (init 8 (fun _ => 0) 0) fillWithLow = some s ∧
      sampleSpace 8 + s.sinceLow ≤ 64 ∧
      (s.rb.reserve s.rb.readerPos 64 8 true).isSome = true := by
  have hlow : (Run.steps (step 64) (init 8 (fun _ => 0) 0) fillWithLow).map (·.sinceLow) =
      some 48 := by decide +kernel
  obtain ⟨s, hrun, hs⟩ := Option.map_eq_some_iff.mp hlow
  have hok : Run.Along (step 64) Recent (init 8 (fun _ => 0) 0) fillWithLow := by decide +kernel
  have hroom : sampleSpace 8 + s.sinceLow ≤ 64 := by
    rw [hs]
    decide +kernel
  exact ⟨s, hrun, hroom, reserve_highPriority_isSome (by norm_num) (by norm_num) (by norm_num) hok
    hrun (by norm_num) hroom⟩

end Headroom

end Ddprof
