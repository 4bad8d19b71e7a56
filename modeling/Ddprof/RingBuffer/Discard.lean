import Ddprof.RingBuffer.Producers
import Ddprof.RingBuffer.Reservation

/-!
Producers that discard samples.

`MPSCRingBufferWriter::discard` sets the same bit in the header of a sample as the reader does when
it hands a sample back. The reader skips the samples of producers that have it. But a release goes
over all samples that have the bit, and does not stop at `intermediate_reader_pos`: if the first
sample that has not been read was discarded by its producer, it is released before it is passed.
-/

namespace Ddprof

open Circular (Byte)
open RingBuffer (Layout Found)

/-! ### Lists of samples -/

variable {slots : List Slot}

theorem getElem?_set_cases {i j : ℕ} {t u : Slot}
    (h : (slots.set i t)[j]? = some u) : j = i ∧ u = t ∨ j ≠ i ∧ slots[j]? = some u := by
  rw [List.getElem?_set] at h
  split_ifs at h with hij hlt
  · exact .inl ⟨hij.symm, (Option.some.inj h).symm⟩
  · exact .inr ⟨Ne.symm hij, h⟩

theorem getElem?_append_cases {j : ℕ} {t u : Slot}
    (h : (slots ++ [t])[j]? = some u) : slots[j]? = some u ∨ j = slots.length ∧ u = t := by
  rcases Nat.lt_or_ge j slots.length with hj | hj
  · rw [List.getElem?_append_left hj] at h
    exact .inl h
  · rw [List.getElem?_append_right hj, List.getElem?_singleton] at h
    split_ifs at h with hzero
    exact .inr ⟨by omega, (Option.some.inj h).symm⟩

/-! ### The headers that are read -/

variable {rb : RingBuffer}

namespace RingBuffer

/-- The positions whose words `mpsc_rb_read_sample` takes for headers, in the order of its loop. -/
def headersReadFrom (head : ℕ) : ℕ → RingBuffer → List ℕ
  | 0, _ => []
  | fuel + 1, rb =>
    let tail := rb.intermediateReaderPos
    if head = tail then []
    else
      let sz := rb.header (tail &&& rb.mask)
      if MpscHeader.isBusy sz then [tail]
      else if MpscHeader.isDiscarded sz then
        tail :: headersReadFrom head fuel { rb with
          intermediateReaderPos := u64 (tail + sampleSpace (MpscHeader.getSize sz)) }
      else [tail]

def headersRead (rb : RingBuffer) (head : ℕ) : List ℕ := headersReadFrom head (rb.dataSize + 1) rb

/-- As long as the reader is at a sample, it goes from sample to sample. -/
theorem Layout.exists_of_mem_headersReadFrom {r k hd : ℕ} (h : Layout mpscFormat rb slots r)
    (hk : rb.intermediateReaderPos = mpscFormat.pos slots k) (hrk : r ≤ k) (hkh : k ≤ hd)
    (hh : hd ≤ slots.length) {fuel p : ℕ}
    (hp : p ∈ headersReadFrom (mpscFormat.pos slots hd) fuel rb) :
    ∃ i, k ≤ i ∧ i < hd ∧ p = mpscFormat.pos slots i := by
  induction fuel generalizing rb k with
  | zero => cases hp
  | succ fuel ih =>
    rw [headersReadFrom, hk] at hp
    simp only at hp
    split_ifs at hp with hend hbusy hdisc
    · cases hp
    all_goals
      have hlt : k < hd := lt_of_le_of_ne hkh fun heq => hend (by rw [heq])
    · exact ⟨k, le_rfl, hlt, List.mem_singleton.mp hp⟩
    · rcases List.mem_cons.mp hp with rfl | hp
      · exact ⟨k, le_rfl, hlt, rfl⟩
      · have hs : slots[k]? = some slots[k] := List.getElem?_eq_getElem (by omega)
        have hnot : slots[k].busy = false := by
          have hsz := h.size_lt hs
          rw [h.header_eq hrk hs, MpscHeader.isBusy_encode (by omega)] at hbusy
          simpa using hbusy
        rw [h.next_pos hrk hs hnot] at hp
        obtain ⟨i, hki, hih, rfl⟩ := ih (h.setIntermediate (mpscFormat.pos slots (k + 1))) rfl
          (by omega) hlt hp
        exact ⟨i, by omega, hih, rfl⟩
    · exact ⟨k, le_rfl, hlt, List.mem_singleton.mp hp⟩

end RingBuffer

/-! ### The system -/

/-- A ring buffer with producers, and one reader; `slots` records all samples ever reserved. -/
structure Discarding where
  rb : RingBuffer
  slots : List Slot := []
  -- The tails of the writers and their areas for samples of high priority.
  tails : ℕ → ℕ := fun _ => 0
  areas : ℕ → ℕ := fun _ => 0
  -- The `writer_pos` that the reader has seen.
  head : ℕ := 0
  -- The buffers that the reader has not handed back, each with the number of its sample.
  held : List (ℕ × Buffer) := []

inductive DiscardLabel where
  | updateTail (w : ℕ)
  | reserve (w n : ℕ) (highPriority : Bool)
  -- The producer of a sample writes a byte of it.
  | writeByte (i k : ℕ) (b : Byte)
  -- The producer of a sample commits or discards it.
  | commit (i : ℕ) (discard : Bool)
  | loadHead
  | readSample
  | advanceIfPossible (j : ℕ)
  deriving DecidableEq, Repr

namespace Discarding

def reserve (s : Discarding) (w n : ℕ) (highPriority : Bool) : Discarding :=
  (s.rb.reserve (s.tails w) (s.areas w) n highPriority).elim s fun (rb, buf) =>
    { s with rb := rb, slots := s.slots ++ [{ content := rb.bytes buf }] }

def writeByte (s : Discarding) (i k : ℕ) (b : Byte) : Option Discarding :=
  s.slots[i]?.bind fun t =>
    if t.busy ∧ k < t.size then
      some { s with
        rb := s.rb.writeByte (s.rb.sampleBuffer s.slots i t.size) k b
        slots := s.slots.set i { t with content := t.content.set k b } }
    else none

def commit (s : Discarding) (i : ℕ) (discard : Bool) : Option Discarding :=
  s.slots[i]?.bind fun t =>
    if t.busy then
      some { s with
        rb := s.rb.commit (s.rb.sampleBuffer s.slots i t.size) discard
        slots := s.slots.set i { t with busy := false, discarded := t.discarded || discard } }
    else none

def passed (s : Discarding) : ℕ := mpscFormat.index s.slots s.rb.intermediateReaderPos

def readSample (s : Discarding) : Option Discarding :=
  (s.rb.readSample s.head).map fun (rb, buf) =>
    let s' := { s with rb := rb }
    { s' with held := s.held ++ (buf.map fun buf => (s'.passed - 1, buf)).toList }

/-- The reader hands back the `j`-th buffer that it holds. -/
def advanceIfPossible (s : Discarding) (j : ℕ) : Option Discarding :=
  s.held[j]?.bind fun (i, buf) =>
    (s.rb.advanceIfPossible buf.data).map fun rb =>
      { s with
        rb := rb
        slots := s.slots.modify i fun t => { t with discarded := true }
        held := s.held.eraseIdx j }

def step (s : Discarding) : DiscardLabel → Option Discarding
  | .updateTail w => some { s with tails := Function.update s.tails w s.rb.readerPos }
  | .reserve w n highPriority => some (s.reserve w n highPriority)
  | .writeByte i k b => s.writeByte i k b
  | .commit i discard => s.commit i discard
  | .loadHead => some { s with head := s.rb.writerPos }
  | .readSample => s.readSample
  | .advanceIfPossible j => s.advanceIfPossible j

def init (order : ℕ) (data : ℕ → Byte) (areas : ℕ → ℕ) : Discarding where
  rb := { order := order, data := data }
  areas := areas

/-- The word at a position is the header of a sample that has not been released. -/
def IsHeader (s : Discarding) (p : ℕ) : Prop :=
  ∃ (i : ℕ) (t : Slot), s.slots[i]? = some t ∧ p = mpscFormat.pos s.slots i ∧
    s.rb.readerPos ≤ p ∧ s.rb.header (p &&& s.rb.mask) = t.header

/-- The positions are in order, and a read takes only headers for headers. -/
structure Safe (s : Discarding) : Prop where
  readerPos_le : s.rb.readerPos ≤ s.rb.intermediateReaderPos
  intermediate_le : s.rb.intermediateReaderPos ≤ s.rb.writerPos
  isHeader : ∀ p ∈ s.rb.headersRead s.head, s.IsHeader p

/-! ### When a step is safe -/

/-- With sample `i` handed back, a release stops before it comes to samples that have not been
passed: the next of them is not discarded, or one that has been passed is still held. -/
def StopsInTime (s : Discarding) (i : ℕ) : Prop :=
  ∀ t : Slot, s.slots[s.passed]? = some t → t.discarded = true →
    ∃ (j : ℕ) (u : Slot), j ≠ i ∧ j < s.passed ∧ s.rb.readerPos ≤ mpscFormat.pos s.slots j ∧
      s.slots[j]? = some u ∧ u.discarded = false

/-- A reservation that succeeds does so without a sum that has run over the end of its type, or
fits anyway, and releases stop in time. -/
def Admissible (s : Discarding) : DiscardLabel → Prop
  | .reserve w n highPriority => n < 2 ^ 64 ∧
    ((s.rb.reserve (s.tails w) (s.areas w) n highPriority).isSome →
      s.rb.writerPos + exactSpace n < 2 ^ 64 ∧
        (¬s.rb.Overflows (s.tails w) (RingBuffer.keptFree (s.areas w) highPriority) n ∨
          s.rb.writerPos + exactSpace n ≤ s.rb.readerPos + s.rb.mask))
  | .advanceIfPossible j => ∀ i buf, s.held[j]? = some (i, buf) → s.StopsInTime i
  | _ => True

instance (s : Discarding) (i : ℕ) : Decidable (s.StopsInTime i) :=
  decidable_of_iff (∀ t ∈ s.slots[s.passed]?, t.discarded = true →
      ∃ j ∈ List.range s.passed, j ≠ i ∧ s.rb.readerPos ≤ mpscFormat.pos s.slots j ∧
        ∃ u ∈ s.slots[j]?, u.discarded = false) <| by
    simp only [StopsInTime, Option.mem_def, List.mem_range]
    refine forall₃_congr fun t _ _ => ⟨?_, ?_⟩
    · rintro ⟨j, hj, hne, hle, u, hu, hdisc⟩
      exact ⟨j, u, hne, hj, hle, hu, hdisc⟩
    · rintro ⟨j, u, hne, hj, hle, hu, hdisc⟩
      exact ⟨j, hj, hne, hle, u, hu, hdisc⟩

instance (s : Discarding) : (l : DiscardLabel) → Decidable (s.Admissible l)
  | .reserve _ _ _ => by
    unfold Admissible RingBuffer.Overflows
    infer_instance
  | .advanceIfPossible j =>
    decidable_of_iff (∀ p ∈ s.held[j]?, s.StopsInTime p.1)
      ⟨fun h i buf hp => h (i, buf) hp, fun h p hp => h p.1 p.2 hp⟩
  | .updateTail _ | .writeByte _ _ _ | .commit _ _ | .loadHead | .readSample => .isTrue trivial

/-! ### The invariant -/

/-- `r` samples have been released, the reader has passed `k` and has seen `hd`. What it holds are
samples it has passed. -/
structure Inv (s : Discarding) (r k hd : ℕ) : Prop where
  layout : Layout mpscFormat s.rb s.slots r
  order_le : s.rb.order ≤ 62
  tails_le : ∀ w, s.tails w ≤ s.rb.readerPos
  head_eq : s.head = mpscFormat.pos s.slots hd
  head_le : hd ≤ s.slots.length
  intermediate_eq : s.rb.intermediateReaderPos = mpscFormat.pos s.slots k
  released_le : r ≤ k
  passed_le : k ≤ hd
  released : ∀ (i : ℕ) (t : Slot), i < r → s.slots[i]? = some t → t.discarded = true
  notBusy : ∀ (i : ℕ) (t : Slot), s.slots[i]? = some t → t.discarded = true → t.busy = false
  held : ∀ i buf, (i, buf) ∈ s.held → i < k ∧ ∃ t : Slot, s.slots[i]? = some t ∧
    t.busy = false ∧ t.discarded = false ∧ buf = s.rb.sampleBuffer s.slots i t.size
  nodup : (s.held.map Prod.fst).Nodup

namespace Inv

variable {s s' : Discarding} {r k hd i : ℕ} {t : Slot}

theorem passed_eq (h : s.Inv r k hd) : s.passed = k := by
  rw [passed, h.intermediate_eq]
  exact mpscFormat.index_pos h.layout.tiled.valid (h.passed_le.trans h.head_le)

/-- A sample that is not discarded has not been released. -/
theorem le_of_not_discarded (h : s.Inv r k hd) (hi : s.slots[i]? = some t)
    (hdisc : t.discarded = false) : r ≤ i := by
  by_contra hlt
  have htrue := h.released i t (by omega) hi
  rw [hdisc] at htrue
  cases htrue

theorem not_discarded_of_busy (h : s.Inv r k hd) (hi : s.slots[i]? = some t)
    (hbusy : t.busy = true) : t.discarded = false := by
  by_contra hdisc
  have hfalse := h.notBusy i t hi (by simpa using hdisc)
  rw [hbusy] at hfalse
  cases hfalse

theorem ne_of_busy (h : s.Inv r k hd) (hi : s.slots[i]? = some t) (hbusy : t.busy = true)
    {p : ℕ × Buffer} (hp : p ∈ s.held) : p.1 ≠ i := by
  rintro rfl
  obtain ⟨-, u, hu, hfalse, -⟩ := h.held p.1 p.2 hp
  rw [hi] at hu
  cases hu
  rw [hbusy] at hfalse
  cases hfalse

theorem safe (h : s.Inv r k hd) : s.Safe := by
  have hmono {i j : ℕ} (hij : i ≤ j) : mpscFormat.pos s.slots i ≤ mpscFormat.pos s.slots j :=
    Circular.offset_mono hij
  refine ⟨?_, ?_, fun p hp => ?_⟩
  · rw [h.layout.readerPos, h.intermediate_eq]
    exact hmono h.released_le
  · rw [h.intermediate_eq, h.layout.writerPos]
    exact hmono (h.passed_le.trans h.head_le)
  · rw [RingBuffer.headersRead, h.head_eq] at hp
    obtain ⟨i, hki, hih, rfl⟩ := h.layout.exists_of_mem_headersReadFrom h.intermediate_eq
      h.released_le h.passed_le h.head_le hp
    have hri : r ≤ i := h.released_le.trans hki
    have hlt : i < s.slots.length := lt_of_lt_of_le hih h.head_le
    have hi : s.slots[i]? = some s.slots[i] := List.getElem?_eq_getElem hlt
    refine ⟨i, _, hi, rfl, ?_, h.layout.header_eq hri hi⟩
    rw [h.layout.readerPos]
    exact hmono hri

/-- One sample changes but not its size, and samples up to `r'` are released; buffers of other
samples stay as they are. -/
theorem setSlot (h : s.Inv r k hd) {t' : Slot} {r' : ℕ}
    {held : List (ℕ × Buffer)} (hi : s.slots[i]? = some t) (hsize : t'.size = t.size)
    (hlayout : Layout mpscFormat rb (s.slots.set i t') r') (hrr : r ≤ r') (hrk : r' ≤ k)
    (hinter : rb.intermediateReaderPos = s.rb.intermediateReaderPos)
    (horder : rb.order = s.rb.order) (hdone : t'.discarded = true → t'.busy = false)
    (hreleased : ∀ j u, j < r' → (s.slots.set i t')[j]? = some u → u.discarded = true)
    (hheld : ∀ p ∈ held, p ∈ s.held ∧ p.1 ≠ i) (hnodup : (held.map Prod.fst).Nodup) :
    Inv { s with rb := rb, slots := s.slots.set i t', held := held } r' k hd := by
  have hpos : ∀ j, mpscFormat.pos (s.slots.set i t') j = mpscFormat.pos s.slots j :=
    Circular.offset_set hi (show t'.space = t.space by rw [Slot.space, hsize, Slot.space])
  have hreader : s.rb.readerPos ≤ rb.readerPos := by
    rw [h.layout.readerPos, hlayout.readerPos, hpos]
    exact Circular.offset_mono hrr
  have hmask : rb.mask = s.rb.mask := by
    rw [RingBuffer.mask, RingBuffer.mask, RingBuffer.dataSize, RingBuffer.dataSize, horder]
  exact {
    layout := hlayout
    order_le := horder.trans_le h.order_le
    tails_le := fun w => (h.tails_le w).trans hreader
    head_eq := h.head_eq.trans (hpos hd).symm
    head_le := by
      rw [List.length_set]
      exact h.head_le
    intermediate_eq := hinter.trans (h.intermediate_eq.trans (hpos k).symm)
    released_le := hrk
    passed_le := h.passed_le
    released := hreleased
    notBusy := fun j u hu hdisc => by
      rcases getElem?_set_cases hu with ⟨-, rfl⟩ | ⟨-, hu⟩
      · exact hdone hdisc
      · exact h.notBusy j u hu hdisc
    held := fun j buf hmem => by
      obtain ⟨hold, hne⟩ := hheld _ hmem
      obtain ⟨hjk, u, hu, hbusy, hdisc, hbuf⟩ := h.held j buf hold
      refine ⟨hjk, u, ?_, hbusy, hdisc, ?_⟩
      · rwa [List.getElem?_set_ne (Ne.symm hne)]
      · rw [hbuf, RingBuffer.sampleBuffer, RingBuffer.sampleBuffer, hpos, hmask]
    nodup := hnodup }

theorem setBusySlot (h : s.Inv r k hd) {t' : Slot} (hi : s.slots[i]? = some t)
    (hbusy : t.busy = true) (hsize : t'.size = t.size)
    (hlayout : Layout mpscFormat rb (s.slots.set i t') r)
    (hinter : rb.intermediateReaderPos = s.rb.intermediateReaderPos)
    (horder : rb.order = s.rb.order) (hdone : t'.discarded = true → t'.busy = false) :
    Inv { s with rb := rb, slots := s.slots.set i t' } r k hd := by
  have hri := h.le_of_not_discarded hi (h.not_discarded_of_busy hi hbusy)
  refine h.setSlot hi hsize hlayout le_rfl h.released_le hinter horder hdone
    (fun j u hj hu => ?_) (fun p hp => ⟨hp, h.ne_of_busy hi hbusy hp⟩) h.nodup
  rw [List.getElem?_set_ne (by omega)] at hu
  exact h.released j u hj hu

/-! ### The steps -/

theorem updateTail (h : s.Inv r k hd) (w : ℕ) :
    Inv { s with tails := Function.update s.tails w s.rb.readerPos } r k hd := by
  refine { h with tails_le := fun w' => ?_ }
  by_cases hw : w' = w
  · subst hw
    simp only [Function.update_self, le_refl]
  · simp only [Function.update_of_ne hw]
    exact h.tails_le w'

theorem loadHead (h : s.Inv r k hd) :
    Inv { s with head := s.rb.writerPos } r k s.slots.length :=
  { h with
    head_eq := h.layout.writerPos
    head_le := le_rfl
    passed_le := h.passed_le.trans h.head_le }

theorem writeByte (h : s.Inv r k hd) {j : ℕ} {b : Byte} (hstep : s.writeByte i j b = some s') :
    s'.Inv r k hd := by
  rw [Discarding.writeByte, Option.bind_eq_some_iff] at hstep
  obtain ⟨t, hi, hstep⟩ := hstep
  split_ifs at hstep with hok
  cases hstep
  have hdisc := h.not_discarded_of_busy hi hok.1
  refine h.setBusySlot hi hok.1 (List.length_set ..)
    (h.layout.writeByte (h.le_of_not_discarded hi hdisc) hi hok.2 b) rfl rfl fun htrue => ?_
  exact absurd (hdisc.symm.trans htrue) Bool.false_ne_true

theorem commit (h : s.Inv r k hd) {discard : Bool} (hstep : s.commit i discard = some s') :
    s'.Inv r k hd := by
  rw [Discarding.commit, Option.bind_eq_some_iff] at hstep
  obtain ⟨t, hi, hstep⟩ := hstep
  split_ifs at hstep with hbusy
  cases hstep
  have hri := h.le_of_not_discarded hi (h.not_discarded_of_busy hi hbusy)
  exact h.setBusySlot hi hbusy rfl (h.layout.commit hri hi hbusy discard) rfl rfl fun _ => rfl

/-- A reservation that succeeds is the one of the layout, with room behind the reader. -/
theorem of_reserve (h : s.Inv r k hd) {w n : ℕ} {highPriority : Bool} (rb : RingBuffer)
    (buf : Buffer) (hok : s.Admissible (.reserve w n highPriority))
    (hres : s.rb.reserve (s.tails w) (s.areas w) n highPriority = some (rb, buf)) :
    n < 2 ^ 62 ∧ s.rb.writerPos + sampleSpace n ≤ s.rb.readerPos + s.rb.mask ∧
      s.rb.writerPos + sampleSpace n < 2 ^ 64 ∧ rb = s.rb.reserved n ∧
      buf = s.rb.sampleBuffer s.slots s.slots.length n := by
  obtain ⟨hn, hsome⟩ := hok
  obtain ⟨hlt, hover⟩ := hsome (by rw [hres]; rfl)
  have htail := h.tails_le w
  have hreader := h.layout.readerPos_le
  have hahead : ahead (s.tails w) s.rb.writerPos = s.rb.writerPos - s.tails w := by
    rw [ahead, u64]
    omega
  have hle : n + 8 ≤ exactSpace n := by
    rw [exactSpace]
    omega
  have hmask : s.rb.mask < 2 ^ 62 :=
    lt_of_lt_of_le s.rb.mask_lt (Nat.pow_le_pow_right (by norm_num) h.order_le)
  have hspace : sampleSpace n = exactSpace n := by
    rw [sampleSpace_eq_u64, u64_of_lt (by omega)]
  rw [RingBuffer.reserve_eq hn (by omega) (by omega)] at hres
  split_ifs at hres with hrefused
  cases hres
  have hpass := Nat.not_lt.mp (not_or.mp hrefused).2
  have hfits : s.rb.writerPos + exactSpace n ≤ s.rb.readerPos + s.rb.mask := by
    refine hover.elim (fun hno => ?_) id
    -- the sum is exact, and the tail is not ahead of the reader
    have hsmall : ahead (s.tails w) s.rb.writerPos + exactSpace n +
        RingBuffer.keptFree (s.areas w) highPriority < 2 ^ 64 := by
      by_contra hge
      exact hno ⟨Nat.not_lt.mp hge, hpass⟩
    rw [u64_of_lt hsmall, hahead] at hpass
    omega
  refine ⟨by omega, by omega, by omega, ?_, ?_⟩
  · rw [RingBuffer.reserved, hspace, u64_of_lt hlt]
  · rw [RingBuffer.sampleBuffer, ← h.layout.writerPos]

theorem reserve (h : s.Inv r k hd) {w n : ℕ} {highPriority : Bool}
    (hok : s.Admissible (.reserve w n highPriority)) :
    (s.reserve w n highPriority).Inv r k hd := by
  have hspec := fun rb buf => h.of_reserve rb buf hok
  rw [Discarding.reserve]
  generalize s.rb.reserve (s.tails w) (s.areas w) n highPriority = res at hspec
  cases res with
  | none => exact h
  | some p =>
    obtain ⟨rb, buf⟩ := p
    obtain ⟨hn, hroom, hbound, rfl, rfl⟩ := hspec rb buf rfl
    have hnew : (s.rb.reserved n).bytes (s.rb.sampleBuffer s.slots s.slots.length n) =
        (s.rb.reserved n).bytesAt (s.rb.writerPos + MpscHeader.sizeOf) n := by
      rw [RingBuffer.sampleBuffer, ← h.layout.writerPos]
      exact (s.rb.reserved n).bytes_and_mask _ _ _
    have hpos : ∀ j ≤ s.slots.length, mpscFormat.pos (s.slots ++ [s.rb.newSlot n]) j =
        mpscFormat.pos s.slots j := fun j hj => Circular.offset_append _ hj
    have hkl := h.passed_le.trans h.head_le
    simp only [Option.elim_some, hnew]
    show Inv { s with rb := s.rb.reserved n, slots := s.slots ++ [s.rb.newSlot n] } r k hd
    exact {
      layout := h.layout.reserved hn hroom hbound
      order_le := h.order_le
      tails_le := h.tails_le
      head_eq := h.head_eq.trans (hpos hd h.head_le).symm
      head_le := by
        rw [List.length_append]
        exact h.head_le.trans (Nat.le_add_right _ _)
      intermediate_eq := h.intermediate_eq.trans (hpos k hkl).symm
      released_le := h.released_le
      passed_le := h.passed_le
      released := fun j u hj hu => by
        have hrk := h.released_le
        rcases getElem?_append_cases hu with hu | ⟨rfl, -⟩
        · exact h.released j u hj hu
        · omega
      notBusy := fun j u hu hdisc => by
        rcases getElem?_append_cases hu with hu | ⟨-, rfl⟩
        · exact h.notBusy j u hu hdisc
        · cases hdisc
      held := fun j buf hmem => by
        obtain ⟨hjk, u, hu, hbusy, hdisc, hbuf⟩ := h.held j buf hmem
        refine ⟨hjk, u, ?_, hbusy, hdisc, ?_⟩
        · exact (List.getElem?_append_left (by omega)).trans hu
        · rw [hbuf, RingBuffer.sampleBuffer, RingBuffer.sampleBuffer, hpos j (by omega)]
          rfl
      nodup := h.nodup }

/-- The reader has moved on over samples, and holds what it held and the new buffers. -/
theorem setPassed (h : s.Inv r k hd) (k' : ℕ) (hk : k ≤ k') (hk' : k' ≤ hd) :
    Inv { s with rb := { s.rb with intermediateReaderPos := mpscFormat.pos s.slots k' } } r k' hd :=
  { h with
    layout := h.layout.setIntermediate _
    intermediate_eq := rfl
    released_le := h.released_le.trans hk
    passed_le := hk'
    held := fun j buf hmem => by
      obtain ⟨hjk, hslot⟩ := h.held j buf hmem
      exact ⟨by omega, hslot⟩ }

theorem readSample (h : s.Inv r k hd) (hstep : s.readSample = some s') :
    ∃ k', s'.Inv r k' hd := by
  obtain ⟨res, hres, hfound⟩ := h.layout.readSample_spec h.intermediate_eq h.released_le h.passed_le
    h.head_le
  rw [← h.head_eq] at hres
  rw [Discarding.readSample, hres] at hstep
  cases hstep
  cases hfound with
  | nothing k' hk hk' _ _ =>
    refine ⟨k', ?_⟩
    simp only [Option.map_none, Option.toList_none, List.append_nil]
    exact h.setPassed k' hk hk'
  | sample k' t hk hk' _ ht hbusy hdisc =>
    have hpassed := h.setPassed (k' + 1) (by omega) hk'
    refine ⟨k' + 1, ?_⟩
    simp only [Option.map_some, Option.toList_some, hpassed.passed_eq, Nat.add_sub_cancel]
    refine { hpassed with held := fun j buf hmem => ?_, nodup := ?_ }
    · rcases List.mem_append.mp hmem with hmem | hmem
      · exact hpassed.held j buf hmem
      · cases List.mem_singleton.mp hmem
        exact ⟨by omega, t, ht, hbusy, hdisc, rfl⟩
    · -- the samples held before are those passed before
      rw [List.map_append, List.map_singleton, List.nodup_append]
      refine ⟨h.nodup, List.nodup_singleton _, fun a ha b hb => ?_⟩
      obtain ⟨p, hp, rfl⟩ := List.mem_map.mp ha
      have hlt := (h.held p.1 p.2 hp).1
      rw [List.mem_singleton.mp hb]
      omega

/-- A release that stops in time does not pass the reader. -/
theorem advanceIfPossible (h : s.Inv r k hd) {j : ℕ}
    (hok : s.Admissible (.advanceIfPossible j)) (hstep : s.advanceIfPossible j = some s') :
    ∃ r', s'.Inv r' k hd := by
  rw [Discarding.advanceIfPossible, Option.bind_eq_some_iff] at hstep
  obtain ⟨⟨i, buf⟩, hj, hstep⟩ := hstep
  have hstops := hok i buf hj
  obtain ⟨hik, t, hi, hbusy, hdisc, rfl⟩ := h.held i buf (List.mem_of_getElem? hj)
  have hri := h.le_of_not_discarded hi hdisc
  obtain ⟨rb, r', hadv, hlayout, hrr, hall, -, hinter, horder⟩ :=
    h.layout.advanceIfPossible_spec (n := t.size) hri hi fun l u hu hl => by
      rcases hl with hl | rfl
      · exact h.notBusy l u hu hl
      · rw [hi] at hu
        cases hu
        exact hbusy
  simp only [hadv, Option.map_some, Option.some.injEq] at hstep
  subst hstep
  rw [Channel.modify_eq_set hi]
  have hrk : r' ≤ k := by
    by_contra hgt
    have hlen : r' ≤ s.slots.length := by
      have := hlayout.tiled.released
      rwa [List.length_set] at this
    have hk : s.slots[k]? = some s.slots[k] := List.getElem?_eq_getElem (by omega)
    have hkdisc := (hall k _ h.released_le (by omega) hk).resolve_right (by omega)
    obtain ⟨l, u, hli, hlk, hreader, hu, hudisc⟩ :=
      hstops s.slots[k] (by rw [h.passed_eq]; exact hk) hkdisc
    rw [h.passed_eq] at hlk
    have hrl := h.le_of_not_discarded hu hudisc
    rcases hall l u hrl (by omega) hu with htrue | heq
    · exact absurd (hudisc.symm.trans htrue) Bool.false_ne_true
    · exact hli heq
  refine ⟨r', h.setSlot hi rfl hlayout hrr hrk hinter horder (fun _ => hbusy)
    (fun l u hl hu => ?_) (fun p hp => ⟨List.mem_of_mem_eraseIdx hp, ?_⟩) ?_⟩
  · rcases getElem?_set_cases hu with ⟨-, rfl⟩ | ⟨hli, hu⟩
    · rfl
    · rcases Nat.lt_or_ge l r with hlr | hlr
      · exact h.released l u hlr hu
      · exact (hall l u hlr hl hu).resolve_right hli
  · -- no other buffer is of the same sample
    obtain ⟨m, hmj, hm⟩ := List.mem_eraseIdx_iff_getElem?.mp hp
    intro hpi
    have hjlt : j < (s.held.map Prod.fst).length := by
      rw [List.length_map]
      exact (List.getElem?_eq_some_iff.mp hj).1
    refine hmj ((List.getElem?_inj hjlt h.nodup).mp ?_).symm
    rw [List.getElem?_map, List.getElem?_map, hj, hm]
    exact congrArg some hpi.symm
  · exact h.nodup.sublist ((List.eraseIdx_sublist _ _).map _)

theorem step (h : s.Inv r k hd) {l : DiscardLabel} (hok : s.Admissible l)
    (hstep : s.step l = some s') : ∃ r' k' hd', s'.Inv r' k' hd' := by
  cases l with
  | updateTail w =>
    cases hstep
    exact ⟨r, k, hd, h.updateTail w⟩
  | reserve w n highPriority =>
    cases hstep
    exact ⟨r, k, hd, h.reserve hok⟩
  | writeByte i j b => exact ⟨r, k, hd, h.writeByte hstep⟩
  | commit i discard => exact ⟨r, k, hd, h.commit hstep⟩
  | loadHead =>
    cases hstep
    exact ⟨r, k, _, h.loadHead⟩
  | readSample =>
    obtain ⟨k', h'⟩ := h.readSample hstep
    exact ⟨r, k', hd, h'⟩
  | advanceIfPossible j =>
    obtain ⟨r', h'⟩ := h.advanceIfPossible hok hstep
    exact ⟨r', k, hd, h'⟩

end Inv

theorem inv_init {order : ℕ} (data : ℕ → Byte) (areas : ℕ → ℕ) (hlow : 3 ≤ order)
    (hhigh : order ≤ 62) : (init order data areas).Inv 0 0 0 where
  layout := {
    order := hlow
    writerPos := rfl
    readerPos := rfl
    space := Nat.zero_le _
    bound := by
      show 0 < 2 ^ 64
      norm_num
    tiled := ⟨by simp [init], le_rfl, Nat.zero_le _, by simp [init]⟩ }
  order_le := hhigh
  tails_le _ := le_rfl
  head_eq := rfl
  head_le := le_rfl
  intermediate_eq := rfl
  released_le := le_rfl
  passed_le := le_rfl
  released _ _ hj := absurd hj (Nat.not_lt_zero _)
  notBusy i t hi := by simp [init] at hi
  held i buf hmem := by simp [init] at hmem
  nodup := List.nodup_nil

/-- In every run whose releases stop in time, and whose reservations do not run over the end of
their type, the positions stay in order and the reader reads headers only. -/
theorem safe_of_admissible {order : ℕ} (data : ℕ → Byte) (areas : ℕ → ℕ) (hlow : 3 ≤ order)
    (hhigh : order ≤ 62) {ls : List DiscardLabel} {s : Discarding}
    (hok : Run.Along step Admissible (init order data areas) ls)
    (hrun : Run.steps step (init order data areas) ls = some s) : s.Safe := by
  have hstep : ∀ s l s', (∃ r k hd, Inv s r k hd) → Admissible s l → step s l = some s' →
      ∃ r k hd, Inv s' r k hd := fun _ _ _ ⟨_, _, _, h⟩ hl hnext => h.step hl hnext
  have hinv := Run.steps_invariant hstep ⟨0, 0, 0, inv_init data areas hlow hhigh⟩ hok hrun
  obtain ⟨r, k, hd, h⟩ := hinv
  exact h.safe

/-- Two samples of 8 bytes: the first is committed and the second discarded. The reader reads the
first, passes the second, and hands the first one back. -/
def passBefore : List DiscardLabel :=
  [.reserve 0 8 false, .reserve 1 8 false, .commit 0 false, .commit 1 true, .loadHead, .readSample,
    .readSample, .advanceIfPossible 0]

theorem safe_passBefore :
    ∃ s, Run.steps step (init 6 (fun _ => 0) fun _ => 0) passBefore = some s ∧ s.Safe := by
  have hsome : (Run.steps step (init 6 (fun _ => 0) fun _ => 0) passBefore).isSome := by
    decide +kernel
  obtain ⟨s, hs⟩ := Option.isSome_iff_exists.mp hsome
  exact ⟨s, hs, safe_of_admissible _ _ (by decide) (by decide) (by decide +kernel) hs⟩

/-- The same, but the reader hands the first sample back before it passes the second. -/
def discardBehind : List DiscardLabel :=
  [.reserve 0 8 false, .reserve 1 8 false, .commit 0 false, .commit 1 true, .loadHead, .readSample,
    .advanceIfPossible 0]

/-- The release of the first sample goes on over the second one: `reader_pos` is ahead of
`intermediate_reader_pos`, and the next read takes a word that has been released for a header. -/
theorem not_safe_discardBehind :
    ∃ s, Run.steps step (init 6 (fun _ => 0) fun _ => 0) discardBehind = some s ∧
      s.rb.intermediateReaderPos < s.rb.readerPos ∧
      ∃ p ∈ s.rb.headersRead s.head, ¬s.IsHeader p := by
  have hrun : (Run.steps step (init 6 (fun _ => 0) fun _ => 0) discardBehind).map
      (fun s => (s.rb.intermediateReaderPos, s.rb.readerPos, s.rb.headersRead s.head)) =
        some (16, 32, [16]) := by
    decide +kernel
  obtain ⟨s, hs, hpos⟩ := Option.map_eq_some_iff.mp hrun
  simp only [Prod.mk.injEq] at hpos
  obtain ⟨hinter, hreader, hheaders⟩ := hpos
  refine ⟨s, hs, by omega, 16, by rw [hheaders]; exact List.mem_singleton_self 16, ?_⟩
  rintro ⟨i, t, -, -, hle, -⟩
  omega

end Discarding

end Ddprof
