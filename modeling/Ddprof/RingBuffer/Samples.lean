import Ddprof.RingBuffer.Layout

/-!
The operations of a ring buffer with several producers, as operations on the list
of its samples.

A reservation appends a busy sample, a write changes a byte of one, a commit
clears its busy flag; a read skips discarded samples up to the first that is
complete, and a release sets the discard flag of one and gives up the samples at
the front that have it.
-/

namespace Ddprof

open Circular (Byte)

namespace RingBuffer

def sampleBuffer (rb : RingBuffer) (slots : List Slot) (i n : ℕ) : Buffer :=
  ⟨(mpscFormat.pos slots i &&& rb.mask) + MpscHeader.sizeOf, n⟩

namespace Layout

/-! ### Headers and bytes -/

section Producer

variable {rb : RingBuffer} {slots : List Slot} {r i n : ℕ} {s t : Slot}
  (h : Layout mpscFormat rb slots r)
include h

theorem size_lt (hi : slots[i]? = some s) : s.size < 2 ^ 62 := h.tiled.valid_of_getElem? hi

theorem header_eq (hr : r ≤ i) (hi : slots[i]? = some s) :
    rb.header (mpscFormat.pos slots i &&& rb.mask) =
      MpscHeader.encode s.size s.busy s.discarded := by
  rw [header_and_mask]
  exact (h.tiled.item i s hr hi).header

theorem bytes_sampleBuffer (hr : r ≤ i) (hi : slots[i]? = some s) :
    rb.bytes (rb.sampleBuffer slots i s.size) = s.content := by
  rw [sampleBuffer, bytes_and_mask]
  exact (h.tiled.item i s hr hi).content

theorem setHeader (hr : r ≤ i) (hi : slots[i]? = some s) (hcontent : t.content = s.content) :
    Layout mpscFormat (rb.setHeader (mpscFormat.pos slots i &&& rb.mask) t.header)
      (slots.set i t) r := by
  have hsize : t.size = s.size := by rw [Slot.size, Slot.size, hcontent]
  have hlt := h.size_lt hi
  have hle := Slot.eight_add_size_le hlt
  have hspace : s.space ≤ rb.mask := h.space_le hr hi
  have hmask := rb.mask_lt
  have hlen : (Circular.leBytes MpscHeader.sizeOf t.header).length = 8 :=
    Circular.length_leBytes _ _
  refine h.modify hr hi (show t.size < 2 ^ 62 by rwa [hsize])
    (show t.space = s.space by rw [Slot.space, hsize, Slot.space]) rfl rfl rfl (fun c hc => ?_) ?_
  · rw [data_setHeader]
    refine Circular.write_of_outside fun k hk => hc k (show k < s.space from ?_)
    omega
  · rw [data_setHeader]
    refine ⟨?_, ?_⟩
    · exact Circular.leWord_read_write h.eight_le (MpscHeader.encode_lt (by omega))
    · rw [hsize, hcontent, Circular.read_write_of_apart]
      · exact (h.tiled.item i s hr hi).content
      · rw [hlen]
        exact Circular.apart_of_le le_rfl le_rfl (by rw [MpscHeader.sizeOf]; omega)

/-! ### Operations of the producers -/

theorem commit (hr : r ≤ i) (hi : slots[i]? = some s) (hbusy : s.busy = true) (discard : Bool) :
    Layout mpscFormat (rb.commit (rb.sampleBuffer slots i n) discard)
      (slots.set i { s with busy := false, discarded := s.discarded || discard }) r := by
  have hlt := h.size_lt hi
  have hhdr := h.header_eq hr hi
  rw [hbusy] at hhdr
  rw [RingBuffer.commit, sampleBuffer]
  simp only [Nat.add_sub_cancel]
  rw [hhdr, MpscHeader.xor_busyBit (by omega), MpscHeader.encode_or_discardBit (by omega)]
  have hset := h.setHeader (t := { s with busy := false, discarded := s.discarded || discard })
    hr hi rfl
  cases discard
  · simpa [Slot.header, Slot.size] using hset
  · simpa [Slot.header, Slot.size] using hset

theorem writeByte (hr : r ≤ i) (hi : slots[i]? = some s) {k : ℕ} (hk : k < s.size) (b : Byte) :
    Layout mpscFormat (rb.writeByte (rb.sampleBuffer slots i n) k b)
      (slots.set i { s with content := s.content.set k b }) r := by
  have hlt := h.size_lt hi
  have hle := Slot.eight_add_size_le hlt
  have hspace : s.space ≤ rb.mask := h.space_le hr hi
  have hmask := rb.mask_lt
  have hat := h.tiled.item i s hr hi
  have hcell : ((rb.sampleBuffer slots i n).data + k) % rb.dataSize =
      (mpscFormat.pos slots i + MpscHeader.sizeOf + k) % rb.dataSize := by
    rw [sampleBuffer, and_mask, Nat.add_assoc, Nat.mod_add_mod, Nat.add_assoc]
  have hdata : (rb.writeByte (rb.sampleBuffer slots i n) k b).data = Function.update rb.data
      ((mpscFormat.pos slots i + MpscHeader.sizeOf + k) % rb.dataSize) b := by
    rw [RingBuffer.writeByte, hcell]
  have hsize : Slot.size { s with content := s.content.set k b } = s.size := by
    rw [Slot.size, List.length_set, Slot.size]
  have h8 : MpscHeader.sizeOf = 8 := rfl
  refine h.modify hr hi (show Slot.size _ < 2 ^ 62 by rwa [hsize])
    (show Slot.space _ = s.space by rw [Slot.space, hsize, Slot.space]) rfl rfl rfl
    (fun c hc => ?_) ?_
  · rw [hdata]
    refine Function.update_of_ne (fun hceq => hc (MpscHeader.sizeOf + k)
      (show _ < s.space by omega) ?_) ..
    rw [← Nat.add_assoc, hceq]
  · rw [hdata]
    refine ⟨?_, ?_⟩
    · rw [Slot.header, hsize, Circular.read_congr (m := rb.data) fun l hl => ?_]
      · exact hat.header
      · exact Function.update_of_ne (Circular.mod_ne_mod (by omega) (by omega)) ..
    · rw [hsize, Circular.read_update hk (by omega)]
      exact congrArg (·.set k b) hat.content

end Producer

end Layout

/-- The ring buffer after a reservation of `n` bytes. -/
def reserved (rb : RingBuffer) (n : ℕ) : RingBuffer :=
  { rb.setHeader (rb.writerPos &&& rb.mask) (n ||| MpscHeader.busyBit) with
    writerPos := rb.writerPos + sampleSpace n }

/-- The sample that a reservation creates; its bytes are what the memory held. -/
def newSlot (rb : RingBuffer) (n : ℕ) : Slot :=
  { content := (rb.reserved n).bytesAt (rb.writerPos + MpscHeader.sizeOf) n }

namespace Layout

section Reserve

variable {rb rb' : RingBuffer} {slots : List Slot} {r n tail highPriorityAreaSize : ℕ}
  {highPriority : Bool} {buf : Buffer} (h : Layout mpscFormat rb slots r)
include h

theorem reserved (hn : n < 2 ^ 62)
    (hspace : rb.writerPos + sampleSpace n ≤ rb.readerPos + rb.mask)
    (hbound : rb.writerPos + sampleSpace n < 2 ^ 64) :
    Layout mpscFormat (rb.reserved n) (slots ++ [rb.newSlot n]) r := by
  have hsize : (rb.newSlot n).size = n := Circular.length_read
  have hnew : mpscFormat.space (rb.newSlot n) = sampleSpace n :=
    show Slot.space _ = _ by rw [Slot.space, hsize]
  have hle : 8 + n ≤ sampleSpace n := by
    rw [sampleSpace_eq (by omega)]
    omega
  have hdata : (rb.reserved n).data = Circular.write rb.dataSize rb.data rb.writerPos
      (Circular.leBytes MpscHeader.sizeOf (n ||| MpscHeader.busyBit)) := data_setHeader rb _ _
  have hlen : (Circular.leBytes MpscHeader.sizeOf (n ||| MpscHeader.busyBit)).length = 8 :=
    Circular.length_leBytes _ _
  refine h.append (show (rb.newSlot n).size < 2 ^ 62 by rwa [hsize]) rfl
    (by rw [hnew, RingBuffer.reserved]) rfl (by rwa [hnew]) (by rwa [hnew])
    (fun c hc => ?_) ⟨?_, ?_⟩
  · rw [hnew] at hc
    rw [hdata]
    exact Circular.write_of_outside fun k hk => hc k (by omega)
  · rw [hdata, Slot.header, hsize, MpscHeader.or_busyBit (by omega)]
    exact Circular.leWord_read_write h.eight_le (MpscHeader.encode_lt (by omega))
  · rw [hsize, newSlot, bytesAt]
    congr 1

/-- A reservation that succeeds has found room between the writer and the reader, also
when its tail is out of date, provided that the positions do not run over the end of
their type. -/
theorem reserve_spec (htail : tail ≤ rb.readerPos) (hn : n < 2 ^ 62)
    (hfits : rb.writerPos + sampleSpace n + (if highPriority then 0 else highPriorityAreaSize) <
      2 ^ 64)
    (hres : rb.reserve tail highPriorityAreaSize n highPriority = some (rb', buf)) :
    rb' = rb.reserved n ∧ buf = rb.sampleBuffer slots slots.length n ∧
      rb.writerPos + sampleSpace n ≤ rb.readerPos + rb.mask := by
  have hspace := sampleSpace_eq (n := n) (by omega)
  have hreader := h.readerPos_le
  have hadj : (if highPriority then u64 (rb.writerPos + sampleSpace n)
        else u64 (u64 (rb.writerPos + sampleSpace n) + highPriorityAreaSize)) =
      rb.writerPos + sampleSpace n + (if highPriority then 0 else highPriorityAreaSize) := by
    rw [u64_of_lt (x := rb.writerPos + sampleSpace n) (by omega)]
    cases highPriority
    · simpa using u64_of_lt (by simpa using hfits)
    · simp
  rw [RingBuffer.reserve] at hres
  simp only [hadj] at hres
  rw [if_neg (by omega)] at hres
  generalize (if highPriority then 0 else highPriorityAreaSize) = extra at hres hfits
  have hdiff : u64 (rb.writerPos + sampleSpace n + extra + 2 ^ 64 - tail) =
      rb.writerPos + sampleSpace n + extra - tail := by
    rw [u64, show rb.writerPos + sampleSpace n + extra + 2 ^ 64 - tail =
      rb.writerPos + sampleSpace n + extra - tail + 2 ^ 64 by omega, Nat.add_mod_right]
    exact Nat.mod_eq_of_lt (by omega)
  rw [hdiff] at hres
  split_ifs at hres with hfull
  cases hres
  refine ⟨?_, ?_, by omega⟩
  · rw [RingBuffer.reserved, u64_of_lt (by omega)]
  · rw [sampleBuffer, ← h.writerPos]

end Reserve

end Layout

/-! ### Operations of the reader -/

/-- What a read finds between the positions `k` and `hd`: it skips the discarded
samples, and stops at the end, at a sample that is being written, or with a sample. -/
inductive Found (rb : RingBuffer) (slots : List Slot) (k hd : ℕ) :
    RingBuffer × Option Buffer → Prop
  | nothing (k' : ℕ) (hk : k ≤ k') (hk' : k' ≤ hd)
      (hskip : ∀ j s, k ≤ j → j < k' → slots[j]? = some s → s.busy = false ∧ s.discarded = true)
      (hstop : k' = hd ∨ ∃ s, slots[k']? = some s ∧ s.busy = true) :
      Found rb slots k hd ({ rb with intermediateReaderPos := mpscFormat.pos slots k' }, none)
  | sample (k' : ℕ) (s : Slot) (hk : k ≤ k') (hk' : k' < hd)
      (hskip : ∀ j s, k ≤ j → j < k' → slots[j]? = some s → s.busy = false ∧ s.discarded = true)
      (hs : slots[k']? = some s) (hbusy : s.busy = false) (hdiscarded : s.discarded = false) :
      Found rb slots k hd ({ rb with intermediateReaderPos := mpscFormat.pos slots (k' + 1) },
        some (rb.sampleBuffer slots k' s.size))

/-- A read that passes a discarded sample finds what the rest of it finds. -/
theorem Found.skip {rb : RingBuffer} {slots : List Slot} {k hd p : ℕ} {s : Slot}
    {res : RingBuffer × Option Buffer} (hs : slots[k]? = some s) (hbusy : s.busy = false)
    (hdiscarded : s.discarded = true)
    (h : Found { rb with intermediateReaderPos := p } slots (k + 1) hd res) :
    Found rb slots k hd res := by
  have hskip : ∀ k', (∀ j t, k + 1 ≤ j → j < k' → slots[j]? = some t →
      t.busy = false ∧ t.discarded = true) → ∀ j t, k ≤ j → j < k' →
      slots[j]? = some t → t.busy = false ∧ t.discarded = true := by
    intro k' hrest j t hj hj' ht
    rcases Nat.eq_or_lt_of_le hj with rfl | hj
    · rw [hs] at ht
      cases ht
      exact ⟨hbusy, hdiscarded⟩
    · exact hrest j t hj hj' ht
  cases h with
  | nothing k' hk hk' hrest hstop => exact .nothing k' (by omega) hk' (hskip k' hrest) hstop
  | sample k' t hk hk' hrest ht hb hd => exact .sample k' t (by omega) hk' (hskip k' hrest) ht hb hd

namespace Layout

section Reader

variable {rb : RingBuffer} {slots : List Slot} {r k hd i : ℕ} {s : Slot}
  (h : Layout mpscFormat rb slots r)
include h

theorem next_pos (hr : r ≤ i) (hi : slots[i]? = some s) (hbusy : s.busy = false) :
    u64 (mpscFormat.pos slots i +
        sampleSpace (MpscHeader.getSize (rb.header (mpscFormat.pos slots i &&& rb.mask)))) =
      mpscFormat.pos slots (i + 1) := by
  have hlt := h.size_lt hi
  have hsucc : mpscFormat.pos slots (i + 1) = mpscFormat.pos slots i + sampleSpace s.size :=
    Circular.offset_succ hi
  have hbound := h.pos_lt_bound (i := i + 1) (List.getElem?_eq_some_iff.mp hi).1
  rw [h.header_eq hr hi, hbusy, MpscHeader.getSize_encode (by omega), hsucc, u64_of_lt (by omega)]

theorem readSampleFrom_spec {fuel : ℕ} (hk : rb.intermediateReaderPos = mpscFormat.pos slots k)
    (hrk : r ≤ k) (hkh : k ≤ hd) (hh : hd ≤ slots.length) (hfuel : hd - k < fuel) :
    ∃ res, RingBuffer.readSampleFrom (mpscFormat.pos slots hd) fuel rb = some res ∧
      Found rb slots k hd res := by
  induction fuel generalizing rb k with
  | zero => omega
  | succ fuel ih =>
    have hstay : { rb with intermediateReaderPos := mpscFormat.pos slots k } = rb := by rw [← hk]
    rw [RingBuffer.readSampleFrom, hk]
    by_cases hend : mpscFormat.pos slots hd = mpscFormat.pos slots k
    · obtain rfl := h.tiled.pos_inj hh (hkh.trans hh) hend
      refine ⟨_, if_pos rfl, ?_⟩
      have hfound : Found rb slots hd hd _ := .nothing hd le_rfl le_rfl
        (fun j _ hj hj' => absurd hj' (by omega)) (.inl rfl)
      rwa [hstay] at hfound
    · have hlt : k < hd := lt_of_le_of_ne hkh fun heq => hend (by rw [heq])
      have hs : slots[k]? = some slots[k] := List.getElem?_eq_getElem (by omega)
      generalize slots[k] = s at hs
      have hsz := h.size_lt hs
      have hhdr := h.header_eq hrk hs
      simp only [hhdr, if_neg hend, MpscHeader.isBusy_encode (show s.size < 2 ^ 62 by omega),
        MpscHeader.isDiscarded_encode (show s.size < 2 ^ 62 by omega)]
      by_cases hbusy : s.busy = true
      · rw [if_pos hbusy]
        refine ⟨_, rfl, ?_⟩
        have hfound : Found rb slots k hd _ := .nothing k le_rfl hkh
          (fun j _ hj hj' => absurd hj' (by omega)) (.inr ⟨s, hs, hbusy⟩)
        rwa [hstay] at hfound
      · have hbusy' : s.busy = false := by simpa using hbusy
        rw [if_neg hbusy, ← hhdr, h.next_pos hrk hs hbusy']
        by_cases hdisc : s.discarded = true
        · rw [if_pos hdisc]
          obtain ⟨res, hres, hfound⟩ := ih (h.setIntermediate (mpscFormat.pos slots (k + 1))) rfl
            (by omega) hlt (by omega)
          exact ⟨res, hres, hfound.skip hs hbusy' hdisc⟩
        · have hdisc' : s.discarded = false := by simpa using hdisc
          rw [if_neg hdisc]
          refine ⟨_, rfl, ?_⟩
          have hfound : Found rb slots k hd _ := .sample k s le_rfl hlt
            (fun j _ hj hj' => absurd hj' (by omega)) hs hbusy' hdisc'
          rw [hhdr, hbusy', hdisc', MpscHeader.encode]
          simpa [MpscHeader.flags, sampleBuffer] using hfound

theorem readSample_spec (hk : rb.intermediateReaderPos = mpscFormat.pos slots k)
    (hrk : r ≤ k) (hkh : k ≤ hd) (hh : hd ≤ slots.length) :
    ∃ res, rb.readSample (mpscFormat.pos slots hd) = some res ∧ Found rb slots k hd res := by
  refine h.readSampleFrom_spec hk hrk hkh hh ?_
  have hturns := h.tiled.sub_le_pos_sub hkh hh
  have hstart : mpscFormat.pos slots r ≤ mpscFormat.pos slots k := Circular.offset_mono hrk
  have hend : mpscFormat.pos slots hd ≤ mpscFormat.pos slots slots.length :=
    Circular.offset_mono hh
  have hspace := h.space
  have hmask := rb.mask_lt
  omega

theorem discard (hr : r ≤ i) (hi : slots[i]? = some s) :
    Layout mpscFormat (rb.setHeader (mpscFormat.pos slots i &&& rb.mask)
        (rb.header (mpscFormat.pos slots i &&& rb.mask) ||| MpscHeader.discardBit))
      (slots.set i { s with discarded := true }) r := by
  have hlt := h.size_lt hi
  rw [h.header_eq hr hi, MpscHeader.encode_or_discardBit (by omega)]
  exact h.setHeader (t := { s with discarded := true }) hr hi rfl

/-- The loop of a release stops at the first sample that has not been discarded. -/
theorem releasedFrom_spec {fuel q : ℕ} (hq : r ≤ q) (hq' : q ≤ slots.length)
    (hfuel : slots.length - q < fuel)
    (hdone : ∀ j s, q ≤ j → slots[j]? = some s → s.discarded = true → s.busy = false) :
    ∃ q', q ≤ q' ∧ q' ≤ slots.length ∧
      (∀ j s, q ≤ j → j < q' → slots[j]? = some s → s.discarded = true) ∧
      (∀ s, slots[q']? = some s → s.discarded = false) ∧
      rb.releasedFrom rb.writerPos fuel (mpscFormat.pos slots q) =
        some (mpscFormat.pos slots q') := by
  induction fuel generalizing q with
  | zero => omega
  | succ fuel ih =>
    rw [releasedFrom, h.writerPos]
    rcases Nat.eq_or_lt_of_le hq' with rfl | hlt
    · refine ⟨_, le_rfl, le_rfl, fun j _ hj hj' => absurd hj' (by omega), fun s hs => ?_,
        if_neg (Nat.lt_irrefl _)⟩
      simp at hs
    · have hs : slots[q]? = some slots[q] := List.getElem?_eq_getElem hlt
      generalize slots[q] = s at hs
      have hsz := h.size_lt hs
      rw [if_pos (h.tiled.pos_lt hlt le_rfl)]
      simp only [h.header_eq hq hs,
        MpscHeader.isDiscarded_encode (show s.size < 2 ^ 62 by omega)]
      by_cases hdisc : s.discarded = true
      · obtain ⟨q', hqq, hlen, hall, hstop, heq⟩ := ih (q := q + 1) (by omega) hlt (by omega)
          fun j t hj => hdone j t (by omega)
        refine ⟨q', by omega, hlen, fun j t hj hj' ht => ?_, hstop, ?_⟩
        · rcases Nat.eq_or_lt_of_le hj with rfl | hj
          · rw [hs] at ht
            cases ht
            exact hdisc
          · exact hall j t hj hj' ht
        · rw [if_pos hdisc, ← h.header_eq hq hs, h.next_pos hq hs (hdone q s le_rfl hs hdisc),
            ← h.writerPos, heq]
      · refine ⟨q, le_rfl, hq', fun j _ hj hj' => absurd hj' (by omega), fun t ht => ?_, ?_⟩
        · rw [hs] at ht
          cases ht
          simpa using hdisc
        · rw [if_neg hdisc]

/-- A release marks its sample and moves the reader over the marked samples. -/
theorem advanceIfPossible_spec {n : ℕ} (hr : r ≤ i) (hi : slots[i]? = some s)
    (hdone : ∀ j t, slots[j]? = some t → t.discarded = true ∨ j = i → t.busy = false) :
    ∃ rb' r', rb.advanceIfPossible (rb.sampleBuffer slots i n).data = some rb' ∧
      Layout mpscFormat rb' (slots.set i { s with discarded := true }) r' ∧ r ≤ r' ∧
      (∀ j t, r ≤ j → j < r' → slots[j]? = some t → t.discarded = true ∨ j = i) ∧
      (∀ t, slots[r']? = some t → t.discarded = false ∧ r' ≠ i) ∧
      rb'.intermediateReaderPos = rb.intermediateReaderPos ∧ rb'.order = rb.order := by
  have h' := h.discard hr hi
  have hturns := h'.tiled.sub_le_pos_sub h'.tiled.released le_rfl
  have hspace := h'.space
  have hmask := rb.mask_lt
  have hlt : i < slots.length := (List.getElem?_eq_some_iff.mp hi).1
  -- the marked list at an index, in terms of the old one
  have hget : ∀ j t, (slots.set i { s with discarded := true })[j]? = some t →
      ∃ t', slots[j]? = some t' ∧ t.busy = t'.busy ∧
        (t.discarded = true ↔ t'.discarded = true ∨ j = i) := by
    intro j t ht
    by_cases hij : i = j
    · subst hij
      rw [List.getElem?_set_self hlt] at ht
      cases ht
      exact ⟨s, hi, rfl, by simp⟩
    · rw [List.getElem?_set_ne hij] at ht
      exact ⟨t, ht, rfl, by simp [Ne.symm hij]⟩
  have hget' : ∀ j t', slots[j]? = some t' →
      ∃ t, (slots.set i { s with discarded := true })[j]? = some t ∧
        (t.discarded = true ↔ t'.discarded = true ∨ j = i) := by
    intro j t' ht'
    have hj : j < (slots.set i { s with discarded := true }).length := by
      rw [List.length_set]
      exact (List.getElem?_eq_some_iff.mp ht').1
    obtain ⟨t'', ht'', -, hiff⟩ := hget j _ (List.getElem?_eq_getElem hj)
    rw [ht'] at ht''
    cases ht''
    exact ⟨_, List.getElem?_eq_getElem hj, hiff⟩
  have hfuel : (slots.set i { s with discarded := true }).length - r < rb.dataSize + 1 := by
    have hmask' : (rb.setHeader (mpscFormat.pos slots i &&& rb.mask)
      (rb.header (mpscFormat.pos slots i &&& rb.mask) ||| MpscHeader.discardBit)).mask = rb.mask :=
      rfl
    omega
  obtain ⟨r', hrr, hlen, hall, hstop, heq⟩ := h'.releasedFrom_spec le_rfl h'.tiled.released hfuel
    (fun j t _ ht hdisc => by
      obtain ⟨t', ht', hb, hiff⟩ := hget j t ht
      rw [hb]
      exact hdone j t' ht' (hiff.mp hdisc))
  refine ⟨_, r', ?_, h'.release hrr hlen, hrr, ?_, ?_, rfl, rfl⟩
  · rw [advanceIfPossible, sampleBuffer]
    simp only [Nat.add_sub_cancel]
    rw [h'.readerPos]
    exact congrArg (Option.map _) heq
  · intro j t' hj hj' ht'
    obtain ⟨t, ht, hiff⟩ := hget' j t' ht'
    exact hiff.mp (hall j t hj hj' ht)
  · intro t' ht'
    obtain ⟨t, ht, hiff⟩ := hget' r' t' ht'
    have hfalse := hstop t ht
    rw [← Bool.not_eq_true, hiff, not_or, Bool.not_eq_true] at hfalse
    exact hfalse

end Reader

end Layout

end RingBuffer

end Ddprof
