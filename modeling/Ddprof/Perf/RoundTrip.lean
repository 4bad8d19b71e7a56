import Ddprof.Perf.EncodedFields
import Ddprof.Watcher.Basic

/-!
Which samples come back from `hdr2samp` after `samp2hdr`.

Up to a field that skews, the decoder is at every field where the encoder was. So for a mask that
announces nothing behind such a field, a sample comes back exactly if each of its fields does. For
the other masks the same sample serves as an example of one that does not.
-/

namespace Ddprof

open Circular (Byte leBytes leWord)
open Memory (load)

variable {mem : ℕ → Byte} {sample : PerfEventSample} {szHdr mask : ℕ}

/-! ### Where the fields stand -/

section Order

open SampleField

def fieldsBeforeCpu : List SampleField := [identifier, ip, tid, time, addr, id, streamId]

def fieldsAfterCpu : List SampleField := [period, read, callchain, raw, regsUser, stackUser]

def fieldsBeforeRead : List SampleField := fieldsBeforeCpu ++ [cpu, period]

def fieldsAfterRead : List SampleField := [callchain, raw, regsUser, stackUser]

def fieldsBeforeRaw : List SampleField := fieldsBeforeRead ++ [read, callchain]

theorem fieldOrder_cpu : fieldOrder = fieldsBeforeCpu ++ cpu :: fieldsAfterCpu := by decide

theorem fieldOrder_read : fieldOrder = fieldsBeforeRead ++ read :: fieldsAfterRead := by decide

theorem fieldOrder_raw : fieldOrder = fieldsBeforeRaw ++ raw :: [regsUser, stackUser] := by decide

theorem fieldsBeforeRegs_raw : fieldsBeforeRegs = fieldsBeforeRaw ++ [raw] := by decide

theorem fieldOrder_regsUser : fieldOrder = fieldsBeforeRegs ++ regsUser :: [stackUser] := by decide

theorem fieldOrder_stackUser :
    fieldOrder = (fieldsBeforeRegs ++ [regsUser]) ++ stackUser :: [] := by decide

end Order

/-! ### All fields -/

variable {fs : List SampleField}

namespace Pen

variable {pen : Pen} {f : SampleField} {a : ℕ}

theorem field_of_isIn (hf : f.isIn mask = true) (pen : Pen) :
    pen.field mem sample mask f =
      ⟨f.image mem sample pen.out (wordOffset pen.buf), pen.buf + f.words sample⟩ := by
  rw [field, if_pos hf, foldl_encode]

theorem field_of_absent (hf : f.isIn mask = false) (pen : Pen) :
    pen.field mem sample mask f = pen := by
  rw [field, hf, if_neg Bool.false_ne_true]

theorem foldl_field_of_absent (hfs : ∀ f ∈ fs, f.isIn mask = false)
    (pen : Pen) : fs.foldl (field mem sample mask) pen = pen := by
  induction fs with
  | nil => rfl
  | cons f rest ih =>
    rw [List.foldl_cons, field_of_absent (hfs f List.mem_cons_self),
      ih fun g hg => hfs g (List.mem_cons_of_mem f hg)]

theorem buf_le_field (pen : Pen) (f : SampleField) :
    pen.buf ≤ (pen.field mem sample mask f).buf := by
  cases hf : f.isIn mask with
  | false => rw [field_of_absent hf]
  | true =>
    rw [field_of_isIn hf]
    exact Nat.le_add_right ..

theorem buf_le_foldl_field (fs : List SampleField) (pen : Pen) :
    pen.buf ≤ (fs.foldl (field mem sample mask) pen).buf := by
  induction fs generalizing pen with
  | nil => exact le_rfl
  | cons f rest ih => exact (buf_le_field pen f).trans (ih _)

theorem wordOffset_mono {buf buf' : ℕ} (h : buf ≤ buf') : wordOffset buf ≤ wordOffset buf' := by
  rw [wordOffset, wordOffset]
  omega

theorem out_foldl_field_of_lt (fs : List SampleField) (pen : Pen) (ha : a < wordOffset pen.buf) :
    (fs.foldl (field mem sample mask) pen).out a = pen.out a := by
  induction fs generalizing pen with
  | nil => rfl
  | cons f rest ih =>
    rw [List.foldl_cons, ih _ (ha.trans_le (wordOffset_mono (buf_le_field pen f)))]
    cases hf : f.isIn mask with
    | false => rw [field_of_absent hf]
    | true =>
      rw [field_of_isIn hf]
      exact SampleField.image_of_lt ha

theorem wordOffset_foldl_field_le (hsample : EncodableSample sample mask) (fs : List SampleField)
    (pen : Pen) :
    wordOffset (fs.foldl (field mem sample mask) pen).buf ≤
      wordOffset pen.buf + bytesOf sample mask fs := by
  induction fs generalizing pen with
  | nil => exact Nat.le_add_right ..
  | cons f rest ih =>
    have hrest := ih (pen.field mem sample mask f)
    rw [List.foldl_cons, bytesOf, List.map_cons, List.sum_cons, ← bytesOf]
    cases hf : f.isIn mask with
    | false =>
      rw [field_of_absent hf] at hrest ⊢
      simpa using hrest
    | true =>
      have hextent := f.extent_le_bytes hsample hf
      rw [field_of_isIn hf] at hrest ⊢
      rw [wordOffset_add] at hrest
      simp only [if_true]
      omega

theorem blank_foldl_field (hsample : EncodableSample sample mask)
    (hfs : ∀ f ∈ fs, f.isIn mask = true → f.skews = false) (hblank : pen.Blank) :
    (fs.foldl (field mem sample mask) pen).Blank := by
  induction fs generalizing pen with
  | nil => exact hblank
  | cons f rest ih =>
    refine ih (fun g hg => hfs g (List.mem_cons_of_mem f hg)) ?_
    cases hf : f.isIn mask with
    | false => rwa [field_of_absent hf]
    | true =>
      rw [field_of_isIn hf]
      intro a ha
      rw [wordOffset_add] at ha
      have himage : f.image mem sample pen.out (wordOffset pen.buf) a = pen.out a :=
        SampleField.image_of_le hsample hf (hfs f List.mem_cons_self hf) ha
      exact himage.trans (hblank a (by omega))

theorem stands_of_foldl {out : ℕ → Byte} {rest : List SampleField} (hf : f.isIn mask = true)
    (hrest : 0 < f.words sample ∨ ∀ g ∈ rest, g.isIn mask = false)
    (hout : ∀ i < max 8 (8 * f.words sample), out (wordOffset pen.buf + i) =
      (rest.foldl (field mem sample mask) (pen.field mem sample mask f)).out
        (wordOffset pen.buf + i)) :
    pen.Stands f mem sample out := by
  intro i hi
  rw [hout i hi, field_of_isIn hf]
  rcases hrest with hpos | habsent
  · rw [out_foldl_field_of_lt]
    rw [wordOffset_add]
    omega
  · rw [foldl_field_of_absent habsent]

end Pen

theorem SampleField.words_pos {f : SampleField} (h : f ≠ .cpu) (sample : PerfEventSample) :
    0 < f.words sample := by
  cases f with
  | cpu => exact absurd rfl h
  | stackUser =>
    rw [words]
    split_ifs <;> omega
  | callchain | raw | regsUser =>
    rw [words]
    omega
  | _ => simp [words, readFormatSize]

section Decode

variable {addr : ℕ} {out : ℕ → Byte}

/-- As long as no field skews, the decoder is where the encoder was. -/
theorem foldl_step_recordAt (hsample : EncodableSample sample mask)
    (hfs : ∀ f ∈ fs, f.isIn mask = true → f.skews = false) (pen : Pen) (c : Cursor)
    (hc : c.rejected = false) (hbuf : c.buf = pen.buf)
    (hroom : wordOffset pen.buf + bytesOf sample mask fs ≤ szHdr)
    (hout : ∀ a, wordOffset pen.buf ≤ a →
      a < wordOffset (fs.foldl (Pen.field mem sample mask) pen).buf →
        out a = (fs.foldl (Pen.field mem sample mask) pen).out a) :
    (fs.foldl (Cursor.step (recordAt addr out szHdr) mask) c).rejected = false ∧
      (fs.foldl (Cursor.step (recordAt addr out szHdr) mask) c).buf =
        (fs.foldl (Pen.field mem sample mask) pen).buf := by
  induction fs generalizing pen c with
  | nil => exact ⟨hc, hbuf⟩
  | cons f rest ih =>
    have hfs' (g : SampleField) (hg : g ∈ rest) := hfs g (List.mem_cons_of_mem f hg)
    rw [bytesOf, List.map_cons, List.sum_cons, ← bytesOf] at hroom
    rw [List.foldl_cons] at hout ⊢
    rw [List.foldl_cons]
    cases hf : f.isIn mask with
    | false =>
      rw [Pen.field_of_absent hf] at hout ⊢
      rw [Cursor.step_of_absent hf]
      exact ih hfs' pen c hc hbuf (by omega) hout
    | true =>
      have hskews := hfs f List.mem_cons_self hf
      have hextent := f.extent_le_bytes hsample hf
      have hpos : 0 < f.words sample := f.words_pos (by rintro rfl; cases hskews) sample
      have hnextOffset : wordOffset (pen.field mem sample mask f).buf =
          wordOffset pen.buf + 8 * f.words sample := by
        rw [Pen.field_of_isIn hf, wordOffset_add]
      have hle : wordOffset (pen.field mem sample mask f).buf ≤
          wordOffset (rest.foldl (Pen.field mem sample mask)
            (pen.field mem sample mask f)).buf :=
        Pen.wordOffset_mono (Pen.buf_le_foldl_field rest _)
      rw [hf, if_pos rfl] at hroom
      have hstands : pen.Stands f mem sample out :=
        Pen.stands_of_foldl hf (.inl hpos) fun i hi => hout _ (by omega) (by omega)
      have hfits : wordOffset pen.buf + f.bytes sample ≤ szHdr := by omega
      obtain ⟨hnext, hrejects⟩ := f.next_of_stands hsample hf hskews hfits hstands
      rw [Cursor.step_of_isIn hc hf]
      refine ih hfs' (pen.field mem sample mask f) _ ?_ ?_ (by omega)
        fun a ha => hout a (by omega)
      · rw [hbuf]
        exact hrejects
      · rw [Pen.field_of_isIn hf]
        simp only [hbuf]
        exact hnext

variable {hdr : PerfRecord} {m : ℕ → Byte}

theorem content_store_of_ne {buf : ℕ} {f g : SampleField}
    (hne : g ≠ f) (s : PerfEventSample) : (f.store hdr buf s).content m g = s.content m g := by
  cases f <;> cases g <;> first | rfl | exact absurd rfl hne

variable {g : SampleField}

theorem content_foldl_of_notMem (hg : g ∉ fs) (c : Cursor) :
    (fs.foldl (Cursor.step hdr mask) c).sample.content m g = c.sample.content m g := by
  induction fs generalizing c with
  | nil => rfl
  | cons f rest ih =>
    rw [List.mem_cons, not_or] at hg
    rw [List.foldl_cons, ih hg.2, Cursor.step]
    split_ifs
    · rfl
    · exact content_store_of_ne hg.1 _

/-- What the decoder returns of a field is what it finds where it comes to the field. -/
theorem content_hdr2samp {pre rest : List SampleField} {b : ℕ}
    (hsplit : fieldOrder = pre ++ g :: rest) (hg : g.isIn mask = true)
    (hat : ∀ c : Cursor, c.rejected = false → c.buf = 0 →
      (pre.foldl (Cursor.step hdr mask) c).rejected = false ∧
        (pre.foldl (Cursor.step hdr mask) c).buf = b) (before : PerfEventSample) (m : ℕ → Byte) :
    ∃ s, (hdr2samp before hdr mask).1.content m g = (g.store hdr b s).content m g := by
  obtain ⟨hc, hbuf⟩ := hat ⟨{ before with header := wordAt hdr.bytes 0 }, 0, false⟩ rfl rfl
  have hnodup : (pre ++ g :: rest).Nodup := hsplit ▸ (by decide : fieldOrder.Nodup)
  have hnotMem : g ∉ rest := (List.nodup_cons.mp hnodup.of_append_right).1
  rw [hdr2samp, hsplit, List.foldl_append, List.foldl_cons]
  simp only
  rw [content_foldl_of_notMem hnotMem, Cursor.step_of_isIn hc hg, hbuf]
  exact ⟨_, rfl⟩

/-- The encoder before it comes to a field. -/
def penAfter (mem : ℕ → Byte) (sample : PerfEventSample) (mask : ℕ) (pre : List SampleField) :
    Pen :=
  pre.foldl (Pen.field mem sample mask) { out := headerBytes sample.header }

theorem penAfter_concat (pre : List SampleField) (f : SampleField) :
    penAfter mem sample mask (pre ++ [f]) =
      (penAfter mem sample mask pre).field mem sample mask f := by
  rw [penAfter, List.foldl_concat, penAfter]

theorem blank_header (header : ℕ) : ({ out := headerBytes header } : Pen).Blank := by
  intro a ha
  have hle : 8 ≤ a := (show 8 ≤ wordOffset 0 + 3 by decide).trans ha
  show headerBytes header a = 0
  rw [headerBytes, Memory.store_of_le (by rw [Circular.length_leBytes]; omega),
    Memory.store_of_le (by rw [Circular.length_leBytes]; omega)]

/-- The record is what the encoder has written, and long enough. -/
structure IsWritten (mem : ℕ → Byte) (sample : PerfEventSample) (szHdr mask : ℕ)
    (out : ℕ → Byte) : Prop where
  encodable : EncodableSample sample mask
  room : encodedSize sample mask ≤ szHdr
  written : ∀ a, perfHeaderSize ≤ a → out a = writtenFields mem sample mask a

variable {pre rest : List SampleField} {g : SampleField} {before : PerfEventSample}

theorem writtenFields_split (hsplit : fieldOrder = pre ++ g :: rest) :
    writtenFields mem sample mask =
      ((g :: rest).foldl (Pen.field mem sample mask) (penAfter mem sample mask pre)).out := by
  rw [writtenFields, hsplit, List.foldl_append, penAfter]

namespace IsWritten

theorem room_split (h : IsWritten mem sample szHdr mask out)
    (hsplit : fieldOrder = pre ++ g :: rest) (hg : g.isIn mask = true) :
    wordOffset 0 + bytesOf sample mask pre ≤ szHdr ∧
      wordOffset (penAfter mem sample mask pre).buf + g.bytes sample ≤ szHdr := by
  have hpre : wordOffset (penAfter mem sample mask pre).buf ≤
      wordOffset 0 + bytesOf sample mask pre :=
    Pen.wordOffset_foldl_field_le h.encodable pre _
  have hroom := h.room
  rw [encodedSize, hsplit, bytesOf, List.map_append, List.sum_append, List.map_cons,
    List.sum_cons, if_pos hg, ← bytesOf] at hroom
  rw [show wordOffset 0 = perfHeaderSize from rfl] at hpre ⊢
  omega

variable (addr) in
/-- The decoder comes to a field before which none skews. -/
theorem decode_before (h : IsWritten mem sample szHdr mask out)
    (hsplit : fieldOrder = pre ++ g :: rest) (hg : g.isIn mask = true)
    (hpre : ∀ f ∈ pre, f.isIn mask = true → f.skews = false) (c : Cursor)
    (hc : c.rejected = false) (hbuf : c.buf = 0) :
    (pre.foldl (Cursor.step (recordAt addr out szHdr) mask) c).rejected = false ∧
      (pre.foldl (Cursor.step (recordAt addr out szHdr) mask) c).buf =
        (penAfter mem sample mask pre).buf := by
  refine foldl_step_recordAt h.encodable hpre { out := headerBytes sample.header } c hc hbuf
    (h.room_split hsplit hg).1 fun a ha hlt => ?_
  rw [h.written a ha, writtenFields_split hsplit]
  exact Pen.out_foldl_field_of_lt _ _ hlt

theorem stands (h : IsWritten mem sample szHdr mask out) (hsplit : fieldOrder = pre ++ g :: rest)
    (hg : g.isIn mask = true) (hrest : g ≠ .cpu ∨ ∀ f ∈ rest, f.isIn mask = false) :
    (penAfter mem sample mask pre).Stands g mem sample out := by
  refine Pen.stands_of_foldl hg (hrest.imp_left fun hne => g.words_pos hne sample) fun i _ => ?_
  rw [h.written _ (by rw [wordOffset]; omega), writtenFields_split hsplit, List.foldl_cons]

end IsWritten

/-! ### Round trips -/

/-- No field is announced behind one that skews. -/
def Straight (mask : ℕ) : Prop :=
  fieldOrder.Pairwise fun f g => f.skews = true → f.isIn mask = true → g.isIn mask = false

instance (mask : ℕ) : Decidable (Straight mask) := inferInstanceAs (Decidable (List.Pairwise _ _))

namespace Straight

theorem skews_eq_false (hstraight : Straight mask) (hsplit : fieldOrder = pre ++ g :: rest)
    (hg : g.isIn mask = true) : ∀ f ∈ pre, f.isIn mask = true → f.skews = false := by
  intro f hf hin
  rw [Straight, hsplit, List.pairwise_append] at hstraight
  by_contra hskews
  have hfalse := hstraight.2.2 f hf g List.mem_cons_self (Bool.eq_true_of_not_eq_false hskews) hin
  rw [hg] at hfalse
  cases hfalse

theorem ne_cpu_or_absent (hstraight : Straight mask) (hsplit : fieldOrder = pre ++ g :: rest)
    (hg : g.isIn mask = true) : g ≠ .cpu ∨ ∀ f ∈ rest, f.isIn mask = false := by
  rw [Straight, hsplit, List.pairwise_append, List.pairwise_cons] at hstraight
  by_cases hcpu : g = .cpu
  · exact .inr fun f hf => hstraight.2.1.1 f hf (by rw [hcpu]; rfl) hg
  · exact .inl hcpu

end Straight

namespace IsWritten

/-- The registers, if there are any, are found to be those of 64-bit code. -/
theorem accepted (h : IsWritten mem sample szHdr mask out) (hstraight : Straight mask) :
    (hdr2samp before (recordAt addr out szHdr) mask).2 = true := by
  rw [← Bool.not_eq_false, hdr2samp_eq_false_iff]
  rintro ⟨hregs, habi⟩
  let c : Cursor := ⟨before, 0, false⟩
  obtain ⟨-, hbuf⟩ := h.decode_before addr fieldOrder_regsUser hregs
    (hstraight.skews_eq_false fieldOrder_regsUser hregs) c rfl rfl
  have hoffset := (foldl_of_forall_ne (recordAt addr out szHdr) mask
    (show ∀ f ∈ fieldsBeforeRegs, f ≠ .regsUser by decide) c rfl).2
  have hword := SampleField.word_of_lead addr h.encodable hregs
    (h.room_split fieldOrder_regsUser hregs).2
    (h.stands fieldOrder_regsUser hregs (.inl (by decide))) rfl
  rw [regsOffset, show 0 = c.buf from rfl, ← hoffset, hbuf, hword] at habi
  exact habi (h.encodable.abi hregs)

theorem out_after (h : IsWritten mem sample szHdr mask out)
    (hsplit : fieldOrder = pre ++ g :: rest) (hg : g.isIn mask = true) {w i : ℕ}
    (hlead : g.lead sample = some w) (hi : i < 8) :
    out (wordOffset (penAfter mem sample mask pre).buf + i) = (leBytes 8 w).getD i 0 := by
  have hne : g ≠ .cpu := by
    rintro rfl
    cases hlead
  rw [h.stands hsplit hg (.inl hne) i (by omega), SampleField.image_of_lead hlead hi,
    Memory.store_add (by rwa [Circular.length_leBytes])]

theorem content_iff_of_ne_raw (h : IsWritten mem sample szHdr mask out)
    (hstraight : Straight mask) (hg : g.isIn mask = true) (hmem : g ∈ fieldOrder)
    (hraw : g ≠ .raw) :
    (hdr2samp before (recordAt addr out szHdr) mask).1.content (recordAt addr out szHdr).mem g =
      sample.content mem g ↔ g.IsKept mem sample mask := by
  obtain ⟨pre, rest, hsplit⟩ := List.append_of_mem hmem
  have hpre := hstraight.skews_eq_false hsplit hg
  obtain ⟨s, hcontent⟩ := content_hdr2samp hsplit hg (h.decode_before addr hsplit hg hpre) before
    (recordAt addr out szHdr).mem
  rw [hcontent]
  exact SampleField.content_of_stands h.encodable hg hraw
    (Pen.blank_foldl_field h.encodable hpre (blank_header _)) (h.room_split hsplit hg).2
    (h.stands hsplit hg (hstraight.ne_cpu_or_absent hsplit hg)) s

theorem out_wordAfterRaw (h : IsWritten mem sample szHdr mask out) {w i : ℕ}
    (hw : wordAfterRaw sample mask = some w) (hi : i < 8) :
    out (wordOffset (penAfter mem sample mask fieldsBeforeRegs).buf + i) =
      (leBytes 8 w).getD i 0 := by
  rw [wordAfterRaw] at hw
  split_ifs at hw with hregs hstack
  · exact h.out_after fieldOrder_regsUser hregs hw hi
  · have hsame : penAfter mem sample mask (fieldsBeforeRegs ++ [.regsUser]) =
        penAfter mem sample mask fieldsBeforeRegs := by
      rw [penAfter_concat, Pen.field_of_absent (Bool.eq_false_of_not_eq_true hregs)]
    rw [← hsame]
    exact h.out_after fieldOrder_stackUser hstack hw hi

theorem content_iff_raw (h : IsWritten mem sample szHdr mask out) (hstraight : Straight mask)
    (hg : SampleField.raw.isIn mask = true) :
    (hdr2samp before (recordAt addr out szHdr) mask).1.content (recordAt addr out szHdr).mem
      .raw = sample.content mem .raw ↔ SampleField.raw.IsKept mem sample mask := by
  have hpre := hstraight.skews_eq_false fieldOrder_raw hg
  obtain ⟨s, hcontent⟩ := content_hdr2samp fieldOrder_raw hg
    (h.decode_before addr fieldOrder_raw hg hpre) before (recordAt addr out szHdr).mem
  rw [hcontent]
  refine SampleField.content_raw h.encodable hg (h.room_split fieldOrder_raw hg).2
    (h.stands fieldOrder_raw hg (.inl (by decide))) ?_ ?_ s
  · intro w hw i hi
    rw [← h.out_wordAfterRaw hw hi, fieldsBeforeRegs_raw, penAfter_concat, Pen.field_of_isIn hg]
  · intro hw a ha
    rw [wordAfterRaw] at hw
    split_ifs at hw with hregs hstack
    have habsent : ∀ f ∈ [SampleField.regsUser, .stackUser], f.isIn mask = false := by
      simpa using And.intro hregs hstack
    rw [h.written a ha, writtenFields_split fieldOrder_raw, List.foldl_cons,
      Pen.foldl_field_of_absent habsent, Pen.field_of_isIn hg]

end IsWritten

/-- What the encoder leaves out of the fields is there anyway. -/
def Kept (mem : ℕ → Byte) (sample : PerfEventSample) (mask : ℕ) : Prop :=
  ∀ f ∈ fieldOrder, f.isIn mask = true → f.IsKept mem sample mask

theorem roundTrips_of_straight (hstraight : Straight mask)
    (hsample : EncodableSample sample mask) (hroom : encodedSize sample mask < szHdr)
    (hszHdr : szHdr < 2 ^ 64) :
    RoundTrips mem sample szHdr mask addr before ↔ Kept mem sample mask := by
  obtain ⟨out, hbytes, hwritten⟩ := samp2hdr_of_room mem hszHdr hroom
  have h : IsWritten mem sample szHdr mask out := ⟨hsample, hroom.le, hwritten⟩
  have hcontent (g : SampleField) (hmem : g ∈ fieldOrder) (hg : g.isIn mask = true) :
      (hdr2samp before (recordAt addr out szHdr) mask).1.content (recordAt addr out szHdr).mem g =
        sample.content mem g ↔ g.IsKept mem sample mask := by
    by_cases hraw : g = .raw
    · rw [hraw] at hg ⊢
      exact h.content_iff_raw hstraight hg
    · exact h.content_iff_of_ne_raw hstraight hg hmem hraw
  constructor
  · rintro ⟨bytes, hsome, -, hfields⟩ g hmem hg
    obtain rfl : load out 0 szHdr = bytes := Option.some.inj (hbytes.symm.trans hsome)
    exact (hcontent g hmem hg).mp (hfields g hmem hg)
  · intro hkept
    exact ⟨_, hbytes, h.accepted hstraight,
      fun g hmem hg => (hcontent g hmem hg).mpr (hkept g hmem hg)⟩

/-! ### Masks that are not straight -/

/-- Only the cpu and the counter values can be at fault. -/
theorem straight_of_forall
    (hcpu : SampleField.cpu.isIn mask = true → ∀ g ∈ fieldsAfterCpu, g.isIn mask = false)
    (hread : SampleField.read.isIn mask = true → ∀ g ∈ fieldsAfterRead, g.isIn mask = false) :
    Straight mask := by
  have hbefore : ∀ f ∈ fieldsBeforeCpu, f.skews ≠ true := by decide
  have hafter : ∀ f ∈ fieldsAfterRead, f.skews ≠ true := by decide
  have hperiod : SampleField.period.skews ≠ true := by decide
  have hsplit : fieldsAfterCpu = .period :: .read :: fieldsAfterRead := by decide
  rw [Straight, fieldOrder_cpu, List.pairwise_append, List.pairwise_cons, hsplit,
    List.pairwise_cons, List.pairwise_cons]
  rw [hsplit] at hcpu
  refine ⟨?_, ⟨fun g hg _ hin => hcpu hin g hg, fun g _ h => absurd h hperiod,
    fun g hg _ hin => hread hin g hg, ?_⟩, fun f hf g _ h => absurd h (hbefore f hf)⟩
  · exact List.pairwise_of_forall_mem_list fun f hf g _ h => absurd h (hbefore f hf)
  · exact List.pairwise_of_forall_mem_list fun f hf g _ h => absurd h (hafter f hf)

/-- A sample of cpu 7, with 8 bytes of stack and without a call chain and raw data. -/
def probe : PerfEventSample where
  cpu := 7
  ips := 4096
  dataRaw := 4096
  abi := regsAbi64
  regs := 4096
  sizeStack := 8
  dataStack := 4096
  dynSizeStack := 8

/-- The counter of the probe has the value 0 and has been enabled for 5 nanoseconds. -/
def probeMem : ℕ → Byte := fun a => if a = 8 then 5 else 0

theorem probe_encodable (mask : ℕ) : EncodableSample probe mask := by
  constructor <;> first | decide | exact fun _ => by decide

theorem exists_first (h : ¬∀ g ∈ fs, g.isIn mask = false) :
    ∃ as g bs, fs = as ++ g :: bs ∧ g.isIn mask = true ∧ ∀ f ∈ as, f.isIn mask = false := by
  obtain ⟨g, hfind⟩ : ∃ g, fs.find? (·.isIn mask) = some g := by
    rw [← Option.isSome_iff_exists, List.find?_isSome]
    simpa using h
  obtain ⟨hg, as, bs, hsplit, habsent⟩ := List.find?_eq_some_iff_append.mp hfind
  exact ⟨as, g, bs, hsplit, hg, fun f hf => by simpa using habsent f hf⟩

theorem Cursor.foldl_step_of_absent (hfs : ∀ f ∈ fs, f.isIn mask = false) (c : Cursor) :
    fs.foldl (Cursor.step hdr mask) c = c := by
  induction fs with
  | nil => rfl
  | cons f rest ih =>
    rw [List.foldl_cons, step_of_absent (hfs f List.mem_cons_self),
      ih fun g hg => hfs g (List.mem_cons_of_mem f hg)]

variable (addr) in
/-- No field of the probe behind the cpu starts with a 7. -/
theorem probe_half0_ne {pen : Pen} (hmem : g ∈ fieldsAfterCpu)
    (hg : g.isIn mask = true) (hroom : wordOffset pen.buf + g.bytes probe ≤ szHdr)
    (hstands : pen.Stands g probeMem probe out) :
    (recordAt addr out szHdr).half0 pen.buf ≠ 7 := by
  have hword {w : ℕ} (hlead : g.lead probe = some w) (hw : w % 2 ^ 32 ≠ 7) :
      (recordAt addr out szHdr).half0 pen.buf ≠ 7 := by
    rw [PerfRecord.half0,
      SampleField.word_of_lead addr (probe_encodable mask) hg hroom hstands hlead]
    exact hw
  simp only [fieldsAfterCpu, List.mem_cons, List.not_mem_nil, or_false] at hmem
  rcases hmem with rfl | rfl | rfl | rfl | rfl | rfl
  case inl => exact hword rfl (by decide)
  case inr.inl =>
    have hvalue : load out (wordOffset pen.buf) 4 = load probeMem 0 4 := by
      refine Memory.load_congr fun i hi => ?_
      rw [hstands i (by omega), SampleField.image_read (by rw [readFormatSize]; omega)]
      rfl
    rw [SampleField.bytes, readFormatSize] at hroom
    rw [half0_recordAt (by omega), hvalue]
    decide
  case inr.inr.inr.inl =>
    rw [SampleField.half0_raw (probe_encodable mask) hg hroom hstands]
    decide
  all_goals exact hword rfl (by decide)

/-- The word of the cpu is overwritten by the next field. -/
theorem probe_cpu_ne (h : IsWritten probeMem probe szHdr mask out)
    (hcpu : SampleField.cpu.isIn mask = true)
    (hafter : ¬∀ g ∈ fieldsAfterCpu, g.isIn mask = false) :
    (hdr2samp before (recordAt addr out szHdr) mask).1.content (recordAt addr out szHdr).mem .cpu ≠
      probe.content probeMem .cpu := by
  obtain ⟨as, g, bs, hfields, hg, habsent⟩ := exists_first hafter
  have hsplit : fieldOrder = (fieldsBeforeCpu ++ .cpu :: as) ++ g :: bs := by
    rw [fieldOrder_cpu, hfields, List.append_assoc, List.cons_append]
  -- the encoder does not go on after the cpu
  have hbuf : (penAfter probeMem probe mask (fieldsBeforeCpu ++ .cpu :: as)).buf =
      (penAfter probeMem probe mask fieldsBeforeCpu).buf := by
    rw [penAfter, List.foldl_append, List.foldl_cons, Pen.foldl_field_of_absent habsent, ← penAfter,
      Pen.field_of_isIn hcpu]
    rfl
  have hskews : ∀ f ∈ fieldsBeforeCpu, f.skews = false := by decide
  obtain ⟨s, hcontent⟩ := content_hdr2samp fieldOrder_cpu hcpu
    (h.decode_before addr fieldOrder_cpu hcpu fun f hf _ => hskews f hf) before
    (recordAt addr out szHdr).mem
  have hmem : g ∈ fieldsAfterCpu := by
    rw [hfields]
    exact List.mem_append_right as List.mem_cons_self
  have hne : g ≠ .cpu := by
    rintro rfl
    exact absurd hmem (by decide)
  have hhalf := probe_half0_ne addr hmem hg (h.room_split hsplit hg).2
    (h.stands hsplit hg (.inl hne))
  rw [hcontent, ← hbuf]
  intro heq
  simp only [SampleField.store, PerfEventSample.content, Prod.mk.injEq, List.cons.injEq] at heq
  exact hhalf heq.1.1

/-- No field of the probe behind the counter values starts with a 5. -/
theorem probe_content_ne {buf : ℕ}
    (hword : hdr.word buf = 5) (hg : g ∈ fieldsAfterRead) (s : PerfEventSample) :
    (g.store hdr buf s).content m g ≠ probe.content probeMem g := by
  intro heq
  have hnumbers := congrArg Prod.fst heq
  simp only [fieldsAfterRead, List.mem_cons, List.not_mem_nil, or_false] at hg
  rcases hg with rfl | rfl | rfl | rfl
  · simp [SampleField.store, PerfEventSample.content, hword, probe] at hnumbers
  · simp [SampleField.store, PerfEventSample.content, PerfRecord.half0, hword, probe] at hnumbers
  · simp [SampleField.store, PerfEventSample.content, hword, probe, regsAbi64] at hnumbers
  · -- a size of 5 is too small for the 8 bytes that are in use
    simp only [SampleField.store, PerfEventSample.content, hword, probe, List.cons.injEq]
      at hnumbers
    have hsize := hnumbers.1
    split_ifs at hsize <;> omega

/-- Where the decoder goes on after the counter values, the second of them stands. -/
theorem IsWritten.word_after_read (h : IsWritten mem sample szHdr mask out)
    (hsplit : fieldOrder = pre ++ .read :: rest) (hread : SampleField.read.isIn mask = true) :
    (recordAt addr out szHdr).word ((penAfter mem sample mask pre).buf + 1) =
      leWord (load mem (sample.v + 8) 8) := by
  have hroom := (h.room_split hsplit hread).2
  have hstands := h.stands hsplit hread (.inl (by decide))
  rw [SampleField.bytes, readFormatSize] at hroom
  rw [word_recordAt (by rw [wordOffset_succ]; omega), wordOffset_succ]
  refine congrArg leWord (Memory.load_congr fun i hi => ?_)
  rw [Nat.add_assoc, hstands (8 + i) (by rw [SampleField.words, readFormatSize]; omega),
    SampleField.image_read (by rw [readFormatSize]; omega), Nat.add_assoc]

/-- The field after the counter values is read from the second of them. -/
theorem probe_read_ne (h : IsWritten probeMem probe szHdr mask out)
    (hcpu : SampleField.cpu.isIn mask = false) (hread : SampleField.read.isIn mask = true)
    (hafter : ¬∀ g ∈ fieldsAfterRead, g.isIn mask = false) :
    ∃ g ∈ fieldOrder, g.isIn mask = true ∧
      (hdr2samp before (recordAt addr out szHdr) mask).1.content (recordAt addr out szHdr).mem g ≠
        probe.content probeMem g := by
  have hpre : ∀ f ∈ fieldsBeforeRead, f.isIn mask = true → f.skews = false := by
    have hskews : ∀ f ∈ fieldsBeforeRead, f ≠ .cpu → f.skews = false := by decide
    intro f hf hin
    refine hskews f hf ?_
    rintro rfl
    rw [hcpu] at hin
    cases hin
  obtain ⟨as, g, bs, hfields, hg, habsent⟩ := exists_first hafter
  have hsplit : fieldOrder = (fieldsBeforeRead ++ .read :: as) ++ g :: bs := by
    rw [fieldOrder_read, hfields, List.append_assoc, List.cons_append]
  have hat (c : Cursor) (hc : c.rejected = false) (hbuf : c.buf = 0) :
      ((fieldsBeforeRead ++ .read :: as).foldl (Cursor.step (recordAt addr out szHdr) mask)
          c).rejected = false ∧
        ((fieldsBeforeRead ++ .read :: as).foldl (Cursor.step (recordAt addr out szHdr) mask)
          c).buf = (penAfter probeMem probe mask fieldsBeforeRead).buf + 1 := by
    obtain ⟨hrejected, hpos⟩ := h.decode_before addr fieldOrder_read hread hpre c hc hbuf
    rw [List.foldl_append, List.foldl_cons, Cursor.foldl_step_of_absent habsent,
      Cursor.step_of_isIn hrejected hread, hpos]
    exact ⟨rfl, rfl⟩
  obtain ⟨s, hcontent⟩ := content_hdr2samp hsplit hg hat before (recordAt addr out szHdr).mem
  have hword : (recordAt addr out szHdr).word
      ((penAfter probeMem probe mask fieldsBeforeRead).buf + 1) = 5 := by
    rw [h.word_after_read fieldOrder_read hread]
    decide
  have hmem : g ∈ fieldsAfterRead := by
    rw [hfields]
    exact List.mem_append_right as List.mem_cons_self
  refine ⟨g, ?_, hg, ?_⟩
  · rw [hsplit]
    exact List.mem_append_right _ List.mem_cons_self
  · rw [hcontent]
    exact probe_content_ne hword hmem s

theorem probe_not_roundTrips (hstraight : ¬Straight mask)
    (hroom : encodedSize probe mask < szHdr) (hszHdr : szHdr < 2 ^ 64) :
    ¬RoundTrips probeMem probe szHdr mask addr before := by
  rintro ⟨bytes, hsome, -, hfields⟩
  obtain ⟨out, hbytes, hwritten⟩ := samp2hdr_of_room probeMem hszHdr hroom
  obtain rfl : load out 0 szHdr = bytes := Option.some.inj (hbytes.symm.trans hsome)
  have h : IsWritten probeMem probe szHdr mask out := ⟨probe_encodable mask, hroom.le, hwritten⟩
  by_cases hcpu : SampleField.cpu.isIn mask = true ∧ ¬∀ g ∈ fieldsAfterCpu, g.isIn mask = false
  · exact probe_cpu_ne h hcpu.1 hcpu.2 (hfields .cpu (by decide) hcpu.1)
  by_cases hread : SampleField.read.isIn mask = true ∧ ¬∀ g ∈ fieldsAfterRead, g.isIn mask = false
  · have habsent : SampleField.cpu.isIn mask = false := by
      by_contra hin
      refine hcpu ⟨Bool.eq_true_of_not_eq_false hin, fun hall => ?_⟩
      have hfalse := hall .read (by decide)
      rw [hread.1] at hfalse
      cases hfalse
    obtain ⟨g, hmem, hg, hne⟩ := probe_read_ne h habsent hread.1 hread.2
    exact hne (hfields g hmem hg)
  · rw [not_and_not_right] at hcpu hread
    exact hstraight (straight_of_forall hcpu hread)

end Decode

/-- If no field is announced behind one that skews, a sample comes back exactly if what is left
out of its fields is there anyway. For every other mask there is a sample that does not come
back. -/
theorem roundTrips_iff_kept (mask : ℕ) :
    (Straight mask → ∀ mem sample szHdr addr before, EncodableSample sample mask →
      encodedSize sample mask < szHdr → szHdr < 2 ^ 64 →
        (RoundTrips mem sample szHdr mask addr before ↔ Kept mem sample mask)) ∧
    (¬Straight mask → ∃ mem sample, EncodableSample sample mask ∧
      ∀ szHdr addr before, encodedSize sample mask < szHdr → szHdr < 2 ^ 64 →
        ¬RoundTrips mem sample szHdr mask addr before) := by
  constructor
  · intro hstraight mem sample szHdr addr before hsample hroom hszHdr
    exact roundTrips_of_straight hstraight hsample hroom hszHdr
  · intro hstraight
    exact ⟨probeMem, probe, probe_encodable mask, fun szHdr addr before hroom hszHdr =>
      probe_not_roundTrips hstraight hroom hszHdr⟩

/-- A sample with four bytes of raw data, registers that are 0 and eight bytes of stack. -/
def quietSample : PerfEventSample where
  pid := 42
  tid := 43
  time := 1000
  period := 99
  sizeRaw := 4
  dataRaw := 4096
  abi := regsAbi64
  regs := 8192
  sizeStack := 8
  dataStack := 12288
  dynSizeStack := 8

theorem roundTrips_iff_kept_quiet :
    let mask := baseStypes ||| PerfSample.raw
    Straight mask ∧ encodedSize quietSample mask = 236 ∧
      RoundTrips (fun _ => 0) quietSample 4096 mask 65536 {} := by
  have hstraight : Straight (baseStypes ||| PerfSample.raw) := by decide
  have hsample : EncodableSample quietSample (baseStypes ||| PerfSample.raw) := by
    constructor <;> decide
  refine ⟨hstraight, by decide, ?_⟩
  refine ((roundTrips_iff_kept _).1 hstraight _ _ _ _ _ hsample (by decide) (by decide)).mpr ?_
  intro f _ _
  cases f with
  | raw =>
    intro w _ i hi hle
    exact absurd hle (by simp only [quietSample] at hi ⊢; omega)
  | callchain | regsUser => exact fun _ _ _ => rfl
  | _ => trivial

/-- A sample of cpu 3 with a period, and registers of which each has another bit. -/
def busySample : PerfEventSample where
  cpu := 3
  period := 1000
  abi := regsAbi64
  regs := 8

def busyMem : ℕ → Byte :=
  Memory.store (fun _ => 0) 8 ((List.range 20).flatMap fun i => leBytes 8 (2 ^ i))

/-- The cpu comes back as the period, and the period as 0. Of the registers, the fourth comes back
as 0 and not as 8. -/
theorem samp2hdr_loses_fields :
    let counted := PerfSample.cpu ||| PerfSample.period
    EncodableSample busySample counted ∧ encodedSize busySample counted < 256 ∧
      (samp2hdr busyMem busySample 256 counted).map (fun bytes =>
        let sample := (hdr2samp {} ⟨65536, bytes⟩ counted).1
        (sample.cpu, sample.period)) = some (1000, 0) ∧
      EncodableSample busySample PerfSample.regsUser ∧
      encodedSize busySample PerfSample.regsUser < 256 ∧
      leWord (load busyMem (busySample.regs + 8 * 3) 8) = 8 ∧
      (samp2hdr busyMem busySample 256 PerfSample.regsUser).map (fun bytes =>
        let hdr : PerfRecord := ⟨65536, bytes⟩
        let sample := (hdr2samp {} hdr PerfSample.regsUser).1
        leWord (load hdr.mem (sample.regs + 8 * 3) 8)) = some 0 := by
  refine ⟨?_, by decide, by decide +kernel, ?_, by decide, by decide +kernel, by decide +kernel⟩
  · constructor <;> decide
  · constructor <;> decide

end Ddprof
