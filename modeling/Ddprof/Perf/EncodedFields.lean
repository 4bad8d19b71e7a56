import Ddprof.Perf.Encoding

/-!
One encoded field, as the decoder finds it.

As long as a field stands in the record as it was written, the decoder finds where it ends. It
finds the content of the field exactly if the bytes that the encoder left out, or that the next
field has overwritten, are the ones that stand in the record.
-/

namespace Ddprof

open Circular (Byte leBytes leWord)
open Memory (load)

variable {mem : ℕ → Byte} {sample : PerfEventSample} {szHdr mask : ℕ}

/-! ### Records -/

def recordAt (addr : ℕ) (out : ℕ → Byte) (szHdr : ℕ) : PerfRecord := ⟨addr, load out 0 szHdr⟩

section Record

variable {addr buf o n : ℕ} {out : ℕ → Byte}

theorem word_recordAt (h : wordOffset buf + 8 ≤ szHdr) :
    (recordAt addr out szHdr).word buf = leWord (load out (wordOffset buf) 8) := by
  rw [PerfRecord.word, wordAt, recordAt, ← wordOffset, Memory.take_drop_load h, Nat.zero_add]

theorem half0_recordAt (h : wordOffset buf + 8 ≤ szHdr) :
    (recordAt addr out szHdr).half0 buf = leWord (load out (wordOffset buf) 4) := by
  rw [PerfRecord.half0, word_recordAt h, Memory.leWord_load_add out _ 4 4,
    show 256 ^ 4 = 2 ^ 32 from rfl, Nat.add_mul_mod_self_left]
  exact Nat.mod_eq_of_lt (Memory.leWord_load_lt out _ 4)

theorem half1_recordAt (h : wordOffset buf + 8 ≤ szHdr) :
    (recordAt addr out szHdr).half1 buf = leWord (load out (wordOffset buf + 4) 4) := by
  have hlt := Memory.leWord_load_lt out (wordOffset buf) 4
  rw [PerfRecord.half1, word_recordAt h, Memory.leWord_load_add out _ 4 4]
  omega

theorem pointer_recordAt :
    (recordAt addr out szHdr).pointer buf = addr + wordOffset buf := Nat.add_assoc ..

theorem load_mem_recordAt (h : o + n ≤ szHdr) :
    load (recordAt addr out szHdr).mem (addr + o) n = load out o n := by
  refine Memory.load_congr fun i hi => ?_
  rw [PerfRecord.mem, recordAt, if_pos (by simp only; omega)]
  simp only
  rw [show addr + o + i - addr = o + i by omega, Memory.getD_load (by omega), Nat.zero_add]

end Record

/-! ### One field -/

/-- The first word of the field that follows the raw data. -/
def wordAfterRaw (sample : PerfEventSample) (mask : ℕ) : Option ℕ :=
  if SampleField.regsUser.isIn mask then some sample.abi
  else if SampleField.stackUser.isIn mask then some sample.sizeStack
  else none

/-- The encoder writes the whole field, or the bytes it leaves out are those that stand there
anyway. -/
def SampleField.IsKept (f : SampleField) (mem : ℕ → Byte) (sample : PerfEventSample) (mask : ℕ) :
    Prop :=
  match f with
  | callchain => ∀ i < 8 * sample.nr, sample.nr ≤ i → mem (sample.ips + i) = 0
  | raw =>
    ∀ w, wordAfterRaw sample mask = some w → ∀ i < sample.sizeRaw,
      8 * (sample.sizeRaw / 8) + 4 ≤ i →
        mem (sample.dataRaw + i) = (leBytes 8 w).getD (i - (8 * (sample.sizeRaw / 8) + 4)) 0
  | regsUser =>
    ∀ i < 8 * kPerfRegisterCount, kPerfRegisterCount ≤ i → mem (sample.regs + i) = 0
  | _ => True

section Field

variable {addr : ℕ} {out : ℕ → Byte} {pen : Pen} {f : SampleField}

/-- The field stands in the buffer as it was written, up to where the next field starts. -/
def Pen.Stands (pen : Pen) (f : SampleField) (mem : ℕ → Byte) (sample : PerfEventSample)
    (out : ℕ → Byte) : Prop :=
  ∀ i < max 8 (8 * f.words sample), out (wordOffset pen.buf + i) =
    f.image mem sample pen.out (wordOffset pen.buf) (wordOffset pen.buf + i)

/-- Nothing is written yet behind the next word, but for the end of raw data. -/
def Pen.Blank (pen : Pen) : Prop := ∀ a, wordOffset pen.buf + 3 ≤ a → pen.out a = 0

variable (addr) in
theorem halves_of_stored {m : ℕ → Byte} {buf half0 half1 : ℕ} (h0 : half0 < 2 ^ 32)
    (h1 : half1 < 2 ^ 32) (hroom : wordOffset buf + 8 ≤ szHdr)
    (h : ∀ i < 8, out (wordOffset buf + i) =
      Memory.store (Memory.store m (wordOffset buf) (leBytes 4 half0)) (wordOffset buf + 4)
        (leBytes 4 half1) (wordOffset buf + i)) :
    (recordAt addr out szHdr).half0 buf = half0 ∧ (recordAt addr out szHdr).half1 buf = half1 := by
  rw [half0_recordAt hroom, half1_recordAt hroom]
  constructor
  · refine Memory.leWord_load_of_stored (m := m) h0 fun i hi => ?_
    rw [h i (by omega), Memory.store_of_lt (by omega)]
  · refine Memory.leWord_load_of_stored
      (m := Memory.store m (wordOffset buf) (leBytes 4 half0)) h1 fun i hi => ?_
    rw [Nat.add_assoc, h (4 + i) (by omega)]

namespace SampleField

variable (f) in
theorem extent_le_bytes (hsample : EncodableSample sample mask) (hf : f.isIn mask = true) :
    max 8 (8 * f.words sample) ≤ f.bytes sample := by
  cases f with
  | stackUser =>
    have hwords := hsample.eight_mul_stackWords hf
    simp only [words, bytes]
    split_ifs <;> omega
  | raw | callchain =>
    simp only [words, bytes]
    omega
  | _ => simp [words, bytes, readFormatSize, kPerfRegisterCount]

theorem lead_lt (hsample : EncodableSample sample mask) (hf : f.isIn mask = true) {w : ℕ}
    (h : f.lead sample = some w) : w < 2 ^ 64 := by
  cases f <;> cases h
  case identifier => exact hsample.sampleId
  case ip => exact hsample.ip
  case time => exact hsample.time
  case addr => exact hsample.addr
  case id => exact hsample.id
  case streamId => exact hsample.streamId
  case period => exact hsample.period
  case callchain => exact hsample.nr
  case regsUser =>
    rw [hsample.abi hf]
    decide
  case stackUser => exact hsample.sizeStack

theorem image_of_lead {m : ℕ → Byte} {p w i : ℕ} (h : f.lead sample = some w) (hi : i < 8) :
    f.image mem sample m p (p + i) = Memory.store m p (leBytes 8 w) (p + i) := by
  cases f <;> cases h
  case callchain => exact Memory.store_of_lt (by omega)
  case regsUser => exact Memory.store_of_lt (by omega)
  case stackUser =>
    rw [image]
    split_ifs with hzero
    · rfl
    · rw [Memory.store_of_lt (by omega), Memory.store_of_lt (by omega)]
  all_goals rfl

variable (addr) in
theorem word_of_lead (hsample : EncodableSample sample mask) (hf : f.isIn mask = true)
    (hroom : wordOffset pen.buf + f.bytes sample ≤ szHdr) (hstands : pen.Stands f mem sample out)
    {w : ℕ} (h : f.lead sample = some w) : (recordAt addr out szHdr).word pen.buf = w := by
  have hextent := f.extent_le_bytes hsample hf
  rw [word_recordAt (by omega)]
  refine Memory.leWord_load_of_stored (m := pen.out) (lead_lt hsample hf h) fun i hi => ?_
  rw [hstands i (by omega), image_of_lead h hi]

theorem half0_raw (hsample : EncodableSample sample mask) (hf : raw.isIn mask = true)
    (hroom : wordOffset pen.buf + raw.bytes sample ≤ szHdr)
    (hstands : pen.Stands raw mem sample out) :
    (recordAt addr out szHdr).half0 pen.buf = sample.sizeRaw := by
  have hextent := raw.extent_le_bytes hsample hf
  rw [half0_recordAt (by omega)]
  refine Memory.leWord_load_of_stored (m := pen.out) hsample.sizeRaw fun i hi => ?_
  rw [hstands i (by omega), image, Memory.store_of_lt (by omega)]

theorem next_of_stands (hsample : EncodableSample sample mask) (hf : f.isIn mask = true)
    (hskews : f.skews = false) (hroom : wordOffset pen.buf + f.bytes sample ≤ szHdr)
    (hstands : pen.Stands f mem sample out) :
    f.next (recordAt addr out szHdr) pen.buf = pen.buf + f.words sample ∧
      f.rejects (recordAt addr out szHdr) pen.buf = false := by
  have hword {w : ℕ} (h : f.lead sample = some w) :=
    word_of_lead addr hsample hf hroom hstands h
  cases f with
  | cpu | read => cases hskews
  | callchain =>
    rw [next, hword rfl, words]
    exact ⟨Nat.add_assoc .., rfl⟩
  | raw =>
    rw [next, half0_raw hsample hf hroom hstands]
    exact ⟨rfl, rfl⟩
  | regsUser =>
    rw [rejects, hword rfl, hsample.abi hf]
    exact ⟨rfl, rfl⟩
  | stackUser =>
    rw [next, hword rfl, words]
    split_ifs with h
    · exact ⟨rfl, rfl⟩
    · exact ⟨by omega, rfl⟩
  | _ => exact ⟨rfl, rfl⟩

/-- As many bytes as there are words are copied behind the first word of a field. -/
theorem load_words_iff {w q n : ℕ} (hblank : pen.Blank)
    (hroom : wordOffset (pen.buf + 1) + 8 * n ≤ szHdr)
    (h : ∀ i < 8 * n, out (wordOffset (pen.buf + 1) + i) =
      Memory.store (Memory.store pen.out (wordOffset pen.buf) (leBytes 8 w))
        (wordOffset (pen.buf + 1)) (load mem q n) (wordOffset (pen.buf + 1) + i)) :
    load (recordAt addr out szHdr).mem ((recordAt addr out szHdr).pointer (pen.buf + 1)) (8 * n) =
      load mem q (8 * n) ↔ ∀ i < 8 * n, n ≤ i → mem (q + i) = 0 := by
  rw [pointer_recordAt, load_mem_recordAt hroom]
  refine Memory.load_eq_load_iff_of_copied h fun i _ _ => ?_
  rw [Memory.store_of_le (by rw [Circular.length_leBytes, wordOffset_succ]; omega)]
  exact hblank _ (by rw [wordOffset_succ]; omega)

/-- A stack that is full and aligned is written as it is. -/
theorem content_stack (hsample : EncodableSample sample mask) (hf : stackUser.isIn mask = true)
    (hroom : wordOffset pen.buf + stackUser.bytes sample ≤ szHdr)
    (hstands : pen.Stands stackUser mem sample out) (s : PerfEventSample) :
    (stackUser.store (recordAt addr out szHdr) pen.buf s).content (recordAt addr out szHdr).mem
      stackUser = sample.content mem stackUser := by
  have hword := word_of_lead addr hsample hf hroom hstands (w := sample.sizeStack) rfl
  have hwords := hsample.eight_mul_stackWords hf
  have hdyn := (hsample.stack hf).1
  by_cases hzero : sample.sizeStack = 0
  · simp only [store, PerfEventSample.content, hword, hdyn, hzero, if_true]
    rfl
  · rw [bytes] at hroom
    -- the words of the field, and what has been written there
    have himage (i : ℕ) (hi : i < 8 + sample.sizeStack + 8) := hstands i (by
      rw [words, if_neg hzero]
      omega)
    simp only [image, if_neg hzero, hwords, hdyn] at himage
    have hdynWord : (recordAt addr out szHdr).word
        (pen.buf + 1 + stackWords sample.sizeStack) = sample.sizeStack := by
      have hoffset : wordOffset (pen.buf + 1 + stackWords sample.sizeStack) =
          wordOffset pen.buf + 8 + sample.sizeStack := by
        rw [wordOffset_add, wordOffset_succ, hwords]
      have hstored (i : ℕ) (hi : i < 8) := himage (8 + sample.sizeStack + i) (by omega)
      simp only [← Nat.add_assoc] at hstored
      rw [word_recordAt (by omega), hoffset,
        Memory.leWord_load_of_stored hsample.sizeStack hstored]
    simp only [store, PerfEventSample.content, hword, hdynWord, hdyn, if_neg hzero,
      if_neg (Nat.lt_irrefl _), pointer_recordAt, Prod.mk.injEq, true_and]
    rw [load_mem_recordAt (by rw [wordOffset_succ]; omega)]
    refine Memory.load_congr fun i hi => ?_
    rw [wordOffset_succ, Nat.add_assoc, himage _ (by omega), Memory.store_of_lt (by omega),
      ← Nat.add_assoc, Memory.store_load hi]

/-- The decoder finds the content of a field other than the raw data exactly if the field is
kept. -/
theorem content_of_stands (hsample : EncodableSample sample mask) (hf : f.isIn mask = true)
    (hraw : f ≠ raw) (hblank : pen.Blank) (hroom : wordOffset pen.buf + f.bytes sample ≤ szHdr)
    (hstands : pen.Stands f mem sample out) (s : PerfEventSample) :
    (f.store (recordAt addr out szHdr) pen.buf s).content (recordAt addr out szHdr).mem f =
      sample.content mem f ↔ f.IsKept mem sample mask := by
  have hword {w : ℕ} (h : f.lead sample = some w) :=
    word_of_lead addr hsample hf hroom hstands h
  cases f with
  | tid =>
    obtain ⟨h0, h1⟩ := halves_of_stored addr hsample.pid hsample.tid hroom hstands
    simp only [store, PerfEventSample.content, IsKept, h0, h1]
  | cpu =>
    obtain ⟨h0, h1⟩ := halves_of_stored addr hsample.cpu hsample.res hroom hstands
    simp only [store, PerfEventSample.content, IsKept, h0, h1]
  | read =>
    simp only [store, PerfEventSample.content, IsKept, iff_true, pointer_recordAt,
      Prod.mk.injEq, true_and]
    rw [bytes] at hroom
    rw [load_mem_recordAt hroom]
    refine Memory.load_congr fun i hi => ?_
    rw [hstands i hi]
    exact Memory.store_load hi
  | callchain =>
    simp only [store, PerfEventSample.content, IsKept, hword rfl, Prod.mk.injEq, true_and]
    refine load_words_iff (w := sample.nr) hblank ?_ fun i hi => ?_
    · rw [bytes] at hroom
      rw [wordOffset_succ]
      omega
    · rw [wordOffset_succ, Nat.add_assoc, hstands (8 + i) (by rw [words]; omega)]
      rfl
  | regsUser =>
    simp only [store, PerfEventSample.content, IsKept, hword rfl, if_pos (hsample.abi hf),
      Prod.mk.injEq, true_and]
    refine load_words_iff (w := sample.abi) hblank ?_ fun i hi => ?_
    · rw [bytes] at hroom
      rw [wordOffset_succ]
      omega
    · rw [wordOffset_succ, Nat.add_assoc, hstands (8 + i) (by rw [words]; omega)]
      rfl
  | stackUser =>
    simp only [IsKept, iff_true]
    exact content_stack hsample hf hroom hstands s
  | raw => exact absurd rfl hraw
  | _ => simp only [store, PerfEventSample.content, IsKept, hword rfl]

/-- The end of the raw data is overwritten by what follows it. -/
theorem content_raw (hsample : EncodableSample sample mask) (hf : raw.isIn mask = true)
    (hroom : wordOffset pen.buf + raw.bytes sample ≤ szHdr)
    (hstands : pen.Stands raw mem sample out)
    (hnext : ∀ w, wordAfterRaw sample mask = some w → ∀ i < 8,
      out (wordOffset (pen.buf + raw.words sample) + i) = (leBytes 8 w).getD i 0)
    (hlast : wordAfterRaw sample mask = none → ∀ a, perfHeaderSize ≤ a →
      out a = raw.image mem sample pen.out (wordOffset pen.buf) a) (s : PerfEventSample) :
    (raw.store (recordAt addr out szHdr) pen.buf s).content (recordAt addr out szHdr).mem raw =
      sample.content mem raw ↔ raw.IsKept mem sample mask := by
  have hstored (i : ℕ) (hi : i < sample.sizeRaw) :
      raw.image mem sample pen.out (wordOffset pen.buf) (wordOffset pen.buf + 4 + i) =
        mem (sample.dataRaw + i) := Memory.store_load hi
  simp only [store, PerfEventSample.content, IsKept, half0_raw hsample hf hroom hstands,
    Prod.mk.injEq, true_and]
  by_cases hzero : sample.sizeRaw = 0
  · simp [hzero, load]
  rw [if_pos hzero, pointer_recordAt, Nat.add_assoc,
    load_mem_recordAt (by rw [bytes] at hroom; omega), Memory.load_eq_load_iff]
  cases hafter : wordAfterRaw sample mask with
  | none =>
    refine iff_of_true (fun i hi => ?_) (by simp)
    rw [hlast hafter _ (by rw [wordOffset]; omega), hstored i hi]
  | some w =>
    have hkept (i : ℕ) (hi : i < sample.sizeRaw) (hlt : i < 8 * (sample.sizeRaw / 8) + 4) :
        out (wordOffset pen.buf + 4 + i) = mem (sample.dataRaw + i) := by
      rw [← hstored i hi, Nat.add_assoc, hstands (4 + i) (by rw [words]; omega)]
    have hover (i : ℕ) (hi : i < sample.sizeRaw) (hle : 8 * (sample.sizeRaw / 8) + 4 ≤ i) :
        out (wordOffset pen.buf + 4 + i) =
          (leBytes 8 w).getD (i - (8 * (sample.sizeRaw / 8) + 4)) 0 := by
      rw [← hnext w hafter _ (by omega), wordOffset_add, words]
      congr 1
      omega
    simp only [Option.some.injEq, forall_eq']
    constructor
    · intro h i hi hle
      rw [← h i hi, hover i hi hle]
    · intro h i hi
      by_cases hlt : i < 8 * (sample.sizeRaw / 8) + 4
      · exact hkept i hi hlt
      · rw [hover i hi (by omega), h i hi (by omega)]

theorem image_read {m : ℕ → Byte} {p i : ℕ} (hi : i < readFormatSize) :
    read.image mem sample m p (p + i) = mem (sample.v + i) := Memory.store_load hi

theorem image_of_lt {m : ℕ → Byte} {p a : ℕ} (h : a < p) : f.image mem sample m p a = m a := by
  cases f with
  | stackUser =>
    rw [image]
    split_ifs
    · exact Memory.store_of_lt h
    · rw [Memory.store_of_lt (by omega), Memory.store_of_lt (by omega), Memory.store_of_lt h]
  | tid | cpu | callchain | raw | regsUser =>
    rw [image, Memory.store_of_lt (by omega), Memory.store_of_lt h]
  | _ => exact Memory.store_of_lt h

/-- Only the raw data reaches beyond where the next field starts, by three bytes at most. -/
theorem image_of_le (hsample : EncodableSample sample mask) (hf : f.isIn mask = true)
    (hskews : f.skews = false) {m : ℕ → Byte} {p a : ℕ} (h : p + 8 * f.words sample + 3 ≤ a) :
    f.image mem sample m p a = m a := by
  cases f with
  | cpu | read => cases hskews
  | stackUser =>
    have hwords := hsample.eight_mul_stackWords hf
    rw [words] at h
    rw [image]
    split_ifs at h ⊢ with hzero
    · rw [Memory.store_of_le (by rw [Circular.length_leBytes]; omega)]
    · rw [Memory.store_of_le (by rw [Circular.length_leBytes]; omega),
        Memory.store_of_le (by rw [Memory.length_load]; omega),
        Memory.store_of_le (by rw [Circular.length_leBytes]; omega)]
  | tid =>
    simp only [words] at h
    rw [image, Memory.store_of_le (by rw [Circular.length_leBytes]; omega),
      Memory.store_of_le (by rw [Circular.length_leBytes]; omega)]
  | callchain | raw | regsUser =>
    rw [words] at h
    rw [image, Memory.store_of_le (by rw [Memory.length_load]; omega),
      Memory.store_of_le (by rw [Circular.length_leBytes]; omega)]
  | _ =>
    simp only [words] at h
    exact Memory.store_of_le (by rw [Circular.length_leBytes]; omega)

end SampleField

end Field

end Ddprof
