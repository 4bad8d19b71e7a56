import Ddprof.Lib.Memory
import Ddprof.Perf.Decoding

/-!
`samp2hdr`: the encoder of sample records.

The encoder writes the fields that the mask announces in the order in which `hdr2samp` reads them.
It does not always write what the decoder reads. It does not go on to the next word after the cpu,
and goes three words on after the counter values, where the decoder goes one word on; so every
field that follows one of these two is read from the wrong place. Of the call chain and of the
registers it copies as many bytes as there are words. And the end of raw data can stand in the
word that the next field overwrites.
-/

namespace Ddprof

open Circular (Byte leBytes leWord)
open Memory (load)

/-! ### The encoder -/

inductive EncoderStep
  /-- Bytes are copied to an offset from `buf`. -/
  | put (offset : ℕ) (bytes : List Byte)
  /-- `buf += words`. -/
  | advance (words : ℕ)
  /-- `sz += n`, which gives up if that reaches `sz_hdr`. -/
  | count (n : ℕ)

/-- Where a word after the header stands in the buffer. -/
def wordOffset (buf : ℕ) : ℕ := perfHeaderSize + 8 * buf

theorem wordOffset_add (buf n : ℕ) : wordOffset (buf + n) = wordOffset buf + 8 * n := by
  rw [wordOffset, Nat.mul_add, ← Nat.add_assoc, wordOffset]

theorem wordOffset_succ (buf : ℕ) : wordOffset (buf + 1) = wordOffset buf + 8 :=
  wordOffset_add buf 1

structure Pen where
  out : ℕ → Byte
  buf : ℕ := 0

def Pen.step (pen : Pen) : EncoderStep → Pen
  | .put offset bytes =>
    { pen with out := Memory.store pen.out (wordOffset pen.buf + offset) bytes }
  | .advance words => { pen with buf := pen.buf + words }
  | .count _ => pen

structure Encoder extends Pen where
  sz : ℕ := perfHeaderSize
  /-- The function has returned `false`. -/
  full : Bool := false

def Encoder.step (szHdr : ℕ) (e : Encoder) (s : EncoderStep) : Encoder :=
  if e.full then e
  else
    match s with
    | .put offset bytes => { e with toPen := e.toPen.step (.put offset bytes) }
    | .advance words => { e with toPen := e.toPen.step (.advance words) }
    | .count n => { e with sz := (e.sz + n) % 2 ^ 64, full := szHdr ≤ (e.sz + n) % 2 ^ 64 }

def putWord (w : ℕ) : List EncoderStep := [.put 0 (leBytes 8 w), .advance 1, .count 8]

/-- Two halves of a word, through `flipper`. -/
def putHalves (half0 half1 : ℕ) : List EncoderStep :=
  [.put 0 (leBytes 4 half0), .put 4 (leBytes 4 half1)]

/-- `sizeof(read_format)`. -/
def readFormatSize : ℕ := 24

def SampleField.encode (f : SampleField) (mem : ℕ → Byte) (sample : PerfEventSample) :
    List EncoderStep :=
  match f with
  | identifier => putWord sample.sampleId
  | ip => putWord sample.ip
  | tid => putHalves sample.pid sample.tid ++ [.advance 1, .count 8]
  | time => putWord sample.time
  | addr => putWord sample.addr
  | id => putWord sample.id
  | streamId => putWord sample.streamId
  -- `buf` stays where it is
  | cpu => putHalves sample.cpu sample.res ++ [.count 8]
  | period => putWord sample.period
  | read =>
    [.put 0 (load mem sample.v readFormatSize), .advance (readFormatSize / 8),
      .count readFormatSize]
  | callchain =>
    putWord sample.nr ++
      [.count (8 * sample.nr), .put 0 (load mem sample.ips sample.nr), .advance sample.nr]
  | raw =>
    [.put 0 (leBytes 4 sample.sizeRaw), .put 4 (load mem sample.dataRaw sample.sizeRaw),
      .advance (1 + sample.sizeRaw / 8), .count 8]
  | regsUser =>
    putWord sample.abi ++
      [.count (8 * kPerfRegisterCount), .put 0 (load mem sample.regs kPerfRegisterCount),
        .advance kPerfRegisterCount]
  | stackUser =>
    putWord sample.sizeStack ++
      if sample.sizeStack = 0 then []
      else
        [.count sample.sizeStack, .put 0 (load mem sample.dataStack sample.sizeStack),
          .advance (stackWords sample.sizeStack)] ++ putWord sample.dynSizeStack

def Encoder.field (mem : ℕ → Byte) (sample : PerfEventSample) (szHdr mask : ℕ) (e : Encoder)
    (f : SampleField) : Encoder :=
  if f.isIn mask then (f.encode mem sample).foldl (Encoder.step szHdr) e else e

/-- The buffer with the header, of which the size is filled in at the end. -/
def headerBytes (header : ℕ) : ℕ → Byte :=
  Memory.store (Memory.store (fun _ => 0) 0 (leBytes 8 header)) 6 (leBytes 2 0)

/-- The bytes of the buffer, or `none` for `false`. The data that the sample points to does not
overlap the buffer. -/
def samp2hdr (mem : ℕ → Byte) (sample : PerfEventSample) (szHdr mask : ℕ) : Option (List Byte) :=
  if szHdr < perfHeaderSize then none
  else
    let hdr : Encoder := { out := headerBytes sample.header }
    let e := fieldOrder.foldl (Encoder.field mem sample szHdr mask) (hdr.step szHdr (.count 0))
    if e.full then none else some (load (Memory.store e.out 6 (leBytes 2 e.sz)) 0 szHdr)

/-! ### What is encoded -/

/-- The numbers of a field and the bytes that it points to. -/
def PerfEventSample.content (mem : ℕ → Byte) (sample : PerfEventSample) :
    SampleField → List ℕ × List Byte
  | .identifier => ([sample.sampleId], [])
  | .ip => ([sample.ip], [])
  | .tid => ([sample.pid, sample.tid], [])
  | .time => ([sample.time], [])
  | .addr => ([sample.addr], [])
  | .id => ([sample.id], [])
  | .streamId => ([sample.streamId], [])
  | .cpu => ([sample.cpu, sample.res], [])
  | .period => ([sample.period], [])
  | .read => ([], load mem sample.v readFormatSize)
  | .callchain => ([sample.nr], load mem sample.ips (8 * sample.nr))
  | .raw => ([sample.sizeRaw], load mem sample.dataRaw sample.sizeRaw)
  | .regsUser => ([sample.abi], load mem sample.regs (8 * kPerfRegisterCount))
  | .stackUser =>
    ([sample.sizeStack, sample.dynSizeStack], load mem sample.dataStack sample.sizeStack)

/-- The values have the widths of the fields, the registers are those of 64-bit code, and the
stack is full and aligned. -/
structure EncodableSample (sample : PerfEventSample) (mask : ℕ) : Prop where
  sampleId : sample.sampleId < 2 ^ 64
  ip : sample.ip < 2 ^ 64
  pid : sample.pid < 2 ^ 32
  tid : sample.tid < 2 ^ 32
  time : sample.time < 2 ^ 64
  addr : sample.addr < 2 ^ 64
  id : sample.id < 2 ^ 64
  streamId : sample.streamId < 2 ^ 64
  cpu : sample.cpu < 2 ^ 32
  res : sample.res < 2 ^ 32
  period : sample.period < 2 ^ 64
  nr : sample.nr < 2 ^ 64
  sizeRaw : sample.sizeRaw < 2 ^ 32
  abi : SampleField.regsUser.isIn mask = true → sample.abi = regsAbi64
  sizeStack : sample.sizeStack < 2 ^ 64
  stack : SampleField.stackUser.isIn mask = true →
    sample.dynSizeStack = sample.sizeStack ∧ 8 ∣ sample.sizeStack

theorem EncodableSample.eight_mul_stackWords {sample : PerfEventSample} {mask : ℕ}
    (hsample : EncodableSample sample mask) (hf : SampleField.stackUser.isIn mask = true) :
    8 * SampleField.stackWords sample.sizeStack = sample.sizeStack := by
  have hlt := hsample.sizeStack
  have hdvd := (hsample.stack hf).2
  rw [SampleField.stackWords, Nat.mod_eq_of_lt (by omega)]
  omega

namespace SampleField

def bytes (f : SampleField) (sample : PerfEventSample) : ℕ :=
  match f with
  | read => readFormatSize
  | callchain => 8 + 8 * sample.nr
  | raw => 8 + sample.sizeRaw
  | regsUser => 8 + 8 * kPerfRegisterCount
  | stackUser => 8 + sample.sizeStack + 8
  | _ => 8

end SampleField

def bytesOf (sample : PerfEventSample) (mask : ℕ) (fs : List SampleField) : ℕ :=
  (fs.map fun f => if f.isIn mask then f.bytes sample else 0).sum

def encodedSize (sample : PerfEventSample) (mask : ℕ) : ℕ :=
  perfHeaderSize + bytesOf sample mask fieldOrder

/-- The encoder succeeds, and the decoder, with the static object as it is before, returns a sample
with the same fields. -/
def RoundTrips (mem : ℕ → Byte) (sample : PerfEventSample) (szHdr mask addr : ℕ)
    (before : PerfEventSample) : Prop :=
  ∃ bytes, samp2hdr mem sample szHdr mask = some bytes ∧
    let hdr : PerfRecord := ⟨addr, bytes⟩
    (hdr2samp before hdr mask).2 = true ∧ ∀ f ∈ fieldOrder, f.isIn mask = true →
      (hdr2samp before hdr mask).1.content hdr.mem f = sample.content mem f

/-! ### Where the two agree -/

namespace SampleField

/-- The encoder and the decoder go on by different numbers of words. -/
def skews : SampleField → Bool
  | cpu | read => true
  | _ => false

def words (f : SampleField) (sample : PerfEventSample) : ℕ :=
  match f with
  | cpu => 0
  | read => readFormatSize / 8
  | callchain => 1 + sample.nr
  | raw => 1 + sample.sizeRaw / 8
  | regsUser => 1 + kPerfRegisterCount
  | stackUser => if sample.sizeStack = 0 then 1 else 1 + stackWords sample.sizeStack + 1
  | _ => 1

/-- The word that a field starts with, where it is written as one. -/
def lead (f : SampleField) (sample : PerfEventSample) : Option ℕ :=
  match f with
  | identifier => some sample.sampleId
  | ip => some sample.ip
  | time => some sample.time
  | addr => some sample.addr
  | id => some sample.id
  | streamId => some sample.streamId
  | period => some sample.period
  | callchain => some sample.nr
  | regsUser => some sample.abi
  | stackUser => some sample.sizeStack
  | tid | cpu | read | raw => none

/-- What the encoder writes for a field that starts at an offset. -/
def image (f : SampleField) (mem : ℕ → Byte) (sample : PerfEventSample) (out : ℕ → Byte)
    (offset : ℕ) : ℕ → Byte :=
  match f with
  | identifier => Memory.store out offset (leBytes 8 sample.sampleId)
  | ip => Memory.store out offset (leBytes 8 sample.ip)
  | tid =>
    Memory.store (Memory.store out offset (leBytes 4 sample.pid)) (offset + 4)
      (leBytes 4 sample.tid)
  | time => Memory.store out offset (leBytes 8 sample.time)
  | addr => Memory.store out offset (leBytes 8 sample.addr)
  | id => Memory.store out offset (leBytes 8 sample.id)
  | streamId => Memory.store out offset (leBytes 8 sample.streamId)
  | cpu =>
    Memory.store (Memory.store out offset (leBytes 4 sample.cpu)) (offset + 4)
      (leBytes 4 sample.res)
  | period => Memory.store out offset (leBytes 8 sample.period)
  | read => Memory.store out offset (load mem sample.v readFormatSize)
  | callchain =>
    Memory.store (Memory.store out offset (leBytes 8 sample.nr)) (offset + 8)
      (load mem sample.ips sample.nr)
  | raw =>
    Memory.store (Memory.store out offset (leBytes 4 sample.sizeRaw)) (offset + 4)
      (load mem sample.dataRaw sample.sizeRaw)
  | regsUser =>
    Memory.store (Memory.store out offset (leBytes 8 sample.abi)) (offset + 8)
      (load mem sample.regs kPerfRegisterCount)
  | stackUser =>
    if sample.sizeStack = 0 then Memory.store out offset (leBytes 8 sample.sizeStack)
    else
      Memory.store (Memory.store (Memory.store out offset (leBytes 8 sample.sizeStack)) (offset + 8)
        (load mem sample.dataStack sample.sizeStack))
        (offset + 8 + 8 * stackWords sample.sizeStack) (leBytes 8 sample.dynSizeStack)

end SampleField

variable {mem : ℕ → Byte} {sample : PerfEventSample} {szHdr mask : ℕ}

/-- Where a field is written, and where the next one starts. -/
theorem Pen.foldl_encode (f : SampleField) (pen : Pen) :
    (f.encode mem sample).foldl Pen.step pen =
      ⟨f.image mem sample pen.out (wordOffset pen.buf), pen.buf + f.words sample⟩ := by
  cases f with
  | callchain | regsUser =>
    simp only [SampleField.encode, SampleField.image, SampleField.words, putWord, step,
      List.cons_append, List.nil_append, List.foldl_cons, List.foldl_nil, wordOffset_succ,
      Nat.add_zero, Nat.add_assoc]
  | stackUser =>
    simp only [SampleField.encode, SampleField.image, SampleField.words, putWord]
    split_ifs
    · rfl
    · simp only [step, List.cons_append, List.nil_append, List.foldl_cons, List.foldl_nil,
        wordOffset_add, Nat.mul_add, Nat.mul_one, Nat.add_zero, Nat.add_assoc]
  | _ => rfl

/-! ### Enough room -/

def EncoderStep.size : EncoderStep → ℕ
  | .count n => n
  | _ => 0

def Pen.field (mem : ℕ → Byte) (sample : PerfEventSample) (mask : ℕ) (pen : Pen)
    (f : SampleField) : Pen :=
  if f.isIn mask then (f.encode mem sample).foldl Pen.step pen else pen

namespace Encoder

theorem foldl_step_of_room (hszHdr : szHdr < 2 ^ 64) (steps : List EncoderStep) (e : Encoder)
    (hfull : e.full = false) (hroom : e.sz + (steps.map EncoderStep.size).sum < szHdr) :
    steps.foldl (step szHdr) e =
      ⟨steps.foldl Pen.step e.toPen, e.sz + (steps.map EncoderStep.size).sum, false⟩ := by
  induction steps generalizing e with
  | nil =>
    obtain ⟨pen, sz, full⟩ := e
    rw [List.foldl_nil, show full = false from hfull]
    rfl
  | cons s rest ih =>
    rw [List.map_cons, List.sum_cons] at hroom
    have hstep : e.step szHdr s = ⟨e.toPen.step s, e.sz + s.size, false⟩ := by
      cases s with
      | count n =>
        rw [EncoderStep.size] at hroom
        have hmod : (e.sz + n) % 2 ^ 64 = e.sz + n := Nat.mod_eq_of_lt (by omega)
        have hlt : ¬szHdr ≤ e.sz + n := by omega
        rw [step, hfull, if_neg Bool.false_ne_true]
        simp only [hmod, hlt, decide_false]
        rfl
      | _ =>
        rw [step, hfull, if_neg Bool.false_ne_true]
        simp only [EncoderStep.size, Nat.add_zero]
    rw [List.foldl_cons, hstep, ih _ rfl (by simp only; omega), List.map_cons, List.sum_cons,
      ← Nat.add_assoc]
    rfl

variable (mem sample) in
theorem sum_size_encode_le (f : SampleField) :
    ((f.encode mem sample).map EncoderStep.size).sum ≤ f.bytes sample := by
  cases f with
  | stackUser =>
    by_cases h : sample.sizeStack = 0
    · simp [SampleField.encode, putWord, EncoderStep.size, SampleField.bytes, h]
    · simp only [SampleField.encode, putWord, EncoderStep.size, SampleField.bytes, h, if_false,
        List.cons_append, List.nil_append, List.map_cons, List.map_nil, List.sum_cons,
        List.sum_nil]
      omega
  | _ => simp [SampleField.encode, putWord, putHalves, EncoderStep.size, SampleField.bytes]

variable (mem) in
theorem foldl_field_of_room (hszHdr : szHdr < 2 ^ 64) (fs : List SampleField) (e : Encoder)
    (hfull : e.full = false) (hroom : e.sz + bytesOf sample mask fs < szHdr) :
    ∃ sz, fs.foldl (field mem sample szHdr mask) e =
      ⟨fs.foldl (Pen.field mem sample mask) e.toPen, sz, false⟩ := by
  induction fs generalizing e with
  | nil =>
    obtain ⟨pen, sz, full⟩ := e
    exact ⟨sz, by rw [List.foldl_nil, show full = false from hfull]; rfl⟩
  | cons f rest ih =>
    rw [bytesOf, List.map_cons, List.sum_cons, ← bytesOf] at hroom
    rw [List.foldl_cons, List.foldl_cons]
    by_cases hf : f.isIn mask = true
    · have hsize := sum_size_encode_le mem sample f
      rw [if_pos hf] at hroom
      rw [field, if_pos hf, Pen.field, if_pos hf,
        foldl_step_of_room hszHdr _ _ hfull (by omega)]
      exact ih _ rfl (by simp only; omega)
    · rw [if_neg hf] at hroom
      rw [field, if_neg hf, Pen.field, if_neg hf]
      exact ih e hfull (by omega)

end Encoder

variable (mem sample mask) in
def writtenFields : ℕ → Byte :=
  (fieldOrder.foldl (Pen.field mem sample mask) { out := headerBytes sample.header }).out

variable (mem) in
/-- In a buffer with enough room, everything is written, and at last the size. -/
theorem samp2hdr_of_room (hszHdr : szHdr < 2 ^ 64) (hroom : encodedSize sample mask < szHdr) :
    ∃ out, samp2hdr mem sample szHdr mask = some (load out 0 szHdr) ∧
      ∀ a, perfHeaderSize ≤ a → out a = writtenFields mem sample mask a := by
  rw [encodedSize] at hroom
  have hcount : ({ out := headerBytes sample.header } : Encoder).step szHdr (.count 0) =
      { out := headerBytes sample.header } :=
    Encoder.foldl_step_of_room hszHdr [.count 0] { out := headerBytes sample.header } rfl
      (by simp [EncoderStep.size]; omega)
  obtain ⟨sz, hfields⟩ := Encoder.foldl_field_of_room mem hszHdr fieldOrder
    { out := headerBytes sample.header } rfl hroom
  refine ⟨Memory.store (writtenFields mem sample mask) 6 (leBytes 2 sz), ?_, fun a ha => ?_⟩
  · rw [samp2hdr, if_neg (by omega)]
    simp only [hcount, hfields]
    rfl
  · exact Memory.store_of_le (by rw [Circular.length_leBytes]; exact ha)

end Ddprof
