import Ddprof.Perf.RoundTrip

/-!
`hdr_time` on the records of the kernel.

The kernel begins a sample with the words that the mask announces, in the order of the sample, and
ends all other records with a block of words, in an order of its own. `hdr_time` does not walk over
the words: it counts the bits of the mask that stand for words between the time and the near end of
the record.
-/

namespace Ddprof

open Circular (Byte leBytes leWord)

/-! ### The records of the kernel -/

/-- The order of the words of a sample before its time. -/
def fieldsBeforeTime : List SampleField := [.identifier, .ip, .tid]

/-- The order of the words of the block that ends other records. -/
def sampleIdOrder : List SampleField := [.tid, .time, .id, .streamId, .cpu, .identifier]

/-- The words of those of the fields that the mask announces. -/
def announcedWords (fields : List SampleField) (mask : ℕ) (value : SampleField → BitVec 64) :
    List Byte :=
  (fields.filter (·.isIn mask)).flatMap fun f => leBytes 8 (value f).toNat

/-- A record with its header, whose size field counts the header too. -/
def kernelRecord (type misc : ℕ) (content : List Byte) : List Byte :=
  leBytes 4 type ++ leBytes 2 misc ++ leBytes 2 (perfHeaderSize + content.length) ++ content

/-- `PERF_RECORD_SAMPLE`: from the time on, what follows does not matter here. -/
def kernelSample (misc mask : ℕ) (value : SampleField → BitVec 64) (rest : List Byte) : List Byte :=
  kernelRecord 9 misc (announcedWords (fieldsBeforeTime ++ [.time]) mask value ++ rest)

/-- A record of another type, with `sample_id_all`. -/
def kernelRecordWithId (type misc mask : ℕ) (value : SampleField → BitVec 64)
    (body : List Byte) : List Byte :=
  kernelRecord type misc (body ++ announcedWords sampleIdOrder mask value)

/-- `PERF_RECORD_MMAP`, `LOST`, `COMM`, `EXIT`, `FORK` and `MMAP2`. -/
def recordsWithId : List ℕ := [1, 2, 3, 4, 7, 10]

/-! ### Words -/

section Words

variable {mask : ℕ}

theorem length_announcedWords (fields : List SampleField) (mask : ℕ)
    (value : SampleField → BitVec 64) :
    (announcedWords fields mask value).length = 8 * fields.countP (·.isIn mask) := by
  have hmap : announcedWords fields mask value =
      ((fields.filter (·.isIn mask)).map fun f => (value f).toNat).flatMap (leBytes 8) := by
    rw [announcedWords, List.flatMap_map]
  rw [hmap, Memory.length_flatMap_leBytes, List.length_map, List.countP_eq_length_filter]

theorem announcedWords_append (fields fields' : List SampleField)
    (value : SampleField → BitVec 64) :
    announcedWords (fields ++ fields') mask value =
      announcedWords fields mask value ++ announcedWords fields' mask value := by
  rw [announcedWords, List.filter_append, List.flatMap_append, announcedWords, announcedWords]

theorem announcedWords_cons {f : SampleField} (hf : f.isIn mask = true) (fields : List SampleField)
    (value : SampleField → BitVec 64) :
    announcedWords (f :: fields) mask value =
      leBytes 8 (value f).toNat ++ announcedWords fields mask value := by
  rw [announcedWords, List.filter_cons_of_pos (by exact hf), List.flatMap_cons, announcedWords]

theorem wordAt_append {pre : List Byte} {offset : ℕ} (hpre : pre.length = offset) (w : BitVec 64)
    (post : List Byte) : wordAt (pre ++ (leBytes 8 w.toNat ++ post)) offset = w.toNat := by
  rw [wordAt, List.drop_left' hpre, List.take_left' (Circular.length_leBytes 8 _),
    Circular.leWord_leBytes]
  exact Nat.mod_eq_of_lt w.isLt

/-! ### Bits -/

theorem SampleField.isIn_eq_testBit (f : SampleField) (mask : ℕ) :
    f.isIn mask = mask.testBit (Nat.log2 f.bit) := by
  have hbit : f.bit = 2 ^ Nat.log2 f.bit := by cases f <;> decide
  rw [SampleField.isIn, hbit, Nat.and_two_pow, Nat.log2_two_pow]
  cases mask.testBit (Nat.log2 f.bit) <;> simp

/-- To count the bits of some fields is to count the fields that the mask announces. -/
theorem popcount_and {bits : ℕ} {fields : List SampleField}
    (hbits : ((List.range 64).filter bits.testBit).Perm (fields.map fun f => Nat.log2 f.bit))
    (mask : ℕ) : popcount (mask &&& bits) = fields.countP (·.isIn mask) := by
  calc popcount (mask &&& bits)
      = (List.range 64).countP fun i => mask.testBit i && bits.testBit i := by
        rw [popcount]
        exact List.countP_congr fun i _ => by rw [Nat.testBit_and]
    _ = ((List.range 64).filter bits.testBit).countP mask.testBit := List.countP_filter.symm
    _ = (fields.map fun f => Nat.log2 f.bit).countP mask.testBit := hbits.countP_eq _
    _ = fields.countP (·.isIn mask) := by
        rw [List.countP_map]
        exact List.countP_congr fun f _ => by rw [Function.comp, f.isIn_eq_testBit]

end Words

/-! ### The time -/

section Time

variable {mask : ℕ} (value : SampleField → BitVec 64) (misc : ℕ)

theorem isIn_time_iff : SampleField.time.isIn mask = true ↔ mask &&& PerfSample.time ≠ 0 :=
  decide_eq_true_iff

theorem length_kernelRecord_header (type size : ℕ) :
    (leBytes 4 type ++ leBytes 2 misc ++ leBytes 2 size).length = perfHeaderSize := by
  simp [perfHeaderSize]

theorem type_kernelRecord {type : ℕ} (htype : type < 2 ^ 32) (content : List Byte) :
    leWord ((kernelRecord type misc content).take 4) = type := by
  rw [kernelRecord, List.append_assoc, List.append_assoc,
    List.take_left' (Circular.length_leBytes 4 type), Circular.leWord_leBytes]
  exact Nat.mod_eq_of_lt htype

theorem headerSize_kernelRecord (type : ℕ) {content : List Byte}
    (hsize : perfHeaderSize + content.length < 2 ^ 16) :
    headerSize (kernelRecord type misc content) = perfHeaderSize + content.length := by
  rw [headerSize, kernelRecord, List.append_assoc, List.drop_left' (by simp),
    List.take_left' (Circular.length_leBytes 2 _), Circular.leWord_leBytes]
  exact Nat.mod_eq_of_lt hsize

theorem popcount_beforeTime (mask : ℕ) :
    popcount (mask &&& (PerfSample.identifier ||| PerfSample.ip ||| PerfSample.tid)) =
      fieldsBeforeTime.countP (·.isIn mask) :=
  popcount_and (by decide) mask

/-- The bits before the time stand for the words before the time. -/
theorem hdrTime_kernelSample (htime : SampleField.time.isIn mask = true) (rest : List Byte) :
    hdrTime (kernelSample misc mask value rest) mask = (value .time).toNat := by
  have hmask := isIn_time_iff.mp htime
  rw [hdrTime, if_neg hmask, kernelSample, type_kernelRecord _ (by decide),
    show RecordType.decode 9 = .sample from rfl]
  simp only [popcount_beforeTime]
  rw [kernelRecord, announcedWords_append, announcedWords_cons htime,
    List.append_assoc (announcedWords fieldsBeforeTime mask value), ← List.append_assoc,
    List.append_assoc (leBytes 8 _)]
  refine wordAt_append ?_ _ _
  rw [List.length_append, length_kernelRecord_header, length_announcedWords]

/-- The bits from the time on stand for the words from the time on. -/
theorem hdrTime_kernelRecordWithId (htime : SampleField.time.isIn mask = true) {type : ℕ}
    (htype : type ∈ recordsWithId) {body : List Byte}
    (hsize : perfHeaderSize + (body ++ announcedWords sampleIdOrder mask value).length < 2 ^ 16) :
    hdrTime (kernelRecordWithId type misc mask value body) mask = (value .time).toNat := by
  have hmask := isIn_time_iff.mp htime
  have hcount : popcount (mask &&& (PerfSample.time ||| PerfSample.id ||| PerfSample.streamId |||
      PerfSample.cpu ||| PerfSample.identifier)) =
      [SampleField.time, .id, .streamId, .cpu, .identifier].countP (·.isIn mask) :=
    popcount_and (by decide) mask
  have hwords := length_announcedWords [.time, .id, .streamId, .cpu, .identifier] mask value
  have hlt : type < 2 ^ 32 := by
    have hall : ∀ t ∈ recordsWithId, t < 2 ^ 32 := by decide
    exact hall type htype
  have hword : wordAt (kernelRecordWithId type misc mask value body)
      (headerSize (kernelRecordWithId type misc mask value body) -
        8 * [SampleField.time, .id, .streamId, .cpu, .identifier].countP (·.isIn mask)) =
      (value .time).toNat := by
    rw [kernelRecordWithId, headerSize_kernelRecord misc type hsize, kernelRecord]
    rw [show sampleIdOrder = [.tid] ++ [.time, .id, .streamId, .cpu, .identifier] from rfl,
      announcedWords_append] at hsize ⊢
    rw [announcedWords_cons htime] at hwords ⊢
    rw [← List.append_assoc, ← List.append_assoc]
    refine wordAt_append ?_ _ _
    simp only [List.length_append, Circular.length_leBytes] at hwords ⊢
    simp only [perfHeaderSize]
    omega
  rw [hdrTime, if_neg hmask, ← hword, ← hcount, kernelRecordWithId, type_kernelRecord _ hlt]
  simp only [recordsWithId, List.mem_cons, List.not_mem_nil, or_false] at htype
  rcases htype with rfl | rfl | rfl | rfl | rfl | rfl <;> rfl

theorem foldl_next_of_words {hdr : PerfRecord} {fields : List SampleField}
    (hfields : ∀ f ∈ fields, ∀ buf, f.next hdr buf = buf + 1) (buf : ℕ) :
    fields.foldl (fun buf f => if f.isIn mask then f.next hdr buf else buf) buf =
      buf + fields.countP (·.isIn mask) := by
  induction fields generalizing buf with
  | nil => rfl
  | cons f rest ih =>
    rw [List.foldl_cons, ih fun g hg => hfields g (List.mem_cons_of_mem f hg), List.countP_cons]
    split_ifs
    · rw [hfields f List.mem_cons_self]
      omega
    · rfl

/-- The decoder of samples comes to the time behind the same words. -/
theorem time_hdr2samp (htime : SampleField.time.isIn mask = true) (before : PerfEventSample)
    (hdr : PerfRecord) :
    (hdr2samp before hdr mask).1.time = hdr.word (fieldsBeforeTime.countP (·.isIn mask)) := by
  have hsplit : fieldOrder = fieldsBeforeTime ++ .time :: fieldOrder.drop 4 := by decide
  have hwords : ∀ f ∈ fieldsBeforeTime, ∀ buf, f.next hdr buf = buf + 1 := by
    simp [fieldsBeforeTime, SampleField.next]
  have hat (c : Cursor) (hc : c.rejected = false) (hbuf : c.buf = 0) :
      (fieldsBeforeTime.foldl (Cursor.step hdr mask) c).rejected = false ∧
        (fieldsBeforeTime.foldl (Cursor.step hdr mask) c).buf =
          fieldsBeforeTime.countP (·.isIn mask) := by
    obtain ⟨hrej, hto⟩ := foldl_of_forall_ne hdr mask
      (show ∀ f ∈ fieldsBeforeTime, f ≠ .regsUser by decide) c hc
    rw [foldl_next_of_words hwords, hbuf, Nat.zero_add] at hto
    exact ⟨hrej, hto⟩
  obtain ⟨s, hs⟩ := content_hdr2samp hsplit htime hat before (fun _ => 0)
  simpa [PerfEventSample.content, SampleField.store] using hs

/-- `hdr_time` returns the time of a record: of a sample the one that `hdr2samp` decodes, of the
other records the one in the block at their end. -/
theorem hdrTime_eq_time (htime : mask &&& PerfSample.time ≠ 0) :
    (∀ (rest : List Byte) (before : PerfEventSample) (address : ℕ),
      hdrTime (kernelSample misc mask value rest) mask = (value .time).toNat ∧
      (hdr2samp before ⟨address, kernelSample misc mask value rest⟩ mask).1.time =
        hdrTime (kernelSample misc mask value rest) mask) ∧
    ∀ type ∈ recordsWithId, ∀ body : List Byte,
      perfHeaderSize + (body ++ announcedWords sampleIdOrder mask value).length < 2 ^ 16 →
      hdrTime (kernelRecordWithId type misc mask value body) mask = (value .time).toNat := by
  have hin := isIn_time_iff.mpr htime
  refine ⟨fun rest before address => ⟨hdrTime_kernelSample value misc hin rest, ?_⟩,
    fun type htype body hsize => hdrTime_kernelRecordWithId value misc hin htype hsize⟩
  rw [time_hdr2samp hin, ← popcount_beforeTime, hdrTime, if_neg htime, kernelSample,
    type_kernelRecord _ (by decide), show RecordType.decode 9 = .sample from rfl]
  rfl

/-- An exit record, with the pid, the time and the cpu at its end. -/
theorem hdrTime_exit :
    let mask := PerfSample.tid ||| PerfSample.time ||| PerfSample.cpu ||| PerfSample.regsUser
    mask &&& PerfSample.time ≠ 0 ∧
      hdrTime (kernelRecordWithId 4 0 mask (fun f => if f = .time then 1000 else 7)
        (List.replicate 24 1)) mask = 1000 := by
  intro mask
  have htime : mask &&& PerfSample.time ≠ 0 := by decide
  exact ⟨htime, (hdrTime_eq_time (fun f => if f = .time then 1000 else 7) 0 htime).2 4 (by decide)
    (List.replicate 24 1) (by decide)⟩

end Time

end Ddprof
