import Ddprof.Jit.RoundTrip
import Ddprof.Symbols.RuntimeLookup

/-!
Files with records with code, and headers of any size.

After the header the reader seeks to an absolute position: with `n` extra bytes it goes on at byte
`n` of the file, 40 bytes before the first record. The 40 bytes there are read as the start of a
record. It is shown for which of them the records are nevertheless read: when they are a record
without debug entries, or when there are no records and they end the file.
-/

namespace Ddprof

open Circular (Byte)
open ByteReader (bytes exists_bytes leWordAt)

/-! ### Records that are moved -/

def CodeLoadRecord.head (r : CodeLoadRecord) : List Byte :=
  r.record.recordPrefix.encode ++ r.record.encodeIntegers

namespace CodeLoadRecord

variable (r : CodeLoadRecord)

theorem length_head : r.head.length = 56 := by
  simp [head, jitPrefixSize, codeLoadIntegers]

theorem encode_eq : r.encode = r.head ++ (r.record.funcName ++ 0 :: r.code) := by
  rw [encode, frame, JitFrame.encode, head, List.append_assoc]

theorem leWordAt_head (x : List Byte) : leWordAt (r.head ++ x) 0 4 = 0 ∧
    leWordAt (r.head ++ x) 4 4 = r.record.recordPrefix.totalSize.toNat ∧
    leWordAt (r.head ++ x) 40 8 = r.code.length := by
  have hcode : leWordAt (r.record.encodeIntegers ++ x) 24 8 = r.code.length :=
    (JitFrame.leWordAt_codeSize r.record x).trans r.codeSize_eq
  have hmove :=
    ByteReader.leWordAt_append r.record.recordPrefix.encode (r.record.encodeIntegers ++ x) 24 8
  rw [JITRecordPrefix.length_encode, hcode] at hmove
  simp only [head, List.append_assoc]
  refine ⟨?_, ?_, hmove⟩
  · simp only [JITRecordPrefix.encode, List.append_assoc]
    exact (ByteReader.leWordAt_bytes_zero dvd_32 rfl _ _).trans (by rw [r.id_eq]; rfl)
  · simp only [JITRecordPrefix.encode, List.append_assoc]
    exact ByteReader.leWordAt_bytes dvd_32 rfl (by simp) _ _

end CodeLoadRecord

/-- A sequence that agrees with itself moved by `d` for a while is periodic. -/
theorem periodic_of_shift {g : ℕ → ℕ} {d n : ℕ} (h : ∀ i < n, g (i + d) = g i) (i k : ℕ)
    (hk : i + k * d < n + d) : g (i + k * d) = g i := by
  induction k with
  | zero => rw [Nat.zero_mul, Nat.add_zero]
  | succ k ih =>
    rw [Nat.succ_mul] at hk ⊢
    rw [← Nat.add_assoc, h _ (by omega), ih (by omega)]

/-- Of these periods all but 7 lead from each byte of the size of a record to a byte of its kind,
or to one of the upper half of the size of the code. -/
theorem period_reaches : ∀ d ∈ [1, 2, 3, 4, 5, 6, 8, 40], ∀ j ∈ [4, 5, 6, 7],
    ∃ k ∈ List.range 9, ∃ i ∈ [0, 1, 2, 3], i + k * d = j ∨ j + k * d = 44 + i := by
  decide

/-- The bytes of a record are not periodic: `g` are the bytes, with zeros for the kind, the size of
the record from byte 4 and the size of the code from byte 40 on, and the name from byte 56 on. -/
theorem not_periodic {g : ℕ → ℕ} {d total code name : ℕ}
    (hd : d = 7 ∨ d ∈ [1, 2, 3, 4, 5, 6, 8, 40])
    (hperiodic : ∀ i k, i + k * d < 56 + d → g (i + k * d) = g i)
    (hid : g 0 + 256 * (g 1 + 256 * (g 2 + 256 * (g 3 + 256 * 0))) = 0)
    (htotal : g 4 + 256 * (g 5 + 256 * (g 6 + 256 * (g 7 + 256 * 0))) = total)
    (hcode : g 40 + 256 * (g 41 + 256 * (g 42 + 256 * (g 43 + 256 * (g 44 + 256 * (g 45 +
      256 * (g 46 + 256 * (g 47 + 256 * 0))))))) = code)
    (hlt : total < 2 ^ 31) (heq : total = 57 + name + code) (hname : name = 0 ∨ 0 < g 56) :
    False := by
  obtain ⟨h44, h45, h46, h47⟩ : g 44 = 0 ∧ g 45 = 0 ∧ g 46 = 0 ∧ g 47 = 0 := by omega
  obtain ⟨h0, h1, h2, h3⟩ : g 0 = 0 ∧ g 1 = 0 ∧ g 2 = 0 ∧ g 3 = 0 := by omega
  obtain rfl | hd := hd
  · -- the sizes are multiples of one byte, and the name starts with a zero byte
    have h4 : g 46 = g 4 := hperiodic 4 6 (by decide)
    have h5 : g 47 = g 5 := hperiodic 5 6 (by decide)
    have h7 : g 7 = g 0 := hperiodic 0 1 (by decide)
    have h40 : g 40 = g 5 := hperiodic 5 5 (by decide)
    have h41 : g 41 = g 6 := hperiodic 6 5 (by decide)
    have h42 : g 42 = g 0 := hperiodic 0 6 (by decide)
    have h43 : g 43 = g 1 := hperiodic 1 6 (by decide)
    have h56 : g 56 = g 0 := hperiodic 0 8 (by decide)
    omega
  · have hlow : ∀ i ∈ [0, 1, 2, 3], g i = 0 ∧ g (44 + i) = 0 := by
      simp [h0, h1, h2, h3, h44, h45, h46, h47]
    have hzero : ∀ j ∈ [4, 5, 6, 7], g j = 0 := by
      intro j hj
      obtain ⟨k, -, i, hi, hreach⟩ := period_reaches d hd j hj
      have hi4 : i < 4 := by
        simp only [List.mem_cons, List.not_mem_nil, or_false] at hi
        omega
      have hj8 : j < 8 := by
        simp only [List.mem_cons, List.not_mem_nil, or_false] at hj
        omega
      rcases hreach with hreach | hreach
      · rw [← hreach, hperiodic i k (by omega)]
        exact (hlow i hi).1
      · rw [← hperiodic j k (by omega), hreach]
        exact (hlow i hi).2
    have h4 := hzero 4 (by decide)
    have h5 := hzero 5 (by decide)
    have h6 := hzero 6 (by decide)
    have h7 := hzero 7 (by decide)
    omega

namespace CodeLoadRecord

variable (r : CodeLoadRecord)

/-- A record does not start again a few bytes after it starts. -/
theorem not_shifted {d x y : List Byte} (hd : d.length = 7 ∨ d.length ∈ [1, 2, 3, 4, 5, 6, 8, 40])
    (hshift : d ++ (r.head ++ y) = r.head ++ x) (hname : r.record.funcName <+: x) : False := by
  have hstep : ∀ i < 56, ((r.head ++ x).getD (i + d.length) 0).toNat =
      ((r.head ++ x).getD i 0).toNat := fun i hi => by
    have hhead : i < r.head.length := r.length_head ▸ hi
    rw [← hshift, List.getD_append_right _ _ _ _ (Nat.le_add_left _ _), Nat.add_sub_cancel,
      List.getD_append _ _ _ _ hhead, hshift, List.getD_append _ _ _ _ hhead]
  have hfirst : r.record.funcName.length = 0 ∨ 0 < ((r.head ++ x).getD 56 0).toNat := by
    rw [List.getD_append_right _ _ _ _ r.length_head.le, r.length_head]
    obtain ⟨rest, rfl⟩ := hname
    have hzero := r.zero_notMem
    generalize r.record.funcName = name at hzero ⊢
    cases name with
    | nil => exact .inl rfl
    | cons b name =>
      refine .inr (Nat.pos_of_ne_zero fun hb => hzero ?_)
      rw [show (0 : Byte) = b from (BitVec.eq_of_toNat_eq hb).symm]
      exact List.mem_cons_self
  have heq : r.record.recordPrefix.totalSize.toNat =
      57 + r.record.funcName.length + r.code.length := by
    rw [r.totalSize_eq, jitPrefixSize, codeLoadIntegers]
    omega
  obtain ⟨hid, htotal, hcode⟩ := r.leWordAt_head x
  simp only [ByteReader.leWordAt_succ, ByteReader.leWordAt_zero, Nat.reduceAdd] at hid htotal hcode
  let g : ℕ → ℕ := fun i => ((r.head ++ x).getD i 0).toNat
  exact not_periodic (g := g) hd (periodic_of_shift (g := g) hstep) hid htotal hcode
    r.totalSize_lt heq hfirst

end CodeLoadRecord

/-- A file as it is written: a header, its extra bytes, and records with code. -/
structure JitdumpFile where
  header : JITHeader
  extra : List Byte
  records : List CodeLoadRecord
  magic_eq : header.magic = jitHeaderMagic
  version_eq : header.version = jitHeaderVersion
  totalSize_eq : header.totalSize.toNat = jitHeaderSize + extra.length

namespace JitdumpFile

variable (f : JitdumpFile) {maxEntries : ℕ}

def recordBytes : List Byte := f.records.flatMap CodeLoadRecord.encode

def encode : List Byte := f.header.encode ++ f.extra ++ f.recordBytes

/-- The last bytes before the records, as many as a header has without extra bytes. -/
def window : List Byte := (f.header.encode ++ f.extra).drop f.extra.length

theorem length_window : f.window.length = 40 := by
  simp [window, jitHeaderSize]

theorem jitReadHeader_encode : (jitReadHeader f.encode).2 =
    .ok (if f.extra = [] then f.recordBytes else f.window ++ f.recordBytes) := by
  have hdecode : JITHeader.decode f.encode = some (f.header, f.extra ++ f.recordBytes) :=
    JITHeader.decode_eq_some.mpr (List.append_assoc _ _ _)
  have hremaining : ((f.header.totalSize.toNat : ℤ) - jitHeaderSize) = f.extra.length := by
    rw [f.totalSize_eq]
    omega
  rw [jitReadHeader, hdecode]
  simp only [hremaining, f.magic_eq, f.version_eq, if_true, ne_eq, not_true_eq_false, if_false]
  by_cases hnil : f.extra = []
  · rw [if_pos hnil, hnil]
    rfl
  · rw [if_neg hnil, if_pos (Int.natCast_pos.mpr (List.length_pos_iff.mpr hnil)),
      Int.toNat_natCast, encode, List.drop_append_of_le_length (by simp)]
    rfl

end JitdumpFile

/-! ### What the reader makes of the bytes before the records -/

theorem JITRecordPrefix.encode_append_inj {p q : JITRecordPrefix} {x y : List Byte}
    (h : p.encode ++ x = q.encode ++ y) : p = q ∧ x = y := by
  have hp : decode (p.encode ++ x) = some (p, x) := decode_eq_some.mpr rfl
  rw [decode_eq_some.mpr h] at hp
  exact ⟨(Prod.mk.inj (Option.some.inj hp)).1.symm, (Prod.mk.inj (Option.some.inj hp)).2.symm⟩

variable {file : List Byte}

theorem nextFrame_eq_none :
    nextFrame file = .ok none ↔ jitReadPrefix file = none := by
  rw [nextFrame]
  constructor
  · intro h
    cases hpre : jitReadPrefix file with
    | none => rfl
    | some r =>
      rw [hpre] at h
      simp only at h
      split_ifs at h <;> first
        | cases h
        | (cases hbuffer : readBuffer _ _ _ _ _ <;> rw [hbuffer] at h <;> cases h)
  · intro h
    rw [h]

theorem jitReadPrefix_eq_none {p : JITRecordPrefix} {rest : List Byte} :
    jitReadPrefix (p.encode ++ rest) = none ↔ p.id = jitCodeClose ∨ jitCodeMax ≤ p.id := by
  rw [jitReadPrefix, JITRecordPrefix.decode_eq_some.mpr rfl, Option.bind_some]
  split_ifs with hclose hmax
  · exact iff_of_true rfl (.inl hclose)
  · exact iff_of_true rfl (.inr hmax)
  · exact iff_of_false (by rintro ⟨⟩) (not_or.mpr ⟨hclose, hmax⟩)

theorem nextFrame_of_length_lt (h : file.length < jitPrefixSize) :
    nextFrame file = .ok none := by
  refine nextFrame_eq_none.mpr ?_
  cases hpre : jitReadPrefix file with
  | none => rfl
  | some r =>
    obtain ⟨rfl, -⟩ := jitReadPrefix_eq_some.mp hpre
    rw [List.length_append, JITRecordPrefix.length_encode] at h
    omega

theorem exists_window {window : List Byte} (h : window.length = 40) :
    ∃ (p : JITRecordPrefix) (codeAddr nrEntry tail : BitVec 64),
      window = p.encode ++ (bytes codeAddr ++ (bytes nrEntry ++ bytes tail)) := by
  obtain ⟨p, buf, rfl⟩ := JITRecordPrefix.exists_encode (show jitPrefixSize ≤ window.length by
    rw [h]
    decide)
  rw [List.length_append, JITRecordPrefix.length_encode, jitPrefixSize] at h
  obtain ⟨addr, buf₁, h₁, hlen₁⟩ := exists_bytes dvd_64 (show 64 / 8 ≤ buf.length by omega)
  obtain ⟨count, buf₂, h₂, hlen₂⟩ := exists_bytes dvd_64 (show 64 / 8 ≤ buf₁.length by omega)
  obtain ⟨tail, rest, h₃, hlen₃⟩ := exists_bytes dvd_64 (show 64 / 8 ≤ buf₂.length by omega)
  have hrest : rest = [] := List.length_eq_zero_iff.mp (by omega)
  exact ⟨p, addr, count, tail, by rw [h₁, h₂, h₃, hrest, List.append_nil]⟩

variable {frame : JitFrame}

theorem JitFrame.Whole.le_length_encode (h : frame.Whole) :
    32 ≤ frame.encode.length := by
  rw [frame.length_encode, jitPrefixSize]
  obtain ⟨-, hsize⟩ | ⟨-, hsize⟩ := h.kind
  · rw [codeLoadIntegers] at hsize
    omega
  · rw [debugInfoIntegers] at hsize
    omega

section Window

variable {maxEntries : ℕ} {p : JITRecordPrefix} {codeAddr nrEntry tail : BitVec 64}
  {records : List CodeLoadRecord}

/-- The records are not read when more bytes than the window are taken for debug entries. -/
theorem length_le_of_readsRecords
    (h : ReadsRecords maxEntries file (records.map CodeLoadRecord.record)) :
    (records.flatMap CodeLoadRecord.encode).length ≤ file.length :=
  (length_flatMap_encode records).le.trans h.sum_totalSize_le

/-- The first record is not found where records are moved by a few bytes. -/
theorem not_codeLoad_shifted {d file rest : List Byte} {r : CodeLoadRecord}
    (hd : d.length = 7 ∨ d.length ∈ [1, 2, 3, 4, 5, 6, 8, 40])
    (hnext : nextFrame (d ++ (r.encode ++ file)) = .ok (some (frame, rest)))
    (hdecode : frame.decode maxEntries = .ok (.codeLoad r.record)) : False := by
  obtain ⟨hfile, hwhole⟩ := whole_of_nextFrame hnext
  obtain ⟨hpre, buf, hbuff, hname⟩ := hwhole.of_decode_codeLoad hdecode
  refine r.not_shifted (d := d) (x := buf ++ rest)
    (y := r.record.funcName ++ 0 :: r.code ++ file) hd ?_ (hname.trans (List.prefix_append _ _))
  rw [r.encode_eq, List.append_assoc] at hfile
  rw [hfile, JitFrame.encode, hbuff, ← hpre, CodeLoadRecord.head]
  simp only [List.append_assoc]

/-- Records that are moved by up to eight bytes are not read, unless there are none. -/
theorem records_eq_nil_of_shifted {d : List Byte} (hpos : 0 < d.length) (hle : d.length ≤ 8)
    (h : ReadsRecords maxEntries (d ++ records.flatMap CodeLoadRecord.encode)
      (records.map CodeLoadRecord.record)) : records = [] := by
  cases records with
  | nil => rfl
  | cons r records =>
    exfalso
    have hd : d.length = 7 ∨ d.length ∈ [1, 2, 3, 4, 5, 6, 8, 40] := by
      simp only [List.mem_cons, List.not_mem_nil, or_false]
      omega
    cases h with
    | codeLoad hnext hdecode => exact not_codeLoad_shifted hd hnext hdecode
    | debugInfo hnext hdecode hrest =>
      -- the bytes that are left are fewer than those of the records
      obtain ⟨hfile, hwhole⟩ := whole_of_nextFrame hnext
      have hle : ((r :: records).flatMap CodeLoadRecord.encode).length ≤ _ :=
        length_le_of_readsRecords hrest
      have hlength := congrArg List.length hfile
      rw [List.length_append, List.length_append] at hlength
      have hframe := hwhole.le_length_encode
      omega

/-- There is no room for an entry in a record that ends with the window. -/
theorem nrEntry_eq_zero {rest buf : List Byte} (hwhole : frame.Whole) (hholds : frame.HoldsEntries)
    (hbody : bytes codeAddr ++ (bytes nrEntry ++ buf) = frame.buff ++ rest)
    (hsize : frame.recordPrefix.totalSize.toNat ≤ 40) : nrEntry = 0 := by
  obtain ⟨entries, hcount, -, hpre⟩ := hholds
  have hframe := hwhole.le_length_encode
  have htotal := hwhole.totalSize
  rw [JitFrame.length_encode, jitPrefixSize] at hframe
  rw [jitPrefixSize] at htotal
  have hnr : frame.nrEntry = nrEntry.toNat := by
    rw [JitFrame.nrEntry, ← ByteReader.leWordAt_append_left (by omega) rest, ← hbody]
    exact ByteReader.leWordAt_bytes dvd_64 rfl (by simp) _ _
  have hroom := hpre.length_le
  rw [List.length_drop, debugInfoIntegers] at hroom
  cases entries with
  | nil => exact BitVec.eq_of_toNat_eq (hnr.symm.trans hcount.symm)
  | cons e rest =>
    simp only [List.flatMap_cons, List.length_append, DebugEntry.encode, ByteReader.length_bytes,
      List.length_singleton] at hroom
    omega

/-- The bytes before the records pass for debug entries only if they are a record without entries,
which ends at the first record if there is one. -/
theorem window_of_debugInfo {rest : List Byte} {debugInfo : JITRecordDebugInfo}
    (hnext : nextFrame (p.encode ++ (bytes codeAddr ++ (bytes nrEntry ++ bytes tail)) ++
      records.flatMap CodeLoadRecord.encode) = .ok (some (frame, rest)))
    (hdecode : frame.decode maxEntries = .ok (.debugInfo debugInfo))
    (hrest : ReadsRecords maxEntries rest (records.map CodeLoadRecord.record)) :
    p.id = jitCodeDebugInfo ∧ nrEntry = 0 ∧ (p.totalSize.toNat = 40 ∨
      records = [] ∧ 32 ≤ p.totalSize.toNat ∧ p.totalSize.toNat ≤ 40) := by
  obtain ⟨hfile, hwhole⟩ := whole_of_nextFrame hnext
  have hwindow : (p.encode ++ (bytes codeAddr ++ (bytes nrEntry ++ bytes tail))).length = 40 := by
    simp [jitPrefixSize]
  have hlength := congrArg List.length hfile
  rw [List.length_append, hwindow, List.length_append] at hlength
  have hlong := length_le_of_readsRecords hrest
  have hframe := hwhole.le_length_encode
  have htotal : frame.recordPrefix.totalSize.toNat = frame.encode.length :=
    hwhole.totalSize.trans frame.length_encode.symm
  -- what is read next is what is left of the window, and the records
  have hleft : rest = (p.encode ++ (bytes codeAddr ++ (bytes nrEntry ++ bytes tail))).drop
      frame.encode.length ++ records.flatMap CodeLoadRecord.encode := by
    have hdrop := congrArg (List.drop frame.encode.length) hfile
    rw [List.drop_left, List.drop_append_of_le_length (by omega)] at hdrop
    exact hdrop.symm
  have hsplit := hfile
  simp only [JitFrame.encode, List.append_assoc] at hsplit
  obtain ⟨rfl, hbody⟩ := JITRecordPrefix.encode_append_inj hsplit
  obtain ⟨hid, hholds⟩ := hwhole.of_decode_debugInfo hdecode
  refine ⟨hid, nrEntry_eq_zero hwhole hholds hbody (by omega), ?_⟩
  rcases Nat.lt_or_ge frame.recordPrefix.totalSize.toNat 40 with hlt | hge
  · refine .inr ⟨?_, by omega, hlt.le⟩
    rw [hleft] at hrest
    refine records_eq_nil_of_shifted ?_ ?_ hrest
    · rw [List.length_drop, hwindow]
      omega
    · rw [List.length_drop, hwindow]
      omega
  · exact .inl (by omega)

theorem readsRecords_of_emptyRecord (hid : p.id = jitCodeDebugInfo)
    (hsize : p.totalSize.toNat = 40 ∨
      records = [] ∧ 32 ≤ p.totalSize.toNat ∧ p.totalSize.toNat ≤ 40) :
    ReadsRecords maxEntries (p.encode ++ (bytes codeAddr ++ (bytes 0#64 ++ bytes tail)) ++
      records.flatMap CodeLoadRecord.encode) (records.map CodeLoadRecord.record) := by
  let frame : JitFrame :=
    ⟨p, bytes codeAddr ++ (bytes 0#64 ++ (bytes tail).take (p.totalSize.toNat - 32))⟩
  have hwhole : frame.Whole := by
    refine ⟨.inr ⟨hid, ?_⟩, ?_⟩
    · simp [frame, debugInfoIntegers]
      omega
    · simp [frame, jitPrefixSize]
      omega
  have hfile : p.encode ++ (bytes codeAddr ++ (bytes 0#64 ++ bytes tail)) ++
      records.flatMap CodeLoadRecord.encode = frame.encode ++
        ((bytes tail).drop (p.totalSize.toNat - 32) ++ records.flatMap CodeLoadRecord.encode) := by
    rw [← List.append_assoc frame.encode]
    congr 1
    simp only [frame, JitFrame.encode, List.append_assoc, List.take_append_drop]
  have hnr : frame.nrEntry = 0 := ByteReader.leWordAt_bytes dvd_64 rfl (by simp) _ _
  obtain ⟨_, _, hdecode⟩ := hwhole.decode_debugInfo maxEntries hid
  rw [hnr, if_neg (Nat.not_lt_zero _)] at hdecode
  rw [hfile]
  refine .debugInfo (hwhole.nextFrame _) hdecode ?_
  obtain hsize | ⟨rfl, hlow, -⟩ := hsize
  · rw [hsize, List.drop_eq_nil_of_le (by simp), List.nil_append]
    exact readsRecords_encode maxEntries records
  · refine .done (nextFrame_of_length_lt ?_)
    simp [jitPrefixSize]
    omega

/-- Which bytes before the records leave the records readable. -/
theorem readsRecords_window_iff :
    ReadsRecords maxEntries (p.encode ++ (bytes codeAddr ++ (bytes nrEntry ++ bytes tail)) ++
        records.flatMap CodeLoadRecord.encode) (records.map CodeLoadRecord.record) ↔
      p.id = jitCodeDebugInfo ∧ nrEntry = 0 ∧ (p.totalSize.toNat = 40 ∨
        records = [] ∧ 32 ≤ p.totalSize.toNat ∧ p.totalSize.toNat ≤ 40) ∨
      records = [] ∧ (p.id = jitCodeClose ∨ jitCodeMax ≤ p.id) := by
  constructor
  · intro h
    generalize hcodeLoads : records.map CodeLoadRecord.record = codeLoads at h
    cases h with
    | done hnext =>
      rw [nextFrame_eq_none, List.append_assoc, jitReadPrefix_eq_none] at hnext
      exact .inr ⟨List.map_eq_nil_iff.mp hcodeLoads, hnext⟩
    | codeLoad hnext hdecode =>
      obtain ⟨r, rest, rfl, rfl, -⟩ := List.map_eq_cons_iff.mp hcodeLoads
      refine (not_codeLoad_shifted (.inr ?_) hnext hdecode).elim
      simp [jitPrefixSize]
    | debugInfo hnext hdecode hrest =>
      exact .inl (window_of_debugInfo hnext hdecode (hcodeLoads ▸ hrest))
  · rintro (⟨hid, rfl, hsize⟩ | ⟨rfl, hid⟩)
    · exact readsRecords_of_emptyRecord hid hsize
    · refine .done (nextFrame_eq_none.mpr ?_)
      rw [List.append_assoc]
      exact jitReadPrefix_eq_none.mpr hid

theorem leWordAt_window (p : JITRecordPrefix) (codeAddr nrEntry tail : BitVec 64) :
    leWordAt (p.encode ++ (bytes codeAddr ++ (bytes nrEntry ++ bytes tail))) 0 4 = p.id.toNat ∧
    leWordAt (p.encode ++ (bytes codeAddr ++ (bytes nrEntry ++ bytes tail))) 4 4 =
      p.totalSize.toNat ∧
    leWordAt (p.encode ++ (bytes codeAddr ++ (bytes nrEntry ++ bytes tail))) 24 8 =
      nrEntry.toNat := by
  refine ⟨?_, ?_, ?_⟩
  · simp only [JITRecordPrefix.encode, List.append_assoc]
    exact ByteReader.leWordAt_bytes_zero dvd_32 rfl _ _
  · simp only [JITRecordPrefix.encode, List.append_assoc]
    exact ByteReader.leWordAt_bytes dvd_32 rfl (by simp) _ _
  · rw [← List.append_assoc]
    exact ByteReader.leWordAt_bytes dvd_64 rfl (by simp [jitPrefixSize]) _ _

end Window

namespace JitdumpFile

variable (f : JitdumpFile) (maxEntries : ℕ)

/-- There are no extra bytes; or the last 40 bytes before the records are a record without debug
entries that ends with them; or there are no records, and these bytes are a record without debug
entries or end the file. -/
def Readable : Prop :=
  f.extra = [] ∨
    leWordAt f.window 0 4 = 2 ∧ leWordAt f.window 24 8 = 0 ∧ (leWordAt f.window 4 4 = 40 ∨
      f.records = [] ∧ 32 ≤ leWordAt f.window 4 4 ∧ leWordAt f.window 4 4 ≤ 40) ∨
    f.records = [] ∧ (leWordAt f.window 0 4 = 3 ∨ 5 ≤ leWordAt f.window 0 4)

/-- The records are read as they are written if and only if the bytes at which the reader goes on
let it get to them. -/
theorem jitdumpRead_records_iff :
    (jitdumpRead maxEntries (some f.encode)).2 = none ∧
        (jitdumpRead maxEntries (some f.encode)).1.codeLoad =
          f.records.map CodeLoadRecord.record ↔ f.Readable := by
  rw [jitdumpRead_of_ok f.jitReadHeader_encode]
  refine (readsRecords_iff ⟨(jitReadHeader f.encode).1, [], []⟩).symm.trans ?_
  rw [Readable]
  by_cases hextra : f.extra = []
  · rw [if_pos hextra]
    exact iff_of_true (readsRecords_encode maxEntries f.records) (.inl hextra)
  · obtain ⟨p, codeAddr, nrEntry, tail, hwindow⟩ := exists_window f.length_window
    obtain ⟨hid, hsize, hcount⟩ := leWordAt_window p codeAddr nrEntry tail
    rw [if_neg hextra, or_iff_right hextra, hwindow, recordBytes, readsRecords_window_iff, hid,
      hsize, hcount]
    simp only [← BitVec.toNat_inj, BitVec.le_def]
    exact Iff.rfl

/-- A record for the function `f`, with two bytes of code. -/
def shortFunction : CodeLoadRecord where
  record :=
    { recordPrefix := ⟨jitCodeLoad, 60, 0⟩
      pid := 7
      tid := 7
      vma := 0x1000
      codeAddr := 0x1000
      codeSize := 2
      codeIndex := 1
      funcName := [0x66] }
  code := [0x90, 0xc3]
  id_eq := rfl
  codeSize_eq := rfl
  totalSize_eq := rfl
  totalSize_lt := by decide
  zero_notMem := by decide

def extendedHeader : JitdumpFile where
  header := ⟨jitHeaderMagic, jitHeaderVersion, 48, 62, 0, 7, 0, 0⟩
  extra := [0, 0, 0, 0, 0, 0, 0, 0]
  records := [shortFunction]
  magic_eq := rfl
  version_eq := rfl
  totalSize_eq := rfl

/-- The size of the header is taken for the kind of a record, and ends the file. -/
theorem jitdumpRead_extendedHeader :
    (jitdumpRead 100 (some extendedHeader.encode)).2 = none ∧
      (jitdumpRead 100 (some extendedHeader.encode)).1.codeLoad = [] := by
  decide +kernel

end JitdumpFile

/-! ### The symbols of a file -/

/-- What `insert_or_replace` is called with. -/
def JITRecordCodeLoad.codeSymbol (codeLoad : JITRecordCodeLoad) : CodeSymbol where
  symbol := codeLoad.funcName.map fun b => Char.ofNat b.toNat
  address := codeLoad.codeAddr.toNat
  codeSize := codeLoad.codeSize.toNat

/-- What the lookup of symbols sees of a file, if the behaviour of the reader is defined. -/
def JitdumpRead.ofResult (r : JITDump × Option JitStop) : Option JitdumpRead :=
  match r.2 with
  | none => some (.read .ok (r.1.codeLoad.map JITRecordCodeLoad.codeSymbol))
  | some .noFile => some .noFile
  | some stop => stop.severity.map fun severity =>
    .read severity (r.1.codeLoad.map JITRecordCodeLoad.codeSymbol)

/-- The symbols of a file with a plain header are inserted one after the other. -/
theorem JitdumpFile.fillFromJitdump_encode (f : JitdumpFile) (hextra : f.extra = [])
    (maxEntries : ℕ) (s : RuntimeSymbols) (atPath : JitdumpRead) :
    ∃ inRoot, JitdumpRead.ofResult (jitdumpRead maxEntries (some f.encode)) = some inRoot ∧
      (s.fillFromJitdump inRoot atPath).1 =
        s.load (f.records.map fun r => r.record.codeSymbol) := by
  have hheader := f.jitReadHeader_encode
  rw [if_pos hextra] at hheader
  obtain ⟨hstop, hcode⟩ := (readsRecords_encode maxEntries f.records).jitReadRecords
    { header := (jitReadHeader f.encode).1 }
  rw [jitdumpRead_of_ok hheader, JitdumpRead.ofResult, recordBytes, hstop]
  refine ⟨_, rfl, ?_⟩
  rw [RuntimeSymbols.fillFromJitdump_fst, jitdumpSymbols, hcode, List.nil_append, List.map_map]
  rfl

theorem JitdumpFile.fillFromJitdump_encode_short :
    let f : JitdumpFile :=
      ⟨⟨jitHeaderMagic, jitHeaderVersion, 40, 62, 0, 7, 0, 0⟩, [], [shortFunction], rfl, rfl, rfl⟩
    ∃ inRoot, JitdumpRead.ofResult (jitdumpRead 100 (some f.encode)) = some inRoot ∧
      (RuntimeSymbols.fillFromJitdump {} inRoot .noFile).1 =
        RuntimeSymbols.load {} [shortFunction.record.codeSymbol] :=
  JitdumpFile.fillFromJitdump_encode _ rfl 100 {} .noFile

end Ddprof
