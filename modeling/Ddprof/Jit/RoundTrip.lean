import Ddprof.Jit.Bounds

/-!
Files that are written as the format says, and what the reader makes of them.

Records with code are read back as they are. Of the debug entries a name that is given as the one
of the previous entry is lost: it is assigned, and then overwritten by the two bytes that stand for
it. And the bytes that a header may have after its fields are not skipped: the reader seeks to as
many bytes from the start of the file as there are such bytes, which is 40 bytes too early.
-/

namespace Ddprof

open Circular (Byte)
open ByteReader (bytes)

/-! ### Runs of the loop -/

/-- The records are read to the end, and those with code are these. -/
inductive ReadsRecords (maxEntries : ℕ) : List Byte → List JITRecordCodeLoad → Prop
  | done {file : List Byte} (hnext : nextFrame file = .ok none) : ReadsRecords maxEntries file []
  | codeLoad {file rest : List Byte} {frame : JitFrame} {codeLoad : JITRecordCodeLoad}
      {codeLoads : List JITRecordCodeLoad} (hnext : nextFrame file = .ok (some (frame, rest)))
      (hdecode : frame.decode maxEntries = .ok (.codeLoad codeLoad))
      (hrest : ReadsRecords maxEntries rest codeLoads) :
      ReadsRecords maxEntries file (codeLoad :: codeLoads)
  | debugInfo {file rest : List Byte} {frame : JitFrame} {debugInfo : JITRecordDebugInfo}
      {codeLoads : List JITRecordCodeLoad} (hnext : nextFrame file = .ok (some (frame, rest)))
      (hdecode : frame.decode maxEntries = .ok (.debugInfo debugInfo))
      (hrest : ReadsRecords maxEntries rest codeLoads) : ReadsRecords maxEntries file codeLoads

section Runs

variable {maxEntries : ℕ} {file : List Byte} {codeLoads : List JITRecordCodeLoad}

theorem ReadsRecords.jitReadRecords (h : ReadsRecords maxEntries file codeLoads)
    (jitDump : JITDump) : (jitReadRecords maxEntries file jitDump).2 = none ∧
      (jitReadRecords maxEntries file jitDump).1.codeLoad = jitDump.codeLoad ++ codeLoads := by
  induction h generalizing jitDump with
  | done hnext =>
    rw [jitReadRecords_step, hnext]
    exact ⟨rfl, (List.append_nil _).symm⟩
  | codeLoad hnext hdecode _ ih =>
    rw [jitReadRecords_step, hnext]
    simp only [hdecode]
    obtain ⟨hstop, hcode⟩ := ih (jitDump.push (.codeLoad _))
    exact ⟨hstop, hcode.trans (by simp [JITDump.push])⟩
  | debugInfo hnext hdecode _ ih =>
    rw [jitReadRecords_step, hnext]
    simp only [hdecode]
    exact ih (jitDump.push (.debugInfo _))

theorem exists_readsRecords {jitDump : JITDump}
    (h : (jitReadRecords maxEntries file jitDump).2 = none) :
    ∃ codeLoads, ReadsRecords maxEntries file codeLoads := by
  rw [jitReadRecords_step] at h
  fun_induction jitFrames file generalizing jitDump with
  | case1 file stop hnext =>
    rw [hnext] at h
    cases h
  | case2 file hnext => exact ⟨[], .done hnext⟩
  | case3 file frame rest hnext _ ih =>
    simp only [hnext] at h
    cases hdecode : frame.decode maxEntries with
    | error stop =>
      rw [hdecode] at h
      cases h
    | ok record =>
      simp only [hdecode, jitReadRecords_step maxEntries rest] at h
      obtain ⟨codeLoads, hrest⟩ := ih h
      cases record with
      | codeLoad codeLoad => exact ⟨codeLoad :: codeLoads, .codeLoad hnext hdecode hrest⟩
      | debugInfo debugInfo => exact ⟨codeLoads, .debugInfo hnext hdecode hrest⟩

/-- The loop succeeds with these records if and only if they are read to the end. -/
theorem readsRecords_iff (jitDump : JITDump) :
    ReadsRecords maxEntries file codeLoads ↔
      (jitReadRecords maxEntries file jitDump).2 = none ∧
        (jitReadRecords maxEntries file jitDump).1.codeLoad = jitDump.codeLoad ++ codeLoads := by
  refine ⟨fun h => h.jitReadRecords jitDump, fun ⟨hstop, hcode⟩ => ?_⟩
  obtain ⟨codeLoads', h⟩ := exists_readsRecords hstop
  rwa [List.append_cancel_left (hcode.symm.trans (h.jitReadRecords jitDump).2)]

theorem ReadsRecords.sum_totalSize_le (h : ReadsRecords maxEntries file codeLoads) :
    (codeLoads.map fun r => r.recordPrefix.totalSize.toNat).sum ≤ file.length := by
  induction h with
  | done => exact Nat.zero_le _
  | codeLoad hnext hdecode _ ih =>
    obtain ⟨rfl, hwhole⟩ := whole_of_nextFrame hnext
    rw [List.map_cons, List.sum_cons, (hwhole.of_decode_codeLoad hdecode).1, hwhole.totalSize,
      List.length_append, JitFrame.length_encode]
    exact Nat.add_le_add_left ih _
  | debugInfo hnext _ _ ih =>
    obtain ⟨rfl, -⟩ := whole_of_nextFrame hnext
    exact ih.trans (by simp)

end Runs

/-! ### Records with code -/

structure CodeLoadRecord where
  record : JITRecordCodeLoad
  code : List Byte
  id_eq : record.recordPrefix.id = jitCodeLoad
  codeSize_eq : record.codeSize.toNat = code.length
  totalSize_eq : record.recordPrefix.totalSize.toNat =
    jitPrefixSize + codeLoadIntegers + record.funcName.length + 1 + code.length
  totalSize_lt : record.recordPrefix.totalSize.toNat < 2 ^ 31
  zero_notMem : 0 ∉ record.funcName

namespace CodeLoadRecord

variable (r : CodeLoadRecord) {maxEntries : ℕ}

def frame : JitFrame :=
  ⟨r.record.recordPrefix, r.record.encodeIntegers ++ (r.record.funcName ++ 0 :: r.code)⟩

def encode : List Byte := r.frame.encode

theorem length_encode : r.encode.length = r.record.recordPrefix.totalSize.toNat := by
  rw [encode, JitFrame.length_encode, r.totalSize_eq, frame]
  simp
  omega

theorem whole : r.frame.Whole :=
  ⟨.inl ⟨r.id_eq, by simp [frame]⟩, by simp [r.totalSize_eq, frame]; omega⟩

theorem remainingSize : r.frame.remainingSize = r.record.funcName.length + 1 + r.code.length := by
  rw [JitFrame.remainingSize, frame]
  simp
  omega

theorem codeSize : r.frame.codeSize = r.code.length :=
  (JitFrame.leWordAt_codeSize r.record _).trans r.codeSize_eq

theorem size_lt : r.record.funcName.length + 1 + r.code.length < 2 ^ 31 := by
  have hlt := r.totalSize_lt
  rw [r.totalSize_eq] at hlt
  omega

theorem strSize : r.frame.strSize = (r.record.funcName.length : ℤ) + 1 := by
  have hsub : ((r.record.funcName.length + 1 + r.code.length : ℕ) : ℤ) - (r.code.length : ℕ) =
      (r.record.funcName.length + 1 : ℕ) := by omega
  have hlt : r.record.funcName.length + 1 < 2 ^ 31 := by
    have hsize := r.size_lt
    omega
  rw [JitFrame.strSize, r.remainingSize, r.codeSize, toInt32_of_lt r.size_lt, hsub,
    toInt32_of_lt hlt, Nat.cast_succ]

theorem not_refused : ¬ toInt32 r.frame.remainingSize < toInt32 r.frame.codeSize := by
  have hsize := r.size_lt
  rw [r.remainingSize, r.codeSize, toInt32_of_lt r.size_lt, toInt32_of_lt (by omega)]
  omega

theorem decode : r.frame.decode maxEntries = .ok (.codeLoad r.record) := by
  obtain ⟨integers, buf, hbuff, hpre, hname, -, hdecode⟩ :=
    r.whole.decode_codeLoad maxEntries r.id_eq
  have hintegers : JITRecordCodeLoad.decodeIntegers r.frame.recordPrefix r.frame.buff =
      some ({ r.record with funcName := [] }, r.record.funcName ++ 0 :: r.code) :=
    JITRecordCodeLoad.decodeIntegers_eq_some.mpr ⟨rfl, rfl, rfl⟩
  rw [JITRecordCodeLoad.decodeIntegers_eq_some.mpr ⟨hbuff, hpre, hname⟩] at hintegers
  obtain ⟨rfl, rfl⟩ := Prod.mk.inj (Option.some.inj hintegers)
  rw [hdecode, if_neg r.not_refused, r.strSize, add_sub_cancel_right, Int.toNat_natCast,
    ByteReader.read_append]
  split_ifs with hstr
  · rfl
  · -- the empty name is not read
    have hnil : r.record.funcName = [] := List.length_eq_zero_iff.mp (by omega)
    rw [← hnil]

theorem nextFrame (rest : List Byte) :
    nextFrame (r.encode ++ rest) = .ok (some (r.frame, rest)) :=
  r.whole.nextFrame rest

end CodeLoadRecord

/-- Records with code are read back as they are. -/
theorem readsRecords_encode (maxEntries : ℕ) (records : List CodeLoadRecord) :
    ReadsRecords maxEntries (records.flatMap CodeLoadRecord.encode)
      (records.map CodeLoadRecord.record) := by
  induction records with
  | nil => exact .done rfl
  | cons r records ih => exact .codeLoad (r.nextFrame _) r.decode ih

theorem length_flatMap_encode (records : List CodeLoadRecord) :
    (records.flatMap CodeLoadRecord.encode).length =
      ((records.map CodeLoadRecord.record).map fun r => r.recordPrefix.totalSize.toNat).sum := by
  induction records with
  | nil => rfl
  | cons r records ih =>
    rw [List.flatMap_cons, List.length_append, r.length_encode, ih]
    rfl

/-! ### Debug entries -/

/-- An entry, and whether its name is given as that of the previous one. -/
structure EncodedEntry where
  entry : DebugEntry
  reference : Bool

namespace EncodedEntry

def written (e : EncodedEntry) : DebugEntry :=
  if e.reference then { e.entry with name := [0xff] } else e.entry

def encode (e : EncodedEntry) : List Byte := e.written.encode

theorem written_eq_iff (e : EncodedEntry) :
    e.written = e.entry ↔ (e.reference = true → e.entry.name = [0xff]) := by
  obtain ⟨⟨addr, lineno, discrim, name⟩, reference⟩ := e
  cases reference with
  | false => simp [written]
  | true => simp [written, eq_comm]

/-- Only names that are the same as the previous one are given that way. -/
def RefersBack : Option (List Byte) → List EncodedEntry → Prop
  | _, [] => True
  | previous, e :: rest =>
    (e.reference = true → previous = some e.entry.name) ∧ RefersBack (some e.entry.name) rest

end EncodedEntry

structure DebugInfoRecord where
  recordPrefix : JITRecordPrefix
  codeAddr : BitVec 64
  entries : List EncodedEntry
  zero_notMem : ∀ e ∈ entries, 0 ∉ e.entry.name
  refersBack : EncodedEntry.RefersBack none entries
  totalSize_eq : recordPrefix.totalSize.toNat =
    jitPrefixSize + debugInfoIntegers + (entries.flatMap EncodedEntry.encode).length

namespace DebugInfoRecord

variable (r : DebugInfoRecord) (maxEntries : ℕ)

def body : List Byte :=
  bytes r.codeAddr ++ (bytes (BitVec.ofNat 64 r.entries.length) ++
    r.entries.flatMap EncodedEntry.encode)

theorem length_body : r.body.length = r.recordPrefix.totalSize.toNat - jitPrefixSize := by
  rw [r.totalSize_eq, body]
  simp [jitPrefixSize, debugInfoIntegers]
  omega

theorem toNat_length_entries : (BitVec.ofNat 64 r.entries.length).toNat = r.entries.length := by
  have hle : ∀ entries : List EncodedEntry,
      entries.length ≤ (entries.flatMap EncodedEntry.encode).length := by
    intro entries
    induction entries with
    | nil => exact le_rfl
    | cons e rest ih =>
      rw [List.flatMap_cons, List.length_append, List.length_cons]
      have hpos : 0 < e.encode.length := by simp [EncodedEntry.encode, DebugEntry.encode]
      omega
  have hlt := r.recordPrefix.totalSize.isLt
  have hsize := r.totalSize_eq
  have hentries := hle r.entries
  rw [BitVec.toNat_ofNat]
  exact Nat.mod_eq_of_lt (by omega)

theorem many_decode :
    ByteReader.many DebugEntry.decode r.entries.length (r.entries.flatMap EncodedEntry.encode) =
      some (r.entries.map EncodedEntry.written, []) := by
  refine (ByteReader.many_eq_some DebugEntry.decode_eq_some).mpr ⟨List.length_map _, ?_, ?_⟩
  · rw [List.append_nil, List.flatMap_map]
    rfl
  · intro entry hentry
    obtain ⟨e, he, rfl⟩ := List.mem_map.mp hentry
    rw [EncodedEntry.written]
    split_ifs
    · change (0 : Byte) ∉ [0xff]
      decide
    · exact r.zero_notMem e he

theorem jitReadDebugInfo_body (rest : List Byte) :
    jitReadDebugInfo maxEntries r.recordPrefix (r.body ++ rest) =
      if maxEntries < r.entries.length then .error .noMemory
      else .ok (⟨r.recordPrefix, r.codeAddr, BitVec.ofNat 64 r.entries.length,
        r.entries.map EncodedEntry.written⟩, rest) := by
  have hsize : jitPrefixSize + debugInfoIntegers ≤ r.recordPrefix.totalSize.toNat := by
    rw [r.totalSize_eq]
    exact Nat.le_add_right _ _
  have hbuffer : readBuffer debugInfoIntegers .invalidDebugInfo .incompleteDebugInfo
      r.recordPrefix (r.body ++ rest) = .ok (r.body, rest) :=
    readBuffer_eq_ok.mpr ⟨hsize, rfl, r.length_body⟩
  have hintegers : ((ByteReader.load 64 r.body).bind fun p =>
      (ByteReader.load 64 p.2).map fun p' => (p.1, p'.1, p'.2)) =
      some (r.codeAddr, BitVec.ofNat 64 r.entries.length,
        r.entries.flatMap EncodedEntry.encode) := by
    rw [body, ByteReader.load_bytes dvd_64, Option.bind_some, ByteReader.load_bytes dvd_64]
    rfl
  rw [jitReadDebugInfo, hbuffer]
  simp only [Except.bind, JITRecordDebugInfo.decode, hintegers, r.toNat_length_entries,
    r.many_decode]
  split_ifs <;> rfl

/-- The entries are read back if and only if there is memory for them and no name that is given as
the previous one is lost. -/
theorem jitReadDebugInfo_entries_iff (rest : List Byte) :
    (∃ debugInfo, jitReadDebugInfo maxEntries r.recordPrefix (r.body ++ rest) =
        .ok (debugInfo, rest) ∧ debugInfo.entries = r.entries.map EncodedEntry.entry) ↔
      r.entries.length ≤ maxEntries ∧
        ∀ e ∈ r.entries, e.reference = true → e.entry.name = [0xff] := by
  rw [r.jitReadDebugInfo_body]
  split_ifs with hmemory
  · exact iff_of_false (fun ⟨_, h, _⟩ => nomatch h) fun h => absurd h.1 (Nat.not_le.mpr hmemory)
  · rw [and_iff_right (Nat.not_lt.mp hmemory)]
    simp only [← EncodedEntry.written_eq_iff, ← List.map_inj_left]
    constructor
    · rintro ⟨_, h, hentries⟩
      cases h
      exact hentries
    · intro hentries
      exact ⟨_, rfl, hentries⟩

/-- Two lines of one file; the second one refers to the name of the first. -/
def twoLines : DebugInfoRecord where
  recordPrefix := ⟨jitCodeDebugInfo, 70, 0⟩
  codeAddr := 0x1000
  entries :=
    [⟨⟨0x1000, 1, 0, [0x61, 0x2e, 0x63]⟩, false⟩, ⟨⟨0x1010, 2, 0, [0x61, 0x2e, 0x63]⟩, true⟩]
  zero_notMem := by decide
  refersBack := ⟨nofun, fun _ => rfl, trivial⟩
  totalSize_eq := by decide

theorem jitReadDebugInfo_twoLines :
    (jitReadDebugInfo 100 twoLines.recordPrefix twoLines.body).toOption.map
        (fun r => r.1.entries.map DebugEntry.name) = some [[0x61, 0x2e, 0x63], [0xff]] ∧
      twoLines.entries.map (fun e => e.entry.name) = [[0x61, 0x2e, 0x63], [0x61, 0x2e, 0x63]] := by
  decide +kernel

end DebugInfoRecord

end Ddprof
