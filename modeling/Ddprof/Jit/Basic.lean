import Ddprof.Dso.Basic
import Ddprof.Lib.ByteReader

/-!
`jitdump_read`: the reader of jitdump files.

A file holds a header and records. Every record starts with its kind and its size; the reader
copies the rest of the record into a buffer and decodes the buffer. The file is written by another
process while it is read, and may hold anything. A read outside the buffer is a result of its own,
at which the model stops.

`maxEntries` is the number of debug entries that there is memory for. Memory for the bytes of one
record is always there.
-/

namespace Ddprof

open Circular (Byte)
open ByteReader (bytes exists_bytes load)

/-! ### Data -/

structure JITHeader where
  magic : BitVec 32
  version : BitVec 32
  totalSize : BitVec 32
  elfMach : BitVec 32
  pad1 : BitVec 32
  pid : BitVec 32
  timestamp : BitVec 64
  flags : BitVec 64
  deriving DecidableEq

structure JITRecordPrefix where
  id : BitVec 32
  totalSize : BitVec 32
  timestamp : BitVec 64
  deriving DecidableEq

structure JITRecordCodeLoad where
  recordPrefix : JITRecordPrefix
  pid : BitVec 32
  tid : BitVec 32
  vma : BitVec 64
  codeAddr : BitVec 64
  codeSize : BitVec 64
  codeIndex : BitVec 64
  funcName : List Byte := []
  deriving DecidableEq

structure DebugEntry where
  addr : BitVec 64
  lineno : BitVec 32
  discrim : BitVec 32
  name : List Byte
  deriving DecidableEq

structure JITRecordDebugInfo where
  recordPrefix : JITRecordPrefix
  codeAddr : BitVec 64
  nrEntry : BitVec 64
  entries : List DebugEntry
  deriving DecidableEq

structure JITDump where
  /-- The header, unless the file is too short for one. -/
  header : Option JITHeader := none
  codeLoad : List JITRecordCodeLoad := []
  debugInfo : List JITRecordDebugInfo := []
  deriving DecidableEq

inductive JitStop
  | noFile
  | incompleteFile
  | swapNotHandled
  | unknownFormat
  | versionNotHandled
  | invalidCodeLoad
  | incompleteCodeLoad
  | invalidDebugInfo
  | incompleteDebugInfo
  | recordNotHandled
  /-- `std::bad_alloc` or `std::length_error` -/
  | noMemory
  | outOfBounds
  deriving DecidableEq

/-- What is returned, if the behaviour is defined. -/
def JitStop.severity : JitStop → Option Severity
  | .noFile | .recordNotHandled | .noMemory => some .error
  | .outOfBounds => none
  | _ => some .warn

def jitHeaderMagic : BitVec 32 := 0x4A695444
def jitHeaderMagicRev : BitVec 32 := 0x4454694A
def jitHeaderVersion : BitVec 32 := 1

def jitCodeLoad : BitVec 32 := 0
def jitCodeDebugInfo : BitVec 32 := 2
def jitCodeClose : BitVec 32 := 3
def jitCodeMax : BitVec 32 := 5

theorem jitCodeDebugInfo_ne : jitCodeDebugInfo ≠ jitCodeLoad := by decide

/-- `sizeof(JITHeader)` -/
def jitHeaderSize : ℕ := 40

/-- `sizeof(JITRecordPrefix)` -/
def jitPrefixSize : ℕ := 16

/-- `JITRecordCodeLoad::k_size_integers` -/
def codeLoadIntegers : ℕ := 40

/-- `JITRecordDebugInfo::k_size_integers` -/
def debugInfoIntegers : ℕ := 16

/-! ### The header -/

def JITHeader.decode (file : List Byte) : Option (JITHeader × List Byte) := do
  let (magic, file) ← load 32 file
  let (version, file) ← load 32 file
  let (totalSize, file) ← load 32 file
  let (elfMach, file) ← load 32 file
  let (pad1, file) ← load 32 file
  let (pid, file) ← load 32 file
  let (timestamp, file) ← load 64 file
  let (flags, file) ← load 64 file
  return (⟨magic, version, totalSize, elfMach, pad1, pid, timestamp, flags⟩, file)

/-- Returns the rest of the file from where the records are read. The seek is to a position in the
file, not relative to where the header ends. -/
def jitReadHeader (file : List Byte) : Option JITHeader × Except JitStop (List Byte) :=
  match JITHeader.decode file with
  | none => (none, .error .incompleteFile)
  | some (header, rest) =>
    let remainingSize : ℤ := header.totalSize.toNat - jitHeaderSize
    let position : Except JitStop (List Byte) :=
      if header.magic = jitHeaderMagic then
        if 0 < remainingSize then .ok (file.drop remainingSize.toNat)
        else if remainingSize = 0 then .ok rest
        else .error .incompleteFile
      else if header.magic = jitHeaderMagicRev then .error .swapNotHandled
      else .error .unknownFormat
    (some header, position.bind fun rest =>
      if header.version ≠ jitHeaderVersion then .error .versionNotHandled else .ok rest)

/-! ### Records -/

def JITRecordPrefix.decode (file : List Byte) : Option (JITRecordPrefix × List Byte) := do
  let (id, file) ← load 32 file
  let (totalSize, file) ← load 32 file
  let (timestamp, file) ← load 64 file
  return (⟨id, totalSize, timestamp⟩, file)

/-- `none` at the end of the file and at records that end it. -/
def jitReadPrefix (file : List Byte) : Option (JITRecordPrefix × List Byte) :=
  (JITRecordPrefix.decode file).bind fun r =>
    if r.1.id = jitCodeClose then none
    else if jitCodeMax ≤ r.1.id then none
    else some r

/-- The first part of reading a record: its bytes after the prefix are copied into the buffer. -/
def readBuffer (sizeIntegers : ℕ) (invalid incomplete : JitStop) (recordPrefix : JITRecordPrefix)
    (file : List Byte) : Except JitStop (List Byte × List Byte) :=
  if recordPrefix.totalSize.toNat < jitPrefixSize + sizeIntegers then .error invalid
  else
    match ByteReader.read (recordPrefix.totalSize.toNat - jitPrefixSize) file with
    | none => .error incomplete
    | some r => .ok r

def JITRecordCodeLoad.decodeIntegers (recordPrefix : JITRecordPrefix) (buf : List Byte) :
    Option (JITRecordCodeLoad × List Byte) := do
  let (pid, buf) ← load 32 buf
  let (tid, buf) ← load 32 buf
  let (vma, buf) ← load 64 buf
  let (codeAddr, buf) ← load 64 buf
  let (codeSize, buf) ← load 64 buf
  let (codeIndex, buf) ← load 64 buf
  return ({ recordPrefix, pid, tid, vma, codeAddr, codeSize, codeIndex }, buf)

/-- The `int` with the lower half of an unsigned integer. -/
def toInt32 (n : ℤ) : ℤ := n.bmod (2 ^ 32)

def JITRecordCodeLoad.decode (recordPrefix : JITRecordPrefix) (buff : List Byte) :
    Except JitStop JITRecordCodeLoad :=
  match decodeIntegers recordPrefix buff with
  | none => .error .outOfBounds
  | some (codeLoad, buf) =>
    let remainingSize :=
      toInt32 (recordPrefix.totalSize.toNat - jitPrefixSize - codeLoadIntegers)
    if remainingSize < toInt32 codeLoad.codeSize.toNat then .error .incompleteCodeLoad
    else
      let strSize := toInt32 (remainingSize - codeLoad.codeSize.toNat)
      if 1 < strSize then
        match ByteReader.read (strSize - 1).toNat buf with
        | none => .error .outOfBounds
        | some (funcName, _) => .ok { codeLoad with funcName := funcName }
      else .ok codeLoad

def jitReadCodeLoad (recordPrefix : JITRecordPrefix) (file : List Byte) :
    Except JitStop (JITRecordCodeLoad × List Byte) :=
  (readBuffer codeLoadIntegers .invalidCodeLoad .incompleteCodeLoad recordPrefix file).bind
    fun r => (JITRecordCodeLoad.decode recordPrefix r.1).map fun codeLoad => (codeLoad, r.2)

/-- The two bytes that stand for the name of the previous entry; the second byte is looked at only
when the first one matches. -/
def isBackReference : List Byte → Option Bool
  | [] => none
  | b :: buf => if b = 0xff then buf.head?.map (· = 0) else some false

def DebugEntry.decode (buf : List Byte) : Option (DebugEntry × List Byte) := do
  let (addr, buf) ← load 64 buf
  let (lineno, buf) ← load 32 buf
  let (discrim, buf) ← load 32 buf
  -- for a back-reference the name of the previous entry is assigned to this one
  let _ ← isBackReference buf
  -- and in all cases replaced by the string that stands here
  let (name, buf) ← ByteReader.cString buf
  return (⟨addr, lineno, discrim, name⟩, buf)

def JITRecordDebugInfo.decode (maxEntries : ℕ) (recordPrefix : JITRecordPrefix)
    (buff : List Byte) : Except JitStop JITRecordDebugInfo :=
  match (load 64 buff).bind fun r => (load 64 r.2).map fun r' => (r.1, r'.1, r'.2) with
  | none => .error .outOfBounds
  | some (codeAddr, nrEntry, buf) =>
    if maxEntries < nrEntry.toNat then .error .noMemory
    else
      match ByteReader.many DebugEntry.decode nrEntry.toNat buf with
      | none => .error .outOfBounds
      | some (entries, _) => .ok { recordPrefix, codeAddr, nrEntry, entries }

def jitReadDebugInfo (maxEntries : ℕ) (recordPrefix : JITRecordPrefix) (file : List Byte) :
    Except JitStop (JITRecordDebugInfo × List Byte) :=
  (readBuffer debugInfoIntegers .invalidDebugInfo .incompleteDebugInfo recordPrefix file).bind
    fun r =>
      (JITRecordDebugInfo.decode maxEntries recordPrefix r.1).map fun debugInfo => (debugInfo, r.2)

/-! ### How the data are laid out -/

theorem dvd_32 : 8 ∣ 32 := by decide
theorem dvd_64 : 8 ∣ 64 := by decide

def JITHeader.encode (header : JITHeader) : List Byte :=
  bytes header.magic ++ bytes header.version ++ bytes header.totalSize ++ bytes header.elfMach ++
    bytes header.pad1 ++ bytes header.pid ++ bytes header.timestamp ++ bytes header.flags

@[simp] theorem JITHeader.length_encode (header : JITHeader) :
    header.encode.length = jitHeaderSize := by
  simp [encode, jitHeaderSize]

variable {file rest : List Byte}

theorem JITHeader.decode_eq_some {header : JITHeader} :
    decode file = some (header, rest) ↔ file = header.encode ++ rest := by
  simp only [decode, bind, Option.bind_eq_some_iff, Prod.exists, ByteReader.load_eq_some dvd_32,
    ByteReader.load_eq_some dvd_64, pure, Option.some.injEq, Prod.mk.injEq, encode,
    List.append_assoc]
  constructor
  · rintro ⟨_, _, rfl, _, _, rfl, _, _, rfl, _, _, rfl, _, _, rfl, _, _, rfl, _, _, rfl, _, _, rfl,
      rfl, rfl⟩
    rfl
  · rintro rfl
    exact ⟨_, _, rfl, _, _, rfl, _, _, rfl, _, _, rfl, _, _, rfl, _, _, rfl, _, _, rfl, _, _, rfl,
      rfl, rfl⟩

def JITRecordPrefix.encode (recordPrefix : JITRecordPrefix) : List Byte :=
  bytes recordPrefix.id ++ bytes recordPrefix.totalSize ++ bytes recordPrefix.timestamp

@[simp] theorem JITRecordPrefix.length_encode (recordPrefix : JITRecordPrefix) :
    recordPrefix.encode.length = jitPrefixSize := by
  simp [encode, jitPrefixSize]

variable {recordPrefix : JITRecordPrefix}

theorem JITRecordPrefix.decode_eq_some :
    decode file = some (recordPrefix, rest) ↔ file = recordPrefix.encode ++ rest := by
  simp only [decode, bind, Option.bind_eq_some_iff, Prod.exists, ByteReader.load_eq_some dvd_32,
    ByteReader.load_eq_some dvd_64, pure, Option.some.injEq, Prod.mk.injEq, encode,
    List.append_assoc]
  constructor
  · rintro ⟨_, _, rfl, _, _, rfl, _, _, rfl, rfl, rfl⟩
    rfl
  · rintro rfl
    exact ⟨_, _, rfl, _, _, rfl, _, _, rfl, rfl, rfl⟩

theorem JITRecordPrefix.exists_encode {file : List Byte} (h : jitPrefixSize ≤ file.length) :
    ∃ (recordPrefix : JITRecordPrefix) (rest : List Byte), file = recordPrefix.encode ++ rest := by
  rw [jitPrefixSize] at h
  obtain ⟨id, file₁, h₁, hlen₁⟩ := exists_bytes dvd_32 (show 32 / 8 ≤ file.length by omega)
  obtain ⟨size, file₂, h₂, hlen₂⟩ := exists_bytes dvd_32 (show 32 / 8 ≤ file₁.length by omega)
  obtain ⟨time, rest, h₃, -⟩ := exists_bytes dvd_64 (show 64 / 8 ≤ file₂.length by omega)
  refine ⟨⟨id, size, time⟩, rest, ?_⟩
  rw [h₁, h₂, h₃]
  simp only [encode, List.append_assoc]

def JITRecordCodeLoad.encodeIntegers (codeLoad : JITRecordCodeLoad) : List Byte :=
  bytes codeLoad.pid ++ bytes codeLoad.tid ++ bytes codeLoad.vma ++ bytes codeLoad.codeAddr ++
    bytes codeLoad.codeSize ++ bytes codeLoad.codeIndex

@[simp] theorem JITRecordCodeLoad.length_encodeIntegers (codeLoad : JITRecordCodeLoad) :
    codeLoad.encodeIntegers.length = codeLoadIntegers := by
  simp [encodeIntegers, codeLoadIntegers]

theorem JITRecordCodeLoad.decodeIntegers_eq_some
    {buf rest : List Byte} {codeLoad : JITRecordCodeLoad} :
    decodeIntegers recordPrefix buf = some (codeLoad, rest) ↔
      buf = codeLoad.encodeIntegers ++ rest ∧ codeLoad.recordPrefix = recordPrefix ∧
        codeLoad.funcName = [] := by
  simp only [decodeIntegers, bind, Option.bind_eq_some_iff, Prod.exists,
    ByteReader.load_eq_some dvd_32, ByteReader.load_eq_some dvd_64, pure, Option.some.injEq,
    Prod.mk.injEq, encodeIntegers, List.append_assoc]
  constructor
  · rintro ⟨_, _, rfl, _, _, rfl, _, _, rfl, _, _, rfl, _, _, rfl, _, _, rfl, rfl, rfl⟩
    exact ⟨rfl, rfl, rfl⟩
  · rintro ⟨rfl, rfl, hname⟩
    obtain ⟨⟩ := codeLoad
    cases hname
    exact ⟨_, _, rfl, _, _, rfl, _, _, rfl, _, _, rfl, _, _, rfl, _, _, rfl, rfl, rfl⟩

theorem JITRecordCodeLoad.exists_encodeIntegers (recordPrefix : JITRecordPrefix) {buf : List Byte}
    (h : codeLoadIntegers ≤ buf.length) :
    ∃ codeLoad rest, decodeIntegers recordPrefix buf = some (codeLoad, rest) := by
  rw [codeLoadIntegers] at h
  obtain ⟨pid, buf₁, h₁, hlen₁⟩ := exists_bytes dvd_32 (show 32 / 8 ≤ buf.length by omega)
  obtain ⟨tid, buf₂, h₂, hlen₂⟩ := exists_bytes dvd_32 (show 32 / 8 ≤ buf₁.length by omega)
  obtain ⟨vma, buf₃, h₃, hlen₃⟩ := exists_bytes dvd_64 (show 64 / 8 ≤ buf₂.length by omega)
  obtain ⟨addr, buf₄, h₄, hlen₄⟩ := exists_bytes dvd_64 (show 64 / 8 ≤ buf₃.length by omega)
  obtain ⟨size, buf₅, h₅, hlen₅⟩ := exists_bytes dvd_64 (show 64 / 8 ≤ buf₄.length by omega)
  obtain ⟨index, rest, h₆, -⟩ := exists_bytes dvd_64 (show 64 / 8 ≤ buf₅.length by omega)
  refine ⟨⟨recordPrefix, pid, tid, vma, addr, size, index, []⟩, rest,
    decodeIntegers_eq_some.mpr ⟨?_, rfl, rfl⟩⟩
  rw [h₁, h₂, h₃, h₄, h₅, h₆]
  simp only [encodeIntegers, List.append_assoc]

def DebugEntry.encode (entry : DebugEntry) : List Byte :=
  bytes entry.addr ++ bytes entry.lineno ++ bytes entry.discrim ++ entry.name ++ [0]

/-- Where a string can be read, so can the bytes that are looked at before. -/
theorem isBackReference_of_cString {buf : List Byte} (h : ByteReader.cString buf ≠ none) :
    isBackReference buf ≠ none := by
  cases buf with
  | nil => exact absurd rfl h
  | cons b buf =>
    rw [isBackReference]
    split_ifs with hb
    · cases buf with
      | nil =>
        rw [ByteReader.cString, if_neg (by rw [hb]; decide)] at h
        exact absurd rfl h
      | cons => exact Option.some_ne_none _
    · exact Option.some_ne_none _

theorem DebugEntry.decode_eq_some (buf : List Byte) (entry : DebugEntry) (rest : List Byte) :
    decode buf = some (entry, rest) ↔ buf = entry.encode ++ rest ∧ 0 ∉ entry.name := by
  simp only [decode, bind, Option.bind_eq_some_iff, Prod.exists, ByteReader.load_eq_some dvd_32,
    ByteReader.load_eq_some dvd_64, ByteReader.cString_eq_some, pure, Option.some.injEq,
    Prod.mk.injEq, encode, List.append_assoc, List.singleton_append]
  constructor
  · rintro ⟨_, _, rfl, _, _, rfl, _, _, rfl, _, _, _, _, ⟨rfl, hname⟩, rfl, rfl⟩
    exact ⟨rfl, hname⟩
  · rintro ⟨rfl, hname⟩
    have hstring : ByteReader.cString (entry.name ++ 0 :: rest) = some (entry.name, rest) :=
      ByteReader.cString_eq_some.mpr ⟨rfl, hname⟩
    obtain ⟨b, hb⟩ := Option.ne_none_iff_exists'.mp
      (isBackReference_of_cString (hstring ▸ Option.some_ne_none (entry.name, rest)))
    exact ⟨_, _, rfl, _, _, rfl, _, _, rfl, b, hb, _, _, ⟨rfl, hname⟩, rfl, rfl⟩

theorem jitReadPrefix_eq_some :
    jitReadPrefix file = some (recordPrefix, rest) ↔ file = recordPrefix.encode ++ rest ∧
      recordPrefix.id ≠ jitCodeClose ∧ ¬ jitCodeMax ≤ recordPrefix.id := by
  rw [jitReadPrefix, Option.bind_eq_some_iff]
  constructor
  · rintro ⟨⟨p, rest'⟩, hdecode, h⟩
    split_ifs at h with hclose hmax
    obtain ⟨rfl, rfl⟩ := Prod.mk.inj (Option.some.inj h)
    exact ⟨JITRecordPrefix.decode_eq_some.mp hdecode, hclose, hmax⟩
  · rintro ⟨hfile, hclose, hmax⟩
    exact ⟨_, JITRecordPrefix.decode_eq_some.mpr hfile, by rw [if_neg hclose, if_neg hmax]⟩

theorem readBuffer_eq_ok {sizeIntegers : ℕ} {invalid incomplete : JitStop}
    {file buff rest : List Byte} :
    readBuffer sizeIntegers invalid incomplete recordPrefix file = .ok (buff, rest) ↔
      jitPrefixSize + sizeIntegers ≤ recordPrefix.totalSize.toNat ∧ file = buff ++ rest ∧
        buff.length = recordPrefix.totalSize.toNat - jitPrefixSize := by
  rw [readBuffer]
  split_ifs with hsize
  · exact iff_of_false nofun fun h => absurd h.1 (Nat.not_le.mpr hsize)
  · rw [and_iff_right (Nat.not_lt.mp hsize), ← ByteReader.read_eq_some]
    cases ByteReader.read (recordPrefix.totalSize.toNat - jitPrefixSize) file with
    | none => exact iff_of_false nofun nofun
    | some r => simp

theorem decode_buffer_eq_ok {α : Type} {buffer : Except JitStop (List Byte × List Byte)}
    {decode : List Byte → Except JitStop α} {a : α} {rest : List Byte} :
    (buffer.bind fun r => (decode r.1).map fun a => (a, r.2)) = .ok (a, rest) ↔
      ∃ buff, buffer = .ok (buff, rest) ∧ decode buff = .ok a := by
  cases buffer with
  | error stop => exact iff_of_false nofun fun ⟨_, h, _⟩ => nomatch h
  | ok r =>
    obtain ⟨buff, rest'⟩ := r
    simp only [Except.bind, Except.ok.injEq, Prod.mk.injEq]
    cases hdecode : decode buff with
    | error stop =>
      refine iff_of_false nofun ?_
      rintro ⟨_, ⟨rfl, rfl⟩, h⟩
      rw [hdecode] at h
      cases h
    | ok a' =>
      simp only [Except.map, Except.ok.injEq, Prod.mk.injEq]
      constructor
      · rintro ⟨rfl, rfl⟩
        exact ⟨buff, ⟨rfl, rfl⟩, hdecode⟩
      · rintro ⟨_, ⟨rfl, rfl⟩, h⟩
        exact ⟨Except.ok.inj (hdecode.symm.trans h), rfl⟩

theorem length_of_decode_buffer {α : Type} {sizeIntegers : ℕ} {invalid incomplete : JitStop}
    {decode : List Byte → Except JitStop α} {a : α}
    (h : ((readBuffer sizeIntegers invalid incomplete recordPrefix file).bind fun r =>
      (decode r.1).map fun a => (a, r.2)) = .ok (a, rest)) : rest.length ≤ file.length := by
  obtain ⟨buff, hbuff, -⟩ := decode_buffer_eq_ok.mp h
  obtain ⟨-, rfl, -⟩ := readBuffer_eq_ok.mp hbuff
  simp

theorem length_of_jitReadPrefix
    (h : jitReadPrefix file = some (recordPrefix, rest)) : rest.length < file.length := by
  obtain ⟨rfl, -⟩ := jitReadPrefix_eq_some.mp h
  simp [jitPrefixSize]

/-! ### The file -/

def jitReadRecords (maxEntries : ℕ) (file : List Byte) (jitDump : JITDump) :
    JITDump × Option JitStop :=
  match hpre : jitReadPrefix file with
  | none => (jitDump, none)
  | some (recordPrefix, body) =>
    if recordPrefix.id = jitCodeLoad then
      match hload : jitReadCodeLoad recordPrefix body with
      | .error stop => (jitDump, some stop)
      | .ok (current, rest) =>
        have := (length_of_decode_buffer hload).trans_lt (length_of_jitReadPrefix hpre)
        jitReadRecords maxEntries rest { jitDump with codeLoad := jitDump.codeLoad ++ [current] }
    else if recordPrefix.id = jitCodeDebugInfo then
      match hinfo : jitReadDebugInfo maxEntries recordPrefix body with
      | .error stop => (jitDump, some stop)
      | .ok (current, rest) =>
        have := (length_of_decode_buffer hinfo).trans_lt (length_of_jitReadPrefix hpre)
        jitReadRecords maxEntries rest { jitDump with debugInfo := jitDump.debugInfo ++ [current] }
    else (jitDump, some .recordNotHandled)
termination_by file.length

/-- The file is `none` when it cannot be opened. -/
def jitdumpRead (maxEntries : ℕ) (file : Option (List Byte)) : JITDump × Option JitStop :=
  match file with
  | none => ({}, some .noFile)
  | some file =>
    match jitReadHeader file with
    | (header, .error stop) => ({ header }, some stop)
    | (header, .ok rest) => jitReadRecords maxEntries rest { header }

theorem jitdumpRead_of_ok {maxEntries : ℕ}
    (h : (jitReadHeader file).2 = .ok rest) : jitdumpRead maxEntries (some file) =
      jitReadRecords maxEntries rest { header := (jitReadHeader file).1 } := by
  rw [jitdumpRead]
  generalize jitReadHeader file = r at h ⊢
  obtain ⟨header, position⟩ := r
  cases h
  rfl

theorem jitdumpRead_of_error {maxEntries : ℕ} {file : List Byte} {stop : JitStop}
    (h : (jitReadHeader file).2 = .error stop) : jitdumpRead maxEntries (some file) =
      ({ header := (jitReadHeader file).1 }, some stop) := by
  rw [jitdumpRead]
  generalize jitReadHeader file = r at h ⊢
  obtain ⟨header, position⟩ := r
  cases h
  rfl

end Ddprof
