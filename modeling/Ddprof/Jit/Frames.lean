import Ddprof.Jit.Basic

/-!
The reader in two parts: the file is cut into records, and the records are decoded.

Where a record ends depends on its prefix alone, so the file can be cut without looking into the
records. The reader decodes the records one after the other until one of them is refused.
-/

namespace Ddprof

open Circular (Byte)

/-! ### Cutting -/

structure JitFrame where
  recordPrefix : JITRecordPrefix
  buff : List Byte
  deriving DecidableEq

def JitFrame.encode (frame : JitFrame) : List Byte := frame.recordPrefix.encode ++ frame.buff

theorem JitFrame.length_encode (frame : JitFrame) :
    frame.encode.length = jitPrefixSize + frame.buff.length := by
  rw [encode, List.length_append, JITRecordPrefix.length_encode]

/-- The record is of a kind that is decoded, and has the size it says, which is enough for its
integers. -/
structure JitFrame.Whole (frame : JitFrame) : Prop where
  kind : frame.recordPrefix.id = jitCodeLoad ∧ codeLoadIntegers ≤ frame.buff.length ∨
    frame.recordPrefix.id = jitCodeDebugInfo ∧ debugInfoIntegers ≤ frame.buff.length
  totalSize : frame.recordPrefix.totalSize.toNat = jitPrefixSize + frame.buff.length

/-- `none` where the reader stops with success. -/
def nextFrame (file : List Byte) : Except JitStop (Option (JitFrame × List Byte)) :=
  match jitReadPrefix file with
  | none => .ok none
  | some (recordPrefix, body) =>
    if recordPrefix.id = jitCodeLoad then
      (readBuffer codeLoadIntegers .invalidCodeLoad .incompleteCodeLoad recordPrefix body).map
        fun r => some (⟨recordPrefix, r.1⟩, r.2)
    else if recordPrefix.id = jitCodeDebugInfo then
      (readBuffer debugInfoIntegers .invalidDebugInfo .incompleteDebugInfo recordPrefix body).map
        fun r => some (⟨recordPrefix, r.1⟩, r.2)
    else .error .recordNotHandled

/-- A record is cut when the file has as many bytes as it says, enough for its integers. -/
theorem map_readBuffer_eq_ok {sizeIntegers : ℕ} {invalid incomplete : JitStop}
    {recordPrefix : JITRecordPrefix} {body rest : List Byte} {frame : JitFrame} :
    ((readBuffer sizeIntegers invalid incomplete recordPrefix body).map fun r =>
        some ((⟨recordPrefix, r.1⟩ : JitFrame), r.2)) = .ok (some (frame, rest)) ↔
      frame.recordPrefix = recordPrefix ∧ body = frame.buff ++ rest ∧
        sizeIntegers ≤ frame.buff.length ∧
        recordPrefix.totalSize.toNat = jitPrefixSize + frame.buff.length := by
  obtain ⟨p, buff⟩ := frame
  constructor
  · intro h
    cases hbuffer : readBuffer sizeIntegers invalid incomplete recordPrefix body with
    | error stop =>
      rw [hbuffer] at h
      cases h
    | ok r =>
      obtain ⟨hsize, hbody, hlength⟩ := readBuffer_eq_ok.mp hbuffer
      have hle : sizeIntegers ≤ r.1.length := by omega
      have htotal : recordPrefix.totalSize.toNat = jitPrefixSize + r.1.length := by omega
      rw [hbuffer] at h
      cases h
      exact ⟨rfl, hbody, hle, htotal⟩
  · rintro ⟨rfl, rfl, hsize, htotal⟩
    rw [readBuffer_eq_ok.mpr ⟨by omega, rfl, by omega⟩]
    rfl

namespace JitFrame

variable {frame : JitFrame}

theorem Whole.jitReadPrefix (h : frame.Whole) (rest : List Byte) :
    jitReadPrefix (frame.encode ++ rest) = some (frame.recordPrefix, frame.buff ++ rest) := by
  refine jitReadPrefix_eq_some.mpr ⟨List.append_assoc _ _ _, ?_⟩
  obtain ⟨hid, -⟩ | ⟨hid, -⟩ := h.kind <;> rw [hid] <;> decide

theorem Whole.nextFrame (h : frame.Whole) (rest : List Byte) :
    nextFrame (frame.encode ++ rest) = .ok (some (frame, rest)) := by
  simp only [Ddprof.nextFrame, h.jitReadPrefix]
  obtain ⟨hid, hsize⟩ | ⟨hid, hsize⟩ := h.kind
  · rw [if_pos hid]
    exact map_readBuffer_eq_ok.mpr ⟨rfl, rfl, hsize, h.totalSize⟩
  · rw [if_neg (hid.trans_ne jitCodeDebugInfo_ne), if_pos hid]
    exact map_readBuffer_eq_ok.mpr ⟨rfl, rfl, hsize, h.totalSize⟩

end JitFrame

theorem whole_of_nextFrame {file rest : List Byte} {frame : JitFrame}
    (h : nextFrame file = .ok (some (frame, rest))) :
    file = frame.encode ++ rest ∧ frame.Whole := by
  rw [nextFrame] at h
  cases hpre : jitReadPrefix file with
  | none =>
    rw [hpre] at h
    cases h
  | some r =>
    obtain ⟨recordPrefix, body⟩ := r
    obtain ⟨rfl, -⟩ := jitReadPrefix_eq_some.mp hpre
    simp only [hpre] at h
    split_ifs at h with hid hid'
    · obtain ⟨rfl, rfl, hsize, htotal⟩ := map_readBuffer_eq_ok.mp h
      exact ⟨(List.append_assoc _ _ _).symm, .inl ⟨hid, hsize⟩, htotal⟩
    · obtain ⟨rfl, rfl, hsize, htotal⟩ := map_readBuffer_eq_ok.mp h
      exact ⟨(List.append_assoc _ _ _).symm, .inr ⟨hid', hsize⟩, htotal⟩

theorem length_lt_of_nextFrame {file rest : List Byte} {frame : JitFrame}
    (h : nextFrame file = .ok (some (frame, rest))) : rest.length < file.length := by
  rw [(whole_of_nextFrame h).1, List.length_append, JitFrame.length_encode, jitPrefixSize]
  omega

/-- The records of a file, and why there are no more. -/
def jitFrames (file : List Byte) : List JitFrame × Option JitStop :=
  match hframe : nextFrame file with
  | .error stop => ([], some stop)
  | .ok none => ([], none)
  | .ok (some (frame, rest)) =>
    have := length_lt_of_nextFrame hframe
    (frame :: (jitFrames rest).1, (jitFrames rest).2)
termination_by file.length

/-! ### Decoding -/

inductive JITRecord
  | codeLoad (codeLoad : JITRecordCodeLoad)
  | debugInfo (debugInfo : JITRecordDebugInfo)
  deriving DecidableEq

def JitFrame.decode (maxEntries : ℕ) (frame : JitFrame) : Except JitStop JITRecord :=
  if frame.recordPrefix.id = jitCodeLoad then
    (JITRecordCodeLoad.decode frame.recordPrefix frame.buff).map .codeLoad
  else (JITRecordDebugInfo.decode maxEntries frame.recordPrefix frame.buff).map .debugInfo

def JITDump.push (jitDump : JITDump) : JITRecord → JITDump
  | .codeLoad codeLoad => { jitDump with codeLoad := jitDump.codeLoad ++ [codeLoad] }
  | .debugInfo debugInfo => { jitDump with debugInfo := jitDump.debugInfo ++ [debugInfo] }

/-- Decode the records until one is refused; `stop` is what happens after the last one. -/
def decodeFrames (maxEntries : ℕ) (stop : Option JitStop) :
    List JitFrame → JITDump → JITDump × Option JitStop
  | [], jitDump => (jitDump, stop)
  | frame :: rest, jitDump =>
    match frame.decode maxEntries with
    | .error stop => (jitDump, some stop)
    | .ok record => decodeFrames maxEntries stop rest (jitDump.push record)

/-- To read a record of one kind is to cut it and to decode what is cut. -/
theorem turn_eq_of_decode {α : Type} {maxEntries : ℕ} {recordPrefix : JITRecordPrefix}
    {decode : List Byte → Except JitStop α} {record : α → JITRecord}
    (hdecode : ∀ buff, JitFrame.decode maxEntries ⟨recordPrefix, buff⟩ = (decode buff).map record)
    (buffer : Except JitStop (List Byte × List Byte)) (jitDump : JITDump) :
    (match buffer.map fun r => some ((⟨recordPrefix, r.1⟩ : JitFrame), r.2) with
      | .error stop => (jitDump, some stop)
      | .ok none => (jitDump, none)
      | .ok (some (frame, rest)) =>
        match frame.decode maxEntries with
        | .error stop => (jitDump, some stop)
        | .ok record => jitReadRecords maxEntries rest (jitDump.push record)) =
      match buffer.bind fun r => (decode r.1).map fun a => (a, r.2) with
      | .error stop => (jitDump, some stop)
      | .ok (a, rest) => jitReadRecords maxEntries rest (jitDump.push (record a)) := by
  cases buffer with
  | error stop => rfl
  | ok r =>
    simp only [Except.map, Except.bind, hdecode]
    cases decode r.1 <;> rfl

theorem jitReadRecords_step (maxEntries : ℕ) (file : List Byte) (jitDump : JITDump) :
    jitReadRecords maxEntries file jitDump =
      match nextFrame file with
      | .error stop => (jitDump, some stop)
      | .ok none => (jitDump, none)
      | .ok (some (frame, rest)) =>
        match frame.decode maxEntries with
        | .error stop => (jitDump, some stop)
        | .ok record => jitReadRecords maxEntries rest (jitDump.push record) := by
  rw [jitReadRecords]
  split
  next hpre => simp only [nextFrame, hpre]
  next recordPrefix body hpre =>
    simp only [nextFrame, hpre]
    split_ifs with hid hid'
    · rw [turn_eq_of_decode fun buff => by rw [JitFrame.decode, if_pos hid], ← jitReadCodeLoad]
      split
      next heq => rw [heq]
      next heq =>
        rw [heq]
        rfl
    · rw [turn_eq_of_decode fun buff => by rw [JitFrame.decode, if_neg hid], ← jitReadDebugInfo]
      split
      next heq => rw [heq]
      next heq =>
        rw [heq]
        rfl
    · rfl

theorem jitReadRecords_eq_decodeFrames (maxEntries : ℕ) (file : List Byte) (jitDump : JITDump) :
    jitReadRecords maxEntries file jitDump =
      decodeFrames maxEntries (jitFrames file).2 (jitFrames file).1 jitDump := by
  rw [jitReadRecords_step]
  fun_induction jitFrames file generalizing jitDump with
  | case1 file stop hframe => simp only [hframe, decodeFrames]
  | case2 file hframe => simp only [hframe, decodeFrames]
  | case3 file frame rest hframe _ ih =>
    simp only [hframe, decodeFrames]
    cases frame.decode maxEntries with
    | error stop => rfl
    | ok record => exact (jitReadRecords_step ..).trans (ih (jitDump.push record))

end Ddprof
