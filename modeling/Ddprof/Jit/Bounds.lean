import Ddprof.Jit.Frames

/-!
What the reader reads of the records.

The sizes that a record gives are checked, but as `int`s: the size of the code is cut to 32 bits
and taken as negative from 2 ^ 31 on, so that the name can be longer than what is left of the
record. The number of debug entries and the ends of their names are not checked at all.
-/

namespace Ddprof

open Circular (Byte)

/-! ### Sizes as `int`s -/

/-- An `int` is the only one of its residue class. -/
theorem toInt32_spec (n : ℤ) :
    -2147483648 ≤ toInt32 n ∧ toInt32 n < 2147483648 ∧
      toInt32 n % 4294967296 = n % 4294967296 := by
  have hlow := Int.le_bmod (x := n) (m := 2 ^ 32) (by decide)
  have hhigh := Int.bmod_lt (x := n) (m := 2 ^ 32) (by decide)
  have hmod := Int.bmod_emod (x := n) (m := 2 ^ 32)
  norm_num at hlow hhigh hmod
  exact ⟨hlow, hhigh, hmod⟩

theorem toInt32_of_lt {n : ℕ} (h : n < 2 ^ 31) : toInt32 n = n := by
  have hspec := toInt32_spec n
  generalize toInt32 n = m at *
  omega

/-! ### One record -/

variable {codeLoad : JITRecordCodeLoad}

namespace JitFrame

variable {maxEntries : ℕ} {frame : JitFrame}

def codeSize (frame : JitFrame) : ℕ := ByteReader.leWordAt frame.buff 24 8

/-- What is left of a record with code after its integers. -/
def remainingSize (frame : JitFrame) : ℕ := frame.buff.length - codeLoadIntegers

def strSize (frame : JitFrame) : ℤ := toInt32 (toInt32 frame.remainingSize - frame.codeSize)

def nrEntry (frame : JitFrame) : ℕ := ByteReader.leWordAt frame.buff 8 8

/-- The record has as many entries as it says. -/
def HoldsEntries (frame : JitFrame) : Prop :=
  ∃ entries : List DebugEntry, entries.length = frame.nrEntry ∧ (∀ e ∈ entries, 0 ∉ e.name) ∧
    entries.flatMap DebugEntry.encode <+: frame.buff.drop debugInfoIntegers

def Refused (maxEntries : ℕ) (frame : JitFrame) : Prop :=
  if frame.recordPrefix.id = jitCodeLoad then
    toInt32 frame.remainingSize < toInt32 frame.codeSize
  else maxEntries < frame.nrEntry

/-- The sizes of the record stay in the record, or it is refused. -/
def InBounds (maxEntries : ℕ) (frame : JitFrame) : Prop :=
  if frame.recordPrefix.id = jitCodeLoad then
    ¬ (2 ^ 31 + frame.remainingSize < frame.codeSize % 2 ^ 32 ∧
      frame.codeSize % 2 ^ 32 < 2 ^ 32 - 1)
  else maxEntries < frame.nrEntry ∨ frame.HoldsEntries

theorem refused_codeLoad_iff (hid : frame.recordPrefix.id = jitCodeLoad) :
    frame.Refused maxEntries ↔ toInt32 frame.remainingSize < toInt32 frame.codeSize := by
  rw [Refused, if_pos hid]

theorem refused_debugInfo_iff (hid : frame.recordPrefix.id = jitCodeDebugInfo) :
    frame.Refused maxEntries ↔ maxEntries < frame.nrEntry := by
  rw [Refused, if_neg (hid.trans_ne jitCodeDebugInfo_ne)]

theorem inBounds_debugInfo_iff (hid : frame.recordPrefix.id = jitCodeDebugInfo) :
    frame.InBounds maxEntries ↔ maxEntries < frame.nrEntry ∨ frame.HoldsEntries := by
  rw [InBounds, if_neg (hid.trans_ne jitCodeDebugInfo_ne)]

/-- The name is longer than what is left of the record when the size of the code is negative as an
`int` and the length of the name is not. -/
theorem strSize_iff {r c : ℕ} (hr : r < 2 ^ 32) :
    (¬ toInt32 r < toInt32 c ∧ 1 < toInt32 (toInt32 r - c) ∧
      r < (toInt32 (toInt32 r - c) - 1).toNat) ↔
      2 ^ 31 + r < c % 2 ^ 32 ∧ c % 2 ^ 32 < 2 ^ 32 - 1 := by
  have hremaining := toInt32_spec r
  have hcode := toInt32_spec c
  have hstr := toInt32_spec (toInt32 r - c)
  generalize toInt32 (toInt32 r - c) = strSize at *
  generalize toInt32 r = remainingSize at *
  generalize toInt32 c = codeSize at *
  omega

theorem leWordAt_codeSize (codeLoad : JITRecordCodeLoad) (buf : List Byte) :
    ByteReader.leWordAt (codeLoad.encodeIntegers ++ buf) 24 8 = codeLoad.codeSize.toNat := by
  rw [JITRecordCodeLoad.encodeIntegers, List.append_assoc, List.append_assoc]
  exact ByteReader.leWordAt_bytes dvd_64 rfl (by simp) _ _

theorem codeSize_eq {buf : List Byte} (h : frame.buff = codeLoad.encodeIntegers ++ buf) :
    codeLoad.codeSize.toNat = frame.codeSize := by
  rw [codeSize, h, leWordAt_codeSize]

theorem Whole.decode_codeLoad (h : frame.Whole) (maxEntries : ℕ)
    (hid : frame.recordPrefix.id = jitCodeLoad) :
    ∃ (codeLoad : JITRecordCodeLoad) (buf : List Byte),
      frame.buff = codeLoad.encodeIntegers ++ buf ∧
      codeLoad.recordPrefix = frame.recordPrefix ∧ codeLoad.funcName = [] ∧
      buf.length = frame.remainingSize ∧ frame.decode maxEntries =
        if toInt32 frame.remainingSize < toInt32 frame.codeSize then .error .incompleteCodeLoad
        else
          if 1 < frame.strSize then
            match ByteReader.read (frame.strSize - 1).toNat buf with
            | none => .error .outOfBounds
            | some (funcName, _) => .ok (.codeLoad { codeLoad with funcName := funcName })
          else .ok (.codeLoad codeLoad) := by
  have hsize : codeLoadIntegers ≤ frame.buff.length := by
    obtain ⟨-, hsize⟩ | ⟨hid', -⟩ := h.kind
    · exact hsize
    · exact absurd (hid.symm.trans hid') (by decide)
  obtain ⟨codeLoad, buf, hdecode⟩ :=
    JITRecordCodeLoad.exists_encodeIntegers frame.recordPrefix hsize
  obtain ⟨hbuff, hpre, hname⟩ := JITRecordCodeLoad.decodeIntegers_eq_some.mp hdecode
  have hlength : buf.length = frame.remainingSize := by
    rw [remainingSize, hbuff, List.length_append, JITRecordCodeLoad.length_encodeIntegers,
      Nat.add_sub_cancel_left]
  have hremaining : ((frame.recordPrefix.totalSize.toNat : ℤ) - jitPrefixSize - codeLoadIntegers) =
      frame.remainingSize := by
    rw [h.totalSize, remainingSize]
    omega
  refine ⟨codeLoad, buf, hbuff, hpre, hname, hlength, ?_⟩
  rw [decode, if_pos hid, JITRecordCodeLoad.decode, hdecode]
  have hstr : toInt32 (toInt32 frame.remainingSize - frame.codeSize) = frame.strSize := rfl
  simp only [hremaining, codeSize_eq hbuff, hstr]
  split_ifs with hrefused hname
  · rfl
  · cases ByteReader.read (frame.strSize - 1).toNat buf <;> rfl
  · rfl

theorem Whole.decode_debugInfo (h : frame.Whole) (maxEntries : ℕ)
    (hid : frame.recordPrefix.id = jitCodeDebugInfo) :
    ∃ codeAddr nrEntry : BitVec 64, frame.decode maxEntries =
      if maxEntries < frame.nrEntry then .error .noMemory
      else
        match ByteReader.many DebugEntry.decode frame.nrEntry
          (frame.buff.drop debugInfoIntegers) with
        | none => .error .outOfBounds
        | some (entries, _) =>
          .ok (.debugInfo ⟨frame.recordPrefix, codeAddr, nrEntry, entries⟩) := by
  have hsize : 16 ≤ frame.buff.length := by
    obtain ⟨hid', -⟩ | ⟨-, hsize⟩ := h.kind
    · exact absurd (hid'.symm.trans hid) (by decide)
    · exact hsize
  obtain ⟨codeAddr, buf₁, h₁, hlen₁⟩ :=
    ByteReader.exists_bytes dvd_64 (show 64 / 8 ≤ frame.buff.length by omega)
  obtain ⟨nrEntry, buf, h₂, -⟩ :=
    ByteReader.exists_bytes dvd_64 (show 64 / 8 ≤ buf₁.length by omega)
  have hnr : nrEntry.toNat = frame.nrEntry := by
    rw [JitFrame.nrEntry, h₁, h₂,
      ByteReader.leWordAt_bytes dvd_64 rfl (ByteReader.length_bytes codeAddr)]
  have hbuf : frame.buff.drop debugInfoIntegers = buf := by
    rw [h₁, h₂, ← List.append_assoc]
    exact List.drop_left' (by simp [debugInfoIntegers])
  refine ⟨codeAddr, nrEntry, ?_⟩
  rw [decode, if_neg (hid.trans_ne jitCodeDebugInfo_ne), JITRecordDebugInfo.decode,
    (ByteReader.load_eq_some dvd_64).mpr h₁]
  simp only [Option.bind_some, (ByteReader.load_eq_some dvd_64).mpr h₂, Option.map_some, hnr, hbuf]
  split_ifs
  · rfl
  · cases ByteReader.many DebugEntry.decode frame.nrEntry buf <;> rfl

theorem many_ne_none_iff :
    ByteReader.many DebugEntry.decode frame.nrEntry (frame.buff.drop debugInfoIntegers) ≠ none ↔
      frame.HoldsEntries := by
  rw [Option.ne_none_iff_exists']
  constructor
  · rintro ⟨⟨entries, rest⟩, hmany⟩
    obtain ⟨hlength, hbuf, hnames⟩ := (ByteReader.many_eq_some DebugEntry.decode_eq_some).mp hmany
    exact ⟨entries, hlength, hnames, rest, hbuf.symm⟩
  · rintro ⟨entries, hlength, hnames, rest, hbuf⟩
    exact ⟨(entries, rest),
      (ByteReader.many_eq_some DebugEntry.decode_eq_some).mpr ⟨hlength, hbuf.symm, hnames⟩⟩

theorem Whole.remainingSize_lt (h : frame.Whole) : frame.remainingSize < 2 ^ 32 := by
  have hlt := frame.recordPrefix.totalSize.isLt
  have htotal := h.totalSize
  have hle : frame.remainingSize ≤ frame.buff.length := Nat.sub_le _ _
  omega

inductive Decoded (maxEntries : ℕ) (frame : JitFrame) : Except JitStop JITRecord → Prop
  | refused {stop : JitStop} (hstop : stop ≠ .outOfBounds) (hrefused : frame.Refused maxEntries)
      (hin : frame.InBounds maxEntries) : Decoded maxEntries frame (.error stop)
  | outside (hout : ¬ frame.InBounds maxEntries) : Decoded maxEntries frame (.error .outOfBounds)
  | codeLoad {codeLoad : JITRecordCodeLoad} (hid : frame.recordPrefix.id = jitCodeLoad)
      (hkept : ¬ frame.Refused maxEntries) (hin : frame.InBounds maxEntries)
      (hpre : codeLoad.recordPrefix = frame.recordPrefix)
      {buf : List Byte} (hbuff : frame.buff = codeLoad.encodeIntegers ++ buf)
      (hname : codeLoad.funcName <+: buf) :
      Decoded maxEntries frame (.ok (.codeLoad codeLoad))
  | debugInfo {debugInfo : JITRecordDebugInfo} (hid : frame.recordPrefix.id = jitCodeDebugInfo)
      (hkept : ¬ frame.Refused maxEntries) (hin : frame.InBounds maxEntries) :
      Decoded maxEntries frame (.ok (.debugInfo debugInfo))

theorem Whole.decoded_codeLoad (h : frame.Whole) (maxEntries : ℕ)
    (hid : frame.recordPrefix.id = jitCodeLoad) :
    Decoded maxEntries frame (frame.decode maxEntries) := by
  obtain ⟨integers, buf, hbuff, hpre, hname, hlength, hdecode⟩ :=
    h.decode_codeLoad maxEntries hid
  have hin : frame.InBounds maxEntries ↔
      ¬ (¬ toInt32 frame.remainingSize < toInt32 frame.codeSize ∧ 1 < frame.strSize ∧
        frame.remainingSize < (frame.strSize - 1).toNat) := by
    rw [InBounds, if_pos hid, strSize, strSize_iff h.remainingSize_lt]
  have hkept (hint : ¬ toInt32 frame.remainingSize < toInt32 frame.codeSize) :
      ¬ frame.Refused maxEntries := mt (refused_codeLoad_iff hid).mp hint
  rw [hdecode]
  split_ifs with hint hstr
  · exact .refused nofun ((refused_codeLoad_iff hid).mpr hint) (hin.mpr fun hnot => hnot.1 hint)
  · cases hread : ByteReader.read (frame.strSize - 1).toNat buf with
    | none =>
      have hlong := hlength ▸ ByteReader.read_eq_none.mp hread
      exact .outside fun hok => hin.mp hok ⟨hint, hstr, hlong⟩
    | some r =>
      obtain ⟨hbuf, hlong⟩ := ByteReader.read_eq_some.mp hread
      have hle : r.1.length ≤ buf.length := by
        rw [hbuf]
        simp
      refine .codeLoad hid (hkept hint) (hin.mpr fun hnot => ?_) hpre hbuff
        ⟨r.2, hbuf.symm⟩
      exact absurd hnot.2.2 (by rw [← hlength, ← hlong]; exact Nat.not_lt.mpr hle)
  · exact .codeLoad hid (hkept hint) (hin.mpr fun hnot => hstr hnot.2.1) hpre hbuff
      (hname ▸ List.nil_prefix)

theorem Whole.decoded_debugInfo (h : frame.Whole) (maxEntries : ℕ)
    (hid : frame.recordPrefix.id = jitCodeDebugInfo) :
    Decoded maxEntries frame (frame.decode maxEntries) := by
  obtain ⟨codeAddr, nrEntry, hdecode⟩ := h.decode_debugInfo maxEntries hid
  have hin : frame.InBounds maxEntries ↔ _ := inBounds_debugInfo_iff hid
  rw [hdecode]
  split_ifs with hmemory
  · exact .refused nofun ((refused_debugInfo_iff hid).mpr hmemory) (hin.mpr (.inl hmemory))
  · rw [← many_ne_none_iff] at hin
    cases hmany : ByteReader.many DebugEntry.decode frame.nrEntry
      (frame.buff.drop debugInfoIntegers) with
    | none => exact .outside fun hok => (hin.mp hok).elim hmemory fun hsome => hsome hmany
    | some r =>
      exact .debugInfo hid (mt (refused_debugInfo_iff hid).mp hmemory)
        (hin.mpr (.inr (by rw [hmany]; exact Option.some_ne_none r)))

theorem Whole.decoded (h : frame.Whole) (maxEntries : ℕ) :
    Decoded maxEntries frame (frame.decode maxEntries) := by
  obtain ⟨hid, -⟩ | ⟨hid, -⟩ := h.kind
  · exact h.decoded_codeLoad maxEntries hid
  · exact h.decoded_debugInfo maxEntries hid

theorem Whole.of_decode_codeLoad (h : frame.Whole)
    (hdecode : frame.decode maxEntries = .ok (.codeLoad codeLoad)) :
    codeLoad.recordPrefix = frame.recordPrefix ∧ ∃ buf,
      frame.buff = codeLoad.encodeIntegers ++ buf ∧ codeLoad.funcName <+: buf := by
  have hdecoded := h.decoded maxEntries
  rw [hdecode] at hdecoded
  cases hdecoded with
  | codeLoad _ _ _ hpre hbuff hname => exact ⟨hpre, _, hbuff, hname⟩

theorem Whole.of_decode_debugInfo (h : frame.Whole) {debugInfo : JITRecordDebugInfo}
    (hdecode : frame.decode maxEntries = .ok (.debugInfo debugInfo)) :
    frame.recordPrefix.id = jitCodeDebugInfo ∧ frame.HoldsEntries := by
  have hdecoded := h.decoded maxEntries
  rw [hdecode] at hdecoded
  cases hdecoded with
  | debugInfo hid hkept hin =>
    rw [refused_debugInfo_iff hid] at hkept
    exact ⟨hid, ((inBounds_debugInfo_iff hid).mp hin).resolve_left hkept⟩

end JitFrame

/-! ### All records -/

/-- The records are in bounds, up to one that is refused. -/
def AllInBounds (maxEntries : ℕ) : List JitFrame → Prop
  | [] => True
  | frame :: rest =>
    frame.InBounds maxEntries ∧ (frame.Refused maxEntries ∨ AllInBounds maxEntries rest)

theorem decodeFrames_inBounds_iff {maxEntries : ℕ} {stop : Option JitStop} {fs : List JitFrame}
    (hwhole : ∀ frame ∈ fs, frame.Whole) (hstop : stop ≠ some .outOfBounds) (jitDump : JITDump) :
    (decodeFrames maxEntries stop fs jitDump).2 ≠ some .outOfBounds ↔
      AllInBounds maxEntries fs := by
  induction fs generalizing jitDump with
  | nil => exact iff_of_true hstop trivial
  | cons frame rest ih =>
    obtain ⟨hframe, hrest⟩ := List.forall_mem_cons.mp hwhole
    have hdecoded := hframe.decoded maxEntries
    rw [decodeFrames, AllInBounds]
    generalize frame.decode maxEntries = result at hdecoded ⊢
    cases hdecoded with
    | refused hstop hrefused hin =>
      exact iff_of_true (fun heq => hstop (Option.some.inj heq)) ⟨hin, .inl hrefused⟩
    | outside hout => exact iff_of_false (fun hne => hne rfl) fun hall => hout hall.1
    | codeLoad _ hkept hin =>
      rw [and_iff_right hin, or_iff_right hkept]
      exact ih hrest _
    | debugInfo _ hkept hin =>
      rw [and_iff_right hin, or_iff_right hkept]
      exact ih hrest _

/-- What is returned of a record with code is from the bytes of the record. -/
theorem exists_of_mem_codeLoad {maxEntries : ℕ} {stop : Option JitStop} {fs : List JitFrame}
    (hwhole : ∀ frame ∈ fs, frame.Whole) {jitDump : JITDump}
    (h : codeLoad ∈ (decodeFrames maxEntries stop fs jitDump).1.codeLoad) :
    codeLoad ∈ jitDump.codeLoad ∨ ∃ frame ∈ fs, codeLoad.recordPrefix = frame.recordPrefix ∧
      codeLoad.funcName <:+: frame.buff := by
  induction fs generalizing jitDump with
  | nil => exact .inl h
  | cons frame rest ih =>
    obtain ⟨hframe, hrest⟩ := List.forall_mem_cons.mp hwhole
    have hdecoded := hframe.decoded maxEntries
    rw [decodeFrames] at h
    generalize frame.decode maxEntries = result at hdecoded h
    have hlater : (∃ frame' ∈ rest, codeLoad.recordPrefix = frame'.recordPrefix ∧
        codeLoad.funcName <:+: frame'.buff) → ∃ frame' ∈ frame :: rest,
        codeLoad.recordPrefix = frame'.recordPrefix ∧ codeLoad.funcName <:+: frame'.buff := by
      rintro ⟨frame', hmem, hspec⟩
      exact ⟨frame', List.mem_cons_of_mem _ hmem, hspec⟩
    cases hdecoded with
    | refused => exact .inl h
    | outside => exact .inl h
    | codeLoad _ _ _ hpre hbuff hname =>
      obtain hpush | hrest := ih hrest h
      · obtain hold | hnew := List.mem_append.mp hpush
        · exact .inl hold
        · rw [List.mem_singleton.mp hnew]
          refine .inr ⟨frame, List.mem_cons_self, hpre, ?_⟩
          rw [hbuff]
          exact hname.isInfix.trans (List.suffix_append _ _).isInfix
      · exact .inr (hlater hrest)
    | debugInfo => exact (ih hrest h).imp_right hlater

theorem whole_of_mem_jitFrames {file : List Byte} {frame : JitFrame}
    (h : frame ∈ (jitFrames file).1) : frame.Whole ∧ frame.encode <:+: file := by
  fun_induction jitFrames file with
  | case1 file stop hframe => cases h
  | case2 file hframe => cases h
  | case3 file frame' rest hframe _ ih =>
    obtain ⟨rfl, hwhole⟩ := whole_of_nextFrame hframe
    obtain rfl | hmem := List.mem_cons.mp h
    · exact ⟨hwhole, (List.prefix_append _ _).isInfix⟩
    · obtain ⟨hwhole', hinfix⟩ := ih hmem
      exact ⟨hwhole', hinfix.trans (List.suffix_append _ _).isInfix⟩

theorem nextFrame_ne_outOfBounds (file : List Byte) : nextFrame file ≠ .error .outOfBounds := by
  have hbuffer : ∀ (n : ℕ) {invalid incomplete : JitStop} (p : JITRecordPrefix) (body : List Byte),
      invalid ≠ .outOfBounds → incomplete ≠ .outOfBounds →
      ((readBuffer n invalid incomplete p body).map fun r => some ((⟨p, r.1⟩ : JitFrame), r.2)) ≠
        .error .outOfBounds := by
    intro n invalid incomplete p body hinvalid hincomplete h
    rw [readBuffer] at h
    split_ifs at h
    · exact hinvalid (Except.error.inj h)
    · cases hread : ByteReader.read (p.totalSize.toNat - jitPrefixSize) body <;> rw [hread] at h
      · exact hincomplete (Except.error.inj h)
      · cases h
  intro h
  rw [nextFrame] at h
  split at h
  · cases h
  · split_ifs at h
    · refine hbuffer _ _ _ ?_ ?_ h <;> rintro ⟨⟩
    · refine hbuffer _ _ _ ?_ ?_ h <;> rintro ⟨⟩
    · cases h

theorem jitFrames_ne_outOfBounds (file : List Byte) : (jitFrames file).2 ≠ some .outOfBounds := by
  fun_induction jitFrames file with
  | case1 file stop hframe =>
    intro h
    rw [Option.some.inj h] at hframe
    exact nextFrame_ne_outOfBounds file hframe
  | case2 file hframe => rintro ⟨⟩
  | case3 file frame rest hframe _ ih => exact ih

/-! ### The file -/

/-- The records that come after the header, from where `jit_read_header` leaves the file. -/
def jitRecords (file : List Byte) : List JitFrame :=
  match (jitReadHeader file).2 with
  | .error _ => []
  | .ok rest => (jitFrames rest).1

/-- The header is followed by bytes of the file, or refused. -/
theorem jitReadHeader_spec (file : List Byte) :
    (∃ rest, (jitReadHeader file).2 = .ok rest ∧ rest <:+ file) ∨
      ∃ stop, (jitReadHeader file).2 = .error stop ∧ stop ≠ .outOfBounds := by
  rw [jitReadHeader]
  cases hdecode : JITHeader.decode file with
  | none => exact .inr ⟨_, rfl, nofun⟩
  | some r =>
    obtain ⟨header, rest⟩ := r
    have hsuffix : rest <:+ file := ⟨_, (JITHeader.decode_eq_some.mp hdecode).symm⟩
    simp only
    split_ifs <;> first
      | exact .inr ⟨_, rfl, nofun⟩
      | exact .inl ⟨_, rfl, List.drop_suffix _ _⟩
      | exact .inl ⟨_, rfl, hsuffix⟩

/-- The records are decoded within their bytes if and only if their sizes are in bounds. -/
theorem jitdumpRead_inBounds_iff (maxEntries : ℕ) (file : List Byte) :
    ((jitdumpRead maxEntries (some file)).2 ≠ some .outOfBounds ∧
      ∀ codeLoad ∈ (jitdumpRead maxEntries (some file)).1.codeLoad, ∃ buff,
        codeLoad.recordPrefix.encode ++ buff <:+: file ∧
        codeLoad.recordPrefix.totalSize.toNat = jitPrefixSize + buff.length ∧
        codeLoad.funcName <:+: buff) ↔
      AllInBounds maxEntries (jitRecords file) := by
  obtain ⟨rest, hrest, hsuffix⟩ | ⟨stop, hstop, hne⟩ := jitReadHeader_spec file
  · have hwhole : ∀ frame ∈ (jitFrames rest).1, frame.Whole := fun frame hframe =>
      (whole_of_mem_jitFrames hframe).1
    rw [jitRecords, hrest, jitdumpRead_of_ok hrest, jitReadRecords_eq_decodeFrames,
      ← decodeFrames_inBounds_iff hwhole (jitFrames_ne_outOfBounds rest)
        { header := (jitReadHeader file).1 }]
    refine and_iff_left fun codeLoad hmem => ?_
    obtain hnil | ⟨frame, hframe, hpre, hname⟩ := exists_of_mem_codeLoad hwhole hmem
    · cases hnil
    · refine ⟨frame.buff, ?_, ?_, hname⟩
      · rw [hpre]
        exact (whole_of_mem_jitFrames hframe).2.trans hsuffix.isInfix
      · rw [hpre]
        exact (hwhole frame hframe).totalSize
  · rw [jitRecords, hstop, jitdumpRead_of_error hstop]
    exact iff_of_true ⟨fun heq => hne (Option.some.inj heq), nofun⟩ trivial

def plainHeader : JITHeader := ⟨jitHeaderMagic, jitHeaderVersion, 40, 62, 0, 7, 0, 0⟩

/-- A code size that is -2 as an `int`. -/
def hugeCode : JITRecordCodeLoad where
  recordPrefix := ⟨jitCodeLoad, 57, 0⟩
  pid := 7
  tid := 7
  vma := 0x1000
  codeAddr := 0x1000
  codeSize := 0xfffffffe
  codeIndex := 0

/-- A record with one byte after its integers, and a name of two bytes. -/
def overlongName : JitFrame := ⟨hugeCode.recordPrefix, hugeCode.encodeIntegers ++ [0]⟩

/-- A record that ends before its only entry does. -/
def openEntry : JitFrame :=
  ⟨⟨jitCodeDebugInfo, 50, 0⟩, ByteReader.bytes 0x1000#64 ++ ByteReader.bytes 1#64 ++
    ByteReader.bytes 0x1000#64 ++ ByteReader.bytes 1#32 ++ ByteReader.bytes 0#32 ++ [0x61, 0x62]⟩

theorem jitdumpRead_outOfBounds :
    (jitdumpRead 100 (some (plainHeader.encode ++ overlongName.encode))).2 = some .outOfBounds ∧
      (jitdumpRead 100 (some (plainHeader.encode ++ openEntry.encode))).2 = some .outOfBounds := by
  decide +kernel

/-! ### A file that is still being written -/

/-- The records of one are the first ones of the other. -/
def JITDump.Begins (jitDump jitDump' : JITDump) : Prop :=
  jitDump.codeLoad <+: jitDump'.codeLoad ∧ jitDump.debugInfo <+: jitDump'.debugInfo

theorem JITDump.begins_self (jitDump : JITDump) : jitDump.Begins jitDump :=
  ⟨List.prefix_rfl, List.prefix_rfl⟩

theorem begins_decodeFrames (maxEntries : ℕ) (stop : Option JitStop) (fs : List JitFrame)
    (jitDump : JITDump) : jitDump.Begins (decodeFrames maxEntries stop fs jitDump).1 := by
  induction fs generalizing jitDump with
  | nil => exact jitDump.begins_self
  | cons frame fs ih =>
    rw [decodeFrames]
    cases frame.decode maxEntries with
    | error stop => exact jitDump.begins_self
    | ok record =>
      obtain ⟨hcode, hinfo⟩ := ih (jitDump.push record)
      cases record with
      | codeLoad codeLoad => exact ⟨(List.prefix_append _ _).trans hcode, hinfo⟩
      | debugInfo debugInfo => exact ⟨hcode, (List.prefix_append _ _).trans hinfo⟩

/-- The records that are cut off in front do not depend on what comes behind them. -/
theorem jitReadRecords_append (maxEntries : ℕ) (file more : List Byte) (jitDump : JITDump) :
    (jitReadRecords maxEntries file jitDump).1.Begins
      (jitReadRecords maxEntries (file ++ more) jitDump).1 := by
  fun_induction jitFrames file generalizing jitDump with
  | case1 file stop hframe =>
    rw [jitReadRecords_step, hframe, jitReadRecords_eq_decodeFrames]
    exact begins_decodeFrames ..
  | case2 file hframe =>
    rw [jitReadRecords_step, hframe, jitReadRecords_eq_decodeFrames]
    exact begins_decodeFrames ..
  | case3 file frame rest hframe _ ih =>
    obtain ⟨rfl, hwhole⟩ := whole_of_nextFrame hframe
    rw [List.append_assoc, jitReadRecords_step, jitReadRecords_step]
    simp only [hwhole.nextFrame]
    cases frame.decode maxEntries with
    | error stop => exact jitDump.begins_self
    | ok record => exact ih (jitDump.push record)

theorem jitReadHeader_append {file rest : List Byte} (h : (jitReadHeader file).2 = .ok rest)
    (more : List Byte) : (jitReadHeader (file ++ more)).1 = (jitReadHeader file).1 ∧
      ∃ more', (jitReadHeader (file ++ more)).2 = .ok (rest ++ more') := by
  unfold jitReadHeader at h ⊢
  cases hdecode : JITHeader.decode file with
  | none =>
    rw [hdecode] at h
    cases h
  | some r =>
    have hmore : JITHeader.decode (file ++ more) = some (r.1, r.2 ++ more) := by
      rw [JITHeader.decode_eq_some.mp hdecode]
      exact JITHeader.decode_eq_some.mpr (List.append_assoc _ _ _)
    simp only [hdecode, hmore, true_and] at h ⊢
    split_ifs at h ⊢ <;> simp only [Except.bind, reduceCtorEq, Except.ok.injEq] at h ⊢
    · exact ⟨_, by rw [← h, List.drop_append]⟩
    · exact ⟨more, by rw [h]⟩

/-- What is read of a file that is still being written is the beginning of what is read of it
later, whatever is in it. -/
theorem jitdumpRead_append (maxEntries : ℕ) (file more : List Byte) :
    (jitdumpRead maxEntries (some file)).1.Begins
      (jitdumpRead maxEntries (some (file ++ more))).1 := by
  obtain ⟨rest, hrest, -⟩ | ⟨stop, hstop, -⟩ := jitReadHeader_spec file
  · obtain ⟨hheader, more', hmore⟩ := jitReadHeader_append hrest more
    rw [jitdumpRead_of_ok hrest, jitdumpRead_of_ok hmore, hheader]
    exact jitReadRecords_append ..
  · rw [jitdumpRead_of_error hstop]
    exact ⟨List.nil_prefix, List.nil_prefix⟩

end Ddprof
