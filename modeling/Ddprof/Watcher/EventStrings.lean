import Ddprof.EventParser.Concatenation

/-!
Watchers of event strings, and the attributes that events are opened with.

A watcher has one number for its period and its frequency, and a flag that says which of the two it
is. An event string that sets a frequency sets the flag, but one that sets a period leaves it as it
is in the table of events.
-/

namespace Ddprof

open EventParser Scanner

/-! ### Watchers -/

/-- `watchers_from_str`. What earlier calls of the parser have left is overwritten by this one, and
the globals can be any. -/
def watchersFromStr (arch : Arch) (ids : TracepointIds) (str : List Char)
    (watchers : List PerfWatcher) (stackSampleSize : ℕ) : Except WatcherError (List PerfWatcher) :=
  let template := templateConf stackSampleSize
  let parsed := eventConfParse arch ⟨template, template⟩ str template []
  if parsed.ret ≠ 0 then .error .invalidEvent
  else watchersFromConfs ids watchers (parsed.configs.map ScaledConf.toEventConf)

theorem watchersFromStr_of_parse {arch : Arch} {str : List Char} {stackSampleSize : ℕ}
    {confs : List ScaledConf}
    (h : parse arch (initialState (templateConf stackSampleSize) []) (lex str) =
      .ok (initialState (templateConf stackSampleSize) confs))
    (ids : TracepointIds) (watchers : List PerfWatcher) :
    watchersFromStr arch ids str watchers stackSampleSize =
      watchersFromConfs ids watchers (confs.map ScaledConf.toEventConf) := by
  rw [watchersFromStr]
  simp only [eventConfParse_eq, h]
  rfl

/-! ### Attributes -/

/-- `k_perf_register_mask` -/
def Arch.perfRegisterMask : Arch → ℕ
  | .x86 => 0xff0fff
  | .aarch64 => 2 ^ 33 - 1

inductive PerfClockSource
  | clockMonotonic
  | clockMonotonicRaw
  | maxPosixClock
  | tsc
  | noClock
  deriving DecidableEq, Repr

def PerfClockSource.toNat : PerfClockSource → ℕ
  | .clockMonotonic => 1
  | .clockMonotonicRaw => 4
  | .maxPosixClock => 64
  | .tsc => 65
  | .noClock => 255

/-- The fields of `perf_event_attr` that are set, with the values of `g_dd_native_attr`. The
period and the frequency share one member, here `samplePeriod`. -/
structure PerfEventAttr where
  type : PerfType
  config : BitVec 64
  samplePeriod : BitVec 64
  freq : Bool
  sampleType : ℕ
  sampleStackUser : ℕ
  sampleRegsUser : ℕ
  excludeKernel : Bool := true
  disabled : Bool := true
  inherit : Bool := true
  excludeHv : Bool := true
  enableOnExec : Bool := true
  preciseIp : ℕ := 2
  sampleIdAll : Bool := true
  mmap : Bool := false
  mmap2 : Bool := false
  mmapData : Bool := false
  inheritStat : Bool := false
  task : Bool := false
  comm : Bool := false
  useClockid : Bool := false
  clockid : ℕ := 0
  deriving DecidableEq, Repr

namespace PerfEventAttr

def sampleFreq (attr : PerfEventAttr) : BitVec 64 := attr.samplePeriod

/-- Metadata for tracking the state of processes. -/
def withExtras (attr : PerfEventAttr) : PerfEventAttr :=
  { attr with mmap := true, mmap2 := true, task := true, comm := true, useClockid := true
              clockid := 1 }

def setPerfClockSource (attr : PerfEventAttr) (source : PerfClockSource) : PerfEventAttr :=
  if source.toNat < PerfClockSource.maxPosixClock.toNat then
    { attr with useClockid := true, clockid := source.toNat }
  else { attr with useClockid := false }

end PerfEventAttr

def perfConfigFromWatcher (arch : Arch) (w : PerfWatcher) (extras : Bool)
    (source : PerfClockSource) : PerfEventAttr :=
  let attr : PerfEventAttr :=
    { type := w.type
      config := BitVec.ofNat 64 w.config
      samplePeriod := BitVec.ofInt 64 w.samplePeriod
      freq := w.options.isFreq
      sampleType := w.sampleType
      sampleStackUser := w.options.stackSampleSize
      sampleRegsUser := arch.perfRegisterMask
      excludeKernel := w.options.useKernel = .off }
  let attr := if extras then attr.withExtras else attr
  attr.setPerfClockSource source

section Attributes

variable (arch : Arch) (w : PerfWatcher) (extras : Bool) (source : PerfClockSource)

@[simp] theorem perfConfigFromWatcher_freq :
    (perfConfigFromWatcher arch w extras source).freq = w.options.isFreq := by
  cases extras <;> cases source <;> rfl

@[simp] theorem perfConfigFromWatcher_samplePeriod :
    (perfConfigFromWatcher arch w extras source).samplePeriod =
      BitVec.ofInt 64 w.samplePeriod := by
  cases extras <;> cases source <;> rfl

end Attributes

/-! ### Numbers -/

theorem toLong_bounds (n : ℤ) : -2 ^ 63 ≤ toLong n ∧ toLong n < 2 ^ 63 := by
  rw [toLong, longMin, longMax]
  omega

theorem toLong_eq_self_iff {n : ℤ} : toLong n = n ↔ -2 ^ 63 ≤ n ∧ n < 2 ^ 63 := by
  rw [toLong, longMin, longMax]
  omega

theorem toLong_ne_zero {n : ℤ} (hn : n ≠ 0) : toLong n ≠ 0 := by
  rw [toLong, longMin, longMax]
  omega

theorem toLong_nonneg {n : ℤ} (hn : 0 ≤ n) : 0 ≤ toLong n := by
  rw [toLong, longMin, longMax]
  omega

theorem toInt_ofInt_toLong (n : ℤ) : (BitVec.ofInt 64 (toLong n)).toInt = toLong n :=
  BitVec.toInt_ofInt_eq_self (by decide) (toLong_bounds n).1 (toLong_bounds n).2

theorem toNat_ofInt_toLong {n : ℤ} (hn : 0 ≤ n) :
    ((BitVec.ofInt 64 (toLong n)).toNat : ℤ) = toLong n := by
  have hpos := toLong_nonneg hn
  have hbounds := toLong_bounds n
  rw [BitVec.toNat_ofInt]
  omega

/-! ### Cadences -/

theorem EventName.isWord_str (event : EventName) : IsWord event.str := by
  cases event <;> decide +kernel

theorem EventName.wordToken_str (event : EventName) : wordToken event.str = .word event.str := by
  cases event <;> decide +kernel

theorem EventName.str_ne_nil (event : EventName) : event.str ≠ [] := event.isWord_str.ne_nil

theorem ewatcherFromStr_str (event : EventName) :
    ewatcherFromStr event.str = some (ewatcher event) := by
  cases event <;> decide +kernel

section Cadences

variable {arch : Arch} {key : List Char} {field : EventConfField} {cadType : CadenceType} {n : ℤ}

theorem lex_event_option (event : EventName) (hword : IsWord key)
    (hkey : keyField key = some field) (n : ℤ) :
    lex (event.str ++ ' ' :: (key ++ '=' :: Numerals.decimal n)) =
      [.word event.str, .key field, .eq, .number (toLong n)] := by
  have hscan := scan_decimal n (t := []) headNot_nil
  rw [List.append_nil] at hscan
  have htoken : wordToken key = .key field := by rw [wordToken, hkey]
  rw [lex_word_key event.isWord_str hword, event.wordToken_str, htoken, hscan]
  rfl

def cadenceConf (event : EventName) (cadType : CadenceType) (n : ℤ) (stackSampleSize : ℕ) :
    ScaledConf :=
  { templateConf stackSampleSize with
    eventname := event.str, label := event.str, cadType := cadType, cadence := n }

theorem parse_event_option (event : EventName) (hdefined : cadType ≠ .undefined)
    (hset : ∀ conf, setInteger arch field n conf = setConfCadence cadType n conf)
    (stackSampleSize : ℕ) :
    parse arch (initialState (templateConf stackSampleSize) [])
        [.word event.str, .key field, .eq, .number n] =
      .ok (initialState (templateConf stackSampleSize)
        [cadenceConf event cadType n stackSampleSize]) := by
  let conf : ScaledConf := { templateConf stackSampleSize with eventname := event.str }
  have hconf : setInteger arch field n conf = .ok { conf with cadence := n, cadType := cadType } :=
    (hset conf).trans rfl
  have hfinal : finalized { conf with cadence := n, cadType := cadType } =
      cadenceConf event cadType n stackSampleSize := by
    simp [finalized, defaultLabel, conf, templateConf, cadenceConf, event.str_ne_nil, hdefined]
  show Except.bind (ParserState.option _ (setInteger arch field n conf)) _ = _
  rw [hconf, ← hfinal]
  rfl

theorem watcherFromConfig_cadenceConf (ids : TracepointIds) (event : EventName)
    (cadType : CadenceType) (n : ℤ) (stackSampleSize : ℕ) :
    ∃ w, watcherFromConfig ids (cadenceConf event cadType n stackSampleSize).toEventConf = some w ∧
      w.samplePeriod = (setCadence (cadenceConf event cadType n stackSampleSize).toEventConf
        (ewatcher event)).samplePeriod ∧
      w.options.isFreq = (setCadence (cadenceConf event cadType n stackSampleSize).toEventConf
        (ewatcher event)).options.isFreq := by
  have htemplate : watcherTemplate ids (cadenceConf event cadType n stackSampleSize).toEventConf =
      some (ewatcher event) := by
    have hname : (cadenceConf event cadType n stackSampleSize).toEventConf.eventname = event.str :=
      rfl
    rw [watcherTemplate, hname, if_neg event.str_ne_nil, ewatcherFromStr_str]
  rw [watcherFromConfig, htemplate]
  exact ⟨_, rfl, rfl, rfl⟩

theorem watchersFromStr_cadence (arch : Arch) (event : EventName) (n : ℤ) (hword : IsWord key)
    (hkey : keyField key = some field) (hdefined : cadType ≠ .undefined)
    (hset : ∀ conf, setInteger arch field (toLong n) conf = setConfCadence cadType (toLong n) conf)
    (ids : TracepointIds) (watchers : List PerfWatcher) (stackSampleSize : ℕ) :
    ∃ w, watchersFromStr arch ids (event.str ++ ' ' :: (key ++ '=' :: Numerals.decimal n)) watchers
        stackSampleSize = .ok (watchers ++ [w]) ∧
      w.samplePeriod = (setCadence
        (cadenceConf event cadType (toLong n) stackSampleSize).toEventConf
        (ewatcher event)).samplePeriod ∧
      w.options.isFreq = (setCadence
        (cadenceConf event cadType (toLong n) stackSampleSize).toEventConf
        (ewatcher event)).options.isFreq := by
  obtain ⟨w, hw, hsample, hfreq⟩ :=
    watcherFromConfig_cadenceConf ids event cadType (toLong n) stackSampleSize
  refine ⟨w, ?_, hsample, hfreq⟩
  have hparse := parse_event_option event hdefined hset stackSampleSize
  rw [← lex_event_option event hword hkey] at hparse
  rw [watchersFromStr_of_parse hparse]
  simp [watchersFromConfs, hw]

theorem watchersFromStr_period (arch : Arch) (event : EventName) {p : ℤ} (hp : p ≠ 0)
    (ids : TracepointIds) (watchers : List PerfWatcher) (stackSampleSize : ℕ) :
    ∃ w, watchersFromStr arch ids (event.str ++ " period=".toList ++ Numerals.decimal p) watchers
        stackSampleSize = .ok (watchers ++ [w]) ∧
      w.samplePeriod = toLong p ∧ w.options.isFreq = (ewatcher event).options.isFreq := by
  have hkey : keyField "period".toList = some .period := by decide +kernel
  have hset : ∀ conf, setInteger arch .period (toLong p) conf =
      setConfCadence .period (toLong p) conf := fun conf => by simp [setInteger]
  obtain ⟨w, hw, hsample, hfreq⟩ := watchersFromStr_cadence arch event p (by decide) hkey
    (by decide) hset ids watchers stackSampleSize
  simp only [setCadence, cadenceConf, toLong_ne_zero hp, if_false] at hsample hfreq
  refine ⟨w, ?_, hsample, hfreq⟩
  rw [List.append_assoc]
  exact hw

theorem watchersFromStr_frequency (arch : Arch) (event : EventName) {f : ℕ} (hf : 0 < f)
    (ids : TracepointIds) (watchers : List PerfWatcher) (stackSampleSize : ℕ) :
    ∃ w, watchersFromStr arch ids (event.str ++ " frequency=".toList ++ Numerals.decimal f)
        watchers stackSampleSize = .ok (watchers ++ [w]) ∧
      w.samplePeriod = toLong f ∧ w.options.isFreq = true := by
  have hkey : keyField "frequency".toList = some .frequency := by decide +kernel
  have hset : ∀ conf, setInteger arch .frequency (toLong f) conf =
      setConfCadence .frequency (toLong f) conf := fun conf => by
    simp [setInteger, toLong_nonneg (Int.natCast_nonneg f)]
  obtain ⟨w, hw, hsample, hfreq⟩ := watchersFromStr_cadence arch event f (by decide) hkey
    (by decide) hset ids watchers stackSampleSize
  have hne : toLong f ≠ 0 := toLong_ne_zero (by omega)
  simp only [setCadence, cadenceConf, hne, if_false] at hsample hfreq
  refine ⟨w, ?_, hsample, hfreq⟩
  rw [List.append_assoc]
  exact hw

end Cadences

/-! ### Event strings -/

theorem exists_watcher_iff {watchers : List PerfWatcher} {w : PerfWatcher}
    {P : PerfWatcher → Prop} :
    (∃ w', (.ok (watchers ++ [w]) : Except WatcherError (List PerfWatcher)) =
      .ok (watchers ++ [w']) ∧ P w') ↔ P w := by
  simp

/-- An event string with a period gives an attribute with this period exactly if the event does not
have a frequency by default and the period fits a `long`. An event string with a frequency gives an
attribute with this frequency exactly if it fits. -/
theorem perfConfigFromWatcher_cadence_iff (arch : Arch) (ids : TracepointIds) (event : EventName)
    (watchers : List PerfWatcher) (stackSampleSize : ℕ) (extras : Bool)
    (source : PerfClockSource) :
    (∀ p : ℤ, p ≠ 0 →
      ((∃ w, watchersFromStr arch ids (event.str ++ " period=".toList ++ Numerals.decimal p)
          watchers stackSampleSize = .ok (watchers ++ [w]) ∧
        (perfConfigFromWatcher arch w extras source).freq = false ∧
        (perfConfigFromWatcher arch w extras source).samplePeriod.toInt = p) ↔
      (ewatcher event).options.isFreq = false ∧ -2 ^ 63 ≤ p ∧ p < 2 ^ 63)) ∧
    ∀ f : ℕ, 0 < f →
      ((∃ w, watchersFromStr arch ids (event.str ++ " frequency=".toList ++ Numerals.decimal f)
          watchers stackSampleSize = .ok (watchers ++ [w]) ∧
        (perfConfigFromWatcher arch w extras source).freq = true ∧
        (perfConfigFromWatcher arch w extras source).sampleFreq.toNat = f) ↔
      f < 2 ^ 63) := by
  constructor
  · intro p hp
    obtain ⟨w, hw, hsample, hfreq⟩ := watchersFromStr_period arch event hp ids watchers
      stackSampleSize
    rw [hw, exists_watcher_iff]
    simp only [perfConfigFromWatcher_freq, perfConfigFromWatcher_samplePeriod, hsample, hfreq,
      toInt_ofInt_toLong, toLong_eq_self_iff]
  · intro f hf
    obtain ⟨w, hw, hsample, hfreq⟩ := watchersFromStr_frequency arch event hf ids watchers
      stackSampleSize
    have htoNat := toNat_ofInt_toLong (Int.natCast_nonneg f)
    have hself := toLong_eq_self_iff (n := f)
    rw [hw, exists_watcher_iff]
    simp only [perfConfigFromWatcher_freq, PerfEventAttr.sampleFreq,
      perfConfigFromWatcher_samplePeriod, hsample, hfreq, true_and]
    omega

/-- The page faults have a period by default, and the task clock has a frequency. -/
theorem perfConfigFromWatcher_cadence_sPF :
    (∃ w, watchersFromStr .x86 (fun _ _ => -1) "sPF period=100".toList [] 0 = .ok [w] ∧
      (perfConfigFromWatcher .x86 w false .tsc).freq = false ∧
      (perfConfigFromWatcher .x86 w false .tsc).samplePeriod.toInt = 100) ∧
    ∃ w, watchersFromStr .x86 (fun _ _ => -1) "sPF frequency=100".toList [] 0 = .ok [w] ∧
      (perfConfigFromWatcher .x86 w false .tsc).freq = true ∧
      (perfConfigFromWatcher .x86 w false .tsc).sampleFreq.toNat = 100 := by
  obtain ⟨hperiod, hfrequency⟩ :=
    perfConfigFromWatcher_cadence_iff .x86 (fun _ _ => -1) .sPF [] 0 false .tsc
  exact ⟨(hperiod 100 (by decide)).mpr (by decide), (hfrequency 100 (by decide)).mpr (by decide)⟩

/-- A period of the task clock is taken for a frequency, and a period that does not fit is replaced
by the largest one. -/
theorem perfConfigFromWatcher_cadence_sCPU :
    (watchersFromStr .x86 (fun _ _ => -1) "sCPU period=100".toList [] 0).map
        (List.map fun w => ((perfConfigFromWatcher .x86 w false .tsc).freq,
          (perfConfigFromWatcher .x86 w false .tsc).samplePeriod)) = .ok [(true, 100#64)] ∧
      (watchersFromStr .x86 (fun _ _ => -1) "sPF frequency=9223372036854775808".toList [] 0).map
        (List.map fun w => (perfConfigFromWatcher .x86 w false .tsc).sampleFreq.toNat) =
          .ok [9223372036854775807] := by
  decide +kernel

end Ddprof
