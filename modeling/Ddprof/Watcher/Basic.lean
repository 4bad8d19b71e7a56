import Mathlib.Tactic

/-!
Watchers: what the profiler samples and how it aggregates it.

The table of built-in events, the construction of a watcher from a parsed event
configuration, the presets, and the list of watchers that a command line gives.
The grammar of event strings is not part of this module: a command line is
given by the configurations that its event strings parse to.
-/

namespace Ddprof

/-! ### Aggregation -/

inductive AggregationPos
  | sum
  | liveSum
  deriving DecidableEq, Repr

structure PerMode (α : Type) where
  sum : α
  liveSum : α
  deriving DecidableEq, Repr

def PerMode.get {α : Type} (t : PerMode α) : AggregationPos → α
  | .sum => t.sum
  | .liveSum => t.liveSum

def PerMode.set {α : Type} (t : PerMode α) (pos : AggregationPos) (x : α) : PerMode α :=
  match pos with
  | .sum => { t with sum := x }
  | .liveSum => { t with liveSum := x }

/-- `EventAggregationMode`, a set of two flags. -/
abbrev AggregationMode := PerMode Bool

/-- The sample types of the exported profile that watchers use. -/
inductive SampleType
  | tracepoint
  | cpuTime
  | cpuSamples
  | allocSpace
  | allocSamples
  | inuseSpace
  | inuseObjects
  deriving DecidableEq, Repr

/-- The sample type and its companion count for each mode; `none` is `k_stype_none`. -/
structure WatcherSampleTypes where
  sampleTypes : PerMode (Option SampleType)
  countTypes : PerMode (Option SampleType)
  deriving DecidableEq, Repr

def stypeTracepoint : WatcherSampleTypes :=
  { sampleTypes := ⟨some .tracepoint, none⟩
    countTypes := ⟨none, none⟩ }

def stypeCpu : WatcherSampleTypes :=
  { sampleTypes := ⟨some .cpuTime, none⟩
    countTypes := ⟨some .cpuSamples, none⟩ }

def stypeAlloc : WatcherSampleTypes :=
  { sampleTypes := ⟨some .allocSpace, some .inuseSpace⟩
    countTypes := ⟨some .allocSamples, some .inuseObjects⟩ }

def stypeDummy : WatcherSampleTypes :=
  { sampleTypes := ⟨none, none⟩
    countTypes := ⟨none, none⟩ }

def isPprofActive (st : WatcherSampleTypes) : Bool := st.sampleTypes.sum.isSome

/-- Slots of a profile, or `-1`. -/
structure PProfIndices where
  pprofIndex : ℤ := -1
  pprofCountIndex : ℤ := -1
  deriving DecidableEq, Repr

/-! ### Watchers -/

inductive EventName
  | hCPU | hREF | hINST | hCREF | hCMISS | hBRANCH | hBMISS | hBUS | hBSTF | hBSTB
  | sCPU | sPF | sCS | sMig | sPFMAJ | sPFMIN | sALGN | sEMU | sDUM | sALLOC
  deriving DecidableEq, Repr

inductive PerfType
  | hardware
  | software
  | tracepoint
  /-- `kDDPROF_TYPE_CUSTOM`, above all perf types. -/
  | custom
  deriving DecidableEq, Repr

/-- `type < PERF_TYPE_MAX`. -/
def PerfType.isPerf : PerfType → Bool
  | .custom => false
  | _ => true

inductive UseKernel
  | off
  | required
  | try
  deriving DecidableEq, Repr

inductive ValueSource
  | sample
  | register
  | raw
  deriving DecidableEq, Repr

inductive CadenceType
  | undefined
  | period
  | frequency
  deriving DecidableEq, Repr

def perfSampleTid : ℕ := 0x2
def perfSampleTime : ℕ := 0x4
def perfSampleAddr : ℕ := 0x8
def perfSamplePeriod : ℕ := 0x100
def perfSampleRaw : ℕ := 0x400
def perfSampleRegsUser : ℕ := 0x1000
def perfSampleStackUser : ℕ := 0x2000

/-- `BASE_STYPES`. -/
def baseStypes : ℕ :=
  perfSampleStackUser ||| perfSampleRegsUser ||| perfSampleTid ||| perfSampleTime |||
    perfSamplePeriod

structure WatcherOptions where
  useKernel : UseKernel := .off
  isFreq : Bool := false
  nbFramesToSkip : ℕ := 0
  stackSampleSize : ℕ := 32000
  deriving DecidableEq, Repr

/-- The period and the frequency of a watcher share one union member, here
`samplePeriod`. -/
structure PerfWatcher where
  sampleType : ℕ := baseStypes
  config : ℕ
  samplePeriod : ℤ
  tracepointEvent : List Char := []
  tracepointGroup : List Char := []
  tracepointLabel : List Char := []
  /-- `none` is `DDPROF_PWE_TRACEPOINT`. -/
  ddprofEventType : Option EventName
  type : PerfType
  options : WatcherOptions := {}
  sampleTypeInfo : WatcherSampleTypes
  pprofIndices : PerMode PProfIndices := ⟨{}, {}⟩
  valueSource : ValueSource := .sample
  aggregationMode : AggregationMode := ⟨true, false⟩
  regno : ℕ := 0
  rawOff : ℕ := 0
  rawSz : ℕ := 0
  deriving DecidableEq, Repr

def PerfWatcher.withIndices (w : PerfWatcher) (indices : PerMode PProfIndices) : PerfWatcher :=
  { w with pprofIndices := indices }

/-- `NB_FRAMES_TO_SKIP` of an optimised build. -/
def nbFramesToSkip : ℕ := 4

def isFreq : WatcherOptions := { isFreq := true }
def isFreqTryKernel : WatcherOptions := { useKernel := .try, isFreq := true }
def useKernel : WatcherOptions := { useKernel := .required }
def skipFrames : WatcherOptions := { nbFramesToSkip := nbFramesToSkip }

def builtin (name : EventName) (type : PerfType) (config : ℕ) (cadence : ℤ)
    (st : WatcherSampleTypes) (options : WatcherOptions) : PerfWatcher :=
  { config := config, samplePeriod := cadence, ddprofEventType := some name, type := type,
    options := options, sampleTypeInfo := st }

/-- `EVENT_CONFIG_TABLE`. -/
def ewatcher : EventName → PerfWatcher
  | .hCPU => builtin .hCPU .hardware 0 99 stypeTracepoint isFreq
  | .hREF => builtin .hREF .hardware 9 1000 stypeTracepoint isFreq
  | .hINST => builtin .hINST .hardware 1 1000 stypeTracepoint isFreq
  | .hCREF => builtin .hCREF .hardware 2 999 stypeTracepoint {}
  | .hCMISS => builtin .hCMISS .hardware 3 999 stypeTracepoint {}
  | .hBRANCH => builtin .hBRANCH .hardware 4 999 stypeTracepoint {}
  | .hBMISS => builtin .hBMISS .hardware 5 999 stypeTracepoint {}
  | .hBUS => builtin .hBUS .hardware 6 1000 stypeTracepoint isFreq
  | .hBSTF => builtin .hBSTF .hardware 7 1000 stypeTracepoint isFreq
  | .hBSTB => builtin .hBSTB .hardware 8 1000 stypeTracepoint isFreq
  | .sCPU => builtin .sCPU .software 1 99 stypeCpu isFreqTryKernel
  | .sPF => builtin .sPF .software 2 1 stypeTracepoint useKernel
  | .sCS => builtin .sCS .software 3 1 stypeTracepoint useKernel
  | .sMig => builtin .sMig .software 4 99 stypeTracepoint isFreq
  | .sPFMAJ => builtin .sPFMAJ .software 6 99 stypeTracepoint useKernel
  | .sPFMIN => builtin .sPFMIN .software 5 99 stypeTracepoint useKernel
  | .sALGN => builtin .sALGN .software 7 99 stypeTracepoint isFreq
  | .sEMU => builtin .sEMU .software 8 99 stypeTracepoint isFreq
  | .sDUM => builtin .sDUM .software 9 1 stypeDummy {}
  | .sALLOC => builtin .sALLOC .custom 0 524288 stypeAlloc skipFrames

def EventName.str : EventName → List Char
  | .hCPU => "hCPU".toList | .hREF => "hREF".toList | .hINST => "hINST".toList
  | .hCREF => "hCREF".toList | .hCMISS => "hCMISS".toList | .hBRANCH => "hBRANCH".toList
  | .hBMISS => "hBMISS".toList | .hBUS => "hBUS".toList | .hBSTF => "hBSTF".toList
  | .hBSTB => "hBSTB".toList | .sCPU => "sCPU".toList | .sPF => "sPF".toList
  | .sCS => "sCS".toList | .sMig => "sMig".toList | .sPFMAJ => "sPFMAJ".toList
  | .sPFMIN => "sPFMIN".toList | .sALGN => "sALGN".toList | .sEMU => "sEMU".toList
  | .sDUM => "sDUM".toList | .sALLOC => "sALLOC".toList

def EventName.all : List EventName :=
  [.hCPU, .hREF, .hINST, .hCREF, .hCMISS, .hBRANCH, .hBMISS, .hBUS, .hBSTF, .hBSTB,
    .sCPU, .sPF, .sCS, .sMig, .sPFMAJ, .sPFMIN, .sALGN, .sEMU, .sDUM, .sALLOC]

def ewatcherFromStr (str : List Char) : Option PerfWatcher :=
  (EventName.all.find? fun name => name.str = str).map ewatcher

def tracepointDefaultWatcher : PerfWatcher :=
  { config := 0, samplePeriod := 1, ddprofEventType := none, type := .tracepoint,
    options := useKernel, sampleTypeInfo := stypeTracepoint }

instance : Inhabited PerfWatcher := ⟨tracepointDefaultWatcher⟩

/-! ### From configurations to watchers -/

structure EventConf where
  mode : AggregationMode := ⟨true, false⟩
  id : ℤ := 0
  eventname : List Char := []
  groupname : List Char := []
  label : List Char := []
  valueSource : ValueSource := .sample
  registerNum : ℕ := 0
  rawSize : ℕ := 0
  rawOffset : ℕ := 0
  stackSampleSize : ℕ := 32000
  cadType : CadenceType := .undefined
  cadence : ℤ := 0
  deriving DecidableEq, Repr

/-- `tracepoint_get_id` of an event and a group; `-1` when it is not found. -/
abbrev TracepointIds := List Char → List Char → ℤ

def kIgnoredWatcherID : ℤ := -1

/-- The template of a configuration, with `config` already set for a tracepoint. -/
def watcherTemplate (ids : TracepointIds) (conf : EventConf) : Option PerfWatcher :=
  if conf.eventname = [] then none
  else
    match ewatcherFromStr conf.eventname with
    | some w => some w
    | none =>
      if conf.groupname = [] then none
      else if conf.id = kIgnoredWatcherID then some tracepointDefaultWatcher
      else
        let tracepointId := if 0 < conf.id then conf.id else ids conf.eventname conf.groupname
        if tracepointId = kIgnoredWatcherID then none
        else some { tracepointDefaultWatcher with config := (tracepointId % 2 ^ 64).toNat }

def setCadence (conf : EventConf) (w : PerfWatcher) : PerfWatcher :=
  if conf.cadence = 0 then w
  else
    match conf.cadType with
    | .period => { w with samplePeriod := conf.cadence }
    | .frequency =>
      { w with samplePeriod := conf.cadence, options := { w.options with isFreq := true } }
    | .undefined => w

def setValueSource (conf : EventConf) (w : PerfWatcher) : PerfWatcher :=
  match conf.valueSource with
  | .raw =>
    { w with
      valueSource := .raw
      sampleType := w.sampleType ||| perfSampleRaw
      rawOff := conf.rawOffset % 2 ^ 8
      rawSz := if 0 < conf.rawSize then conf.rawSize else 8 }
  | .register => { w with regno := conf.registerNum, valueSource := .register }
  | .sample => w

/-- `kDDPROF_COUNT_ALLOCATIONS`. The comparison in the source does not look at the
type of the watcher. -/
def kDdprofCountAllocations : ℕ := 0

def watcherFromConfig (ids : TracepointIds) (conf : EventConf) : Option PerfWatcher :=
  (watcherTemplate ids conf).map fun template =>
    let w := setValueSource conf (setCadence conf template)
    { w with
      aggregationMode := conf.mode
      tracepointEvent := conf.eventname
      tracepointGroup := conf.groupname
      tracepointLabel := conf.label
      options := { w.options with stackSampleSize := conf.stackSampleSize }
      sampleType := if w.config = kDdprofCountAllocations
        then w.sampleType ||| perfSampleAddr else w.sampleType }

/-! ### The watchers of a command line -/

inductive WatcherError
  | invalidEvent
  | duplicateEvent
  | unknownPreset
  deriving DecidableEq, Repr

/-- `watchers_from_str` on the configurations that the string parses to: watchers are
appended one by one, up to the first invalid one. -/
def watchersFromConfs (ids : TracepointIds) (watchers : List PerfWatcher) :
    List EventConf → Except WatcherError (List PerfWatcher)
  | [] => .ok watchers
  | conf :: rest =>
    match watcherFromConfig ids conf with
    | none => .error .invalidEvent
    | some w => watchersFromConfs ids (watchers ++ [w]) rest

def addWatchersFromEvents (ids : TracepointIds) (watchers : List PerfWatcher) :
    List (List EventConf) → Except WatcherError (List PerfWatcher)
  | [] => .ok watchers
  | confs :: rest =>
    match watchersFromConfs ids watchers confs with
    | .error e => .error e
    | .ok watchers' => addWatchersFromEvents ids watchers' rest

/-- Whether `find_duplicate_event` returns a watcher. -/
def hasDuplicateEvent (seen : List EventName) : List PerfWatcher → Bool
  | [] => false
  | w :: rest =>
    match w.ddprofEventType with
    | none => hasDuplicateEvent seen rest
    | some name => if name ∈ seen then true else hasDuplicateEvent (name :: seen) rest

def presetConf (name : EventName) (mode : AggregationMode) (stackSampleSize : ℕ) : EventConf :=
  { eventname := name.str, label := name.str, mode := mode, stackSampleSize := stackSampleSize }

/-- The events of a preset, as their strings parse. -/
def presetConfs (preset : List Char) (stackSampleSize : ℕ) : Option (List EventConf) :=
  let sum : AggregationMode := ⟨true, false⟩
  let all : AggregationMode := ⟨true, true⟩
  let conf := fun name mode => presetConf name mode stackSampleSize
  if preset = "default".toList then some [conf .sCPU sum, conf .sALLOC sum]
  else if preset = "default-pid".toList then some [conf .sCPU sum]
  else if preset = "cpu_only".toList then some [conf .sCPU sum]
  else if preset = "alloc_only".toList then some [conf .sALLOC sum]
  else if preset = "alloc_live_heap".toList then some [conf .sALLOC all]
  else if preset = "cpu_live_heap".toList then some [conf .sCPU sum, conf .sALLOC all]
  else none

/-- The last loop of `add_preset`: an event that is already watched is skipped. -/
def addPresetWatchers (watchers : List PerfWatcher) : List PerfWatcher → List PerfWatcher
  | [] => watchers
  | w :: rest =>
    if w.ddprofEventType = none ∨ ∀ w' ∈ watchers, w'.ddprofEventType ≠ w.ddprofEventType
    then addPresetWatchers (watchers ++ [w]) rest
    else addPresetWatchers watchers rest

def addPreset (ids : TracepointIds) (preset : List Char) (pidOrGlobalMode : Bool)
    (stackSampleSize : ℕ) (watchers : List PerfWatcher) :
    Except WatcherError (List PerfWatcher) :=
  let preset := if preset = "default".toList ∧ pidOrGlobalMode then "default-pid".toList
    else preset
  match presetConfs preset stackSampleSize with
  | none => .error .unknownPreset
  | some confs =>
    match watchersFromConfs ids [] confs with
    | .error e => .error e
    | .ok newWatchers => .ok (addPresetWatchers watchers newWatchers)

/-- The part of the command line that decides about watchers. -/
structure WatcherInput where
  events : List (List EventConf)
  preset : List Char
  pidOrGlobalMode : Bool
  defaultStackSampleSize : ℕ

/-- `order_watchers` is a stable partition: perf watchers first. -/
def orderWatchers (watchers : List PerfWatcher) : List PerfWatcher :=
  watchers.filter (fun w => w.type.isPerf) ++ watchers.filter (fun w => !w.type.isPerf)

def contextAddWatchers (ids : TracepointIds) (input : WatcherInput) :
    Except WatcherError (List PerfWatcher) := do
  let watchers ← addWatchersFromEvents ids [] input.events
  if hasDuplicateEvent [] watchers then throw .duplicateEvent
  let preset := if input.preset = [] ∧ watchers = [] then "default".toList else input.preset
  let watchers ← if preset = [] then pure watchers
    else addPreset ids preset input.pidOrGlobalMode input.defaultStackSampleSize watchers
  -- without a perf watcher a dummy one is needed to grab mmap events
  let watchers := if watchers.all (fun w => !w.type.isPerf) then watchers ++ [ewatcher .sDUM]
    else watchers
  return orderWatchers watchers

end Ddprof
