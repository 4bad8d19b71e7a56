import Ddprof.Dso.Lookup
import Ddprof.Symbols.StackLocations
import Ddprof.Unwind.Lookups
import Ddprof.Unwind.Processes

/-!
The frames of a sample.

The unwinding library calls back for each frame, until the callback aborts. A frame is kept without
a symbol if its file is known, and gets a symbol that tells why it has no file otherwise. After the
frames comes the base frame, which is the binary of the process. The callback aborts early enough
that there is always room for it.

What the library and the lookups of regions and files answer is part of the sample, and not
restricted.
-/

namespace Ddprof

/-! ### The output -/

/-- The symbols and mappings of the frames, which outlive a sample. -/
structure FrameTables where
  commonSymbolLookup : UnorderedMap SymbolErrors ℤ := ∅
  dsoSymbolLookup : DsoSymbolLookup := {}
  baseFrameSymbolLookup : BaseFrameSymbolLookup := {}
  runtimeSymbolLookup : RuntimeSymbolLookup := {}
  symbolTable : SymbolTable := []
  /-- There is one case of common mappings only, the empty one. -/
  commonMapinfoLookup : Option ℕ := none
  mapinfoLookup : MapInfoLookup := {}
  mapinfoTable : MapInfoTable := []

structure Unwinding where
  tables : FrameTables
  pid : ℤ
  currentIp : ℕ
  locs : List FunLoc := []

def kMapinfoIdxNull : ℤ := -1

namespace FrameTables

def getEmptyMapinfo (tables : FrameTables) : FrameTables × ℤ :=
  match tables.commonMapinfoLookup with
  | some mapIdx => (tables, mapIdx)
  | none =>
    ({ tables with
        commonMapinfoLookup := some tables.mapinfoTable.length
        mapinfoTable := tables.mapinfoTable ++ [{}] },
      tables.mapinfoTable.length)

def clear (tables : FrameTables) (pid : ℤ) : FrameTables :=
  { tables with
    baseFrameSymbolLookup := tables.baseFrameSymbolLookup.erase pid
    mapinfoLookup := tables.mapinfoLookup.erase pid
    runtimeSymbolLookup := tables.runtimeSymbolLookup.erase pid }

def cycle (tables : FrameTables) : FrameTables :=
  { tables with runtimeSymbolLookup := tables.runtimeSymbolLookup.cycle }

end FrameTables

namespace Unwinding

def isMaxStackDepthReached (us : Unwinding) : Bool := kMaxStackDepth ≤ us.locs.length + 2

def addFrame (us : Unwinding) (symbolIdx fileInfoId mapIdx : ℤ) (pc elfAddr : ℕ) :
    Unwinding × Severity :=
  if kMaxStackDepth ≤ us.locs.length then (us, .warn)
  else
    let (tables, mapIdx) :=
      if mapIdx = kMapinfoIdxNull then us.tables.getEmptyMapinfo else (us.tables, mapIdx)
    ({ us with
        tables := tables
        locs := us.locs ++ [{
          ip := pc, elfAddr := elfAddr, fileInfoId := fileInfoId, symbolIdx := symbolIdx,
          mapInfoIdx := mapIdx }] },
      .ok)

def addFrameWithoutMapping (us : Unwinding) (symbolIdx : ℤ) : Unwinding :=
  (us.addFrame symbolIdx kFileInfoUndef kMapinfoIdxNull 0 0).1

def addCommonFrame (us : Unwinding) (lookupCase : SymbolErrors) : Unwinding :=
  let (map, symbolTable, symbolIdx) := getOrPush us.tables.commonSymbolLookup lookupCase
    (symbolFromCommon lookupCase) us.tables.symbolTable
  addFrameWithoutMapping { us with
    tables := { us.tables with commonSymbolLookup := map, symbolTable := symbolTable } } symbolIdx

def addDsoFrame (us : Unwinding) (dso : Dso) (normalizedAddr : ℕ) : Unwinding :=
  let (lookup, symbolTable, symbolIdx) := us.tables.dsoSymbolLookup.getOrInsert normalizedAddr dso
    us.tables.symbolTable "pc".toList
  addFrameWithoutMapping { us with
    tables := { us.tables with dsoSymbolLookup := lookup, symbolTable := symbolTable } } symbolIdx

def addVirtualBaseFrame (us : Unwinding) (info : BinaryInfo) : Unwinding :=
  let (lookup, symbolTable, dsoLookup, symbolIdx) :=
    us.tables.baseFrameSymbolLookup.getOrInsert us.pid us.tables.symbolTable
      us.tables.dsoSymbolLookup info
  addFrameWithoutMapping { us with
    tables := { us.tables with
      baseFrameSymbolLookup := lookup
      symbolTable := symbolTable
      dsoSymbolLookup := dsoLookup } } symbolIdx

/-- The address of an error frame is not used. -/
def addErrorFrame (us : Unwinding) (dso : Option Dso) (errorCase : SymbolErrors) : Unwinding :=
  match dso with
  | some dso => us.addDsoFrame dso 0
  | none => us.addCommonFrame errorCase

end Unwinding

/-! ### What a frame finds -/

structure DDProfMod where
  symBias : ℕ
  buildId : List Char
  deriving DecidableEq, Repr

/-- What an attempt to find the module of a frame meets: the region, the id of its file, the module
that is known or else registered, and whether a backpopulation adds regions. -/
structure Attempt where
  dso : Option Dso := none
  jitdumpPath : List Char := []
  fileInfoId : ℤ := kFileInfoError
  knownMod : Option DDProfMod := none
  registeredMod : Option DDProfMod := none
  backpopulated : Bool := false

/-- A frame as the library delivers it: an error that is pending, the pc without and with the
information on its module, and what the lookups answer. -/
structure DwflFrame where
  errno : Bool := false
  pc : Option ℕ
  first : Attempt := {}
  second : Attempt := {}
  activation : Option (ℕ × Bool) := none
  perfmap : Option (List (List Char)) := none
  inRoot : JitdumpRead
  atPath : JitdumpRead

inductive Located
  | unknownMapping
  | runtime (dso : Dso) (jitdumpPath : List Char)
  | noFile (dso : Dso)
  | module (dso : Dso) (ddprofMod : DDProfMod) (fileInfoId : ℤ)
  | unregistered

def Dso.hasRuntimeSymbols (dso : Dso) : Bool :=
  (dso.type = .runtime || dso.type = .anon) && dso.isExecutable

def Attempt.locate (attempt : Attempt) : Located :=
  match attempt.dso with
  | none => .unknownMapping
  | some dso =>
    if dso.hasRuntimeSymbols then .runtime dso attempt.jitdumpPath
    else if attempt.fileInfoId ≤ kFileInfoError then .noFile dso
    else
      match attempt.knownMod.or attempt.registeredMod with
      | some ddprofMod => .module dso ddprofMod attempt.fileInfoId
      | none => .unregistered

/-- The loop of two attempts: the second is made after a backpopulation that has added regions. -/
def DwflFrame.locate (frame : DwflFrame) : Located :=
  match frame.first.locate with
  | .unregistered => if frame.first.backpopulated then frame.second.locate else .unregistered
  | located => located

namespace Unwinding

def addUnsymbolizedFrame (us : Unwinding) (dso : Dso) (pc : ℕ) (ddprofMod : DDProfMod)
    (fileInfoId : ℤ) : Unwinding × Severity :=
  let (lookup, mapinfoTable, mapIdx) := us.tables.mapinfoLookup.getOrInsert us.pid
    us.tables.mapinfoTable dso (some ddprofMod.buildId)
  addFrame { us with
    tables := { us.tables with mapinfoLookup := lookup, mapinfoTable := mapinfoTable } }
    kSymbolIdxNull fileInfoId mapIdx pc ((pc + addrSpace - ddprofMod.symBias) % addrSpace)

def runtimeSymbol (us : Unwinding) (dso : Dso) (pc : ℕ) (jitdumpPath : List Char)
    (frame : DwflFrame) : RuntimeSymbolLookup × SymbolTable × ℤ :=
  if jitdumpPath = [] then
    us.tables.runtimeSymbolLookup.getOrInsert dso.pid pc us.tables.symbolTable frame.perfmap
  else
    us.tables.runtimeSymbolLookup.getOrInsertJitdump dso.pid pc us.tables.symbolTable jitdumpPath
      frame.inRoot frame.atPath

def addRuntimeSymbolFrame (us : Unwinding) (dso : Dso) (pc : ℕ) (jitdumpPath : List Char)
    (frame : DwflFrame) : Unwinding × Severity :=
  let (lookup, symbolTable, symbolIdx) := us.runtimeSymbol dso pc jitdumpPath frame
  let us := { us with
    tables := { us.tables with runtimeSymbolLookup := lookup, symbolTable := symbolTable } }
  if symbolIdx = kSymbolIdxNull then (us.addDsoFrame dso pc, .ok)
  else
    let (lookup, mapinfoTable, mapIdx) := us.tables.mapinfoLookup.getOrInsert us.pid
      us.tables.mapinfoTable dso none
    addFrame { us with
      tables := { us.tables with mapinfoLookup := lookup, mapinfoTable := mapinfoTable } }
      symbolIdx kFileInfoUndef mapIdx pc (dso.fileOffset pc)

/-- The part of `add_symbol` after the pc is known. -/
def addLocated (us : Unwinding) (frame : DwflFrame) (pc : ℕ) : Located → Unwinding × Severity
  | .unknownMapping => (us.addErrorFrame none .unknownMapping, .ok)
  | .runtime dso jitdumpPath => us.addRuntimeSymbolFrame dso pc jitdumpPath frame
  | .noFile dso => (us.addDsoFrame dso pc, .ok)
  | .unregistered => (us, .warn)
  | .module dso ddprofMod fileInfoId =>
    match frame.activation with
    | none => (us.addErrorFrame none .unwindFailure, .ok)
    | some (pc, isActivation) =>
      let pc := if isActivation then pc else (pc + addrSpace - 1) % addrSpace
      addUnsymbolizedFrame { us with currentIp := pc } dso pc ddprofMod fileInfoId

def addSymbol (us : Unwinding) (frame : DwflFrame) : Unwinding × Severity :=
  if us.isMaxStackDepthReached then (us.addCommonFrame .truncatedStack, .warn)
  else
    match frame.pc with
    | none => (us.addErrorFrame none .unwindFailure, .ok)
    | some pc =>
      let us := { us with currentIp := pc }
      -- unwinding can end on a null address
      if pc = 0 then (us, .ok) else us.addLocated frame pc frame.locate

def isInfiniteLoop (us : Unwinding) : Bool :=
  match us.locs.reverse with
  | a :: b :: c :: _ :: _ => a.ip = b.ip && b.ip = c.ip
  | _ => false

/-- The second component says whether the callback aborts. -/
def frameCb (us : Unwinding) (frame : DwflFrame) : Unwinding × Bool :=
  if frame.errno ∧ us.isInfiniteLoop then (us, true)
  else ((us.addSymbol frame).1, (us.addSymbol frame).2 ≠ .ok)

/-- `dwfl_getthread_frames`, which stops when the callback aborts. -/
def getthreadFrames : List DwflFrame → Unwinding → Unwinding
  | [], us => us
  | frame :: frames, us =>
    if (us.frameCb frame).2 then (us.frameCb frame).1
    else getthreadFrames frames (us.frameCb frame).1

end Unwinding

/-! ### Samples -/

/-- A sample with what the library and the lookups answer to it. -/
structure UnwindSample where
  pid : Pid
  ip : ℕ
  answer : DwflAnswer
  frames : List DwflFrame := []
  closestDso : Option Dso := none
  binary : BinaryInfo := {}

structure Unwinder where
  maximumPids : ℤ
  processHdr : ProcessHdr := {}
  tables : FrameTables := {}

namespace Unwinder

/-- `unwind_init_sample`, as far as the frames go. -/
def initSample (unwinder : Unwinder) (sample : UnwindSample) : Unwinding where
  tables := unwinder.tables
  pid := sample.pid
  currentIp := sample.ip

/-- The frames of a sample, by what `unwind_init_dwfl` has returned, and the result. -/
def unwindDwfl (us : Unwinding) (sample : UnwindSample) (res : UnwindRes) : Unwinding × UnwindRes :=
  if sample.pid.1 = 0 then (us, .ok)
  else if res ≠ .ok then (us, res)
  else
    let us := us.getthreadFrames sample.frames
    (us, if us.locs = [] then .dwflLibError else .ok)

def addUnwindError (us : Unwinding) (sample : UnwindSample) : UnwindRes → Unwinding
  | .ok => us
  | .maxPids => us.addCommonFrame .maxPids
  | .dwflLibError => us.addErrorFrame sample.closestDso .unknownMapping

def unwindstateUnwind (unwinder : Unwinder) (sample : UnwindSample) : Unwinder × Unwinding :=
  let (processHdr, res) :=
    unwinder.processHdr.unwindInit unwinder.maximumPids sample.pid sample.answer
  let (us, res) := unwindDwfl (unwinder.initSample sample) sample res
  let us := (addUnwindError us sample res).addVirtualBaseFrame sample.binary
  ({ unwinder with processHdr := processHdr, tables := us.tables }, us)

/-- `report_lost_events` builds an output of its own. -/
def reportLost (unwinder : Unwinder) (pid : ℤ) : Unwinder :=
  { unwinder with
    tables := (Unwinding.addCommonFrame ⟨unwinder.tables, pid, 0, []⟩ .lostEvent).tables }

end Unwinder

inductive UnwinderOp
  | sample (sample : UnwindSample)
  | pidFree (pid : Pid)
  | flagVisited (pid : Pid)
  | reportLost (pid : Pid)
  /-- The pids that a cycle clears are freed as by `pidFree`. -/
  | cycle

namespace Unwinder

def step (unwinder : Unwinder) : UnwinderOp → Unwinder
  | .sample sample => (unwinder.unwindstateUnwind sample).1
  | .pidFree pid => { unwinder with
      processHdr := unwinder.processHdr.clear pid
      tables := unwinder.tables.clear pid }
  | .flagVisited pid => { unwinder with processHdr := unwinder.processHdr.flagVisited pid }
  | .reportLost pid => unwinder.reportLost pid
  | .cycle => { unwinder with
      processHdr := unwinder.processHdr.resetUnvisited
      tables := unwinder.tables.cycle }

def run (maximumPids : ℤ) (ops : List UnwinderOp) : Unwinder :=
  ops.foldl step { maximumPids := maximumPids }

end Unwinder

/-! ### What a step adds -/

namespace FrameTables

structure Valid (tables : FrameTables) : Prop where
  common : HasSymbols tables.commonSymbolLookup
  dso : tables.dsoSymbolLookup.Valid
  base : tables.baseFrameSymbolLookup.Valid

theorem valid_empty : Valid {} where
  common := UnorderedMap.all_empty
  dso := ⟨UnorderedMap.all_empty, UnorderedMap.all_empty⟩
  base := ⟨UnorderedMap.all_empty, UnorderedMap.all_empty⟩

def SameLookups (tables tables' : FrameTables) : Prop :=
  tables'.commonSymbolLookup = tables.commonSymbolLookup ∧
    tables'.dsoSymbolLookup = tables.dsoSymbolLookup ∧
    tables'.baseFrameSymbolLookup = tables.baseFrameSymbolLookup

theorem Valid.of_same {tables tables' : FrameTables} (h : tables.Valid)
    (hsame : SameLookups tables tables') : tables'.Valid := by
  obtain ⟨hcommon, hdso, hbase⟩ := hsame
  exact ⟨hcommon ▸ h.common, hdso ▸ h.dso, hbase ▸ h.base⟩

theorem sameLookups_getEmptyMapinfo (tables : FrameTables) :
    SameLookups tables tables.getEmptyMapinfo.1 := by
  rw [getEmptyMapinfo]
  cases tables.commonMapinfoLookup with
  | some mapIdx => exact ⟨rfl, rfl, rfl⟩
  | none => exact ⟨rfl, rfl, rfl⟩

end FrameTables

/-- A frame has a symbol, or a file to find one in. -/
def FunLoc.IsExportable (loc : FunLoc) : Prop :=
  loc.symbolIdx = kSymbolIdxNull → kFileInfoError < loc.fileInfoId

theorem ne_symbolIdxNull {symbolIdx : ℤ} (h : 0 ≤ symbolIdx) : symbolIdx ≠ kSymbolIdxNull := by
  rw [kSymbolIdxNull]
  omega

namespace Unwinding

structure Valid (us : Unwinding) : Prop where
  tables : us.tables.Valid
  locs : ∀ loc ∈ us.locs, loc.IsExportable

structure Adds (us us' : Unwinding) : Prop where
  valid : us'.Valid
  pid : us'.pid = us.pid
  length : us'.locs.length ≤ us.locs.length + 1

variable {us us' : Unwinding}

theorem Valid.adds (h : us.Valid) : us.Adds us := ⟨h, rfl, Nat.le_succ _⟩

variable {tables : FrameTables}

theorem Adds.of_tables {currentIp : ℕ}
    (h : Adds { us with tables := tables, currentIp := currentIp } us') : us.Adds us' :=
  ⟨h.valid, h.pid, h.length⟩

theorem Valid.withTables (h : us.Valid) (ht : tables.Valid) :
    Valid { us with tables := tables } :=
  ⟨ht, h.locs⟩

theorem Valid.append (h : us.Valid) (ht : tables.Valid) {loc : FunLoc} (hloc : loc.IsExportable) :
    us.Adds { us with tables := tables, locs := us.locs ++ [loc] } := by
  refine ⟨⟨ht, fun loc' hmem => ?_⟩, rfl, (List.length_append ..).le⟩
  rcases List.mem_append.mp hmem with hmem | hmem
  · exact h.locs loc' hmem
  · rw [List.mem_singleton.mp hmem]
    exact hloc

theorem addFrame_adds (h : us.Valid) {symbolIdx fileInfoId : ℤ}
    (hloc : symbolIdx = kSymbolIdxNull → kFileInfoError < fileInfoId) (mapIdx : ℤ)
    (pc elfAddr : ℕ) : us.Adds (us.addFrame symbolIdx fileInfoId mapIdx pc elfAddr).1 := by
  rw [addFrame]
  split_ifs with hfull hmap
  · exact h.adds
  · exact h.append (h.tables.of_same us.tables.sameLookups_getEmptyMapinfo) hloc
  · exact h.append h.tables hloc

theorem addFrameWithoutMapping_adds (h : us.Valid) {symbolIdx : ℤ} (hidx : 0 ≤ symbolIdx) :
    us.Adds (us.addFrameWithoutMapping symbolIdx) :=
  addFrame_adds h (fun hnull => absurd hnull (ne_symbolIdxNull hidx)) _ _ _

theorem addCommonFrame_adds (h : us.Valid) (lookupCase : SymbolErrors) :
    us.Adds (us.addCommonFrame lookupCase) := by
  obtain ⟨hmap, hidx⟩ := getOrPush_spec h.tables.common lookupCase (symbolFromCommon lookupCase)
    us.tables.symbolTable
  rw [addCommonFrame]
  refine (addFrameWithoutMapping_adds ?_ hidx).of_tables
  exact h.withTables ⟨hmap, h.tables.dso, h.tables.base⟩

theorem addDsoFrame_adds (h : us.Valid) (dso : Dso) (normalizedAddr : ℕ) :
    us.Adds (us.addDsoFrame dso normalizedAddr) := by
  obtain ⟨hlookup, hidx⟩ := h.tables.dso.getOrInsert normalizedAddr dso us.tables.symbolTable
    "pc".toList
  rw [addDsoFrame]
  refine (addFrameWithoutMapping_adds ?_ hidx).of_tables
  exact h.withTables ⟨h.tables.common, hlookup, h.tables.base⟩

theorem addErrorFrame_adds (h : us.Valid) (dso : Option Dso) (errorCase : SymbolErrors) :
    us.Adds (us.addErrorFrame dso errorCase) := by
  cases dso with
  | none => exact addCommonFrame_adds h errorCase
  | some dso => exact addDsoFrame_adds h dso 0

variable {fileInfoId : ℤ}

theorem addUnsymbolizedFrame_adds (h : us.Valid) (dso : Dso) (pc : ℕ) (ddprofMod : DDProfMod)
    (hid : kFileInfoError < fileInfoId) :
    us.Adds (us.addUnsymbolizedFrame dso pc ddprofMod fileInfoId).1 := by
  rw [addUnsymbolizedFrame]
  refine (addFrame_adds ?_ (fun _ => hid) _ _ _).of_tables
  exact h.withTables (h.tables.of_same ⟨rfl, rfl, rfl⟩)

theorem addRuntimeSymbolFrame_adds (h : us.Valid) (dso : Dso) (pc : ℕ) (jitdumpPath : List Char)
    (frame : DwflFrame) : us.Adds (us.addRuntimeSymbolFrame dso pc jitdumpPath frame).1 := by
  rw [addRuntimeSymbolFrame]
  simp only
  split_ifs with hnull
  · refine (addDsoFrame_adds ?_ dso pc).of_tables
    exact h.withTables (h.tables.of_same ⟨rfl, rfl, rfl⟩)
  · refine (addFrame_adds ?_ (fun heq => absurd heq hnull) _ _ _).of_tables
    exact h.withTables (h.tables.of_same ⟨rfl, rfl, rfl⟩)

/-- A module is only found for a file that is known. -/
theorem fileInfoId_of_attempt {attempt : Attempt} {dso : Dso} {ddprofMod : DDProfMod}
    (h : attempt.locate = .module dso ddprofMod fileInfoId) :
    kFileInfoError < fileInfoId := by
  rw [Attempt.locate] at h
  split at h
  · cases h
  · split_ifs at h with hruntime hfile
    split at h
    · cases h
      exact Int.not_le.mp hfile
    · cases h

theorem fileInfoId_of_locate {frame : DwflFrame} {dso : Dso} {ddprofMod : DDProfMod}
    (h : frame.locate = .module dso ddprofMod fileInfoId) :
    kFileInfoError < fileInfoId := by
  rw [DwflFrame.locate] at h
  split at h
  · split_ifs at h
    exact fileInfoId_of_attempt h
  · exact fileInfoId_of_attempt h

theorem addLocated_adds (h : us.Valid) (frame : DwflFrame) (pc : ℕ) :
    us.Adds (us.addLocated frame pc frame.locate).1 := by
  cases hlocated : frame.locate with
  | unknownMapping => exact addErrorFrame_adds h none .unknownMapping
  | runtime dso jitdumpPath => exact addRuntimeSymbolFrame_adds h dso pc jitdumpPath frame
  | noFile dso => exact addDsoFrame_adds h dso pc
  | unregistered => exact h.adds
  | module dso ddprofMod fileInfoId =>
    have hid := fileInfoId_of_locate hlocated
    rw [addLocated]
    cases frame.activation with
    | none => exact addErrorFrame_adds h none .unwindFailure
    | some activation =>
      refine (addUnsymbolizedFrame_adds ?_ dso _ ddprofMod hid).of_tables
      exact ⟨h.tables, h.locs⟩

theorem addSymbol_adds (h : us.Valid) (frame : DwflFrame) : us.Adds (us.addSymbol frame).1 := by
  rw [addSymbol]
  split_ifs with hmax
  · exact addCommonFrame_adds h .truncatedStack
  · cases frame.pc with
    | none => exact addErrorFrame_adds h none .unwindFailure
    | some pc =>
      have hvalid : Valid { us with currentIp := pc } := ⟨h.tables, h.locs⟩
      simp only
      split_ifs with hzero
      · exact hvalid.adds.of_tables
      · exact (addLocated_adds hvalid frame pc).of_tables

theorem frameCb_adds (h : us.Valid) (frame : DwflFrame) : us.Adds (us.frameCb frame).1 := by
  rw [frameCb]
  split_ifs with hloop
  · exact h.adds
  · exact addSymbol_adds h frame

/-- The callback aborts when only two places are left. -/
theorem frameCb_of_full {frame : DwflFrame} (h : (us.frameCb frame).2 = false) :
    us.locs.length + 2 < kMaxStackDepth := by
  rw [frameCb] at h
  split_ifs at h
  by_contra hfull
  have hmax : us.isMaxStackDepthReached = true := by
    rw [isMaxStackDepthReached, decide_eq_true_eq]
    omega
  rw [addSymbol, if_pos hmax] at h
  simp at h

/-- Whatever the frames are, one place is left at the end. -/
theorem getthreadFrames_spec (frames : List DwflFrame) (h : us.Valid)
    (hroom : us.locs.length + 2 ≤ kMaxStackDepth) :
    (us.getthreadFrames frames).Valid ∧ (us.getthreadFrames frames).pid = us.pid ∧
      (us.getthreadFrames frames).locs.length < kMaxStackDepth := by
  induction frames generalizing us with
  | nil => exact ⟨h, rfl, by rw [getthreadFrames]; omega⟩
  | cons frame frames ih =>
    have hadds := frameCb_adds h frame
    have hlength := hadds.length
    rw [getthreadFrames]
    split_ifs with habort
    · exact ⟨hadds.valid, hadds.pid, by omega⟩
    · have hfull := frameCb_of_full (by simpa using habort)
      obtain ⟨hvalid, hpid, hlt⟩ := ih hadds.valid (by omega)
      exact ⟨hvalid, hpid.trans hadds.pid, hlt⟩

theorem locs_addFrame (hroom : us.locs.length < kMaxStackDepth)
    (symbolIdx fileInfoId mapIdx : ℤ) (pc elfAddr : ℕ) :
    ∃ mapIdx', (us.addFrame symbolIdx fileInfoId mapIdx pc elfAddr).1.locs =
      us.locs ++ [⟨pc, elfAddr, fileInfoId, symbolIdx, mapIdx'⟩] := by
  rw [addFrame, if_neg (by omega)]
  exact ⟨_, rfl⟩

theorem baseFrameSymbolLookup_addFrame (us : Unwinding) (symbolIdx fileInfoId mapIdx : ℤ)
    (pc elfAddr : ℕ) :
    (us.addFrame symbolIdx fileInfoId mapIdx pc elfAddr).1.tables.baseFrameSymbolLookup =
      us.tables.baseFrameSymbolLookup := by
  rw [addFrame]
  split_ifs with hfull hmap
  · rfl
  · exact us.tables.sameLookups_getEmptyMapinfo.2.2
  · rfl

/-- The frames of a sample: the last one is the base frame of the process and has a symbol, and
the others have a symbol or a file. -/
structure IsOutput (us : Unwinding) (pid : ℤ) : Prop where
  length_le : us.locs.length ≤ kMaxStackDepth
  base : ∃ frames base, us.locs = frames ++ [base] ∧
    us.tables.baseFrameSymbolLookup.symbolOf pid = some base.symbolIdx ∧
    base.symbolIdx ≠ kSymbolIdxNull ∧ ∀ loc ∈ frames, loc.IsExportable

theorem IsOutput.length_pos {pid : ℤ} (h : us.IsOutput pid) : 1 ≤ us.locs.length := by
  obtain ⟨frames, base, hlocs, -⟩ := h.base
  rw [hlocs, List.length_append]
  exact Nat.le_add_left 1 _

theorem addVirtualBaseFrame_spec (h : us.Valid) (hroom : us.locs.length < kMaxStackDepth)
    (info : BinaryInfo) :
    (us.addVirtualBaseFrame info).tables.Valid ∧
      (us.addVirtualBaseFrame info).IsOutput us.pid := by
  obtain ⟨hlookup, hdso, hidx, hsymbol⟩ := BaseFrameSymbolLookup.getOrInsert_spec
    h.tables.base h.tables.dso us.pid us.tables.symbolTable info
  rw [addVirtualBaseFrame]
  generalize us.tables.baseFrameSymbolLookup.getOrInsert us.pid us.tables.symbolTable
    us.tables.dsoSymbolLookup info = res at hlookup hdso hidx hsymbol
  obtain ⟨lookup, symbolTable, dsoLookup, symbolIdx⟩ := res
  simp only at hlookup hdso hidx hsymbol ⊢
  generalize hus : ({ us with
    tables := { us.tables with
      baseFrameSymbolLookup := lookup
      symbolTable := symbolTable
      dsoSymbolLookup := dsoLookup } } : Unwinding) = us'
  have hvalid : us'.Valid := hus ▸ ⟨⟨h.tables.common, hdso, hlookup⟩, h.locs⟩
  have hlocs : us'.locs = us.locs := hus ▸ rfl
  have hbase : us'.tables.baseFrameSymbolLookup = lookup := hus ▸ rfl
  have hadds := addFrameWithoutMapping_adds hvalid hidx
  obtain ⟨mapIdx, hframe⟩ := us'.locs_addFrame (hlocs ▸ hroom) symbolIdx kFileInfoUndef
    kMapinfoIdxNull 0 0
  rw [hlocs] at hframe
  refine ⟨hadds.valid.tables, ?_, us.locs, _, hframe, ?_, ne_symbolIdxNull hidx, h.locs⟩
  · have hlength := hadds.length
    rw [hlocs] at hlength
    omega
  · rw [addFrameWithoutMapping, baseFrameSymbolLookup_addFrame, hbase, hsymbol]

end Unwinding

/-! ### Whole histories -/

namespace Unwinder

open Unwinding (IsOutput)

variable {unwinder : Unwinder}

theorem unwindDwfl_spec {us : Unwinding} (h : us.Valid) (hempty : us.locs = [])
    (sample : UnwindSample) (res : UnwindRes) :
    (unwindDwfl us sample res).1.Valid ∧ (unwindDwfl us sample res).1.pid = us.pid ∧
      (unwindDwfl us sample res).1.locs.length < kMaxStackDepth ∧
      ((unwindDwfl us sample res).2 ≠ .ok → (unwindDwfl us sample res).1.locs = []) := by
  have hzero : us.locs.length = 0 := by rw [hempty, List.length_nil]
  have hroom : us.locs.length + 2 ≤ kMaxStackDepth := by
    rw [hzero]
    decide
  have hlt : us.locs.length < kMaxStackDepth := by omega
  rw [unwindDwfl]
  split_ifs with hpid hres
  · exact ⟨h, rfl, hlt, fun hne => absurd rfl hne⟩
  · exact ⟨h, rfl, hlt, fun _ => hempty⟩
  · obtain ⟨hvalid, hsame, hlt'⟩ := Unwinding.getthreadFrames_spec sample.frames h hroom
    refine ⟨hvalid, hsame, hlt', fun hne => ?_⟩
    by_contra hlocs
    exact hne (if_neg hlocs)

theorem addUnwindError_spec {us : Unwinding} (h : us.Valid)
    (hlt : us.locs.length < kMaxStackDepth) (sample : UnwindSample) {res : UnwindRes}
    (hempty : res ≠ .ok → us.locs = []) :
    (addUnwindError us sample res).Valid ∧ (addUnwindError us sample res).pid = us.pid ∧
      (addUnwindError us sample res).locs.length < kMaxStackDepth := by
  have hadds (hne : res ≠ .ok) {us' : Unwinding} (hadds : us.Adds us') :
      us'.Valid ∧ us'.pid = us.pid ∧ us'.locs.length < kMaxStackDepth := by
    have hlength := hadds.length
    rw [hempty hne, List.length_nil] at hlength
    exact ⟨hadds.valid, hadds.pid, hlength.trans_lt (by decide)⟩
  cases res with
  | ok => exact ⟨h, rfl, hlt⟩
  | maxPids => exact hadds (by decide) (Unwinding.addCommonFrame_adds h .maxPids)
  | dwflLibError =>
    exact hadds (by decide) (Unwinding.addErrorFrame_adds h sample.closestDso .unknownMapping)

theorem unwindstateUnwind_spec (h : unwinder.tables.Valid) (sample : UnwindSample) :
    (unwinder.unwindstateUnwind sample).1.tables.Valid ∧
      (unwinder.unwindstateUnwind sample).2.IsOutput sample.pid := by
  have hinit : (unwinder.initSample sample).Valid := ⟨h, fun loc hmem => by cases hmem⟩
  rw [unwindstateUnwind]
  generalize unwinder.processHdr.unwindInit unwinder.maximumPids sample.pid sample.answer = init
  obtain ⟨hvalid, hpid, hlt, hempty⟩ := unwindDwfl_spec hinit rfl sample init.2
  obtain ⟨hvalid', hpid', hlt'⟩ := addUnwindError_spec hvalid hlt sample hempty
  obtain ⟨htables, hout⟩ := Unwinding.addVirtualBaseFrame_spec hvalid' hlt' sample.binary
  rw [hpid', hpid] at hout
  exact ⟨htables, hout⟩

theorem valid_step (h : unwinder.tables.Valid) (op : UnwinderOp) :
    (unwinder.step op).tables.Valid := by
  cases op with
  | sample sample => exact (unwindstateUnwind_spec h sample).1
  | pidFree pid => exact ⟨h.common, h.dso, h.base.erase pid⟩
  | flagVisited pid => exact h
  | reportLost pid =>
    have hvalid : Unwinding.Valid ⟨unwinder.tables, pid, 0, []⟩ :=
      ⟨h, fun loc hmem => by cases hmem⟩
    exact (Unwinding.addCommonFrame_adds hvalid .lostEvent).valid.tables
  | cycle => exact h.of_same ⟨rfl, rfl, rfl⟩

theorem valid_run (maximumPids : ℤ) (ops : List UnwinderOp) :
    (run maximumPids ops).tables.Valid := by
  have hfold : ∀ unwinder : Unwinder, unwinder.tables.Valid →
      (ops.foldl step unwinder).tables.Valid := by
    induction ops with
    | nil => exact fun _ h => h
    | cons op rest ih => exact fun _ h => ih _ (valid_step h op)
  exact hfold _ FrameTables.valid_empty

/-- After any history, the output of a sample has between 1 and `kMaxStackDepth` frames, of which
the last is the base frame of the process, and the others have a symbol or a file. -/
theorem isOutput_unwindstateUnwind (maximumPids : ℤ) (ops : List UnwinderOp)
    (sample : UnwindSample) :
    let us := ((run maximumPids ops).unwindstateUnwind sample).2
    1 ≤ us.locs.length ∧ us.IsOutput sample.pid := by
  have hout := (unwindstateUnwind_spec (valid_run maximumPids ops) sample).2
  exact ⟨hout.length_pos, hout⟩

/-- After any history, the frames of a sample can be symbolized: whatever the symbolizer library
answers, no frame is read out of bounds, and no error is returned. -/
theorem processSymbolization_unwound (maximumPids : ℤ) (ops : List UnwinderOp)
    (sample : UnwindSample) (env : SymbolEnv) (symbolizer : Symbolizer) (locations : Locations) :
    ∃ symbolizer' locations', processSymbolization env symbolizer
      ((run maximumPids ops).unwindstateUnwind sample).2.locs locations =
        some (symbolizer', locations', .ok) := by
  have hout := (unwindstateUnwind_spec (valid_run maximumPids ops) sample).2
  obtain ⟨frames, base, hlocs, -⟩ := hout.base
  rw [hlocs, processSymbolization_eq List.getLast?_concat]
  exact ⟨_, _, rfl⟩

end Unwinder

end Ddprof
