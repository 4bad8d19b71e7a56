import Ddprof.LiveAllocation.Basic
import Ddprof.Symbols.MapInfo

/-!
From the frames of a stack to the locations of a sample (`process_symbolization`).

Consecutive frames of one file are symbolized together. What comes back may have more locations
than there are frames, since a symbol stands for the functions inlined at the address as well.
There is room for `kMaxStackDepth` locations. The room is checked before a group of frames and
for each location of a symbol, but not for a frame without a symbol inside a group.

The locations are written through `&locations[write_index++]`, so the model logs the index of
each write, and lets it run past the end of the array.
-/

namespace Ddprof

def kMaxStackDepth : ℕ := 512

abbrev FileInfoId := ℤ

def kSymbolIdxNull : ℤ := -1

structure Symbol where
  demangledName : List Char := []
  lineno : ℕ := 0
  srcpath : List Char := []
  deriving DecidableEq, Repr

/-- `ddog_prof_Location`. The system name of a function is never given. -/
structure Location where
  mapping : MapInfo := {}
  functionName : List Char := []
  filename : List Char := []
  address : ℕ := 0
  line : ℕ := 0
  deriving DecidableEq, Repr

/-! ### What the symbolizer library returns -/

structure CodeInfo where
  file : Option (List Char) := none
  line : ℕ := 0

structure InlinedFn where
  name : Option (List Char) := none
  codeInfo : CodeInfo := {}

structure BlazeSym where
  name : Option (List Char) := none
  addr : ℕ
  codeInfo : CodeInfo := {}
  inlinedCnt : ℕ := 0
  inlined : ℕ → InlinedFn := fun _ => {}

/-- The rounds of `for (int i = inlined_cnt - 1; i >= 0; --i)`. -/
def BlazeSym.inlinedRounds (sym : BlazeSym) : ℕ :=
  (Int.bmod ((sym.inlinedCnt : ℤ) - 1) (2 ^ 32) + 1).toNat

/-! ### Writing locations -/

/-- The array of locations, the write index, and the indices written so far. -/
structure Locations where
  buff : ℕ → Location
  writeIndex : ℕ := 0
  writes : List ℕ := []

/-- A write to `&locations[write_index++]`. -/
def Locations.push (locations : Locations) (write : Location → Location) : Locations where
  buff := Function.update locations.buff locations.writeIndex
    (write (locations.buff locations.writeIndex))
  writeIndex := locations.writeIndex + 1
  writes := locations.writeIndex :: locations.writes

/-- `write_location` of a frame that is symbolized. -/
def writeLocation (loc : FunLoc) (mapinfo : MapInfo) (symbol : Symbol) (_ : Location) :
    Location where
  mapping := mapinfo
  functionName := symbol.demangledName
  filename := symbol.srcpath
  address := loc.elfAddr
  line := symbol.lineno

/-- `write_location` from names. -/
def writeLocationNames (addr : ℕ) (demangledName fileName : List Char) (lineno : ℕ)
    (mapinfo : MapInfo) (_ : Location) : Location where
  mapping := mapinfo
  functionName := demangledName
  filename := fileName
  address := addr
  line := lineno

/-- The line stays what it was. -/
def writeLocationNoSym (ip : ℕ) (mapinfo : MapInfo) (location : Location) : Location :=
  { location with
    mapping := mapinfo
    functionName := []
    filename := mapinfo.sopath
    address := ip }

section Blaze

variable (demangle : List Char → List Char) (elfAddr : ℕ) (mapinfo : MapInfo)

/-- A function at the address. Its demangled name is cached, which does not change it. -/
def writeBlazeFunction (name : Option (List Char)) (codeInfo : CodeInfo) : Location → Location :=
  writeLocationNames elfAddr ((name.map demangle).getD []) (codeInfo.file.getD mapinfo.sopath)
    codeInfo.line mapinfo

/-- The inlined functions, the innermost one first. -/
def writeInlined (sym : BlazeSym) : ℕ → Locations → Locations
  | 0, locations => locations
  | i + 1, locations =>
    if locations.writeIndex < kMaxStackDepth then
      writeInlined sym i <| locations.push <|
        writeBlazeFunction demangle elfAddr mapinfo (sym.inlined i).name (sym.inlined i).codeInfo
    else locations

def writeLocationBlaze (sym : BlazeSym) (locations : Locations) : Locations × Severity :=
  if kMaxStackDepth ≤ locations.writeIndex then (locations, .warn)
  else
    let locations := writeInlined demangle elfAddr mapinfo sym sym.inlinedRounds locations
    if kMaxStackDepth ≤ locations.writeIndex then (locations, .warn)
    else
      (locations.push (writeBlazeFunction demangle elfAddr mapinfo sym.name sym.codeInfo), .ok)

end Blaze

/-- The loop over the symbols and the addresses. A warning of `write_location_blaze` is
swallowed. -/
def writeSymbols (demangle : List Char → List Char) (mapinfo : MapInfo) :
    List BlazeSym → List ℕ → Locations → Locations × Severity
  | sym :: syms, elfAddr :: elfAddrs, locations =>
    if sym.addr = 0 then
      writeSymbols demangle mapinfo syms elfAddrs
        (locations.push (writeLocationNoSym elfAddr mapinfo))
    else
      match writeLocationBlaze demangle elfAddr mapinfo sym locations with
      | (locations, .error) => (locations, .error)
      | (locations, _) => writeSymbols demangle mapinfo syms elfAddrs locations
  | _, _, locations => (locations, .ok)

/-- The loop in the case of no result. -/
def writeNoSymbols (mapinfo : MapInfo) : List ℕ → Locations → Locations
  | [], locations => locations
  | elfAddr :: elfAddrs, locations =>
    writeNoSymbols mapinfo elfAddrs (locations.push (writeLocationNoSym elfAddr mapinfo))

/-! ### The symbolizer -/

structure BlazeSymbolizerWrapper where
  elfSrc : List Char := []
  visited : Bool := true
  useDebug : Bool := false
  deriving DecidableEq, Repr, Inhabited

/-- `calls` counts the calls of the symbolizer library. -/
structure Symbolizer where
  symbolizerMap : UnorderedMap FileInfoId BlazeSymbolizerWrapper := ∅
  inlinedFunctions : Bool := false
  disableSymbolization : Bool := false
  calls : ℕ := 0

/-- The tables and the libraries. `blaze n` is the answer to call number `n` of the symbolizer
library, whatever the call is about. -/
structure SymbolEnv where
  mapinfo : ℤ → MapInfo := fun _ => {}
  symbol : ℤ → Symbol := fun _ => {}
  path : FileInfoId → List Char
  blaze : ℕ → Option (List BlazeSym)
  demangle : List Char → List Char := id

namespace Symbolizer

def getSymbolizer (symbolizer : Symbolizer) (fileId : FileInfoId) (elfSrc : List Char) :
    BlazeSymbolizerWrapper :=
  (AList.lookup fileId symbolizer.symbolizerMap).getD
    { elfSrc := elfSrc, useDebug := symbolizer.inlinedFunctions }

/-- The result that the locations of a group of frames are written from: a call that fails with
debug symbols is repeated without. -/
def blazeResult (env : SymbolEnv) (symbolizer : Symbolizer) (fileId : FileInfoId)
    (elfSrc : List Char) : Symbolizer × Option (List BlazeSym) :=
  if symbolizer.disableSymbolization then (symbolizer, none)
  else
    let wrapper := symbolizer.getSymbolizer fileId elfSrc
    let first := env.blaze symbolizer.calls
    if first.isNone ∧ wrapper.useDebug then
      ({ symbolizer with
          symbolizerMap := AList.insert fileId { wrapper with useDebug := false }
            symbolizer.symbolizerMap
          calls := symbolizer.calls + 2 },
        env.blaze (symbolizer.calls + 1))
    else
      ({ symbolizer with
          symbolizerMap := AList.insert fileId wrapper symbolizer.symbolizerMap
          calls := symbolizer.calls + 1 },
        first)

def symbolizePprof (env : SymbolEnv) (symbolizer : Symbolizer) (elfAddrs : List ℕ)
    (fileId : FileInfoId) (elfSrc : List Char) (mapInfo : MapInfo) (locations : Locations) :
    Symbolizer × Locations × Severity :=
  if elfAddrs = [] ∨ elfSrc = [] then (symbolizer, locations, .warn)
  else
    match symbolizer.blazeResult env fileId elfSrc with
    | (symbolizer, some syms) =>
      (symbolizer, writeSymbols env.demangle mapInfo syms elfAddrs locations)
    | (symbolizer, none) => (symbolizer, writeNoSymbols mapInfo elfAddrs locations, .ok)

end Symbolizer

/-! ### Stacks -/

/-- The frames that are symbolized together, and the others. -/
def collectFrames (fileId : FileInfoId) : List FunLoc → List FunLoc × List FunLoc
  | [] => ([], [])
  | loc :: rest =>
    if loc.fileInfoId = fileId then
      if rest.head?.any (fun next => next.symbolIdx ≠ kSymbolIdxNull) then ([loc], rest)
      else (loc :: (collectFrames fileId rest).1, (collectFrames fileId rest).2)
    else ([], loc :: rest)

theorem length_collectFrames_le (fileId : FileInfoId) (locs : List FunLoc) :
    (collectFrames fileId locs).2.length ≤ locs.length := by
  induction locs with
  | nil => exact le_rfl
  | cons loc rest ih =>
    unfold collectFrames
    split_ifs
    · exact Nat.le_succ _
    · exact ih.trans (Nat.le_succ _)
    · exact le_rfl

theorem length_collectFrames_lt (loc : FunLoc) (rest : List FunLoc) :
    (collectFrames loc.fileInfoId (loc :: rest)).2.length < (loc :: rest).length := by
  rw [collectFrames, if_pos rfl]
  split_ifs
  · exact Nat.lt_succ_self _
  · exact Nat.lt_succ_of_le (length_collectFrames_le _ rest)

/-- `s_expected_root_frames` -/
def expectedRootFrames : List (List Char) :=
  ["", "clone", "__clone", "__clone3", "_exit", "gnome-shell", "main", "runtime.goexit.abi0",
    "runtime.systemstack.abi0", "_start", "start_thread", "start_task"].map String.toList

def isLd (path : List Char) : Bool := "ld-".toList.isPrefixOf path

/-- `is_stack_complete`, of the locations written. -/
def isStackComplete (locations : Locations) : Bool :=
  match locations.writeIndex with
  | 0 => false
  | last + 1 =>
    let rootLoc := locations.buff last
    isLd rootLoc.mapping.sopath || expectedRootFrames.contains rootLoc.functionName

/-- The loop over the frames. The last frame is left to the end, unless it falls into a group. -/
def symbolizeFrames (env : SymbolEnv) (symbolizer : Symbolizer) (locs : List FunLoc)
    (locations : Locations) : Symbolizer × Locations × Severity :=
  match locs with
  | loc :: next :: rest =>
    if locations.writeIndex < kMaxStackDepth then
      if loc.symbolIdx ≠ kSymbolIdxNull then
        symbolizeFrames env symbolizer (next :: rest)
          (locations.push (writeLocation loc (env.mapinfo loc.mapInfoIdx)
            (env.symbol loc.symbolIdx)))
      else if loc.fileInfoId ≤ kFileInfoError then
        symbolizeFrames env symbolizer (next :: rest) locations
      else
        match symbolizer.symbolizePprof env
            ((collectFrames loc.fileInfoId (loc :: next :: rest)).1.map FunLoc.elfAddr)
            loc.fileInfoId (env.path loc.fileInfoId) (env.mapinfo loc.mapInfoIdx) locations with
        | (symbolizer, locations, .ok) =>
          symbolizeFrames env symbolizer
            (collectFrames loc.fileInfoId (loc :: next :: rest)).2 locations
        | (symbolizer, locations, res) => (symbolizer, locations, res)
    else (symbolizer, locations, .ok)
  | _ => (symbolizer, locations, .ok)
termination_by locs.length
decreasing_by
  · exact Nat.lt_succ_self _
  · exact Nat.lt_succ_self _
  · exact length_collectFrames_lt loc (next :: rest)

/-- `k_common_frame_names[incomplete_stack]` -/
def incompleteStack : List Char := "[incomplete]".toList

/-- The frame that marks a stack as incomplete. -/
def writeIncompleteFrame (locations : Locations) : Locations :=
  if locations.writeIndex < kMaxStackDepth - 1 ∧ 1 ≤ locations.writeIndex ∧
      isStackComplete locations = false then
    locations.push (writeLocationNames 0 incompleteStack [] 0 {})
  else locations

def writeBinaryFrame (env : SymbolEnv) (loc : FunLoc) (locations : Locations) : Locations :=
  if locations.writeIndex < kMaxStackDepth ∧ loc.symbolIdx ≠ kSymbolIdxNull then
    locations.push (writeLocation loc (env.mapinfo loc.mapInfoIdx) (env.symbol loc.symbolIdx))
  else locations

/-- `none` where the frames are read out of bounds: without any frame, `locs.size() - 1` wraps
around. A warning ends the loop only. -/
def processSymbolization (env : SymbolEnv) (symbolizer : Symbolizer) (locs : List FunLoc)
    (locations : Locations) : Option (Symbolizer × Locations × Severity) :=
  match locs.getLast? with
  | none =>
    if locations.writeIndex < kMaxStackDepth then none else some (symbolizer, locations, .ok)
  | some last =>
    match symbolizeFrames env symbolizer locs locations with
    | (symbolizer, locations, .error) => some (symbolizer, locations, .error)
    | (symbolizer, locations, _) =>
      some (symbolizer, writeBinaryFrame env last (writeIncompleteFrame locations), .ok)

/-! ### The room that the frames ask for -/

/-- What is written for a frame: a location without a check, or the locations of a symbol with
its inlined functions, as far as there is room. -/
inductive FrameSlot
  | bare
  | named (inlined : ℕ)
  deriving DecidableEq, Repr

def FrameSlot.width : FrameSlot → ℕ
  | bare => 1
  | named inlined => inlined + 1

def BlazeSym.slot (sym : BlazeSym) : FrameSlot :=
  if sym.addr = 0 then .bare else .named sym.inlinedRounds

def resultSlots (elfAddrs : List ℕ) : Option (List BlazeSym) → List FrameSlot
  | some syms => List.zipWith (fun sym _ => sym.slot) syms elfAddrs
  | none => elfAddrs.map fun _ => .bare

/-- The slots of the frames, group by group, whether there is room for them or not. -/
def frameSlots (env : SymbolEnv) (symbolizer : Symbolizer) (locs : List FunLoc) :
    List (List FrameSlot) :=
  match locs with
  | loc :: next :: rest =>
    if loc.symbolIdx ≠ kSymbolIdxNull then
      [.named 0] :: frameSlots env symbolizer (next :: rest)
    else if loc.fileInfoId ≤ kFileInfoError then
      frameSlots env symbolizer (next :: rest)
    else if env.path loc.fileInfoId = [] then []
    else
      let group := collectFrames loc.fileInfoId (loc :: next :: rest)
      let result := symbolizer.blazeResult env loc.fileInfoId (env.path loc.fileInfoId)
      resultSlots (group.1.map FunLoc.elfAddr) result.2 :: frameSlots env result.1 group.2
  | _ => []
termination_by locs.length
decreasing_by
  · exact Nat.lt_succ_self _
  · exact Nat.lt_succ_self _
  · exact length_collectFrames_lt loc (next :: rest)

/-- The slots before each slot that is written without a check leave room for it. -/
def GroupFits : ℕ → List FrameSlot → Prop
  | _, [] => True
  | w, .bare :: slots => w < kMaxStackDepth ∧ GroupFits (w + 1) slots
  | w, .named inlined :: slots => GroupFits (w + (inlined + 1)) slots

/-- A group that is reached with room left fits. -/
def Fits : ℕ → List (List FrameSlot) → Prop
  | _, [] => True
  | w, group :: groups =>
    w < kMaxStackDepth → GroupFits w group ∧ Fits (w + (group.map FrameSlot.width).sum) groups

namespace Locations

def InBounds (locations : Locations) : Prop := ∀ i ∈ locations.writes, i < kMaxStackDepth

/-- All is well so far, and the slots had a total width of `w`. -/
structure At (locations : Locations) (w : ℕ) : Prop where
  inBounds : locations.InBounds
  writeIndex : locations.writeIndex = min kMaxStackDepth w

variable {locations locations' : Locations} {w : ℕ}

theorem InBounds.of_suffix (h : locations'.InBounds)
    (hsuffix : locations.writes <:+ locations'.writes) : locations.InBounds :=
  fun i hi => h i (hsuffix.mem hi)

theorem suffix_push (locations : Locations) (write : Location → Location) :
    locations.writes <:+ (locations.push write).writes :=
  List.suffix_cons _ _

theorem At.push (h : locations.At w) (hw : w < kMaxStackDepth) (write : Location → Location) :
    (locations.push write).At (w + 1) := by
  have hindex : locations.writeIndex = w := h.writeIndex.trans (min_eq_right hw.le)
  refine ⟨fun i hi => ?_, ?_⟩
  · rcases List.mem_cons.mp hi with heq | hi
    · exact heq ▸ hindex ▸ hw
    · exact h.inBounds i hi
  · rw [Locations.push, hindex, min_eq_right (Nat.succ_le_of_lt hw)]

theorem At.push_of_full (h : locations.At w) (hw : kMaxStackDepth ≤ w)
    (write : Location → Location) : ¬ (locations.push write).InBounds := by
  intro hin
  have hlt : locations.writeIndex < kMaxStackDepth := hin _ List.mem_cons_self
  rw [h.writeIndex, min_eq_left hw] at hlt
  exact lt_irrefl _ hlt

theorem At.of_full (h : locations.At w) (hw : kMaxStackDepth ≤ w) {w' : ℕ} (hw' : w ≤ w') :
    locations.At w' :=
  ⟨h.inBounds, by rw [h.writeIndex, min_eq_left hw, min_eq_left (hw.trans hw')]⟩

theorem At.writeIndex_lt_iff (h : locations.At w) :
    locations.writeIndex < kMaxStackDepth ↔ w < kMaxStackDepth := by
  rw [h.writeIndex, min_lt_iff]
  exact or_iff_right (lt_irrefl _)

end Locations

section Groups

variable (demangle : List Char → List Char) (mapinfo : MapInfo) {locations : Locations} {w : ℕ}

theorem Locations.At.writeInlined (h : locations.At w) (elfAddr : ℕ) (sym : BlazeSym) (n : ℕ) :
    (writeInlined demangle elfAddr mapinfo sym n locations).At (w + n) := by
  induction n generalizing locations w with
  | zero => exact h
  | succ n ih =>
    unfold Ddprof.writeInlined
    by_cases hw : w < kMaxStackDepth
    · rw [if_pos (h.writeIndex_lt_iff.mpr hw), Nat.add_comm n 1, ← Nat.add_assoc]
      exact ih (h.push hw _)
    · rw [if_neg (mt h.writeIndex_lt_iff.mp hw)]
      exact h.of_full (not_lt.mp hw) (Nat.le_add_right _ _)

theorem Locations.At.writeLocationBlaze (h : locations.At w) (elfAddr : ℕ) (sym : BlazeSym) :
    (writeLocationBlaze demangle elfAddr mapinfo sym locations).1.At
      (w + (sym.inlinedRounds + 1)) := by
  have hinlined : (Ddprof.writeInlined demangle elfAddr mapinfo sym sym.inlinedRounds
      locations).At (w + sym.inlinedRounds) := h.writeInlined demangle mapinfo elfAddr sym _
  unfold Ddprof.writeLocationBlaze
  by_cases hw : kMaxStackDepth ≤ locations.writeIndex
  · rw [if_pos hw]
    have hfull := not_lt.mp (mt h.writeIndex_lt_iff.mpr (not_lt.mpr hw))
    exact h.of_full hfull (Nat.le_add_right _ _)
  · rw [if_neg hw]
    by_cases hw' : kMaxStackDepth ≤
        (Ddprof.writeInlined demangle elfAddr mapinfo sym sym.inlinedRounds locations).writeIndex
    · simp only [if_pos hw']
      have hfull := not_lt.mp (mt hinlined.writeIndex_lt_iff.mpr (not_lt.mpr hw'))
      exact hinlined.of_full hfull (Nat.le_succ _)
    · simp only [if_neg hw']
      exact hinlined.push (hinlined.writeIndex_lt_iff.mp (not_le.mp hw')) _

theorem writeLocationBlaze_ne_error (elfAddr : ℕ) (sym : BlazeSym) (locations : Locations) :
    (writeLocationBlaze demangle elfAddr mapinfo sym locations).2 ≠ .error := by
  unfold writeLocationBlaze
  split_ifs
  · exact fun h => nomatch h
  · dsimp only
    split_ifs
    · exact fun h => nomatch h
    · exact fun h => nomatch h

theorem writeSymbols_cons (sym : BlazeSym) (syms : List BlazeSym) (elfAddr : ℕ)
    (elfAddrs : List ℕ) (locations : Locations) :
    writeSymbols demangle mapinfo (sym :: syms) (elfAddr :: elfAddrs) locations =
      writeSymbols demangle mapinfo syms elfAddrs
        (if sym.addr = 0 then locations.push (writeLocationNoSym elfAddr mapinfo)
        else (writeLocationBlaze demangle elfAddr mapinfo sym locations).1) := by
  have hne := writeLocationBlaze_ne_error demangle mapinfo elfAddr sym locations
  rw [writeSymbols]
  split_ifs
  · rfl
  · split
    · rename_i heq
      rw [heq] at hne
      exact absurd rfl hne
    · rename_i heq
      rw [heq]

theorem writeSymbols_ok (syms : List BlazeSym) (elfAddrs : List ℕ) (locations : Locations) :
    (writeSymbols demangle mapinfo syms elfAddrs locations).2 = .ok := by
  induction syms generalizing elfAddrs locations with
  | nil => rfl
  | cons sym syms ih =>
    cases elfAddrs with
    | nil => rfl
    | cons elfAddr elfAddrs =>
      rw [writeSymbols_cons]
      exact ih _ _

/-- What is written for a list of slots: all is well if they fit, and not if they do not. -/
structure Filled (locations : Locations) (w : ℕ) (slots : List FrameSlot) : Prop where
  at_of_fits : GroupFits w slots → locations.At (w + (slots.map FrameSlot.width).sum)
  fits_of_inBounds : locations.InBounds → GroupFits w slots

theorem suffix_writeInlined (elfAddr : ℕ) (sym : BlazeSym) (n : ℕ) (locations : Locations) :
    locations.writes <:+ (writeInlined demangle elfAddr mapinfo sym n locations).writes := by
  induction n generalizing locations with
  | zero => exact List.suffix_rfl
  | succ n ih =>
    unfold writeInlined
    split_ifs
    · exact (locations.suffix_push _).trans (ih _)
    · exact List.suffix_rfl

theorem suffix_writeLocationBlaze (elfAddr : ℕ) (sym : BlazeSym) (locations : Locations) :
    locations.writes <:+
      (writeLocationBlaze demangle elfAddr mapinfo sym locations).1.writes := by
  have hinlined := suffix_writeInlined demangle mapinfo elfAddr sym sym.inlinedRounds locations
  unfold writeLocationBlaze
  split_ifs
  · exact List.suffix_rfl
  · dsimp only
    split_ifs
    · exact hinlined
    · exact hinlined.trans (Locations.suffix_push _ _)

theorem suffix_writeSymbols (syms : List BlazeSym) (elfAddrs : List ℕ) (locations : Locations) :
    locations.writes <:+ (writeSymbols demangle mapinfo syms elfAddrs locations).1.writes := by
  induction syms generalizing elfAddrs locations with
  | nil => exact List.suffix_rfl
  | cons sym syms ih =>
    cases elfAddrs with
    | nil => exact List.suffix_rfl
    | cons elfAddr elfAddrs =>
      rw [writeSymbols_cons]
      refine List.IsSuffix.trans ?_ (ih _ _)
      split_ifs
      · exact locations.suffix_push _
      · exact suffix_writeLocationBlaze demangle mapinfo elfAddr sym locations

theorem suffix_writeNoSymbols (elfAddrs : List ℕ) (locations : Locations) :
    locations.writes <:+ (writeNoSymbols mapinfo elfAddrs locations).writes := by
  induction elfAddrs generalizing locations with
  | nil => exact List.suffix_rfl
  | cons elfAddr elfAddrs ih => exact (locations.suffix_push _).trans (ih _)

theorem Locations.At.filled_bare (h : locations.At w) {write : Location → Location}
    {locations' : Locations} {slots : List FrameSlot}
    (hsuffix : (locations.push write).writes <:+ locations'.writes)
    (hrest : (locations.push write).At (w + 1) → Filled locations' (w + 1) slots) :
    Filled locations' w (.bare :: slots) where
  at_of_fits := fun ⟨hw, hfits⟩ => by
    rw [List.map_cons, List.sum_cons, FrameSlot.width, ← Nat.add_assoc]
    exact (hrest (h.push hw write)).at_of_fits hfits
  fits_of_inBounds hin := by
    have hw : w < kMaxStackDepth := by
      by_contra hge
      exact h.push_of_full (not_lt.mp hge) write (hin.of_suffix hsuffix)
    exact ⟨hw, (hrest (h.push hw write)).fits_of_inBounds hin⟩

theorem Locations.At.writeSymbols (h : locations.At w) (syms : List BlazeSym)
    (elfAddrs : List ℕ) :
    Filled (writeSymbols demangle mapinfo syms elfAddrs locations).1 w
      (resultSlots elfAddrs (some syms)) := by
  induction syms generalizing elfAddrs locations w with
  | nil => exact ⟨fun _ => h, fun _ => trivial⟩
  | cons sym syms ih =>
    cases elfAddrs with
    | nil => exact ⟨fun _ => h, fun _ => trivial⟩
    | cons elfAddr elfAddrs =>
      rw [resultSlots, List.zipWith_cons_cons, BlazeSym.slot, writeSymbols_cons]
      by_cases haddr : sym.addr = 0
      · rw [if_pos haddr, if_pos haddr]
        exact h.filled_bare (suffix_writeSymbols _ _ _ _ _) fun hpush => ih hpush elfAddrs
      · rw [if_neg haddr, if_neg haddr]
        have hrest := ih (h.writeLocationBlaze demangle mapinfo elfAddr sym) elfAddrs
        refine ⟨fun hfits => ?_, hrest.fits_of_inBounds⟩
        rw [List.map_cons, List.sum_cons, FrameSlot.width, ← Nat.add_assoc]
        exact hrest.at_of_fits hfits

theorem Locations.At.writeNoSymbols (h : locations.At w) (elfAddrs : List ℕ) :
    Filled (writeNoSymbols mapinfo elfAddrs locations) w (resultSlots elfAddrs none) := by
  induction elfAddrs generalizing locations w with
  | nil => exact ⟨fun _ => h, fun _ => trivial⟩
  | cons elfAddr elfAddrs ih =>
    exact h.filled_bare (suffix_writeNoSymbols _ elfAddrs _) fun hpush => ih hpush

end Groups

/-! ### Whole stacks -/

section Stacks

variable {env : SymbolEnv} {symbolizer : Symbolizer} {locations : Locations} {w : ℕ}

theorem symbolizePprof_group {elfAddrs : List ℕ} (haddrs : elfAddrs ≠ []) {elfSrc : List Char}
    (hsrc : elfSrc ≠ []) (fileId : FileInfoId) (mapinfo : MapInfo) (locations : Locations) :
    ∃ locations', symbolizer.symbolizePprof env elfAddrs fileId elfSrc mapinfo locations =
        ((symbolizer.blazeResult env fileId elfSrc).1, locations', .ok) ∧
      locations.writes <:+ locations'.writes ∧
      ∀ w, locations.At w →
        Filled locations' w
          (resultSlots elfAddrs (symbolizer.blazeResult env fileId elfSrc).2) := by
  unfold Symbolizer.symbolizePprof
  rw [if_neg (not_or.mpr ⟨haddrs, hsrc⟩)]
  rcases hresult : symbolizer.blazeResult env fileId elfSrc with ⟨symbolizer', _ | syms⟩
  · exact ⟨_, rfl, suffix_writeNoSymbols _ _ _, fun w h => h.writeNoSymbols _ elfAddrs⟩
  · refine ⟨_, ?_, suffix_writeSymbols env.demangle mapinfo syms elfAddrs locations,
      fun w h => h.writeSymbols env.demangle mapinfo syms elfAddrs⟩
    simp only [Prod.mk.injEq, true_and]
    exact Prod.ext rfl (writeSymbols_ok env.demangle mapinfo syms elfAddrs locations)

theorem symbolizePprof_warn (elfAddrs : List ℕ) (fileId : FileInfoId) (mapinfo : MapInfo)
    (locations : Locations) :
    symbolizer.symbolizePprof env elfAddrs fileId [] mapinfo locations =
      (symbolizer, locations, .warn) :=
  if_pos (.inr rfl)

theorem collectFrames_ne_nil (loc : FunLoc) (rest : List FunLoc) :
    (collectFrames loc.fileInfoId (loc :: rest)).1 ≠ [] := by
  rw [collectFrames, if_pos rfl]
  split_ifs
  · exact List.cons_ne_nil _ _
  · exact List.cons_ne_nil _ _

/-- What the loop over the frames does, from locations that are all right. -/
structure FramesWritten (before after : Locations) (w : ℕ) (slots : List (List FrameSlot)) :
    Prop where
  suffix : before.writes <:+ after.writes
  at_of_fits : before.At w → Fits w slots → ∃ w', after.At w'
  fits_of_inBounds : before.At w → after.InBounds → Fits w slots

theorem FramesWritten.stop (locations : Locations) (w : ℕ) {slots : List (List FrameSlot)}
    (h : locations.At w → Fits w slots) : FramesWritten locations locations w slots :=
  ⟨List.suffix_rfl, fun hat _ => ⟨w, hat⟩, fun hat _ => h hat⟩

theorem FramesWritten.group {before mid after : Locations} {group : List FrameSlot}
    {groups : List (List FrameSlot)} (hroom : before.writeIndex < kMaxStackDepth)
    (hsuffix : before.writes <:+ mid.writes) (hmid : before.At w → Filled mid w group)
    (hafter : FramesWritten mid after (w + (group.map FrameSlot.width).sum) groups) :
    FramesWritten before after w (group :: groups) where
  suffix := hsuffix.trans hafter.suffix
  at_of_fits hat hfits := by
    obtain ⟨hgroup, hgroups⟩ := hfits (hat.writeIndex_lt_iff.mp hroom)
    exact hafter.at_of_fits ((hmid hat).at_of_fits hgroup) hgroups
  fits_of_inBounds hat hin _ := by
    have hgroup := (hmid hat).fits_of_inBounds (hin.of_suffix hafter.suffix)
    exact ⟨hgroup, hafter.fits_of_inBounds ((hmid hat).at_of_fits hgroup) hin⟩

theorem fits_of_full (hw : kMaxStackDepth ≤ w) (slots : List (List FrameSlot)) : Fits w slots := by
  cases slots with
  | nil => trivial
  | cons group groups => exact fun hlt => absurd hlt (not_lt.mpr hw)

theorem symbolizeFrames_spec (env : SymbolEnv) (symbolizer : Symbolizer) (locs : List FunLoc)
    (locations : Locations) (w : ℕ) :
    (symbolizeFrames env symbolizer locs locations).2.2 ≠ .error ∧
      FramesWritten locations (symbolizeFrames env symbolizer locs locations).2.1 w
        (frameSlots env symbolizer locs) := by
  fun_induction symbolizeFrames env symbolizer locs locations generalizing w with
  | case1 symbolizer locations loc next rest hroom hsymbolized ih =>
    -- the frame is symbolized already: a group of its own
    rw [frameSlots, if_pos hsymbolized]
    obtain ⟨hok, hrest⟩ := ih (w + 1)
    refine ⟨hok, .group hroom (locations.suffix_push _) (fun hat => ?_) hrest⟩
    exact ⟨fun _ => hat.push (hat.writeIndex_lt_iff.mp hroom) _, fun _ => trivial⟩
  | case2 symbolizer locations loc next rest hroom hsymbolized herror ih =>
    rw [frameSlots, if_neg hsymbolized, if_pos herror]
    exact ih w
  | case3 symbolizer locations loc next rest hroom hsymbolized herror symbolizer' locations' heq
      ih =>
      rw [frameSlots, if_neg hsymbolized, if_neg herror]
      by_cases hpath : env.path loc.fileInfoId = []
      · rw [hpath, symbolizePprof_warn] at heq
        cases heq
      · rw [if_neg hpath]
        obtain ⟨locations'', heq', hsuffix, hfilled⟩ := symbolizePprof_group
          (mt List.map_eq_nil_iff.mp (collectFrames_ne_nil loc (next :: rest))) hpath
          loc.fileInfoId (env.mapinfo loc.mapInfoIdx) locations
        cases heq'.symm.trans heq
        obtain ⟨hok, hrest⟩ := ih _
        exact ⟨hok, .group hroom hsuffix (hfilled w) hrest⟩
  | case4 symbolizer locations loc next rest hroom hsymbolized herror symbolizer' locations' res
      hres heq =>
      -- a group that is not symbolized: only the path can be missing
      by_cases hpath : env.path loc.fileInfoId = []
      · rw [frameSlots, if_neg hsymbolized, if_neg herror, if_pos hpath]
        rw [hpath, symbolizePprof_warn] at heq
        cases heq
        exact ⟨nofun, .stop locations w fun _ => trivial⟩
      · obtain ⟨locations'', heq', -, -⟩ := symbolizePprof_group
          (mt List.map_eq_nil_iff.mp (collectFrames_ne_nil loc (next :: rest))) hpath
          loc.fileInfoId (env.mapinfo loc.mapInfoIdx) locations
        cases heq'.symm.trans heq
        exact absurd rfl hres
  | case5 symbolizer locations loc next rest hroom =>
    refine ⟨nofun, .stop locations w fun hat => ?_⟩
    exact fits_of_full (not_lt.mp (mt hat.writeIndex_lt_iff.mpr hroom)) _
  | case6 symbolizer locs locations hshort =>
    rw [frameSlots]
    · exact ⟨nofun, .stop locations w fun _ => trivial⟩
    · exact hshort

theorem Locations.At.writeIncompleteFrame (h : locations.At w) :
    ∃ w', (writeIncompleteFrame locations).At w' := by
  unfold Ddprof.writeIncompleteFrame
  split_ifs with hcond
  · have hroom : locations.writeIndex < kMaxStackDepth := hcond.1.trans_le (Nat.sub_le _ _)
    exact ⟨w + 1, h.push (h.writeIndex_lt_iff.mp hroom) _⟩
  · exact ⟨w, h⟩

theorem Locations.At.writeBinaryFrame (h : locations.At w) (env : SymbolEnv) (loc : FunLoc) :
    ∃ w', (writeBinaryFrame env loc locations).At w' := by
  unfold Ddprof.writeBinaryFrame
  split_ifs with hcond
  · exact ⟨w + 1, h.push (h.writeIndex_lt_iff.mp hcond.1) _⟩
  · exact ⟨w, h⟩

theorem suffix_writeLastFrames (loc : FunLoc) (locations : Locations) :
    locations.writes <:+
      (writeBinaryFrame env loc (writeIncompleteFrame locations)).writes := by
  have hbinary (locations : Locations) :
      locations.writes <:+ (writeBinaryFrame env loc locations).writes := by
    unfold writeBinaryFrame
    split_ifs
    · exact locations.suffix_push _
    · exact List.suffix_rfl
  refine List.IsSuffix.trans ?_ (hbinary _)
  unfold writeIncompleteFrame
  split_ifs
  · exact locations.suffix_push _
  · exact List.suffix_rfl

theorem processSymbolization_eq {locs : List FunLoc} {last : FunLoc}
    (hlast : locs.getLast? = some last) (locations : Locations) :
    processSymbolization env symbolizer locs locations =
      some ((symbolizeFrames env symbolizer locs locations).1,
        writeBinaryFrame env last
          (writeIncompleteFrame (symbolizeFrames env symbolizer locs locations).2.1), .ok) := by
  have hok := (symbolizeFrames_spec env symbolizer locs locations 0).1
  unfold processSymbolization
  rw [hlast]
  rcases hframes : symbolizeFrames env symbolizer locs locations with ⟨symbolizer', locations', res⟩
  rw [hframes] at hok
  cases res with
  | ok => rfl
  | warn => rfl
  | error => exact absurd rfl hok

end Stacks

/-- From an empty array of locations, no location is written at or past `kMaxStackDepth`, and the
write index does not pass it, exactly when there is a frame and the groups of frames fit: where a
group is reached with room left, so is each of its frames that is written without a check. -/
theorem processSymbolization_inBounds_iff (env : SymbolEnv) (symbolizer : Symbolizer)
    (locs : List FunLoc) (buff : ℕ → Location) :
    (∃ symbolizer' locations res,
        processSymbolization env symbolizer locs { buff := buff } =
          some (symbolizer', locations, res) ∧
        (∀ i ∈ locations.writes, i < kMaxStackDepth) ∧ locations.writeIndex ≤ kMaxStackDepth) ↔
      locs ≠ [] ∧ Fits 0 (frameSlots env symbolizer locs) := by
  have hstart : Locations.At { buff := buff } 0 := ⟨nofun, rfl⟩
  obtain ⟨-, hwritten⟩ := symbolizeFrames_spec env symbolizer locs { buff := buff } 0
  cases hlast : locs.getLast? with
  | none =>
    refine iff_of_false ?_ fun h => h.1 (List.getLast?_eq_none_iff.mp hlast)
    rintro ⟨_, _, _, heq, -⟩
    rw [processSymbolization, hlast] at heq
    cases heq
  | some last =>
    have hne : locs ≠ [] := by
      rintro rfl
      cases hlast
    rw [processSymbolization_eq hlast]
    constructor
    · rintro ⟨_, _, _, heq, hin, -⟩
      cases heq
      have hin' := Locations.InBounds.of_suffix hin (suffix_writeLastFrames last _)
      exact ⟨hne, hwritten.fits_of_inBounds hstart hin'⟩
    · rintro ⟨-, hfits⟩
      obtain ⟨w, hat⟩ := hwritten.at_of_fits hstart hfits
      obtain ⟨w, hat⟩ := hat.writeIncompleteFrame
      obtain ⟨w, hat⟩ := hat.writeBinaryFrame env last
      exact ⟨_, _, _, rfl, hat.inBounds, hat.writeIndex.trans_le (min_le_left _ _)⟩

def rawFrame (elfAddr : ℕ) : FunLoc := ⟨elfAddr, elfAddr, 2, kSymbolIdxNull, 0⟩

/-- Two frames of one file and the one of the binary. The symbol of the first has 511 inlined
functions and takes all the room; the second has no symbol, and is written past the end. -/
theorem processSymbolization_pastEnd :
    (processSymbolization
        { path := fun _ => ['a']
          blaze := fun _ => some [{ addr := 4096, inlinedCnt := 511 }, { addr := 0 }] }
        {} [rawFrame 4112, rawFrame 32, ⟨0, 0, 2, 0, 0⟩] { buff := fun _ => {} }).any
      (fun result => 512 ∈ result.2.1.writes ∧ result.2.1.writeIndex = 513) = true := by
  decide +kernel

end Ddprof
