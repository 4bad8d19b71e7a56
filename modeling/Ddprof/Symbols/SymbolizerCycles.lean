import Ddprof.Lib.Run
import Ddprof.Symbols.Symbolization

/-!
Which symbolizers live from one export cycle to the next (`remove_unvisited` and
`reset_unvisited_flag`).

A symbolizer is created with its flag set. At the end of a cycle those without the flag are
removed, and the flags of the others are reset. Within a cycle nothing changes the flag of an entry
that exists: `get_symbolizer` sets it for an entry that it creates, and returns one that it finds
as it is.
-/

namespace Ddprof

namespace Symbolizer

/-- The number of the symbolizers that are removed is returned. -/
def removeUnvisited (symbolizer : Symbolizer) : Symbolizer × ℕ :=
  let (symbolizerMap, count) := symbolizer.symbolizerMap.eraseIf fun _ wrapper => !wrapper.visited
  ({ symbolizer with symbolizerMap }, count)

def resetUnvisitedFlag (symbolizer : Symbolizer) : Symbolizer :=
  { symbolizer with
    symbolizerMap := symbolizer.symbolizerMap.mapValues
      fun _ wrapper => { wrapper with visited := false } }

structure Call where
  elfAddrs : List ℕ
  fileId : FileInfoId
  elfSrc : List Char
  mapInfo : MapInfo := {}
  locations : Locations

/-- The call gets as far as `get_symbolizer`. -/
def uses (symbolizer : Symbolizer) (call : Call) : Bool :=
  call.elfAddrs ≠ [] && call.elfSrc ≠ [] && !symbolizer.disableSymbolization

section Cycles

variable (env : SymbolEnv)

def perform (symbolizer : Symbolizer) (call : Call) : Symbolizer :=
  (symbolizer.symbolizePprof env call.elfAddrs call.fileId call.elfSrc call.mapInfo
    call.locations).1

def performAll (symbolizer : Symbolizer) (calls : List Call) : Symbolizer :=
  calls.foldl (perform env) symbolizer

def runCycle (symbolizer : Symbolizer) (calls : List Call) : Symbolizer :=
  (symbolizer.performAll env calls).removeUnvisited.1.resetUnvisitedFlag

def runCycles (symbolizer : Symbolizer) (cycles : List (List Call)) : Symbolizer :=
  cycles.foldl (runCycle env) symbolizer

/-- The files that `get_symbolizer` is called for. -/
def usedFiles (symbolizer : Symbolizer) (calls : List Call) : List FileInfoId :=
  (calls.filter symbolizer.uses).map Call.fileId

/-- The call does not find an entry without the flag, which is one that is left from an earlier
cycle. -/
def FindsNoOld (symbolizer : Symbolizer) (call : Call) : Prop :=
  symbolizer.uses call = true →
    (AList.lookup call.fileId symbolizer.symbolizerMap).map BlazeSymbolizerWrapper.visited ≠
      some false

instance (symbolizer : Symbolizer) (call : Call) : Decidable (symbolizer.FindsNoOld call) :=
  inferInstanceAs (Decidable (_ → _ ≠ _))

/-- Every call of the cycle meets the condition in the state that it is made in. -/
def AllFindNoOld (symbolizer : Symbolizer) (calls : List Call) : Prop :=
  Run.Along (fun s call => some (perform env s call)) FindsNoOld symbolizer calls

instance (symbolizer : Symbolizer) (calls : List Call) :
    Decidable (symbolizer.AllFindNoOld env calls) :=
  inferInstanceAs (Decidable (Run.Along _ _ _ _))

end Cycles

/-! ### Flags -/

def flag (symbolizer : Symbolizer) (fileId : FileInfoId) : Option Bool :=
  (AList.lookup fileId symbolizer.symbolizerMap).map BlazeSymbolizerWrapper.visited

variable {env : SymbolEnv} {symbolizer : Symbolizer}

theorem visited_getSymbolizer (symbolizer : Symbolizer) (fileId : FileInfoId)
    (elfSrc : List Char) :
    (symbolizer.getSymbolizer fileId elfSrc).visited = (symbolizer.flag fileId).getD true := by
  unfold getSymbolizer flag
  cases AList.lookup fileId symbolizer.symbolizerMap <;> rfl

theorem flag_insert (wrapper : BlazeSymbolizerWrapper) (fileId fileId' : FileInfoId)
    (calls : ℕ) :
    flag { symbolizer with
        symbolizerMap := AList.insert fileId wrapper symbolizer.symbolizerMap, calls := calls }
        fileId' =
      if fileId' = fileId then some wrapper.visited else symbolizer.flag fileId' := by
  unfold flag
  split_ifs with hid
  · rw [hid, AList.lookup_insert, Option.map_some]
  · rw [AList.lookup_insert_ne hid]

/-- A call of the symbolizer library adds an entry or replaces one, and neither touches the
options. -/
theorem blazeResult_fst (env : SymbolEnv) (symbolizer : Symbolizer) (fileId : FileInfoId)
    (elfSrc : List Char) (h : symbolizer.disableSymbolization = false) :
    ∃ useDebug calls, (symbolizer.blazeResult env fileId elfSrc).1 =
      { symbolizer with
        symbolizerMap := AList.insert fileId
          { symbolizer.getSymbolizer fileId elfSrc with useDebug := useDebug }
          symbolizer.symbolizerMap
        calls := calls } := by
  unfold blazeResult
  rw [if_neg (by simp [h])]
  simp only
  split_ifs
  · exact ⟨_, _, rfl⟩
  · exact ⟨_, _, rfl⟩

theorem perform_eq (symbolizer : Symbolizer) (call : Call) :
    symbolizer.perform env call =
      if symbolizer.uses call then (symbolizer.blazeResult env call.fileId call.elfSrc).1
      else symbolizer := by
  unfold perform symbolizePprof uses
  by_cases hargs : call.elfAddrs = [] ∨ call.elfSrc = []
  · rw [if_pos hargs, if_neg]
    rcases hargs with h | h <;> simp [h]
  · rw [if_neg hargs]
    rw [not_or] at hargs
    simp only [hargs.1, hargs.2, ne_eq, not_false_eq_true, decide_true, Bool.true_and,
      Bool.not_eq_true']
    split_ifs with henabled
    · split <;> simp_all
    · rw [Bool.not_eq_false] at henabled
      simp [blazeResult, henabled]

/-- What a call does to the flags: the entry that it uses keeps its flag, or is created with the
flag set. -/
theorem flag_perform (env : SymbolEnv) (symbolizer : Symbolizer) (call : Call)
    (fileId : FileInfoId) :
    (symbolizer.perform env call).flag fileId =
      if symbolizer.uses call = true ∧ fileId = call.fileId then
        some ((symbolizer.flag fileId).getD true)
      else symbolizer.flag fileId := by
  rw [perform_eq]
  by_cases huses : symbolizer.uses call = true
  · have henabled : symbolizer.disableSymbolization = false := by
      simp only [uses, Bool.and_eq_true, Bool.not_eq_true'] at huses
      exact huses.2
    obtain ⟨useDebug, calls, heq⟩ :=
      blazeResult_fst env symbolizer call.fileId call.elfSrc henabled
    rw [if_pos huses, heq, flag_insert, visited_getSymbolizer]
    simp only [huses, true_and]
    split_ifs with hid
    · rw [hid]
    · rfl
  · rw [if_neg huses, if_neg (fun h => huses h.1)]

theorem uses_perform (symbolizer : Symbolizer) (call : Call) :
    (symbolizer.perform env call).uses = symbolizer.uses := by
  have hopt : (symbolizer.perform env call).disableSymbolization =
      symbolizer.disableSymbolization := by
    rw [perform_eq]
    split_ifs with huses
    · cases henabled : symbolizer.disableSymbolization with
      | true => simp [uses, henabled] at huses
      | false =>
        obtain ⟨useDebug, calls, heq⟩ :=
          blazeResult_fst env symbolizer call.fileId call.elfSrc henabled
        rw [heq]
        exact henabled
    · rfl
  funext other
  simp only [uses, hopt]

/-! ### One cycle -/

theorem flag_performAll_of_some (calls : List Call) {fileId : FileInfoId} {visited : Bool}
    (h : symbolizer.flag fileId = some visited) :
    (symbolizer.performAll env calls).flag fileId = some visited := by
  induction calls generalizing symbolizer with
  | nil => exact h
  | cons call rest ih =>
    refine ih ?_
    rw [flag_perform, h]
    split_ifs <;> rfl

/-- A file that is not used during a cycle keeps its entry, or stays without one. -/
theorem flag_performAll_of_unused (calls : List Call) {fileId : FileInfoId}
    (h : fileId ∉ symbolizer.usedFiles calls) :
    (symbolizer.performAll env calls).flag fileId = symbolizer.flag fileId := by
  induction calls generalizing symbolizer with
  | nil => rfl
  | cons call rest ih =>
    have hcall : ¬ (symbolizer.uses call = true ∧ fileId = call.fileId) := by
      rintro ⟨huses, rfl⟩
      exact h (by simp [usedFiles, huses])
    have hrest : fileId ∉ (symbolizer.perform env call).usedFiles rest := by
      intro hmem
      apply h
      unfold usedFiles at hmem ⊢
      rw [uses_perform] at hmem
      rw [List.filter_cons]
      split_ifs
      · exact List.mem_cons_of_mem _ hmem
      · exact hmem
    have hflag := ih hrest
    rw [flag_perform, if_neg hcall] at hflag
    exact hflag

/-- The files that are used during a cycle all have the flag in the end exactly if no call finds
an old entry. -/
theorem flags_performAll_iff (symbolizer : Symbolizer) (calls : List Call) :
    (∀ fileId ∈ symbolizer.usedFiles calls,
        (symbolizer.performAll env calls).flag fileId = some true) ↔
      symbolizer.AllFindNoOld env calls := by
  induction calls generalizing symbolizer with
  | nil => simp [usedFiles, AllFindNoOld, Run.Along]
  | cons call rest ih =>
    have hfiles : symbolizer.usedFiles (call :: rest) =
        (if symbolizer.uses call then [call.fileId] else []) ++
          (symbolizer.perform env call).usedFiles rest := by
      unfold usedFiles
      rw [uses_perform, List.filter_cons]
      split_ifs <;> rfl
    rw [hfiles, List.forall_mem_append]
    refine and_congr ?_ (ih _)
    unfold FindsNoOld
    split_ifs with huses
    · have hflag := flag_perform env symbolizer call call.fileId
      rw [if_pos ⟨huses, rfl⟩] at hflag
      have hkept : (symbolizer.performAll env (call :: rest)).flag call.fileId = _ :=
        flag_performAll_of_some rest hflag
      simp only [List.forall_mem_singleton, hkept, huses, forall_const, Option.some.injEq]
      show (symbolizer.flag call.fileId).getD true = true ↔
        symbolizer.flag call.fileId ≠ some false
      cases symbolizer.flag call.fileId with
      | none => simp
      | some visited => cases visited <;> simp
    · simp [huses]

/-! ### The end of a cycle -/

theorem lookup_removeUnvisited (symbolizer : Symbolizer) (fileId : FileInfoId) :
    AList.lookup fileId symbolizer.removeUnvisited.1.symbolizerMap =
      (AList.lookup fileId symbolizer.symbolizerMap).filter fun wrapper => wrapper.visited := by
  unfold removeUnvisited
  simp only [UnorderedMap.lookup_eraseIf, Bool.not_not]

def Reset (symbolizer : Symbolizer) : Prop := ∀ fileId, symbolizer.flag fileId ≠ some true

theorem reset_runCycle (symbolizer : Symbolizer) (calls : List Call) :
    (symbolizer.runCycle env calls).Reset := by
  intro fileId
  unfold flag runCycle resetUnvisitedFlag
  rw [UnorderedMap.lookup_mapValues, Option.map_map]
  cases AList.lookup fileId (symbolizer.performAll env calls).removeUnvisited.1.symbolizerMap
    <;> simp

theorem reset_runCycles (cycles : List (List Call)) (h : symbolizer.Reset) :
    (symbolizer.runCycles env cycles).Reset := by
  induction cycles generalizing symbolizer with
  | nil => exact h
  | cons calls rest ih => exact ih (reset_runCycle symbolizer calls)

/-- After any number of cycles, take the calls of one more. Every symbolizer that these calls use
is kept at the end of the cycle exactly if none of them finds an entry that is left from an earlier
cycle. A symbolizer that they do not use is not there after the end of the cycle. -/
theorem removeUnvisited_keeps_used_iff (env : SymbolEnv)
    (inlinedFunctions disableSymbolization : Bool) (cycles : List (List Call))
    (calls : List Call) :
    let start := runCycles env
      { inlinedFunctions := inlinedFunctions, disableSymbolization := disableSymbolization } cycles
    let final := start.performAll env calls
    ((∀ fileId ∈ start.usedFiles calls,
        AList.lookup fileId final.removeUnvisited.1.symbolizerMap =
            AList.lookup fileId final.symbolizerMap ∧
          (AList.lookup fileId final.symbolizerMap).isSome) ↔ start.AllFindNoOld env calls) ∧
      ∀ fileId ∉ start.usedFiles calls,
        AList.lookup fileId final.removeUnvisited.1.symbolizerMap = none := by
  intro start final
  have hreset : start.Reset := reset_runCycles cycles fun fileId => by simp [flag]
  constructor
  · rw [← flags_performAll_iff]
    refine forall₂_congr fun fileId _ => ?_
    rw [lookup_removeUnvisited]
    show _ ↔ final.flag fileId = some true
    unfold flag
    cases AList.lookup fileId final.symbolizerMap with
    | none => simp
    | some wrapper => cases hvisited : wrapper.visited <;> simp [hvisited]
  · intro fileId hunused
    have hflag : final.flag fileId = start.flag fileId := flag_performAll_of_unused calls hunused
    rw [lookup_removeUnvisited]
    cases hentry : AList.lookup fileId final.symbolizerMap with
    | none => rfl
    | some wrapper =>
      have hold := hreset fileId
      rw [← hflag, flag, hentry] at hold
      simpa using hold

/-- A file is symbolized in every cycle. Its symbolizer is created in the first one, kept at its
end, and removed at the end of the second one. -/
theorem removeUnvisited_drops_used :
    let env : SymbolEnv := { path := fun _ => "/bin/a".toList, blaze := fun _ => none }
    let call : Call := ⟨[0x10], 5, "/bin/a".toList, {}, { buff := fun _ => {} }⟩
    let start := runCycles env {} [[call]]
    let final := start.performAll env [call]
    start.usedFiles [call] = [5] ∧ (AList.lookup 5 final.symbolizerMap).isSome ∧
      AList.lookup 5 final.removeUnvisited.1.symbolizerMap = none ∧
      final.removeUnvisited.2 = 1 := by
  decide +kernel

end Symbolizer

end Ddprof
