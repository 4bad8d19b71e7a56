import Ddprof.Dso.ProcMaps
import Ddprof.Lib.UnorderedMap
import Ddprof.Symbols.Reloading

/-!
Lookups of generated symbols (`RuntimeSymbolLookup`).

A lookup that misses reads the perf-map or the jitdump of the process and looks again. The spans
belong to the process. The symbol table is shared by all processes and with the other lookups,
which only add to it. What a lookup returns is an index of the table, and it is kept in the stack
of a live allocation until the allocation is exported.

What is in the files is an input of each call: the lines of the perf-map, and what
`jitdump_read` returns for the two paths it is tried with.
-/

namespace Ddprof

open OrderedMap

/-! ### Files -/

namespace Scan

/-- `%<n>s` -/
def word (n : ℕ) (s : List Char) : Option (List Char × List Char) :=
  let body := skipSpace s
  let chars := (body.takeWhile fun c => !isSpace c).take n
  if chars.isEmpty then none else some (chars, body.drop chars.length)

/-- `%<n>[^\t\n]` -/
def restOfLine (n : ℕ) (s : List Char) : Option (List Char) :=
  let chars := (s.takeWhile fun c => c ≠ '\t' && c ≠ '\n').take n
  if chars.isEmpty then none else some chars

/-- `strtoul` with base 16, which is 0 without digits. -/
def strtoulHex (s : List Char) : ℕ := ((unsigned 16 s).map Prod.fst).getD 0

end Scan

/-- `sscanf(line, "%16s %8s %300[^\t\n]", ...)` with its three matches. -/
def perfmapSymbol (line : List Char) : Option CodeSymbol := do
  let (address, s) ← Scan.word 16 line
  let (codeSize, s) ← Scan.word 8 (Scan.skipSpace s)
  let symbol ← Scan.restOfLine 300 (Scan.skipSpace s)
  return ⟨symbol, Scan.strtoulHex address, Scan.strtoulHex codeSize⟩

/-- A perf-map that cannot be opened has no lines. -/
def perfmapSymbols (perfmap : Option (List (List Char))) : List CodeSymbol :=
  (perfmap.getD []).filterMap perfmapSymbol

/-- What `jitdump_read` returns: there is no file (an error, `DD_WHAT_NO_JIT_FILE`), or a result
and the records that it could read. -/
inductive JitdumpRead
  | noFile
  | read (res : Severity) (codeLoad : List CodeSymbol)
  deriving DecidableEq

namespace RuntimeSymbols

def fillFromPerfmap (s : RuntimeSymbols) (perfmap : Option (List (List Char))) : RuntimeSymbols :=
  s.load (perfmapSymbols perfmap)

/-- The file below the root of the process is tried first, and the path as it is when there is no
such file. Only the second attempt is checked for errors. -/
def fillFromJitdump (s : RuntimeSymbols) (inRoot atPath : JitdumpRead) :
    RuntimeSymbols × Severity :=
  match inRoot, atPath with
  | .read _ codeLoad, _ => (s.load codeLoad, .ok)
  | .noFile, .noFile => (s, .error)
  | .noFile, .read .error _ => (s, .error)
  | .noFile, .read _ codeLoad => (s.load codeLoad, .ok)

end RuntimeSymbols

/-- The records that `fill_from_jitdump` inserts. -/
def jitdumpSymbols : JitdumpRead → JitdumpRead → List CodeSymbol
  | .read _ codeLoad, _ => codeLoad
  | .noFile, .noFile => []
  | .noFile, .read .error _ => []
  | .noFile, .read _ codeLoad => codeLoad

theorem RuntimeSymbols.fillFromJitdump_fst (s : RuntimeSymbols) (inRoot atPath : JitdumpRead) :
    (s.fillFromJitdump inRoot atPath).1 = s.load (jitdumpSymbols inRoot atPath) := by
  cases inRoot with
  | read res codeLoad => rfl
  | noFile =>
    cases atPath with
    | noFile => rfl
    | read res codeLoad => cases res <;> rfl

/-! ### Lookups -/

structure SymbolInfo where
  map : SymbolMap := .empty
  failedCycle : UnorderedMap (List Char) (BitVec 32) := ∅

instance : Inhabited SymbolInfo := ⟨{}⟩

structure RuntimeSymbolLookup where
  pidMap : UnorderedMap ℤ SymbolInfo := ∅
  cycleCounter : BitVec 32 := 1

namespace RuntimeSymbolLookup

def hasLookupFailure (lookup : RuntimeSymbolLookup) (symbolInfo : SymbolInfo)
    (path : List Char) : Bool :=
  (AList.lookup path symbolInfo.failedCycle).any fun cycle => cycle = lookup.cycleCounter

def flagLookupFailure (lookup : RuntimeSymbolLookup) (symbolInfo : SymbolInfo)
    (path : List Char) : SymbolInfo :=
  { symbolInfo with failedCycle := AList.insert path lookup.cycleCounter symbolInfo.failedCycle }

/-- The file is read: nothing is found, and there was no failure during this cycle. -/
def refreshes (lookup : RuntimeSymbolLookup) (pid : ℤ) (pc : ℕ) (path : List Char) : Bool :=
  ((lookup.pidMap.get pid).map.found pc).isNone &&
    !lookup.hasLookupFailure (lookup.pidMap.get pid) path

def symbols (lookup : RuntimeSymbolLookup) (pid : ℤ) (symbolTable : SymbolTable) :
    RuntimeSymbols :=
  ⟨(lookup.pidMap.get pid).map, symbolTable⟩

def setInfo (lookup : RuntimeSymbolLookup) (pid : ℤ) (symbolInfo : SymbolInfo) :
    RuntimeSymbolLookup :=
  { lookup with pidMap := AList.insert pid symbolInfo lookup.pidMap }

/-- The end of both lookups: a miss is flagged, and an index returned otherwise. -/
def conclude (lookup : RuntimeSymbolLookup) (pid : ℤ) (pc : ℕ) (path : List Char)
    (s : RuntimeSymbols) : RuntimeSymbolLookup × SymbolTable × ℤ :=
  let symbolInfo := { lookup.pidMap.get pid with map := s.symbolMap }
  match s.symbolMap.found pc with
  | some (_, span) => (lookup.setInfo pid symbolInfo, s.symbolTable, span.symbolIdx)
  | none =>
    (lookup.setInfo pid (lookup.flagLookupFailure symbolInfo path), s.symbolTable, kSymbolIdxNull)

def getOrInsert (lookup : RuntimeSymbolLookup) (pid : ℤ) (pc : ℕ) (symbolTable : SymbolTable)
    (perfmap : Option (List (List Char))) : RuntimeSymbolLookup × SymbolTable × ℤ :=
  let s := lookup.symbols pid symbolTable
  if lookup.refreshes pid pc "perfmap".toList then
    lookup.conclude pid pc "perfmap".toList (s.fillFromPerfmap perfmap)
  else lookup.conclude pid pc "perfmap".toList s

def getOrInsertJitdump (lookup : RuntimeSymbolLookup) (pid : ℤ) (pc : ℕ)
    (symbolTable : SymbolTable) (jitdumpPath : List Char) (inRoot atPath : JitdumpRead) :
    RuntimeSymbolLookup × SymbolTable × ℤ :=
  let s := lookup.symbols pid symbolTable
  if lookup.refreshes pid pc jitdumpPath then
    match s.fillFromJitdump inRoot atPath with
    | (s, .error) =>
      (lookup.setInfo pid (lookup.flagLookupFailure
        { lookup.pidMap.get pid with map := s.symbolMap } jitdumpPath), s.symbolTable,
        kSymbolIdxNull)
    | (s, _) => lookup.conclude pid pc jitdumpPath s
  else lookup.conclude pid pc jitdumpPath s

def erase (lookup : RuntimeSymbolLookup) (pid : ℤ) : RuntimeSymbolLookup :=
  { lookup with pidMap := AList.erase pid lookup.pidMap }

def cycle (lookup : RuntimeSymbolLookup) : RuntimeSymbolLookup :=
  { lookup with cycleCounter := lookup.cycleCounter + 1 }

variable {lookup : RuntimeSymbolLookup} {pid : ℤ} {pc : ℕ} {symbolTable : SymbolTable}

/-- What a lookup does, failures apart: symbols are inserted into the spans of the process, and
an index that is returned is that of the span found then. -/
structure Answers (lookup : RuntimeSymbolLookup) (pid : ℤ) (pc : ℕ) (s : RuntimeSymbols)
    (res : RuntimeSymbolLookup × SymbolTable × ℤ) : Prop where
  symbols_eq : res.1.symbols pid res.2.1 = s
  other : ∀ pid' ≠ pid, (res.1.pidMap.get pid').map = (lookup.pidMap.get pid').map
  idx : res.2.2 ≠ kSymbolIdxNull → ∃ e, s.symbolMap.found pc = some e ∧ res.2.2 = e.2.symbolIdx

theorem setInfo_answers {s : RuntimeSymbols} {symbolInfo : SymbolInfo} {idx : ℤ}
    (hmap : symbolInfo.map = s.symbolMap)
    (hidx : idx ≠ kSymbolIdxNull → ∃ e, s.symbolMap.found pc = some e ∧ idx = e.2.symbolIdx) :
    lookup.Answers pid pc s (lookup.setInfo pid symbolInfo, s.symbolTable, idx) where
  symbols_eq := by simp [symbols, setInfo, hmap]
  other := fun pid' hne => by rw [setInfo, UnorderedMap.get_insert_ne _ _ hne]
  idx := hidx

theorem conclude_answers (path : List Char) (s : RuntimeSymbols) :
    lookup.Answers pid pc s (lookup.conclude pid pc path s) := by
  unfold conclude
  cases hfound : s.symbolMap.found pc with
  | none => exact setInfo_answers rfl fun h => absurd rfl h
  | some e => exact setInfo_answers rfl fun _ => ⟨e, hfound, rfl⟩

theorem getOrInsert_answers (symbolTable : SymbolTable) (perfmap : Option (List (List Char))) :
    lookup.Answers pid pc
      ((lookup.symbols pid symbolTable).load
        (if lookup.refreshes pid pc "perfmap".toList then perfmapSymbols perfmap else []))
      (lookup.getOrInsert pid pc symbolTable perfmap) := by
  unfold getOrInsert
  split_ifs
  · exact conclude_answers _ _
  · exact conclude_answers _ _

theorem getOrInsertJitdump_answers (symbolTable : SymbolTable) (jitdumpPath : List Char)
    (inRoot atPath : JitdumpRead) :
    lookup.Answers pid pc
      ((lookup.symbols pid symbolTable).load
        (if lookup.refreshes pid pc jitdumpPath then jitdumpSymbols inRoot atPath else []))
      (lookup.getOrInsertJitdump pid pc symbolTable jitdumpPath inRoot atPath) := by
  unfold getOrInsertJitdump
  split_ifs
  · rw [← RuntimeSymbols.fillFromJitdump_fst]
    simp only
    split
    · rename_i s heq
      rw [heq]
      exact setInfo_answers rfl fun h => absurd rfl h
    · rename_i s res _ heq
      rw [heq]
      exact conclude_answers _ _
  · exact conclude_answers _ _

end RuntimeSymbolLookup

/-! ### Names that are kept -/

namespace RuntimeSymbols

/-- The entry at an index of the table has this name. -/
def Named (symbolTable : SymbolTable) (p : ℕ × List Char) : Prop :=
  symbolTable[p.1]?.map Symbol.demangledName = some p.2

/-- The code does not take the place of a span that has one of the indices and another name. -/
def Spares (returned : List (ℕ × List Char)) (s : RuntimeSymbols) (code : CodeSymbol) : Prop :=
  code.isRefused = false → ∀ e, s.symbolMap.found code.address = some e →
    s.nameOf e.2 ≠ code.symbol → ∀ p ∈ returned, p.1 ≠ e.2.symbolIdx

instance (returned : List (ℕ × List Char)) (s : RuntimeSymbols) (code : CodeSymbol) :
    Decidable (s.Spares returned code) :=
  decidable_of_iff (code.isRefused = false → ∀ e ∈ (s.symbolMap.found code.address).toList,
      s.nameOf e.2 ≠ code.symbol → ∀ p ∈ returned, p.1 ≠ e.2.symbolIdx) <| by
    simp only [Option.mem_toList]
    rfl

variable {s : RuntimeSymbols} {code : CodeSymbol} {returned : List (ℕ × List Char)}

variable {p : ℕ × List Char}

theorem Named.append {symbolTable : SymbolTable} (h : Named symbolTable p)
    (rest : SymbolTable) : Named (symbolTable ++ rest) p := by
  obtain ⟨entry, hentry, hname⟩ := Option.map_eq_some_iff.mp h
  unfold Named
  rw [List.getElem?_append_left (List.getElem?_eq_some_iff.mp hentry).1, hentry]
  exact congrArg some hname

theorem Named.getD {symbolTable : SymbolTable} (h : Named symbolTable p) :
    (symbolTable.getD p.1 {}).demangledName = p.2 := by
  obtain ⟨entry, hentry, hname⟩ := Option.map_eq_some_iff.mp h
  rw [List.getD_eq_getElem?_getD, hentry, Option.getD_some, hname]

theorem named_of_mem (hs : s.Sound) {e : ℕ × SymbolSpan} (he : e ∈ s.symbolMap) :
    Named s.symbolTable (e.2.symbolIdx, s.nameOf e.2) := by
  have hlt := hs.idx_lt e he
  simp [Named, nameOf, hlt]

theorem Insertion.named {s' : RuntimeSymbols} (hs : s.Sound) (h : Insertion s code s')
    (hnamed : Named s.symbolTable p)
    (hne : ∀ e, s.symbolMap.found code.address = some e → s.nameOf e.2 ≠ code.symbol →
      p.1 ≠ e.2.symbolIdx) : Named s'.symbolTable p := by
  cases h with
  | emplaced hnone hfresh => exact hnamed.append _
  | extended hfloor hend hname => exact hnamed
  | @replaced e hfloor hend hname =>
    have hfound := (SymbolMap.found_eq_some hs.proper).mpr ⟨hfloor, hend⟩
    unfold Named
    rw [List.getElem?_modify_ne _ _ (hne e hfound hname).symm]
    exact hnamed

theorem insertOrReplace_named (hs : s.Sound) (hspares : s.Spares returned code)
    (hp : p ∈ returned) (hnamed : Named s.symbolTable p) :
    Named (s.insertOrReplace code).1.symbolTable p := by
  cases hcode : code.isRefused with
  | true =>
    rw [insertOrReplace_of_refused hcode]
    exact hnamed
  | false =>
    obtain ⟨hins, -⟩ := insertOrReplace_spec hs.proper hcode
    exact hins.named hs hnamed fun e hfound hname => hspares hcode e hfound hname p hp

/-- The spans stay sound, and the names at these indices stay, while the symbols of a file are
inserted. -/
theorem load_named (hs : s.Sound) (codes : List CodeSymbol)
    (hspares : Run.Along step (Spares returned) s codes)
    (hnamed : ∀ p ∈ returned, Named s.symbolTable p) :
    ∀ p ∈ returned, Named (s.load codes).symbolTable p := by
  induction codes generalizing s with
  | nil => exact hnamed
  | cons code rest ih =>
    refine ih (insertOrReplace_sound hs code) (hspares.tail rfl) fun p hp => ?_
    exact insertOrReplace_named hs hspares.head hp (hnamed p hp)

/-- A longer table leaves the spans of another process sound. -/
theorem Sound.of_length_le {map : SymbolMap} {table table' : SymbolTable}
    (hs : Sound ⟨map, table⟩) (hle : table.length ≤ table'.length) : Sound ⟨map, table'⟩ where
  proper := hs.proper
  idx_lt := fun e he => (hs.idx_lt e he).trans_le hle
  idx_inj := hs.idx_inj

end RuntimeSymbols

/-! ### Histories -/

inductive RuntimeCall
  | getOrInsert (pid : ℤ) (pc : ℕ) (perfmap : Option (List (List Char)))
  | getOrInsertJitdump (pid : ℤ) (pc : ℕ) (jitdumpPath : List Char) (inRoot atPath : JitdumpRead)
  | erase (pid : ℤ)
  | cycle
  | pushBack (symbol : Symbol)

/-- The lookup and the table of `SymbolHdr`, with the indices that have been returned and the
names that their entries had at the time. -/
structure SymbolHdr where
  lookup : RuntimeSymbolLookup := {}
  symbolTable : SymbolTable := []
  returned : List (ℕ × List Char) := []

namespace SymbolHdr

open RuntimeSymbols (Named Spares)

/-- What a lookup has returned goes on record. -/
def record (s : SymbolHdr) (res : RuntimeSymbolLookup × SymbolTable × ℤ) : SymbolHdr where
  lookup := res.1
  symbolTable := res.2.1
  returned :=
    if res.2.2 = kSymbolIdxNull then s.returned
    else (res.2.2.toNat, (res.2.1.getD res.2.2.toNat {}).demangledName) :: s.returned

def step (s : SymbolHdr) : RuntimeCall → Option SymbolHdr
  | .getOrInsert pid pc perfmap =>
    some (s.record (s.lookup.getOrInsert pid pc s.symbolTable perfmap))
  | .getOrInsertJitdump pid pc jitdumpPath inRoot atPath =>
    some (s.record
      (s.lookup.getOrInsertJitdump pid pc s.symbolTable jitdumpPath inRoot atPath))
  | .erase pid => some { s with lookup := s.lookup.erase pid }
  | .cycle => some { s with lookup := s.lookup.cycle }
  | .pushBack symbol => some { s with symbolTable := s.symbolTable ++ [symbol] }

/-- Where the call reads a file: no symbol of the file takes the place of a span whose index has
been returned, under another name. -/
def SparesReturned (s : SymbolHdr) : RuntimeCall → Prop
  | .getOrInsert pid pc perfmap => s.lookup.refreshes pid pc "perfmap".toList = true →
      Run.Along RuntimeSymbols.step (Spares s.returned) (s.lookup.symbols pid s.symbolTable)
        (perfmapSymbols perfmap)
  | .getOrInsertJitdump pid pc jitdumpPath inRoot atPath =>
    s.lookup.refreshes pid pc jitdumpPath = true →
    Run.Along RuntimeSymbols.step (Spares s.returned) (s.lookup.symbols pid s.symbolTable)
      (jitdumpSymbols inRoot atPath)
  | _ => True

instance (s : SymbolHdr) (call : RuntimeCall) : Decidable (s.SparesReturned call) := by
  cases call <;> unfold SparesReturned <;> infer_instance

structure Inv (s : SymbolHdr) : Prop where
  sound : ∀ pid, (s.lookup.symbols pid s.symbolTable).Sound
  named : ∀ p ∈ s.returned, Named s.symbolTable p

variable {s s' : SymbolHdr}

theorem inv_init (symbolTable : SymbolTable) : Inv { symbolTable := symbolTable } where
  sound := fun _ => RuntimeSymbols.sound_empty symbolTable
  named := nofun

theorem Inv.record (h : s.Inv) {pid : ℤ} {pc : ℕ} {codes : List CodeSymbol}
    {res : RuntimeSymbolLookup × SymbolTable × ℤ}
    (hres : s.lookup.Answers pid pc ((s.lookup.symbols pid s.symbolTable).load codes) res)
    (hspares : Run.Along RuntimeSymbols.step (Spares s.returned)
      (s.lookup.symbols pid s.symbolTable) codes) : (s.record res).Inv := by
  have hsound := RuntimeSymbols.load_sound (h.sound pid) codes
  have htable : res.2.1 = ((s.lookup.symbols pid s.symbolTable).load codes).symbolTable :=
    congrArg RuntimeSymbols.symbolTable hres.symbols_eq
  have hlength : s.symbolTable.length ≤ res.2.1.length := by
    rw [htable]
    exact (RuntimeSymbols.load_grows (h.sound pid) codes).1
  have hnamed : ∀ p ∈ s.returned, Named res.2.1 p := by
    rw [htable]
    exact RuntimeSymbols.load_named (h.sound pid) codes hspares h.named
  constructor
  · intro pid'
    by_cases hpid : pid' = pid
    · rw [hpid]
      exact hres.symbols_eq ▸ hsound
    · have hmap := hres.other pid' hpid
      show RuntimeSymbols.Sound ⟨(res.1.pidMap.get pid').map, res.2.1⟩
      rw [hmap]
      exact (h.sound pid').of_length_le hlength
  · intro p hp
    unfold SymbolHdr.record at hp
    split_ifs at hp with hnull
    · exact hnamed p hp
    · rcases List.mem_cons.mp hp with rfl | hp
      · obtain ⟨e, hfound, hidx⟩ := hres.idx hnull
        have hmem := ((SymbolMap.found_eq_some hsound.proper).mp hfound).1.mem
        have hentry := RuntimeSymbols.named_of_mem hsound hmem
        rw [← htable] at hentry
        simp only [hidx, Int.toNat_natCast]
        rw [hentry.getD]
        exact hentry
      · exact hnamed p hp

theorem Inv.step (h : s.Inv) {call : RuntimeCall} (hspares : s.SparesReturned call)
    (hstep : s.step call = some s') : s'.Inv := by
  cases call with
  | getOrInsert pid pc perfmap =>
    obtain rfl := Option.some.inj hstep
    refine h.record (RuntimeSymbolLookup.getOrInsert_answers s.symbolTable perfmap) ?_
    split_ifs with hrefresh
    · exact hspares hrefresh
    · trivial
  | getOrInsertJitdump pid pc jitdumpPath inRoot atPath =>
    obtain rfl := Option.some.inj hstep
    refine h.record (RuntimeSymbolLookup.getOrInsertJitdump_answers s.symbolTable jitdumpPath
      inRoot atPath) ?_
    split_ifs with hrefresh
    · exact hspares hrefresh
    · trivial
  | erase pid =>
    obtain rfl := Option.some.inj hstep
    refine ⟨fun pid' => ?_, h.named⟩
    by_cases hpid : pid' = pid
    · simp only [RuntimeSymbolLookup.symbols, RuntimeSymbolLookup.erase, hpid,
        UnorderedMap.get_erase]
      exact RuntimeSymbols.sound_empty s.symbolTable
    · simp only [RuntimeSymbolLookup.symbols, RuntimeSymbolLookup.erase,
        UnorderedMap.get_erase_ne _ hpid]
      exact h.sound pid'
  | cycle =>
    obtain rfl := Option.some.inj hstep
    exact ⟨h.sound, h.named⟩
  | pushBack symbol =>
    obtain rfl := Option.some.inj hstep
    refine ⟨fun pid => (h.sound pid).of_length_le (by simp), fun p hp => ?_⟩
    exact (h.named p hp).append [symbol]

/-! ### Frames that are exported later -/

/-- The table as `process_symbolization` reads it. -/
def symbol (s : SymbolHdr) (idx : ℤ) : Symbol := s.symbolTable.getD idx.toNat {}

/-- The frame is written to the profile under this name, be it the last one of the stack or not,
if there is room. -/
def ExportedAs (env : SymbolEnv) (loc : FunLoc) (name : List Char) : Prop :=
  ∃ location : Location, location.functionName = name ∧
    ∀ (symbolizer : Symbolizer) (next : FunLoc) (rest : List FunLoc) (locations : Locations),
      locations.writeIndex < kMaxStackDepth →
      symbolizeFrames env symbolizer (loc :: next :: rest) locations =
          symbolizeFrames env symbolizer (next :: rest) (locations.push fun _ => location) ∧
        writeBinaryFrame env loc locations = locations.push fun _ => location

theorem exportedAs_symbol (env : SymbolEnv) (loc : FunLoc) (h : loc.symbolIdx ≠ kSymbolIdxNull) :
    ExportedAs env loc (env.symbol loc.symbolIdx).demangledName := by
  refine ⟨writeLocation loc (env.mapinfo loc.mapInfoIdx) (env.symbol loc.symbolIdx) {}, rfl, ?_⟩
  intro symbolizer next rest locations hroom
  constructor
  · rw [symbolizeFrames, if_pos hroom, if_pos h]
    rfl
  · rw [writeBinaryFrame, if_pos ⟨hroom, h⟩]
    rfl

/-- Along calls that read no file which puts another symbol in the place of a span whose index
has been returned, every index that has been returned keeps its name, and a stack that holds it is
exported under that name. -/
theorem returned_keep_names (symbolTable : SymbolTable) (calls : List RuntimeCall)
    (hspares : Run.Along step SparesReturned { symbolTable := symbolTable } calls) (s : SymbolHdr)
    (hrun : Run.steps step { symbolTable := symbolTable } calls = some s) :
    ∀ p ∈ s.returned, (s.symbol p.1).demangledName = p.2 ∧
      ∀ (env : SymbolEnv) (loc : FunLoc), env.symbol = s.symbol → loc.symbolIdx = p.1 →
        ExportedAs env loc p.2 := by
  have hinv : s.Inv := Run.steps_invariant (fun _ _ _ h hok hstep => h.step hok hstep)
    (inv_init symbolTable) hspares hrun
  intro p hp
  have hname : (s.symbol p.1).demangledName = p.2 := (hinv.named p hp).getD
  refine ⟨hname, fun env loc henv hloc => ?_⟩
  have hne : loc.symbolIdx ≠ kSymbolIdxNull := by
    unfold kSymbolIdxNull
    omega
  have hexport := exportedAs_symbol env loc hne
  rwa [henv, hloc, hname] at hexport

/-- The place of a function that no lookup has returned is taken by another one. -/
theorem returned_keep_names_unseen :
    let calls : List RuntimeCall :=
      [.getOrInsert 7 0x110 (some ["100 40 A\n".toList, "200 40 B\n".toList]),
        .getOrInsert 7 0x310
          (some ["100 40 A\n".toList, "200 40 C\n".toList, "300 40 D\n".toList])]
    ∃ s, Run.steps step {} calls = some s ∧
      s.returned = [(2, "D".toList), (0, "A".toList)] ∧
      ∀ p ∈ s.returned, (s.symbol p.1).demangledName = p.2 := by
  intro calls
  refine ⟨_, rfl, by decide +kernel, fun p hp => ?_⟩
  exact (returned_keep_names [] calls (by decide +kernel) _ rfl p hp).1

/-- A function that has been looked up is compiled again at its start, under another name. The
index that has been returned for it now has the new name. -/
theorem returned_renamed :
    let calls : List RuntimeCall :=
      [.getOrInsert 7 0x110 (some ["100 40 A\n".toList]),
        .getOrInsert 7 0x210 (some ["100 40 B\n".toList, "200 40 C\n".toList])]
    ∃ s, Run.steps step {} calls = some s ∧ (0, "A".toList) ∈ s.returned ∧
      (s.symbol 0).demangledName = "B".toList := by
  exact ⟨_, rfl, by decide +kernel, by decide +kernel⟩

end SymbolHdr

end Ddprof
