import Ddprof.Symbols.Symbolization

/-!
The locations of a stack without inlined functions.

Frames are symbolized in groups, but each frame leads to one location all the same: the stack and
its locations have the same addresses, in the same order. After them comes a mark if the stack is
not complete, and the base frame.
-/

namespace Ddprof

/-! ### Locations in order -/

variable {locations : Locations}

namespace Locations

def written (locations : Locations) : List Location :=
  (List.range locations.writeIndex).map locations.buff

/-- The locations have been written one after the other, each once. -/
def InOrder (locations : Locations) : Prop :=
  locations.writes = (List.range locations.writeIndex).reverse

theorem written_push (locations : Locations) (write : Location → Location) :
    (locations.push write).written =
      locations.written ++ [write (locations.buff locations.writeIndex)] := by
  have hold : ∀ i ∈ List.range locations.writeIndex,
      (locations.push write).buff i = locations.buff i := by
    intro i hi
    exact Function.update_of_ne (List.mem_range.mp hi).ne _ _
  rw [written, show (locations.push write).writeIndex = locations.writeIndex + 1 from rfl,
    List.range_succ, List.map_append, List.map_congr_left hold, List.map_singleton]
  exact congrArg (fun location => locations.written ++ [location]) (Function.update_self ..)

theorem InOrder.push (h : locations.InOrder)
    (write : Location → Location) : (locations.push write).InOrder := by
  show locations.writeIndex :: locations.writes = (List.range (locations.writeIndex + 1)).reverse
  rw [h, List.range_succ, List.reverse_append, List.reverse_singleton, List.singleton_append]

structure Emits (before after : Locations) (elfAddrs : List ℕ) : Prop where
  writeIndex : after.writeIndex = before.writeIndex + elfAddrs.length
  inOrder : before.InOrder → after.InOrder
  written : ∃ new, after.written = before.written ++ new ∧ new.map Location.address = elfAddrs

variable {before mid after : Locations} {elfAddrs elfAddrs' : List ℕ}

theorem Emits.refl (locations : Locations) : locations.Emits locations [] :=
  ⟨rfl, id, [], (List.append_nil _).symm, rfl⟩

theorem Emits.trans (h : before.Emits mid elfAddrs) (h' : mid.Emits after elfAddrs') :
    before.Emits after (elfAddrs ++ elfAddrs') := by
  obtain ⟨new, hwritten, haddrs⟩ := h.written
  obtain ⟨new', hwritten', haddrs'⟩ := h'.written
  refine ⟨?_, h'.inOrder ∘ h.inOrder, new ++ new', ?_, ?_⟩
  · rw [h'.writeIndex, h.writeIndex, List.length_append, Nat.add_assoc]
  · rw [hwritten', hwritten, List.append_assoc]
  · rw [List.map_append, haddrs, haddrs']

theorem emits_push (locations : Locations) (write : Location → Location) {elfAddr : ℕ}
    (haddr : ∀ location, (write location).address = elfAddr) :
    locations.Emits (locations.push write) [elfAddr] :=
  ⟨rfl, fun h => h.push write, _, locations.written_push write, by
    rw [List.map_singleton, haddr]⟩

end Locations

open Locations (Emits)

/-! ### Groups of frames -/

theorem emits_writeNoSymbols (mapinfo : MapInfo) (elfAddrs : List ℕ) (locations : Locations) :
    locations.Emits (writeNoSymbols mapinfo elfAddrs locations) elfAddrs := by
  induction elfAddrs generalizing locations with
  | nil => exact .refl locations
  | cons elfAddr elfAddrs ih =>
    have hpush : locations.Emits (locations.push (writeLocationNoSym elfAddr mapinfo))
        [elfAddr] := locations.emits_push _ fun _ => rfl
    exact hpush.trans (ih _)

section Symbols

variable (demangle : List Char → List Char) (mapinfo : MapInfo)

theorem emits_writeLocationBlaze {sym : BlazeSym} (hinlined : sym.inlinedCnt = 0) (elfAddr : ℕ)
    (locations : Locations) (hroom : locations.writeIndex < kMaxStackDepth) :
    ∃ after, writeLocationBlaze demangle elfAddr mapinfo sym locations = (after, .ok) ∧
      locations.Emits after [elfAddr] := by
  have hrounds : sym.inlinedRounds = 0 := by
    rw [BlazeSym.inlinedRounds, hinlined]
    decide
  rw [writeLocationBlaze, if_neg (not_le.mpr hroom), hrounds, writeInlined,
    if_neg (not_le.mpr hroom)]
  exact ⟨_, rfl, locations.emits_push _ fun _ => rfl⟩

theorem emits_writeSymbols {syms : List BlazeSym} {elfAddrs : List ℕ}
    (hlength : syms.length = elfAddrs.length) (hinlined : ∀ sym ∈ syms, sym.inlinedCnt = 0)
    (hroom : locations.writeIndex + elfAddrs.length ≤ kMaxStackDepth) :
    locations.Emits (writeSymbols demangle mapinfo syms elfAddrs locations).1 elfAddrs := by
  induction syms generalizing elfAddrs locations with
  | nil =>
    rw [List.eq_nil_of_length_eq_zero hlength.symm]
    exact .refl locations
  | cons sym syms ih =>
    obtain _ | ⟨elfAddr, elfAddrs⟩ := elfAddrs
    · cases hlength
    rw [List.length_cons] at hroom
    have hrest {mid : Locations} (hmid : locations.Emits mid [elfAddr]) :
        locations.Emits (writeSymbols demangle mapinfo syms elfAddrs mid).1
          (elfAddr :: elfAddrs) := by
      have hindex := hmid.writeIndex
      rw [List.length_singleton] at hindex
      exact hmid.trans (ih (Nat.succ.inj hlength)
        (fun sym hsym => hinlined sym (List.mem_cons_of_mem _ hsym)) (by omega))
    rw [writeSymbols]
    split_ifs with hzero
    · exact hrest (locations.emits_push _ fun _ => rfl)
    · obtain ⟨mid, hmid, hemits⟩ := emits_writeLocationBlaze demangle mapinfo
        (hinlined sym List.mem_cons_self) elfAddr locations (by omega)
      rw [hmid]
      exact hrest hemits

end Symbols

theorem collectFrames_append (fileId : FileInfoId) (locs : List FunLoc) :
    (collectFrames fileId locs).1 ++ (collectFrames fileId locs).2 = locs := by
  induction locs with
  | nil => rfl
  | cons loc rest ih =>
    rw [collectFrames]
    split_ifs
    · rfl
    · rw [List.cons_append, ih]
    · rfl

theorem collectFrames_rest_ne_nil {loc base : FunLoc} {rest : List FunLoc}
    (hloc : loc.symbolIdx = kSymbolIdxNull) (hlast : (loc :: rest).getLast? = some base)
    (hbase : base.symbolIdx ≠ kSymbolIdxNull) (fileId : FileInfoId) :
    (collectFrames fileId (loc :: rest)).2 ≠ [] := by
  induction rest generalizing loc with
  | nil =>
    cases hlast
    exact absurd hloc hbase
  | cons next rest ih =>
    rw [collectFrames]
    split_ifs with hfile hnext
    · exact List.cons_ne_nil _ _
    · refine ih ?_ (by rwa [List.getLast?_cons_cons] at hlast)
      by_contra hsymbolized
      exact hnext (by simpa using hsymbolized)
    · exact List.cons_ne_nil _ _

/-! ### Stacks -/

/-- The symbolizer library returns a symbol for each address that it is asked for. -/
def AnswersEach (env : SymbolEnv) (symbolizer : Symbolizer) (locs : List FunLoc) : Prop :=
  match locs with
  | loc :: next :: rest =>
    if loc.symbolIdx ≠ kSymbolIdxNull then AnswersEach env symbolizer (next :: rest)
    else if loc.fileInfoId ≤ kFileInfoError then AnswersEach env symbolizer (next :: rest)
    else
      let group := collectFrames loc.fileInfoId (loc :: next :: rest)
      let result := symbolizer.blazeResult env loc.fileInfoId (env.path loc.fileInfoId)
      (∀ syms ∈ result.2, syms.length = group.1.length) ∧ AnswersEach env result.1 group.2
  | _ => True
termination_by locs.length
decreasing_by
  · exact Nat.lt_succ_self _
  · exact Nat.lt_succ_self _
  · exact length_collectFrames_lt loc (next :: rest)

/-- The symbolizer library is not asked, or returns no inlined functions. -/
def NoInlined (env : SymbolEnv) (symbolizer : Symbolizer) : Prop :=
  symbolizer.disableSymbolization = true ∨
    ∀ n, ∀ syms ∈ env.blaze n, ∀ sym ∈ syms, sym.inlinedCnt = 0

/-- The last frame is symbolized, and the others are or have a file with a path. -/
structure Symbolizable (env : SymbolEnv) (locs : List FunLoc) : Prop where
  last : ∃ base, locs.getLast? = some base ∧ base.symbolIdx ≠ kSymbolIdxNull
  file : ∀ loc ∈ locs, loc.symbolIdx = kSymbolIdxNull →
    kFileInfoError < loc.fileInfoId ∧ env.path loc.fileInfoId ≠ []

variable {env : SymbolEnv}

theorem Symbolizable.of_append (group : List FunLoc) {rest : List FunLoc}
    (h : Symbolizable env (group ++ rest)) (hrest : rest ≠ []) : Symbolizable env rest := by
  obtain ⟨base, hlast, hbase⟩ := h.last
  rw [List.getLast?_append_of_ne_nil _ hrest] at hlast
  exact ⟨⟨base, hlast, hbase⟩, fun loc hmem => h.file loc (List.mem_append_right _ hmem)⟩

namespace NoInlined

variable {env : SymbolEnv} {symbolizer : Symbolizer} (h : NoInlined env symbolizer)
include h

theorem of_mem_blazeResult {fileId : FileInfoId} {elfSrc : List Char} {syms : List BlazeSym}
    (hsyms : syms ∈ (symbolizer.blazeResult env fileId elfSrc).2) :
    ∀ sym ∈ syms, sym.inlinedCnt = 0 := by
  rw [Symbolizer.blazeResult] at hsyms
  dsimp only at hsyms
  split_ifs at hsyms with hdisabled
  · cases hsyms
  · exact h.resolve_left hdisabled _ syms hsyms
  · exact h.resolve_left hdisabled _ syms hsyms

theorem blazeResult (fileId : FileInfoId) (elfSrc : List Char) :
    NoInlined env (symbolizer.blazeResult env fileId elfSrc).1 := by
  rw [Symbolizer.blazeResult]
  dsimp only
  split_ifs
  · exact h
  · exact h
  · exact h

end NoInlined

theorem emits_symbolizePprof {symbolizer : Symbolizer}
    (hinlined : NoInlined env symbolizer) (elfAddrs : List ℕ) (haddrs : elfAddrs ≠ [])
    {fileId : FileInfoId} {elfSrc : List Char}
    (hsrc : elfSrc ≠ []) (mapinfo : MapInfo) (locations : Locations)
    (hanswers : ∀ syms ∈ (symbolizer.blazeResult env fileId elfSrc).2,
      syms.length = elfAddrs.length)
    (hroom : locations.writeIndex + elfAddrs.length ≤ kMaxStackDepth) :
    ∃ after, symbolizer.symbolizePprof env elfAddrs fileId elfSrc mapinfo locations =
        ((symbolizer.blazeResult env fileId elfSrc).1, after, .ok) ∧
      locations.Emits after elfAddrs := by
  have hblaze : ∀ syms ∈ (symbolizer.blazeResult env fileId elfSrc).2,
      ∀ sym ∈ syms, sym.inlinedCnt = 0 := fun _ => hinlined.of_mem_blazeResult
  rw [Symbolizer.symbolizePprof, if_neg (not_or.mpr ⟨haddrs, hsrc⟩)]
  generalize symbolizer.blazeResult env fileId elfSrc = result at hanswers hblaze
  obtain ⟨symbolizer', _ | syms⟩ := result
  · exact ⟨_, rfl, emits_writeNoSymbols mapinfo elfAddrs locations⟩
  · have hok := writeSymbols_ok env.demangle mapinfo syms elfAddrs locations
    refine ⟨_, ?_, emits_writeSymbols env.demangle mapinfo (hanswers syms rfl) (hblaze syms rfl)
      hroom⟩
    rw [← hok]

/-- The loop over the frames writes a location for each frame but the last. -/
theorem emits_symbolizeFrames (symbolizer : Symbolizer) (locs : List FunLoc)
    (locations : Locations) (hinlined : NoInlined env symbolizer)
    (hlocs : Symbolizable env locs) (hanswers : AnswersEach env symbolizer locs)
    (hroom : locations.writeIndex + locs.length ≤ kMaxStackDepth) :
    locations.Emits (symbolizeFrames env symbolizer locs locations).2.1
      (locs.dropLast.map FunLoc.elfAddr) := by
  fun_induction symbolizeFrames env symbolizer locs locations with
  | case1 symbolizer locations loc next rest hlt hsymbolized ih =>
    rw [AnswersEach, if_pos hsymbolized] at hanswers
    have hpush : locations.Emits _ [loc.elfAddr] := locations.emits_push
      (writeLocation loc (env.mapinfo loc.mapInfoIdx) (env.symbol loc.symbolIdx)) fun _ => rfl
    rw [List.length_cons] at hroom
    refine hpush.trans (ih hinlined (hlocs.of_append [loc] (List.cons_ne_nil _ _)) hanswers ?_)
    rw [hpush.writeIndex, List.length_singleton]
    omega
  | case2 symbolizer locations loc next rest hlt hsymbolized herror ih =>
    have hfile := (hlocs.file loc List.mem_cons_self (not_not.mp hsymbolized)).1
    exact absurd herror (not_le.mpr hfile)
  | case3 symbolizer locations loc next rest hlt hsymbolized herror symbolizer' locations' heq ih =>
    rw [AnswersEach, if_neg hsymbolized, if_neg herror] at hanswers
    have hnull := not_not.mp hsymbolized
    obtain ⟨base, hlast, hbase⟩ := hlocs.last
    have happend := collectFrames_append loc.fileInfoId (loc :: next :: rest)
    have hrest := collectFrames_rest_ne_nil hnull hlast hbase loc.fileInfoId
    have hgroup := collectFrames_ne_nil loc (next :: rest)
    generalize collectFrames loc.fileInfoId (loc :: next :: rest) = group at *
    have hlength := congrArg List.length happend
    rw [List.length_append] at hlength
    obtain ⟨after, hpprof, hemits⟩ := emits_symbolizePprof hinlined
      (group.1.map FunLoc.elfAddr) (mt List.map_eq_nil_iff.mp hgroup)
      (hlocs.file loc List.mem_cons_self hnull).2 (env.mapinfo loc.mapInfoIdx) locations
      (fun syms hsyms => (hanswers.1 syms hsyms).trans (List.length_map _).symm)
      (by rw [List.length_map]; omega)
    obtain ⟨rfl, hsame⟩ := Prod.mk.inj (hpprof.symm.trans heq)
    obtain ⟨rfl, -⟩ := Prod.mk.inj hsame
    rw [← happend] at hlocs
    rw [← happend, List.dropLast_append_of_ne_nil hrest, List.map_append]
    refine hemits.trans (ih (hinlined.blazeResult _ _) (hlocs.of_append _ hrest) hanswers.2 ?_)
    rw [hemits.writeIndex, List.length_map]
    omega
  | case4 symbolizer locations loc next rest hlt hsymbolized herror symbolizer' locations' res hres
      heq =>
      -- there is a path, so that a group is always symbolized
      have hpath := (hlocs.file loc List.mem_cons_self (not_not.mp hsymbolized)).2
      obtain ⟨after, hpprof, -, -⟩ := symbolizePprof_group
        (mt List.map_eq_nil_iff.mp (collectFrames_ne_nil loc (next :: rest))) hpath
        loc.fileInfoId (env.mapinfo loc.mapInfoIdx) locations
      cases hpprof.symm.trans heq
      exact absurd rfl hres
  | case5 symbolizer locations loc next rest hfull =>
    rw [List.length_cons, List.length_cons] at hroom
    omega
  | case6 symbolizer locs locations hshort =>
    rcases locs with _ | ⟨loc, _ | ⟨next, rest⟩⟩
    · exact .refl locations
    · exact .refl locations
    · exact absurd rfl (hshort loc next rest)

/-- The location that marks a stack as incomplete. -/
def incompleteLocation : Location where
  functionName := incompleteStack

/-- The mark is written only if there is room for the base frame after it. -/
theorem writeIncompleteFrame_spec (h : locations.InOrder)
    (hroom : locations.writeIndex < kMaxStackDepth) :
    ∃ marks, (marks = [] ∨ marks = [incompleteLocation]) ∧
      (writeIncompleteFrame locations).written = locations.written ++ marks ∧
      (writeIncompleteFrame locations).writeIndex < kMaxStackDepth ∧
      (writeIncompleteFrame locations).InOrder := by
  rw [writeIncompleteFrame]
  split_ifs with hmark
  · refine ⟨[incompleteLocation], .inr rfl, locations.written_push _, ?_, h.push _⟩
    have hlt := hmark.1
    show locations.writeIndex + 1 < kMaxStackDepth
    omega
  · exact ⟨[], .inl rfl, (List.append_nil _).symm, hroom, h⟩

theorem writeBinaryFrame_spec (env : SymbolEnv) {base : FunLoc}
    (h : locations.InOrder) (hroom : locations.writeIndex < kMaxStackDepth)
    (hbase : base.symbolIdx ≠ kSymbolIdxNull) :
    (writeBinaryFrame env base locations).written = locations.written ++
        [writeLocation base (env.mapinfo base.mapInfoIdx) (env.symbol base.symbolIdx) {}] ∧
      (writeBinaryFrame env base locations).InOrder := by
  rw [writeBinaryFrame, if_pos ⟨hroom, hbase⟩, Locations.written_push]
  exact ⟨rfl, h.push _⟩

/-- Without inlined functions, there is one location for each frame in the order of the stack, then
at most one that marks the stack as incomplete, then the one of the base frame, and no other. -/
theorem processSymbolization_oneToOne {env : SymbolEnv} {symbolizer : Symbolizer}
    (hinlined : NoInlined env symbolizer) {frames : List FunLoc} {base : FunLoc}
    (hanswers : AnswersEach env symbolizer (frames ++ [base]))
    (hlength : (frames ++ [base]).length ≤ kMaxStackDepth)
    (hbase : base.symbolIdx ≠ kSymbolIdxNull)
    (hframes : ∀ loc ∈ frames, loc.symbolIdx = kSymbolIdxNull →
      kFileInfoError < loc.fileInfoId ∧ env.path loc.fileInfoId ≠ []) (buff : ℕ → Location) :
    ∃ symbolizer' locations body marks,
      processSymbolization env symbolizer (frames ++ [base]) { buff := buff } =
        some (symbolizer', locations, .ok) ∧
      locations.written = body ++ marks ++
        [writeLocation base (env.mapinfo base.mapInfoIdx) (env.symbol base.symbolIdx) {}] ∧
      body.map Location.address = frames.map FunLoc.elfAddr ∧
      (marks = [] ∨ marks = [incompleteLocation]) ∧ locations.InOrder := by
  have hlast : (frames ++ [base]).getLast? = some base := List.getLast?_concat
  have hlocs : Symbolizable env (frames ++ [base]) := by
    refine ⟨⟨base, hlast, hbase⟩, fun loc hmem hnull => ?_⟩
    rcases List.mem_append.mp hmem with hmem | hmem
    · exact hframes loc hmem hnull
    · rw [List.mem_singleton.mp hmem] at hnull
      exact absurd hnull hbase
  have hemits := emits_symbolizeFrames symbolizer _ { buff := buff } hinlined hlocs hanswers
    (by simpa using hlength)
  rw [List.dropLast_concat] at hemits
  rw [processSymbolization_eq hlast]
  generalize symbolizeFrames env symbolizer (frames ++ [base]) { buff := buff } = res at hemits
  obtain ⟨body, hwritten, haddrs⟩ := hemits.written
  rw [show Locations.written { buff := buff } = [] from rfl, List.nil_append] at hwritten
  have hindex : res.2.1.writeIndex < kMaxStackDepth := by
    have hcount := hemits.writeIndex
    rw [List.length_map] at hcount
    rw [List.length_append, List.length_singleton] at hlength
    simp only at hcount
    omega
  obtain ⟨marks, hmarks, hmarked, hroom, horder⟩ :=
    writeIncompleteFrame_spec (hemits.inOrder rfl) hindex
  obtain ⟨hdone, hdoneOrder⟩ := writeBinaryFrame_spec env horder hroom hbase
  rw [hmarked, hwritten] at hdone
  exact ⟨_, _, body, marks, rfl, hdone, haddrs, hmarks, hdoneOrder⟩

def twoSymbols : SymbolEnv where
  path _ := ['a']
  blaze _ := some [{ addr := 4096 }, { addr := 0 }]

/-- Two frames of one file, and the one of the binary. -/
theorem processSymbolization_twoSymbols :
    ∃ symbolizer' locations body marks,
      processSymbolization twoSymbols {} ([rawFrame 4112, rawFrame 32] ++ [⟨0, 0, -1, 0, 0⟩])
          { buff := fun _ => {} } = some (symbolizer', locations, .ok) ∧
        locations.written = body ++ marks ++ [writeLocation ⟨0, 0, -1, 0, 0⟩ {} {} {}] ∧
        body.map Location.address = [4112, 32] ∧
        (marks = [] ∨ marks = [incompleteLocation]) ∧ locations.InOrder := by
  have hgroup : collectFrames 2 [rawFrame 4112, rawFrame 32, ⟨0, 0, -1, 0, 0⟩] =
      ([rawFrame 4112, rawFrame 32], [⟨0, 0, -1, 0, 0⟩]) := by decide
  have hinlined : NoInlined twoSymbols {} := by
    refine .inr fun n syms hsyms sym hsym => ?_
    cases hsyms
    revert sym
    decide
  have hanswers : AnswersEach twoSymbols {}
      ([rawFrame 4112, rawFrame 32] ++ [⟨0, 0, -1, 0, 0⟩]) := by
    rw [List.cons_append, List.cons_append, List.nil_append, AnswersEach, if_neg (by decide),
      if_neg (by decide)]
    simp only [show (rawFrame 4112).fileInfoId = 2 from rfl, hgroup]
    refine ⟨fun syms hsyms => ?_, ?_⟩
    · cases hsyms
      rfl
    · rw [AnswersEach]
      · trivial
      · rintro _ _ _ ⟨⟩
  exact processSymbolization_oneToOne hinlined hanswers (by decide) (by decide)
    (fun loc hmem _ => ⟨by revert loc; decide, List.cons_ne_nil _ _⟩) _

end Ddprof
