import Ddprof.Symbols.StackLocations

/-!
The mappings of the locations of a stack.

A frame refers to the description of the mapping that its pc is in. Frames that are symbolized
together are all written with the description of the first of them, since `symbolize_pprof` is given
one description for the group. So a frame has the mapping of another one when consecutive frames
are in different mappings of one file.

The locations of a frame are those that are written in the round of the loop that is about it. They
are paired with the frame here, which the program does not do.
-/

namespace Ddprof

def MapInfo.SameRegion (m m' : MapInfo) : Prop :=
  m.lowAddr = m'.lowAddr ∧ m.highAddr = m'.highAddr ∧ m.offset = m'.offset ∧ m.buildId = m'.buildId

instance (m m' : MapInfo) : Decidable (m.SameRegion m') := inferInstanceAs (Decidable (_ ∧ _))

theorem MapInfo.SameRegion.refl (m : MapInfo) : m.SameRegion m := ⟨rfl, rfl, rfl, rfl⟩

namespace Locations

def since (before after : Locations) : List Location := after.written.drop before.writeIndex

/-- `n` locations have been written since, with the mapping. -/
structure Maps (before after : Locations) (m : MapInfo) (n : ℕ) : Prop where
  writeIndex : after.writeIndex = before.writeIndex + n
  written : ∃ new, after.written = before.written ++ new ∧ ∀ location ∈ new, location.mapping = m

variable {before mid after locations : Locations} {m : MapInfo} {n n' : ℕ}

@[simp] theorem length_written (locations : Locations) :
    locations.written.length = locations.writeIndex := by
  rw [written, List.length_map, List.length_range]

theorem Maps.refl (locations : Locations) (m : MapInfo) : locations.Maps locations m 0 :=
  ⟨rfl, [], (List.append_nil _).symm, nofun⟩

theorem Maps.trans (h : before.Maps mid m n) (h' : mid.Maps after m n') :
    before.Maps after m (n + n') := by
  obtain ⟨new, hwritten, hnew⟩ := h.written
  obtain ⟨new', hwritten', hnew'⟩ := h'.written
  refine ⟨?_, new ++ new', ?_, fun location hmem => ?_⟩
  · rw [h'.writeIndex, h.writeIndex, Nat.add_assoc]
  · rw [hwritten', hwritten, List.append_assoc]
  · exact (List.mem_append.mp hmem).elim (hnew location) (hnew' location)

theorem maps_push (locations : Locations) (write : Location → Location)
    (hwrite : ∀ location, (write location).mapping = m) :
    locations.Maps (locations.push write) m 1 :=
  ⟨rfl, _, locations.written_push write, fun location hmem => by
    rw [List.mem_singleton.mp hmem, hwrite]⟩

theorem Maps.written_eq (h : before.Maps after m n) :
    after.written = before.written ++ before.since after := by
  obtain ⟨new, hwritten, -⟩ := h.written
  rw [since, hwritten, List.drop_left' before.length_written]

/-- What holds of the mapping of each new location holds of the mapping, if there is any. -/
theorem Maps.forall_since_iff (h : before.Maps after m n) (P : MapInfo → Prop) :
    (∀ location ∈ before.since after, P location.mapping) ↔ (0 < n → P m) := by
  obtain ⟨new, hwritten, hnew⟩ := h.written
  have hsince : before.since after = new := by
    rw [since, hwritten, List.drop_left' before.length_written]
  have hlength : new.length = n := by
    have hsum := congrArg List.length hwritten
    rw [List.length_append, length_written, length_written, h.writeIndex] at hsum
    omega
  rw [hsince, ← hlength]
  constructor
  · intro hall hpos
    obtain ⟨location, hmem⟩ := List.exists_mem_of_length_pos hpos
    exact hnew location hmem ▸ hall location hmem
  · intro hm location hmem
    rw [hnew location hmem]
    exact hm (List.length_pos_of_mem hmem)

/-- Both are the same as far as there is room. -/
def Level (locations : Locations) (w : ℕ) : Prop :=
  min kMaxStackDepth locations.writeIndex = min kMaxStackDepth w

theorem Level.lt_iff {w : ℕ} (h : locations.Level w) :
    locations.writeIndex < kMaxStackDepth ↔ w < kMaxStackDepth := by
  rw [Level] at h
  omega

end Locations

open Locations (Maps Level)

/-! ### Groups of frames -/

section Groups

variable (demangle : List Char → List Char) (mapinfo : MapInfo)

/-- A round of the loop over the symbols of a group. -/
def writeSymbol (sym : BlazeSym) (elfAddr : ℕ) (locations : Locations) : Locations :=
  if sym.addr = 0 then locations.push (writeLocationNoSym elfAddr mapinfo)
  else (writeLocationBlaze demangle elfAddr mapinfo sym locations).1

/-- How many locations are written for a slot from a write index on. -/
def FrameSlot.count : FrameSlot → ℕ → ℕ
  | bare, _ => 1
  | named inlined, writeIndex => min (inlined + 1) (kMaxStackDepth - writeIndex)

theorem maps_writeInlined (elfAddr : ℕ) (sym : BlazeSym) (rounds : ℕ) (locations : Locations) :
    locations.Maps (writeInlined demangle elfAddr mapinfo sym rounds locations) mapinfo
      (min rounds (kMaxStackDepth - locations.writeIndex)) := by
  induction rounds generalizing locations with
  | zero =>
    rw [Nat.zero_min]
    exact .refl locations mapinfo
  | succ rounds ih =>
    rw [writeInlined]
    split_ifs with hroom
    · have hpush := locations.maps_push (m := mapinfo) (writeBlazeFunction demangle elfAddr
        mapinfo (sym.inlined rounds).name (sym.inlined rounds).codeInfo) fun _ => rfl
      have hall := hpush.trans (ih _)
      rwa [hpush.writeIndex, show 1 + min rounds (kMaxStackDepth - (locations.writeIndex + 1)) =
        min (rounds + 1) (kMaxStackDepth - locations.writeIndex) by omega] at hall
    · rw [show min (rounds + 1) (kMaxStackDepth - locations.writeIndex) = 0 by omega]
      exact .refl locations mapinfo

theorem maps_writeLocationBlaze (elfAddr : ℕ) (sym : BlazeSym) (locations : Locations) :
    locations.Maps (writeLocationBlaze demangle elfAddr mapinfo sym locations).1 mapinfo
      (min (sym.inlinedRounds + 1) (kMaxStackDepth - locations.writeIndex)) := by
  have hinlined := maps_writeInlined demangle mapinfo elfAddr sym sym.inlinedRounds locations
  rw [writeLocationBlaze]
  dsimp only
  split_ifs with hfull hfull'
  · rw [show min (sym.inlinedRounds + 1) (kMaxStackDepth - locations.writeIndex) = 0 by omega]
    exact .refl locations mapinfo
  · rw [hinlined.writeIndex] at hfull'
    rwa [show min (sym.inlinedRounds + 1) (kMaxStackDepth - locations.writeIndex) =
      min sym.inlinedRounds (kMaxStackDepth - locations.writeIndex) by omega]
  · have hpush := Locations.maps_push (m := mapinfo)
      (writeInlined demangle elfAddr mapinfo sym sym.inlinedRounds locations)
      (writeBlazeFunction demangle elfAddr mapinfo sym.name sym.codeInfo) fun _ => rfl
    rw [hinlined.writeIndex] at hfull'
    have hall := hinlined.trans hpush
    rwa [show min sym.inlinedRounds (kMaxStackDepth - locations.writeIndex) + 1 =
      min (sym.inlinedRounds + 1) (kMaxStackDepth - locations.writeIndex) by omega] at hall

theorem maps_writeSymbol (sym : BlazeSym) (elfAddr : ℕ) (locations : Locations) :
    locations.Maps (writeSymbol demangle mapinfo sym elfAddr locations) mapinfo
      (sym.slot.count locations.writeIndex) := by
  rw [writeSymbol, BlazeSym.slot]
  split_ifs
  · exact locations.maps_push _ fun _ => rfl
  · exact maps_writeLocationBlaze demangle mapinfo elfAddr sym locations

theorem Locations.Level.add_count {locations after : Locations} {m : MapInfo} {w : ℕ}
    {slot : FrameSlot} (h : locations.Level w)
    (hmaps : locations.Maps after m (slot.count locations.writeIndex)) :
    after.Level (w + slot.width) := by
  have hindex := hmaps.writeIndex
  rw [Locations.Level] at h ⊢
  cases slot with
  | bare =>
    rw [FrameSlot.count] at hindex
    rw [FrameSlot.width]
    omega
  | named inlined =>
    rw [FrameSlot.count] at hindex
    rw [FrameSlot.width]
    omega

/-- The locations of the frames of a group, each with its frame. -/
def groupLocations : List BlazeSym → List FunLoc → Locations → List (FunLoc × Location)
  | sym :: syms, loc :: locs, locations =>
    let after := writeSymbol demangle mapinfo sym loc.elfAddr locations
    (locations.since after).map (Prod.mk loc) ++ groupLocations syms locs after
  | _, _, _ => []

theorem written_writeSymbols (syms : List BlazeSym) (locs : List FunLoc) (locations : Locations) :
    (writeSymbols demangle mapinfo syms (locs.map FunLoc.elfAddr) locations).1.written =
      locations.written ++ (groupLocations demangle mapinfo syms locs locations).map Prod.snd := by
  induction syms generalizing locs locations with
  | nil => simp [writeSymbols, groupLocations]
  | cons sym syms ih =>
    cases locs with
    | nil => simp [writeSymbols, groupLocations]
    | cons loc locs =>
      have hround := (maps_writeSymbol demangle mapinfo sym loc.elfAddr locations).written_eq
      rw [List.map_cons, writeSymbols_cons, groupLocations]
      show (writeSymbols demangle mapinfo syms (locs.map FunLoc.elfAddr)
        (writeSymbol demangle mapinfo sym loc.elfAddr locations)).1.written = _
      rw [ih, hround, List.map_append, List.map_map, List.append_assoc]
      simp

end Groups

/-- The frames of a group that are written are in the same region as the first of them. -/
def GroupShares (env : SymbolEnv) (mapinfo : MapInfo) : ℕ → List FunLoc → List FrameSlot → Prop
  | w, loc :: locs, .bare :: slots =>
    mapinfo.SameRegion (env.mapinfo loc.mapInfoIdx) ∧ GroupShares env mapinfo (w + 1) locs slots
  | w, loc :: locs, .named inlined :: slots =>
    (w < kMaxStackDepth → mapinfo.SameRegion (env.mapinfo loc.mapInfoIdx)) ∧
      GroupShares env mapinfo (w + (inlined + 1)) locs slots
  | _, _, _ => True

/-- The location has the mapping of the frame that it is paired with. -/
def OwnMapping (env : SymbolEnv) (e : FunLoc × Location) : Prop :=
  e.2.mapping.SameRegion (env.mapinfo e.1.mapInfoIdx)

variable {locations : Locations}

theorem groupLocations_ownMapping_iff (env : SymbolEnv) (mapinfo : MapInfo) (syms : List BlazeSym)
    (locs : List FunLoc) {w : ℕ} (hlevel : locations.Level w) :
    (∀ e ∈ groupLocations env.demangle mapinfo syms locs locations, OwnMapping env e) ↔
      GroupShares env mapinfo w locs
        (List.zipWith (fun sym _ => sym.slot) syms (locs.map FunLoc.elfAddr)) := by
  induction syms generalizing locs locations w with
  | nil => simp [groupLocations, GroupShares]
  | cons sym syms ih =>
    cases locs with
    | nil => simp [groupLocations, GroupShares]
    | cons loc locs =>
      have hmaps := maps_writeSymbol env.demangle mapinfo sym loc.elfAddr locations
      have hround := hmaps.forall_since_iff
        (MapInfo.SameRegion · (env.mapinfo loc.mapInfoIdx))
      have hrest := ih locs (hlevel.add_count hmaps)
      rw [groupLocations, List.map_cons, List.zipWith_cons_cons]
      simp only [List.forall_mem_append, List.forall_mem_map, OwnMapping] at hrest ⊢
      rw [hround, hrest]
      cases hslot : sym.slot with
      | bare =>
        rw [GroupShares, FrameSlot.count, FrameSlot.width]
        simp
      | named inlined =>
        have hpos : 0 < min (inlined + 1) (kMaxStackDepth - locations.writeIndex) ↔
            w < kMaxStackDepth := by
          rw [← hlevel.lt_iff]
          omega
        rw [GroupShares, FrameSlot.count, FrameSlot.width, hpos]

theorem Locations.Level.writeSymbols {w : ℕ} (h : locations.Level w)
    (demangle : List Char → List Char) (mapinfo : MapInfo) (syms : List BlazeSym)
    (elfAddrs : List ℕ) :
    (writeSymbols demangle mapinfo syms elfAddrs locations).1.Level (w +
      ((List.zipWith (fun sym _ => sym.slot) syms elfAddrs).map FrameSlot.width).sum) := by
  induction syms generalizing elfAddrs locations w with
  | nil => simpa [Ddprof.writeSymbols] using h
  | cons sym syms ih =>
    cases elfAddrs with
    | nil => simpa [Ddprof.writeSymbols] using h
    | cons elfAddr elfAddrs =>
      rw [writeSymbols_cons, List.zipWith_cons_cons, List.map_cons, List.sum_cons,
        ← Nat.add_assoc]
      exact ih (h.add_count (maps_writeSymbol demangle mapinfo sym elfAddr locations)) elfAddrs

/-! ### Stacks -/

/-- The symbols that a group is written from. Without a result, it is written as if no address had
a symbol. -/
def answers (elfAddrs : List ℕ) : Option (List BlazeSym) → List BlazeSym
  | some syms => syms
  | none => elfAddrs.map fun _ => { addr := 0 }

theorem resultSlots_eq (elfAddrs : List ℕ) (result : Option (List BlazeSym)) :
    resultSlots elfAddrs result =
      List.zipWith (fun sym _ => sym.slot) (answers elfAddrs result) elfAddrs := by
  cases result with
  | some syms => rfl
  | none =>
    rw [resultSlots, answers]
    induction elfAddrs with
    | nil => rfl
    | cons elfAddr elfAddrs ih =>
      rw [List.map_cons, List.map_cons, List.zipWith_cons_cons, ih]
      rfl

theorem symbolizePprof_eq {env : SymbolEnv} {symbolizer : Symbolizer} {elfAddrs : List ℕ}
    (haddrs : elfAddrs ≠ []) {elfSrc : List Char} (hsrc : elfSrc ≠ []) (fileId : FileInfoId)
    (mapinfo : MapInfo) (locations : Locations) :
    symbolizer.symbolizePprof env elfAddrs fileId elfSrc mapinfo locations =
      ((symbolizer.blazeResult env fileId elfSrc).1,
        (writeSymbols env.demangle mapinfo
          (answers elfAddrs (symbolizer.blazeResult env fileId elfSrc).2) elfAddrs locations).1,
        .ok) := by
  rw [Symbolizer.symbolizePprof, if_neg (not_or.mpr ⟨haddrs, hsrc⟩)]
  generalize symbolizer.blazeResult env fileId elfSrc = result
  obtain ⟨symbolizer', _ | syms⟩ := result
  · have hsame : writeNoSymbols mapinfo elfAddrs locations = (writeSymbols env.demangle mapinfo
        (answers elfAddrs none) elfAddrs locations).1 := by
      clear haddrs
      induction elfAddrs generalizing locations with
      | nil => rfl
      | cons elfAddr elfAddrs ih =>
        rw [writeNoSymbols, ih]
        rfl
    exact congrArg (fun after => (symbolizer', after, Severity.ok)) hsame
  · exact congrArg (Prod.mk symbolizer') (Prod.ext rfl (writeSymbols_ok ..))

section Stacks

variable (env : SymbolEnv)

/-- The locations that the loop over the frames writes, each with its frame. -/
def loopLocations (symbolizer : Symbolizer) (locs : List FunLoc) (locations : Locations) :
    List (FunLoc × Location) :=
  match locs with
  | loc :: next :: rest =>
    if locations.writeIndex < kMaxStackDepth then
      if loc.symbolIdx ≠ kSymbolIdxNull then
        let after := locations.push
          (writeLocation loc (env.mapinfo loc.mapInfoIdx) (env.symbol loc.symbolIdx))
        (locations.since after).map (Prod.mk loc) ++ loopLocations symbolizer (next :: rest) after
      else if loc.fileInfoId ≤ kFileInfoError then
        loopLocations symbolizer (next :: rest) locations
      else if env.path loc.fileInfoId = [] then []
      else
        let group := collectFrames loc.fileInfoId (loc :: next :: rest)
        let elfAddrs := group.1.map FunLoc.elfAddr
        let result := symbolizer.blazeResult env loc.fileInfoId (env.path loc.fileInfoId)
        let syms := answers elfAddrs result.2
        let mapinfo := env.mapinfo loc.mapInfoIdx
        groupLocations env.demangle mapinfo syms group.1 locations ++
          loopLocations result.1 group.2
            (writeSymbols env.demangle mapinfo syms elfAddrs locations).1
    else []
  | _ => []
termination_by locs.length
decreasing_by
  · exact Nat.lt_succ_self _
  · exact Nat.lt_succ_self _
  · exact length_collectFrames_lt loc (next :: rest)

def lastLocations (symbolizer : Symbolizer) (locs : List FunLoc) (locations : Locations) :
    List (FunLoc × Location) :=
  match locs.getLast? with
  | none => []
  | some last =>
    let before := writeIncompleteFrame (symbolizeFrames env symbolizer locs locations).2.1
    (before.since (writeBinaryFrame env last before)).map (Prod.mk last)

/-- In each group of frames, those that are written are in the same region as the first. `w` counts
the locations up to here. -/
def GroupsShare (symbolizer : Symbolizer) (locs : List FunLoc) (w : ℕ) : Prop :=
  match locs with
  | loc :: next :: rest =>
    w < kMaxStackDepth →
      if loc.symbolIdx ≠ kSymbolIdxNull then GroupsShare symbolizer (next :: rest) (w + 1)
      else if loc.fileInfoId ≤ kFileInfoError then GroupsShare symbolizer (next :: rest) w
      else if env.path loc.fileInfoId = [] then True
      else
        let group := collectFrames loc.fileInfoId (loc :: next :: rest)
        let result := symbolizer.blazeResult env loc.fileInfoId (env.path loc.fileInfoId)
        let slots := resultSlots (group.1.map FunLoc.elfAddr) result.2
        GroupShares env (env.mapinfo loc.mapInfoIdx) w group.1 slots ∧
          GroupsShare result.1 group.2 (w + (slots.map FrameSlot.width).sum)
  | _ => True
termination_by locs.length
decreasing_by
  · exact Nat.lt_succ_self _
  · exact Nat.lt_succ_self _
  · exact length_collectFrames_lt loc (next :: rest)

theorem maps_writeLocation (loc : FunLoc) (locations : Locations) :
    locations.Maps (locations.push (writeLocation loc (env.mapinfo loc.mapInfoIdx)
      (env.symbol loc.symbolIdx))) (env.mapinfo loc.mapInfoIdx) 1 :=
  locations.maps_push _ fun _ => rfl

theorem written_symbolizeFrames (symbolizer : Symbolizer) (locs : List FunLoc)
    (locations : Locations) :
    (symbolizeFrames env symbolizer locs locations).2.1.written =
      locations.written ++ (loopLocations env symbolizer locs locations).map Prod.snd := by
  fun_induction loopLocations env symbolizer locs locations with
  | case1 symbolizer locations loc next rest hroom hsymbolized after ih =>
    have hpush := maps_writeLocation env loc locations
    rw [symbolizeFrames, if_pos hroom, if_pos hsymbolized, ih, hpush.written_eq, List.map_append,
      List.map_map, List.append_assoc]
    simp [after]
  | case2 symbolizer locations loc next rest hroom hsymbolized herror ih =>
    rw [symbolizeFrames, if_pos hroom, if_neg hsymbolized, if_pos herror, ih]
  | case3 symbolizer locations loc next rest hroom hsymbolized herror hpath =>
    rw [symbolizeFrames, if_pos hroom, if_neg hsymbolized, if_neg herror, hpath,
      symbolizePprof_warn]
    simp
  | case4 symbolizer locations loc next rest hroom hsymbolized herror hpath group elfAddrs result
      syms mapinfo ih =>
      have haddrs : elfAddrs ≠ [] :=
        mt List.map_eq_nil_iff.mp (collectFrames_ne_nil loc (next :: rest))
      rw [symbolizeFrames, if_pos hroom, if_neg hsymbolized, if_neg herror,
        symbolizePprof_eq haddrs hpath]
      show (symbolizeFrames env result.1 group.2
        (writeSymbols env.demangle mapinfo syms elfAddrs locations).1).2.1.written = _
      rw [ih, written_writeSymbols, List.map_append, List.append_assoc]
  | case5 symbolizer locations loc next rest hfull =>
    rw [symbolizeFrames, if_neg hfull]
    simp
  | case6 symbolizer locs locations hshort =>
    rw [symbolizeFrames]
    · simp
    · exact hshort

theorem loopLocations_ownMapping_iff (symbolizer : Symbolizer) (locs : List FunLoc)
    (locations : Locations) : ∀ w, locations.Level w →
      ((∀ e ∈ loopLocations env symbolizer locs locations, OwnMapping env e) ↔
        GroupsShare env symbolizer locs w) := by
  fun_induction loopLocations env symbolizer locs locations with
  | case1 symbolizer locations loc next rest hroom hsymbolized after ih =>
    intro w hlevel
    have hpush := maps_writeLocation env loc locations
    have hown := (hpush.forall_since_iff
      (MapInfo.SameRegion · (env.mapinfo loc.mapInfoIdx))).mpr fun _ => .refl _
    have hnext : after.Level (w + FrameSlot.bare.width) := hlevel.add_count hpush
    rw [GroupsShare, if_pos hsymbolized, List.forall_mem_append, ih _ hnext]
    have hw := hlevel.lt_iff.mp hroom
    exact ⟨fun h _ => h.2, fun h => ⟨by simpa [OwnMapping] using hown, h hw⟩⟩
  | case2 symbolizer locations loc next rest hroom hsymbolized herror ih =>
    intro w hlevel
    rw [GroupsShare, if_neg hsymbolized, if_pos herror, ih _ hlevel]
    exact ⟨fun h _ => h, fun h => h (hlevel.lt_iff.mp hroom)⟩
  | case3 symbolizer locations loc next rest hroom hsymbolized herror hpath =>
    intro w hlevel
    rw [GroupsShare, if_neg hsymbolized, if_neg herror, if_pos hpath]
    exact iff_of_true nofun fun _ => trivial
  | case4 symbolizer locations loc next rest hroom hsymbolized herror hpath group elfAddrs result
      syms mapinfo ih =>
      intro w hlevel
      rw [GroupsShare, if_neg hsymbolized, if_neg herror, if_neg hpath, List.forall_mem_append,
        groupLocations_ownMapping_iff env mapinfo syms group.1 hlevel,
        ih _ (hlevel.writeSymbols env.demangle mapinfo syms elfAddrs)]
      simp only [resultSlots_eq]
      exact ⟨fun h _ => h, fun h => h (hlevel.lt_iff.mp hroom)⟩
  | case5 symbolizer locations loc next rest hfull =>
    intro w hlevel
    rw [GroupsShare]
    exact iff_of_true nofun fun hw => absurd (hlevel.lt_iff.mpr hw) hfull
  | case6 symbolizer locs locations hshort =>
    intro w hlevel
    rw [GroupsShare]
    · exact iff_of_true nofun trivial
    · exact hshort

theorem maps_writeBinaryFrame (last : FunLoc) (before : Locations) :
    ∃ n, before.Maps (writeBinaryFrame env last before) (env.mapinfo last.mapInfoIdx) n := by
  rw [writeBinaryFrame]
  split_ifs
  · exact ⟨1, before.maps_push _ fun _ => rfl⟩
  · exact ⟨0, .refl before _⟩

theorem lastLocations_ownMapping (symbolizer : Symbolizer) (locs : List FunLoc)
    (locations : Locations) :
    ∀ e ∈ lastLocations env symbolizer locs locations, OwnMapping env e := by
  rw [lastLocations]
  cases locs.getLast? with
  | none => exact nofun
  | some last =>
    simp only [List.forall_mem_map]
    obtain ⟨n, hmaps⟩ := maps_writeBinaryFrame env last
      (writeIncompleteFrame (symbolizeFrames env symbolizer locs locations).2.1)
    exact (hmaps.forall_since_iff (MapInfo.SameRegion · _)).mpr fun _ => .refl _

/-- The locations of the frames, the mark of an incomplete stack apart, are all the locations. -/
theorem written_processSymbolization {symbolizer symbolizer' : Symbolizer} {locs : List FunLoc}
    {buff : ℕ → Location} {res : Severity}
    (h : processSymbolization env symbolizer locs { buff := buff } =
      some (symbolizer', locations, res)) :
    ∃ marks, (marks = [] ∨ marks = [incompleteLocation]) ∧ locations.written =
      (loopLocations env symbolizer locs { buff := buff }).map Prod.snd ++ marks ++
        (lastLocations env symbolizer locs { buff := buff }).map Prod.snd := by
  have hloop := written_symbolizeFrames env symbolizer locs { buff := buff }
  rw [lastLocations]
  cases hlast : locs.getLast? with
  | none =>
    rw [processSymbolization, hlast] at h
    cases h
  | some last =>
    rw [processSymbolization_eq hlast] at h
    cases h
    simp only [List.map_map]
    generalize (symbolizeFrames env symbolizer locs { buff := buff }).2.1 = body at hloop
    have hmarks : ∃ marks, (marks = [] ∨ marks = [incompleteLocation]) ∧
        (writeIncompleteFrame body).written = body.written ++ marks := by
      rw [writeIncompleteFrame]
      split_ifs
      · exact ⟨_, .inr rfl, body.written_push _⟩
      · exact ⟨[], .inl rfl, (List.append_nil _).symm⟩
    obtain ⟨marks, hmarks, hmarked⟩ := hmarks
    obtain ⟨n, hmaps⟩ := maps_writeBinaryFrame env last (writeIncompleteFrame body)
    refine ⟨marks, hmarks, ?_⟩
    rw [hmaps.written_eq, hmarked, hloop]
    simp [Function.comp_def, Locations.written]

/-- The locations that are written for the frames, the one of the last frame included, have the
mappings of their frames exactly if in each group of frames that is symbolized together those that
are written are in the same region as the first. -/
theorem processSymbolization_ownMapping_iff (symbolizer : Symbolizer) (locs : List FunLoc)
    (buff : ℕ → Location) :
    (∀ symbolizer' locations res,
      processSymbolization env symbolizer locs { buff := buff } =
          some (symbolizer', locations, res) →
        ∃ marks, (marks = [] ∨ marks = [incompleteLocation]) ∧ locations.written =
          (loopLocations env symbolizer locs { buff := buff }).map Prod.snd ++ marks ++
            (lastLocations env symbolizer locs { buff := buff }).map Prod.snd) ∧
      ((∀ e ∈ loopLocations env symbolizer locs { buff := buff } ++
          lastLocations env symbolizer locs { buff := buff },
        e.2.mapping.SameRegion (env.mapinfo e.1.mapInfoIdx)) ↔
        GroupsShare env symbolizer locs 0) := by
  refine ⟨fun _ _ _ h => written_processSymbolization env h, ?_⟩
  have hloop := loopLocations_ownMapping_iff env symbolizer locs { buff := buff } 0 rfl
  rw [List.forall_mem_append, ← hloop]
  exact and_iff_left (lastLocations_ownMapping env symbolizer locs { buff := buff })

end Stacks

/-- A file that is mapped twice, and a library that finds no symbols in it. -/
def mappedTwice : SymbolEnv where
  mapinfo i := if i = 2 then { lowAddr := 0x9000, highAddr := 0x9fff, offset := 0x4000 }
    else { lowAddr := 0x1000, highAddr := 0x1fff }
  path _ := ['a']
  blaze _ := some [{ addr := 0 }, { addr := 0 }]

/-- A frame in each of the two mappings, and the one of the binary. -/
def mappedTwiceStack : List FunLoc :=
  [⟨0x1010, 0x10, 2, kSymbolIdxNull, 1⟩, ⟨0x9020, 0x4020, 2, kSymbolIdxNull, 2⟩, ⟨0, 0, -1, 0, 0⟩]

/-- The location of the second frame has the mapping of the first. -/
theorem processSymbolization_mappedTwice :
    ¬ ∀ e ∈ loopLocations mappedTwice {} mappedTwiceStack { buff := fun _ => {} } ++
        lastLocations mappedTwice {} mappedTwiceStack { buff := fun _ => {} },
      e.2.mapping.SameRegion (mappedTwice.mapinfo e.1.mapInfoIdx) := by
  decide +kernel

end Ddprof
