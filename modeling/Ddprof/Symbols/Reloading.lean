import Ddprof.Symbols.SymbolMap

/-!
Reading a file of generated symbols again (`fill_from_perfmap`, `fill_from_jitdump`).

The file of a process is read in full each time a lookup misses, into the map that the earlier
readings have left. A reading that changes nothing adds no span, and it moves none: spans only
move towards higher addresses, so one that has moved does not come back. The starts of the spans
are then fixed, and each symbol of the file acts on the span that starts last before it. What the
symbols do to one span is a matter of that span alone (`Returns`).
-/

namespace Ddprof

open OrderedMap

namespace RuntimeSymbols

def load (s : RuntimeSymbols) (codes : List CodeSymbol) : RuntimeSymbols :=
  codes.foldl (fun s code => (s.insertOrReplace code).1) s

/-- What the map says of a start: where the span ends, and its name. -/
def view (s : RuntimeSymbols) (start : ℕ) : Option (ℕ × List Char) :=
  (s.symbolMap.find start).map fun span => (span.endAddr, s.nameOf span)

/-- The same starts, ends and names, and a table of the same size. -/
def Unchanged (s s' : RuntimeSymbols) : Prop :=
  (∀ start, s'.view start = s.view start) ∧ s'.symbolTable.length = s.symbolTable.length

/-- The start of the last span that starts at or before an address. -/
def closest (s : RuntimeSymbols) (address : ℕ) : Option ℕ :=
  (s.symbolMap.findClosest address).1

/-- The symbols that act on a span: those that are not refused and have it as the closest one. -/
def actingOn (s : RuntimeSymbols) (start : ℕ) (codes : List CodeSymbol) : List CodeSymbol :=
  codes.filter fun code => !code.isRefused && s.closest code.address = some start

/-- The symbols take a span from one end and name to another, without a new span and without
moving it. A symbol of the same name has to start inside the span, which it may widen. A symbol
of another name has to start where the span starts. -/
def Returns (start : ℕ) (goal : Option (ℕ × List Char)) :
    ℕ × List Char → List CodeSymbol → Prop
  | now, [] => goal = some now
  | (endAddr, name), code :: rest =>
    if name = code.symbol then
      code.address ≤ endAddr ∧ Returns start goal (max endAddr code.last, name) rest
    else code.address = start ∧ Returns start goal (code.last, code.symbol) rest

instance decidableReturns (start : ℕ) (goal : Option (ℕ × List Char)) :
    ∀ now codes, Decidable (Returns start goal now codes)
  | now, [] => inferInstanceAs (Decidable (goal = some now))
  | (endAddr, name), code :: rest => by
    unfold Returns
    have := decidableReturns start goal (max endAddr code.last, name) rest
    have := decidableReturns start goal (code.last, code.symbol) rest
    infer_instance

/-- Every symbol has a closest span, and each span has its old end and name again when the
symbols have acted on it. -/
def Settled (s : RuntimeSymbols) (codes : List CodeSymbol) : Prop :=
  (∀ code ∈ codes, code.isRefused = false → s.closest code.address ≠ none) ∧
    ∀ e ∈ s.symbolMap,
      Returns e.1 (some (e.2.endAddr, s.nameOf e.2)) (e.2.endAddr, s.nameOf e.2)
        (s.actingOn e.1 codes)

instance (s : RuntimeSymbols) (codes : List CodeSymbol) : Decidable (s.Settled codes) :=
  have : Decidable (∀ e ∈ s.symbolMap, Returns e.1 (some (e.2.endAddr, s.nameOf e.2))
      (e.2.endAddr, s.nameOf e.2) (s.actingOn e.1 codes)) :=
    List.decidableBAll _ s.symbolMap.entries
  instDecidableAnd

variable {s s' : RuntimeSymbols} {code : CodeSymbol}

@[simp] theorem load_nil (s : RuntimeSymbols) : s.load [] = s := rfl

@[simp] theorem load_cons (s : RuntimeSymbols) (code : CodeSymbol) (rest : List CodeSymbol) :
    s.load (code :: rest) = (s.insertOrReplace code).1.load rest := rfl

theorem load_sound (hs : s.Sound) (codes : List CodeSymbol) : (s.load codes).Sound := by
  induction codes generalizing s with
  | nil => exact hs
  | cons code rest ih => exact ih (insertOrReplace_sound hs code)

/-! ### Starts -/

def starts (s : RuntimeSymbols) : Finset ℕ := (s.symbolMap.entries.map Prod.fst).toFinset

variable {start : ℕ}

theorem mem_starts : start ∈ s.starts ↔ ∃ span, (start, span) ∈ s.symbolMap := by
  simp [starts, mem_def]

theorem view_eq_some {now : ℕ × List Char} :
    s.view start = some now ↔
      ∃ span, (start, span) ∈ s.symbolMap ∧ (span.endAddr, s.nameOf span) = now := by
  simp [view, Option.map_eq_some_iff, find_eq_some]

theorem view_of_mem {e : ℕ × SymbolSpan} (he : e ∈ s.symbolMap) :
    s.view e.1 = some (e.2.endAddr, s.nameOf e.2) :=
  view_eq_some.mpr ⟨e.2, he, rfl⟩

theorem mem_starts_iff_view : start ∈ s.starts ↔ s.view start ≠ none := by
  rw [mem_starts, Option.ne_none_iff_exists']
  constructor
  · rintro ⟨span, hspan⟩
    exact ⟨_, view_of_mem hspan⟩
  · rintro ⟨now, hnow⟩
    obtain ⟨span, hspan, -⟩ := view_eq_some.mp hnow
    exact ⟨span, hspan⟩

theorem closest_eq_some (hs : s.Sound) {address start : ℕ} :
    s.closest address = some start ↔ ∃ span, s.symbolMap.IsFloor address (start, span) := by
  unfold closest
  rcases SymbolMap.findClosest_cases hs.proper address with ⟨heq, hafter⟩ | ⟨e, hfloor, heq⟩
  · rw [heq]
    refine iff_of_false nofun ?_
    rintro ⟨span, hspan⟩
    exact absurd hspan.le (not_le.mpr (hafter _ hspan.mem))
  · rw [heq]
    constructor
    · intro h
      cases h
      exact ⟨e.2, hfloor⟩
    · rintro ⟨span, hspan⟩
      rw [hfloor.unique hspan]

theorem closest_congr (hs : s.Sound) (hs' : s'.Sound) (hstarts : s'.starts = s.starts)
    (address : ℕ) : s'.closest address = s.closest address := by
  have hiff : ∀ {t : RuntimeSymbols}, t.Sound → ∀ start, t.closest address = some start ↔
      start ∈ t.starts ∧ start ≤ address ∧ ∀ other ∈ t.starts, other ≤ address → other ≤ start := by
    intro t ht start
    rw [closest_eq_some ht]
    constructor
    · rintro ⟨span, hspan⟩
      refine ⟨mem_starts.mpr ⟨span, hspan.mem⟩, hspan.le, fun other hother hle => ?_⟩
      obtain ⟨span', hspan'⟩ := mem_starts.mp hother
      exact hspan.last _ hspan' hle
    · rintro ⟨hmem, hle, hlast⟩
      obtain ⟨span, hspan⟩ := mem_starts.mp hmem
      exact ⟨span, hspan, hle, fun e he => hlast e.1 (mem_starts.mpr ⟨e.2, he⟩)⟩
  ext start
  rw [hiff hs', hiff hs, hstarts]

/-! ### What can be undone

A new span makes the table longer. With a table of the same size, the sum of the starts does not
decrease, and a span that moves makes it larger. -/

/-- An insertion that leaves the spans where they are: it gives one of them, the closest one to
its address, a new end and name. -/
structure InPlace (s : RuntimeSymbols) (code : CodeSymbol) (s' : RuntimeSymbols) (start : ℕ)
    (now now' : ℕ × List Char) : Prop where
  closest_eq : s.closest code.address = some start
  view_eq : s.view start = some now
  length_eq : s'.symbolTable.length = s.symbolTable.length
  view_after : ∀ k, s'.view k = if k = start then some now' else s.view k
  returns_iff : ∀ goal rest, Returns start goal now (code :: rest) ↔ Returns start goal now' rest

/-- An insertion that cannot be undone: it adds a span or moves one. -/
structure Moves (s : RuntimeSymbols) (code : CodeSymbol) (s' : RuntimeSymbols) : Prop where
  grows : s.symbolTable.length < s'.symbolTable.length ∨
    s'.symbolTable.length = s.symbolTable.length ∧ s.starts.sum id < s'.starts.sum id
  not_returns : ∀ start now goal rest, s.closest code.address = some start →
    s.view start = some now → ¬ Returns start goal now (code :: rest)

theorem InPlace.starts_eq {now now' : ℕ × List Char}
    (h : InPlace s code s' start now now') : s'.starts = s.starts := by
  ext k
  rw [mem_starts_iff_view, mem_starts_iff_view, h.view_after]
  split_ifs with hk
  · simp [hk, h.view_eq]
  · rfl

/-- The name of a span after an entry of the table has been renamed, for spans with an entry of
their own. -/
theorem nameOf_replace (hs : s.Sound) {e x : ℕ × SymbolSpan} (he : e ∈ s.symbolMap)
    (hx : x ∈ s.symbolMap) (hne : x.1 ≠ e.1) (map : SymbolMap) (symbol : List Char) :
    nameOf ⟨map, s.symbolTable.modify e.2.symbolIdx
      fun entry => { entry with demangledName := symbol }⟩ x.2 = s.nameOf x.2 := by
  refine (demangledName_modify (hs.idx_lt e he) symbol x.2.symbolIdx).trans (if_neg ?_)
  exact fun hidx => hne (congrArg Prod.fst (hs.idx_inj x hx e he hidx))

/-- A span that moves to a later start makes the sum of the starts larger. -/
theorem sum_starts_lt {e : ℕ × SymbolSpan} {address : ℕ} (hfloor : s.symbolMap.IsFloor address e)
    (hlt : e.1 < address) (span : SymbolSpan) (table : SymbolTable) :
    s.starts.sum id < (starts ⟨(s.symbolMap.eraseKey e.1).insertOrAssign address span,
      table⟩).sum id := by
  have hstarts : starts ⟨(s.symbolMap.eraseKey e.1).insertOrAssign address span, table⟩ =
      insert address (s.starts.erase e.1) := by
    ext k
    simp only [mem_starts, mem_insertOrAssign, mem_eraseKey, Finset.mem_insert, Finset.mem_erase,
      Prod.mk.injEq]
    by_cases hk : k = address
    · simp [hk]
    · simp [hk, and_comm]
  have hnot : address ∉ s.starts.erase e.1 := by
    intro hmem
    obtain ⟨span', hspan'⟩ := mem_starts.mp (Finset.mem_of_mem_erase hmem)
    exact absurd (hfloor.last _ hspan' le_rfl) (not_le.mpr hlt)
  have hsum := Finset.add_sum_erase s.starts id (mem_starts.mpr ⟨e.2, hfloor.mem⟩)
  rw [hstarts, Finset.sum_insert hnot, ← hsum]
  exact Nat.add_lt_add_right hlt _

theorem Insertion.inPlace_or_moves (hs : s.Sound) (h : Insertion s code s') :
    (∃ start now now', InPlace s code s' start now now') ∨ Moves s code s' := by
  cases h with
  | emplaced hnone hfresh =>
    refine .inr ⟨.inl (by simp), ?_⟩
    intro start now goal rest hclosest hnow hret
    obtain ⟨span, hfloor⟩ := (closest_eq_some hs).mp hclosest
    have hend := SymbolMap.endAddr_lt_of_found_eq_none hs.proper hnone hfloor
    rw [view_of_mem hfloor.mem] at hnow
    obtain rfl := Option.some.inj hnow
    unfold Returns at hret
    split_ifs at hret with hname
    · exact absurd hret.1 (not_le.mpr hend)
    · exact hfresh _ hfloor.mem hret.1.symm
  | @extended e hfloor hend hname =>
    refine .inl ⟨e.1, (e.2.endAddr, s.nameOf e.2), (max e.2.endAddr code.last, s.nameOf e.2),
      (closest_eq_some hs).mpr ⟨e.2, hfloor⟩, view_of_mem hfloor.mem, rfl, ?_, ?_⟩
    · intro k
      unfold view extend
      rw [find_modify]
      split_ifs with hk
      · rw [hk, find_eq_some.mpr hfloor.mem]
        rfl
      · rfl
    · intro goal rest
      rw [Returns, if_pos hname, and_iff_right hend]
  | @replaced e hfloor hend hname =>
    have hclosest := (closest_eq_some hs).mpr ⟨e.2, hfloor⟩
    by_cases hmoved : code.address = e.1
    · refine .inl ⟨e.1, (e.2.endAddr, s.nameOf e.2), (code.last, code.symbol),
        hclosest, view_of_mem hfloor.mem, List.length_modify .., ?_, ?_⟩
      · intro k
        unfold view
        rw [find_insertOrAssign, hmoved, find_eraseKey]
        split_ifs with hk
        · simp only [Option.map_some, Option.some.injEq, Prod.mk.injEq, true_and]
          exact (demangledName_modify (hs.idx_lt e hfloor.mem) _ _).trans (if_pos rfl)
        · cases hfind : s.symbolMap.find k with
          | none => rfl
          | some span =>
            have hspan := find_eq_some.mp hfind
            simp only [Option.map_some]
            rw [nameOf_replace hs hfloor.mem hspan hk]
      · intro goal rest
        rw [Returns, if_neg hname, and_iff_right hmoved]
    · have hlt : e.1 < code.address := lt_of_le_of_ne hfloor.le (Ne.symm hmoved)
      refine .inr ⟨.inr ⟨List.length_modify .., ?_⟩, ?_⟩
      · exact sum_starts_lt hfloor hlt _ _
      · intro start now goal rest hstart hnow hret
        rw [hclosest] at hstart
        cases hstart
        rw [view_of_mem hfloor.mem] at hnow
        obtain rfl := Option.some.inj hnow
        rw [Returns, if_neg hname] at hret
        exact hmoved hret.1

/-- No reading makes the table shorter, or the sum of the starts smaller for a table of the same
size. -/
theorem load_grows (hs : s.Sound) (codes : List CodeSymbol) :
    s.symbolTable.length ≤ (s.load codes).symbolTable.length ∧
      ((s.load codes).symbolTable.length = s.symbolTable.length →
        s.starts.sum id ≤ (s.load codes).starts.sum id) := by
  induction codes generalizing s with
  | nil => exact ⟨le_rfl, fun _ => le_rfl⟩
  | cons code rest ih =>
    obtain ⟨hlen, hsum⟩ := ih (insertOrReplace_sound hs code)
    rw [load_cons]
    cases hcode : code.isRefused with
    | true =>
      rw [insertOrReplace_of_refused hcode] at hlen hsum ⊢
      exact ⟨hlen, hsum⟩
    | false =>
      obtain ⟨hins, -⟩ := insertOrReplace_spec hs.proper hcode
      rcases hins.inPlace_or_moves hs with ⟨start, now, now', hin⟩ | hmoves
      · rw [hin.starts_eq, hin.length_eq] at *
        exact ⟨hlen, hsum⟩
      · rcases hmoves.grows with hlt | ⟨heq, hlt⟩
        · exact ⟨hlt.le.trans hlen, fun h => absurd hlen (by omega)⟩
        · rw [heq] at hlen hsum
          exact ⟨hlen, fun h => hlt.le.trans (hsum h)⟩

/-- The reading neither adds nor moves a span, and leaves these ends and names. -/
def Reaches (s : RuntimeSymbols) (codes : List CodeSymbol)
    (goal : ℕ → Option (ℕ × List Char)) : Prop :=
  (s.load codes).symbolTable.length = s.symbolTable.length ∧
    (s.load codes).starts.sum id = s.starts.sum id ∧ ∀ k, (s.load codes).view k = goal k

def AllReturn (s : RuntimeSymbols) (codes : List CodeSymbol)
    (goal : ℕ → Option (ℕ × List Char)) : Prop :=
  (∀ code ∈ codes, code.isRefused = false → s.closest code.address ≠ none) ∧
    ∀ k, match s.view k with
      | none => goal k = none
      | some now => Returns k (goal k) now (s.actingOn k codes)

theorem actingOn_cons (s : RuntimeSymbols) (k : ℕ) (code : CodeSymbol) (rest : List CodeSymbol) :
    s.actingOn k (code :: rest) =
      if code.isRefused = false ∧ s.closest code.address = some k then code :: s.actingOn k rest
      else s.actingOn k rest := by
  unfold actingOn
  rw [List.filter_cons]
  simp

theorem InPlace.allReturn_iff (hs : s.Sound) (hs' : s'.Sound) (hcode : code.isRefused = false)
    {now now' : ℕ × List Char} (h : InPlace s code s' start now now')
    (rest : List CodeSymbol) (goal : ℕ → Option (ℕ × List Char)) :
    s.AllReturn (code :: rest) goal ↔ s'.AllReturn rest goal := by
  have hclosest := closest_congr hs hs' h.starts_eq
  have hacting : ∀ k, s'.actingOn k rest = s.actingOn k rest := by
    intro k
    unfold actingOn
    simp only [hclosest]
  unfold AllReturn
  simp only [List.forall_mem_cons, hclosest, h.closest_eq, h.view_after, hacting, actingOn_cons,
    hcode, true_and, ne_eq, reduceCtorEq, not_false_eq_true, forall_const, Option.some.injEq]
  refine and_congr_right fun _ => forall_congr' fun k => ?_
  by_cases hk : start = k
  · subst hk
    simp only [h.view_eq, if_true]
    exact h.returns_iff (goal start) _
  · simp only [if_neg hk, if_neg (Ne.symm hk)]

theorem reaches_iff_allReturn (hs : s.Sound) (codes : List CodeSymbol)
    (goal : ℕ → Option (ℕ × List Char)) : s.Reaches codes goal ↔ s.AllReturn codes goal := by
  induction codes generalizing s with
  | nil =>
    unfold Reaches AllReturn
    simp only [load_nil, true_and, List.not_mem_nil, false_implies, implies_true]
    refine forall_congr' fun k => ?_
    cases s.view k with
    | none => exact eq_comm
    | some now => exact eq_comm
  | cons code rest ih =>
    have hs' := insertOrReplace_sound hs code
    cases hcode : code.isRefused with
    | true =>
      have hskip : ∀ k, s.actingOn k (code :: rest) = s.actingOn k rest := fun k => by
        rw [actingOn_cons, if_neg (by simp [hcode])]
      unfold Reaches AllReturn at *
      simp only [load_cons, insertOrReplace_of_refused hcode, hskip, ih hs,
        List.forall_mem_cons, hcode, Bool.true_eq_false, false_implies, true_and]
    | false =>
      obtain ⟨hins, -⟩ := insertOrReplace_spec hs.proper hcode
      rcases hins.inPlace_or_moves hs with ⟨start, now, now', hin⟩ | hmoves
      · rw [hin.allReturn_iff hs hs' hcode, ← ih hs']
        unfold Reaches
        rw [load_cons, hin.length_eq, hin.starts_eq]
      · -- what has been added or moved stays so, and the symbol finds no place
        refine iff_of_false ?_ ?_
        · rintro ⟨hlen, hsum, -⟩
          obtain ⟨hlen', hsum'⟩ := load_grows hs' rest
          rw [load_cons] at hlen hsum
          rcases hmoves.grows with hlt | ⟨heq, hlt⟩
          · omega
          · have := hsum' (hlen.trans heq.symm)
            omega
        · rintro ⟨hall, hret⟩
          obtain ⟨start, hstart⟩ := Option.ne_none_iff_exists'.mp
            (hall code List.mem_cons_self hcode)
          obtain ⟨span, hfloor⟩ := (closest_eq_some hs).mp hstart
          have hview := view_of_mem hfloor.mem
          have hstartRet := hret start
          rw [hview, actingOn_cons, if_pos ⟨hcode, hstart⟩] at hstartRet
          exact hmoves.not_returns start _ _ _ hstart hview hstartRet

/-! ### A second reading -/

theorem unchanged_load_iff_settled (hs : s.Sound) (codes : List CodeSymbol) :
    Unchanged s (s.load codes) ↔ s.Settled codes := by
  have hreaches : Unchanged s (s.load codes) ↔ s.Reaches codes s.view := by
    constructor
    · rintro ⟨hview, hlen⟩
      refine ⟨hlen, ?_, hview⟩
      have hstarts : (s.load codes).starts = s.starts := by
        ext k
        rw [mem_starts_iff_view, mem_starts_iff_view, hview]
      rw [hstarts]
    · exact fun h => ⟨h.2.2, h.1⟩
  rw [hreaches, reaches_iff_allReturn hs]
  refine and_congr_right fun _ => ⟨fun h e he => ?_, fun h k => ?_⟩
  · have hk := h e.1
    rw [view_of_mem he] at hk
    exact hk
  · cases hview : s.view k with
    | none => rfl
    | some now =>
      obtain ⟨span, hspan, rfl⟩ := view_eq_some.mp hview
      exact h (k, span) hspan

/-- A file is read a second time, whatever had been read before it. The second reading leaves the
starts, ends and names of the spans and the size of the table as they were exactly if the map that
the first reading left is settled for the file. -/
theorem reload_unchanged_iff (table : SymbolTable) (earlier codes : List CodeSymbol) :
    let s := (load ⟨.empty, table⟩ earlier).load codes
    Unchanged s (s.load codes) ↔ s.Settled codes := by
  intro s
  exact unchanged_load_iff_settled (load_sound (load_sound (sound_empty table) earlier) codes) codes

/-- A function is compiled again at its old start, under another name: the file stays settled. -/
example :
    let codes : List CodeSymbol := [⟨"A".toList, 0x100, 0x40⟩, ⟨"B".toList, 0x100, 0x30⟩]
    (load {} codes).Settled codes := by
  decide +kernel

/-- A function starts inside another one, and takes its place in the map. The second reading does
not find the first function any more and adds it again. -/
theorem reload_addsSpan :
    let codes : List CodeSymbol := [⟨"A".toList, 0x100, 0x40⟩, ⟨"B".toList, 0x120, 0x40⟩]
    let s := load {} codes
    s.view 0x100 = none ∧ (s.load codes).view 0x100 = some (0x13f, "A".toList) ∧
      s.symbolTable.length = 1 ∧ (s.load codes).symbolTable.length = 2 ∧
      ¬ Unchanged s (s.load codes) := by
  refine ⟨by decide +kernel, by decide +kernel, by decide +kernel, by decide +kernel, ?_⟩
  exact fun h => absurd h.2 (by decide +kernel)

end RuntimeSymbols

end Ddprof
