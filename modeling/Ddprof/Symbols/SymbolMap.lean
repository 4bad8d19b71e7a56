import Ddprof.Lib.OrderedMap
import Ddprof.Lib.Run
import Ddprof.Symbols.Symbolization

/-!
The symbols of generated code (`SymbolMap` and `insert_or_replace`).

A process writes the functions that it generates to a file, and the profiler keeps them in a map
from start addresses to spans. A span holds its last address and the index of an entry of the
symbol table. The search stops at the last span that starts at or before an address.

An insertion looks at the span that contains the start of the new function, and at no other: the
source notes that the function can overlap with more symbols. What an insertion can do is said
once, by `Insertion`.
-/

namespace Ddprof

open OrderedMap

structure SymbolSpan where
  endAddr : ℕ
  symbolIdx : ℕ
  deriving DecidableEq, Repr

def SymbolSpan.setEnd (span : SymbolSpan) (endAddr : ℕ) : SymbolSpan :=
  { span with endAddr := max span.endAddr endAddr }

abbrev SymbolMap := OrderedMap ℕ SymbolSpan

abbrev SymbolTable := List Symbol

namespace SymbolMap

def isWithin (normPc : ℕ) (kv : ℕ × SymbolSpan) : Bool :=
  decide (kv.1 ≤ normPc) && decide (normPc ≤ kv.2.endAddr)

def findClosest (map : SymbolMap) (normPc : ℕ) : Iter ℕ × Bool :=
  let it := map.lowerBound normPc
  if it.any fun k => (map.find k).any fun span => isWithin normPc (k, span) then (it, true)
  else if it = map.begin then (none, false)
  else
    match map.prev it with
    | none => (none, false)
    | some k => (some k, (map.find k).any fun span => isWithin normPc (k, span))

/-- The entry that `find_closest` reports as found. -/
def found (map : SymbolMap) (normPc : ℕ) : Option (ℕ × SymbolSpan) :=
  let res := map.findClosest normPc
  if res.2 then res.1.bind fun k => (map.find k).map fun span => (k, span) else none

def Proper (map : SymbolMap) : Prop := ∀ e ∈ map, e.1 ≤ e.2.endAddr

def Disjoint (map : SymbolMap) : Prop := ∀ e ∈ map, ∀ e' ∈ map, e.1 < e'.1 → e.2.endAddr < e'.1

instance (map : SymbolMap) : Decidable map.Disjoint :=
  decidable_of_iff (map.entries.Pairwise fun e e' : ℕ × SymbolSpan => e.2.endAddr < e'.1)
    ⟨fun h _ he _ he' hlt => rel_of_pairwise h he he' hlt, fun h => pairwise_of_lt h⟩

variable {map : SymbolMap} {pc : ℕ} {e : ℕ × SymbolSpan}

/-- The search stops at the last span that starts at or before the address. -/
theorem findClosest_cases (hproper : map.Proper) (pc : ℕ) :
    (map.findClosest pc = (none, false) ∧ ∀ e ∈ map, pc < e.1) ∨
      ∃ e, map.IsFloor pc e ∧ map.findClosest pc = (some e.1, decide (pc ≤ e.2.endAddr)) := by
  unfold findClosest
  by_cases hhere : ∃ span, (pc, span) ∈ map
  · -- a span that starts at the address is the lower bound and contains the address
    obtain ⟨span, hspan⟩ := hhere
    have hlb : map.lowerBound pc = some pc := by
      cases h : map.lowerBound pc with
      | none => exact absurd (lowerBound_eq_none h _ hspan) (lt_irrefl _)
      | some k =>
        obtain ⟨hle, -, hleast⟩ := lowerBound_eq_some h
        rw [le_antisymm hle (hleast _ hspan le_rfl)]
    have hend : pc ≤ span.endAddr := hproper _ hspan
    refine .inr ⟨(pc, span), isFloor_self hspan, ?_⟩
    simp [hlb, find_eq_some.mpr hspan, isWithin, hend]
  · have hne : ∀ e ∈ map, e.1 ≠ pc := fun e he heq => hhere ⟨e.2, heq ▸ he⟩
    have hmiss : ((map.lowerBound pc).any fun k =>
        (map.find k).any fun span => isWithin pc (k, span)) = false := by
      cases h : map.lowerBound pc with
      | none => rfl
      | some k =>
        obtain ⟨hle, ⟨span, hspan⟩, -⟩ := lowerBound_eq_some h
        have hlt : pc < k := lt_of_le_of_ne hle (hne _ hspan).symm
        simp [find_eq_some.mpr hspan, isWithin, hlt]
    simp only [hmiss, Bool.false_eq_true, if_false]
    have hafter : ∀ e ∈ map, ¬ Before e.1 (map.lowerBound pc) → pc < e.1 := fun e he hnot =>
      lt_of_le_of_ne (not_lt.mp ((before_lowerBound he).not.mp hnot)) (hne e he).symm
    by_cases hbegin : map.lowerBound pc = map.begin
    · refine .inl ⟨if_pos hbegin, fun e he => hafter e he ?_⟩
      rw [hbegin]
      exact not_before_begin he
    · rw [if_neg hbegin]
      cases hprev : map.prev (map.lowerBound pc) with
      | none => exact .inl ⟨rfl, fun e he => hafter e he (prev_eq_none hprev e he)⟩
      | some k =>
        obtain ⟨hbefore, ⟨span, hspan⟩, hlast⟩ := prev_eq_some hprev
        have hlt : k < pc := (before_lowerBound hspan).mp hbefore
        refine .inr ⟨(k, span), ⟨hspan, hlt.le, fun e' he' hle => hlast e' he' ?_⟩, ?_⟩
        · exact (before_lowerBound he').mpr (lt_of_le_of_ne hle (hne e' he'))
        · simp [find_eq_some.mpr hspan, isWithin, hlt.le]

theorem found_eq_some (hproper : map.Proper) :
    map.found pc = some e ↔ map.IsFloor pc e ∧ pc ≤ e.2.endAddr := by
  unfold found
  rcases findClosest_cases hproper pc with ⟨heq, hafter⟩ | ⟨f, hfloor, heq⟩
  · simp only [heq, Bool.false_eq_true, if_false, reduceCtorEq, false_iff, not_and]
    exact fun h _ => absurd h.le (not_le.mpr (hafter e h.mem))
  · simp only [heq, decide_eq_true_eq, Option.bind_some, find_eq_some.mpr hfloor.mem,
      Option.map_some]
    constructor
    · intro h
      split_ifs at h with hend
      obtain rfl := Option.some.inj h
      exact ⟨hfloor, hend⟩
    · rintro ⟨he, hend⟩
      obtain rfl := he.unique hfloor
      rw [if_pos hend]

/-- A span that starts at or before the address and does not contain it. -/
theorem endAddr_lt_of_found_eq_none (hproper : map.Proper) (hnone : map.found pc = none)
    (he : map.IsFloor pc e) : e.2.endAddr < pc := by
  by_contra hle
  have hsome := (found_eq_some hproper).mpr ⟨he, not_lt.mp hle⟩
  rw [hnone] at hsome
  cases hsome

theorem ne_of_found_eq_none (hproper : map.Proper) (hnone : map.found pc = none) (he : e ∈ map) :
    e.1 ≠ pc := by
  rintro rfl
  exact absurd (endAddr_lt_of_found_eq_none hproper hnone (isFloor_self he))
    (not_lt.mpr (hproper e he))

end SymbolMap

/-! ### Insertions -/

/-- A function that a process has generated: its name, and where its code is. -/
structure CodeSymbol where
  symbol : List Char
  address : ℕ
  codeSize : ℕ
  deriving DecidableEq, Repr

namespace CodeSymbol

def ignoredSymbolsStart : List (List Char) := ["stub<".toList]

def shouldSkipSymbol (symbol : List Char) : Bool :=
  ignoredSymbolsStart.any fun start => start.isPrefixOf symbol

/-- The early returns of `insert_or_replace`. -/
def isRefused (code : CodeSymbol) : Bool :=
  shouldSkipSymbol code.symbol ||
    (code.address = 0 || code.codeSize = 0 || code.address = addrSpace - 1 ||
      code.codeSize = addrSpace - 1) ||
    addrSpace - 1 - code.codeSize < code.address

def last (code : CodeSymbol) : ℕ := code.address + code.codeSize - 1

theorem codeSize_pos {code : CodeSymbol} (h : code.isRefused = false) : 0 < code.codeSize := by
  simp only [isRefused, Bool.or_eq_false_iff, decide_eq_false_iff_not] at h
  exact Nat.pos_of_ne_zero h.1.2.1.1.2

theorem address_le_last {code : CodeSymbol} (h : code.isRefused = false) :
    code.address ≤ code.last := by
  have := codeSize_pos h
  unfold last
  omega

end CodeSymbol

structure RuntimeSymbols where
  symbolMap : SymbolMap := .empty
  symbolTable : SymbolTable := []
  deriving DecidableEq

namespace RuntimeSymbols

/-- `symbol_table[span.get_symbol_idx()]._demangled_name` -/
def nameOf (s : RuntimeSymbols) (span : SymbolSpan) : List Char :=
  (s.symbolTable.getD span.symbolIdx {}).demangledName

def emplace (s : RuntimeSymbols) (code : CodeSymbol) : RuntimeSymbols where
  symbolMap := (s.symbolMap.insert code.address ⟨code.last, s.symbolTable.length⟩).1
  symbolTable :=
    s.symbolTable ++ [{ demangledName := code.symbol, lineno := 0, srcpath := "jit".toList }]

def extend (s : RuntimeSymbols) (start : ℕ) (code : CodeSymbol) : RuntimeSymbols :=
  { s with symbolMap := s.symbolMap.modify start fun span => span.setEnd code.last }

/-- The span is removed, as its start can be different. Its table entry is given the new name. -/
def replace (s : RuntimeSymbols) (start existing : ℕ) (code : CodeSymbol) : RuntimeSymbols where
  symbolMap := ((s.symbolMap.eraseKey start).insert code.address ⟨code.last, existing⟩).1
  symbolTable :=
    s.symbolTable.modify existing fun symbol => { symbol with demangledName := code.symbol }

def insertOrReplace (s : RuntimeSymbols) (code : CodeSymbol) : RuntimeSymbols × Bool :=
  if code.isRefused then (s, false)
  else
    match s.symbolMap.found code.address with
    | none => (s.emplace code, true)
    | some (start, span) =>
      if s.nameOf span = code.symbol then (s.extend start code, true)
      else (s.replace start span.symbolIdx code, true)

/-- What holds of the spans whatever is inserted: none is empty, and each has an entry of the
symbol table of its own. -/
structure Sound (s : RuntimeSymbols) : Prop where
  proper : s.symbolMap.Proper
  idx_lt : ∀ e ∈ s.symbolMap, e.2.symbolIdx < s.symbolTable.length
  idx_inj : ∀ e ∈ s.symbolMap, ∀ e' ∈ s.symbolMap, e.2.symbolIdx = e'.2.symbolIdx → e = e'

/-- What an insertion that is not refused can do. -/
inductive Insertion (s : RuntimeSymbols) (code : CodeSymbol) : RuntimeSymbols → Prop
  | emplaced (hnone : s.symbolMap.found code.address = none)
      (hfresh : ∀ e ∈ s.symbolMap, e.1 ≠ code.address) :
      Insertion s code
        ⟨s.symbolMap.insertOrAssign code.address ⟨code.last, s.symbolTable.length⟩,
          s.symbolTable ++
            [{ demangledName := code.symbol, lineno := 0, srcpath := "jit".toList }]⟩
  | extended {e : ℕ × SymbolSpan} (hfloor : s.symbolMap.IsFloor code.address e)
      (hend : code.address ≤ e.2.endAddr) (hname : s.nameOf e.2 = code.symbol) :
      Insertion s code (s.extend e.1 code)
  | replaced {e : ℕ × SymbolSpan} (hfloor : s.symbolMap.IsFloor code.address e)
      (hend : code.address ≤ e.2.endAddr) (hname : s.nameOf e.2 ≠ code.symbol) :
      Insertion s code
        ⟨(s.symbolMap.eraseKey e.1).insertOrAssign code.address ⟨code.last, e.2.symbolIdx⟩,
          s.symbolTable.modify e.2.symbolIdx
            fun symbol => { symbol with demangledName := code.symbol }⟩

variable {s s' : RuntimeSymbols} {code : CodeSymbol}

theorem insertOrReplace_of_refused (h : code.isRefused = true) :
    s.insertOrReplace code = (s, false) :=
  if_pos h

theorem insertOrReplace_spec (hproper : s.symbolMap.Proper) (h : code.isRefused = false) :
    Insertion s code (s.insertOrReplace code).1 ∧ (s.insertOrReplace code).2 = true := by
  unfold insertOrReplace
  rw [if_neg (by simp [h])]
  cases hfound : s.symbolMap.found code.address with
  | none =>
    have hfresh : ∀ e ∈ s.symbolMap, e.1 ≠ code.address := fun e he =>
      SymbolMap.ne_of_found_eq_none hproper hfound he
    refine ⟨?_, rfl⟩
    simp only [emplace, insert_of_fresh _ hfresh]
    exact .emplaced hfound hfresh
  | some e =>
    obtain ⟨hfloor, hend⟩ := (SymbolMap.found_eq_some hproper).mp hfound
    simp only
    split_ifs with hname
    · exact ⟨.extended hfloor hend hname, rfl⟩
    · -- another span that starts at the address would be the one that was found
      have hfresh : ∀ e' ∈ s.symbolMap.eraseKey e.1, e'.1 ≠ code.address := by
        intro e' he' heq
        obtain ⟨hmem, hne⟩ := mem_eraseKey.mp he'
        exact hne (le_antisymm (hfloor.last e' hmem heq.le) (heq ▸ hfloor.le))
      refine ⟨?_, rfl⟩
      simp only [replace, insert_of_fresh _ hfresh]
      exact .replaced hfloor hend hname

/-! ### Names -/

theorem demangledName_modify {table : SymbolTable} {existing : ℕ} (hlt : existing < table.length)
    (symbol : List Char) (idx : ℕ) :
    ((table.modify existing fun entry => { entry with demangledName := symbol }).getD
        idx {}).demangledName =
      if idx = existing then symbol else (table.getD idx {}).demangledName := by
  rw [List.getD_eq_getElem?_getD, List.getElem?_modify, List.getD_eq_getElem?_getD]
  by_cases hidx : idx = existing
  · subst hidx
    simp [hlt]
  · simp [hidx, Ne.symm hidx]

/-! ### Invariants -/

theorem sound_empty (table : SymbolTable) : Sound ⟨.empty, table⟩ where
  proper := fun e he => absurd he (not_mem_empty e)
  idx_lt := fun e he => absurd he (not_mem_empty e)
  idx_inj := fun e he => absurd he (not_mem_empty e)

theorem Insertion.sound (hs : s.Sound) (hcode : code.isRefused = false)
    (h : Insertion s code s') : s'.Sound := by
  have hlast := CodeSymbol.address_le_last hcode
  cases h with
  | emplaced hnone hfresh =>
    refine ⟨?_, ?_, ?_⟩
    · intro e he
      rcases mem_insertOrAssign.mp he with rfl | ⟨he, -⟩
      · exact hlast
      · exact hs.proper e he
    · intro e he
      rw [List.length_append]
      rcases mem_insertOrAssign.mp he with rfl | ⟨he, -⟩
      · exact Nat.lt_succ_self _
      · exact Nat.lt_succ_of_lt (hs.idx_lt e he)
    · intro e he e' he' hidx
      rcases mem_insertOrAssign.mp he with rfl | ⟨he, -⟩ <;>
        rcases mem_insertOrAssign.mp he' with rfl | ⟨he', -⟩
      · rfl
      · exact absurd hidx.symm (hs.idx_lt e' he').ne
      · exact absurd hidx (hs.idx_lt e he).ne
      · exact hs.idx_inj e he e' he' hidx
  | @extended e hfloor hend hname =>
    have hmem : ∀ x ∈ s.symbolMap.modify e.1 fun span => span.setEnd code.last,
        ∃ y ∈ s.symbolMap, y.1 = x.1 ∧ y.2.symbolIdx = x.2.symbolIdx ∧
          y.2.endAddr ≤ x.2.endAddr := by
      intro x hx
      rcases (mem_modify_of_mem hfloor.mem _).mp hx with ⟨hx, -⟩ | rfl
      · exact ⟨x, hx, rfl, rfl, le_rfl⟩
      · exact ⟨e, hfloor.mem, rfl, rfl, le_max_left _ _⟩
    refine ⟨?_, ?_, ?_⟩
    · intro x hx
      obtain ⟨y, hy, hstart, -, hle⟩ := hmem x hx
      exact hstart ▸ (hs.proper y hy).trans hle
    · intro x hx
      obtain ⟨y, hy, -, hidx, -⟩ := hmem x hx
      exact hidx ▸ hs.idx_lt y hy
    · intro x hx x' hx' hidx
      obtain ⟨y, hy, hstart, hyidx, -⟩ := hmem x hx
      obtain ⟨y', hy', hstart', hyidx', -⟩ := hmem x' hx'
      have heq : y = y' := hs.idx_inj y hy y' hy' (by rw [hyidx, hyidx', hidx])
      exact eq_of_mem_of_key hx hx' (by rw [← hstart, ← hstart', heq])
  | @replaced e hfloor hend hname =>
    refine ⟨?_, ?_, ?_⟩
    · intro x hx
      rcases mem_insertOrAssign.mp hx with rfl | ⟨hx, -⟩
      · exact hlast
      · exact hs.proper x (mem_eraseKey.mp hx).1
    · intro x hx
      rw [List.length_modify]
      rcases mem_insertOrAssign.mp hx with rfl | ⟨hx, -⟩
      · exact hs.idx_lt e hfloor.mem
      · exact hs.idx_lt x (mem_eraseKey.mp hx).1
    · -- the index of the removed span is free for the one that takes its place
      have hother : ∀ x ∈ s.symbolMap.eraseKey e.1, x.2.symbolIdx ≠ e.2.symbolIdx := by
        intro x hx hidx
        obtain ⟨hmem, hne⟩ := mem_eraseKey.mp hx
        exact hne (congrArg Prod.fst (hs.idx_inj x hmem e hfloor.mem hidx))
      intro x hx x' hx' hidx
      rcases mem_insertOrAssign.mp hx with rfl | ⟨hx, -⟩ <;>
        rcases mem_insertOrAssign.mp hx' with rfl | ⟨hx', -⟩
      · rfl
      · exact absurd hidx.symm (hother x' hx')
      · exact absurd hidx (hother x hx)
      · exact hs.idx_inj x (mem_eraseKey.mp hx).1 x' (mem_eraseKey.mp hx').1 hidx

theorem insertOrReplace_sound (hs : s.Sound) (code : CodeSymbol) :
    (s.insertOrReplace code).1.Sound := by
  cases hcode : code.isRefused with
  | true => rw [insertOrReplace_of_refused hcode]; exact hs
  | false => exact (insertOrReplace_spec hs.proper hcode).1.sound hs hcode

/-! ### Where an insertion puts a symbol -/

/-- The new symbol has one span, which covers the code. The other spans are as before. To the
left of the new span nothing is left of the one whose place it took; to the right it may reach
over spans that start inside the code. -/
theorem Insertion.exists_span (hs : s.Sound) (h : Insertion s code s') :
    ∃ x ∈ s'.symbolMap, x.1 ≤ code.address ∧ code.last ≤ x.2.endAddr ∧
      s'.nameOf x.2 = code.symbol ∧
      (∀ e ∈ s.symbolMap, code.address < e.1 → e ∈ s'.symbolMap) ∧
      ∀ e ∈ s'.symbolMap, e = x ∨ e ∈ s.symbolMap ∧ (s.symbolMap.Disjoint →
        (e.1 < x.1 → e.2.endAddr < x.1) ∧
        (x.1 < e.1 → code.address < e.1 ∧ (code.last < e.1 → x.2.endAddr < e.1))) := by
  cases h with
  | emplaced hnone hfresh =>
    refine ⟨(code.address, _), mem_insertOrAssign.mpr (.inl rfl), le_rfl, le_rfl, ?_, ?_, ?_⟩
    · simp [nameOf]
    · exact fun e he hlt => mem_insertOrAssign.mpr (.inr ⟨he, hlt.ne'⟩)
    · intro e he
      rcases mem_insertOrAssign.mp he with rfl | ⟨he, -⟩
      · exact .inl rfl
      · refine .inr ⟨he, fun hdisjoint => ⟨fun hlt => ?_, fun hlt => ⟨hlt, id⟩⟩⟩
        -- the last span before the address ends before it
        obtain ⟨-, hafter⟩ | ⟨f, hfloor, -⟩ :=
          SymbolMap.findClosest_cases hs.proper code.address
        · exact absurd hlt (hafter e he).not_gt
        · have hf := SymbolMap.endAddr_lt_of_found_eq_none hs.proper hnone hfloor
          rcases (hfloor.last e he hlt.le).lt_or_eq with hbefore | heq
          · exact (hdisjoint e he f hfloor.mem hbefore).trans_le hfloor.le
          · rwa [eq_of_mem_of_key he hfloor.mem heq]
  | @extended e hfloor hend hname =>
    refine ⟨(e.1, e.2.setEnd code.last), (mem_modify_of_mem hfloor.mem _).mpr (.inr rfl),
      hfloor.le, le_max_right _ _, hname, ?_, ?_⟩
    · exact fun x hx hlt => (mem_modify_of_mem hfloor.mem _).mpr
        (.inl ⟨hx, (hfloor.le.trans_lt hlt).ne'⟩)
    · intro x hx
      rcases (mem_modify_of_mem hfloor.mem _).mp hx with ⟨hx, -⟩ | rfl
      · refine .inr ⟨hx, fun hdisjoint => ⟨hdisjoint x hx e hfloor.mem, fun hlt => ?_⟩⟩
        have hafter := hdisjoint e hfloor.mem x hx hlt
        exact ⟨hend.trans_lt hafter, fun hlast => max_lt hafter hlast⟩
      · exact .inl rfl
  | @replaced e hfloor hend hname =>
    refine ⟨(code.address, _), mem_insertOrAssign.mpr (.inl rfl), le_rfl, le_rfl, ?_, ?_, ?_⟩
    · exact (demangledName_modify (hs.idx_lt e hfloor.mem) _ _).trans (if_pos rfl)
    · exact fun x hx hlt => mem_insertOrAssign.mpr
        (.inr ⟨mem_eraseKey.mpr ⟨hx, (hfloor.le.trans_lt hlt).ne'⟩, hlt.ne'⟩)
    · intro x hx
      rcases mem_insertOrAssign.mp hx with rfl | ⟨hx, -⟩
      · exact .inl rfl
      · obtain ⟨hx, hne⟩ := mem_eraseKey.mp hx
        refine .inr ⟨hx, fun hdisjoint => ⟨fun hlt => ?_, fun hlt => ⟨hlt, id⟩⟩⟩
        have hbefore : x.1 < e.1 := lt_of_le_of_ne (hfloor.last x hx hlt.le) hne
        exact (hdisjoint x hx e hfloor.mem hbefore).trans_le hfloor.le

def FindsNamed (s : RuntimeSymbols) (pc : ℕ) (symbol : List Char) : Prop :=
  ∃ e, s.symbolMap.found pc = some e ∧ s.nameOf e.2 = symbol

instance (s : RuntimeSymbols) (pc : ℕ) (symbol : List Char) :
    Decidable (s.FindsNamed pc symbol) :=
  decidable_of_iff ((s.symbolMap.found pc).any fun e => s.nameOf e.2 = symbol) <| by
    unfold FindsNamed
    cases s.symbolMap.found pc <;> simp

/-- The call leaves disjoint spans, and the symbol is found all over its code. -/
def Places (s : RuntimeSymbols) (code : CodeSymbol) : Prop :=
  (s.insertOrReplace code).1.symbolMap.Disjoint ∧
    ((s.insertOrReplace code).2 = true → ∀ pc, code.address ≤ pc →
      pc < code.address + code.codeSize → (s.insertOrReplace code).1.FindsNamed pc code.symbol)

/-- No span starts inside the code, its first byte apart. -/
def Clear (s : RuntimeSymbols) (code : CodeSymbol) : Prop :=
  code.isRefused = false → ∀ e ∈ s.symbolMap, code.address < e.1 → code.last < e.1

theorem places_iff_clear (hs : s.Sound) (hdisjoint : s.symbolMap.Disjoint) (code : CodeSymbol) :
    s.Places code ↔ s.Clear code := by
  unfold Places Clear
  cases hcode : code.isRefused with
  | true => simp [insertOrReplace_of_refused hcode, hdisjoint]
  | false =>
    obtain ⟨hins, htrue⟩ := insertOrReplace_spec hs.proper hcode
    have hsound := hins.sound hs hcode
    obtain ⟨x, hx, hstart, hend, hname, hright, hrest⟩ := hins.exists_span hs
    simp only [htrue, forall_const]
    constructor
    · rintro ⟨hdisjoint', -⟩ e he hlt
      have hreach := hdisjoint' x hx e (hright e he hlt) (hstart.trans_lt hlt)
      exact hend.trans_lt hreach
    · intro hclear
      have hafter : ∀ e ∈ (s.insertOrReplace code).1.symbolMap, x.1 < e.1 →
          code.last < e.1 ∧ x.2.endAddr < e.1 := by
        intro e he hlt
        rcases hrest e he with rfl | ⟨hold, hside⟩
        · exact absurd hlt (lt_irrefl _)
        · obtain ⟨haddr, hreach⟩ := (hside hdisjoint).2 hlt
          have hlast := hclear e hold haddr
          exact ⟨hlast, hreach hlast⟩
      constructor
      · intro e he e' he' hlt
        rcases hrest e he with rfl | ⟨hold, hside⟩
        · exact (hafter e' he' hlt).2
        · rcases hrest e' he' with rfl | ⟨hold', -⟩
          · exact (hside hdisjoint).1 hlt
          · exact hdisjoint e hold e' hold' hlt
      · intro pc hle hlt
        have hpc : pc ≤ code.last := by
          unfold CodeSymbol.last
          omega
        refine ⟨x, (SymbolMap.found_eq_some hsound.proper).mpr
          ⟨⟨hx, hstart.trans hle, ?_⟩, hpc.trans hend⟩, hname⟩
        intro e he hepc
        by_contra hgt
        exact absurd (hafter e he (not_le.mp hgt)).1 (not_lt.mpr (hepc.trans hpc))

/-! ### Sequences of insertions -/

def step (s : RuntimeSymbols) (code : CodeSymbol) : Option RuntimeSymbols :=
  some (s.insertOrReplace code).1

/-- From an empty map, every call of a sequence leaves disjoint spans and the inserted symbol all
over its code exactly if no call inserts code in which a span of the map starts after the first
byte. -/
theorem along_places_iff_along_clear (table : SymbolTable) (codes : List CodeSymbol) :
    Run.Along step Places ⟨.empty, table⟩ codes ↔ Run.Along step Clear ⟨.empty, table⟩ codes := by
  have hiff : ∀ (s : RuntimeSymbols) (code : CodeSymbol),
      s.Sound ∧ s.symbolMap.Disjoint → (s.Places code ↔ s.Clear code) :=
    fun s code hinv => places_iff_clear hinv.1 hinv.2 code
  refine Run.along_iff_along hiff ?_
    ⟨sound_empty table, fun e he => absurd he (not_mem_empty e)⟩ codes
  rintro s code s' ⟨hsound, -⟩ hplaces hstep
  cases hstep
  exact ⟨insertOrReplace_sound hsound code, hplaces.1⟩

/-- A function is written to the file that starts before another one and reaches into it. -/
theorem insertOrReplace_overlaps :
    let compiled : CodeSymbol := ⟨"A".toList, 0x100, 0x40⟩
    let later : CodeSymbol := ⟨"B".toList, 0xe0, 0x40⟩
    let s := (insertOrReplace {} compiled).1
    let res := s.insertOrReplace later
    res.2 = true ∧ ¬ res.1.symbolMap.Disjoint ∧ res.1.FindsNamed 0x110 "A".toList := by
  decide +kernel

end RuntimeSymbols

end Ddprof
