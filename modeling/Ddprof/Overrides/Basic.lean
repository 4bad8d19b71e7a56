import Ddprof.Lib.UnorderedMap
import Mathlib.Data.List.Infix

/-!
`SymbolOverrides`: calls of some functions are redirected to hooks by writing to the relocation
slots of the loaded libraries.

The libraries are those that `dl_iterate_phdr` lists, the executable first. What the program reads
from the dynamic section of a library is given with the library: the names of its symbols, its
relocations, and the search in its hash table. Memory is a map from addresses to words, and
`mprotect` succeeds. A reference symbol is a variable of the profiling library; the variables are
kept apart from the memory of the loaded libraries.
-/

namespace Ddprof

/-! ### Libraries -/

structure Reloc where
  rOffset : ℕ
  -- `ELF64_R_SYM(r_info)`
  sym : ℕ
  deriving DecidableEq, Repr

structure ElfSym where
  stValue : ℕ
  stSize : ℕ
  deriving DecidableEq, Repr

/-- What `retrieve_dynamic_info` finds. -/
structure DynamicInfo where
  -- The name in `strtab` of the symbol with an index in `symtab`.
  symname : ℕ → List Char
  rels : List Reloc
  relas : List Reloc
  jmprels : List Reloc
  gnuHashLookup : List Char → Option ElfSym
  baseAddress : ℕ

namespace DynamicInfo

/-- The relocations in the order in which they are processed. -/
def relocs (d : DynamicInfo) : List Reloc := d.rels ++ d.relas ++ d.jmprels

def slot (d : DynamicInfo) (reloc : Reloc) : ℕ := (reloc.rOffset + d.baseAddress) % 2 ^ 64

def slots (d : DynamicInfo) : List ℕ := d.relocs.map d.slot

end DynamicInfo

structure LoadedLibrary where
  dlpiName : List Char
  dlpiAddr : ℕ
  -- The dynamic section, unless it or one of its tables is missing.
  dynamic : Option DynamicInfo
  -- The library holds the code of the profiling library.
  self : Bool := false
  -- The contents of the relocation slots after loading.
  initial : ℕ → ℕ := fun _ => 0

namespace LoadedLibrary

def retrieveDynamicInfo (lib : LoadedLibrary) (excludeSelf : Bool) : Option DynamicInfo :=
  if excludeSelf && lib.self then none
  else lib.dynamic.map fun d => { d with baseAddress := lib.dlpiAddr }

def slots (lib : LoadedLibrary) : List ℕ :=
  ((lib.retrieveDynamicInfo false).map DynamicInfo.slots).getD []

/-- The names that `apply_overrides_to_library` skips. -/
def Skipped (name : List Char) : Prop :=
  "linux-vdso".toList <:+: name ∨ "/ld-linux".toList <:+: name

instance (name : List Char) : Decidable (Skipped name) :=
  inferInstanceAs (Decidable (_ ∨ _))

end LoadedLibrary

/-! ### Lookup of symbols -/

/-- `SymbolLookup` for one library, without symbols of size zero. -/
def lookupIn (name : List Char) (lib : LoadedLibrary) : Option ElfSym :=
  (lib.retrieveDynamicInfo false).bind fun d =>
    (d.gnuHashLookup name).bind fun s =>
      let value := (s.stValue + d.baseAddress) % 2 ^ 64
      if 0 < s.stSize ∧ value ≠ 0 then some ⟨value, s.stSize⟩ else none

/-- `lookup_symbol(symbol_name, false)`: the first library that has the symbol. -/
def lookupSymbol (libraries : List LoadedLibrary) (name : List Char) : ElfSym :=
  (libraries.findSome? (lookupIn name)).getD ⟨0, 0⟩

/-- `count_loaded_libraries`: the counter of loads, as an `int`. -/
def countLoadedLibraries (libraries : List LoadedLibrary) (dlpiAdds : ℕ) : ℤ :=
  if libraries = [] then 0 else (dlpiAdds : ℤ).bmod (2 ^ 32)

/-! ### The class -/

structure SymbolOverrideInfo where
  -- The variable that holds the address of the overridden symbol.
  refSymbol : ℕ
  newSymbol : ℕ
  doNotOverrideThisSymbol : ℕ
  deriving DecidableEq, Repr

structure LibraryRevertInfo where
  libraryName : List Char
  oldValuePerAddress : UnorderedMap ℕ ℕ := ∅
  processed : Bool := false

structure SymbolOverrides where
  revertInfoPerLibrary : UnorderedMap ℕ LibraryRevertInfo := ∅
  overrides : UnorderedMap (List Char) SymbolOverrideInfo := ∅
  nbLoadedLibs : ℤ := -1

/-- The memory while a library is processed, with the values that have been replaced. -/
structure Patches where
  memory : ℕ → ℕ
  oldValuePerAddress : UnorderedMap ℕ ℕ := ∅

namespace SymbolOverrides

def processRelocation (so : SymbolOverrides) (refs : ℕ → ℕ) (d : DynamicInfo) (p : Patches)
    (reloc : Reloc) : Patches :=
  match AList.lookup (d.symname reloc.sym) so.overrides with
  | none => p
  | some override =>
    let addr := d.slot reloc
    if addr ≠ override.doNotOverrideThisSymbol ∧ addr ∉ p.oldValuePerAddress ∧
        refs override.refSymbol ≠ 0 then
      { memory := Function.update p.memory addr override.newSymbol
        oldValuePerAddress := AList.insert addr (p.memory addr) p.oldValuePerAddress }
    else p

def processRelocations (so : SymbolOverrides) (refs : ℕ → ℕ) (d : DynamicInfo)
    (relocs : List Reloc) (p : Patches) : Patches :=
  relocs.foldl (so.processRelocation refs d) p

def applyOverridesToLibrary (so : SymbolOverrides) (refs memory : ℕ → ℕ) (d : DynamicInfo)
    (libraryName : List Char) : SymbolOverrides × (ℕ → ℕ) :=
  if LoadedLibrary.Skipped libraryName then (so, memory)
  else
    match AList.lookup d.baseAddress so.revertInfoPerLibrary with
    | some info =>
      -- not a new library
      let entries := AList.insert d.baseAddress { info with processed := true }
        so.revertInfoPerLibrary
      ({ so with revertInfoPerLibrary := entries }, memory)
    | none =>
      let p := so.processRelocations refs d d.rels { memory := memory }
      let p := so.processRelocations refs d d.relas p
      let p := so.processRelocations refs d d.jmprels p
      let entries := AList.insert d.baseAddress ⟨libraryName, p.oldValuePerAddress, true⟩
        so.revertInfoPerLibrary
      ({ so with revertInfoPerLibrary := entries }, p.memory)

/-- The iteration of `update_overrides` over the libraries; the profiling library is left out
unless it is part of the executable. -/
def updateLibraries (refs : ℕ → ℕ) :
    Bool → List LoadedLibrary → SymbolOverrides → (ℕ → ℕ) → SymbolOverrides × (ℕ → ℕ)
  | _, [], so, memory => (so, memory)
  | isExe, lib :: rest, so, memory =>
    let r := match lib.retrieveDynamicInfo (!isExe) with
      | some d => so.applyOverridesToLibrary refs memory d lib.dlpiName
      | none => (so, memory)
    updateLibraries refs false rest r.1 r.2

def unmark (so : SymbolOverrides) : SymbolOverrides :=
  { so with revertInfoPerLibrary :=
      so.revertInfoPerLibrary.mapValues fun _ info => { info with processed := false } }

/-- The entries of libraries that are not there any more are removed. -/
def sweep (so : SymbolOverrides) : SymbolOverrides :=
  let gone := (so.revertInfoPerLibrary.entries.filter fun e => !e.2.processed).map Sigma.fst
  { so with revertInfoPerLibrary := so.revertInfoPerLibrary.eraseAll gone }

def updateOverrides (so : SymbolOverrides) (refs : ℕ → ℕ) (libraries : List LoadedLibrary)
    (dlpiAdds : ℕ) (memory : ℕ → ℕ) : SymbolOverrides × (ℕ → ℕ) :=
  let nbLoadedLibraries := countLoadedLibraries libraries dlpiAdds
  if nbLoadedLibraries = so.nbLoadedLibs then (so, memory)
  else
    let so := unmark { so with nbLoadedLibs := nbLoadedLibraries }
    let r := updateLibraries refs true libraries so memory
    (r.1.sweep, r.2)

/-- The lookups of `apply_overrides`. -/
def lookupRefs (so : SymbolOverrides) (libraries : List LoadedLibrary) (refs : ℕ → ℕ) : ℕ → ℕ :=
  so.overrides.entries.foldl (fun refs e =>
    let symbol := lookupSymbol libraries e.1
    if 0 < symbol.stValue ∧ 0 < symbol.stSize then
      Function.update refs e.2.refSymbol symbol.stValue
    else refs) refs

/-- The slots of a library get their old values back. -/
def restoreLibraryOverrides (so : SymbolOverrides) (libraryName : List Char) (baseAddress : ℕ)
    (memory : ℕ → ℕ) : ℕ → ℕ :=
  match AList.lookup baseAddress so.revertInfoPerLibrary with
  | none => memory
  | some info =>
    if info.libraryName ≠ libraryName then memory
    else info.oldValuePerAddress.entries.foldl (fun m e => Function.update m e.1 e.2) memory

def restoreOverrides (so : SymbolOverrides) (libraries : List LoadedLibrary) (memory : ℕ → ℕ) :
    SymbolOverrides × (ℕ → ℕ) :=
  ({ so with revertInfoPerLibrary := ∅ },
    libraries.foldl (fun m lib => so.restoreLibraryOverrides lib.dlpiName lib.dlpiAddr m) memory)

end SymbolOverrides

end Ddprof
