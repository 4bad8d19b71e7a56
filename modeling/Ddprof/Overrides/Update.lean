import Ddprof.Overrides.Basic

/-!
What `update_overrides` does to memory and to the entries of the libraries.

A relocation asks for a hook when its symbol is registered, the reference symbol has been found
and the slot is not exempted. A library without an entry gets one, and each of its slots receives
the hook of the first relocation that asks for one. A library with an entry is left alone.
-/

namespace Ddprof

open UnorderedMap

namespace SymbolOverrides

variable {so so' : SymbolOverrides} {refs memory : ℕ → ℕ} {d : DynamicInfo} {addr : ℕ}

/-! ### One library -/

def hookFor (so : SymbolOverrides) (refs : ℕ → ℕ) (d : DynamicInfo) (reloc : Reloc) : Option ℕ :=
  (AList.lookup (d.symname reloc.sym) so.overrides).bind fun override =>
    if d.slot reloc ≠ override.doNotOverrideThisSymbol ∧ refs override.refSymbol ≠ 0 then
      some override.newSymbol
    else none

/-- The hook of the first relocation at an address that asks for one. -/
def slotHook (so : SymbolOverrides) (refs : ℕ → ℕ) (d : DynamicInfo) (relocs : List Reloc)
    (addr : ℕ) : Option ℕ :=
  relocs.findSome? fun reloc => if d.slot reloc = addr then so.hookFor refs d reloc else none

theorem slotHook_cons (so : SymbolOverrides) (refs : ℕ → ℕ) (d : DynamicInfo) (reloc : Reloc)
    (rest : List Reloc) (addr : ℕ) : so.slotHook refs d (reloc :: rest) addr =
      (if d.slot reloc = addr then so.hookFor refs d reloc else none).or
        (so.slotHook refs d rest addr) := by
  rw [slotHook, List.findSome?_cons, slotHook]
  cases (if d.slot reloc = addr then so.hookFor refs d reloc else none) <;> rfl

theorem processRelocation_eq (so : SymbolOverrides) (refs : ℕ → ℕ) (d : DynamicInfo) (p : Patches)
    (reloc : Reloc) : so.processRelocation refs d p reloc =
      match so.hookFor refs d reloc with
      | none => p
      | some hook =>
        if d.slot reloc ∈ p.oldValuePerAddress then p
        else
          { memory := Function.update p.memory (d.slot reloc) hook
            oldValuePerAddress :=
              AList.insert (d.slot reloc) (p.memory (d.slot reloc)) p.oldValuePerAddress } := by
  rw [processRelocation, hookFor]
  cases AList.lookup (d.symname reloc.sym) so.overrides with
  | none => rfl
  | some override =>
    by_cases hexempt : d.slot reloc = override.doNotOverrideThisSymbol
    · simp [hexempt]
    · by_cases href : refs override.refSymbol = 0
      · simp [href]
      · by_cases hold : d.slot reloc ∈ p.oldValuePerAddress <;> simp [hexempt, href, hold]

/-- A pass over relocations: the slots that had not been replaced get their hooks, and are
replaced afterwards. -/
theorem processRelocations_spec (so : SymbolOverrides) (refs : ℕ → ℕ) (d : DynamicInfo)
    (relocs : List Reloc) (p : Patches) (addr : ℕ) :
    (so.processRelocations refs d relocs p).memory addr =
        (if addr ∈ p.oldValuePerAddress then p.memory addr
          else (so.slotHook refs d relocs addr).getD (p.memory addr)) ∧
      (addr ∈ (so.processRelocations refs d relocs p).oldValuePerAddress ↔
        addr ∈ p.oldValuePerAddress ∨ (so.slotHook refs d relocs addr).isSome) := by
  induction relocs generalizing p with
  | nil => simp [processRelocations, slotHook]
  | cons reloc rest ih =>
    obtain ⟨hmemory, hold⟩ := ih (so.processRelocation refs d p reloc)
    have hfold : so.processRelocations refs d (reloc :: rest) p =
        so.processRelocations refs d rest (so.processRelocation refs d p reloc) := rfl
    rw [hfold, hmemory, hold, processRelocation_eq, slotHook_cons]
    cases hhook : so.hookFor refs d reloc with
    | none => simp
    | some hook =>
      by_cases haddr : d.slot reloc = addr
      · subst haddr
        by_cases hmem : d.slot reloc ∈ p.oldValuePerAddress <;> simp [hmem]
      · have hne : addr ≠ d.slot reloc := fun h => haddr h.symm
        by_cases hmem : d.slot reloc ∈ p.oldValuePerAddress
        · simp [hmem, haddr]
        · simp [hmem, haddr, hne]

/-- The slots of the library hold the hooks that its relocations ask for. -/
def Hooked (so : SymbolOverrides) (refs memory : ℕ → ℕ) (d : DynamicInfo) : Prop :=
  ∀ addr hook, so.slotHook refs d d.relocs addr = some hook → memory addr = hook

theorem mem_slots_of_slotHook {hook : ℕ} (h : so.slotHook refs d d.relocs addr = some hook) :
    addr ∈ d.slots := by
  obtain ⟨reloc, hreloc, hhook⟩ := List.exists_of_findSome?_eq_some h
  split_ifs at hhook with haddr
  exact List.mem_map.mpr ⟨reloc, hreloc, haddr⟩

theorem Hooked.congr (h : so.Hooked refs memory d) {memory' : ℕ → ℕ}
    (hslots : ∀ addr ∈ d.slots, memory' addr = memory addr) : so.Hooked refs memory' d :=
  fun addr hook hhook => (hslots addr (mem_slots_of_slotHook hhook)).trans (h addr hook hhook)

/-- The hooks depend on the registered overrides only. -/
theorem slotHook_of_overrides (h : so'.overrides = so.overrides) :
    so'.slotHook = so.slotHook := by
  have hhook : so'.hookFor = so.hookFor := by
    funext refs d reloc
    rw [hookFor, h, hookFor]
  funext refs d relocs addr
  rw [slotHook, hhook, slotHook]

theorem Hooked.of_overrides (h : so.Hooked refs memory d) (ho : so'.overrides = so.overrides) :
    so'.Hooked refs memory d := by
  intro addr hook hhook
  rw [slotHook_of_overrides ho] at hhook
  exact h addr hook hhook

structure Applied (so : SymbolOverrides) (refs memory : ℕ → ℕ) (d : DynamicInfo)
    (r : SymbolOverrides × (ℕ → ℕ)) : Prop where
  overrides : r.1.overrides = so.overrides
  nbLoadedLibs : r.1.nbLoadedLibs = so.nbLoadedLibs
  entry : ∃ info, AList.lookup d.baseAddress r.1.revertInfoPerLibrary = some info ∧
    info.processed = true
  other : ∀ base, base ≠ d.baseAddress →
    AList.lookup base r.1.revertInfoPerLibrary = AList.lookup base so.revertInfoPerLibrary
  old : d.baseAddress ∈ so.revertInfoPerLibrary → r.2 = memory
  new : d.baseAddress ∉ so.revertInfoPerLibrary → so.Hooked refs r.2 d
  frame : ∀ addr, addr ∉ d.slots → r.2 addr = memory addr

/-- The three tables are gone through as one list. -/
theorem processRelocations_tables (so : SymbolOverrides) (refs : ℕ → ℕ) (d : DynamicInfo)
    (p : Patches) :
    so.processRelocations refs d d.jmprels (so.processRelocations refs d d.relas
      (so.processRelocations refs d d.rels p)) = so.processRelocations refs d d.relocs p := by
  simp [processRelocations, DynamicInfo.relocs, List.foldl_append]

theorem memory_processRelocations (so : SymbolOverrides) (refs memory : ℕ → ℕ) (d : DynamicInfo)
    (addr : ℕ) : (so.processRelocations refs d d.relocs { memory := memory }).memory addr =
      (so.slotHook refs d d.relocs addr).getD (memory addr) :=
  (so.processRelocations_spec refs d d.relocs { memory := memory } addr).1.trans
    (if_neg (AList.notMem_empty addr))

theorem applyOverridesToLibrary_spec (so : SymbolOverrides) (refs memory : ℕ → ℕ) (d : DynamicInfo)
    {libraryName : List Char} (hname : ¬ LoadedLibrary.Skipped libraryName) :
    Applied so refs memory d (so.applyOverridesToLibrary refs memory d libraryName) := by
  rw [applyOverridesToLibrary, if_neg hname]
  cases hentry : AList.lookup d.baseAddress so.revertInfoPerLibrary with
  | some info =>
    refine ⟨rfl, rfl, ⟨_, AList.lookup_insert _, rfl⟩, fun base hbase => ?_, fun _ => rfl,
      fun hnew => ?_, fun _ _ => rfl⟩
    · exact AList.lookup_insert_ne hbase
    · exact absurd (AList.lookup_isSome.mp (by rw [hentry]; rfl)) hnew
  | none =>
    have hmemory := so.memory_processRelocations refs memory d
    simp only [processRelocations_tables]
    refine ⟨rfl, rfl, ⟨_, AList.lookup_insert _, rfl⟩, fun base hbase => ?_, fun hold => ?_,
      fun _ addr hook hhook => ?_, fun addr haddr => ?_⟩
    · exact AList.lookup_insert_ne hbase
    · have := AList.lookup_isSome.mpr hold
      rw [hentry] at this
      cases this
    · exact (hmemory addr).trans (by rw [hhook]; rfl)
    · refine (hmemory addr).trans ?_
      cases hhook : so.slotHook refs d d.relocs addr with
      | none => rfl
      | some hook => exact absurd (mem_slots_of_slotHook hhook) haddr

end SymbolOverrides

/-! ### All libraries -/

def LoadedLibrary.target (isExe : Bool) (lib : LoadedLibrary) : Option DynamicInfo :=
  if Skipped lib.dlpiName then none else lib.retrieveDynamicInfo (!isExe)

theorem LoadedLibrary.not_skipped_of_target {isExe : Bool} {lib : LoadedLibrary} {d : DynamicInfo}
    (h : lib.target isExe = some d) : ¬ Skipped lib.dlpiName := by
  intro hname
  rw [target, if_pos hname] at h
  cases h

/-- The libraries that are not left out; the first one of the list is the executable. -/
def targets : Bool → List LoadedLibrary → List DynamicInfo
  | _, [] => []
  | isExe, lib :: rest => (lib.target isExe).toList ++ targets false rest

/-- No two libraries share their base address or a slot. -/
def Apart (ds : List DynamicInfo) : Prop :=
  ds.Pairwise fun d d' => d.baseAddress ≠ d'.baseAddress ∧ ∀ addr ∈ d.slots, addr ∉ d'.slots

theorem apart_of_ne {ds : List DynamicInfo} (h : Apart ds) {d d' : DynamicInfo} (hd : d ∈ ds)
    (hd' : d' ∈ ds) (hne : d ≠ d') : ∀ addr ∈ d.slots, addr ∉ d'.slots := by
  have hsymm : Std.Symm fun d d' : DynamicInfo =>
      d.baseAddress ≠ d'.baseAddress ∧ ∀ addr ∈ d.slots, addr ∉ d'.slots :=
    ⟨fun _ _ h => ⟨h.1.symm, fun addr haddr haddr' => h.2 addr haddr' haddr⟩⟩
  exact (List.Pairwise.forall h hd hd' hne).2

namespace SymbolOverrides

variable {so : SymbolOverrides} {refs memory : ℕ → ℕ}

structure Updated (so : SymbolOverrides) (refs memory : ℕ → ℕ) (ds : List DynamicInfo)
    (r : SymbolOverrides × (ℕ → ℕ)) : Prop where
  overrides : r.1.overrides = so.overrides
  nbLoadedLibs : r.1.nbLoadedLibs = so.nbLoadedLibs
  entry : ∀ d ∈ ds, ∃ info, AList.lookup d.baseAddress r.1.revertInfoPerLibrary = some info ∧
    info.processed = true
  new : ∀ d ∈ ds, d.baseAddress ∉ so.revertInfoPerLibrary → so.Hooked refs r.2 d
  frame : ∀ addr, (∀ d ∈ ds, d.baseAddress ∉ so.revertInfoPerLibrary → addr ∉ d.slots) →
    r.2 addr = memory addr
  other : ∀ base, (∀ d ∈ ds, d.baseAddress ≠ base) →
    AList.lookup base r.1.revertInfoPerLibrary = AList.lookup base so.revertInfoPerLibrary

theorem mem_of_lookup_eq {so so' : SymbolOverrides} {base : ℕ}
    (h : AList.lookup base so'.revertInfoPerLibrary = AList.lookup base so.revertInfoPerLibrary) :
    base ∈ so'.revertInfoPerLibrary ↔ base ∈ so.revertInfoPerLibrary := by
  rw [← AList.lookup_isSome, h, AList.lookup_isSome]

theorem Applied.updated {d : DynamicInfo} {ds : List DynamicInfo} {r r' : SymbolOverrides × (ℕ → ℕ)}
    (h : Applied so refs memory d r) (hapart : Apart (d :: ds)) (hr' : Updated r.1 refs r.2 ds r') :
    Updated so refs memory (d :: ds) r' := by
  obtain ⟨hd, -⟩ := List.pairwise_cons.mp hapart
  have hmem : ∀ d' ∈ ds, d'.baseAddress ∈ r.1.revertInfoPerLibrary ↔
      d'.baseAddress ∈ so.revertInfoPerLibrary := fun d' hd' =>
    mem_of_lookup_eq (h.other _ (hd d' hd').1.symm)
  have hslots : ∀ addr ∈ d.slots, r'.2 addr = r.2 addr := fun addr haddr =>
    hr'.frame addr fun d' hd' _ => (hd d' hd').2 addr haddr
  refine ⟨hr'.overrides.trans h.overrides, hr'.nbLoadedLibs.trans h.nbLoadedLibs, ?_, ?_, ?_, ?_⟩
  · intro d' hd'
    obtain rfl | hd' := List.mem_cons.mp hd'
    · rw [hr'.other _ fun d' hd' => (hd d' hd').1.symm]
      exact h.entry
    · exact hr'.entry d' hd'
  · intro d' hd' hnew
    obtain rfl | hd' := List.mem_cons.mp hd'
    · exact (h.new hnew).congr hslots
    · exact (hr'.new d' hd' (mt (hmem d' hd').mp hnew)).of_overrides h.overrides.symm
  · intro addr haddr
    have hrest : ∀ d' ∈ ds, d'.baseAddress ∉ r.1.revertInfoPerLibrary → addr ∉ d'.slots :=
      fun d' hd' hnew => haddr d' (List.mem_cons_of_mem d hd') (mt (hmem d' hd').mpr hnew)
    rw [hr'.frame addr hrest]
    by_cases hold : d.baseAddress ∈ so.revertInfoPerLibrary
    · rw [h.old hold]
    · exact h.frame addr (haddr d List.mem_cons_self hold)
  · intro base hbase
    rw [hr'.other base fun d' hd' => hbase d' (List.mem_cons_of_mem d hd')]
    exact h.other base (hbase d List.mem_cons_self).symm

/-- The step of the iteration, in terms of the libraries that are not left out. -/
theorem updateLibraries_cons (refs : ℕ → ℕ) (isExe : Bool) (lib : LoadedLibrary)
    (rest : List LoadedLibrary) (so : SymbolOverrides) (memory : ℕ → ℕ) :
    updateLibraries refs isExe (lib :: rest) so memory =
      match lib.target isExe with
      | none => updateLibraries refs false rest so memory
      | some d =>
        let r := so.applyOverridesToLibrary refs memory d lib.dlpiName
        updateLibraries refs false rest r.1 r.2 := by
  rw [updateLibraries, LoadedLibrary.target]
  by_cases hname : LoadedLibrary.Skipped lib.dlpiName
  · cases lib.retrieveDynamicInfo (!isExe) <;> simp [hname, applyOverridesToLibrary]
  · rw [if_neg hname]
    cases lib.retrieveDynamicInfo (!isExe) <;> rfl

theorem updateLibraries_spec (refs : ℕ → ℕ) (isExe : Bool) (libs : List LoadedLibrary)
    (hapart : Apart (targets isExe libs)) (so : SymbolOverrides) (memory : ℕ → ℕ) :
    Updated so refs memory (targets isExe libs) (updateLibraries refs isExe libs so memory) := by
  induction libs generalizing isExe so memory with
  | nil => exact ⟨rfl, rfl, nofun, nofun, fun _ _ => rfl, fun _ _ => rfl⟩
  | cons lib rest ih =>
    rw [updateLibraries_cons]
    rw [targets] at hapart ⊢
    cases htarget : lib.target isExe with
    | none =>
      rw [htarget] at hapart
      exact ih false hapart so memory
    | some d =>
      rw [htarget] at hapart
      have hname := LoadedLibrary.not_skipped_of_target htarget
      exact (so.applyOverridesToLibrary_spec refs memory d hname).updated hapart
        (ih false (List.pairwise_cons.mp hapart).2 _ _)

/-! ### Marks -/

theorem mem_unmark {base : ℕ} :
    base ∈ so.unmark.revertInfoPerLibrary ↔ base ∈ so.revertInfoPerLibrary := by
  rw [← AList.lookup_isSome, unmark, lookup_mapValues, Option.isSome_map, AList.lookup_isSome]

theorem lookup_sweep {base : ℕ} {info : LibraryRevertInfo}
    (h : AList.lookup base so.revertInfoPerLibrary = some info) (hinfo : info.processed = true) :
    AList.lookup base so.sweep.revertInfoPerLibrary = some info := by
  rw [sweep, lookup_eraseAll, if_neg, h]
  intro hmem
  obtain ⟨e, he, rfl⟩ := List.mem_map.mp hmem
  obtain ⟨he, hprocessed⟩ := List.mem_filter.mp he
  rw [AList.mem_lookup_iff.mpr he] at h
  cases h
  simp [hinfo] at hprocessed

/-- An update that is not skipped: all libraries have an entry afterwards, those that had none
hold their hooks, and the memory of the others is as it was. -/
theorem updateOverrides_spec {libraries : List LoadedLibrary} {dlpiAdds : ℕ}
    (hapart : Apart (targets true libraries))
    (hcount : countLoadedLibraries libraries dlpiAdds ≠ so.nbLoadedLibs) (refs memory : ℕ → ℕ) :
    let r := so.updateOverrides refs libraries dlpiAdds memory
    r.1.overrides = so.overrides ∧
      r.1.nbLoadedLibs = countLoadedLibraries libraries dlpiAdds ∧
      ∀ d ∈ targets true libraries, d.baseAddress ∈ r.1.revertInfoPerLibrary ∧
        (so.Hooked refs memory d ∨ d.baseAddress ∉ so.revertInfoPerLibrary →
          r.1.Hooked refs r.2 d) := by
  have hspec := updateLibraries_spec refs true libraries hapart
    (unmark { so with nbLoadedLibs := countLoadedLibraries libraries dlpiAdds }) memory
  rw [updateOverrides]
  simp only [if_neg hcount]
  refine ⟨hspec.overrides, hspec.nbLoadedLibs, fun d hd => ⟨?_, fun hhooked => ?_⟩⟩
  · obtain ⟨info, hinfo, hprocessed⟩ := hspec.entry d hd
    exact AList.lookup_isSome.mp (by rw [lookup_sweep hinfo hprocessed]; rfl)
  · refine Hooked.of_overrides ?_ hspec.overrides
    by_cases hnew : d.baseAddress ∈ so.revertInfoPerLibrary
    · have hold := hhooked.resolve_right (not_not_intro hnew)
      refine Hooked.congr (hold.of_overrides rfl) fun addr haddr => hspec.frame addr ?_
      intro d' hd' hnew' haddr'
      by_cases heq : d' = d
      · subst heq
        exact hnew' (mem_unmark.mpr hnew)
      · exact apart_of_ne hapart hd hd' (Ne.symm heq) addr haddr haddr'
    · exact hspec.new d hd (mt mem_unmark.mp hnew)

end SymbolOverrides

end Ddprof
