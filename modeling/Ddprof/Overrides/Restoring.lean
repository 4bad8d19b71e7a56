import Ddprof.Overrides.Histories

/-!
Overrides that are applied, updated and restored while the libraries stay the same.

Each library keeps the values that its slots had when it was processed, and `restore_overrides` goes
through the libraries in the order in which they have been processed. A slot that several
relocations of one library refer to is saved once. A slot of two libraries would be saved by both,
and the second one would save the hook of the first. Loaded libraries have their memory for
themselves, so that nothing is lost.

The words of the memory do not overlap, as all slots are aligned.
-/

namespace Ddprof

namespace SymbolOverrides

variable {so so' : SymbolOverrides} {refs memory : ℕ → ℕ} {d : DynamicInfo} {addr : ℕ}

/-! ### One library -/

def hook (so : SymbolOverrides) (refs : ℕ → ℕ) (memory : ℕ → ℕ) (d : DynamicInfo) : ℕ → ℕ :=
  fun addr => (so.slotHook refs d d.relocs addr).getD (memory addr)

/-- The entry holds the values that the slots with a hook had in a memory. -/
def Saves (so : SymbolOverrides) (refs memory : ℕ → ℕ) (d : DynamicInfo)
    (oldValuePerAddress : UnorderedMap ℕ ℕ) : Prop :=
  ∀ addr, AList.lookup addr oldValuePerAddress =
    (so.slotHook refs d d.relocs addr).map fun _ => memory addr

/-- A slot is saved before its first hook, and stays as it was saved. -/
theorem lookup_processRelocations (so : SymbolOverrides) (refs : ℕ → ℕ) (d : DynamicInfo)
    (relocs : List Reloc) (p : Patches) (addr : ℕ) :
    AList.lookup addr (so.processRelocations refs d relocs p).oldValuePerAddress =
      (AList.lookup addr p.oldValuePerAddress).or
        ((so.slotHook refs d relocs addr).map fun _ => p.memory addr) := by
  induction relocs generalizing p with
  | nil => exact (Option.or_none).symm
  | cons reloc rest ih =>
    have hfold : so.processRelocations refs d (reloc :: rest) p =
        so.processRelocations refs d rest (so.processRelocation refs d p reloc) := rfl
    rw [hfold, ih, processRelocation_eq, slotHook_cons]
    cases hhook : so.hookFor refs d reloc with
    | none => simp
    | some hook =>
      by_cases haddr : d.slot reloc = addr
      · subst haddr
        by_cases hmem : d.slot reloc ∈ p.oldValuePerAddress
        · obtain ⟨old, hold⟩ := Option.isSome_iff_exists.mp (AList.lookup_isSome.mpr hmem)
          simp [hmem, hold]
        · simp [hmem, AList.lookup_eq_none.mpr hmem]
      · have hne : addr ≠ d.slot reloc := fun h => haddr h.symm
        by_cases hmem : d.slot reloc ∈ p.oldValuePerAddress
        · simp [hmem, haddr]
        · simp [hmem, haddr, hne]

/-- A library without an entry gets its hooks, and an entry with what was there before. -/
theorem applyOverridesToLibrary_new (so : SymbolOverrides) (refs memory : ℕ → ℕ)
    {libraryName : List Char} (hname : ¬ LoadedLibrary.Skipped libraryName)
    (hnew : AList.lookup d.baseAddress so.revertInfoPerLibrary = none) :
    ∃ old after, so.Saves refs memory d old ∧
      so.applyOverridesToLibrary refs memory d libraryName = (after, so.hook refs memory d) ∧
      after.overrides = so.overrides ∧ after.nbLoadedLibs = so.nbLoadedLibs ∧
      after.revertInfoPerLibrary =
        AList.insert d.baseAddress ⟨libraryName, old, true⟩ so.revertInfoPerLibrary := by
  have hmemory : (so.processRelocations refs d d.relocs { memory := memory }).memory =
      so.hook refs memory d := by
    funext addr
    exact so.memory_processRelocations refs memory d addr
  have happly : so.applyOverridesToLibrary refs memory d libraryName =
      ({ so with
          revertInfoPerLibrary := AList.insert d.baseAddress ⟨libraryName,
            (so.processRelocations refs d d.relocs { memory := memory }).oldValuePerAddress, true⟩
            so.revertInfoPerLibrary }, so.hook refs memory d) := by
    rw [applyOverridesToLibrary, if_neg hname, hnew]
    simp only [processRelocations_tables, hmemory]
  refine ⟨_, _, fun addr => ?_, happly, rfl, rfl, rfl⟩
  rw [lookup_processRelocations]
  exact Option.none_or

/-! ### All libraries -/

/-- What the entries are after the libraries have been processed one after the other, from a memory
on. -/
def Entries (so : SymbolOverrides) (refs : ℕ → ℕ)
    (entries : UnorderedMap ℕ LibraryRevertInfo) : Bool → List LoadedLibrary → (ℕ → ℕ) → Prop
  | _, [], _ => True
  | isExe, lib :: rest, memory =>
    match lib.target isExe with
    | none => AList.lookup lib.dlpiAddr entries = none ∧ Entries so refs entries false rest memory
    | some d =>
      (∃ old, so.Saves refs memory d old ∧
        AList.lookup lib.dlpiAddr entries = some ⟨lib.dlpiName, old, true⟩) ∧
      Entries so refs entries false rest (so.hook refs memory d)

variable {isExe : Bool} {libs : List LoadedLibrary}

/-- The entries of the libraries are all that counts. -/
theorem Entries.congr {entries entries' : UnorderedMap ℕ LibraryRevertInfo}
    (h : Entries so refs entries isExe libs memory)
    (hso : so'.overrides = so.overrides)
    (hentries : ∀ lib ∈ libs,
      AList.lookup lib.dlpiAddr entries' = AList.lookup lib.dlpiAddr entries) :
    Entries so' refs entries' isExe libs memory := by
  have hslots := slotHook_of_overrides hso
  induction libs generalizing isExe memory with
  | nil => trivial
  | cons lib rest ih =>
    obtain ⟨hlib, hrest⟩ := List.forall_mem_cons.mp hentries
    rw [Entries] at h ⊢
    cases htarget : lib.target isExe with
    | none =>
      rw [htarget] at h
      exact ⟨hlib.trans h.1, ih h.2 hrest⟩
    | some d =>
      rw [htarget] at h
      obtain ⟨⟨old, hsaves, hold⟩, htail⟩ := h
      have hhook : so'.hook refs memory d = so.hook refs memory d := by
        funext addr
        rw [hook, hslots, hook]
      refine ⟨⟨old, ?_, hlib.trans hold⟩, hhook ▸ ih htail hrest⟩
      intro addr
      rw [hslots]
      exact hsaves addr

/-- What happens to libraries that have no entries: they are processed one after the other. -/
structure UpdatedNew (so : SymbolOverrides) (refs memory : ℕ → ℕ) (isExe : Bool)
    (libs : List LoadedLibrary) (r : SymbolOverrides × (ℕ → ℕ)) : Prop where
  overrides : r.1.overrides = so.overrides
  nbLoadedLibs : r.1.nbLoadedLibs = so.nbLoadedLibs
  memory_eq : r.2 = (targets isExe libs).foldl (so.hook refs) memory
  entries : Entries so refs r.1.revertInfoPerLibrary isExe libs memory
  other : ∀ base, (∀ lib ∈ libs, lib.dlpiAddr ≠ base) →
    AList.lookup base r.1.revertInfoPerLibrary = AList.lookup base so.revertInfoPerLibrary

theorem updateLibraries_new (refs : ℕ → ℕ) (isExe : Bool)
    (hbases : libs.Pairwise fun lib lib' => lib.dlpiAddr ≠ lib'.dlpiAddr)
    (hnew : ∀ lib ∈ libs, AList.lookup lib.dlpiAddr so.revertInfoPerLibrary = none)
    (memory : ℕ → ℕ) :
    UpdatedNew so refs memory isExe libs (updateLibraries refs isExe libs so memory) := by
  induction libs generalizing isExe so memory with
  | nil => exact ⟨rfl, rfl, rfl, trivial, fun _ _ => rfl⟩
  | cons lib rest ih =>
    obtain ⟨hlib, hrest⟩ := List.pairwise_cons.mp hbases
    obtain ⟨hlibNew, hrestNew⟩ := List.forall_mem_cons.mp hnew
    rw [updateLibraries_cons]
    cases htarget : lib.target isExe with
    | none =>
      have hr := ih false hrest hrestNew memory
      refine ⟨hr.overrides, hr.nbLoadedLibs, ?_, ?_, fun base hbase =>
        hr.other base fun lib' hlib' => hbase lib' (List.mem_cons_of_mem _ hlib')⟩
      · rw [targets, htarget]
        exact hr.memory_eq
      · rw [Entries, htarget]
        exact ⟨(hr.other _ fun lib' hlib' => (hlib lib' hlib').symm).trans hlibNew, hr.entries⟩
    | some d =>
      have hbase := (target_spec htarget).1
      obtain ⟨old, mid, hsaves, happly, hmid, hcount, hentry⟩ :=
        so.applyOverridesToLibrary_new refs memory (LoadedLibrary.not_skipped_of_target htarget)
          (hbase ▸ hlibNew)
      have hmidNew : ∀ lib' ∈ rest,
          AList.lookup lib'.dlpiAddr mid.revertInfoPerLibrary = none := by
        intro lib' hlib'
        rw [hentry, AList.lookup_insert_ne (hbase ▸ (hlib lib' hlib').symm)]
        exact hrestNew lib' hlib'
      have hhook : mid.hook refs = so.hook refs := by
        funext memory d addr
        rw [hook, slotHook_of_overrides hmid, hook]
      have hr := ih false hrest hmidNew (so.hook refs memory d)
      simp only [happly]
      refine ⟨hr.overrides.trans hmid, hr.nbLoadedLibs.trans hcount, ?_, ?_, fun base hne => ?_⟩
      · rw [targets, htarget, hr.memory_eq, hhook]
        rfl
      · rw [Entries, htarget]
        refine ⟨⟨old, hsaves, ?_⟩, hr.entries.congr hmid.symm fun _ _ => rfl⟩
        rw [hr.other _ fun lib' hlib' => (hlib lib' hlib').symm, hentry, ← hbase,
          AList.lookup_insert]
      · obtain ⟨hlibNe, hrestNe⟩ := List.forall_mem_cons.mp hne
        rw [hr.other base hrestNe, hentry, AList.lookup_insert_ne (hbase ▸ hlibNe.symm)]

/-- The entries of the libraries that have just been processed are not swept. -/
theorem Entries.sweep (h : Entries so refs so'.revertInfoPerLibrary isExe libs memory) :
    Entries so refs so'.sweep.revertInfoPerLibrary isExe libs memory := by
  induction libs generalizing isExe memory with
  | nil => trivial
  | cons lib rest ih =>
    rw [Entries] at h ⊢
    cases htarget : lib.target isExe with
    | none =>
      rw [htarget] at h
      refine ⟨?_, ih h.2⟩
      rw [SymbolOverrides.sweep, UnorderedMap.lookup_eraseAll, h.1, ite_self]
    | some d =>
      rw [htarget] at h
      obtain ⟨⟨old, hsaves, hold⟩, hrest⟩ := h
      exact ⟨⟨old, hsaves, lookup_sweep hold rfl⟩, ih hrest⟩

/-! ### Restoring -/

def unhook (so : SymbolOverrides) (refs : ℕ → ℕ) :
    Bool → List LoadedLibrary → (ℕ → ℕ) → (ℕ → ℕ) → ℕ → ℕ
  | _, [], _, current => current
  | isExe, lib :: rest, memory, current =>
    match lib.target isExe with
    | none => unhook so refs false rest memory current
    | some d => unhook so refs false rest (so.hook refs memory d) fun addr =>
      ((so.slotHook refs d d.relocs addr).map fun _ => memory addr).getD (current addr)

theorem Entries.restore
    (h : Entries so refs so'.revertInfoPerLibrary isExe libs memory) (current : ℕ → ℕ) :
    libs.foldl (fun m lib => so'.restoreLibraryOverrides lib.dlpiName lib.dlpiAddr m) current =
      so.unhook refs isExe libs memory current := by
  induction libs generalizing isExe memory current with
  | nil => rfl
  | cons lib rest ih =>
    rw [Entries] at h
    rw [List.foldl_cons, unhook, restoreLibraryOverrides]
    cases htarget : lib.target isExe with
    | none =>
      rw [htarget] at h
      rw [h.1]
      exact ih h.2 current
    | some d =>
      rw [htarget] at h
      obtain ⟨⟨old, hsaves, hold⟩, hrest⟩ := h
      simp only [hold, ne_eq, not_true_eq_false, if_false]
      rw [ih hrest]
      congr 1
      funext addr
      rw [UnorderedMap.foldl_update_entries, hsaves]

/-- No slot gets hooks from two libraries. -/
def Unshared (so : SymbolOverrides) (refs : ℕ → ℕ) (ds : List DynamicInfo) : Prop :=
  ds.Pairwise fun d d' => ∀ addr,
    so.slotHook refs d d.relocs addr = none ∨ so.slotHook refs d' d'.relocs addr = none

variable {ds : List DynamicInfo}

theorem foldl_hook_of_forall_none
    (h : ∀ d ∈ ds, so.slotHook refs d d.relocs addr = none) (memory : ℕ → ℕ) :
    ds.foldl (so.hook refs) memory addr = memory addr := by
  induction ds generalizing memory with
  | nil => rfl
  | cons d ds ih =>
    obtain ⟨hd, hds⟩ := List.forall_mem_cons.mp h
    rw [List.foldl_cons, ih hds, hook, hd]
    rfl

theorem unhook_of_forall_none
    (h : ∀ d ∈ targets isExe libs, so.slotHook refs d d.relocs addr = none)
    (memory current : ℕ → ℕ) : so.unhook refs isExe libs memory current addr = current addr := by
  induction libs generalizing isExe memory current with
  | nil => rfl
  | cons lib rest ih =>
    rw [targets] at h
    obtain ⟨hlib, hrest⟩ := List.forall_mem_append.mp h
    rw [unhook]
    cases htarget : lib.target isExe with
    | none => exact ih hrest memory current
    | some d =>
      simp only
      rw [ih hrest, hlib d (Option.mem_toList.mpr htarget)]
      rfl

/-- A slot with hooks from one library gets back what it had. -/
theorem unhook_of_unshared (h : so.Unshared refs (targets isExe libs))
    (hsome : ∃ d ∈ targets isExe libs, so.slotHook refs d d.relocs addr ≠ none)
    (memory current : ℕ → ℕ) : so.unhook refs isExe libs memory current addr = memory addr := by
  induction libs generalizing isExe memory current with
  | nil =>
    obtain ⟨d, hd, -⟩ := hsome
    cases hd
  | cons lib rest ih =>
    rw [Unshared, targets] at h
    obtain ⟨-, hrest, hboth⟩ := List.pairwise_append.mp h
    rw [targets] at hsome
    rw [unhook]
    cases htarget : lib.target isExe with
    | none =>
      rw [htarget] at hsome
      exact ih hrest hsome memory current
    | some d =>
      rw [htarget] at hsome hboth
      simp only
      cases hhook : so.slotHook refs d d.relocs addr with
      | some value =>
        -- the libraries after it have no hook there
        have hnone : ∀ d' ∈ targets false rest,
            so.slotHook refs d' d'.relocs addr = none := fun d' hd' =>
          (hboth d (Option.mem_toList.mpr rfl) d' hd' addr).resolve_left
            (by rw [hhook]; exact Option.some_ne_none _)
        rw [unhook_of_forall_none hnone, hhook]
        rfl
      | none =>
        have hlater : ∃ d' ∈ targets false rest,
            so.slotHook refs d' d'.relocs addr ≠ none := by
          obtain ⟨d', hd', hne⟩ := hsome
          rcases List.mem_append.mp hd' with hd' | hd'
          · obtain rfl := Option.some.inj (Option.mem_toList.mp hd')
            exact absurd hhook hne
          · exact ⟨d', hd', hne⟩
        rw [ih hrest hlater, hook, hhook]
        rfl

theorem unhook_foldl_hook (h : so.Unshared refs (targets isExe libs)) (memory : ℕ → ℕ) :
    so.unhook refs isExe libs memory ((targets isExe libs).foldl (so.hook refs) memory) =
      memory := by
  funext addr
  by_cases hsome : ∃ d ∈ targets isExe libs, so.slotHook refs d d.relocs addr ≠ none
  · exact unhook_of_unshared h hsome memory _
  · push Not at hsome
    rw [unhook_of_forall_none hsome, foldl_hook_of_forall_none hsome]

/-! ### Updates from no entries -/

/-- An update from no entries is skipped, or processes the libraries one after the other. -/
theorem updateOverrides_new {libraries : List LoadedLibrary}
    (hbases : libraries.Pairwise fun lib lib' => lib.dlpiAddr ≠ lib'.dlpiAddr)
    (hnew : so.revertInfoPerLibrary = ∅) (refs memory : ℕ → ℕ) (dlpiAdds : ℕ) :
    let r := so.updateOverrides refs libraries dlpiAdds memory
    r.1.nbLoadedLibs = countLoadedLibraries libraries dlpiAdds ∧
      (r.1.revertInfoPerLibrary = ∅ ∧ r.2 = memory ∨
        r.2 = (targets true libraries).foldl (so.hook refs) memory ∧
          Entries so refs r.1.revertInfoPerLibrary true libraries memory) := by
  rw [updateOverrides]
  by_cases hcount : countLoadedLibraries libraries dlpiAdds = so.nbLoadedLibs
  · simp only [if_pos hcount]
    exact ⟨hcount.symm, .inl ⟨hnew, trivial⟩⟩
  · simp only [if_neg hcount]
    have hunmarked : ∀ lib ∈ libraries, AList.lookup lib.dlpiAddr (unmark { so with
        nbLoadedLibs := countLoadedLibraries libraries dlpiAdds }).revertInfoPerLibrary = none := by
      intro lib _
      rw [unmark, UnorderedMap.lookup_mapValues, hnew]
      rfl
    have hr := updateLibraries_new refs true hbases hunmarked memory
    have hentries : Entries so refs (updateLibraries refs true libraries (unmark { so with
        nbLoadedLibs := countLoadedLibraries libraries dlpiAdds }) memory).1.revertInfoPerLibrary
        true libraries memory := hr.entries.congr rfl fun _ _ => rfl
    exact ⟨hr.nbLoadedLibs, .inr ⟨hr.memory_eq, hentries.sweep⟩⟩

theorem restoreOverrides_of_empty (hnew : so.revertInfoPerLibrary = ∅)
    (libraries : List LoadedLibrary) (memory : ℕ → ℕ) :
    (so.restoreOverrides libraries memory).2 = memory := by
  have hlib : ∀ (lib : LoadedLibrary) (m : ℕ → ℕ),
      so.restoreLibraryOverrides lib.dlpiName lib.dlpiAddr m = m := by
    intro lib m
    rw [restoreLibraryOverrides, hnew, AList.lookup_empty]
  rw [restoreOverrides]
  induction libraries with
  | nil => rfl
  | cons lib rest ih =>
    simp only [List.foldl_cons, hlib] at ih ⊢
    exact ih

theorem exists_of_foldl_hook_ne (h : ds.foldl (so.hook refs) memory addr ≠ memory addr) :
    ∃ d ∈ ds, ∃ reloc ∈ d.relocs, d.slot reloc = addr ∧ (so.hookFor refs d reloc).isSome := by
  by_contra hnone
  refine h (foldl_hook_of_forall_none (fun d hd => ?_) memory)
  rw [slotHook, List.findSome?_eq_none_iff]
  intro reloc hreloc
  split_ifs with haddr
  · by_contra hhook
    exact hnone ⟨d, hd, reloc, hreloc, haddr, Option.isSome_iff_ne_none.mpr hhook⟩
  · rfl

theorem unshared_of_apart (h : Apart ds) : so.Unshared refs ds := by
  refine h.imp fun {d d'} hd addr => ?_
  by_contra hboth
  obtain ⟨hsome, hsome'⟩ := not_or.mp hboth
  obtain ⟨_, hhook⟩ := Option.ne_none_iff_exists'.mp hsome
  obtain ⟨_, hhook'⟩ := Option.ne_none_iff_exists'.mp hsome'
  exact hd.2 addr (mem_slots_of_slotHook hhook) (mem_slots_of_slotHook hhook')

end SymbolOverrides

namespace Hooking

/-- The relocation is one of a library that is not left out, and its symbol is registered and has
been found. -/
def Overridden (s : Hooking) (refs : ℕ → ℕ) (addr : ℕ) : Prop :=
  ∃ d ∈ s.targets, ∃ reloc ∈ d.relocs, d.slot reloc = addr ∧
    ∃ override, AList.lookup (d.symname reloc.sym) s.object.overrides = some override ∧
      refs override.refSymbol ≠ 0

/-- Updates after the last one are skipped while no library is loaded. -/
theorem steps_updateOverrides {s : Hooking} (h : s.object.nbLoadedLibs = s.count) (n : ℕ) :
    ∃ s', Run.steps step s (List.replicate n .updateOverrides) = some s' ∧
      s'.libraries = s.libraries ∧ s'.object = s.object ∧ s'.memory = s.memory := by
  induction n generalizing s with
  | zero => exact ⟨s, rfl, rfl, rfl, rfl⟩
  | succ n ih =>
    have hskip : s.object.updateOverrides s.refs s.libraries s.dlpiAdds s.memory =
        (s.object, s.memory) := if_pos h.symm
    have hstep : s.step .updateOverrides = some { s with updated := true } := by
      rw [step, update]
      simp only [hskip]
    obtain ⟨s', hsteps, hs'⟩ := ih (s := { s with updated := true }) h
    exact ⟨s', Run.steps_cons.mpr ⟨_, hstep, hsteps⟩, hs'⟩

/-- `apply_overrides`, any number of updates and `restore_overrides` with the same libraries. -/
theorem run_restored (s : Hooking) (hnew : s.object.revertInfoPerLibrary = ∅)
    (hbases : s.libraries.Pairwise fun lib lib' => lib.dlpiAddr ≠ lib'.dlpiAddr) (n : ℕ) :
    ∃ s₁ s₂ s₃, s.step .applyOverrides = some s₁ ∧
      Run.steps step s₁ (List.replicate n .updateOverrides) = some s₂ ∧
      s₂.step .restoreOverrides = some s₃ ∧
      (∀ addr, s₁.memory addr ≠ s.memory addr → s.Overridden s₁.refs addr) ∧
      s₂.memory = s₁.memory ∧
      (s.object.Unshared s₁.refs s.targets → s₃.memory = s.memory) := by
  obtain ⟨hcount, hcases⟩ := SymbolOverrides.updateOverrides_new hbases hnew
    (s.object.lookupRefs s.libraries s.refs) s.memory s.dlpiAdds
  obtain ⟨s₁, hs₁⟩ : ∃ s₁, s.step .applyOverrides = some s₁ := ⟨_, rfl⟩
  obtain rfl := Option.some.inj hs₁
  obtain ⟨s₂, hsteps, hlibraries, hobject, hmemory⟩ := steps_updateOverrides
    (s := s.update (s.object.lookupRefs s.libraries s.refs) true) hcount n
  refine ⟨_, s₂, _, rfl, hsteps, rfl, fun addr haddr => ?_, hmemory, fun hunshared => ?_⟩
  · obtain ⟨-, hsame⟩ | ⟨hhook, -⟩ := hcases
    · exact absurd (congrFun hsame addr) haddr
    · obtain ⟨d, hd, reloc, hreloc, hslot, hasked⟩ :=
        SymbolOverrides.exists_of_foldl_hook_ne fun h => haddr ((congrFun hhook addr).trans h)
      obtain ⟨hook, hasked⟩ := Option.isSome_iff_exists.mp hasked
      obtain ⟨override, hoverride, hnonzero⟩ := Option.bind_eq_some_iff.mp hasked
      refine ⟨d, hd, reloc, hreloc, hslot, override, hoverride, ?_⟩
      split_ifs at hnonzero with hok
      exact hok.2
  · change (s₂.object.restoreOverrides s₂.libraries s₂.memory).2 = s.memory
    rw [hlibraries, hobject, hmemory]
    obtain ⟨hempty, hsame⟩ | ⟨hhook, hentries⟩ := hcases
    · exact (SymbolOverrides.restoreOverrides_of_empty hempty _ _).trans hsame
    · refine (hentries.restore _).trans ?_
      rw [update]
      simp only [hhook]
      exact SymbolOverrides.unhook_foldl_hook hunshared s.memory

/-- A library that calls `malloc` through two relocations at one slot. -/
def doubled : LoadedLibrary where
  dlpiName := "twice.so".toList
  dlpiAddr := 196608
  dynamic := some
    { symname := fun _ => "malloc".toList
      rels := []
      relas := [⟨8, 1⟩, ⟨16, 2⟩]
      jmprels := [⟨8, 1⟩]
      gnuHashLookup := fun _ => none
      baseAddress := 196608 }

def hookless (libraries : List LoadedLibrary) : Hooking where
  libraries := libraries
  dlpiAdds := libraries.length
  memory := fun addr => addr / 8
  refs := fun _ => 0
  object := { overrides := mallocOverride }

def separateLibraries : Hooking :=
  hookless [client "app".toList 65536, libc, client "a.so".toList 131072, doubled]

theorem run_restored_separateLibraries :
    ∃ s₁ s₂ s₃, separateLibraries.step .applyOverrides = some s₁ ∧
      Run.steps step s₁ [.updateOverrides, .updateOverrides] = some s₂ ∧
      s₂.step .restoreOverrides = some s₃ ∧
      [65544, 131080, 196616, 196624].map s₁.memory = [5, 5, 5, 5] ∧
      s₂.memory = s₁.memory ∧ s₃.memory = separateLibraries.memory := by
  obtain ⟨s₁, s₂, s₃, hs₁, hs₂, hs₃, -, hsame, hrestored⟩ :=
    run_restored separateLibraries rfl (by decide +kernel) 2
  refine ⟨s₁, s₂, s₃, hs₁, hs₂, hs₃, ?_, hsame,
    hrestored (SymbolOverrides.unshared_of_apart (apart_targets true (by decide +kernel)))⟩
  obtain rfl := Option.some.inj hs₁
  decide +kernel

/-- A library with a relocation for the slot of another library. -/
def intruder : LoadedLibrary where
  dlpiName := "intruder.so".toList
  dlpiAddr := 196608
  dynamic := some
    { symname := fun _ => "malloc".toList
      rels := []
      relas := [⟨2 ^ 64 - 65528, 1⟩]
      jmprels := []
      gnuHashLookup := fun _ => none
      baseAddress := 196608 }

/-- The slot of two libraries keeps its hook. -/
theorem run_notRestored_shared :
    let s := hookless [client "app".toList 65536, libc, client "a.so".toList 131072, intruder]
    s.libraries.Pairwise (fun lib lib' => lib.dlpiAddr ≠ lib'.dlpiAddr) ∧
      (∀ lib ∈ s.libraries, ∀ addr ∈ lib.slots, addr % 8 = 0) ∧
      (Run.steps step s [.applyOverrides, .restoreOverrides]).any (fun s' =>
        decide (s.memory 131080 = 16385 ∧ s'.memory 131080 = 5)) = true := by
  decide +kernel

end Hooking

end Ddprof
