import Ddprof.Lib.Run
import Ddprof.Overrides.Update

/-!
The overrides over histories of library loads and unloads.

Entries are kept by base address and say that the library there has been processed. Two things
keep an entry honest: a library that is unloaded loses its entry at the next update that is not
skipped, and an update is skipped only when no library has been loaded since the last one. What
is missing is that an entry is not dropped when a library is unloaded and another one takes its
base address before the next update, that `restore_overrides` forgets the entries but not the
counter, and that libraries are not processed again when a symbol is found later.
-/

namespace Ddprof

open SymbolOverrides (Hooked)

structure Hooking where
  /-- The loaded libraries, the executable first. -/
  libraries : List LoadedLibrary
  dlpiAdds : ℕ
  memory : ℕ → ℕ
  refs : ℕ → ℕ
  object : SymbolOverrides
  /-- `apply_overrides` has been called, and not `restore_overrides` since. -/
  applied : Bool := false
  /-- The last step was `apply_overrides` or `update_overrides`. -/
  updated : Bool := false

inductive HookingLabel
  | load (lib : LoadedLibrary)
  | unload (i : ℕ)
  | applyOverrides
  | updateOverrides
  | restoreOverrides

def LoadedLibrary.Apart (lib lib' : LoadedLibrary) : Prop :=
  lib.dlpiAddr ≠ lib'.dlpiAddr ∧ ∀ addr ∈ lib.slots, addr ∉ lib'.slots

instance (lib lib' : LoadedLibrary) : Decidable (lib.Apart lib') :=
  inferInstanceAs (Decidable (_ ∧ _))

/-- Loading a library puts the contents of its slots into memory. -/
def LoadedLibrary.place (lib : LoadedLibrary) (memory : ℕ → ℕ) : ℕ → ℕ :=
  fun addr => if addr ∈ lib.slots then lib.initial addr else memory addr

namespace Hooking

variable {s s' : Hooking}

def init (exe : LoadedLibrary) (overrides : UnorderedMap (List Char) SymbolOverrideInfo)
    (refs memory : ℕ → ℕ) : Hooking where
  libraries := [exe]
  dlpiAdds := 1
  memory := exe.place memory
  refs := refs
  object := { overrides := overrides }

def targets (s : Hooking) : List DynamicInfo := Ddprof.targets true s.libraries

def count (s : Hooking) : ℤ := countLoadedLibraries s.libraries s.dlpiAdds

/-- `update_overrides`, after the lookups of `apply_overrides` if that is what is called. -/
def update (s : Hooking) (refs : ℕ → ℕ) (applied : Bool) : Hooking :=
  let r := s.object.updateOverrides refs s.libraries s.dlpiAdds s.memory
  { s with refs := refs, object := r.1, memory := r.2, applied := applied, updated := true }

/-- The executable is never unloaded. -/
def step (s : Hooking) : HookingLabel → Option Hooking
  | .load lib =>
    if ∀ l ∈ s.libraries, l.Apart lib then
      some { s with
        libraries := s.libraries ++ [lib]
        dlpiAdds := s.dlpiAdds + 1
        memory := lib.place s.memory
        updated := false }
    else none
  | .unload i =>
    if 0 < i ∧ i < s.libraries.length then
      some { s with libraries := s.libraries.eraseIdx i, updated := false }
    else none
  | .applyOverrides => some (s.update (s.object.lookupRefs s.libraries s.refs) true)
  | .updateOverrides => some (s.update s.refs s.applied)
  | .restoreOverrides =>
    let r := s.object.restoreOverrides s.libraries s.memory
    some { s with object := r.1, memory := r.2, applied := false, updated := false }

/-! ### When the entries are right -/

def Found (libraries : List LoadedLibrary) (name : List Char) : Prop :=
  0 < (lookupSymbol libraries name).stValue ∧ 0 < (lookupSymbol libraries name).stSize

instance (libraries : List LoadedLibrary) (name : List Char) : Decidable (Found libraries name) :=
  inferInstanceAs (Decidable (_ ∧ _))

/-- No library that is to be processed is loaded at an address that has an entry, and fewer than
`2 ^ 32 - 1` libraries are loaded in all. When there are entries, `apply_overrides` finds no
symbol that has been missing; when there are none, a library has been loaded since the last
update or there is nothing to process. -/
def Admissible (s : Hooking) : HookingLabel → Prop
  | .load lib => s.dlpiAdds + 1 < 2 ^ 32 - 1 ∧
    ((lib.target false).isSome → lib.dlpiAddr ∉ s.object.revertInfoPerLibrary)
  | .applyOverrides =>
    (s.object.revertInfoPerLibrary.keys = [] ∨
      ∀ e ∈ s.object.overrides.entries, s.refs e.2.refSymbol = 0 → ¬ Found s.libraries e.1) ∧
    (s.object.revertInfoPerLibrary.keys ≠ [] ∨ s.count ≠ s.object.nbLoadedLibs ∨ s.targets = [])
  | _ => True

instance (s : Hooking) : ∀ l, Decidable (s.Admissible l)
  | .load _ => inferInstanceAs (Decidable (_ ∧ (_ → _)))
  | .applyOverrides =>
    @instDecidableAnd _ _ inferInstance (@instDecidableOr _ _ inferInstance
      (@instDecidableOr _ _ inferInstance (decidable_of_iff _ List.isEmpty_iff)))
  | .unload _ | .updateOverrides | .restoreOverrides => inferInstanceAs (Decidable True)

end Hooking

/-! ### The libraries that are processed -/

section Targets

variable {isExe : Bool} {lib : LoadedLibrary} {libs : List LoadedLibrary} {d : DynamicInfo}

theorem target_spec (h : lib.target isExe = some d) :
    d.baseAddress = lib.dlpiAddr ∧ d.slots = lib.slots := by
  rw [LoadedLibrary.target] at h
  split_ifs at h
  rw [LoadedLibrary.retrieveDynamicInfo] at h
  split_ifs at h
  obtain ⟨d', hd', rfl⟩ := Option.map_eq_some_iff.mp h
  refine ⟨rfl, ?_⟩
  rw [LoadedLibrary.slots, LoadedLibrary.retrieveDynamicInfo, hd']
  rfl

theorem targets_false (libs : List LoadedLibrary) :
    targets false libs = libs.filterMap (LoadedLibrary.target false) := by
  induction libs with
  | nil => rfl
  | cons lib rest ih =>
    rw [targets, ih, List.filterMap_cons]
    cases lib.target false <;> rfl

theorem exists_of_mem_targets (h : d ∈ targets isExe libs) :
    ∃ lib ∈ libs, d.baseAddress = lib.dlpiAddr ∧ d.slots = lib.slots := by
  induction libs generalizing isExe with
  | nil => cases h
  | cons lib rest ih =>
    obtain hlib | hrest := List.mem_append.mp h
    · exact ⟨lib, List.mem_cons_self, target_spec (Option.mem_toList.mp hlib)⟩
    · obtain ⟨lib', hlib', hd⟩ := ih hrest
      exact ⟨lib', List.mem_cons_of_mem lib hlib', hd⟩

theorem apart_targets (isExe : Bool) (h : libs.Pairwise LoadedLibrary.Apart) :
    Apart (targets isExe libs) := by
  induction libs generalizing isExe with
  | nil => exact List.Pairwise.nil
  | cons lib rest ih =>
    obtain ⟨hlib, hrest⟩ := List.pairwise_cons.mp h
    refine List.pairwise_append.mpr ⟨?_, ih false hrest, fun d hd d' hd' => ?_⟩
    · cases lib.target isExe with
      | none => exact List.Pairwise.nil
      | some d => exact List.pairwise_singleton _ d
    · obtain ⟨hbase, hslots⟩ := target_spec (Option.mem_toList.mp hd)
      obtain ⟨lib', hlib', hbase', hslots'⟩ := exists_of_mem_targets hd'
      rw [hbase, hslots, hbase', hslots']
      exact hlib lib' hlib'

theorem targets_append (h : libs ≠ []) (lib : LoadedLibrary) :
    targets true (libs ++ [lib]) = targets true libs ++ (lib.target false).toList := by
  obtain ⟨exe, rest, rfl⟩ := List.exists_cons_of_ne_nil h
  rw [List.cons_append, targets, targets, targets_false, targets_false, List.filterMap_append,
    List.append_assoc]
  cases hlib : lib.target false <;> simp [hlib]

theorem mem_targets_of_eraseIdx {i : ℕ} (hi : 0 < i) (h : d ∈ targets true (libs.eraseIdx i)) :
    d ∈ targets true libs := by
  cases libs with
  | nil => exact h
  | cons exe rest =>
    obtain ⟨j, rfl⟩ := Nat.exists_eq_succ_of_ne_zero hi.ne'
    rw [Nat.succ_eq_add_one, List.eraseIdx_cons_succ, targets, targets_false] at h
    rw [targets, targets_false]
    refine (List.mem_append.mp h).elim (List.mem_append_left _) fun h => List.mem_append_right _ ?_
    exact ((List.eraseIdx_sublist rest j).filterMap _).subset h

end Targets

namespace SymbolOverrides

variable {so : SymbolOverrides} {libraries : List LoadedLibrary} {refs refs' memory : ℕ → ℕ}
  {d : DynamicInfo}

/-- A reference symbol that has been found stays found, and a missing one is found only by a
lookup. -/
theorem lookupRefs_eq_zero_iff
    (h : ∀ e ∈ so.overrides.entries, refs e.2.refSymbol = 0 → ¬ Hooking.Found libraries e.1)
    (ptr : ℕ) : so.lookupRefs libraries refs ptr = 0 ↔ refs ptr = 0 := by
  rw [lookupRefs]
  generalize so.overrides.entries = l at h
  induction l generalizing refs with
  | nil => rfl
  | cons e rest ih =>
    rw [List.foldl_cons]
    by_cases hfound : Hooking.Found libraries e.1
    · have hkeep : ∀ p, Function.update refs e.2.refSymbol (lookupSymbol libraries e.1).stValue p =
          0 ↔ refs p = 0 := fun p => by
        by_cases hp : p = e.2.refSymbol
        · subst hp
          rw [Function.update_self]
          exact iff_of_false hfound.1.ne' fun hzero => h e List.mem_cons_self hzero hfound
        · rw [Function.update_of_ne hp]
      simp only
      rw [if_pos (show 0 < _ ∧ 0 < _ from hfound)]
      exact (ih fun e' he' hzero => h e' (List.mem_cons_of_mem e he')
        ((hkeep _).mp hzero)).trans (hkeep ptr)
    · simp only
      rw [if_neg (show ¬ (0 < _ ∧ 0 < _) from hfound)]
      exact ih fun e' he' => h e' (List.mem_cons_of_mem e he')

/-- The hooks that are asked for depend on which reference symbols have been found. -/
theorem Hooked.of_refs (h : so.Hooked refs memory d) (hrefs : ∀ ptr, refs' ptr = 0 ↔ refs ptr = 0) :
    so.Hooked refs' memory d := by
  have hhook : so.hookFor refs' d = so.hookFor refs d := by
    funext reloc
    simp only [hookFor, ne_eq, hrefs]
  intro addr hook haddr
  rw [slotHook, hhook, ← slotHook] at haddr
  exact h addr hook haddr

end SymbolOverrides

namespace Hooking

variable {s s' : Hooking}

/-- An entry says that the library at its address holds its hooks. -/
structure Inv (s : Hooking) : Prop where
  libraries : s.libraries ≠ []
  apart : s.libraries.Pairwise LoadedLibrary.Apart
  dlpiAdds : s.dlpiAdds < 2 ^ 32 - 1
  counted : s.object.nbLoadedLibs = -1 ∨
    ∃ k ≤ s.dlpiAdds, s.object.nbLoadedLibs = (k : ℤ).bmod (2 ^ 32)
  patched : ∀ d ∈ s.targets, d.baseAddress ∈ s.object.revertInfoPerLibrary →
    s.object.Hooked s.refs s.memory d
  complete : s.count = s.object.nbLoadedLibs →
    s.applied = true ∨ s.object.revertInfoPerLibrary.keys ≠ [] →
    ∀ d ∈ s.targets, d.baseAddress ∈ s.object.revertInfoPerLibrary
  updated : s.updated = true → s.count = s.object.nbLoadedLibs

theorem count_eq (h : s.libraries ≠ []) : s.count = (s.dlpiAdds : ℤ).bmod (2 ^ 32) :=
  if_neg h

theorem inv_init (exe : LoadedLibrary) (overrides : UnorderedMap (List Char) SymbolOverrideInfo)
    (refs memory : ℕ → ℕ) : (init exe overrides refs memory).Inv :=
  ⟨nofun, List.pairwise_singleton _ _, show 1 < 2 ^ 32 - 1 by norm_num, .inl rfl,
    fun _ _ h => (nomatch h), fun _ h => h.elim nofun fun hne => absurd rfl hne, nofun⟩

/-- The counter of loads differs from what the last update saw. -/
theorem Inv.count_ne_load (h : s.Inv) (hadds : s.dlpiAdds + 1 < 2 ^ 32 - 1) :
    ((s.dlpiAdds + 1 : ℕ) : ℤ).bmod (2 ^ 32) ≠ s.object.nbLoadedLibs := by
  intro heq
  have hmod := congrArg (· % ((2 ^ 32 : ℕ) : ℤ)) heq
  simp only [Int.bmod_emod] at hmod
  obtain hnb | ⟨k, hk, hnb⟩ := h.counted
  · rw [hnb] at hmod
    omega
  · rw [hnb, Int.bmod_emod] at hmod
    omega

theorem Inv.load (h : s.Inv) {lib : LoadedLibrary} (hok : s.Admissible (.load lib))
    (hapart : ∀ l ∈ s.libraries, l.Apart lib) :
    Inv { s with
      libraries := s.libraries ++ [lib]
      dlpiAdds := s.dlpiAdds + 1
      memory := lib.place s.memory
      updated := false } := by
  have hne : s.libraries ++ [lib] ≠ [] := List.append_ne_nil_of_left_ne_nil h.libraries _
  have hcount := h.count_ne_load hok.1
  refine ⟨hne, ?_, hok.1,
    h.counted.imp_right fun ⟨k, hk, hnb⟩ => ⟨k, Nat.le_succ_of_le hk, hnb⟩, ?_, ?_, nofun⟩
  · refine List.pairwise_append.mpr ⟨h.apart, List.pairwise_singleton _ _, fun l hl l' hl' => ?_⟩
    rw [List.mem_singleton.mp hl']
    exact hapart l hl
  · intro d hd hentry
    change d ∈ Ddprof.targets true (s.libraries ++ [lib]) at hd
    rw [targets_append h.libraries] at hd
    obtain hd | hd := List.mem_append.mp hd
    · -- the slots of the library are not those of the new one
      refine (h.patched d hd hentry).congr fun addr haddr => if_neg ?_
      obtain ⟨l, hl, -, hslots⟩ := exists_of_mem_targets hd
      exact (hapart l hl).2 addr (hslots ▸ haddr)
    · have htarget := Option.mem_toList.mp hd
      rw [(target_spec htarget).1] at hentry
      exact absurd hentry (hok.2 (Option.isSome_iff_exists.mpr ⟨d, htarget⟩))
  · intro heq
    rw [count_eq hne] at heq
    exact absurd heq hcount

theorem Inv.unload (h : s.Inv) {i : ℕ} (hi : 0 < i ∧ i < s.libraries.length) :
    Inv { s with libraries := s.libraries.eraseIdx i, updated := false } := by
  have hne : s.libraries.eraseIdx i ≠ [] := by
    rw [← List.length_pos_iff, List.length_eraseIdx_of_lt hi.2]
    omega
  refine ⟨hne, h.apart.sublist (List.eraseIdx_sublist _ _), h.dlpiAdds, h.counted, fun d hd => ?_,
    fun hcount hsome d hd => ?_, nofun⟩
  · exact h.patched d (mem_targets_of_eraseIdx hi.1 hd)
  · rw [count_eq hne, ← count_eq (s := s) h.libraries] at hcount
    exact h.complete hcount hsome d (mem_targets_of_eraseIdx hi.1 hd)

theorem Inv.restore (h : s.Inv) (memory : ℕ → ℕ) :
    Inv { s with
      object := { s.object with revertInfoPerLibrary := ∅ }
      memory := memory
      applied := false
      updated := false } :=
  ⟨h.libraries, h.apart, h.dlpiAdds, h.counted, fun _ _ hentry => (nomatch hentry),
    fun _ hsome => hsome.elim nofun fun hne => absurd rfl hne, nofun⟩

/-- An update, when the entries agree with the new references and no library is missed. -/
theorem Inv.update (h : s.Inv) {refs : ℕ → ℕ} {applied : Bool}
    (hpatched : ∀ d ∈ s.targets, d.baseAddress ∈ s.object.revertInfoPerLibrary →
      s.object.Hooked refs s.memory d)
    (hcomplete : s.count = s.object.nbLoadedLibs →
      applied = true ∨ s.object.revertInfoPerLibrary.keys ≠ [] →
      ∀ d ∈ s.targets, d.baseAddress ∈ s.object.revertInfoPerLibrary) :
    (s.update refs applied).Inv := by
  by_cases hcount : s.count = s.object.nbLoadedLibs
  · have hskip : s.object.updateOverrides refs s.libraries s.dlpiAdds s.memory =
        (s.object, s.memory) := if_pos hcount
    rw [Hooking.update]
    simp only [hskip]
    exact ⟨h.libraries, h.apart, h.dlpiAdds, h.counted, hpatched, hcomplete, fun _ => hcount⟩
  · obtain ⟨-, hnb, hall⟩ := SymbolOverrides.updateOverrides_spec
      (apart_targets true h.apart) hcount refs s.memory
    refine ⟨h.libraries, h.apart, h.dlpiAdds, .inr ⟨s.dlpiAdds, le_rfl, ?_⟩, fun d hd _ => ?_,
      fun _ _ d hd => (hall d hd).1, fun _ => hnb.symm⟩
    · exact hnb.trans (count_eq h.libraries)
    · refine (hall d hd).2 ?_
      by_cases hentry : d.baseAddress ∈ s.object.revertInfoPerLibrary
      · exact .inl (hpatched d hd hentry)
      · exact .inr hentry

theorem Inv.step (h : s.Inv) {l : HookingLabel} (hok : s.Admissible l)
    (hstep : s.step l = some s') : s'.Inv := by
  cases l with
  | load lib =>
    rw [Hooking.step] at hstep
    split_ifs at hstep with hapart
    cases hstep
    exact h.load hok hapart
  | unload i =>
    rw [Hooking.step] at hstep
    split_ifs at hstep with hi
    cases hstep
    exact h.unload hi
  | applyOverrides =>
    cases hstep
    obtain ⟨hfound, hsome⟩ := hok
    refine h.update (fun d hd hentry => ?_) fun hcount _ => ?_
    · have hkeys : s.object.revertInfoPerLibrary.keys ≠ [] := List.ne_nil_of_mem hentry
      exact (h.patched d hd hentry).of_refs
        (SymbolOverrides.lookupRefs_eq_zero_iff (hfound.resolve_left hkeys))
    · obtain hkeys | hne | hnone := hsome
      · exact h.complete hcount (.inr hkeys)
      · exact absurd hcount hne
      · intro d hd
        rw [hnone] at hd
        cases hd
  | updateOverrides =>
    cases hstep
    exact h.update h.patched h.complete
  | restoreOverrides =>
    cases hstep
    exact h.restore _

/-- After `apply_overrides` or `update_overrides` the slots of all libraries hold their hooks, in
every run in which no address with an entry is reused, no missing symbol is found late and the
overrides are not applied again after `restore_overrides` without a load in between. -/
theorem run_hooked {exe : LoadedLibrary} {overrides : UnorderedMap (List Char) SymbolOverrideInfo}
    {refs memory : ℕ → ℕ} {ls : List HookingLabel}
    (hok : Run.Along step Admissible (init exe overrides refs memory) ls)
    (hrun : Run.steps step (init exe overrides refs memory) ls = some s)
    (hupdated : s.updated = true) (happlied : s.applied = true) :
    ∀ d ∈ s.targets, s.object.Hooked s.refs s.memory d := by
  have h : s.Inv := Run.steps_invariant (fun _ _ _ h hok hstep => h.step hok hstep)
    (inv_init exe overrides refs memory) hok hrun
  intro d hd
  exact h.patched d hd (h.complete (h.updated hupdated) (.inl happlied) d hd)

/-- A library that refers to `malloc` in the slot at offset 8. -/
def client (name : List Char) (base : ℕ) : LoadedLibrary where
  dlpiName := name
  dlpiAddr := base
  dynamic := some
    { symname := fun _ => "malloc".toList
      rels := []
      relas := [⟨8, 1⟩]
      jmprels := []
      gnuHashLookup := fun _ => none
      baseAddress := base }

/-- The library that defines `malloc`. -/
def libc : LoadedLibrary where
  dlpiName := "libc.so".toList
  dlpiAddr := 4096
  dynamic := some
    { symname := fun _ => []
      rels := []
      relas := []
      jmprels := []
      gnuHashLookup := fun name => if name = "malloc".toList then some ⟨64, 32⟩ else none
      baseAddress := 4096 }

/-- The hook 5 for `malloc`. -/
def mallocOverride : UnorderedMap (List Char) SymbolOverrideInfo :=
  AList.insert "malloc".toList ⟨0, 5, 0⟩ ∅

def app : Hooking := init (client "app".toList 65536) mallocOverride (fun _ => 0) fun _ => 0

/-- A library is loaded before and another one after the overrides are applied; the first one is
unloaded, and its address is reused after an update that has dropped its entry. -/
def loadsApart : List HookingLabel :=
  [.load libc, .load (client "a.so".toList 131072), .applyOverrides, .unload 2,
    .load (client "b.so".toList 196608), .updateOverrides,
    .load (client "c.so".toList 131072), .updateOverrides]

theorem run_hooked_apart :
    (Run.steps step app loadsApart).any (fun s => decide (s.updated = true ∧ s.applied = true ∧
      [65544, 131080, 196616].map s.memory = [5, 5, 5])) = true ∧
    ∀ s, Run.steps step app loadsApart = some s → s.updated = true → s.applied = true →
      ∀ d ∈ s.targets, s.object.Hooked s.refs s.memory d :=
  ⟨by decide +kernel, fun _ hrun => run_hooked (by decide +kernel) hrun⟩

/-- The address is reused before the next update: the new library is not processed. -/
theorem reused_address_not_hooked :
    (Run.steps step app [.load libc, .load (client "a.so".toList 131072), .applyOverrides,
        .unload 2, .load (client "b.so".toList 131072), .updateOverrides]).any (fun s =>
      decide (s.updated = true ∧ s.applied = true ∧
        s.targets.map (fun d => s.object.slotHook s.refs d d.relocs 131080) = [none, none, some 5] ∧
        s.memory 131080 = 0)) = true := by
  decide +kernel

-- applied again after they have been restored, without a load in between
example : (Run.steps step app [.load libc, .applyOverrides, .restoreOverrides, .applyOverrides]).any
    (fun s => decide (s.updated = true ∧ s.applied = true ∧ s.memory 65544 = 0)) = true := by
  decide +kernel

-- applied again when the symbol can be found
example : (Run.steps step app [.applyOverrides, .load libc, .applyOverrides]).any
    (fun s => decide (s.updated = true ∧ s.applied = true ∧ s.refs 0 ≠ 0 ∧ s.memory 65544 = 0)) =
      true := by
  decide +kernel

end Hooking

end Ddprof
