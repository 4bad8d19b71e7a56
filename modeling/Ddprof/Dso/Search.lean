import Ddprof.Dso.Backpopulation

/-!
Searches in the mappings of a process: `dso_find_first_std_executable`, which names the
executable of a process, and `dso_find_or_backpopulate`, which reads `/proc/<pid>/maps` when
an address is not mapped.
-/

namespace Ddprof

open OrderedMap

/-! ### The first executable standard region -/

/-- The loop of `dso_find_first_std_executable`, over the entries from its iterator on. It
goes on while a region is neither executable nor standard. -/
def skipToStdExecutable : List (ℕ × Dso) → Iter ℕ
  | [] => none
  | e :: rest =>
    if !e.2.isExecutable && decide (e.2.type ≠ .standard) then skipToStdExecutable rest
    else some e.1

/-- Executable and standard: what the search is for. -/
def Dso.IsStdExecutable (d : Dso) : Prop := d.isExecutable = true ∧ d.type = .standard

/-- Executable or standard: what the loop stops at. -/
def Dso.StopsSearch (d : Dso) : Prop := d.isExecutable = true ∨ d.type = .standard

theorem Dso.IsStdExecutable.stopsSearch {d : Dso} (h : d.IsStdExecutable) : d.StopsSearch :=
  .inl h.1

/-- The loop stops at the lowest of the regions that stop it. -/
theorem skipToStdExecutable_spec {l : List (ℕ × Dso)}
    (hsorted : l.Pairwise fun a b => a.1 < b.1) :
    match skipToStdExecutable l with
    | none => ∀ e ∈ l, ¬ e.2.StopsSearch
    | some k => ∃ d, (k, d) ∈ l ∧ d.StopsSearch ∧ ∀ e ∈ l, e.2.StopsSearch → k ≤ e.1 := by
  induction l with
  | nil => exact fun e he => absurd he List.not_mem_nil
  | cons x rest ih =>
    have hskip : (!x.2.isExecutable && decide (x.2.type ≠ .standard)) = true ↔
        ¬ x.2.StopsSearch := by
      simp [Dso.StopsSearch]
    unfold skipToStdExecutable
    split_ifs with hx
    · have hnot := hskip.mp hx
      have hrest := ih hsorted.of_cons
      cases hk : skipToStdExecutable rest with
      | none =>
        rw [hk] at hrest
        simp only [List.mem_cons, forall_eq_or_imp]
        exact ⟨hnot, hrest⟩
      | some k =>
        rw [hk] at hrest
        obtain ⟨d, hd, hstop, hleast⟩ := hrest
        refine ⟨d, List.mem_cons_of_mem x hd, hstop, fun e he hes => ?_⟩
        rcases List.mem_cons.mp he with rfl | he
        · exact absurd hes hnot
        · exact hleast e he hes
    · refine ⟨x.2, List.mem_cons_self, not_not.mp (hskip.not.mp hx), fun e he _ => ?_⟩
      rcases List.mem_cons.mp he with rfl | he
      · exact le_rfl
      · exact (List.rel_of_pairwise_cons hsorted he).le

namespace DsoHdr

def dsoFindFirstStdExecutable (h : DsoHdr) (pid : ℤ) : DsoHdr × DsoFindRes :=
  let map := h.mapOf pid
  let it := skipToStdExecutable (map.entriesFrom (map.lowerBound 0))
  -- the access to the pid map creates the entry of an unknown process
  (h.setPidMapping pid (h.pidMap.get pid), if it = none then (none, false) else (it, true))

/-- The result of a search for the lowest executable standard region of a map. -/
structure IsFirstStdExecutable (map : DsoMap) (res : DsoFindRes) : Prop where
  found : res.2 = true → ∃ d, res.1 = some d.start ∧ (d.start, d) ∈ map ∧ d.IsStdExecutable ∧
    ∀ e ∈ map, e.2.IsStdExecutable → d.start ≤ e.2.start
  not_found : res.2 = false ↔ ∀ e ∈ map, ¬ e.2.IsStdExecutable

/-- What the search returns: the lowest region that stops its loop. -/
theorem dsoFindFirstStdExecutable_spec (h : DsoHdr) (pid : ℤ) :
    ((h.dsoFindFirstStdExecutable pid).2 = (none, false) ∧
      ∀ e ∈ h.mapOf pid, ¬ e.2.StopsSearch) ∨
    ∃ k d, (h.dsoFindFirstStdExecutable pid).2 = (some k, true) ∧ (k, d) ∈ h.mapOf pid ∧
      d.StopsSearch ∧ ∀ e ∈ h.mapOf pid, e.2.StopsSearch → k ≤ e.1 := by
  have hmem : ∀ e, e ∈ (h.mapOf pid).entriesFrom ((h.mapOf pid).lowerBound 0) ↔
      e ∈ h.mapOf pid := fun e => by
    rw [mem_entriesFrom]
    exact ⟨And.left, fun he =>
      ⟨he, not_before_iff.mp ((before_lowerBound he).not.mpr (Nat.not_lt_zero _))⟩⟩
  have hspec := skipToStdExecutable_spec
    (sorted_entriesFrom (h.mapOf pid) ((h.mapOf pid).lowerBound 0))
  simp only [hmem] at hspec
  simp only [dsoFindFirstStdExecutable]
  cases hk : skipToStdExecutable ((h.mapOf pid).entriesFrom ((h.mapOf pid).lowerBound 0)) with
  | none =>
    rw [hk] at hspec
    exact .inl ⟨rfl, hspec⟩
  | some k =>
    rw [hk] at hspec
    obtain ⟨d, hd⟩ := hspec
    exact .inr ⟨k, d, rfl, hd⟩

/-- The search returns the lowest executable standard region exactly for the maps whose lowest
region that is executable or standard, if there is one, is both. -/
theorem dsoFindFirstStdExecutable_iff (h : DsoHdr) (pid : ℤ)
    (hkey : ∀ e ∈ h.mapOf pid, e.1 = e.2.start) :
    IsFirstStdExecutable (h.mapOf pid) (h.dsoFindFirstStdExecutable pid).2 ↔
      ∀ e ∈ h.mapOf pid, e.2.StopsSearch →
        (∀ e' ∈ h.mapOf pid, e'.2.StopsSearch → e.2.start ≤ e'.2.start) →
        e.2.IsStdExecutable := by
  rcases dsoFindFirstStdExecutable_spec h pid with ⟨hres, hnone⟩ | ⟨k, d, hres, hd, hstop, hleast⟩
  · rw [hres]
    constructor
    · exact fun _ e he hes => absurd hes (hnone e he)
    · intro _
      refine ⟨fun hfound => Bool.noConfusion hfound, fun _ e he hstd => ?_, fun _ => rfl⟩
      exact hnone e he hstd.stopsSearch
  · rw [hres]
    have hkd : k = d.start := hkey (k, d) hd
    subst hkd
    have hleast' : ∀ e ∈ h.mapOf pid, e.2.StopsSearch → d.start ≤ e.2.start :=
      fun e he hes => (hkey e he) ▸ hleast e he hes
    constructor
    · -- the region found is the lowest one that stops the loop, so it is the one asked about
      intro hfirst e he hes hlow
      obtain ⟨d', heq, hd', hstd, -⟩ := hfirst.found rfl
      have hstart : e.1 = d.start := by
        rw [hkey e he]
        exact le_antisymm (hlow _ hd hstop) (hleast' e he hes)
      have hsame : e = (d.start, d) := eq_of_mem_of_key he hd hstart
      have hdd' : d' = d := by
        refine val_unique hd' ?_
        rw [← Option.some.inj heq]
        exact hd
      rw [hsame, ← hdd']
      exact hstd
    · intro hcond
      have hstd : d.IsStdExecutable := hcond _ hd hstop hleast'
      refine ⟨fun _ => ⟨d, rfl, hd, hstd, fun e he hes => hleast' e he hes.stopsSearch⟩, ?_⟩
      exact ⟨fun hf => Bool.noConfusion hf, fun hnone => absurd hstd (hnone _ hd)⟩

/-- A process whose executable is mapped in two segments, the headers first. -/
def twoSegments (firstProt : ℕ) : DsoHdr :=
  ({} : DsoHdr).setPidMapping 7
    { map := (OrderedMap.empty.insertOrAssign 0x1000
        (.make 7 0x1000 0x1fff 0 "/bin/a".toList 3 firstProt .procMaps)).insertOrAssign 0x2000
        (.make 7 0x2000 0x2fff 0x1000 "/bin/a".toList 3 5 .procMaps) }

theorem dsoFindFirstStdExecutable_iff_executableFirst :
    IsFirstStdExecutable ((twoSegments 5).mapOf 7)
      ((twoSegments 5).dsoFindFirstStdExecutable 7).2 := by
  refine (dsoFindFirstStdExecutable_iff (twoSegments 5) 7 (by decide +kernel)).mpr ?_
  have hall : ∀ e ∈ ((twoSegments 5).mapOf 7).entries,
      e.2.isExecutable = true ∧ e.2.type = .standard := by decide +kernel
  exact fun e he _ _ => hall e he

/-- The usual layout: the first segment is standard and not executable, and the search
returns it. -/
theorem dsoFindFirstStdExecutable_headersFirst :
    (∀ e ∈ (twoSegments 1).mapOf 7, e.1 = e.2.start) ∧
      ((twoSegments 1).dsoFindFirstStdExecutable 7).2 = (some 0x1000, true) ∧
      ¬ IsFirstStdExecutable ((twoSegments 1).mapOf 7)
        ((twoSegments 1).dsoFindFirstStdExecutable 7).2 := by
  have hres : ((twoSegments 1).dsoFindFirstStdExecutable 7).2 = (some 0x1000, true) := by
    decide +kernel
  refine ⟨by decide +kernel, hres, fun hfirst => ?_⟩
  rw [hres] at hfirst
  obtain ⟨d, hstart, hd, hstd, -⟩ := hfirst.found rfl
  have hheaders : ∀ e ∈ ((twoSegments 1).mapOf 7).entries, e.1 = 0x1000 →
      e.2.isExecutable = false := by decide +kernel
  have hnot := hheaders _ hd (Option.some.inj hstart).symm
  exact Bool.noConfusion (hnot.symm.trans hstd.1)

/-! ### Lookups that backpopulate -/

def kZeroPageLimit : ℕ := 4096

/-- The environment answers as in `pidBackpopulate`. The result also says whether the lookup
read `/proc/<pid>/maps`. -/
def dsoFindOrBackpopulate (h : DsoHdr) (pid : ℤ) (addr : ℕ) (now : ℤ)
    (procMaps : Option (List (List Char))) : Except Fatal (DsoHdr × DsoFindRes × Bool) :=
  let h := h.setPidMapping pid (h.pidMap.get pid)
  if addr < kZeroPageLimit then .ok (h, (none, false), false)
  else
    let findRes := dsoFindClosest (h.mapOf pid) addr
    if findRes.2 then .ok (h, findRes, false)
    else do
      let (h', read, nbEltsAdded) ← h.pidBackpopulate pid now procMaps 0
      if read && nbEltsAdded ≠ 0 then return (h', dsoFindClosest (h'.mapOf pid) addr, read)
      else return (h', findRes, read)

inductive SearchCall
  | lookup (pid : ℤ) (addr : ℕ) (now : ℤ) (procMaps : Option (List (List Char)))
  | op (op : DsoOp)

def searchStep (h : DsoHdr) : SearchCall → Option DsoHdr
  | .lookup pid addr now procMaps =>
    (h.dsoFindOrBackpopulate pid addr now procMaps).toOption.map Prod.fst
  | .op op => (h.step op).toOption

/-- The call neither resets the backpopulation state of the process nor forgets the process. -/
def KeepsState (pid : ℤ) (h : DsoHdr) : SearchCall → Prop
  | .op (.resetBackpopulateState resetThreshold) =>
    (h.backpopulateStateOf pid).nbUnfoundDsos < resetThreshold
  | .op (.pidFree pid') => pid' ≠ pid
  | .op (.clearUnvisited visitedPids) => pid ∈ visitedPids
  | _ => True

/-- Whatever is called in between, no lookup of an address of the process reads its maps. -/
def NeverReads (h : DsoHdr) (pid : ℤ) : Prop :=
  ∀ calls h', Run.Along searchStep (KeepsState pid) h calls →
    Run.steps searchStep h calls = some h' →
    ∀ addr now procMaps h'' findRes read,
      h'.dsoFindOrBackpopulate pid addr now procMaps = .ok (h'', findRes, read) → read = false

variable {h h' : DsoHdr} {pid : ℤ}

variable {procMaps : Option (List (List Char))}

theorem dsoFindOrBackpopulate_cases {addr : ℕ} {now : ℤ} {findRes : DsoFindRes} {read : Bool}
    (hok : h.dsoFindOrBackpopulate pid addr now procMaps = .ok (h', findRes, read)) :
    (read = false ∧ ∀ pid', h'.backpopulateStateOf pid' = h.backpopulateStateOf pid') ∨
    ∃ nb, (h.setPidMapping pid (h.pidMap.get pid)).pidBackpopulate pid now procMaps 0 =
      .ok (h', read, nb) := by
  have hsame : ∀ pid', (h.setPidMapping pid (h.pidMap.get pid)).backpopulateStateOf pid' =
      h.backpopulateStateOf pid' := backpopulateStateOf_setPidMapping_same rfl
  unfold dsoFindOrBackpopulate at hok
  simp only at hok
  by_cases hzero : addr < kZeroPageLimit
  · rw [if_pos hzero] at hok
    cases hok
    exact .inl ⟨rfl, hsame⟩
  · rw [if_neg hzero] at hok
    by_cases hfound : (dsoFindClosest
        ((h.setPidMapping pid (h.pidMap.get pid)).mapOf pid) addr).2 = true
    · rw [if_pos hfound] at hok
      cases hok
      exact .inl ⟨rfl, hsame⟩
    · rw [if_neg hfound] at hok
      obtain ⟨res, hbp, hok⟩ := Run.exists_of_bind_eq_ok hok
      split_ifs at hok <;> cases hok <;> exact .inr ⟨_, hbp⟩

theorem dsoFindOrBackpopulate_of_unknown {addr : ℕ} {now nb : ℤ}
    {read : Bool} (hzero : ¬ addr < kZeroPageLimit)
    (hunknown : (dsoFindClosest (h.mapOf pid) addr).2 = false)
    (hbp : (h.setPidMapping pid (h.pidMap.get pid)).pidBackpopulate pid now procMaps 0 =
      .ok (h', read, nb)) :
    ∃ findRes, h.dsoFindOrBackpopulate pid addr now procMaps = .ok (h', findRes, read) := by
  have hmap : (h.setPidMapping pid (h.pidMap.get pid)).mapOf pid = h.mapOf pid :=
    mapOf_setPidMapping_same h rfl pid
  rw [dsoFindOrBackpopulate, if_neg hzero]
  simp only [hmap, hunknown, Bool.false_eq_true, if_false, hbp, bind, Except.bind]
  split_ifs <;> exact ⟨_, rfl⟩

theorem forbidden_of_pidBackpopulate {pid' now nbEltsAdded nb : ℤ} {read : Bool}
    (hperm : (h.backpopulateStateOf pid).perm = .forbidden)
    (hok : h.pidBackpopulate pid' now procMaps nbEltsAdded = .ok (h', read, nb)) :
    (h'.backpopulateStateOf pid).perm = .forbidden := by
  rcases pidBackpopulate_cases hok with ⟨-, -, hstate⟩ | ⟨hallowed, -, perm, hstate⟩
  · rw [hstate]
    split_ifs with heq
    · rw [← heq]
      exact hperm
    · exact hperm
  · have hne : pid ≠ pid' := by
      rintro rfl
      rw [hperm] at hallowed
      cases hallowed
    rw [hstate, if_neg hne]
    exact hperm

theorem backpopulateStateOf_pidFork (childPid parentPid pid : ℤ) :
    (h.pidFork childPid parentPid).backpopulateStateOf pid = h.backpopulateStateOf pid := by
  unfold pidFork
  cases AList.lookup parentPid h.pidMap with
  | none => rfl
  | some parent =>
    cases hc : AList.lookup childPid h.pidMap with
    | some _ => rfl
    | none =>
      refine backpopulateStateOf_setPidMapping_same ?_ pid
      rw [backpopulateStateOf, UnorderedMap.get, hc]
      rfl

theorem backpopulateStateOf_clearUnvisited {visitedPids : List ℤ} (hpid : pid ∈ visitedPids) :
    (h.clearUnvisited visitedPids).1.backpopulateStateOf pid = h.backpopulateStateOf pid := by
  unfold clearUnvisited backpopulateStateOf UnorderedMap.get
  rw [UnorderedMap.lookup_eraseAll, if_neg]
  exact fun hmem => of_decide_eq_true (List.mem_filter.mp hmem).2 hpid

theorem forbidden_of_searchStep {call : SearchCall} (hcall : KeepsState pid h call)
    (hperm : (h.backpopulateStateOf pid).perm = .forbidden)
    (hstep : h.searchStep call = some h') : (h'.backpopulateStateOf pid).perm = .forbidden := by
  cases call with
  | lookup pid' addr now procMaps =>
    obtain ⟨⟨h'', findRes, read⟩, hlook, rfl⟩ := Option.map_eq_some_iff.mp hstep
    rcases dsoFindOrBackpopulate_cases (Run.eq_ok_of_toOption hlook) with
      ⟨-, hstate⟩ | ⟨nb, hbp⟩
    · rw [hstate]
      exact hperm
    · refine forbidden_of_pidBackpopulate ?_ hbp
      rw [backpopulateStateOf_setPidMapping_same rfl]
      exact hperm
  | op op =>
    have hok := Run.eq_ok_of_toOption hstep
    cases op with
    | insertEraseOverlap dso =>
      obtain ⟨res, hins, rfl⟩ := Run.exists_of_map_eq_ok hok
      rw [backpopulateStateOf_insertEraseOverlap hins]
      exact hperm
    | maybeInsertEraseOverlap dso timestamp =>
      obtain ⟨res, hins, rfl⟩ := Run.exists_of_map_eq_ok hok
      rw [(maybeInsertEraseOverlap_cases hins).2]
      exact hperm
    | pidBackpopulate pid' now procMaps nbEltsAdded =>
      obtain ⟨res, hbp, rfl⟩ := Run.exists_of_map_eq_ok hok
      exact forbidden_of_pidBackpopulate hperm hbp
    | pidFork childPid parentPid =>
      cases hok
      rw [backpopulateStateOf_pidFork]
      exact hperm
    | pidFree pid' =>
      cases hok
      rw [backpopulateStateOf, pidFree, UnorderedMap.get_erase_ne _ (Ne.symm hcall)]
      exact hperm
    | clearUnvisited visitedPids =>
      cases hok
      rw [backpopulateStateOf_clearUnvisited hcall]
      exact hperm
    | resetBackpopulateState resetThreshold =>
      cases hok
      rw [backpopulateStateOf_resetBackpopulateState, if_neg (not_le.mpr hcall)]
      exact hperm

theorem neverReads_of_forbidden (hperm : (h.backpopulateStateOf pid).perm = .forbidden) :
    h.NeverReads pid := by
  intro calls h' hcalls hrun addr now procMaps h'' findRes read hlook
  have hend : (h'.backpopulateStateOf pid).perm = .forbidden :=
    Run.steps_invariant (fun s call s' (hperm : (s.backpopulateStateOf pid).perm = .forbidden)
      hcall hstep => forbidden_of_searchStep hcall hperm hstep) hperm hcalls hrun
  rcases dsoFindOrBackpopulate_cases hlook with ⟨hread, -⟩ | ⟨nb, hbp⟩
  · exact hread
  · rcases pidBackpopulate_cases hbp with ⟨-, hread, -⟩ | ⟨hallowed, -⟩
    · exact hread
    · rw [backpopulateStateOf_setPidMapping_same rfl, hend] at hallowed
      cases hallowed

/-- The last address of the address space is never mapped, so that a process that is allowed to
backpopulate does so at a lookup. -/
theorem not_neverReads_of_allowed (hw : WellFormed pid (h.mapOf pid))
    (hperm : (h.backpopulateStateOf pid).perm = .allowed) : ¬ h.NeverReads pid := by
  intro hnever
  have hallowed : ((h.setPidMapping pid (h.pidMap.get pid)).backpopulateStateOf pid).perm =
      .allowed := by
    rw [backpopulateStateOf_setPidMapping_same rfl]
    exact hperm
  have hunknown : (dsoFindClosest (h.mapOf pid) (addrSpace - 1)).2 = false := by
    rcases dsoFindClosest_cases (h.mapOf pid) (addrSpace - 1) with
      ⟨hnone, -⟩ | ⟨k, d, hd, -, -, hsome⟩
    · rw [hnone]
    · rw [hsome, Dso.isWithin_eq_false_iff]
      exact .inr (hw.proper _ hd).endAddr_lt
  obtain ⟨findRes, hlook⟩ := dsoFindOrBackpopulate_of_unknown (by decide) hunknown
    (pidBackpopulate_opened hallowed 0 [] 0)
  have hfalse := hnever [] h trivial rfl _ _ _ _ _ _ hlook
  exact Bool.noConfusion hfalse

/-! ### Throttling -/

/-- The process has the region already: `dso_find_adjust_same` finds it. -/
def isKnown (map : DsoMap) (d : Dso) : Bool := (map.find d.start).any (·.isSameOrSmaller d)

def insertRegion (map : DsoMap) (d : Dso) : DsoMap :=
  match ({ map := map } : PidMapping).insertEraseOverlap d with
  | .ok (pidMapping, _) => pidMapping.map
  | .error _ => map

/-- How many of the regions are not already present as the same region when they are
inserted one after the other. -/
def newRegions : DsoMap → List Dso → ℕ
  | _, [] => 0
  | map, d :: ds => (if isKnown map d then 0 else 1) + newRegions (insertRegion map d) ds

/-- None of the regions is already present when its turn comes. -/
def AllNew : DsoMap → List Dso → Prop
  | _, [] => True
  | map, d :: ds => isKnown map d = false ∧ AllNew (insertRegion map d) ds

theorem newRegions_le (map : DsoMap) (ds : List Dso) : newRegions map ds ≤ ds.length := by
  induction ds generalizing map with
  | nil => exact le_rfl
  | cons d ds ih =>
    have hle := ih (insertRegion map d)
    rw [newRegions, List.length_cons]
    split_ifs <;> omega

theorem newRegions_eq_length_iff (map : DsoMap) (ds : List Dso) :
    newRegions map ds = ds.length ↔ AllNew map ds := by
  induction ds generalizing map with
  | nil => exact iff_of_true rfl trivial
  | cons d ds ih =>
    have hle := newRegions_le (insertRegion map d) ds
    rw [newRegions, List.length_cons, AllNew, ← ih]
    cases isKnown map d
    · simp only [Bool.false_eq_true, if_false, true_and]
      omega
    · simp only [if_true, Bool.true_eq_false, false_and, iff_false]
      omega

/-- The regions of a map, without where they were learnt from. -/
def regionsOf (map : DsoMap) : List (ℕ × Dso) :=
  map.entries.map fun e => (e.1, { e.2 with origin := .procMaps })

def insertRegions (map : DsoMap) (ds : List Dso) : DsoMap := ds.foldl insertRegion map

variable {pidMapping pidMapping' : PidMapping}

theorem insertRegion_eq {d : Dso} {findRes : DsoFindRes}
    (hok : pidMapping.insertEraseOverlap d = .ok (pidMapping', findRes)) :
    pidMapping'.map = insertRegion pidMapping.map d := by
  obtain ⟨other', hother, hmap⟩ :=
    (PidMapping.insertEraseOverlap_eq_ok hok).2 { map := pidMapping.map } rfl
  rw [insertRegion, hother]
  exact hmap.symm

theorem insertRegions_eq {lines : List (List Char)}
    {n n' : ℤ} (hok : backpopulateLines pid pidMapping n lines = .ok (pidMapping', n')) :
    pidMapping'.map = insertRegions pidMapping.map (procRegions pid lines) := by
  induction lines generalizing pidMapping n with
  | nil =>
    cases hok
    rfl
  | cons line rest ih =>
    rcases backpopulateLines_cons hok with
      ⟨hinvalid, hrest⟩ | ⟨hvalid, next, findRes, m, hins, hrest⟩
    · rw [procRegions_cons_of_invalid hinvalid]
      exact ih hrest
    · rw [procRegions_cons_of_valid hvalid, insertRegions, List.foldl_cons, ← insertRegion_eq hins]
      exact ih hrest

/-- A backpopulation that is allowed and opens the file reports the regions that were not already
present exactly if none of those that it reads is already present when its turn comes. If it leaves
the regions as they were, it throttles the lookups exactly if it reads no region. -/
theorem pidBackpopulate_throttles_iff (hi : h.Inv) (lines : List (List Char))
    (hlines : ∀ d ∈ procRegions pid lines, d.Proper)
    (hperm : (h.backpopulateStateOf pid).perm = .allowed) (now nbEltsAdded : ℤ) :
    ∃ h' nb, h.pidBackpopulate pid now (some lines) nbEltsAdded = .ok (h', true, nb) ∧
      h'.mapOf pid = insertRegions (h.mapOf pid) (procRegions pid lines) ∧
      (nb = newRegions (h.mapOf pid) (procRegions pid lines) ↔
        AllNew (h.mapOf pid) (procRegions pid lines)) ∧
      (regionsOf (h'.mapOf pid) = regionsOf (h.mapOf pid) →
        (h'.NeverReads pid ↔ procRegions pid lines = [])) := by
  obtain ⟨pidMapping', hall, hw, hok⟩ := pidBackpopulate_spec hi hperm hlines now nbEltsAdded
  refine ⟨_, _, hok, ?_, ?_, fun _ => ⟨fun hnever => ?_, fun hnil => ?_⟩⟩
  · have hlast := hok
    rw [pidBackpopulate_opened hperm] at hlast
    obtain ⟨res, hloop, hres⟩ := Run.exists_of_map_eq_ok hlast
    have hhdr := congrArg (fun r => r.1.mapOf pid) hres
    simp only [mapOf_setPidMapping] at hhdr
    rw [mapOf_setPidMapping, ← hhdr, insertRegions_eq hloop]
    rfl
  · -- the count is of all regions
    rw [← newRegions_eq_length_iff, Nat.cast_inj, eq_comm]
  · by_contra hne
    refine not_neverReads_of_allowed ?_ ?_ hnever
    · rw [mapOf_setPidMapping]
      exact hw
    · rw [backpopulateStateOf_setPidMapping, if_pos rfl, if_neg hne]
  · apply neverReads_of_forbidden
    rw [backpopulateStateOf_setPidMapping, if_pos rfl, if_pos hnil]

/-- A file with a region, and one without any. -/
theorem pidBackpopulate_throttles_iff_firstRead :
    (∃ h' nb, ({} : DsoHdr).pidBackpopulate 7 100 (some [Backpopulations.libLine]) 0 =
        .ok (h', true, nb) ∧
      nb = newRegions (({} : DsoHdr).mapOf 7) (procRegions 7 [Backpopulations.libLine])) ∧
    ∃ h' nb, ({} : DsoHdr).pidBackpopulate 7 100 (some []) 0 = .ok (h', true, nb) ∧
      regionsOf (h'.mapOf 7) = regionsOf (({} : DsoHdr).mapOf 7) ∧ h'.NeverReads 7 := by
  have hproper : ∀ d ∈ procRegions 7 [Backpopulations.libLine], d.Proper := by decide +kernel
  have hempty : ∀ d ∈ procRegions 7 [], d.Proper := by decide +kernel
  obtain ⟨h', nb, hok, -, hcount, -⟩ :=
    pidBackpopulate_throttles_iff inv_empty _ hproper rfl 100 0
  obtain ⟨h'', nb', hok', hmap, -, hthrottled⟩ :=
    pidBackpopulate_throttles_iff inv_empty _ hempty rfl 100 0
  have hsame : regionsOf (h''.mapOf 7) = regionsOf (({} : DsoHdr).mapOf 7) := by
    rw [hmap]
    rfl
  refine ⟨⟨h', nb, hok, hcount.mpr ?_⟩, h'', nb', hok', hsame, (hthrottled hsame).mpr rfl⟩
  exact (newRegions_eq_length_iff _ _).mp (by decide +kernel)

def readHdr : DsoHdr :=
  ({} : DsoHdr).setPidMapping 7
    { map := insertRegions .empty (procRegions 7 [Backpopulations.libLine])
      backpopulateState := { nbUnfoundDsos := 1, lastBackpopulateTime := 100 } }

/-- Reading the same maps again counts a region that was there, changes no region, and leaves
the next lookup free to read them once more. -/
theorem pidBackpopulate_notThrottled :
    ∃ h' h'' findRes,
      readHdr.pidBackpopulate 7 200 (some [Backpopulations.libLine]) 0 = .ok (h', true, 1) ∧
      newRegions (readHdr.mapOf 7) (procRegions 7 [Backpopulations.libLine]) = 0 ∧
      regionsOf (h'.mapOf 7) = regionsOf (readHdr.mapOf 7) ∧
      h'.dsoFindOrBackpopulate 7 0x9000 300 (some [Backpopulations.libLine]) =
        .ok (h'', findRes, true) := by
  have hend : ((readHdr.pidBackpopulate 7 200 (some [Backpopulations.libLine]) 0).toOption.any
      fun res => decide (res.2 = (true, 1)) &&
        decide (regionsOf (res.1.mapOf 7) = regionsOf (readHdr.mapOf 7)) &&
        (res.1.dsoFindOrBackpopulate 7 0x9000 300 (some [Backpopulations.libLine])).toOption.any
          fun look => look.2.2) = true := by
    decide +kernel
  obtain ⟨⟨h', res⟩, hok, htest⟩ := (Option.any_eq_true _ _).mp hend
  simp only [Bool.and_eq_true, decide_eq_true_eq] at htest
  obtain ⟨⟨rfl, hsame⟩, hlook⟩ := htest
  obtain ⟨⟨h'', findRes, read⟩, hok', hread⟩ := (Option.any_eq_true _ _).mp hlook
  obtain rfl : read = true := hread
  exact ⟨h', h'', findRes, Run.eq_ok_of_toOption hok, by decide +kernel, hsame,
    Run.eq_ok_of_toOption hok'⟩

end DsoHdr

end Ddprof
