import Ddprof.Lib.Run
import Ddprof.Worker.Calls

/-!
Which live allocations are reported in which profile.

A live-sum call of `pprof_aggregate` reports a stack trace of a process: it carries the sum of
the values of the addresses that point at this stack trace. These allocations *contribute* to
the call. Allocations are told apart by a number that is new with each registration, so that an
address that is freed and allocated again counts as two allocations.

Live allocations are reported from four places: by a cycle, when a process has not been visited,
when it forks or executes another program, and when its allocations are cleared for one watcher.
In all of them but the first the allocations that have been reported are cleared afterwards. The
exception is the last one, which reports the process for all watchers and clears it for one.
-/

namespace Ddprof

structure Allocation where
  watcherPos : ℕ
  pid : ℤ
  address : ℕ
  /-- The number of registrations before this one. -/
  number : ℕ
  deriving DecidableEq, Repr

/-- A live-sum call with the allocations that contribute to it and their values. -/
structure Report where
  call : AggregateCall
  contributors : List (Allocation × BitVec 64)
  deriving DecidableEq, Repr

namespace Report

/-- The value of the call is the sum of the values that contribute to it. -/
def Adds (r : Report) : Prop := r.call.pack.value = (r.contributors.map Prod.snd).sum

def contributions (rs : List Report) : List (Allocation × BitVec 64) :=
  rs.flatMap contributors

/-- The allocations that contribute to the calls, with repetitions. -/
def allocations (rs : List Report) : List Allocation := (contributions rs).map Prod.fst

theorem mem_allocations {rs : List Report} {a : Allocation} :
    a ∈ allocations rs ↔ ∃ x, (a, x) ∈ contributions rs := by
  simp [allocations]

@[simp] theorem contributions_append (rs rs' : List Report) :
    contributions (rs ++ rs') = contributions rs ++ contributions rs' := by
  simp [contributions]

@[simp] theorem allocations_append (rs rs' : List Report) :
    allocations (rs ++ rs') = allocations rs ++ allocations rs' := by
  simp [allocations]

theorem contributions_flatMap {α : Type} (l : List α) (f : α → List Report) :
    contributions (l.flatMap f) = l.flatMap fun x => contributions (f x) := by
  simp [contributions, List.flatMap_assoc]

theorem allocations_flatMap {α : Type} (l : List α) (f : α → List Report) :
    allocations (l.flatMap f) = l.flatMap fun x => allocations (f x) := by
  simp [allocations, contributions_flatMap, List.map_flatMap]

end Report

open Report (contributions allocations)

/-- The number of the last registration for a watcher, process and address. -/
abbrev Numbering := ℕ → ℤ → ℕ → ℕ

namespace Worker

variable {w w' : Worker} {number : Numbering} {watcherPos : ℕ} {pid : ℤ} {a : Allocation}
  {x : BitVec 64}

def report (w : Worker) (number : Numbering) (watcherPos : ℕ) (pid : ℤ)
    (e : Sigma fun _ : UnwindOutput => StackNode) : Report where
  call := w.liveCall watcherPos e
  contributors := ((w.liveAllocation.pidStacks watcherPos pid).addressesOf e.1).map fun v =>
    (⟨watcherPos, pid, v.1, number watcherPos pid v.1⟩, v.2.value)

def reportsOf (w : Worker) (number : Numbering) (watcherPos : ℕ) (pid : ℤ) : List Report :=
  (w.stacksOf watcherPos pid).map (w.report number watcherPos pid)

/-- The reports of `aggregate_live_allocations_for_pid`. -/
def reportsForPid (w : Worker) (number : Numbering) (pid : ℤ) : List Report :=
  (List.range w.liveAllocation.watcherVector.length).flatMap fun pos => w.reportsOf number pos pid

/-- The reports of `aggregate_live_allocations`. -/
def reportsAll (w : Worker) (number : Numbering) : List Report :=
  (List.range w.liveAllocation.watcherVector.length).flatMap fun pos =>
    (w.liveAllocation.watcherVector.getD pos ∅ : PidMap).entries.flatMap fun e =>
      w.reportsOf number pos e.1

def Live (w : Worker) (number : Numbering) (a : Allocation) (x : BitVec 64) : Prop :=
  a.number = number a.watcherPos a.pid a.address ∧
    ((w.liveAllocation.pidStacks a.watcherPos a.pid).entryAt a.address).map Prod.fst = some x

/-- Every address points at a stack trace, whose value is the sum over its addresses. -/
def Anchored (w : Worker) : Prop :=
  ∀ watcherPos pid, ∃ leak, Balanced leak none
    (w.liveAllocation.pidStacks watcherPos pid).addressMap
    (w.liveAllocation.pidStacks watcherPos pid).uniqueStacks

/-! ### Who contributes -/

theorem call_report (number : Numbering) (watcherPos : ℕ) (pid : ℤ) :
    (w.reportsOf number watcherPos pid).map Report.call =
      (w.stacksOf watcherPos pid).map (w.liveCall watcherPos) := by
  rw [reportsOf, List.map_map]
  rfl

theorem contributions_reportsOf (number : Numbering) (watcherPos : ℕ) (pid : ℤ) :
    contributions (w.reportsOf number watcherPos pid) =
      (w.stacksOf watcherPos pid).flatMap fun e =>
        ((w.liveAllocation.pidStacks watcherPos pid).addressesOf e.1).map fun v =>
          (⟨watcherPos, pid, v.1, number watcherPos pid v.1⟩, v.2.value) := by
  rw [contributions, reportsOf, List.flatMap_map]
  rfl

/-- The allocations of the process that are registered for the watcher contribute, and no
others. -/
theorem mem_reportsOf (h : w.Anchored) :
    (a, x) ∈ contributions (w.reportsOf number watcherPos pid) ↔
      w.Live number a x ∧ a.watcherPos = watcherPos ∧ a.pid = pid := by
  rw [contributions_reportsOf, List.mem_flatMap]
  constructor
  · rintro ⟨e, -, ha⟩
    obtain ⟨v, hv, heq⟩ := List.mem_map.mp ha
    cases heq
    have hlookup : AList.lookup v.1 (w.liveAllocation.pidStacks watcherPos pid).addressMap =
        some v.2 := AList.mem_lookup_iff.mpr (List.mem_of_mem_filter hv)
    refine ⟨⟨rfl, ?_⟩, rfl, rfl⟩
    rw [PidStacks.entryAt, hlookup]
    rfl
  · rintro ⟨⟨hnumber, hlive⟩, rfl, rfl⟩
    obtain ⟨leak, hb⟩ := h a.watcherPos a.pid
    obtain ⟨entry, hentry, rfl⟩ := Option.map_eq_some_iff.mp hlive
    obtain ⟨v, hv, rfl⟩ := Option.map_eq_some_iff.mp hentry
    obtain ⟨ptr, hptr, hnode⟩ := hb.valid a.address v hv
    obtain ⟨n, hn, -⟩ := Option.map_eq_some_iff.mp hnode
    refine ⟨⟨ptr.stack, n⟩, AList.mem_lookup_iff.mp hn, ?_⟩
    refine List.mem_map.mpr ⟨⟨a.address, v⟩,
      List.mem_filter.mpr ⟨AList.mem_lookup_iff.mp hv, ?_⟩, ?_⟩
    · simp [hptr]
    · rw [← hnumber]

theorem nodup_reportsOf (number : Numbering) (watcherPos : ℕ) (pid : ℤ) :
    (allocations (w.reportsOf number watcherPos pid)).Nodup := by
  rw [allocations, contributions_reportsOf, List.map_flatMap, List.nodup_flatMap]
  have hkeys : ∀ {v v' : Sigma fun _ : ℕ => ValuePerAddress},
      v ∈ (w.liveAllocation.pidStacks watcherPos pid).addressMap.entries →
      v' ∈ (w.liveAllocation.pidStacks watcherPos pid).addressMap.entries → v.1 = v'.1 → v = v' :=
    fun hv hv' =>
      (w.liveAllocation.pidStacks watcherPos pid).addressMap.nodupKeys.eq_of_fst_eq hv hv'
  simp only [List.map_map, Function.comp_def]
  refine ⟨fun e _ => ?_, ?_⟩
  · refine List.Nodup.map_on (fun v hv v' hv' heq => ?_) ?_
    · exact hkeys (List.mem_of_mem_filter hv) (List.mem_of_mem_filter hv')
        (congrArg Allocation.address heq)
    · exact (List.NodupKeys.nodup (AList.nodupKeys _)).filter _
  · -- an address points at one stack trace only
    have hstacks := (w.liveAllocation.pidStacks watcherPos pid).uniqueStacks.nodupKeys
    refine (List.pairwise_map.mp hstacks).imp fun {e e'} hne => ?_
    intro x hx hx'
    obtain ⟨v, hv, rfl⟩ := List.mem_map.mp hx
    obtain ⟨v', hv', heq⟩ := List.mem_map.mp hx'
    obtain ⟨hv, hs⟩ := List.mem_filter.mp hv
    obtain ⟨hv', hs'⟩ := List.mem_filter.mp hv'
    obtain rfl := hkeys hv hv' (congrArg Allocation.address heq).symm
    simp only [decide_eq_true_eq] at hs hs'
    exact hne (Option.some.inj (hs.symm.trans hs'))

theorem disjoint_reportsOf (h : w.Anchored) {watcherPos' : ℕ} {pid' : ℤ}
    (hne : watcherPos ≠ watcherPos' ∨ pid ≠ pid') :
    List.Disjoint (allocations (w.reportsOf number watcherPos pid))
      (allocations (w.reportsOf number watcherPos' pid')) := by
  intro a ha ha'
  obtain ⟨x, hx⟩ := Report.mem_allocations.mp ha
  obtain ⟨x', hx'⟩ := Report.mem_allocations.mp ha'
  obtain ⟨-, rfl, rfl⟩ := (mem_reportsOf h).mp hx
  obtain ⟨-, hpos, hpid⟩ := (mem_reportsOf h).mp hx'
  exact hne.elim (fun hpos' => hpos' hpos) fun hpid' => hpid' hpid

theorem Live.pos_lt (h : w.Live number a x) :
    a.watcherPos < w.liveAllocation.watcherVector.length := by
  by_contra hge
  have hempty : w.liveAllocation.pidStacks a.watcherPos a.pid = {} := by
    rw [LiveAllocation.pidStacks, List.getD_eq_default _ _ (by omega)]
    rfl
  have hentry := h.2
  rw [hempty] at hentry
  cases hentry

theorem mem_reportsForPid (h : w.Anchored) :
    (a, x) ∈ contributions (w.reportsForPid number pid) ↔ w.Live number a x ∧ a.pid = pid := by
  rw [reportsForPid, Report.contributions_flatMap, List.mem_flatMap]
  constructor
  · rintro ⟨pos, -, ha⟩
    obtain ⟨hlive, -, hpid⟩ := (mem_reportsOf h).mp ha
    exact ⟨hlive, hpid⟩
  · rintro ⟨hlive, hpid⟩
    exact ⟨a.watcherPos, List.mem_range.mpr hlive.pos_lt, (mem_reportsOf h).mpr ⟨hlive, rfl, hpid⟩⟩

theorem nodup_reportsForPid (h : w.Anchored) (number : Numbering) (pid : ℤ) :
    (allocations (w.reportsForPid number pid)).Nodup := by
  rw [reportsForPid, Report.allocations_flatMap, List.nodup_flatMap]
  exact ⟨fun pos _ => nodup_reportsOf number pos pid,
    List.nodup_range.imp fun hne => disjoint_reportsOf h (.inl hne)⟩

theorem mem_reportsAll (h : w.Anchored) :
    (a, x) ∈ contributions (w.reportsAll number) ↔ w.Live number a x := by
  simp only [reportsAll, Report.contributions_flatMap, List.mem_flatMap]
  constructor
  · rintro ⟨pos, -, e, -, ha⟩
    exact ((mem_reportsOf h).mp ha).1
  · intro hlive
    refine ⟨a.watcherPos, List.mem_range.mpr hlive.pos_lt, ?_⟩
    cases hpid : AList.lookup a.pid
        (w.liveAllocation.watcherVector.getD a.watcherPos ∅ : PidMap) with
    | none =>
      have hempty : w.liveAllocation.pidStacks a.watcherPos a.pid = {} := by
        rw [LiveAllocation.pidStacks, UnorderedMap.get, hpid]
        rfl
      have hentry := hlive.2
      rw [hempty] at hentry
      cases hentry
    | some ps =>
      exact ⟨⟨a.pid, ps⟩, AList.mem_lookup_iff.mp hpid, (mem_reportsOf h).mpr ⟨hlive, rfl, rfl⟩⟩

theorem nodup_reportsAll (h : w.Anchored) (number : Numbering) :
    (allocations (w.reportsAll number)).Nodup := by
  simp only [reportsAll, Report.allocations_flatMap]
  refine List.nodup_flatMap.mpr ⟨fun pos _ => List.nodup_flatMap.mpr ⟨fun e _ => ?_, ?_⟩, ?_⟩
  · exact nodup_reportsOf number pos e.1
  · have hpids := (w.liveAllocation.watcherVector.getD pos ∅ : PidMap).nodupKeys
    exact (List.pairwise_map.mp hpids).imp fun hne => disjoint_reportsOf h (.inr hne)
  · refine List.nodup_range.imp fun {pos pos'} hne a ha ha' => ?_
    obtain ⟨e, -, ha⟩ := List.mem_flatMap.mp ha
    obtain ⟨e', -, ha'⟩ := List.mem_flatMap.mp ha'
    exact disjoint_reportsOf h (.inl hne) ha ha'

variable {r : Report}

theorem adds_reportsOf (h : w.Anchored) (hr : r ∈ w.reportsOf number watcherPos pid) :
    r.Adds := by
  obtain ⟨e, he, rfl⟩ := List.mem_map.mp hr
  obtain ⟨leak, hb⟩ := h watcherPos pid
  have hexact := congrArg Prod.snd (hb.exact e.1)
  rw [PprofStacks.held, AList.mem_lookup_iff.mpr he, PidStacks.owed_eq_addressesOf] at hexact
  simp only [Prod.snd_add, add_zero] at hexact
  rw [Report.Adds, report, List.map_map]
  exact hexact

/-! ### What the functions report -/

def liveCalls (w : Worker) : List AggregateCall := w.calls.filter fun c => c.valuePos = .liveSum

theorem liveCalls_addCalls (w : Worker) (calls : List AggregateCall) :
    (w.addCalls calls).liveCalls = w.liveCalls ++ calls.filter fun c => c.valuePos = .liveSum :=
  List.filter_append ..

theorem liveCalls_addReports (w : Worker) {rs : List Report}
    (h : ∀ r ∈ rs, r.call.valuePos = .liveSum) :
    (w.addCalls (rs.map Report.call)).liveCalls = w.liveCalls ++ rs.map Report.call := by
  rw [liveCalls_addCalls, List.filter_eq_self.mpr]
  intro c hc
  obtain ⟨r, hr, rfl⟩ := List.mem_map.mp hc
  exact decide_eq_true (h r hr)

theorem liveCalls_addSum (w : Worker) {calls : List AggregateCall} (h : SumCalls calls) :
    (w.addCalls calls).liveCalls = w.liveCalls := by
  rw [liveCalls_addCalls, List.filter_eq_nil_iff.mpr, List.append_nil]
  intro c hc
  rw [h c hc]
  decide

theorem Live.of_same (hsame : SameLive w.liveAllocation w'.liveAllocation) :
    w'.Live number a x ↔ w.Live number a x := by
  rw [Live, Live, hsame]

theorem Anchored.of_same (h : w.Anchored)
    (hsame : SameLive w.liveAllocation w'.liveAllocation) : w'.Anchored := fun pos p => by
  rw [hsame]
  exact h pos p

theorem calls_reportsForPid (number : Numbering) (pid : ℤ) :
    (w.reportsForPid number pid).map Report.call =
      (List.range w.liveAllocation.watcherVector.length).flatMap fun pos =>
        (w.stacksOf pos pid).map (w.liveCall pos) := by
  simp only [reportsForPid, List.map_flatMap, call_report]

theorem calls_reportsAll (number : Numbering) :
    (w.reportsAll number).map Report.call =
      (List.range w.liveAllocation.watcherVector.length).flatMap fun pos =>
        (w.liveAllocation.watcherVector.getD pos ∅ : PidMap).entries.flatMap fun e =>
          (w.stacksOf pos e.1).map (w.liveCall pos) := by
  simp only [reportsAll, List.map_flatMap, call_report]

theorem exists_of_mem_reportsForPid (hr : r ∈ w.reportsForPid number pid) :
    ∃ pos, r ∈ w.reportsOf number pos pid := by
  obtain ⟨pos, -, hr⟩ := List.mem_flatMap.mp hr
  exact ⟨pos, hr⟩

theorem exists_of_mem_reportsAll (hr : r ∈ w.reportsAll number) :
    ∃ pos pid, r ∈ w.reportsOf number pos pid := by
  obtain ⟨pos, -, hr⟩ := List.mem_flatMap.mp hr
  obtain ⟨e, -, hr⟩ := List.mem_flatMap.mp hr
  exact ⟨pos, e.1, hr⟩

theorem valuePos_reportsOf (hr : r ∈ w.reportsOf number watcherPos pid) :
    r.call.valuePos = .liveSum := by
  obtain ⟨e, -, rfl⟩ := List.mem_map.mp hr
  rfl

/-- What has been reported in the current profile is accounted for and no longer registered. -/
structure Ledger (earlier : List AggregateCall) (number : Numbering) (registrations : ℕ)
    (w : Worker) (current : List Report) : Prop where
  anchored : w.Anchored
  calls : w.liveCalls = earlier ++ current.map Report.call
  adds : ∀ r ∈ current, r.Adds
  nodup : (allocations current).Nodup
  unreported : ∀ a x, w.Live number a x → a ∉ allocations current
  live_lt : ∀ a x, w.Live number a x → a.number < registrations
  reported_lt : ∀ a ∈ allocations current, a.number < registrations

namespace Ledger

variable {aggregateOk : ℕ → Bool} {earlier : List AggregateCall} {registrations : ℕ}
  {current rs : List Report}

theorem nodup_append (h : Ledger earlier number registrations w current)
    (hrs : (allocations rs).Nodup)
    (hlive : ∀ a x, (a, x) ∈ contributions rs → w.Live number a x) :
    (allocations (current ++ rs)).Nodup := by
  rw [Report.allocations_append]
  refine h.nodup.append hrs fun a hcurrent ha => ?_
  obtain ⟨x, hx⟩ := Report.mem_allocations.mp ha
  exact h.unreported a x (hlive a x hx) hcurrent

theorem report (h : Ledger earlier number registrations w current) (hw' : w'.Anchored)
    (hcalls : w'.liveCalls = w.liveCalls ++ rs.map Report.call) (hadds : ∀ r ∈ rs, r.Adds)
    (hrs : (allocations rs).Nodup)
    (hlive : ∀ a x, (a, x) ∈ contributions rs → w.Live number a x)
    (hrest : ∀ a x, w'.Live number a x → w.Live number a x ∧ a ∉ allocations rs) :
    Ledger earlier number registrations w' (current ++ rs) := by
  refine ⟨hw', ?_, fun r hr => ?_, h.nodup_append hrs hlive, fun a x ha => ?_, fun a x ha => ?_,
    fun a ha => ?_⟩
  · rw [hcalls, h.calls, List.map_append, List.append_assoc]
  · exact (List.mem_append.mp hr).elim (h.adds r) (hadds r)
  · rw [Report.allocations_append, List.mem_append]
    exact not_or.mpr ⟨h.unreported a x (hrest a x ha).1, (hrest a x ha).2⟩
  · exact h.live_lt a x (hrest a x ha).1
  · rw [Report.allocations_append, List.mem_append] at ha
    refine ha.elim (h.reported_lt a) fun ha => ?_
    obtain ⟨x, hx⟩ := Report.mem_allocations.mp ha
    exact h.live_lt a x (hlive a x hx)

theorem keep (h : Ledger earlier number registrations w current) (hw' : w'.Anchored)
    (hcalls : w'.liveCalls = w.liveCalls)
    (hlive : ∀ a x, w'.Live number a x → w.Live number a x) :
    Ledger earlier number registrations w' current :=
  ⟨hw', hcalls.trans h.calls, h.adds, h.nodup, fun a x ha => h.unreported a x (hlive a x ha),
    fun a x ha => h.live_lt a x (hlive a x ha), h.reported_lt⟩

end Ledger

theorem live_clearPid (hsame : SameLive (w.liveAllocation.clearPid pid) w'.liveAllocation) :
    w'.Live number a x ↔ w.Live number a x ∧ a.pid ≠ pid := by
  rw [Live, Live, hsame, LiveAllocation.pidStacks_clearPid]
  split_ifs with hpid
  · exact iff_of_false (fun h => nomatch h.2) fun h => h.2 hpid
  · simp [hpid]

theorem Anchored.clearPid (h : w.Anchored)
    (hsame : SameLive (w.liveAllocation.clearPid pid) w'.liveAllocation) : w'.Anchored := by
  intro pos p
  rw [hsame, LiveAllocation.pidStacks_clearPid]
  split_ifs
  · exact ⟨_, PidStacks.balanced_default⟩
  · exact h pos p

theorem Ledger.workerPidFree {aggregateOk : ℕ → Bool} {earlier : List AggregateCall}
    {registrations : ℕ} {current : List Report}
    (h : Ledger earlier number registrations w current) (pid : ℤ)
    (hok : (w.workerPidFree aggregateOk pid).2 = true) :
    Ledger earlier number registrations (w.workerPidFree aggregateOk pid).1
        (current ++ w.reportsForPid number pid) ∧
      ∀ a x, w.Live number a x → (w.workerPidFree aggregateOk pid).1.Live number a x ∨
        (a, x) ∈ contributions (w.reportsForPid number pid) := by
  obtain ⟨la, hla, heq⟩ := workerPidFree_eq pid hok
  rw [← calls_reportsForPid number] at heq
  have hsame : SameLive (w.liveAllocation.clearPid pid)
      (w.workerPidFree aggregateOk pid).1.liveAllocation := by
    rw [heq]
    exact hla
  refine ⟨h.report (h.anchored.clearPid hsame) ?_ (fun r hr => ?_)
    (nodup_reportsForPid h.anchored ..)
    (fun a x hx => ((mem_reportsForPid h.anchored).mp hx).1) (fun a x ha => ?_), fun a x ha => ?_⟩
  · rw [heq, liveCalls_addReports]
    · rfl
    · intro r hr
      obtain ⟨pos, hr⟩ := exists_of_mem_reportsForPid hr
      exact valuePos_reportsOf hr
  · obtain ⟨pos, hr⟩ := exists_of_mem_reportsForPid hr
    exact adds_reportsOf h.anchored hr
  · obtain ⟨hlive, hpid⟩ := (live_clearPid hsame).mp ha
    refine ⟨hlive, fun hmem => ?_⟩
    obtain ⟨y, hy⟩ := Report.mem_allocations.mp hmem
    exact hpid ((mem_reportsForPid h.anchored).mp hy).2
  · by_cases hpid : a.pid = pid
    · exact .inr ((mem_reportsForPid h.anchored).mpr ⟨ha, hpid⟩)
    · exact .inl ((live_clearPid hsame).mpr ⟨ha, hpid⟩)

end Worker

end Ddprof
