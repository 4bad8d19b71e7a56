import Ddprof.Dso.Lookup

/-!
Backpopulation and the events that it makes obsolete.

`pid_backpopulate` reads `/proc/<pid>/maps`, and an mmap event that is older than the last
backpopulation of its process is ignored from then on: its effect is in what was read. The
time is a field of the backpopulation state. It is set before the file is opened, and it is
lost when the state is reset.

A run records which maps have been read, and when the reading started.
-/

namespace Ddprof

/-! ### What a call does to the backpopulation states -/

variable {pidMapping pidMapping' : PidMapping}

/-- The insertion reads only the map of the mapping, and it leaves the backpopulation state. -/
theorem PidMapping.insertEraseOverlap_eq_ok {d : Dso} {findRes : DsoFindRes}
    (hok : pidMapping.insertEraseOverlap d = .ok (pidMapping', findRes)) :
    pidMapping'.backpopulateState = pidMapping.backpopulateState ∧
      ∀ other : PidMapping, other.map = pidMapping.map →
        ∃ other', other.insertEraseOverlap d = .ok (other', findRes) ∧
          other'.map = pidMapping'.map := by
  unfold PidMapping.insertEraseOverlap at hok ⊢
  simp only at hok ⊢
  by_cases hknown : (dsoFindAdjustSame pidMapping.map d).2.2 = true
  · rw [if_pos hknown] at hok
    cases hok
    refine ⟨rfl, fun other hmap => ?_⟩
    rw [hmap, if_pos hknown]
    exact ⟨_, rfl, rfl⟩
  · rw [if_neg hknown] at hok
    obtain ⟨erased, hroom, hok⟩ := Run.exists_of_bind_eq_ok hok
    cases hok
    refine ⟨rfl, fun other hmap => ?_⟩
    rw [hmap, if_neg hknown, hroom]
    exact ⟨_, rfl, rfl⟩

namespace DsoHdr

def backpopulateStateOf (h : DsoHdr) (pid : ℤ) : BackpopulateState :=
  (h.pidMap.get pid).backpopulateState

variable {h h' : DsoHdr}

theorem backpopulateStateOf_setPidMapping (h : DsoHdr) (pid : ℤ) (pidMapping : PidMapping)
    (pid' : ℤ) :
    (h.setPidMapping pid pidMapping).backpopulateStateOf pid' =
      if pid' = pid then pidMapping.backpopulateState else h.backpopulateStateOf pid' := by
  unfold backpopulateStateOf setPidMapping
  split_ifs with hpid
  · rw [hpid, UnorderedMap.get_insert]
  · rw [UnorderedMap.get_insert_ne _ _ hpid]

theorem backpopulateStateOf_setPidMapping_same {pid : ℤ} {pidMapping : PidMapping}
    (hstate : pidMapping.backpopulateState = h.backpopulateStateOf pid) (pid' : ℤ) :
    (h.setPidMapping pid pidMapping).backpopulateStateOf pid' = h.backpopulateStateOf pid' := by
  rw [backpopulateStateOf_setPidMapping]
  split_ifs with hpid
  · rw [hstate, hpid]
  · rfl

theorem backpopulateStateOf_insertEraseOverlap {d : Dso} {findRes : DsoFindRes}
    (hok : h.insertEraseOverlap d = .ok (h', findRes)) (pid : ℤ) :
    h'.backpopulateStateOf pid = h.backpopulateStateOf pid := by
  obtain ⟨res, hins, hok⟩ := Run.exists_of_bind_eq_ok hok
  cases hok
  exact backpopulateStateOf_setPidMapping_same (PidMapping.insertEraseOverlap_eq_ok hins).1 pid

/-- An event is either too old, and then nothing changes, or it is inserted; no
backpopulation state changes in either case. -/
theorem maybeInsertEraseOverlap_cases {d : Dso} {timestamp : ℤ} {res : Bool}
    (hok : h.maybeInsertEraseOverlap d timestamp = .ok (h', res)) :
    (res = decide ((h.backpopulateStateOf d.pid).lastBackpopulateTime ≤ timestamp)) ∧
      ∀ pid, h'.backpopulateStateOf pid = h.backpopulateStateOf pid := by
  unfold maybeInsertEraseOverlap at hok
  simp only at hok
  split_ifs at hok with hold
  · cases hok
    refine ⟨?_, fun pid => backpopulateStateOf_setPidMapping_same rfl pid⟩
    exact (decide_eq_false (not_le.mpr hold)).symm
  · obtain ⟨inserted, hins, hok⟩ := Run.exists_of_bind_eq_ok hok
    cases hok
    refine ⟨?_, fun pid => backpopulateStateOf_setPidMapping_same
      (PidMapping.insertEraseOverlap_eq_ok hins).1 pid⟩
    exact (decide_eq_true (not_lt.mp hold)).symm

/-- A line is passed over, or its region is inserted before the other lines are read. -/
theorem backpopulateLines_cons {pid : ℤ} {n n' : ℤ} {line : List Char} {rest : List (List Char)}
    (hok : backpopulateLines pid pidMapping n (line :: rest) = .ok (pidMapping', n')) :
    (dsoFromProcLine pid line).pid = -1 ∧
        backpopulateLines pid pidMapping n rest = .ok (pidMapping', n') ∨
      (dsoFromProcLine pid line).pid ≠ -1 ∧ ∃ next findRes m,
        pidMapping.insertEraseOverlap (dsoFromProcLine pid line) = .ok (next, findRes) ∧
        backpopulateLines pid next m rest = .ok (pidMapping', n') := by
  unfold backpopulateLines at hok
  simp only at hok
  split_ifs at hok with hinvalid
  · exact .inl ⟨hinvalid, hok⟩
  · obtain ⟨res, hins, hok⟩ := Run.exists_of_bind_eq_ok hok
    exact .inr ⟨hinvalid, _, _, _, hins, hok⟩

theorem backpopulateState_backpopulateLines {pid : ℤ} {n n' : ℤ} {lines : List (List Char)}
    (hok : backpopulateLines pid pidMapping n lines = .ok (pidMapping', n')) :
    pidMapping'.backpopulateState = pidMapping.backpopulateState := by
  induction lines generalizing pidMapping n with
  | nil =>
    cases hok
    rfl
  | cons line rest ih =>
    rcases backpopulateLines_cons hok with ⟨-, hrest⟩ | ⟨-, next, findRes, m, hins, hrest⟩
    · exact ih hrest
    · rw [ih hrest, (PidMapping.insertEraseOverlap_eq_ok hins).1]

/-- The two outcomes of a backpopulation for the states: refused, or attempted, and then the
file is read if it can be opened. -/
theorem pidBackpopulate_cases {pid now nbEltsAdded nb : ℤ}
    {procMaps : Option (List (List Char))} {read : Bool}
    (hok : h.pidBackpopulate pid now procMaps nbEltsAdded = .ok (h', read, nb)) :
    ((h.backpopulateStateOf pid).perm = .forbidden ∧ read = false ∧
      ∀ pid', h'.backpopulateStateOf pid' = if pid' = pid
        then { h.backpopulateStateOf pid with
          nbUnfoundDsos := (h.backpopulateStateOf pid).nbUnfoundDsos + 1 }
        else h.backpopulateStateOf pid') ∨
    ((h.backpopulateStateOf pid).perm = .allowed ∧ read = procMaps.isSome ∧
      ∃ perm, ∀ pid', h'.backpopulateStateOf pid' = if pid' = pid
        then { (h.backpopulateStateOf pid).attempt now with perm := perm }
        else h.backpopulateStateOf pid') := by
  cases hperm : (h.backpopulateStateOf pid).perm with
  | forbidden =>
    have hne : (h.pidMap.get pid).backpopulateState.perm ≠ .allowed := by
      rw [← backpopulateStateOf, hperm]
      exact fun heq => nomatch heq
    rw [pidBackpopulate_forbidden hne] at hok
    cases hok
    exact .inl ⟨rfl, rfl, backpopulateStateOf_setPidMapping _ _ _⟩
  | allowed =>
    refine .inr ⟨rfl, ?_⟩
    cases procMaps with
    | none =>
      rw [pidBackpopulate_unopened hperm] at hok
      cases hok
      refine ⟨rfl, .allowed, fun pid' => ?_⟩
      rw [backpopulateStateOf_setPidMapping, ← hperm]
      rfl
    | some lines =>
      rw [pidBackpopulate_opened hperm] at hok
      obtain ⟨res, hlines, hres⟩ := Run.exists_of_map_eq_ok hok
      have hstate := backpopulateState_backpopulateLines hlines
      cases hres
      refine ⟨rfl, if res.2 = 0 then .forbidden else .allowed, fun pid' => ?_⟩
      have hattempt : ((h.backpopulateStateOf pid).attempt now).perm = .allowed := hperm
      rw [backpopulateStateOf_setPidMapping, hstate]
      split_ifs
      · rfl
      · rw [← hattempt]
        rfl
      · rfl

theorem backpopulateStateOf_resetBackpopulateState (h : DsoHdr) (resetThreshold pid : ℤ) :
    (h.resetBackpopulateState resetThreshold).backpopulateStateOf pid =
      if resetThreshold ≤ (h.backpopulateStateOf pid).nbUnfoundDsos then {}
      else h.backpopulateStateOf pid := by
  unfold backpopulateStateOf resetBackpopulateState UnorderedMap.get
  simp only [UnorderedMap.lookup_mapValues]
  cases AList.lookup pid h.pidMap with
  | none =>
    simp only [Option.map_none, Option.getD_none]
    split_ifs <;> rfl
  | some pidMapping =>
    simp only [Option.map_some, Option.getD_some]
    split_ifs <;> rfl

end DsoHdr

/-! ### Runs of events, backpopulations and resets -/

inductive BackpopulateCall
  | mmapEvent (dso : Dso) (timestamp : ℤ)
  | backpopulate (pid now : ℤ) (procMaps : Option (List (List Char)))
  | reset (resetThreshold : ℤ)

structure Backpopulations where
  hdr : DsoHdr := {}
  /-- The processes whose maps have been read and when the reading started, the last one
  first. -/
  reads : List (ℤ × ℤ) := []

namespace Backpopulations

def step (s : Backpopulations) : BackpopulateCall → Option Backpopulations
  | .mmapEvent dso timestamp =>
    (s.hdr.maybeInsertEraseOverlap dso timestamp).toOption.map fun res => { s with hdr := res.1 }
  | .backpopulate pid now procMaps =>
    (s.hdr.pidBackpopulate pid now procMaps 0).toOption.map fun res =>
      { hdr := res.1, reads := if res.2.1 then (pid, now) :: s.reads else s.reads }
  | .reset resetThreshold => some { s with hdr := s.hdr.resetBackpopulateState resetThreshold }

/-- When the last successful backpopulation of a process started. -/
def lastRead (s : Backpopulations) (pid : ℤ) : Option ℤ :=
  (s.reads.find? fun r => r.1 = pid).map Prod.snd

def lastTime (s : Backpopulations) (pid : ℤ) : ℤ :=
  (s.hdr.backpopulateStateOf pid).lastBackpopulateTime

variable {s s' : Backpopulations}

/-- What a call does to the log of reads and to the times that the states hold: an event
changes neither; a backpopulation that is allowed sets the time of its process, and is logged
if it opens the file; a reset takes the time of the states that it resets back to 0. -/
inductive Acts (s : Backpopulations) : BackpopulateCall → Backpopulations → Prop
  | mmapEvent {dso : Dso} {timestamp : ℤ} {s' : Backpopulations} (hreads : s'.reads = s.reads)
      (htime : ∀ pid, s'.lastTime pid = s.lastTime pid) : Acts s (.mmapEvent dso timestamp) s'
  | refused {pid now : ℤ} {procMaps : Option (List (List Char))} {s' : Backpopulations}
      (hperm : (s.hdr.backpopulateStateOf pid).perm = .forbidden) (hreads : s'.reads = s.reads)
      (htime : ∀ pid, s'.lastTime pid = s.lastTime pid) : Acts s (.backpopulate pid now procMaps) s'
  | attempted {pid now : ℤ} {procMaps : Option (List (List Char))} {s' : Backpopulations}
      (hperm : (s.hdr.backpopulateStateOf pid).perm = .allowed)
      (hreads : s'.reads = if procMaps.isSome then (pid, now) :: s.reads else s.reads)
      (htime : ∀ pid', s'.lastTime pid' = if pid' = pid then now else s.lastTime pid') :
      Acts s (.backpopulate pid now procMaps) s'
  | reset {resetThreshold : ℤ} {s' : Backpopulations} (hreads : s'.reads = s.reads)
      (htime : ∀ pid, s'.lastTime pid =
        if resetThreshold ≤ (s.hdr.backpopulateStateOf pid).nbUnfoundDsos then 0
        else s.lastTime pid) : Acts s (.reset resetThreshold) s'

variable {call : BackpopulateCall}

theorem acts_of_step (h : s.step call = some s') : Acts s call s' := by
  cases call with
  | mmapEvent dso timestamp =>
    obtain ⟨res, hok, rfl⟩ := Option.map_eq_some_iff.mp h
    have hcases := DsoHdr.maybeInsertEraseOverlap_cases (Run.eq_ok_of_toOption hok)
    exact .mmapEvent rfl fun pid => by rw [lastTime, hcases.2, lastTime]
  | backpopulate pid now procMaps =>
    obtain ⟨⟨h', read, nb⟩, hok, rfl⟩ := Option.map_eq_some_iff.mp h
    rcases DsoHdr.pidBackpopulate_cases (Run.eq_ok_of_toOption hok) with
      ⟨hperm, rfl, hstate⟩ | ⟨hperm, rfl, perm, hstate⟩
    · refine .refused hperm rfl fun pid' => ?_
      simp only [lastTime, hstate]
      split_ifs with hpid
      · rw [hpid]
      · rfl
    · refine .attempted hperm rfl fun pid' => ?_
      simp only [lastTime, hstate]
      split_ifs <;> rfl
  | reset resetThreshold =>
    cases h
    refine .reset rfl fun pid => ?_
    simp only [lastTime, DsoHdr.backpopulateStateOf_resetBackpopulateState]
    split_ifs <;> rfl

/-! ### Old events are ignored -/

/-- The state of each process whose last successful backpopulation is known has its time. -/
def TimesKept (s : Backpopulations) : Prop :=
  ∀ pid t, s.lastRead pid = some t → s.lastTime pid = t

/-- A backpopulation finds the file, and a reset is below the threshold for every process
whose maps have been read. -/
def KeepsTimes (s : Backpopulations) : BackpopulateCall → Prop
  | .mmapEvent _ _ => True
  | .backpopulate _ _ procMaps => procMaps.isSome
  | .reset resetThreshold =>
    ∀ r ∈ s.reads, (s.hdr.backpopulateStateOf r.1).nbUnfoundDsos < resetThreshold

instance (s : Backpopulations) : DecidablePred s.KeepsTimes := by
  intro call
  cases call <;> unfold KeepsTimes <;> infer_instance

theorem mem_reads_of_lastRead {pid t : ℤ} (h : s.lastRead pid = some t) : (pid, t) ∈ s.reads := by
  obtain ⟨r, hr, rfl⟩ := Option.map_eq_some_iff.mp h
  have hpid : r.1 = pid := by simpa using List.find?_some hr
  exact hpid ▸ List.mem_of_find?_eq_some hr

theorem lastRead_cons {pid now : ℤ} (hreads : s'.reads = (pid, now) :: s.reads) (pid' : ℤ) :
    s'.lastRead pid' = if pid' = pid then some now else s.lastRead pid' := by
  rw [lastRead, hreads, List.find?_cons, lastRead]
  by_cases hpid : pid' = pid
  · simp [hpid]
  · simp [hpid, Ne.symm hpid]

theorem TimesKept.acts (hkept : s.TimesKept)
    (hok : s.KeepsTimes call) (h : Acts s call s') : s'.TimesKept := by
  intro pid t ht
  cases h with
  | mmapEvent hreads htime =>
    rw [lastRead, hreads] at ht
    rw [htime]
    exact hkept pid t ht
  | refused hperm hreads htime =>
    rw [lastRead, hreads] at ht
    rw [htime]
    exact hkept pid t ht
  | attempted hperm hreads htime =>
    have hopen : _ = true := hok
    rw [if_pos hopen] at hreads
    rw [lastRead_cons hreads] at ht
    rw [htime]
    split_ifs at ht ⊢ with hpid
    · exact Option.some.inj ht
    · exact hkept pid t ht
  | reset hreads htime =>
    rw [lastRead, hreads] at ht
    have hbelow := hok _ (mem_reads_of_lastRead (s := s) ht)
    rw [htime, if_neg (not_le.mpr hbelow)]
    exact hkept pid t ht

/-- In every state that is reached without resetting a process whose maps have been read, an
event that is older than the last successful backpopulation of its process leaves all maps as
they are. -/
theorem staleEvent_ignored {calls : List BackpopulateCall} {s : Backpopulations}
    (hok : Run.Along step KeepsTimes {} calls) (hrun : Run.steps step {} calls = some s)
    {dso : Dso} {timestamp t : ℤ} (hread : s.lastRead dso.pid = some t) (hstale : timestamp < t) :
    ∃ h', s.hdr.maybeInsertEraseOverlap dso timestamp = .ok (h', false) ∧
      ∀ pid, h'.mapOf pid = s.hdr.mapOf pid := by
  have hinit : TimesKept {} := fun pid t ht => nomatch ht
  have hkept : s.TimesKept := Run.steps_invariant
    (fun s call s' hkept hok hstep => hkept.acts hok (acts_of_step hstep)) hinit hok hrun
  exact ⟨_, if_pos (lt_of_lt_of_eq hstale (hkept _ _ hread).symm),
    s.hdr.mapOf_setPidMapping_same rfl⟩

def libLine : List Char := "1000-5000 r-xp 00000000 fe:01 3 /lib/new.so\n".toList

def oldMapping : Dso := .make 7 0x1000 0x1fff 0 "/lib/old.so".toList 2 5 .perfMmapEvent

theorem staleEvent_ignored_belowThreshold :
    ∃ s, Run.steps step {} [.backpopulate 7 100 (some [libLine]), .reset 10] = some s ∧
      ∃ h', s.hdr.maybeInsertEraseOverlap oldMapping 50 = .ok (h', false) ∧
        ∀ pid, h'.mapOf pid = s.hdr.mapOf pid := by
  have hend : ((Run.steps step {} [.backpopulate 7 100 (some [libLine]), .reset 10]).any
      fun s => decide (s.lastRead oldMapping.pid = some 100)) = true := by decide +kernel
  obtain ⟨s, hrun, hread⟩ := (Option.any_eq_true _ _).mp hend
  exact ⟨s, hrun, staleEvent_ignored (by decide +kernel) hrun (of_decide_eq_true hread)
    (by decide)⟩

/-- Ten lookups that each read the maps, and the reset of the next export cycle. -/
def tenReadsThenReset : List BackpopulateCall :=
  (List.range 10).map (fun i => .backpopulate 7 (91 + i) (some [libLine])) ++ [.reset 10]

/-- The reset forgets the time of the last read, and an old event replaces what was read. -/
theorem staleEvent_insertedAfterReset :
    ∃ s h', Run.steps step {} tenReadsThenReset = some s ∧
      s.lastRead oldMapping.pid = some 100 ∧
      s.hdr.maybeInsertEraseOverlap oldMapping 50 = .ok (h', true) ∧
      h'.mapOf oldMapping.pid ≠ s.hdr.mapOf oldMapping.pid := by
  have hend : ((Run.steps step {} tenReadsThenReset).any fun s =>
      decide (s.lastRead oldMapping.pid = some 100) &&
        (s.hdr.maybeInsertEraseOverlap oldMapping 50).toOption.any fun res =>
          res.2 && decide (res.1.mapOf oldMapping.pid ≠ s.hdr.mapOf oldMapping.pid)) = true := by
    decide +kernel
  obtain ⟨s, hrun, htest⟩ := (Option.any_eq_true _ _).mp hend
  rw [Bool.and_eq_true, Option.any_eq_true] at htest
  obtain ⟨hread, ⟨h', res⟩, hok, hres⟩ := htest
  rw [Bool.and_eq_true] at hres
  obtain rfl : res = true := hres.1
  exact ⟨s, h', hrun, of_decide_eq_true hread, Run.eq_ok_of_toOption hok, of_decide_eq_true hres.2⟩

/-! ### Ignored events have a substitute -/

/-- A time that is set is the time at which the maps of the process were read. -/
def TimesRead (s : Backpopulations) : Prop :=
  ∀ pid, s.lastTime pid = 0 ∨ (pid, s.lastTime pid) ∈ s.reads

/-- Timestamps are not negative, and a backpopulation that is allowed finds the file. -/
def Opens (s : Backpopulations) : BackpopulateCall → Prop
  | .mmapEvent _ timestamp => 0 ≤ timestamp
  | .backpopulate pid _ procMaps =>
    (s.hdr.backpopulateStateOf pid).perm = .allowed → procMaps.isSome
  | .reset _ => True

instance (s : Backpopulations) : DecidablePred s.Opens := by
  intro call
  cases call <;> unfold Opens <;> infer_instance

theorem TimesRead.acts (hread : s.TimesRead) (hok : s.Opens call)
    (h : Acts s call s') : s'.TimesRead := by
  intro pid
  cases h with
  | mmapEvent hreads htime =>
    rw [htime, hreads]
    exact hread pid
  | refused hperm hreads htime =>
    rw [htime, hreads]
    exact hread pid
  | attempted hperm hreads htime =>
    rw [htime, hreads, if_pos (hok hperm)]
    split_ifs with hpid
    · rw [hpid]
      exact .inr List.mem_cons_self
    · exact (hread pid).imp_right (List.mem_cons_of_mem _)
  | reset hreads htime =>
    rw [htime, hreads]
    split_ifs
    · exact .inl rfl
    · exact hread pid

/-- In every state that is reached without a failure to open the file, an event is ignored
only if the maps of its process were read after its timestamp. -/
theorem ignoredEvent_read {calls : List BackpopulateCall} {s : Backpopulations}
    (hok : Run.Along step Opens {} calls) (hrun : Run.steps step {} calls = some s)
    {dso : Dso} {timestamp : ℤ} (htimestamp : s.Opens (.mmapEvent dso timestamp)) {h' : DsoHdr}
    (hignored : s.hdr.maybeInsertEraseOverlap dso timestamp = .ok (h', false)) :
    ∃ t, (dso.pid, t) ∈ s.reads ∧ timestamp < t := by
  have hinit : TimesRead {} := fun pid => .inl rfl
  have hread : s.TimesRead := Run.steps_invariant
    (fun s call s' hread hok hstep => hread.acts hok (acts_of_step hstep)) hinit hok hrun
  have hlt : timestamp < s.lastTime dso.pid :=
    not_le.mp (of_decide_eq_false (DsoHdr.maybeInsertEraseOverlap_cases hignored).1.symm)
  rcases hread dso.pid with hzero | hmem
  · rw [hzero] at hlt
    exact absurd htimestamp (not_le.mpr hlt)
  · exact ⟨_, hmem, hlt⟩

theorem ignoredEvent_read_backpopulated :
    ∃ s t, Run.steps step {} [.mmapEvent oldMapping 20, .backpopulate 7 100 (some [libLine])] =
        some s ∧ (oldMapping.pid, t) ∈ s.reads ∧ 50 < t := by
  have hend : ((Run.steps step {}
      [.mmapEvent oldMapping 20, .backpopulate 7 100 (some [libLine])]).any fun s =>
        (s.hdr.maybeInsertEraseOverlap oldMapping 50).toOption.any fun res => !res.2) = true := by
    decide +kernel
  obtain ⟨s, hrun, hignored⟩ := (Option.any_eq_true _ _).mp hend
  obtain ⟨⟨h', res⟩, hok, hres⟩ := (Option.any_eq_true _ _).mp hignored
  obtain rfl : res = false := by simpa using hres
  have htimestamp : s.Opens (.mmapEvent oldMapping 50) := (by decide : (0 : ℤ) ≤ 50)
  obtain ⟨t, ht⟩ := ignoredEvent_read (by decide +kernel) hrun htimestamp
    (Run.eq_ok_of_toOption hok)
  exact ⟨s, t, hrun, ht⟩

/-- A backpopulation that does not find the file makes the header drop an event, and no maps
have been read. -/
theorem ignoredEvent_neverRead :
    ∃ s h', Run.steps step {} [.backpopulate 7 100 none] = some s ∧ s.reads = [] ∧
      s.hdr.maybeInsertEraseOverlap oldMapping 50 = .ok (h', false) := by
  have hend : ((Run.steps step {} [.backpopulate 7 100 none]).any fun s =>
      decide (s.reads = []) &&
        (s.hdr.maybeInsertEraseOverlap oldMapping 50).toOption.any fun res => !res.2) = true := by
    decide +kernel
  obtain ⟨s, hrun, htest⟩ := (Option.any_eq_true _ _).mp hend
  rw [Bool.and_eq_true, Option.any_eq_true] at htest
  obtain ⟨hreads, ⟨h', res⟩, hok, hres⟩ := htest
  obtain rfl : res = false := by simpa using hres
  exact ⟨s, h', hrun, of_decide_eq_true hreads, Run.eq_ok_of_toOption hok⟩

end Backpopulations

end Ddprof
