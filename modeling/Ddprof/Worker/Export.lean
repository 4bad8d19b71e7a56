import Ddprof.Lib.Run
import Ddprof.Worker.Basic

/-!
The two profiles of the worker and the thread that exports them.

The worker aggregates into `pprof[i_current_pprof]`. A cycle waits for the export that
is still pending, switches to the other profile, resets it, and hands the first one to
an export, which runs in a thread of its own or, in a synchronous cycle, in the worker
itself. The export thread takes the index of its profile from `i_current_pprof` when it
starts to run, and reads the samples of that profile one after the other.

All interleavings of the two threads are considered. What is aggregated is left open;
the calls of `pprof_aggregate` that the worker makes are an instance.
-/

namespace Ddprof

inductive CyclePhase
  | running
  -- The cycle has been called; live allocations are being aggregated.
  | entered (synchronous : Bool)
  -- No export is pending any more; lost events are being reported.
  | joined (synchronous : Bool)
  | switched (synchronous : Bool)
  | reset (synchronous : Bool)
  -- The worker runs the export itself.
  | exporting
  -- The cycle has returned an error, which ends the worker.
  | failed
  deriving DecidableEq, Repr

inductive ExportThread (σ : Type)
  | none
  | started
  -- The index of the profile, its sequence number, and the samples read so far.
  | reading (i : Bool) (profileSeq : ℕ) (samples : List σ)
  | finished
  deriving DecidableEq, Repr

namespace CyclePhase

def isSwitched : CyclePhase → Bool
  | .switched _ => true
  | _ => false

def handsOver : CyclePhase → Bool
  | .switched _ | .reset _ => true
  | _ => false

def aggregates : CyclePhase → Bool
  | .running | .entered _ | .joined _ => true
  | _ => false

/-- The worker may be here while an export is under way. -/
def overlaps : CyclePhase → Bool
  | .running | .entered _ | .exporting => true
  | _ => false

variable {p : CyclePhase}

theorem handsOver_of_aggregates (h : p.aggregates = true) : p.handsOver = false := by
  cases p with
  | running | entered _ | joined _ => rfl
  | switched _ | reset _ | exporting | failed => cases h

theorem handsOver_of_overlaps (h : p.overlaps = true) : p.handsOver = false := by
  cases p with
  | running | entered _ | exporting => rfl
  | joined _ | switched _ | reset _ | failed => cases h

theorem isSwitched_of_handsOver (h : p.handsOver = false) : p.isSwitched = false := by
  cases p with
  | switched _ => cases h
  | running | entered _ | joined _ | reset _ | exporting | failed => rfl

end CyclePhase

namespace ExportThread

variable {σ : Type}

/-- The thread has taken a sequence number that has not been sent. -/
def numbered : ExportThread σ → Bool
  | .reading _ _ _ => true
  | _ => false

def active : ExportThread σ → Bool
  | .started | .reading _ _ _ => true
  | .none | .finished => false

end ExportThread

structure Export (σ : Type) where
  iCurrentPprof : Bool := false
  pprof : Bool → List σ := fun _ => []
  phase : CyclePhase := .running
  -- `exp_tid` is not zero.
  expTid : Bool := false
  expError : Bool := false
  profileSeq : ℕ
  thread : ExportThread σ := .none
  -- The profiles that have been sent, with their sequence numbers.
  exported : List (ℕ × List σ) := []
  -- The number of times a cycle has switched to the other profile.
  switches : ℕ := 0
  -- All samples that have been aggregated, each with the number of switches before it.
  aggregated : List (ℕ × σ) := []

inductive ExportLabel (σ : Type)
  | aggregate (x : σ)
  | enter (synchronous : Bool)
  -- The end of the wait for the pending export, or its timeout.
  | join (ok : Bool)
  -- An aggregation in the cycle fails.
  | fail
  | switch
  | reset (ok : Bool)
  -- `pthread_create`, or the call of the export in a synchronous cycle.
  | launch
  | leave
  | threadStart
  | threadRead
  | threadSend (ok : Bool)
  deriving DecidableEq, Repr

namespace Export

variable {σ : Type}

def init (profileSeq : ℕ) : Export σ where
  profileSeq := profileSeq

/-! ### The worker -/

def aggregate (s : Export σ) (x : σ) : Export σ :=
  { s with
    pprof := Function.update s.pprof s.iCurrentPprof (s.pprof s.iCurrentPprof ++ [x])
    aggregated := s.aggregated ++ [(s.switches, x)] }

/-- An error of an earlier export makes the cycle fail. -/
def afterJoin (s : Export σ) (synchronous : Bool) : Export σ :=
  { s with expTid := false, phase := if s.expError then .failed else .joined synchronous }

def join (s : Export σ) (synchronous ok : Bool) : Option (Export σ) :=
  if s.expTid then
    if !ok then some { s with phase := .failed }
    else if s.thread.active then none
    else some (s.afterJoin synchronous)
  else if ok then some (s.afterJoin synchronous) else none

def switch (s : Export σ) (synchronous : Bool) : Export σ :=
  { s with
    expError := false
    iCurrentPprof := !s.iCurrentPprof
    switches := s.switches + 1
    phase := .switched synchronous }

def reset (s : Export σ) (synchronous ok : Bool) : Export σ :=
  if ok then
    { s with
      pprof := Function.update s.pprof s.iCurrentPprof []
      phase := .reset synchronous }
  else { s with phase := .failed }

def launch (s : Export σ) (synchronous : Bool) : Export σ :=
  if synchronous then { s with thread := .started, phase := .exporting }
  else { s with thread := .started, expTid := true, phase := .running }

/-! ### The export thread -/

def threadStart (s : Export σ) : Export σ :=
  { s with
    thread := .reading (!s.iCurrentPprof) s.profileSeq []
    profileSeq := (s.profileSeq + 1) % 2 ^ 32 }

/-- The end of an export. Whether the serialization empties the profile is up to the
profile library. -/
def threadSend (drains : Bool) (s : Export σ) (i : Bool) (profileSeq : ℕ) (samples : List σ)
    (ok : Bool) : Export σ :=
  let s := { s with
    thread := .finished, pprof := if drains then Function.update s.pprof i [] else s.pprof }
  if ok then { s with exported := s.exported ++ [(profileSeq, samples)] }
  else { s with expError := true }

def step (drains : Bool) (s : Export σ) : ExportLabel σ → Option (Export σ)
  | .aggregate x =>
    if s.phase.aggregates then some (s.aggregate x) else none
  | .enter synchronous =>
    match s.phase with
    | .running => some { s with phase := .entered synchronous }
    | _ => none
  | .join ok =>
    match s.phase with
    | .entered synchronous => s.join synchronous ok
    | _ => none
  | .fail =>
    match s.phase with
    | .entered _ | .joined _ => some { s with phase := .failed }
    | _ => none
  | .switch =>
    match s.phase with
    | .joined synchronous => some (s.switch synchronous)
    | _ => none
  | .reset ok =>
    match s.phase with
    | .switched synchronous => some (s.reset synchronous ok)
    | _ => none
  | .launch =>
    match s.phase with
    | .reset synchronous => some (s.launch synchronous)
    | _ => none
  | .leave =>
    match s.phase with
    | .exporting =>
      if s.thread.active then none
      else some { s with phase := if s.expError then .failed else .running }
    | _ => none
  | .threadStart =>
    match s.thread with
    | .started => some s.threadStart
    | _ => none
  | .threadRead =>
    match s.thread with
    | .reading i profileSeq samples =>
      (s.pprof i)[samples.length]?.map fun x =>
        { s with thread := .reading i profileSeq (samples ++ [x]) }
    | _ => none
  | .threadSend ok =>
    match s.thread with
    | .reading i profileSeq samples =>
      if (s.pprof i).length ≤ samples.length then
        some (s.threadSend drains i profileSeq samples ok)
      else none
    | _ => none

def Succeeds : ExportLabel σ → Prop
  | .join ok | .reset ok | .threadSend ok => ok = true
  | .fail => False
  | _ => True

instance (l : ExportLabel σ) : Decidable (Succeeds l) := by
  cases l <;> unfold Succeeds <;> infer_instance

/-! ### The handover -/

section Handover

variable {drains : Bool} {seq : ℕ} {s s' : Export σ}

/-- The samples that have been aggregated between switch `n` and the next one. -/
def batch (s : Export σ) (n : ℕ) : List σ :=
  (s.aggregated.filter fun e => e.1 = n).map Prod.snd

theorem batch_aggregate (s : Export σ) (x : σ) (n : ℕ) :
    (s.aggregate x).batch n = s.batch n ++ if s.switches = n then [x] else [] := by
  by_cases hn : s.switches = n <;> simp [batch, aggregate, hn]

/-- A profile has been given up by the worker and not yet been sent. -/
def pending (s : Export σ) : Bool := s.thread.active || s.phase.handsOver

structure Inv (seq : ℕ) (s : Export σ) : Prop where
  expError : s.expError = false
  phase : s.phase ≠ .failed
  bounded : ∀ e ∈ s.aggregated, e.1 ≤ s.switches
  current : s.phase.isSwitched = false → s.pprof s.iCurrentPprof = s.batch s.switches
  fresh : s.phase.handsOver = true → s.batch s.switches = []
  owed : s.pending = true → ∀ n, s.switches = n + 1 → s.pprof (!s.iCurrentPprof) = s.batch n
  length : s.switches = s.exported.length + s.pending.toNat
  exported : ∀ n p, s.exported[n]? = some p → p = ((seq + n) % 2 ^ 32, s.batch n)
  overlaps : s.thread.active = true → s.phase.overlaps = true
  expTid : s.thread.active = true → s.expTid = true ∨ s.phase = .exporting
  profileSeq : s.profileSeq = (seq + s.exported.length + s.thread.numbered.toNat) % 2 ^ 32
  reading : ∀ i q samples, s.thread = .reading i q samples →
    i = !s.iCurrentPprof ∧ q = (seq + s.exported.length) % 2 ^ 32 ∧ samples <+: s.pprof i

theorem inv_init (hseq : seq < 2 ^ 32) : Inv seq (init seq : Export σ) := by
  refine ⟨rfl, nofun, nofun, fun _ => rfl, fun _ => rfl, nofun, rfl, nofun, nofun, nofun, ?_, nofun⟩
  exact (Nat.mod_eq_of_lt hseq).symm

theorem Inv.aggregate (h : s.Inv seq) (hphase : s.phase.aggregates = true) (x : σ) :
    (s.aggregate x).Inv seq := by
  have hover := CyclePhase.handsOver_of_aggregates hphase
  have hswitched := CyclePhase.isSwitched_of_handsOver hover
  have hold : ∀ n, n < s.switches → (s.aggregate x).batch n = s.batch n := fun n hn => by
    rw [batch_aggregate, if_neg hn.ne', List.append_nil]
  refine ⟨h.expError, h.phase, fun e he => ?_, fun _ => ?_, fun hov => ?_, fun hpend n hn => ?_,
    h.length, fun n p hp => ?_, h.overlaps, h.expTid, h.profileSeq, fun i q samples hr => ?_⟩
  · obtain he | he := List.mem_append.mp he
    · exact h.bounded e he
    · rw [List.mem_singleton.mp he]
      exact le_rfl
  · rw [batch_aggregate]
    change Function.update s.pprof s.iCurrentPprof _ s.iCurrentPprof = _
    rw [Function.update_self, h.current hswitched]
    exact congrArg _ (if_pos rfl).symm
  · exact absurd (hover.symm.trans hov) nofun
  · have hlt : n < s.switches := hn ▸ n.lt_succ_self
    rw [hold n hlt, ← h.owed hpend n hn]
    exact Function.update_of_ne (by simp [Export.aggregate]) ..
  · have hlt := (List.getElem?_eq_some_iff.mp hp).1
    rw [hold n (hlt.trans_le (h.length ▸ Nat.le_add_right _ _))]
    exact h.exported n p hp
  · obtain ⟨rfl, hq, hsamples⟩ := h.reading i q samples hr
    refine ⟨rfl, hq, ?_⟩
    change samples <+: Function.update s.pprof s.iCurrentPprof _ (!s.iCurrentPprof)
    rwa [Function.update_of_ne (by simp)]

theorem Inv.withPhase (h : s.Inv seq) {p : CyclePhase} {expTid : Bool}
    (hover : s.phase.handsOver = false) (hp : p.handsOver = false) (hne : p ≠ .failed)
    (hactive : s.thread.active = true → p.overlaps = true ∧ (expTid = true ∨ p = .exporting)) :
    Inv seq { s with phase := p, expTid := expTid } := by
  have hpending : pending { s with phase := p, expTid := expTid } = s.pending := by
    rw [pending, pending, hp, hover]
  refine ⟨h.expError, hne, h.bounded, fun _ => ?_, fun hov => ?_, fun hpend => ?_, ?_, h.exported,
    fun ha => (hactive ha).1, fun ha => (hactive ha).2, h.profileSeq, h.reading⟩
  · exact h.current (CyclePhase.isSwitched_of_handsOver hover)
  · exact absurd (hp.symm.trans hov) nofun
  · rw [hpending] at hpend
    exact h.owed hpend
  · rw [hpending]
    exact h.length

theorem Inv.not_active (h : s.Inv seq) (hphase : s.phase.overlaps = false) :
    s.thread.active = false := by
  cases ha : s.thread.active with
  | false => rfl
  | true => exact absurd (hphase.symm.trans (h.overlaps ha)) nofun

variable {samples : List σ}

theorem not_reading (h : s.thread.active = false) {i : Bool} {q : ℕ} :
    s.thread ≠ .reading i q samples := fun heq => by
  rw [heq] at h
  cases h

theorem Inv.batch_of_gt (h : s.Inv seq) {n : ℕ} (hn : s.switches < n) : s.batch n = [] := by
  rw [batch, List.filter_eq_nil_iff.mpr, List.map_nil]
  intro e he
  have := h.bounded e he
  simp only [decide_eq_true_eq]
  omega

variable {synchronous : Bool}

theorem Inv.switch (h : s.Inv seq) (hphase : s.phase = .joined synchronous) :
    (s.switch synchronous).Inv seq := by
  have hactive := h.not_active (by rw [hphase]; rfl)
  have hpending : s.pending = false := by rw [pending, hactive, hphase]; rfl
  have hlength := h.length
  rw [hpending] at hlength
  refine ⟨rfl, nofun, fun e he => (h.bounded e he).trans (Nat.le_succ _), nofun, fun _ => ?_,
    fun _ n hn => ?_, ?_, h.exported, fun ha => absurd (hactive.symm.trans ha) nofun,
    fun ha => absurd (hactive.symm.trans ha) nofun, h.profileSeq,
    fun i q samples hr => absurd hr (not_reading hactive)⟩
  · exact h.batch_of_gt (Nat.lt_succ_self _)
  · cases hn
    change s.pprof (!!s.iCurrentPprof) = _
    rw [Bool.not_not]
    exact h.current (by rw [hphase]; rfl)
  · change s.switches + 1 = s.exported.length + (s.thread.active || true).toNat
    rw [hlength, Bool.or_true]
    rfl

theorem Inv.reset (h : s.Inv seq)
    (hphase : s.phase = .switched synchronous) : (s.reset synchronous true).Inv seq := by
  have hactive := h.not_active (by rw [hphase]; rfl)
  have hpending : s.pending = true := by rw [pending, hphase, hactive]; rfl
  have hlength := h.length
  rw [hpending] at hlength
  refine ⟨h.expError, nofun, h.bounded, fun _ => ?_, fun _ => ?_, fun _ n hn => ?_, ?_, h.exported,
    fun ha => absurd (hactive.symm.trans ha) nofun, fun ha => absurd (hactive.symm.trans ha) nofun,
    h.profileSeq, fun i q samples hr => absurd hr (not_reading hactive)⟩
  · have hbatch := h.fresh (by rw [hphase]; rfl)
    exact (Function.update_self ..).trans hbatch.symm
  · exact h.fresh (by rw [hphase]; rfl)
  · exact (Function.update_of_ne (by simp [Export.reset]) ..).trans (h.owed hpending n hn)
  · change s.switches = s.exported.length + (s.thread.active || true).toNat
    rw [hlength, Bool.or_true]

theorem Inv.launch (h : s.Inv seq)
    (hphase : s.phase = .reset synchronous) : (s.launch synchronous).Inv seq := by
  have hactive := h.not_active (by rw [hphase]; rfl)
  have hpending : s.pending = true := by rw [pending, hphase, hactive]; rfl
  have hnumbered : s.thread.numbered = false := by
    cases ht : s.thread with
    | reading i q samples => exact absurd ht (not_reading hactive)
    | none | started | finished => rfl
  have hlength := h.length
  rw [hpending] at hlength
  have hseq := h.profileSeq
  rw [hnumbered] at hseq
  have hcurrent := h.current (by rw [hphase]; rfl)
  cases synchronous with
  | false =>
    exact ⟨h.expError, nofun, h.bounded, fun _ => hcurrent, nofun, fun _ => h.owed hpending,
      hlength, h.exported, fun _ => rfl, fun _ => .inl rfl, hseq, nofun⟩
  | true =>
    exact ⟨h.expError, nofun, h.bounded, fun _ => hcurrent, nofun, fun _ => h.owed hpending,
      hlength, h.exported, fun _ => rfl, fun _ => .inr rfl, hseq, nofun⟩

theorem pending_of_active (h : s.thread.active = true) : s.pending = true := by
  rw [pending, h]
  rfl

theorem Inv.threadStart (h : s.Inv seq) (hthread : s.thread = .started) :
    s.threadStart.Inv seq := by
  have hactive : s.thread.active = true := by rw [hthread]; rfl
  have hpending := pending_of_active hactive
  have hlength := h.length
  rw [hpending] at hlength
  have hseq := h.profileSeq
  rw [hthread] at hseq
  refine ⟨h.expError, h.phase, h.bounded, h.current, h.fresh, fun _ => h.owed hpending, hlength,
    h.exported, fun _ => h.overlaps hactive, fun _ => h.expTid hactive, ?_,
    fun i q samples hr => ?_⟩
  · change (s.profileSeq + 1) % 2 ^ 32 = (seq + s.exported.length + 1) % 2 ^ 32
    rw [hseq]
    exact Nat.mod_add_mod ..
  · cases hr
    exact ⟨rfl, hseq, List.nil_prefix⟩

theorem append_prefix_of_getElem? {samples rest : List σ} {x : σ} (h : samples <+: rest)
    (hx : rest[samples.length]? = some x) : samples ++ [x] <+: rest := by
  obtain ⟨tail, rfl⟩ := h
  rw [List.getElem?_append_right le_rfl, Nat.sub_self] at hx
  cases tail with
  | nil => cases hx
  | cons y tail =>
    cases hx
    exact ⟨tail, by simp⟩

theorem Inv.threadRead (h : s.Inv seq) {i : Bool} {q : ℕ} {x : σ}
    (hthread : s.thread = .reading i q samples) (hx : (s.pprof i)[samples.length]? = some x) :
    Inv seq { s with thread := .reading i q (samples ++ [x]) } := by
  have hactive : s.thread.active = true := by rw [hthread]; rfl
  have hpending := pending_of_active hactive
  have hlength := h.length
  rw [hpending] at hlength
  have hseq := h.profileSeq
  rw [hthread] at hseq
  refine ⟨h.expError, h.phase, h.bounded, h.current, h.fresh, fun _ => h.owed hpending, hlength,
    h.exported, fun _ => h.overlaps hactive, fun _ => h.expTid hactive, hseq, fun j r _ hr => ?_⟩
  cases hr
  obtain ⟨hi, hq, hsamples⟩ := h.reading i q samples hthread
  exact ⟨hi, hq, append_prefix_of_getElem? hsamples hx⟩

theorem Inv.threadSend (h : s.Inv seq) {i : Bool} {q : ℕ}
    (hthread : s.thread = .reading i q samples) (hall : (s.pprof i).length ≤ samples.length) :
    (s.threadSend drains i q samples true).Inv seq := by
  have hactive : s.thread.active = true := by rw [hthread]; rfl
  have hpending := pending_of_active hactive
  have hover := CyclePhase.handsOver_of_overlaps (h.overlaps hactive)
  obtain ⟨rfl, rfl, hsamples⟩ := h.reading i q samples hthread
  have hlength := h.length
  rw [hpending] at hlength
  have hseq := h.profileSeq
  rw [hthread] at hseq
  have hbatch : samples = s.batch s.exported.length := by
    rw [hsamples.eq_of_length_le hall]
    exact h.owed hpending _ hlength
  have hcurrent : (if drains then Function.update s.pprof (!s.iCurrentPprof) [] else s.pprof)
      s.iCurrentPprof = s.pprof s.iCurrentPprof := by
    split_ifs
    · exact Function.update_of_ne (by simp) ..
    · rfl
  have hdone : (false || s.phase.handsOver) = false := by rw [hover]; rfl
  refine ⟨h.expError, h.phase, h.bounded, fun hp => hcurrent.trans (h.current hp), h.fresh,
    fun hpend => absurd (hdone.symm.trans hpend) nofun, ?_, fun n p hp => ?_, nofun, nofun, ?_,
    nofun⟩
  · change s.switches = (s.exported ++ [_]).length + (false || s.phase.handsOver).toNat
    rw [hdone, hlength, List.length_append]
    rfl
  · change (s.exported ++ [_])[n]? = some p at hp
    obtain hn | rfl | hn := lt_trichotomy n s.exported.length
    · rw [List.getElem?_append_left hn] at hp
      exact h.exported n p hp
    · rw [List.getElem?_concat_length] at hp
      cases hp
      exact Prod.ext rfl hbatch
    · rw [List.getElem?_eq_none (by simp; omega)] at hp
      cases hp
  · change s.profileSeq = (seq + (s.exported ++ [_]).length + 0) % 2 ^ 32
    rw [hseq, List.length_append]
    rfl

theorem Inv.join (h : s.Inv seq) (hphase : s.phase = .entered synchronous)
    (hjoin : s.join synchronous true = some s') : s'.Inv seq := by
  have hover : s.phase.handsOver = false := by rw [hphase]; rfl
  have hidle : s.thread.active = false → (s.afterJoin synchronous).Inv seq := fun hactive => by
    rw [afterJoin, if_neg (by simp [h.expError])]
    exact h.withPhase hover rfl nofun fun ha => absurd (hactive.symm.trans ha) nofun
  cases hactive : s.thread.active with
  | false =>
    simp [Export.join, hactive] at hjoin
    exact hjoin ▸ hidle hactive
  | true =>
    -- an export that is under way has its thread, and the join waits for it
    have htid := (h.expTid hactive).resolve_right (by rw [hphase]; nofun)
    simp [Export.join, hactive, htid] at hjoin

theorem Inv.step (h : s.Inv seq) {l : ExportLabel σ} (hl : Succeeds l)
    (hstep : s.step drains l = some s') : s'.Inv seq := by
  cases l with
  | aggregate x =>
    rw [Export.step] at hstep
    split_ifs at hstep with hphase
    cases hstep
    exact h.aggregate hphase x
  | enter synchronous =>
    rw [Export.step] at hstep
    split at hstep <;> cases hstep
    rename_i hphase
    refine h.withPhase (by rw [hphase]; rfl) rfl nofun fun ha => ⟨rfl, ?_⟩
    exact .inl ((h.expTid ha).resolve_right (by rw [hphase]; nofun))
  | join ok =>
    cases hl
    rw [Export.step] at hstep
    split at hstep
    · rename_i hphase
      exact h.join hphase hstep
    · cases hstep
  | fail => exact hl.elim
  | switch =>
    rw [Export.step] at hstep
    split at hstep <;> cases hstep
    rename_i hphase
    exact h.switch hphase
  | reset ok =>
    cases hl
    rw [Export.step] at hstep
    split at hstep <;> cases hstep
    rename_i hphase
    exact h.reset hphase
  | launch =>
    rw [Export.step] at hstep
    split at hstep <;> cases hstep
    rename_i hphase
    exact h.launch hphase
  | leave =>
    rw [Export.step] at hstep
    split at hstep
    · rename_i hphase
      split_ifs at hstep with hactive herror
      · exact absurd herror (by simp [h.expError])
      · cases hstep
        exact h.withPhase (by rw [hphase]; rfl) rfl nofun fun ha => absurd ha hactive
    · cases hstep
  | threadStart =>
    rw [Export.step] at hstep
    split at hstep <;> cases hstep
    rename_i hthread
    exact h.threadStart hthread
  | threadRead =>
    rw [Export.step] at hstep
    split at hstep
    · rename_i hthread
      obtain ⟨x, hx, rfl⟩ := Option.map_eq_some_iff.mp hstep
      exact h.threadRead hthread hx
    · cases hstep
  | threadSend ok =>
    cases hl
    rw [Export.step] at hstep
    split at hstep
    · rename_i hthread
      split_ifs at hstep with hall
      cases hstep
      exact h.threadSend hthread hall
    · cases hstep

end Handover

/-! ### Every run -/

/-- What the worker and the export thread guarantee to each other. -/
structure DoubleBuffered (drains : Bool) (seq : ℕ) (s : Export σ) : Prop where
  -- The export thread reads the profile that the worker does not aggregate into.
  separate : ∀ i q samples, s.thread = .reading i q samples → i ≠ s.iCurrentPprof
  -- As long as an export is under way, the worker neither switches nor resets.
  undisturbed : s.thread.active = true →
    s.step drains .switch = none ∧ ∀ ok, s.step drains (.reset ok) = none
  /-- The profiles are exported in order, and each consists of exactly the samples that have
  been aggregated since the cycle before. -/
  exported : ∀ n p, s.exported[n]? = some p → p = ((seq + n) % 2 ^ 32, s.batch n)
  -- Each cycle exports one profile: only the last one may still be on its way.
  length_le : s.exported.length ≤ s.switches ∧ s.switches ≤ s.exported.length + 1
  complete : s.pending = false → s.exported.length = s.switches
  -- What has not been given up by the worker waits in the current profile.
  current : s.pending = false → s.pprof s.iCurrentPprof = s.batch s.switches
  bounded : ∀ e ∈ s.aggregated, e.1 ≤ s.switches

theorem Inv.doubleBuffered {drains : Bool} {seq : ℕ} {s : Export σ} (h : s.Inv seq) :
    DoubleBuffered drains seq s := by
  have hlength := h.length
  refine ⟨fun i q samples hr => ?_, fun ha => ?_, h.exported, ?_, fun hp => ?_, fun hp => ?_,
    h.bounded⟩
  · rw [(h.reading i q samples hr).1]
    simp
  · have hoverlaps := h.overlaps ha
    cases hphase : s.phase <;> rw [hphase] at hoverlaps
    case running | entered | exporting => simp [Export.step, hphase]
    all_goals cases hoverlaps
  · have := Bool.toNat_le s.pending
    omega
  · rw [hlength, hp]
    rfl
  · refine h.current (CyclePhase.isSwitched_of_handsOver ?_)
    exact (Bool.or_eq_false_iff.mp hp).2

/-- In every interleaving of the worker with its export thread in which cycles and exports
succeed, the thread only reads the profile that the worker leaves alone, and each sample is
exported once, by the cycle that follows its aggregation. -/
theorem run_doubleBuffered (drains : Bool) {seq : ℕ} (hseq : seq < 2 ^ 32)
    {ls : List (ExportLabel σ)} {s : Export σ} (hok : ∀ l ∈ ls, Succeeds l)
    (hrun : Run.steps (step drains) (init seq) ls = some s) : DoubleBuffered drains seq s := by
  have halong : Run.Along (step drains) (fun _ l => Succeeds l) (init seq) ls :=
    Run.along_of_forall hok
  exact (Run.steps_invariant (fun _ _ _ h hl hstep => h.step hl hstep) (inv_init hseq) halong
    hrun).doubleBuffered

/-- An asynchronous cycle whose export starts late and reads while the worker goes on, then a
synchronous one. -/
def overlappingExports : List (ExportLabel ℕ) :=
  [.aggregate 1, .enter false, .aggregate 2, .join true, .aggregate 3, .switch, .reset true,
    .launch,
    .aggregate 4, .threadStart, .threadRead, .aggregate 5, .enter true, .threadRead, .aggregate 6,
    .threadRead, .threadSend true,
    .join true, .switch, .reset true, .launch, .threadStart, .threadRead, .threadRead, .threadRead,
    .threadSend true, .leave, .aggregate 7]

theorem run_doubleBuffered_overlapping :
    (Run.steps (step true) (init 0) overlappingExports).any
      (fun s => decide (s.exported = [(0, [1, 2, 3]), (1, [4, 5, 6])])) = true ∧
    ∀ s, Run.steps (step true) (init 0) overlappingExports = some s → DoubleBuffered true 0 s :=
  ⟨by decide +kernel, fun _ hrun => run_doubleBuffered true (by decide) (by decide) hrun⟩

end Export

end Ddprof
