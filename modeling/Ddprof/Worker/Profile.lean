import Ddprof.Watcher.Basic

/-!
Creation of a profile: which slot of a sample each watcher and aggregation mode
writes to.

A profile has one slot per sample type that some watcher uses. Slots are handed
out in the order in which the types are met, and a watcher keeps the index of
its slots. Watchers without a sum type and modes without a sample type get no
slot: their index stays `-1`.
-/

namespace Ddprof

/-- `k_max_value_types`, the size of the array of values of a sample. -/
def kMaxValueTypes : ℕ := 16

/-- `SlotRegistry::ensure`: the slot of a type, at the end if it is new. -/
def ensureSlot (slots : List SampleType) (t : SampleType) : List SampleType × ℤ :=
  if t ∈ slots then (slots, slots.idxOf t) else (slots ++ [t], slots.length)

def assignMode (slots : List SampleType) (w : PerfWatcher) (pos : AggregationPos) :
    List SampleType × PerfWatcher :=
  if !w.aggregationMode.get pos then (slots, w)
  else
    match w.sampleTypeInfo.sampleTypes.get pos with
    | none => (slots, w)
    | some sampleT =>
      let (slots, index) := ensureSlot slots sampleT
      let (slots, countIndex) :=
        match w.sampleTypeInfo.countTypes.get pos with
        | none => (slots, -1)
        | some countT => ensureSlot slots countT
      (slots, w.withIndices (w.pprofIndices.set pos
        { pprofIndex := index, pprofCountIndex := countIndex }))

/-- The body of the loop over the watchers: indices from a previous profile are reset. -/
def assignWatcher (slots : List SampleType) (w : PerfWatcher) :
    List SampleType × PerfWatcher :=
  let w := w.withIndices ⟨{}, {}⟩
  if !isPprofActive w.sampleTypeInfo then (slots, w)
  else
    let (slots, w) := assignMode slots w .sum
    assignMode slots w .liveSum

def assignSlots (slots : List SampleType) :
    List PerfWatcher → List SampleType × List PerfWatcher
  | [] => (slots, [])
  | w :: rest =>
    let (slots, w') := assignWatcher slots w
    let (slots, rest') := assignSlots slots rest
    (slots, w' :: rest')

inductive PprofError
  /-- "Unable to find default watcher's value" -/
  | noDefaultValue
  /-- "Unable to create new profile" -/
  | profileNew
  deriving DecidableEq, Repr

/-- The period of a profile is that of the first active watcher, which must have a slot. -/
def hasDefaultValue (watchers : List PerfWatcher) : Bool :=
  match watchers.find? fun w => isPprofActive w.sampleTypeInfo with
  | none => false
  | some w => w.pprofIndices.sum.pprofIndex ≠ -1 || w.pprofIndices.liveSum.pprofIndex ≠ -1

/-- The number of values of the profile and the watchers with their slots;
`profileNewOk` says whether the profile library accepts the profile. -/
def pprofCreateProfile (profileNewOk : Bool) (watchers : List PerfWatcher) :
    Except PprofError (ℕ × List PerfWatcher) :=
  let (slots, watchers) := assignSlots [] watchers
  if 0 < slots.length ∧ !hasDefaultValue watchers then .error .noDefaultValue
  else if !profileNewOk then .error .profileNew
  else .ok (slots.length, watchers)

/-! ### Slots -/

/-- A slot of a profile with `n` values, or none. -/
def IndexOk (n : ℕ) (i : ℤ) : Prop := i = -1 ∨ (0 ≤ i ∧ i < n)

theorem IndexOk.mono {m n : ℕ} {i : ℤ} (h : IndexOk m i) (hmn : m ≤ n) : IndexOk n i := by
  rcases h with h | h
  · exact .inl h
  · exact .inr ⟨h.1, by omega⟩

/-- The slots only grow, without duplicates, and the index is one of them. -/
theorem ensureSlot_spec (slots : List SampleType) (t : SampleType) :
    slots.length ≤ (ensureSlot slots t).1.length ∧
      (slots.Nodup → (ensureSlot slots t).1.Nodup) ∧
      0 ≤ (ensureSlot slots t).2 ∧ (ensureSlot slots t).2 < (ensureSlot slots t).1.length := by
  unfold ensureSlot
  split_ifs with h
  · have := List.idxOf_lt_length_iff.mpr h
    exact ⟨le_rfl, id, by simp, by simpa using this⟩
  · refine ⟨by simp, fun hn => ?_, by simp, by simp⟩
    rw [List.nodup_append]
    refine ⟨hn, List.nodup_singleton t, fun a ha b hb => ?_⟩
    rw [List.mem_singleton.mp hb]
    exact fun heq => h (heq ▸ ha)

/-- There are fewer sample types than values in a sample. -/
theorem length_le_of_nodup {slots : List SampleType} (h : slots.Nodup) :
    slots.length ≤ kMaxValueTypes := by
  have hsub : slots ⊆ [.tracepoint, .cpuTime, .cpuSamples, .allocSpace, .allocSamples,
      .inuseSpace, .inuseObjects] := by
    intro t _
    cases t <;> simp
  have := (List.subperm_of_subset h hsub).length_le
  simp only [List.length_cons, List.length_nil, kMaxValueTypes] at this ⊢
  omega

def PerfWatcher.contributes (w : PerfWatcher) (pos : AggregationPos) : Bool :=
  isPprofActive w.sampleTypeInfo && w.aggregationMode.get pos
    && (w.sampleTypeInfo.sampleTypes.get pos).isSome

structure InRange (n : ℕ) (indices : PProfIndices) : Prop where
  index : IndexOk n indices.pprofIndex
  count : IndexOk n indices.pprofCountIndex

theorem inRange_default (n : ℕ) : InRange n {} := ⟨.inl rfl, .inl rfl⟩

theorem InRange.mono {m n : ℕ} {indices : PProfIndices} (h : InRange m indices) (hmn : m ≤ n) :
    InRange n indices := ⟨h.index.mono hmn, h.count.mono hmn⟩

/-- One mode: its indices are in range if they were, it has a slot if it should, and
nothing else of the watcher changes. -/
theorem assignMode_spec (slots : List SampleType) (w : PerfWatcher) (pos : AggregationPos) :
    let r := assignMode slots w pos
    slots.length ≤ r.1.length ∧ (slots.Nodup → r.1.Nodup) ∧
      (∃ indices, r.2 = w.withIndices (w.pprofIndices.set pos indices) ∧
        (InRange slots.length (w.pprofIndices.get pos) → InRange r.1.length indices) ∧
        (w.aggregationMode.get pos = true → (w.sampleTypeInfo.sampleTypes.get pos).isSome →
          indices.pprofIndex ≠ -1)) := by
  have hsame : w = w.withIndices (w.pprofIndices.set pos (w.pprofIndices.get pos)) := by
    cases pos <;> rfl
  unfold assignMode
  simp only
  split_ifs with hmode
  · refine ⟨le_rfl, id, w.pprofIndices.get pos, hsame, id, fun hm => ?_⟩
    rw [hm] at hmode
    cases hmode
  · cases hst : w.sampleTypeInfo.sampleTypes.get pos with
    | none => exact ⟨le_rfl, id, w.pprofIndices.get pos, hsame, id, fun _ h => by cases h⟩
    | some sampleT =>
      obtain ⟨hlen, hnodup, hpos, hlt⟩ := ensureSlot_spec slots sampleT
      cases hct : w.sampleTypeInfo.countTypes.get pos with
      | none =>
        refine ⟨hlen, hnodup, _, rfl, fun _ => ⟨.inr ⟨hpos, hlt⟩, .inl rfl⟩, fun _ _ => ?_⟩
        simp only
        omega
      | some countT =>
        obtain ⟨hlen', hnodup', hpos', hlt'⟩ :=
          ensureSlot_spec (ensureSlot slots sampleT).1 countT
        refine ⟨hlen.trans hlen', hnodup' ∘ hnodup, _, rfl,
          fun _ => ⟨.inr ⟨hpos, ?_⟩, .inr ⟨hpos', hlt'⟩⟩, fun _ _ => ?_⟩
        · simp only
          omega
        · simp only
          omega

/-- A watcher in a profile with `n` values: all its indices are in range, and each
mode that contributes has a slot. -/
structure Indexed (n : ℕ) (w : PerfWatcher) : Prop where
  inRange : ∀ pos, InRange n (w.pprofIndices.get pos)
  slot : ∀ pos, w.contributes pos = true → (w.pprofIndices.get pos).pprofIndex ≠ -1

theorem Indexed.mono {m n : ℕ} {w : PerfWatcher} (h : Indexed m w) (hmn : m ≤ n) :
    Indexed n w := ⟨fun pos => (h.inRange pos).mono hmn, h.slot⟩

theorem assignWatcher_spec (slots : List SampleType) (w : PerfWatcher) :
    slots.length ≤ (assignWatcher slots w).1.length ∧
      (slots.Nodup → (assignWatcher slots w).1.Nodup) ∧
      Indexed (assignWatcher slots w).1.length (assignWatcher slots w).2 ∧
      ∃ indices, (assignWatcher slots w).2 = w.withIndices indices := by
  unfold assignWatcher
  simp only
  split_ifs with hactive
  · refine ⟨le_rfl, id, ⟨fun pos => ?_, fun pos hc => ?_⟩, _, rfl⟩
    · cases pos <;> exact inRange_default _
    · simp only [PerfWatcher.contributes, Bool.and_eq_true] at hc
      simp [hc.1.1] at hactive
  · obtain ⟨hlen, hnodup, i, hi, hir, hislot⟩ :=
      assignMode_spec slots (w.withIndices ⟨{}, {}⟩) .sum
    generalize assignMode slots (w.withIndices ⟨{}, {}⟩) .sum = r at hlen hnodup hi hir hislot
    obtain ⟨slots', w'⟩ := r
    simp only at hlen hnodup hi hir hislot ⊢
    obtain ⟨hlen', hnodup', j, hj, hjr, hjslot⟩ := assignMode_spec slots' w' .liveSum
    generalize assignMode slots' w' .liveSum = r at hlen' hnodup' hj hjr hjslot
    obtain ⟨slots'', w''⟩ := r
    simp only at hlen' hnodup' hj hjr hjslot ⊢
    subst hi hj
    refine ⟨hlen.trans hlen', hnodup' ∘ hnodup, ⟨fun pos => ?_, fun pos hc => ?_⟩, ⟨i, j⟩, rfl⟩
    · cases pos
      · exact (hir (inRange_default _)).mono hlen'
      · exact hjr (inRange_default _)
    · simp only [PerfWatcher.contributes, Bool.and_eq_true] at hc
      cases pos
      · exact hislot hc.1.2 hc.2
      · exact hjslot hc.1.2 hc.2

/-- The same for the whole list: every watcher keeps its configuration and gets its
indices. -/
theorem assignSlots_spec (watchers : List PerfWatcher) (slots : List SampleType) :
    slots.length ≤ (assignSlots slots watchers).1.length ∧
      (slots.Nodup → (assignSlots slots watchers).1.Nodup) ∧
      (∀ w ∈ (assignSlots slots watchers).2, Indexed (assignSlots slots watchers).1.length w) ∧
      List.Forall₂ (fun w w' => ∃ indices, w' = w.withIndices indices) watchers
        (assignSlots slots watchers).2 := by
  induction watchers generalizing slots with
  | nil => exact ⟨le_rfl, id, by simp [assignSlots], .nil⟩
  | cons w rest ih =>
    obtain ⟨hlen, hnodup, hindexed, hkeep⟩ := assignWatcher_spec slots w
    obtain ⟨hlen', hnodup', hindexed', hkeep'⟩ := ih (assignWatcher slots w).1
    refine ⟨hlen.trans hlen', hnodup' ∘ hnodup, ?_, .cons hkeep hkeep'⟩
    intro x hx
    rcases List.mem_cons.mp hx with rfl | hx
    · exact hindexed.mono hlen'
    · exact hindexed' x hx

variable {watchers watchers' : List PerfWatcher}

/-- A profile that is created gives every watcher indices in range, and has no more
values than a sample has room for. -/
theorem pprofCreateProfile_spec {profileNewOk : Bool}
    {n : ℕ} (h : pprofCreateProfile profileNewOk watchers = .ok (n, watchers')) :
    n ≤ kMaxValueTypes ∧ (∀ w ∈ watchers', Indexed n w) ∧
      List.Forall₂ (fun w w' => ∃ indices, w' = w.withIndices indices) watchers
        watchers' := by
  obtain ⟨_, hnodup, hindexed, hkeep⟩ := assignSlots_spec watchers []
  unfold pprofCreateProfile at h
  simp only at h
  split_ifs at h
  cases h
  exact ⟨length_le_of_nodup (hnodup List.nodup_nil), hindexed, hkeep⟩

/-- The slots do not depend on the indices that the watchers come with. -/
theorem assignSlots_withIndices
    (h : List.Forall₂ (fun w w' => ∃ indices, w' = w.withIndices indices) watchers watchers')
    (slots : List SampleType) : assignSlots slots watchers' = assignSlots slots watchers := by
  induction h generalizing slots with
  | nil => rfl
  | @cons w w' _ _ hw _ ih =>
    obtain ⟨indices, rfl⟩ := hw
    have hsame : assignWatcher slots (w.withIndices indices) = assignWatcher slots w := rfl
    simp only [assignSlots, hsame, ih]

/-- Creating a second profile for the watchers of a first one gives the same number
of values. -/
theorem pprofCreateProfile_again {ok ok' : Bool} {watchers watchers' watchers'' : List PerfWatcher}
    {n n' : ℕ} (h : pprofCreateProfile ok watchers = .ok (n, watchers'))
    (h' : pprofCreateProfile ok' watchers' = .ok (n', watchers'')) : n' = n := by
  have hkeep := (pprofCreateProfile_spec h).2.2
  unfold pprofCreateProfile at h h'
  rw [assignSlots_withIndices hkeep] at h'
  simp only at h h'
  split_ifs at h
  split_ifs at h'
  cases h
  cases h'
  rfl

end Ddprof
