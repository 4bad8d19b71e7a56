import Ddprof.MainLoop.Invariant

/-!
Each record is passed on once, while its space is still its own.

This holds in every run in which the next record of a perf ring buffer is not older than the one
that has just been processed, and so in every run in which the kernel writes records in the order
of their timestamps; and then workers may come and go.
-/

namespace Ddprof

open Circular (Byte leBytes)

namespace Loop

variable {s s' : Loop}

/-! ### Records in order -/

/-- The worker does not change records, and what is done stays done. -/
structure SameRecords (ring ring' : Ring) : Prop where
  isPerf : ring'.IsPerf = ring.IsPerf
  length : ring'.items.length = ring.items.length
  item : ∀ (j : ℕ) (it' : Item), ring'.items[j]? = some it' → ∃ it, ring.items[j]? = some it ∧
    it.content = it'.content ∧ it.committed = it'.committed ∧ (it'.done = false → it.done = false)

section SameRecords

variable {ring ring' ring'' : Ring}

theorem sameRecords_of_items (hperf : ring'.IsPerf = ring.IsPerf)
    (hitems : ring'.items = ring.items) : SameRecords ring ring' :=
  ⟨hperf, hitems ▸ rfl, fun _ it' hit' => ⟨it', hitems ▸ hit', rfl, rfl, id⟩⟩

theorem SameRecords.refl (ring : Ring) : SameRecords ring ring := sameRecords_of_items rfl rfl

theorem SameRecords.trans (h : SameRecords ring ring') (h' : SameRecords ring' ring'') :
    SameRecords ring ring'' := by
  refine ⟨h'.isPerf.trans h.isPerf, h'.length.trans h.length, fun j it'' hit'' => ?_⟩
  obtain ⟨it', hit', hcontent', hcommitted', hdone'⟩ := h'.item j it'' hit''
  obtain ⟨it, hit, hcontent, hcommitted, hdone⟩ := h.item j it' hit'
  exact ⟨it, hit, hcontent.trans hcontent', hcommitted.trans hcommitted', hdone ∘ hdone'⟩

theorem sameRecords_of_finishes {j : ℕ} (h : ring.Finishes ring' j) : SameRecords ring ring' := by
  refine ⟨h.isPerf, by rw [h.items, List.length_modify], fun i it' hit' => ?_⟩
  rw [h.items, List.getElem?_modify] at hit'
  obtain ⟨it, hit, rfl⟩ := Option.map_eq_some_iff.mp hit'
  refine ⟨it, hit, ?_⟩
  split_ifs
  · exact ⟨rfl, rfl, fun hdone => Bool.noConfusion hdone⟩
  · exact ⟨rfl, rfl, id⟩

end SameRecords

def Touches (ring ring' : Ring) : Prop :=
  ring' = ring ∨ ring.Passes ring' ∨ ∃ j, ring.Finishes ring' j

theorem Touches.sameRecords {ring ring' : Ring} (h : Touches ring ring') :
    SameRecords ring ring' := by
  rcases h with rfl | hpass | ⟨j, hf⟩
  · exact .refl _
  · exact sameRecords_of_items hpass.isPerf hpass.items
  · exact sameRecords_of_finishes hf

theorem touches_setRing {i : ℕ} {r : Ring} (h : Touches (s.ring i) r) (i' : ℕ) :
    Touches (s.ring i') ((s.setRing i r).ring i') := by
  by_cases hi : i' = i
  · subst hi
    rw [ring_setRing_self]
    exact h
  · rw [ring_setRing_of_ne s hi]
    exact .inl rfl

theorem Works.touches (h : Works s s') : ∀ i, Touches (s.ring i) (s'.ring i) := by
  cases h with
  | readNothing hphase hi hpass => exact touches_setRing (.inr (.inl hpass))
  | readEvent hphase hi hpass => exact touches_setRing (.inr (.inl hpass))
  | advancePerf hphase hperf hf => exact touches_setRing (.inr (.inr ⟨_, hf⟩))
  | advanceMpsc hphase hmpsc hf => exact touches_setRing (.inr (.inr ⟨_, hf⟩))
  | noNext hphase hpass => exact touches_setRing (.inr (.inl hpass))
  | next hphase hpass => exact touches_setRing (.inr (.inl hpass))
  | stop | start | inFlight | dequeued | finished | again | tooRecent | process | pop =>
    exact fun i => .inl rfl

structure SameContents (s s' : Loop) : Prop where
  size : s'.size = s.size
  timestamp : s'.timestamp = s.timestamp
  ring : ∀ i, SameRecords (s.ring i) (s'.ring i)

theorem SameContents.trans {s'' : Loop} (h : SameContents s s') (h' : SameContents s' s'') :
    SameContents s s'' :=
  ⟨h'.size.trans h.size, h'.timestamp.trans h.timestamp, fun i => (h.ring i).trans (h'.ring i)⟩

theorem Works.sameContents (h : Works s s') : SameContents s s' := by
  refine ⟨?_, ?_, fun i => (h.touches i).sameRecords⟩
  · cases h <;> rfl
  · cases h with
    | readNothing | readEvent | advancePerf | advanceMpsc | noNext | next =>
      exact timestamp_setRing s _ _
    | stop | start | inFlight | dequeued | finished | again | tooRecent | process | pop => rfl

/-- The kernel adds records in the order of their timestamps. -/
def OrderedWrites (s : Loop) : LoopLabel → Prop
  | .kernelWrite i record => ∀ it ∈ (s.ring i).items,
    s.timestamp i it.content ≤ s.timestamp i record
  | _ => True

instance (s : Loop) : ∀ label, Decidable (s.OrderedWrites label)
  | .kernelWrite i record => inferInstanceAs (Decidable (∀ it ∈ (s.ring i).items,
      s.timestamp i it.content ≤ s.timestamp i record))
  | .producer _ _ _ | .tick _ | .requestTermination | .call _ | .work | .fail | .restart =>
    inferInstanceAs (Decidable True)

/-- The records of perf ring buffers are in the order of their timestamps. -/
def PerfSorted (s : Loop) : Prop :=
  ∀ i, (s.ring i).IsPerf → ∀ (j j' : ℕ) (it it' : Item), j ≤ j' → (s.ring i).items[j]? = some it →
    (s.ring i).items[j']? = some it' → s.timestamp i it.content ≤ s.timestamp i it'.content

theorem PerfSorted.sameContents (h : s.PerfSorted) (hs : SameContents s s') : s'.PerfSorted := by
  intro i hperf j j' it it' hj hit hit'
  rw [(hs.ring i).isPerf] at hperf
  obtain ⟨x, hx, hc, -⟩ := (hs.ring i).item j it hit
  obtain ⟨x', hx', hc', -⟩ := (hs.ring i).item j' it' hit'
  rw [hs.timestamp, ← hc, ← hc']
  exact h i hperf j j' x x' hj hx hx'

theorem committed_of_isPerf {ring : Ring} (hperf : ring.IsPerf) {j : ℕ} {it : Item}
    (hit : ring.items[j]? = some it) : it.committed = true := by
  cases ring with
  | perf p =>
    obtain ⟨record, -, rfl⟩ := Ring.getElem?_items_perf.mp hit
    rfl
  | mpsc ch => exact hperf.elim

/-- Only the kernel commits records of perf ring buffers. -/
theorem eq_kernelWrite_of_commits {label : LoopLabel} {i : ℕ} {content : List Byte}
    (hperf : (s.ring i).IsPerf) (h : s.commits label = some (i, content)) :
    label = .kernelWrite i content := by
  unfold commits at h
  split at h
  · cases h
    rfl
  · rename_i i' w
    split at h
    · cases h
    · rename_i ch hring
      split at h
      · obtain ⟨t, -, heq⟩ := Option.map_eq_some_iff.mp h
        cases heq
        rw [hring] at hperf
        exact hperf.elim
      · cases h
  · cases h

theorem PerfSorted.extended (h : s.PerfSorted) {label : LoopLabel} (he : Extended s s' label)
    (hwrites : s.OrderedWrites label) : s'.PerfSorted := by
  intro i hperf j j' it it' hj hit hit'
  have hperf' := hperf
  rw [(he.ring i).isPerf] at hperf'
  have hgrows := (he.ring i).grows
  have hold : ∀ (k : ℕ) (x : Item), (s'.ring i).items[k]? = some x →
      k < (s.ring i).items.length → (s.ring i).items[k]? = some x := by
    intro k x hx hk
    have hget := List.getElem?_eq_getElem hk
    obtain ⟨x', hx', -, hsame⟩ := hgrows.old k _ hget
    rw [hx] at hx'
    cases hx'
    rw [hget, hsame (committed_of_isPerf hperf' hget)]
  have hnew : ∀ (k : ℕ) (x : Item), (s'.ring i).items[k]? = some x →
      (s.ring i).items.length ≤ k → label = .kernelWrite i x.content := by
    intro k x hx hk
    rcases hgrows.committed k x hx (committed_of_isPerf hperf hx) with hold | hfresh
    · exact absurd (List.getElem?_eq_some_iff.mp hold).1 (not_lt.mpr hk)
    · exact eq_kernelWrite_of_commits hperf' hfresh
  rw [he.timestamp]
  by_cases hlt' : j' < (s.ring i).items.length
  · exact h i hperf' j j' it it' hj (hold j it hit (hj.trans_lt hlt')) (hold j' it' hit' hlt')
  · have hlabel := hnew j' it' hit' (not_lt.mp hlt')
    by_cases hlt : j < (s.ring i).items.length
    · rw [hlabel] at hwrites
      exact hwrites it (List.mem_of_getElem? (hold j it hit hlt))
    · have heq := (hnew j it hit (not_lt.mp hlt)).symm.trans hlabel
      rw [LoopLabel.kernelWrite.injEq] at heq
      rw [heq.2]

/-- In order as the records are, so is the next one. -/
theorem PerfSorted.nextInOrder (h : s.PerfSorted) (hi : s.Inv) (label : LoopLabel) :
    s.NextInOrder label := by
  have hknown := hi.phase
  unfold NextInOrder
  split
  · split
    · rename_i c evt hphase
      simp only [PhaseInv, hphase] at hknown
      obtain ⟨hback, -⟩ := hknown
      intro it' hit'
      obtain ⟨it, hit, -, hts⟩ := hback.item
      rw [hts]
      refine h _ hback.isPerf _ _ it it' ?_ hit hit'
      have := hback.last
      omega
    · trivial
  · trivial

/-! ### Whole runs -/

section Runs

variable {size : ℕ} {specs : ℕ → RingSpec} {watcherPos sampleType : ℕ → ℕ}

theorem items_init (i : ℕ) : ((init size specs watcherPos sampleType).ring i).items = [] :=
  (specs i).items_create

theorem inv_init (hspecs : ∀ i, 3 ≤ (specs i).order) :
    (init size specs watcherPos sampleType).Inv := by
  have hvalid : ∀ i, ((init size specs watcherPos sampleType).ring i).ValidAt 0 0 :=
    fun i => RingSpec.validAt_create (hspecs i)
  refine ⟨⟨fun i => ⟨0, 0, hvalid i⟩, nofun, List.nodup_nil, ?_, List.nodup_nil, ?_, nofun, nofun⟩,
    BinaryHeap.isHeap_nil, trivial, (by decide : (0 : ℤ) ≤ timePointMax)⟩
  · intro i j it _ hj
    rw [(hvalid i).next_eq] at hj
    exact absurd hj (Nat.not_lt_zero j)
  · intro i j
    rw [items_init i]
    refine iff_of_false List.not_mem_nil ?_
    rintro (⟨it, hit, -⟩ | hnone)
    · cases hit
    · cases hnone

theorem perfSorted_init : (init size specs watcherPos sampleType).PerfSorted := by
  intro i _ j j' it it' _ hit
  rw [items_init i] at hit
  cases hit

theorem inv_of_run (hspecs : ∀ i, 3 ≤ (specs i).order) {labels : List LoopLabel}
    (hok : Run.Along step (fun s label => s.Admissible label ∧ s.NextInOrder label)
      (init size specs watcherPos sampleType) labels)
    (hrun : Run.steps step (init size specs watcherPos sampleType) labels = some s) : s.Inv :=
  Run.steps_invariant (fun _ _ _ hi hok hstep => Inv.step hi hok.2 (hi.moves hok.1 hstep))
    (inv_init hspecs) hok hrun

theorem PerfSorted.step {label : LoopLabel} (h : s.PerfSorted) (hi : s.Inv)
    (hwrites : s.OrderedWrites label) (hm : Moves s label s') : s'.PerfSorted := by
  cases hm with
  | around he => exact h.extended he hwrites
  | work hw => exact h.sameContents hw.sameContents
  | call drain => exact h.sameContents ⟨rfl, rfl, fun i => .refl _⟩
  | restart =>
    refine h.sameContents ⟨rfl, rfl, fun i => ?_⟩
    exact sameRecords_of_items (Ring.isPerf_init _) (hi.accounts.valid i).at.init_spec.2

theorem ordered_step {label : LoopLabel} (h : s.Inv ∧ s.PerfSorted) (hok : s.Admissible label)
    (hwrites : s.OrderedWrites label) (hstep : s.step label = some s') :
    s'.Inv ∧ s'.PerfSorted := by
  obtain ⟨hi, hsorted⟩ := h
  have hm := hi.moves hok hstep
  exact ⟨hi.step (hsorted.nextInOrder hi label) hm, hsorted.step hi hwrites hm⟩

theorem ordered_of_run (hspecs : ∀ i, 3 ≤ (specs i).order) {labels : List LoopLabel}
    (hok : Run.Along step (fun s label => s.Admissible label ∧ s.OrderedWrites label)
      (init size specs watcherPos sampleType) labels)
    (hrun : Run.steps step (init size specs watcherPos sampleType) labels = some s) :
    s.Inv ∧ s.PerfSorted :=
  Run.steps_invariant (fun _ _ _ hi hok hstep => ordered_step hi hok.1 hok.2 hstep)
    ⟨inv_init hspecs, perfSorted_init⟩ hok hrun

/-- In every state that is reached with records in order: no record has been passed on twice, and
each with its own bytes and while its space had not been released; and between two calls, a record
that has been read has either been passed on or is in the queue, once. -/
theorem record_passedOnce (hspecs : ∀ i, 3 ≤ (specs i).order) {labels : List LoopLabel}
    (hok : Run.Along step (fun s label => s.Admissible label ∧ s.NextInOrder label)
      (init size specs watcherPos sampleType) labels)
    (hrun : Run.steps step (init size specs watcherPos sampleType) labels = some s) :
    (s.log.map Processed.id).Nodup ∧
      (∀ p ∈ s.log, p.released ≤ p.index ∧
        ∃ it, (s.ring p.bufferIdx).items[p.index]? = some it ∧ p.bytes = it.content) ∧
      (s.phase = .idle → ∀ i < s.size, ∀ j < (s.ring i).next,
        (s.log.map Processed.id).count (i, j) +
          (s.queue.map EventWrapper.id).count (i, j) = 1) := by
  have hi := inv_of_run hspecs hok hrun
  have hacc := hi.accounts
  refine ⟨hacc.logNodup, fun p hp => ?_, fun hidle i hsize j hj => ?_⟩
  · obtain ⟨hreleased, it, hit, -, hbytes, -⟩ := hacc.record p hp
    exact ⟨hreleased, it, hit, hbytes⟩
  · simp only [live, hand, hidle] at hacc
    have hlen := hj.trans_le (hacc.valid i).at.next_le
    have hget := List.getElem?_eq_getElem hlen
    cases hdone : (s.ring i).items[j].done with
    | true =>
      have hlog : (i, j) ∈ s.log.map Processed.id := (hacc.logged i j).mpr (.inl ⟨_, hget, hdone⟩)
      have hnot : (i, j) ∉ s.queue.map EventWrapper.id := by
        intro hmem
        obtain ⟨e, he, hid⟩ := List.mem_map.mp hmem
        obtain ⟨-, content, hholds, -⟩ := hacc.entry e he
        rw [EventWrapper.id, Prod.mk.injEq] at hid
        rw [hid.1, hid.2] at hholds
        rw [Option.some.inj (hget.symm.trans hholds.item)] at hdone
        cases hdone
      rw [List.count_eq_one_of_mem hacc.logNodup hlog, List.count_eq_zero_of_not_mem hnot]
    | false =>
      have hqueue : (i, j) ∈ s.queue.map EventWrapper.id :=
        (hacc.read i j _ hsize hj hget hdone).resolve_right (by rintro ⟨⟩)
      have hnot : (i, j) ∉ s.log.map Processed.id := by
        intro hmem
        rcases (hacc.logged i j).mp hmem with ⟨it, hit, hdone'⟩ | hnone
        · rw [Option.some.inj (hget.symm.trans hit), hdone'] at hdone
          cases hdone
        · cases hnone
      rw [List.count_eq_one_of_mem hacc.nodup hqueue, List.count_eq_zero_of_not_mem hnot]

end Runs

/-- A sample of which only the time is recorded. -/
def sampleRecord (time : ℕ) : List Byte :=
  leBytes 4 9 ++ leBytes 2 0 ++ leBytes 2 16 ++ leBytes 8 time

def throttleRecord : List Byte := leBytes 4 5 ++ leBytes 2 0 ++ leBytes 2 8

def onePerf : Loop :=
  init 1 (fun _ => .perf 6 (fun _ => 0) true) (fun _ => 0) (fun _ => PerfSample.time)

def callFor (drain : Bool) (steps : ℕ) : List LoopLabel :=
  .call drain :: List.replicate steps .work

def drainTwo (first second : List Byte) : List LoopLabel :=
  .kernelWrite 0 first :: .kernelWrite 0 second :: callFor true 16

theorem record_passedOnce_samples :
    ∃ s, Run.steps step onePerf (drainTwo (sampleRecord 100) (sampleRecord 100)) = some s ∧
      s.log.map Processed.id = [(0, 0), (0, 1)] ∧
      ∀ j < (s.ring 0).next, (s.log.map Processed.id).count (0, j) +
        (s.queue.map EventWrapper.id).count (0, j) = 1 := by
  have hend : (Run.steps step onePerf (drainTwo (sampleRecord 100) (sampleRecord 100))).any
      (fun s => s.phase = .idle ∧ s.size = 1 ∧
        s.log.map Processed.id = [(0, 0), (0, 1)]) = true := by
    decide +kernel
  obtain ⟨s, hrun, hend⟩ := (Option.any_eq_true _ _).mp hend
  obtain ⟨hidle, hsize, hlog⟩ := of_decide_eq_true hend
  have h := record_passedOnce (fun _ => by decide) (by decide +kernel) hrun
  exact ⟨s, hrun, hlog, h.2.2 hidle 0 (hsize ▸ Nat.zero_lt_one)⟩

/-- A record without a time gets on top of the queue before the sample in front of it is popped.
The sample is then passed on twice, the second time from space that has been released, and the
record is not passed on at all. -/
theorem throttled_passedTwice :
    ∃ s, Run.steps step onePerf (drainTwo (sampleRecord 100) throttleRecord) = some s ∧
      Run.Along step Admissible onePerf (drainTwo (sampleRecord 100) throttleRecord) ∧
      s.phase = .idle ∧ s.queue = [] ∧ (s.ring 0).next = 2 ∧
      s.log.map Processed.id = [(0, 0), (0, 0)] ∧ s.log.map Processed.released = [0, 1] := by
  have hend : (Run.steps step onePerf (drainTwo (sampleRecord 100) throttleRecord)).any
      (fun s => s.phase = .idle ∧ s.queue = [] ∧ (s.ring 0).next = 2 ∧
        s.log.map Processed.id = [(0, 0), (0, 0)] ∧ s.log.map Processed.released = [0, 1]) =
      true := by
    decide +kernel
  obtain ⟨s, hrun, hend⟩ := (Option.any_eq_true _ _).mp hend
  exact ⟨s, hrun, by decide +kernel, of_decide_eq_true hend⟩

/-! ### Workers that come and go -/

theorem done_of_readerPos_eq {ring : Ring} (hv : ring.Valid)
    (h : ring.rb.readerPos = ring.rb.writerPos) {j : ℕ} {it : Item}
    (hit : ring.items[j]? = some it) : it.done = true := by
  have hlt := (List.getElem?_eq_some_iff.mp hit).1
  rw [← hv.at.readerPos_eq_iff.mp h] at hlt
  exact hv.at.done_of_lt hlt hit

variable {size : ℕ} {specs : ℕ → RingSpec} {watcherPos sampleType : ℕ → ℕ} in
/-- However often the worker is replaced, once all ring buffers have been drained every record
has been passed on exactly once, with its own bytes. -/
theorem committedRecord_passedOnce (hspecs : ∀ i, 3 ≤ (specs i).order) {labels : List LoopLabel}
    (hok : Run.Along step (fun s label => s.Admissible label ∧ s.OrderedWrites label)
      (init size specs watcherPos sampleType) labels)
    (hrun : Run.steps step (init size specs watcherPos sampleType) labels = some s)
    (hdrained : ∀ i < s.size, (s.ring i).rb.readerPos = (s.ring i).rb.writerPos) :
    ∀ i < s.size, ∀ (j : ℕ) (it : Item), (s.ring i).items[j]? = some it → it.committed = true →
      (s.log.map Processed.id).count (i, j) = 1 ∧
        ∃ p ∈ s.log, p.id = (i, j) ∧ p.bytes = it.content := by
  intro i hi j it hit _
  have hacc := (ordered_of_run hspecs hok hrun).1.accounts
  have hdone := done_of_readerPos_eq (hacc.valid i) (hdrained i hi) hit
  have hlog : (i, j) ∈ s.log.map Processed.id := (hacc.logged i j).mpr (.inl ⟨it, hit, hdone⟩)
  refine ⟨List.count_eq_one_of_mem hacc.logNodup hlog, ?_⟩
  obtain ⟨p, hp, hid⟩ := List.mem_map.mp hlog
  obtain ⟨-, it', hit', -, hbytes, -⟩ := hacc.record p hp
  have hid' := hid
  rw [Processed.id, Prod.mk.injEq] at hid'
  rw [hid'.1, hid'.2, hit] at hit'
  exact ⟨p, hp, hid, hbytes.trans (congrArg Item.content (Option.some.inj hit').symm)⟩

def oneMpsc : Loop :=
  init 1 (fun _ => .mpsc 7 (fun _ => 0) (fun _ => 0)) (fun _ => 0) (fun _ => PerfSample.time)

def put (i w : ℕ) (bytes : List (ℕ × Byte)) : List LoopLabel :=
  let writes : List LoopLabel := bytes.map fun b => .producer i w (.writeByte b.1 b.2)
  .producer i w (.reserve 16 false) :: writes.concat (.producer i w .publish)

/-- Of two records, the second one is processed and the first one is in the queue when the
worker is replaced. -/
def replacedWorker : List LoopLabel :=
  put 0 0 [(0, 9), (11, 1)] ++ put 0 1 [(0, 9), (8, 60)] ++
    (.tick 200000 :: callFor false 4 ++ callFor false 8) ++ (.restart :: callFor true 12)

theorem committedRecord_passedOnce_replaced :
    ∃ s, Run.steps step oneMpsc replacedWorker = some s ∧
      s.log.map Processed.id = [(0, 1), (0, 0)] ∧
      ∀ (j : ℕ) (it : Item), (s.ring 0).items[j]? = some it → it.committed = true →
        (s.log.map Processed.id).count (0, j) = 1 := by
  have hend : (Run.steps step oneMpsc replacedWorker).any (fun s =>
      s.log.map Processed.id = [(0, 1), (0, 0)] ∧ s.size = 1 ∧
      ∀ i < s.size, (s.ring i).rb.readerPos = (s.ring i).rb.writerPos) = true := by
    decide +kernel
  obtain ⟨s, hrun, hend⟩ := (Option.any_eq_true _ _).mp hend
  obtain ⟨hlog, hsize, hdrained⟩ := of_decide_eq_true hend
  have h := committedRecord_passedOnce (fun _ => by decide) (by decide +kernel) hrun hdrained
  exact ⟨s, hrun, hlog, fun j it hit hc => (h 0 (hsize ▸ Nat.zero_lt_one) j it hit hc).1⟩

end Loop

end Ddprof
