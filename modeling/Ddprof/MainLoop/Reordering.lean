import Ddprof.MainLoop.Drain

/-!
Over any number of calls, the worker passes records on in the order of their timestamps, provided
that each record is committed at most `maxSampleLatency` after its timestamp.

That alone is not enough. The loop over the samples of an MPSC ring buffer stops at a sample that
is too recent for the turn, or not committed. A sample behind it may be old enough for the turn,
and then it is left unread while samples of other ring buffers that are not as old are processed.
-/

namespace Ddprof

namespace Loop

variable {s s' : Loop}

/-! ### Runs of non-drain calls -/

/-- A record is committed in time. -/
def Timely (s : Loop) (label : LoopLabel) : Prop :=
  ∀ x ∈ s.commits label, s.clock ≤ s.timestamp x.1 x.2 + maxSampleLatency

instance (s : Loop) (label : LoopLabel) : Decidable (s.Timely label) :=
  inferInstanceAs (Decidable (∀ x ∈ s.commits label, _))

/-- No drain call, and the worker with its queue is not replaced. -/
def KeepsQueue : LoopLabel → Prop
  | .call drain => drain = false
  | .restart => False
  | _ => True

instance : DecidablePred KeepsQueue
  | .call drain => inferInstanceAs (Decidable (drain = false))
  | .restart => inferInstanceAs (Decidable False)
  | .kernelWrite _ _ | .producer _ _ _ | .tick _ | .requestTermination | .work | .fail =>
    inferInstanceAs (Decidable True)

/-- The record in front does not keep the worker from one behind it that is old enough for
the turn. -/
def LetsPass (s : Loop) (i : ℕ) (maxTimestamp : ℤ) (front behind : Item) : Prop :=
  behind.committed = true → behind.done = false →
    s.timestamp i behind.content ≤ maxTimestamp →
    front.done = true ∨ front.committed = true ∧ s.timestamp i front.content ≤ maxTimestamp

/-- Of the MPSC ring buffer that is being dequeued, nothing that is old enough for the turn is
held back. -/
def NotHeldBack (s : Loop) : LoopLabel → Prop
  | .work =>
    match s.phase with
    | .dequeue c i => (s.ring i).IsPerf ∨
      ((s.ring i).items.drop (s.ring i).next).Pairwise (s.LetsPass i c.maxTimestamp)
    | _ => True
  | _ => True

instance : DecidablePred Ring.IsPerf
  | .perf _ => isTrue trivial
  | .mpsc _ => isFalse id

instance (s : Loop) (i : ℕ) (maxTimestamp : ℤ) : DecidableRel (s.LetsPass i maxTimestamp) := by
  intro front behind
  unfold LetsPass
  infer_instance

instance (s : Loop) : ∀ label, Decidable (s.NotHeldBack label)
  | .work =>
    match h : s.phase with
    | .dequeue c i =>
      decidable_of_iff ((s.ring i).IsPerf ∨
        ((s.ring i).items.drop (s.ring i).next).Pairwise (s.LetsPass i c.maxTimestamp))
        (by simp only [NotHeldBack, h])
    | .idle | .outer _ | .process _ | .advance _ _ | .readNext _ _ | .pop _ | .failed =>
      isTrue (by simp only [NotHeldBack, h])
  | .kernelWrite _ _ | .producer _ _ _ | .tick _ | .requestTermination | .call _ | .fail
  | .restart => inferInstanceAs (Decidable True)

theorem NotHeldBack.letsPass (h : s.NotHeldBack .work) {c : Call} {i : ℕ}
    (hphase : s.phase = .dequeue c i) (hmpsc : ¬ (s.ring i).IsPerf) {j j' : ℕ} {it it' : Item}
    (hj : (s.ring i).next ≤ j) (hlt : j < j') (hit : (s.ring i).items[j]? = some it)
    (hit' : (s.ring i).items[j']? = some it') : s.LetsPass i c.maxTimestamp it it' := by
  simp only [NotHeldBack, hphase] at h
  obtain ⟨hlen, rfl⟩ := List.getElem?_eq_some_iff.mp hit
  obtain ⟨hlen', rfl⟩ := List.getElem?_eq_some_iff.mp hit'
  obtain ⟨d, rfl⟩ := Nat.exists_eq_add_of_le hj
  obtain ⟨d', rfl⟩ := Nat.exists_eq_add_of_le (hj.trans hlt.le)
  have hpair := List.pairwise_iff_getElem.mp (h.resolve_left hmpsc) d d'
    (by rw [List.length_drop]; omega) (by rw [List.length_drop]; omega) (by omega)
  simpa only [List.getElem_drop] using hpair

theorem NotHeldBack.farBehind (h : s.NotHeldBack .work) {c : Call} {i : ℕ}
    (hphase : s.phase = .dequeue c i) : s.FarBehind (c.maxTimestamp ≤ ·) c.maxTimestamp i := by
  intro hmpsc j j' it t hj hlt hit hdone hcases ha
  obtain ⟨-, it', hit', hcommitted', hdone', rfl⟩ := ha
  by_contra hold
  rcases h.letsPass hphase hmpsc hj hlt hit hit' hcommitted' hdone' (not_le.mp hold).le with
    hdone'' | ⟨hcommitted, hle⟩
  · rw [hdone] at hdone''
    cases hdone''
  · rcases hcases with hnot | hlt'
    · rw [hcommitted] at hnot
      cases hnot
    · exact absurd hle (not_le.mpr hlt')

/-! ### The clock -/

/-- What is passed on, and what a turn processes, is older than the latency. -/
structure Paced (s : Loop) : Prop where
  log : ∀ p ∈ s.log, p.timestamp ≤ s.clock - maxSampleLatency
  call : OfCall (fun c => c.drain = false ∧ c.now ≤ s.clock)
    (fun c => c.drain = false ∧ c.maxTimestamp ≤ s.clock - maxSampleLatency) s.phase

theorem Works.clock_eq (hw : Works s s') : s'.clock = s.clock := by
  cases hw <;> rfl

theorem Paced.works (h : s.Paced) (hw : Works s s') : s'.Paced := by
  have hcall := h.call
  refine ⟨?_, ?_⟩
  · rw [hw.clock_eq]
    rcases hw.log_cases with heq | ⟨c, evt, rest, hphase, -, hle, heq⟩
    · rw [heq]
      exact h.log
    · rw [heq]
      intro p hp
      rcases List.mem_append.mp hp with hp | hp
      · exact h.log p hp
      · obtain rfl := List.mem_singleton.mp hp
        rw [hphase] at hcall
        exact hle.trans hcall.2
  · rw [hw.clock_eq]
    refine hcall.works (fun c hc => ⟨hc.1, ?_⟩) (fun c hc => hc) (fun c hc => ⟨hc.1, le_rfl⟩) hw
    simp only [hc.1, Bool.false_eq_true, if_false]
    exact Int.sub_le_sub_right hc.2 _

theorem OfCall.mono {P Q P' Q' : Call → Prop} {phase : LoopPhase} (h : OfCall P Q phase)
    (hP : ∀ c, P c → P' c) (hQ : ∀ c, Q c → Q' c) : OfCall P' Q' phase := by
  cases phase with
  | idle => trivial
  | failed => exact h
  | outer c => exact hP c h
  | dequeue c i => exact hQ c h
  | process c => exact hQ c h
  | advance c evt => exact hQ c h
  | readNext c evt => exact hQ c h
  | pop c => exact hQ c h

variable {label : LoopLabel}

theorem Paced.extended (h : s.Paced) (he : Extended s s' label) :
    s'.Paced := by
  have hclock := he.clock_le
  refine ⟨fun p hp => ?_, ?_⟩
  · have hle := h.log p (he.log ▸ hp)
    omega
  · rw [he.phase]
    refine h.call.mono (fun c hc => ⟨hc.1, hc.2.trans hclock⟩) (fun c hc => ⟨hc.1, ?_⟩)
    have hle := hc.2
    omega

/-! ### Writers -/

theorem Extended.awaits (he : Extended s s' label) {i j : ℕ} {t : ℤ} (ha : s'.Awaits i j t) :
    s.Awaits i j t ∨
      ∃ content, s.commits label = some (i, content) ∧ t = s.timestamp i content := by
  obtain ⟨hi, it, hit, hcommitted, hdone, rfl⟩ := ha
  rw [he.timestamp]
  rcases (he.ring i).grows.committed j it hit hcommitted with hold | hfresh
  · exact .inl ⟨he.size ▸ hi, it, hold, hcommitted, hdone, rfl⟩
  · exact .inr ⟨it.content, hfresh, rfl⟩

theorem Timely.le (h : s.Timely label) {i : ℕ} {content : List Circular.Byte}
    (hc : s.commits label = some (i, content)) :
    s.clock - maxSampleLatency ≤ s.timestamp i content :=
  Int.sub_right_le_of_le_add (h (i, content) hc)

theorem Paced.ordered_extended (h : s.Paced) (he : Extended s s' label)
    (htimely : s.Timely label) (ho : Ordered (· ≤ ·) [] s) : Ordered (· ≤ ·) [] s' := by
  obtain ⟨⟨new, hlog, hnew⟩, hturn⟩ := ho
  have hunread : ∀ i maxTimestamp, maxTimestamp ≤ s.clock - maxSampleLatency →
      s.LeftUnread (maxTimestamp ≤ ·) i → s'.LeftUnread (maxTimestamp ≤ ·) i := by
    intro i maxTimestamp hle hi j t ha hj
    rw [(he.ring i).next] at hj
    rw [(he.ring i).isPerf, (he.ring i).next, (he.ring i).released]
    rcases he.awaits ha with hold | ⟨content, hc, rfl⟩
    · exact hi j t hold hj
    · exact .inl (hle.trans (htimely.le hc))
  refine ⟨⟨new, he.log.trans hlog, hnew.pairwise.imp fun {p q} hpq => ?_, ?_⟩, ?_⟩
  · rw [InOrder, (he.ring p.bufferIdx).isPerf]
    exact hpq
  · intro p hp i j t ha
    rcases he.awaits ha with hold | ⟨content, hc, rfl⟩
    · exact hnew.le p hp i j t hold
    · exact (h.log p (by rwa [hlog])).trans (htimely.le hc)
  · have hcall := h.call
    unfold TurnInv at hturn ⊢
    rw [he.phase]
    cases hphase : s.phase with
    | idle => trivial
    | outer c => trivial
    | failed => trivial
    | dequeue c i =>
      rw [hphase] at hturn hcall
      exact fun i' hi' => hunread i' _ hcall.2 (hturn i' hi')
    | process c =>
      rw [hphase] at hturn hcall
      exact fun i' => hunread i' _ hcall.2 (hturn i')
    | advance c evt =>
      rw [hphase] at hturn hcall
      exact fun i' => hunread i' _ hcall.2 (hturn i')
    | readNext c evt =>
      rw [hphase] at hturn hcall
      exact fun i' hne => hunread i' _ hcall.2 (hturn i' hne)
    | pop c =>
      rw [hphase] at hturn hcall
      exact fun i' => hunread i' _ hcall.2 (hturn i')

/-! ### Whole runs -/

structure Reordered (s : Loop) : Prop where
  inv : s.Inv
  sorted : s.PerfSorted
  paced : s.Paced
  ordered : Ordered (· ≤ ·) [] s

theorem Reordered.step (h : s.Reordered) (hwrites : s.OrderedWrites label)
    (htimely : s.Timely label) (hkeeps : KeepsQueue label) (hfront : s.NotHeldBack label)
    (hm : Moves s label s') : s'.Reordered := by
  refine ⟨h.inv.step (h.sorted.nextInOrder h.inv label) hm, h.sorted.step h.inv hwrites hm, ?_, ?_⟩
  · cases hm with
    | around he => exact h.paced.extended he
    | work hw => exact h.paced.works hw
    | call drain => exact ⟨h.paced.log, hkeeps, le_rfl⟩
    | restart => exact hkeeps.elim
  · cases hm with
    | around he => exact h.paced.ordered_extended he htimely h.ordered
    | work hw =>
      exact h.ordered.works h.inv h.sorted (fun _ _ hle => hle)
        (fun c i hphase => hfront.farBehind hphase) hw
    | call drain =>
      obtain ⟨new, hlog, hnew⟩ := h.ordered.log
      exact ⟨⟨new, hlog, hnew.sameContents ⟨rfl, rfl, fun i => .refl _⟩⟩, trivial⟩
    | restart => exact hkeeps.elim

section Runs

variable {size : ℕ} {specs : ℕ → RingSpec} {watcherPos sampleType : ℕ → ℕ}

theorem reordered_init (hspecs : ∀ i, 3 ≤ (specs i).order) :
    (init size specs watcherPos sampleType).Reordered :=
  ⟨inv_init hspecs, perfSorted_init, ⟨nofun, trivial⟩, ⟨[], rfl, List.Pairwise.nil, nofun⟩, trivial⟩

/-- Over all calls, records are passed on in the order of their timestamps. -/
theorem log_reordered (hspecs : ∀ i, 3 ≤ (specs i).order) {labels : List LoopLabel}
    (hok : Run.Along step (fun s label => s.Admissible label ∧ s.OrderedWrites label ∧
      s.Timely label ∧ KeepsQueue label ∧ s.NotHeldBack label)
      (init size specs watcherPos sampleType) labels)
    (hrun : Run.steps step (init size specs watcherPos sampleType) labels = some s) :
    s.log.Pairwise (fun p q => p.timestamp ≤ q.timestamp) ∧
      ∀ p ∈ s.log, ∃ it, (s.ring p.bufferIdx).items[p.index]? = some it ∧
        p.timestamp = s.timestamp p.bufferIdx it.content := by
  have h : s.Reordered := by
    refine Run.steps_invariant (fun s label s' h hok hstep => ?_) (reordered_init hspecs) hok hrun
    obtain ⟨hok, hwrites, htimely, hkeeps, hfront⟩ := hok
    exact h.step hwrites htimely hkeeps hfront (h.inv.moves hok hstep)
  refine ⟨?_, fun p hp => ?_⟩
  · obtain ⟨new, hlog, hnew⟩ := h.ordered.log
    rw [hlog, List.nil_append]
    exact hnew.pairwise.imp fun hpq => hpq.1
  · obtain ⟨-, it, hit, -, -, hts⟩ := h.inv.accounts.record p hp
    exact ⟨it, hit, hts⟩

end Runs

/-- Records of both ring buffers, and a call at a time at which all of them are old enough. -/
def fillAndCall : List LoopLabel := fillBoth ++ (.tick 200000 :: callFor false 26)

theorem log_reordered_both :
    ∃ s, Run.steps step perfAndMpsc fillAndCall = some s ∧
      s.log.map Processed.timestamp = [60, 100, 100, 120] ∧
      s.log.Pairwise (fun p q => p.timestamp ≤ q.timestamp) := by
  have hend : (Run.steps step perfAndMpsc fillAndCall).any (fun s =>
      s.log.map Processed.timestamp = [60, 100, 100, 120]) = true := by
    decide +kernel
  obtain ⟨s, hrun, hend⟩ := (Option.any_eq_true _ _).mp hend
  exact ⟨s, hrun, of_decide_eq_true hend,
    (log_reordered order_perfFirst (by decide +kernel) hrun).1⟩

/-- In the MPSC ring buffer, the record of time 100 is in front of the one of time 60. At the time
of the first call, records up to 71 are processed. -/
def heldBack : List LoopLabel :=
  .kernelWrite 0 (sampleRecord 70) ::
    (put 1 0 [(0, 9), (8, 100)] ++ put 1 1 [(0, 9), (8, 60)] ++
      (.tick 50071 :: callFor false 9) ++ (.tick 50000 :: callFor false 17))

/-- The first call stops reading the MPSC ring buffer at the record of time 100. It processes the
record of time 70, and the one of time 60 is processed after it. -/
theorem heldBack_notReordered :
    ∃ s, Run.steps step perfAndMpsc heldBack = some s ∧
      Run.Along step (fun s label => s.Admissible label ∧ s.OrderedWrites label ∧
        s.Timely label ∧ KeepsQueue label) perfAndMpsc heldBack ∧
      s.phase = .idle ∧ s.log.map Processed.timestamp = [70, 60, 100] := by
  have hend : (Run.steps step perfAndMpsc heldBack).any (fun s =>
      s.phase = .idle ∧ s.log.map Processed.timestamp = [70, 60, 100]) = true := by
    decide +kernel
  obtain ⟨s, hrun, hend⟩ := (Option.any_eq_true _ _).mp hend
  exact ⟨s, hrun, by decide +kernel, of_decide_eq_true hend⟩

end Loop

end Ddprof
