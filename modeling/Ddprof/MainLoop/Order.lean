import Ddprof.MainLoop.Delivery

/-!
The order in which the worker passes records on.

The queue has its oldest record on top, but it does not have all records. Of a perf ring buffer
it has one, and those behind it are not older. And a turn of the outer loop may leave records
unread, as long as these are not old enough to be processed in it. Then what is passed on is not
younger than anything that is still to come.

How recent the records are that a turn leaves unread is a parameter: `far maxTimestamp t` says
that the timestamp `t` is far enough for a turn that processes records up to `maxTimestamp`.
-/

namespace Ddprof

namespace Loop

variable {s s' : Loop}

/-- The record `j` of the ring buffer `i` is committed and not done, and `t` is its timestamp. -/
def Awaits (s : Loop) (i j : ℕ) (t : ℤ) : Prop :=
  i < s.size ∧ ∃ it, (s.ring i).items[j]? = some it ∧ it.committed = true ∧ it.done = false ∧
    t = s.timestamp i it.content

theorem SameContents.awaits (h : SameContents s s') {i j : ℕ} {t : ℤ} (ha : s'.Awaits i j t) :
    s.Awaits i j t := by
  obtain ⟨hi, it', hit', hcommitted, hdone, rfl⟩ := ha
  obtain ⟨it, hit, hcontent, hc, hd⟩ := (h.ring i).item j it' hit'
  refine ⟨h.size ▸ hi, it, hit, hc.trans hcommitted, hd hdone, ?_⟩
  rw [h.timestamp, hcontent]

theorem sameContents_setRing {i : ℕ} {r : Ring} (h : Touches (s.ring i) r) :
    SameContents s (s.setRing i r) :=
  ⟨rfl, timestamp_setRing s i r, fun i' => (touches_setRing h i').sameRecords⟩

/-! ### What a turn leaves unread -/

/-- What has not been read of the ring buffer is far, or it is behind a record in flight. -/
def LeftUnread (s : Loop) (far : ℤ → Prop) (i : ℕ) : Prop :=
  ∀ (j : ℕ) (t : ℤ), s.Awaits i j t → (s.ring i).next ≤ j →
    far t ∨ (s.ring i).IsPerf ∧ (s.ring i).next ≠ (s.ring i).released

/-- Everything behind a record at which the loop over the samples of an MPSC ring buffer stops
is far. -/
def FarBehind (s : Loop) (far : ℤ → Prop) (maxTimestamp : ℤ) (i : ℕ) : Prop :=
  ¬ (s.ring i).IsPerf → ∀ (j j' : ℕ) (it : Item) (t : ℤ), (s.ring i).next ≤ j → j < j' →
    (s.ring i).items[j]? = some it → it.done = false →
    it.committed = false ∨ maxTimestamp < s.timestamp i it.content → s.Awaits i j' t → far t

section LeftUnread

variable {far : ℤ → Prop} {maxTimestamp : ℤ} {i i' : ℕ} {r : Ring} {ptr : EventPtr}

theorem LeftUnread.setRing_of_ne (h : s.LeftUnread far i') (hne : i' ≠ i) :
    (s.setRing i r).LeftUnread far i' := by
  simp only [LeftUnread, Awaits, ring_setRing_of_ne s hne, timestamp_setRing]
  exact h

theorem leftUnread_readNothing (hbehind : s.FarBehind far maxTimestamp i)
    (hpass : (s.ring i).Passes r) (hreads : (s.ring i).Reads r none) :
    (s.setRing i r).LeftUnread far i := by
  intro j' t ha' hj'
  have ha := (sameContents_setRing (.inr (.inl hpass))).awaits ha'
  rw [ring_setRing_self] at hj'
  obtain ⟨it', hit', hcommitted, -⟩ := ha.2
  cases hreads with
  | nothing hskips hstop =>
    have hlt := hj'.trans_lt (List.getElem?_eq_some_iff.mp hit').1
    have hget := List.getElem?_eq_getElem hlt
    obtain ⟨hnot, hdone⟩ := hstop _ hget
    have hmpsc : ¬ (s.ring i).IsPerf := by
      intro hperf
      rw [committed_of_isPerf hperf hget] at hnot
      cases hnot
    have hne : r.next ≠ j' := by
      rintro rfl
      rw [hget, Option.some.injEq] at hit'
      rw [hit', hcommitted] at hnot
      cases hnot
    exact .inl (hbehind hmpsc r.next j' _ t hskips.le (lt_of_le_of_ne hj' hne) hget hdone
      (.inl hnot) ha)

theorem leftUnread_readPerf (hperf : (s.ring i).IsPerf) (hpass : (s.ring i).Passes r)
    (hreads : (s.ring i).Reads r (some ptr)) : (s.setRing i r).LeftUnread far i := by
  intro j t _ _
  obtain ⟨content, hholds, -⟩ := eventWrapper_spec hpass hreads
  rw [ring_setRing_self]
  exact .inr ⟨hpass.isPerf ▸ hperf, hholds.not_free hpass.valid⟩

theorem leftUnread_tooRecent (hbehind : s.FarBehind far maxTimestamp i)
    (hmpsc : ¬ (s.ring i).IsPerf) (hpass : (s.ring i).Passes r)
    (hreads : (s.ring i).Reads r (some ptr))
    (hlt : maxTimestamp < ((s.setRing i r).eventWrapper i ptr).timestamp) :
    (s.setRing i r).LeftUnread far i := by
  intro j' t ha hj'
  have ha := (sameContents_setRing (.inr (.inl hpass))).awaits ha
  obtain ⟨content, hholds, hts, hnext, hskips⟩ := eventWrapper_spec hpass hreads
  rw [ring_setRing_self, hnext] at hj'
  rw [hts] at hlt
  have hitem := hholds.item
  rw [hpass.items] at hitem
  exact .inl (hbehind hmpsc _ j' _ t hskips.le hj' hitem rfl (.inr hlt) ha)

/-- Handing back a record of an MPSC ring buffer leaves what is unread. -/
theorem LeftUnread.finish (h : s.LeftUnread far i) (hmpsc : ¬ (s.ring i).IsPerf) {j : ℕ}
    (hf : (s.ring i).Finishes r j) : (s.setRing i r).LeftUnread far i := by
  intro j' t ha hj'
  have ha := (sameContents_setRing (.inr (.inr ⟨j, hf⟩))).awaits ha
  rw [ring_setRing_self, hf.next] at hj'
  exact .inl ((h j' t ha hj').resolve_right fun hin => hmpsc hin.1)

end LeftUnread

/-! ### The invariant -/

/-- The record `p` may be passed on before `q`. -/
def InOrder (s : Loop) (p q : Processed) : Prop :=
  p.timestamp ≤ q.timestamp ∧
    (p.bufferIdx = q.bufferIdx → (s.ring p.bufferIdx).IsPerf → p.index < q.index)

/-- The records of `new` are in order, and nothing older is to come. -/
structure LogOrdered (s : Loop) (new : List Processed) : Prop where
  pairwise : new.Pairwise s.InOrder
  le : ∀ p ∈ new, ∀ i j t, s.Awaits i j t → p.timestamp ≤ t

/-- What a turn knows of the ring buffers that it has dequeued. -/
def TurnInv (far : ℤ → ℤ → Prop) (s : Loop) : Prop :=
  match s.phase with
  | .idle | .outer _ | .failed => True
  | .dequeue c i => ∀ i' < i, s.LeftUnread (far c.maxTimestamp) i'
  | .process c | .advance c _ | .pop c => ∀ i, s.LeftUnread (far c.maxTimestamp) i
  | .readNext c evt => ∀ i, i ≠ evt.bufferIdx → s.LeftUnread (far c.maxTimestamp) i

/-- The worker has passed on `old`, and whatever it has passed on since then is in order. -/
structure Ordered (far : ℤ → ℤ → Prop) (old : List Processed) (s : Loop) : Prop where
  log : ∃ new, s.log = old ++ new ∧ s.LogOrdered new
  turn : s.TurnInv far

theorem LogOrdered.sameContents {new : List Processed} (h : s.LogOrdered new)
    (hs : SameContents s s') : s'.LogOrdered new := by
  refine ⟨h.pairwise.imp fun {p q} hpq => ?_, fun p hp i j t ha => h.le p hp i j t (hs.awaits ha)⟩
  rw [InOrder, (hs.ring p.bufferIdx).isPerf]
  exact hpq

/-! ### The top of the queue -/

section Top

variable {c : Call} {evt : EventWrapper} {rest : List EventWrapper} {i j : ℕ} {t : ℤ}

theorem Inv.queued (h : s.Inv) (hphase : s.phase = .process c) (ha : s.Awaits i j t)
    (hj : j < (s.ring i).next) : ∃ e ∈ s.queue, e.timestamp = t := by
  have hacc := h.accounts
  simp only [live, hand, hphase] at hacc
  obtain ⟨hi, it, hit, -, hdone, rfl⟩ := ha
  obtain ⟨e, he, hid⟩ :=
    List.mem_map.mp ((hacc.read i j it hi hj hit hdone).resolve_right (by rintro ⟨⟩))
  obtain ⟨-, content, hholds, hts⟩ := hacc.entry e he
  rw [EventWrapper.id, Prod.mk.injEq] at hid
  rw [hid.1, hid.2] at hholds
  rw [hid.1] at hts
  rw [hholds.item, Option.some.injEq] at hit
  exact ⟨e, he, by rw [hts, ← hit]⟩

variable {far : ℤ → Prop}

/-- What is to come is far, or something in the queue is not younger. -/
theorem Inv.exists_queued_le (h : s.Inv) (hsorted : s.PerfSorted) (hphase : s.phase = .process c)
    (hunread : s.LeftUnread far i) (ha : s.Awaits i j t) :
    far t ∨ ∃ e ∈ s.queue, e.timestamp ≤ t := by
  by_cases hj : j < (s.ring i).next
  · obtain ⟨e, he, heq⟩ := h.queued hphase ha hj
    exact .inr ⟨e, he, heq.le⟩
  · refine (hunread j t ha (not_lt.mp hj)).imp_right ?_
    rintro ⟨hperf, hflight⟩
    -- the record in flight comes first
    have hvalid := h.accounts.valid i
    have hlt := lt_of_le_of_ne hvalid.released_le hflight.symm
    obtain ⟨first, hget⟩ : ∃ first, (s.ring i).items[(s.ring i).released]? = some first :=
      ⟨_, List.getElem?_eq_getElem (hlt.trans_le hvalid.at.next_le)⟩
    have hdone := hvalid.at.not_done_of_perf hperf le_rfl hget
    obtain ⟨hi, it, hit, -, -, rfl⟩ := ha
    obtain ⟨e, he, heq⟩ := h.queued hphase
      ⟨hi, first, hget, committed_of_isPerf hperf hget, hdone, rfl⟩ hlt
    exact ⟨e, he, heq.trans_le (hsorted i hperf _ j first it (by omega) hget hit)⟩

/-- The top of the queue is not younger than anything that is to come. -/
theorem Inv.top_le (h : s.Inv) (hsorted : s.PerfSorted) (hphase : s.phase = .process c)
    (hqueue : s.queue = evt :: rest) (hle : evt.timestamp ≤ c.maxTimestamp)
    (hfar : ∀ t, far t → c.maxTimestamp ≤ t) (hunread : s.LeftUnread far i)
    (ha : s.Awaits i j t) : evt.timestamp ≤ t := by
  rcases h.exists_queued_le hsorted hphase hunread ha with hft | ⟨e, he, het⟩
  · exact hle.trans (hfar t hft)
  · have hheap := h.heap
    rw [hqueue] at hheap he
    rcases List.mem_cons.mp he with rfl | he
    · exact het
    · exact (hheap.le_of_mem he).trans het

/-- The records of a perf ring buffer are passed on as they are in the ring buffer. -/
theorem Inv.index_lt (h : s.Inv) (hphase : s.phase = .process c) (hqueue : s.queue = evt :: rest)
    {p : Processed} (hp : p ∈ s.log) (hidx : p.bufferIdx = evt.bufferIdx)
    (hperf : (s.ring p.bufferIdx).IsPerf) : p.index < evt.index := by
  have hacc := h.accounts
  simp only [live, hand, hphase, hqueue] at hacc
  obtain ⟨-, content, hholds, -⟩ := hacc.entry evt List.mem_cons_self
  rcases (hacc.logged _ _).mp (List.mem_map_of_mem hp) with ⟨it, hit, hdone⟩ | hnone
  · have hvalid := hacc.valid p.bufferIdx
    have hlt : p.index < (s.ring p.bufferIdx).released := by
      by_contra hge
      rw [hvalid.at.not_done_of_perf hperf (not_lt.mp hge) hit] at hdone
      cases hdone
    rw [← hidx] at hholds
    exact hlt.trans_le (hholds.released_le hvalid)
  · cases hnone

theorem LogOrdered.process {new : List Processed} (hlog : s.LogOrdered new) (h : s.Inv)
    (hsorted : s.PerfSorted) (hnew : ∀ p ∈ new, p ∈ s.log) (hphase : s.phase = .process c)
    (hqueue : s.queue = evt :: rest) (hle : evt.timestamp ≤ c.maxTimestamp)
    (hfar : ∀ t, far t → c.maxTimestamp ≤ t) (hunread : ∀ i, s.LeftUnread far i) :
    s.LogOrdered (new ++ [s.processed evt]) := by
  have hacc := h.accounts
  simp only [live, hand, hphase, hqueue] at hacc
  obtain ⟨hlt, content, hholds, hts⟩ := hacc.entry evt List.mem_cons_self
  have hawaits : s.Awaits evt.bufferIdx evt.index evt.timestamp :=
    ⟨hlt, _, hholds.item, rfl, rfl, hts⟩
  refine ⟨List.pairwise_append.mpr ⟨hlog.pairwise, List.pairwise_singleton _ _, ?_⟩, ?_⟩
  · intro p hp q hq
    obtain rfl := List.mem_singleton.mp hq
    exact ⟨hlog.le p hp _ _ _ hawaits, fun hidx hperf =>
      h.index_lt hphase hqueue (hnew p hp) hidx hperf⟩
  · intro p hp i j t ha
    rcases List.mem_append.mp hp with hp | hp
    · exact hlog.le p hp i j t ha
    · obtain rfl := List.mem_singleton.mp hp
      exact h.top_le hsorted hphase hqueue hle hfar (hunread i) ha

end Top

/-! ### Steps of the worker -/

section Works

variable {far : ℤ → ℤ → Prop} {old : List Processed}

/-- A step of the worker leaves the log, or it passes on the top of the queue. -/
theorem Works.log_cases (h : Works s s') : s'.log = s.log ∨
    ∃ c evt rest, s.phase = .process c ∧ s.queue = evt :: rest ∧ evt.timestamp ≤ c.maxTimestamp ∧
      s'.log = s.log ++ [s.processed evt] := by
  cases h with
  | process hphase hqueue hle => exact .inr ⟨_, _, _, hphase, hqueue, hle, rfl⟩
  | stop | start | inFlight | readNothing | readEvent | dequeued | finished | again | tooRecent
  | advancePerf | advanceMpsc | noNext | next | pop => exact .inl rfl

theorem TurnInv.works (ht : s.TurnInv far) (h : s.Inv)
    (hbehind : ∀ c i, s.phase = .dequeue c i → s.FarBehind (far c.maxTimestamp) c.maxTimestamp i)
    (hw : Works s s') : s'.TurnInv far := by
  have hknown := h.phase
  unfold TurnInv at ht
  cases hw with
  | stop | finished | again | tooRecent => trivial
  | start hphase => exact nofun
  | inFlight hphase hi hperf hinflight =>
    rw [hphase] at ht
    intro i' hi'
    rcases Nat.lt_or_eq_of_le (Nat.le_of_lt_succ hi') with hlt | rfl
    · exact ht i' hlt
    · exact fun _ _ _ _ => .inr ⟨hperf, hinflight⟩
  | readNothing hphase hi hpass hreads =>
    rw [hphase] at ht
    intro i' hi'
    rcases Nat.lt_or_eq_of_le (Nat.le_of_lt_succ hi') with hlt | rfl
    · exact (ht i' hlt).setRing_of_ne hlt.ne
    · exact leftUnread_readNothing (hbehind _ _ hphase) hpass hreads
  | readEvent hphase hi hpass hreads hnext =>
    rw [hphase] at ht
    intro i' hi'
    rcases hnext with ⟨rfl, hcases⟩ | ⟨rfl, -, -⟩
    · rcases Nat.lt_or_eq_of_le (Nat.le_of_lt_succ hi') with hlt | rfl
      · exact (ht i' hlt).setRing_of_ne hlt.ne
      · by_cases hperf : (s.ring i').IsPerf
        · exact leftUnread_readPerf hperf hpass hreads
        · exact leftUnread_tooRecent (hbehind _ _ hphase) hperf hpass hreads
            (hcases.resolve_left hperf)
    · exact (ht i' hi').setRing_of_ne hi'.ne
  | dequeued hphase hi =>
    rw [hphase] at ht
    intro i'
    by_cases hi' : i' < s.size
    · exact ht i' (hi'.trans_le hi)
    · exact fun _ _ ha => absurd ha.1 hi'
  | process hphase =>
    rw [hphase] at ht
    exact ht
  | advancePerf hphase =>
    rw [hphase] at ht
    exact fun i' hne => (ht i').setRing_of_ne hne
  | @advanceMpsc c evt r hphase hmpsc hf =>
    rw [hphase] at ht
    intro i'
    by_cases hi' : i' = evt.bufferIdx
    · subst hi'
      exact (ht _).finish hmpsc hf
    · exact (ht i').setRing_of_ne hi'
  | @noNext c evt r hphase hpass hreads =>
    rw [hphase] at ht
    simp only [PhaseInv, hphase] at hknown
    intro i'
    by_cases hi' : i' = evt.bufferIdx
    · subst hi'
      have hbehind' : s.FarBehind (far c.maxTimestamp) c.maxTimestamp evt.bufferIdx :=
        fun hmpsc => absurd hknown.1.isPerf hmpsc
      exact leftUnread_readNothing hbehind' hpass hreads
    · exact (ht i' hi').setRing_of_ne hi'
  | @next c evt r ptr hphase hpass hreads =>
    rw [hphase] at ht
    simp only [PhaseInv, hphase] at hknown
    intro i'
    by_cases hi' : i' = evt.bufferIdx
    · subst hi'
      exact leftUnread_readPerf hknown.1.isPerf hpass hreads
    · exact (ht i' hi').setRing_of_ne hi'
  | pop hphase =>
    rw [hphase] at ht
    exact ht

theorem Ordered.works (ho : Ordered far old s) (h : s.Inv) (hsorted : s.PerfSorted)
    (hfar : ∀ maxTimestamp t, far maxTimestamp t → maxTimestamp ≤ t)
    (hbehind : ∀ c i, s.phase = .dequeue c i → s.FarBehind (far c.maxTimestamp) c.maxTimestamp i)
    (hw : Works s s') : Ordered far old s' := by
  refine ⟨?_, ho.turn.works h hbehind hw⟩
  obtain ⟨new, hlog, hnew⟩ := ho.log
  rcases hw.log_cases with heq | ⟨c, evt, rest, hphase, hqueue, hle, heq⟩
  · exact ⟨new, heq.trans hlog, hnew.sameContents hw.sameContents⟩
  · have hunread := ho.turn
    rw [TurnInv, hphase] at hunread
    refine ⟨new ++ [s.processed evt], by rw [heq, hlog, List.append_assoc], ?_⟩
    refine LogOrdered.sameContents ?_ hw.sameContents
    refine hnew.process h hsorted (fun p hp => ?_) hphase hqueue hle (hfar _) hunread
    rw [hlog]
    exact List.mem_append_right _ hp

/-! ### The variables of a call -/

/-- `P` holds of them at the condition of the outer loop, and `Q` within a turn. -/
def OfCall (P Q : Call → Prop) : LoopPhase → Prop
  | .idle => True
  | .outer c => P c
  | .dequeue c _ | .process c | .advance c _ | .readNext c _ | .pop c => Q c
  | .failed => False

theorem OfCall.works {P Q : Call → Prop} (h : OfCall P Q s.phase)
    (hstart : ∀ c, P c → Q { c with
      maxTimestamp := if c.drain then timePointMax else c.now - maxSampleLatency
      newEvents := 0 })
    (hread : ∀ c, Q c → Q { c with newEvents := c.newEvents + 1 })
    (hagain : ∀ c, Q c → P { c with now := s.clock }) (hw : Works s s') : OfCall P Q s'.phase := by
  cases hw with
  | stop | finished | tooRecent => trivial
  | start hphase =>
    rw [hphase] at h
    exact hstart _ h
  | readEvent hphase =>
    rw [hphase] at h
    exact hread _ h
  | again hphase =>
    rw [hphase] at h
    exact hagain _ h
  | inFlight hphase | readNothing hphase | dequeued hphase | process hphase | advancePerf hphase
  | advanceMpsc hphase | noNext hphase | next hphase | pop hphase =>
    rw [hphase] at h
    exact h

end Works

end Loop

end Ddprof
