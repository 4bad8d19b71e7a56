import Ddprof.MainLoop.Basic

/-!
The accounts of the worker: where each record is on its way from its ring buffer to
`ddprof_worker_process_event`.

A record that has been read and is not done is in the event queue, once, or it is the one
record in hand that has been passed on and not yet handed back to its ring buffer. The log has
the records that are done and the one in hand, each once, and each with its own bytes, from a
time at which its space had not been released.

The lemmas say what the operations on ring buffers do to the accounts. They do not refer to the
phases of the loop.
-/

namespace Ddprof

open Circular (Byte)

namespace Ring

/-- The record `j` has been read and not handed back, and the pointer leads to it. -/
structure Holds (ring : Ring) (ptr : EventPtr) (j : ℕ) (content : List Byte) : Prop where
  lt : j < ring.next
  item : ring.items[j]? = some ⟨content, true, false⟩
  points : ring.Points ptr j

variable {ring ring' : Ring} {ptr : EventPtr} {j : ℕ} {content : List Byte}

theorem Valid.released_le (h : ring.Valid) : ring.released ≤ ring.next := h.at.released_le

theorem Holds.released_le (hv : ring.Valid) (h : ring.Holds ptr j content) :
    ring.released ≤ j := by
  by_contra hlt
  exact Bool.noConfusion (hv.at.done_of_lt (not_le.mp hlt) h.item)

theorem Holds.eventBytes_eq (hv : ring.Valid) (h : ring.Holds ptr j content) :
    ring.eventBytes ptr = content :=
  hv.at.eventBytes_eq (h.released_le hv) h.item h.points

/-- Nothing is held of a perf ring buffer without a record in flight. -/
theorem Holds.not_free (hv : ring.Valid) (h : ring.Holds ptr j content) :
    ring.next ≠ ring.released := by
  have := h.lt
  have := h.released_le hv
  omega

/-- In a perf ring buffer, only the last record that has been read is held. -/
theorem Holds.succ_eq_next (hv : ring.Valid) (hperf : ring.IsPerf)
    (h : ring.Holds ptr j content) : j + 1 = ring.next := by
  have hle := h.released_le hv
  have hlt := h.lt
  have hat := hv.at
  cases ring with
  | perf p =>
    have hone : (perf p).next ≤ (perf p).released + 1 := hat.2
    omega
  | mpsc c => exact hperf.elim

/-! ### Reading -/

structure Passes (ring ring' : Ring) : Prop where
  valid : ring'.Valid
  items : ring'.items = ring.items
  isPerf : ring'.IsPerf = ring.IsPerf
  released : ring'.released = ring.released
  next_le : ring.next ≤ ring'.next
  holds : ∀ ptr j content, ring.Holds ptr j content → ring'.Holds ptr j content

theorem Passes.refl (h : ring.Valid) : Passes ring ring :=
  ⟨h, rfl, rfl, rfl, le_rfl, fun _ _ _ h => h⟩

/-- What a read returns, and how far it goes. -/
inductive Reads (ring ring' : Ring) : Option EventPtr → Prop
  | nothing (hskips : Skips ring.items ring.next ring'.next)
      (hstop : ∀ it, ring.items[ring'.next]? = some it →
        it.committed = false ∧ it.done = false) : Reads ring ring' none
  | event {ptr : EventPtr} {j : ℕ} {content : List Byte} (hskips : Skips ring.items ring.next j)
      (hnext : ring'.next = j + 1) (hholds : ring'.Holds ptr j content) :
      Reads ring ring' (some ptr)

/-- A perf ring buffer is read when nothing is in flight. -/
theorem Valid.readEvent (h : ring.Valid) (hfree : ring.IsPerf → ring.next = ring.released) :
    ∃ ring' event, ring.readEvent = some (ring', event) ∧ Passes ring ring' ∧
      Reads ring ring' event := by
  obtain ⟨ring', event, k', hread, hvalid, hitems, hperf, hfinds, hpoints⟩ :=
    h.at.readEvent_spec hfree
  have hnext : ring'.next = k' := hvalid.next_eq
  have hle : ring.next ≤ k' := by
    cases hfinds with
    | nothing hskips hstop => exact hskips.le
    | event hskips => exact Nat.le_succ_of_le hskips.le
  have hholds : ∀ ptr j content, ring.Holds ptr j content → ring'.Holds ptr j content := by
    intro ptr j content hh
    refine ⟨hh.lt.trans_le (hle.trans hnext.ge), hitems ▸ hh.item, hpoints ?_ ptr j hh.points⟩
    exact fun hp => hh.not_free h (hfree hp)
  refine ⟨ring', event, hread, ⟨⟨_, _, hvalid⟩, hitems, hperf, hvalid.released_eq,
    hle.trans hnext.ge, hholds⟩, ?_⟩
  cases hfinds with
  | nothing hskips hstop => exact .nothing (hnext ▸ hskips) (hnext ▸ hstop)
  | @event j it ptr hskips hit hcommitted hdone hptr =>
    obtain ⟨content, committed, done⟩ := it
    obtain rfl : committed = true := hcommitted
    obtain rfl : done = false := hdone
    exact .event hskips hnext ⟨by omega, hitems ▸ hit, hptr⟩

/-! ### Handing back -/

structure Finishes (ring ring' : Ring) (j : ℕ) : Prop where
  valid : ring'.Valid
  items : ring'.items = ring.items.modify j Item.finish
  isPerf : ring'.IsPerf = ring.IsPerf
  next : ring'.next = ring.next
  free : ring.IsPerf → ring'.next = ring'.released
  first : ∀ it, ring'.items[ring'.released]? = some it → it.done = false
  holds : ∀ ptr i content, i ≠ j → ring.Holds ptr i content → ring'.Holds ptr i content

/-- The release stops at a record that has been passed, at the latest. -/
def StopsAt (ring : Ring) (m : ℕ) : Prop :=
  m ≤ ring.next ∧ ∀ it, ring.items[m]? = some it → it.done = false

theorem Holds.advance (hv : ring.Valid) (h : ring.Holds ptr j content)
    (hstops : ¬ ring.IsPerf → ∃ m, ring.StopsAt m ∧ m ≠ j) :
    ∃ ring', ring.advance ptr j = some ring' ∧ Finishes ring ring' j := by
  have hlt := h.lt
  have hstops' : ∃ m, ring.StopsAt m ∧ m ≠ j := by
    by_cases hperf : ring.IsPerf
    · exact ⟨ring.next, ⟨le_rfl, fun it hit =>
        hv.at.not_done_of_perf hperf hv.released_le hit⟩, by omega⟩
    · exact hstops hperf
  obtain ⟨m, ⟨hm, hstop⟩, hmj⟩ := hstops'
  obtain ⟨ring', r', hadv, hvalid, -, hitems, hperf, hfree, hfirst, hpoints⟩ :=
    hv.at.advance_spec hlt h.item rfl rfl h.points hm hmj hstop
  refine ⟨ring', hadv, ⟨_, _, hvalid⟩, hitems, hperf, hvalid.next_eq, fun hp => ?_,
    hvalid.released_eq.symm ▸ hfirst, ?_⟩
  · rw [hvalid.next_eq, hvalid.released_eq, hfree hp]
  · intro ptr' i content' hne hh
    by_cases hp : ring.IsPerf
    · have h1 := h.succ_eq_next hv hp
      have h2 := hh.succ_eq_next hv hp
      omega
    · refine ⟨hvalid.next_eq.symm ▸ hh.lt, ?_, hpoints hp ptr' i hh.points⟩
      rw [hitems, List.getElem?_modify_ne _ _ hne.symm]
      exact hh.item

/-! ### Writing -/

structure Extends (fresh : List Byte → Prop) (ring ring' : Ring) : Prop where
  valid : ring'.Valid
  isPerf : ring'.IsPerf = ring.IsPerf
  released : ring'.released = ring.released
  next : ring'.next = ring.next
  grows : Grows fresh ring.items ring'.items
  holds : ∀ ptr j content, ring.Holds ptr j content → ring'.Holds ptr j content

theorem grows_refl (fresh : List Byte → Prop) (items : List Item) : Grows fresh items items where
  old _ it hit := ⟨it, hit, rfl, fun _ => rfl⟩
  added _ _ hj hit := absurd (List.getElem?_eq_some_iff.mp hit).1 (not_lt.mpr hj)
  committed _ _ hit _ := .inl hit

theorem Extends.refl (fresh : List Byte → Prop) (h : ring.Valid) : Extends fresh ring ring :=
  ⟨h, rfl, rfl, rfl, grows_refl fresh _, fun _ _ _ h => h⟩

theorem Written.extends {fresh : List Byte → Prop}
    (h : Written fresh ring ring' ring.released ring.next) : Extends fresh ring ring' where
  valid := ⟨_, _, h.valid⟩
  isPerf := h.isPerf
  released := h.valid.released_eq
  next := h.valid.next_eq
  grows := h.grows
  holds ptr j content hh := by
    obtain ⟨it', hit', -, heq⟩ := h.grows.old j _ hh.item
    refine ⟨h.valid.next_eq.symm ▸ hh.lt, ?_, h.points ptr j hh.points⟩
    rw [hit', heq rfl]

theorem Extends.mono {fresh fresh' : List Byte → Prop} (h : Extends fresh ring ring')
    (hfresh : ∀ content, fresh content → fresh' content) : Extends fresh' ring ring' :=
  ⟨h.valid, h.isPerf, h.released, h.next, ⟨h.grows.old, h.grows.added, fun j it hit hcommitted =>
    (h.grows.committed j it hit hcommitted).imp_right (hfresh _)⟩, h.holds⟩

theorem Grows.done_iff {fresh : List Byte → Prop} {items items' : List Item}
    (h : Grows fresh items items') (j : ℕ) :
    (∃ it, items'[j]? = some it ∧ it.done = true) ↔ ∃ it, items[j]? = some it ∧ it.done = true := by
  constructor
  · rintro ⟨it', hit', hdone⟩
    by_cases hj : j < items.length
    · have hget := List.getElem?_eq_getElem hj
      obtain ⟨it'', hit'', hsame, -⟩ := h.old j _ hget
      rw [hit'] at hit''
      cases hit''
      exact ⟨_, hget, hsame ▸ hdone⟩
    · rw [h.added j it' (not_lt.mp hj) hit'] at hdone
      cases hdone
  · rintro ⟨it, hit, hdone⟩
    obtain ⟨it', hit', hsame, -⟩ := h.old j it hit
    exact ⟨it', hit', hsame.trans hdone⟩

end Ring

/-- `live` are the records in the queue, and `hand` is the one that has been passed on and not
handed back. -/
structure Accounts (size : ℕ) (ring : ℕ → Ring) (ts : ℕ → List Byte → ℤ) (log : List Processed)
    (live : List EventWrapper) (hand : Option (ℕ × ℕ)) : Prop where
  valid : ∀ i, (ring i).Valid
  entry : ∀ e ∈ live, e.bufferIdx < size ∧ ∃ content,
    (ring e.bufferIdx).Holds e.event e.index content ∧ e.timestamp = ts e.bufferIdx content
  nodup : (live.map EventWrapper.id).Nodup
  read : ∀ i j it, i < size → j < (ring i).next → (ring i).items[j]? = some it →
    it.done = false → (i, j) ∈ live.map EventWrapper.id ∨ hand = some (i, j)
  logNodup : (log.map Processed.id).Nodup
  logged : ∀ i j, (i, j) ∈ log.map Processed.id ↔
    (∃ it, (ring i).items[j]? = some it ∧ it.done = true) ∨ hand = some (i, j)
  inRange : ∀ p ∈ log, p.bufferIdx < size
  record : ∀ p ∈ log, p.released ≤ p.index ∧ ∃ it,
    (ring p.bufferIdx).items[p.index]? = some it ∧ it.committed = true ∧ p.bytes = it.content ∧
      p.timestamp = ts p.bufferIdx it.content

namespace Accounts

variable {size : ℕ} {ring ring' : ℕ → Ring} {ts : ℕ → List Byte → ℤ} {log : List Processed}
  {live live' : List EventWrapper} {hand : Option (ℕ × ℕ)}

theorem perm (h : Accounts size ring ts log live hand) (hperm : live.Perm live') :
    Accounts size ring ts log live' hand where
  valid := h.valid
  entry e he := h.entry e (hperm.mem_iff.mpr he)
  nodup := (hperm.map _).nodup_iff.mp h.nodup
  read i j it hi hj hit hdone :=
    (h.read i j it hi hj hit hdone).imp_left (hperm.map EventWrapper.id).mem_iff.mp
  logNodup := h.logNodup
  logged := h.logged
  inRange := h.inRange
  record := h.record

/-- Records are read, and the new ones get into the queue. -/
theorem pass (h : Accounts size ring ts log live hand)
    (hp : ∀ i, Ring.Passes (ring i) (ring' i)) (new : List EventWrapper)
    (hentry : ∀ e ∈ new, e.bufferIdx < size ∧ ∃ content,
      (ring' e.bufferIdx).Holds e.event e.index content ∧ e.timestamp = ts e.bufferIdx content)
    (hnodup : (new.map EventWrapper.id).Nodup)
    (hnew : ∀ e ∈ new, (ring e.bufferIdx).next ≤ e.index)
    (hread : ∀ i j it, (ring i).next ≤ j → j < (ring' i).next → (ring i).items[j]? = some it →
      it.done = false → (i, j) ∈ new.map EventWrapper.id) :
    Accounts size ring' ts log (new ++ live) hand where
  valid i := (hp i).valid
  entry e he := by
    rcases List.mem_append.mp he with he | he
    · exact hentry e he
    · obtain ⟨hi, content, hholds, hts⟩ := h.entry e he
      exact ⟨hi, content, (hp _).holds _ _ _ hholds, hts⟩
  nodup := by
    rw [List.map_append]
    refine hnodup.append h.nodup fun id hid hid' => ?_
    -- what was in the queue had been read before
    obtain ⟨e, he, rfl⟩ := List.mem_map.mp hid
    obtain ⟨e', he', heq⟩ := List.mem_map.mp hid'
    obtain ⟨-, content, hholds, -⟩ := h.entry e' he'
    have hlt := hholds.lt
    have hge := hnew e he
    rw [EventWrapper.id, EventWrapper.id, Prod.mk.injEq] at heq
    rw [heq.1, heq.2] at hlt
    exact absurd hlt (not_lt.mpr hge)
  read i j it hi hj hit hdone := by
    rw [(hp i).items] at hit
    rw [List.map_append, List.mem_append]
    by_cases hold : j < (ring i).next
    · exact (h.read i j it hi hold hit hdone).imp_left .inr
    · exact .inl (.inl (hread i j it (not_lt.mp hold) hj hit hdone))
  logNodup := h.logNodup
  logged i j := by
    rw [(hp i).items]
    exact h.logged i j
  inRange := h.inRange
  record p hmem := by
    rw [(hp p.bufferIdx).items]
    exact h.record p hmem

theorem take {evt : EventWrapper} (h : Accounts size ring ts log (evt :: live) none)
    {p : Processed} (hid : p.id = evt.id) (hts : p.timestamp = evt.timestamp)
    (hbytes : p.bytes = (ring evt.bufferIdx).eventBytes evt.event)
    (hreleased : p.released = (ring evt.bufferIdx).released) :
    Accounts size ring ts (log ++ [p]) live (some evt.id) := by
  obtain ⟨hlt, content, hholds, hevt⟩ := h.entry evt List.mem_cons_self
  have hnot : evt.id ∉ log.map Processed.id := by
    intro hmem
    rcases (h.logged _ _).mp hmem with ⟨it, hit, hdone⟩ | hnone
    · rw [hholds.item] at hit
      cases hit
      cases hdone
    · cases hnone
  refine ⟨h.valid, fun e he => h.entry e (List.mem_cons_of_mem _ he),
    (List.nodup_cons.mp h.nodup).2, ?_, ?_, fun i j => ?_, fun q hq => ?_, fun q hq => ?_⟩
  · intro i j it hi hj hit hdone
    rcases h.read i j it hi hj hit hdone with hmem | hnone
    · rcases List.mem_cons.mp hmem with heq | hmem
      · exact .inr (congrArg some heq.symm)
      · exact .inl hmem
    · cases hnone
  · rw [List.map_append, List.map_singleton, hid, ← List.concat_eq_append]
    exact h.logNodup.concat hnot
  · rw [List.map_append, List.mem_append, h.logged i j, List.map_singleton, List.mem_singleton, hid,
      or_iff_left (nofun : ¬ none = some (i, j)), Option.some.injEq, eq_comm (a := evt.id)]
  · rcases List.mem_append.mp hq with hq | hq
    · exact h.inRange q hq
    · obtain rfl := List.mem_singleton.mp hq
      rw [Processed.id, EventWrapper.id, Prod.mk.injEq] at hid
      rw [hid.1]
      exact hlt
  · rcases List.mem_append.mp hq with hq | hq
    · exact h.record q hq
    · obtain rfl := List.mem_singleton.mp hq
      rw [Processed.id, EventWrapper.id, Prod.mk.injEq] at hid
      rw [hid.1, hid.2, hreleased, hbytes, hts, hevt]
      exact ⟨hholds.released_le (h.valid _), _, hholds.item, rfl,
        hholds.eventBytes_eq (h.valid _), rfl⟩

theorem finish {i j : ℕ} (h : Accounts size ring ts log live (some (i, j)))
    (hlive : (i, j) ∉ live.map EventWrapper.id) {r : Ring} (hf : (ring i).Finishes r j)
    (hj : ∃ it, (ring i).items[j]? = some it) :
    Accounts size (Function.update ring i r) ts log live none where
  valid i' := by
    by_cases hi : i' = i
    · rw [hi, Function.update_self]
      exact hf.valid
    · rw [Function.update_of_ne hi]
      exact h.valid i'
  entry e he := by
    obtain ⟨hlt, content, hholds, hts⟩ := h.entry e he
    refine ⟨hlt, content, ?_, hts⟩
    by_cases hi : e.bufferIdx = i
    · rw [hi, Function.update_self]
      rw [hi] at hholds
      refine hf.holds _ _ _ (fun heq => hlive ?_) hholds
      exact List.mem_map.mpr ⟨e, he, Prod.ext hi heq⟩
    · rw [Function.update_of_ne hi]
      exact hholds
  nodup := h.nodup
  read i' j' it hlt hnext hit hdone := by
    refine .inl ?_
    by_cases hi : i' = i
    · subst hi
      rw [Function.update_self] at hnext hit
      rw [hf.items] at hit
      rw [hf.next] at hnext
      by_cases hjj : j' = j
      · -- this one is done now
        subst hjj
        rw [List.getElem?_modify_eq] at hit
        obtain ⟨it', -, rfl⟩ := Option.map_eq_some_iff.mp hit
        cases hdone
      · rw [List.getElem?_modify_ne _ _ (Ne.symm hjj)] at hit
        refine (h.read i' j' it hlt hnext hit hdone).resolve_right fun heq => hjj ?_
        exact (Prod.mk.inj (Option.some.inj heq)).2.symm
    · rw [Function.update_of_ne hi] at hnext hit
      refine (h.read i' j' it hlt hnext hit hdone).resolve_right fun heq => hi ?_
      exact (Prod.mk.inj (Option.some.inj heq)).1.symm
  logNodup := h.logNodup
  logged i' j' := by
    rw [h.logged i' j', or_iff_left (nofun : ¬ none = some (i', j'))]
    by_cases hi : i' = i
    · subst hi
      rw [Function.update_self, hf.items]
      by_cases hjj : j' = j
      · subst hjj
        obtain ⟨it, hit⟩ := hj
        refine iff_of_true (.inr rfl) ⟨it.finish, ?_, rfl⟩
        rw [List.getElem?_modify_eq, hit]
        rfl
      · rw [List.getElem?_modify_ne _ _ (Ne.symm hjj), or_iff_left]
        exact fun heq => hjj (Prod.mk.inj (Option.some.inj heq)).2.symm
    · rw [Function.update_of_ne hi, or_iff_left]
      exact fun heq => hi (Prod.mk.inj (Option.some.inj heq)).1.symm
  inRange := h.inRange
  record p hp := by
    obtain ⟨hreleased, it, hit, hcommitted, hbytes, hts⟩ := h.record p hp
    refine ⟨hreleased, ?_⟩
    by_cases hi : p.bufferIdx = i
    · rw [hi, Function.update_self, hf.items, List.getElem?_modify, ← hi, hit]
      refine ⟨if j = p.index then it.finish else it, rfl, ?_, ?_, ?_⟩
      · split_ifs
        · exact hcommitted
        · exact hcommitted
      · split_ifs
        · exact hbytes
        · exact hbytes
      · split_ifs
        · exact hts
        · exact hts
    · rw [Function.update_of_ne hi]
      exact ⟨it, hit, hcommitted, hbytes, hts⟩

theorem extend (h : Accounts size ring ts log live hand) {fresh : ℕ → List Byte → Prop}
    (he : ∀ i, Ring.Extends (fresh i) (ring i) (ring' i)) :
    Accounts size ring' ts log live hand where
  valid i := (he i).valid
  entry e hmem := by
    obtain ⟨hlt, content, hholds, hts⟩ := h.entry e hmem
    exact ⟨hlt, content, (he _).holds _ _ _ hholds, hts⟩
  nodup := h.nodup
  read i j it hi hj hit hdone := by
    rw [(he i).next] at hj
    -- what has been read was there before
    have hlen := hj.trans_le (h.valid i).at.next_le
    have hget := List.getElem?_eq_getElem hlen
    obtain ⟨it', hit', hsame, -⟩ := (he i).grows.old j _ hget
    rw [hit] at hit'
    cases hit'
    exact h.read i j _ hi hj hget (hsame ▸ hdone)
  logNodup := h.logNodup
  logged i j := by
    rw [(he i).grows.done_iff j]
    exact h.logged i j
  inRange := h.inRange
  record p hp := by
    obtain ⟨hreleased, it, hit, hcommitted, hcontent⟩ := h.record p hp
    obtain ⟨it', hit', -, heq⟩ := (he p.bufferIdx).grows.old _ it hit
    exact ⟨hreleased, it, by rw [hit', heq hcommitted], hcommitted, hcontent⟩

/-- A new worker starts with an empty queue and reads again what is not done. -/
theorem restart (h : Accounts size ring ts log live none) :
    Accounts size (fun i => (ring i).init) ts log [] none where
  valid i := ⟨_, _, (h.valid i).at.init_spec.1⟩
  entry := nofun
  nodup := List.nodup_nil
  read i j it _ hj hit hdone := by
    have hinit := (h.valid i).at.init_spec.1
    rw [hinit.next_eq] at hj
    rw [hinit.done_of_lt hj hit] at hdone
    cases hdone
  logNodup := h.logNodup
  logged i j := by
    rw [(h.valid i).at.init_spec.2]
    exact h.logged i j
  inRange := h.inRange
  record p hp := by
    rw [(h.valid p.bufferIdx).at.init_spec.2]
    exact h.record p hp

end Accounts

end Ddprof
