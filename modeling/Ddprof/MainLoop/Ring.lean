import Ddprof.RingBuffer.Perf
import Ddprof.RingBuffer.Producers

/-!
The ring buffers of the worker, of both kinds, behind one interface.

Whatever its kind, a ring buffer is seen as the list of all records that were ever put
into it. Each of them is committed or not, and done or not: a record is done when the
worker has handed it back. The first records have been released to the writer, and all
of these are done. A read skips records that are done, and returns the next one if it
is committed.
-/

namespace Ddprof

open Circular (Byte Format)
open RingBuffer (Layout Found)

structure Item where
  content : List Byte
  committed : Bool
  done : Bool
  deriving DecidableEq, Repr

/-- The worker hands the record back. -/
def Item.finish (it : Item) : Item := { it with done := true }

def Slot.item (s : Slot) : Item := ⟨s.content, !s.busy, s.discarded⟩

inductive Ring where
  | perf (p : PerfRing)
  | mpsc (c : Channel)

namespace Ring

def rb : Ring → RingBuffer
  | perf p => p.rb
  | mpsc c => c.rb

def released : Ring → ℕ
  | perf p => recordFormat.index p.records p.rb.readerPos
  | mpsc c => mpscFormat.index c.slots c.rb.readerPos

def next : Ring → ℕ
  | perf p => recordFormat.index p.records p.rb.intermediateReaderPos
  | mpsc c => mpscFormat.index c.slots c.rb.intermediateReaderPos

def items : Ring → List Item
  | perf p => p.records.mapIdx fun j record => ⟨record, true, decide (j < (perf p).released)⟩
  | mpsc c => c.slots.map Slot.item

def IsPerf : Ring → Prop
  | perf _ => True
  | mpsc _ => False

/-- `perf_rb_read_event` and `mpsc_rb_read_event`. -/
def readEvent : Ring → Option (Ring × Option EventPtr)
  | perf p => some (perf p.readEvent.1, p.readEvent.2)
  | mpsc c => (c.rb.readSample c.rb.writerPos).map fun (rb, buf) =>
    (mpsc { c with rb := rb }, buf.map .data)

/-- `perf_rb_advance`, or `mpsc_rb_advance_if_possible` for the record `j`. -/
def advance : Ring → EventPtr → ℕ → Option Ring
  | perf p, _, _ => some (perf { p with rb := p.rb.advance })
  | mpsc c, .data buf, j => (c.rb.advanceIfPossible buf.data).map fun rb =>
    mpsc { c with rb := rb, slots := c.slots.modify j fun t => { t with discarded := true } }
  | mpsc _, .copy _, _ => none

/-- `rb_init` on a ring buffer that exists already. -/
def init : Ring → Ring
  | perf p => perf { p with rb := p.rb.init, wrapCopy := [] }
  | mpsc c => mpsc { c with rb := c.rb.init }

def eventBytes : Ring → EventPtr → List Byte
  | perf p, ptr => p.eventBytes ptr
  | mpsc c, .data buf => c.rb.bytes buf
  | mpsc _, .copy _ => []

/-- The pointer leads to the record `k`. -/
def Points : Ring → EventPtr → ℕ → Prop
  | perf p, ptr, k => p.Points ptr k
  | mpsc c, ptr, k => ∃ s, c.slots[k]? = some s ∧ ptr = .data (c.rb.sampleBuffer c.slots k s.size)

/-- Of the records, `r` have been released and `k` have been passed. A perf ring buffer has
at most one that has been read and not released. -/
def ValidAt : Ring → ℕ → ℕ → Prop
  | perf p, r, k => p.Inv r k ∧ k ≤ r + 1
  | mpsc c, r, k => c.Inv r ∧ c.rb.intermediateReaderPos = mpscFormat.pos c.slots k ∧ r ≤ k ∧
      k ≤ c.slots.length ∧
      ∀ (j : ℕ) (s : Slot), j < r → c.slots[j]? = some s → s.discarded = true

def Valid (ring : Ring) : Prop := ∃ r k, ring.ValidAt r k

variable {it : Item}

section

variable {ring ring' : Ring} {r k j : ℕ}

theorem ValidAt.released_eq (h : ring.ValidAt r k) : ring.released = r := by
  cases ring with
  | perf p =>
    rw [released, h.1.layout.readerPos]
    exact recordFormat.index_pos h.1.layout.tiled.valid h.1.layout.tiled.released
  | mpsc c =>
    rw [released, h.1.layout.readerPos]
    exact mpscFormat.index_pos h.1.layout.tiled.valid h.1.layout.tiled.released

theorem ValidAt.next_eq (h : ring.ValidAt r k) : ring.next = k := by
  cases ring with
  | perf p =>
    rw [next, h.1.intermediate]
    exact recordFormat.index_pos h.1.layout.tiled.valid h.1.read_le
  | mpsc c =>
    rw [next, h.2.1]
    exact mpscFormat.index_pos h.1.layout.tiled.valid h.2.2.2.1

theorem Valid.at (h : ring.Valid) : ring.ValidAt ring.released ring.next := by
  obtain ⟨r, k, h⟩ := h
  rwa [h.released_eq, h.next_eq]

theorem getElem?_items_perf {p : PerfRing} : (perf p).items[j]? = some it ↔
    ∃ record, p.records[j]? = some record ∧
      it = ⟨record, true, decide (j < (perf p).released)⟩ := by
  rw [items, List.getElem?_mapIdx, Option.map_eq_some_iff]
  simp only [eq_comm]

theorem getElem?_items_mpsc {c : Channel} : (mpsc c).items[j]? = some it ↔
    ∃ s, c.slots[j]? = some s ∧ it = s.item := by
  rw [items, List.getElem?_map, Option.map_eq_some_iff]
  simp only [eq_comm]

theorem ValidAt.released_le (h : ring.ValidAt r k) : r ≤ k := by
  cases ring with
  | perf p => exact h.1.released_le
  | mpsc c => exact h.2.2.1

theorem ValidAt.next_le (h : ring.ValidAt r k) : k ≤ ring.items.length := by
  cases ring with
  | perf p => simpa [items] using h.1.read_le
  | mpsc c => simpa [items] using h.2.2.2.1

theorem ValidAt.done_of_lt (h : ring.ValidAt r k) (hj : j < r)
    (hit : ring.items[j]? = some it) : it.done = true := by
  cases ring with
  | perf p =>
    obtain ⟨record, -, rfl⟩ := getElem?_items_perf.mp hit
    rw [h.released_eq]
    exact decide_eq_true hj
  | mpsc c =>
    obtain ⟨s, hs, rfl⟩ := getElem?_items_mpsc.mp hit
    exact h.2.2.2.2 j s hj hs

/-- The ring buffer is empty when all records have been released. -/
theorem ValidAt.readerPos_eq_iff (h : ring.ValidAt r k) :
    ring.rb.readerPos = ring.rb.writerPos ↔ r = ring.items.length := by
  cases ring with
  | perf p =>
    have hlayout := h.1.layout
    have hlen : (perf p).items.length = p.records.length := by simp [items]
    rw [rb, hlayout.readerPos, hlayout.writerPos, hlen]
    exact ⟨hlayout.tiled.pos_inj hlayout.tiled.released le_rfl, fun heq => by rw [heq]⟩
  | mpsc c =>
    have hlayout := h.1.layout
    have hlen : (mpsc c).items.length = c.slots.length := by simp [items]
    rw [rb, hlayout.readerPos, hlayout.writerPos, hlen]
    exact ⟨hlayout.tiled.pos_inj hlayout.tiled.released le_rfl, fun heq => by rw [heq]⟩

/-- What a perf ring buffer has not released is not done. -/
theorem ValidAt.not_done_of_perf (h : ring.ValidAt r k) (hperf : ring.IsPerf)
    (hj : r ≤ j) (hit : ring.items[j]? = some it) : it.done = false := by
  cases ring with
  | perf p =>
    obtain ⟨record, -, rfl⟩ := getElem?_items_perf.mp hit
    rw [h.released_eq]
    exact decide_eq_false (not_lt.mpr hj)
  | mpsc c => exact hperf.elim

theorem ValidAt.eventBytes_eq (h : ring.ValidAt r k) {ptr : EventPtr} (hj : r ≤ j)
    (hit : ring.items[j]? = some it) (hptr : ring.Points ptr j) :
    ring.eventBytes ptr = it.content := by
  cases ring with
  | perf p =>
    obtain ⟨record, hrec, rfl⟩ := getElem?_items_perf.mp hit
    exact h.1.eventBytes_of_points hj hrec hptr
  | mpsc c =>
    obtain ⟨s, hs, rfl⟩ := getElem?_items_mpsc.mp hit
    obtain ⟨s', hs', rfl⟩ := hptr
    rw [hs] at hs'
    cases hs'
    exact h.1.layout.bytes_sampleBuffer hj hs

end

/-! ### Operations of the worker -/

structure Skips (items : List Item) (k k' : ℕ) : Prop where
  le : k ≤ k'
  le_length : k' ≤ items.length
  done : ∀ (j : ℕ) (it : Item), k ≤ j → j < k' → items[j]? = some it → it.done = true

/-- What a read finds in a ring buffer of which `k` records have been passed, and how many
have been passed afterwards. -/
inductive Finds (ring : Ring) (items : List Item) (k : ℕ) : Option EventPtr → ℕ → Prop
  | nothing {k' : ℕ} (hskips : Skips items k k')
      (hstop : ∀ it, items[k']? = some it → it.committed = false ∧ it.done = false) :
      Finds ring items k none k'
  | event {j : ℕ} {it : Item} {ptr : EventPtr} (hskips : Skips items k j)
      (hit : items[j]? = some it) (hcommitted : it.committed = true) (hdone : it.done = false)
      (hptr : ring.Points ptr j) : Finds ring items k (some ptr) (j + 1)

section

variable {ring : Ring} {r k j : ℕ}

theorem skips_refl {items : List Item} (hk : k ≤ items.length) : Skips items k k :=
  ⟨le_rfl, hk, fun j it hj hj' => absurd hj' (by omega)⟩

/-- A read succeeds. A perf ring buffer is read when nothing is in flight. -/
theorem ValidAt.readEvent_spec (h : ring.ValidAt r k) (hfree : ring.IsPerf → k = r) :
    ∃ ring' ptr k', ring.readEvent = some (ring', ptr) ∧ ring'.ValidAt r k' ∧
      ring'.items = ring.items ∧ ring'.IsPerf = ring.IsPerf ∧ Finds ring' ring.items k ptr k' ∧
      (¬ ring.IsPerf → ∀ ptr' i, ring.Points ptr' i → ring'.Points ptr' i) := by
  cases ring with
  | perf p =>
    obtain rfl := hfree trivial
    obtain ⟨hinv, -⟩ := h
    have hlen : (perf p).items.length = p.records.length := by simp [items]
    rcases hinv.readEvent_spec with ⟨hk, hread⟩ | ⟨p', ptr, hk, hread, hinv', hptr, hrec, hreader⟩
    · refine ⟨perf p, none, k, by rw [readEvent, hread], ⟨hinv, by omega⟩, rfl, rfl, ?_,
        fun _ _ _ hp => hp⟩
      refine .nothing (skips_refl (by omega)) fun it hit => ?_
      have := (List.getElem?_eq_some_iff.mp hit).1
      omega
    · have hitems : (perf p').items = (perf p).items := by
        rw [items, items, released, released, hrec, hreader]
      refine ⟨perf p', some ptr, k + 1, by rw [readEvent, hread], ⟨hinv', le_rfl⟩, hitems, rfl, ?_,
        fun hnot => absurd trivial hnot⟩
      have hget := List.getElem?_eq_getElem hk
      have hvalid : (perf p).ValidAt k k := ⟨hinv, by omega⟩
      refine .event (skips_refl (by omega)) (getElem?_items_perf.mpr ⟨_, hget, rfl⟩) rfl ?_ hptr
      exact hvalid.not_done_of_perf trivial le_rfl (getElem?_items_perf.mpr ⟨_, hget, rfl⟩)
  | mpsc c =>
    obtain ⟨hinv, hinter, hrk, hk, hreleased⟩ := h
    obtain ⟨res, hres, hfound⟩ := hinv.layout.readSample_spec hinter hrk hk le_rfl
    rw [← hinv.layout.writerPos] at hres
    have hlen : (mpsc c).items.length = c.slots.length := by simp [items]
    have hskips : ∀ k', k ≤ k' → k' ≤ c.slots.length → (∀ (j : ℕ) (s : Slot), k ≤ j → j < k' →
        c.slots[j]? = some s → s.busy = false ∧ s.discarded = true) →
        Skips (mpsc c).items k k' := fun k' hle hle' hall =>
      ⟨hle, by omega, fun j it hj hj' hit => by
        obtain ⟨s, hs, rfl⟩ := getElem?_items_mpsc.mp hit
        exact (hall j s hj hj' hs).2⟩
    cases hfound with
    | nothing k' hle hle' hall hstop =>
      refine ⟨mpsc { c with rb := { c.rb with
          intermediateReaderPos := mpscFormat.pos c.slots k' } }, none, k', ?_,
        ⟨hinv.setIntermediate _, rfl, hrk.trans hle, hle', hreleased⟩, rfl, rfl,
        .nothing (hskips k' hle hle' hall) fun it hit => ?_, fun _ _ _ hp => hp⟩
      · rw [readEvent, hres]
        rfl
      · obtain ⟨s, hs, rfl⟩ := getElem?_items_mpsc.mp hit
        rcases hstop with rfl | ⟨t, ht, hbusy⟩
        · simp at hs
        · rw [hs] at ht
          cases ht
          refine ⟨by simp [Slot.item, hbusy], ?_⟩
          by_contra hdone
          rw [hinv.discarded k' s hs (by simpa [Slot.item] using hdone)] at hbusy
          cases hbusy
    | sample k' t hle hlt hall ht hb hd =>
      refine ⟨mpsc { c with rb := { c.rb with
          intermediateReaderPos := mpscFormat.pos c.slots (k' + 1) } },
        some (.data (c.rb.sampleBuffer c.slots k' t.size)), k' + 1, ?_,
        ⟨hinv.setIntermediate _, rfl, by omega, hlt, hreleased⟩, rfl, rfl,
        .event (hskips k' hle hlt.le hall) (getElem?_items_mpsc.mpr ⟨t, ht, rfl⟩) ?_ hd
          ⟨t, ht, rfl⟩, fun _ _ _ hp => hp⟩
      · rw [readEvent, hres]
        rfl
      · simp [Slot.item, hb]

/-- A perf ring buffer finishes its records by releasing them. -/
theorem ValidAt.items_advance_perf {p : PerfRing} {k' : ℕ} (h : (perf p).ValidAt j k)
    (h' : (perf { p with rb := p.rb.advance }).ValidAt (j + 1) k') :
    (perf { p with rb := p.rb.advance }).items = (perf p).items.modify j Item.finish := by
  refine List.ext_getElem? fun i => ?_
  rw [List.getElem?_modify, items, items, List.getElem?_mapIdx, List.getElem?_mapIdx,
    h.released_eq, h'.released_eq]
  cases hi : p.records[i]? with
  | none => simp
  | some record =>
    simp only [Option.map_some, Option.map_eq_map, Option.some.injEq]
    by_cases hij : j = i
    · simp [hij, Item.finish]
    · rw [if_neg hij]
      simp only [Item.mk.injEq, true_and, decide_eq_decide]
      omega

theorem items_discard_mpsc (c : Channel) (rb : RingBuffer) (j : ℕ) :
    (mpsc { c with
      rb := rb
      slots := c.slots.modify j fun t => { t with discarded := true } }).items =
      (mpsc c).items.modify j Item.finish := by
  refine List.ext_getElem? fun i => ?_
  rw [List.getElem?_modify, items, items, List.getElem?_map, List.getElem?_map,
    List.getElem?_modify]
  cases hi : c.slots[i]? with
  | none => simp
  | some u =>
    by_cases hij : j = i
    · simp [hij, Slot.item, Item.finish]
    · simp [hij]

/-- Handing back a record that has been read and is not done marks it, and nothing that
has not been passed is released: the release stops at the latest at the record `m`. It stops
at a record that is not done. -/
theorem ValidAt.advance_spec (h : ring.ValidAt r k) {ptr : EventPtr} {m : ℕ}
    (hj : j < k) (hit : ring.items[j]? = some it) (hcommitted : it.committed = true)
    (hdone : it.done = false) (hptr : ring.Points ptr j) (hm : m ≤ k) (hmj : m ≠ j)
    (hstop : ∀ it, ring.items[m]? = some it → it.done = false) :
    ∃ ring' r', ring.advance ptr j = some ring' ∧ ring'.ValidAt r' k ∧ r ≤ r' ∧
      ring'.items = ring.items.modify j Item.finish ∧ ring'.IsPerf = ring.IsPerf ∧
      (ring.IsPerf → r' = k) ∧ (∀ it, ring'.items[r']? = some it → it.done = false) ∧
      (¬ ring.IsPerf → ∀ ptr' i, ring.Points ptr' i → ring'.Points ptr' i) := by
  have hrj : r ≤ j := by
    by_contra hlt
    rw [h.done_of_lt (by omega) hit] at hdone
    cases hdone
  cases ring with
  | perf p =>
    have hvalid := h
    obtain ⟨hinv, hone⟩ := h
    obtain rfl : j = r := by omega
    obtain rfl : k = j + 1 := by omega
    have hadv := hinv.advance
    have hvalid' : (perf { p with rb := p.rb.advance }).ValidAt (j + 1) (j + 1) :=
      ⟨hadv, by omega⟩
    exact ⟨_, j + 1, rfl, hvalid', by omega, hvalid.items_advance_perf hvalid', rfl, fun _ => rfl,
      fun _ => hvalid'.not_done_of_perf trivial le_rfl, fun hnot => absurd trivial hnot⟩
  | mpsc c =>
    obtain ⟨hinv, hinter, hrk, hk, hreleased⟩ := h
    obtain ⟨t, ht, rfl⟩ := getElem?_items_mpsc.mp hit
    obtain ⟨t', ht', rfl⟩ := hptr
    rw [ht] at ht'
    cases ht'
    have hb : t.busy = false := by simpa [Slot.item] using hcommitted
    obtain ⟨rb, r', hrb, hlayout, hrr, hall, hfirst, hinter', horder⟩ :=
      hinv.layout.advanceIfPossible_spec (n := t.size) hrj ht (by
        rintro x u hu (hdu | rfl)
        · exact hinv.discarded x u hu hdu
        · rw [ht] at hu
          cases hu
          exact hb)
    have hmarks : Channel.Marks c.slots (c.slots.set j { t with discarded := true }) :=
      .set hinv ht hb
    have hlt : j < c.slots.length := (List.getElem?_eq_some_iff.mp ht).1
    -- whatever is released is done, or is the record itself
    have hpassed : ∀ (x : ℕ) (u : Slot), x < r' → c.slots[x]? = some u →
        u.discarded = true ∨ x = j := by
      intro x u hx hu
      rcases Nat.lt_or_ge x r with hxr | hxr
      · exact .inl (hreleased x u hxr hu)
      · exact hall x u hxr hx hu
    have hr'm : r' ≤ m := by
      by_contra hgt
      have hlen := hlayout.tiled.released
      rw [List.length_set] at hlen
      have hget := List.getElem?_eq_getElem (show m < c.slots.length by omega)
      rcases hpassed m _ (by omega) hget with hdm | rfl
      · rw [show c.slots[m].discarded = c.slots[m].item.done from rfl,
          hstop _ (getElem?_items_mpsc.mpr ⟨_, hget, rfl⟩)] at hdm
        cases hdm
      · exact hmj rfl
    refine ⟨mpsc { c with
        rb := rb
        slots := c.slots.modify j fun t => { t with discarded := true } }, r',
      by rw [advance, hrb]; rfl, ⟨?_, ?_, by omega, ?_, fun x u hx hu => ?_⟩, hrr,
      items_discard_mpsc c rb j, rfl, fun hperf => hperf.elim, fun it hit => ?_,
      fun _ ptr' i hp => ?_⟩
    · rw [Channel.modify_eq_set ht]
      refine hinv.reader hmarks hlayout horder hrr fun x u hu hbu => ?_
      by_contra hlt'
      rcases hpassed x u (by omega) hu with hdu | rfl
      · rw [hinv.discarded x u hu hdu] at hbu
        cases hbu
      · rw [ht] at hu
        cases hu
        rw [hb] at hbu
        cases hbu
    · dsimp only
      rw [Channel.modify_eq_set ht, hmarks.pos, hinter']
      exact hinter
    · dsimp only
      rw [List.length_modify]
      exact hk
    · rw [List.getElem?_modify] at hu
      obtain ⟨u', hu', rfl⟩ := Option.map_eq_some_iff.mp hu
      split
      · rfl
      · rename_i hne
        exact (hpassed x u' hx hu').resolve_right (Ne.symm hne)
    · obtain ⟨u, hu, rfl⟩ := getElem?_items_mpsc.mp hit
      dsimp only at hu
      rw [List.getElem?_modify] at hu
      obtain ⟨u', hu', rfl⟩ := Option.map_eq_some_iff.mp hu
      obtain ⟨hnot, hne⟩ := hfirst u' hu'
      rw [if_neg hne.symm]
      exact hnot
    · obtain ⟨u, hu, rfl⟩ := hp
      refine ⟨(if j = i then { u with discarded := true } else u), ?_, ?_⟩
      · rw [List.getElem?_modify, hu]
        rfl
      · rw [Channel.modify_eq_set ht, hmarks.sampleBuffer horder]
        split <;> rfl

theorem isPerf_init (ring : Ring) : ring.init.IsPerf = ring.IsPerf := by
  cases ring with
  | perf p => rfl
  | mpsc c => rfl

theorem ValidAt.init_spec (h : ring.ValidAt r k) :
    ring.init.ValidAt r r ∧ ring.init.items = ring.items := by
  cases ring with
  | perf p => exact ⟨⟨h.1.init [], by omega⟩, rfl⟩
  | mpsc c =>
    obtain ⟨hinv, hinter, hrk, hk, hreleased⟩ := h
    exact ⟨⟨hinv.setIntermediate _, hinv.layout.readerPos, le_rfl, hrk.trans hk, hreleased⟩, rfl⟩

end

/-! ### Operations of the writers -/

/-- What writers can do to the records: they append new ones and commit them. `fresh` holds
of the content of what is being committed. -/
structure Grows (fresh : List Byte → Prop) (items items' : List Item) : Prop where
  old : ∀ (j : ℕ) (it : Item), items[j]? = some it →
    ∃ it', items'[j]? = some it' ∧ it'.done = it.done ∧ (it.committed = true → it' = it)
  added : ∀ (j : ℕ) (it' : Item), items.length ≤ j → items'[j]? = some it' → it'.done = false
  committed : ∀ (j : ℕ) (it' : Item), items'[j]? = some it' → it'.committed = true →
    items[j]? = some it' ∨ fresh it'.content

/-- A writer of the ring buffer takes a step that leaves the worker where it is. -/
structure Written (fresh : List Byte → Prop) (ring ring' : Ring) (r k : ℕ) : Prop where
  valid : ring'.ValidAt r k
  isPerf : ring'.IsPerf = ring.IsPerf
  grows : Grows fresh ring.items ring'.items
  points : ∀ ptr i, ring.Points ptr i → ring'.Points ptr i

section

variable {r k : ℕ}

theorem ValidAt.kernelWrite {p : PerfRing} {record : List Byte} (h : (perf p).ValidAt r k)
    (hvalid : ValidRecord record)
    (hspace : p.rb.writerPos + record.length ≤ p.rb.readerPos + p.rb.mask)
    (hbound : p.rb.writerPos + record.length < 2 ^ 64) :
    Written (· = record) (perf p)
      (perf { p with rb := p.rb.kernelWrite record, records := p.records ++ [record] }) r k := by
  have hvalid' : (perf { p with
      rb := p.rb.kernelWrite record
      records := p.records ++ [record] }).ValidAt r k :=
    ⟨h.1.kernelWrite hvalid hspace hbound, h.2⟩
  have hlen : (perf p).items.length = p.records.length := by simp [items]
  have hread := h.1.released_le.trans h.1.read_le
  have hitems : (perf { p with
      rb := p.rb.kernelWrite record
      records := p.records ++ [record] }).items = (perf p).items ++ [⟨record, true, false⟩] := by
    rw [items, items, hvalid'.released_eq, h.released_eq, List.mapIdx_append]
    simp only [List.mapIdx_cons, List.mapIdx_nil, Nat.zero_add]
    rw [decide_eq_false (by omega)]
  refine ⟨hvalid', rfl, ?_, fun ptr i hp => hp.kernelWrite record⟩
  rw [hitems]
  refine ⟨fun j it hit => ?_, fun j it' hj hit' => ?_, fun j it' hit' _ => ?_⟩
  · refine ⟨it, ?_, rfl, fun _ => rfl⟩
    rw [List.getElem?_append_left (List.getElem?_eq_some_iff.mp hit).1]
    exact hit
  · rw [List.getElem?_append_right hj] at hit'
    rw [List.mem_singleton.mp (List.mem_of_getElem? hit')]
  · rcases Nat.lt_or_ge j (perf p).items.length with hj | hj
    · rw [List.getElem?_append_left hj] at hit'
      exact .inl hit'
    · rw [List.getElem?_append_right hj] at hit'
      rw [List.mem_singleton.mp (List.mem_of_getElem? hit')]
      exact .inr rfl

/-- The sample that a producer is about to publish has the bytes. -/
def Publishes (c : Channel) (w : ℕ) (a : ProducerAction) (content : List Byte) : Prop :=
  a = .publish ∧ ∃ i buf s, (c.writers w).phase = .writing i buf ∧ c.slots[i]? = some s ∧
    s.content = content

theorem ValidAt.produce {c c' : Channel} {w : ℕ} {a : ProducerAction} (h : (mpsc c).ValidAt r k)
    (hok : c.Admissible w a) (hstep : c.produce w a = some c') :
    Written (Publishes c w a) (mpsc c) (mpsc c') r k := by
  obtain ⟨hinv, hinter, hrk, hk, hreleased⟩ := h
  obtain ⟨hinv', hev, horder, hreader, hinter'⟩ := hinv.produce hok hstep
  refine ⟨⟨hinv', ?_, hrk, hk.trans hev.length_le, fun j s' hj hs' => ?_⟩, rfl,
    ⟨fun j it hit => ?_, fun j it' hj hit' => ?_, fun j it' hit' hcommitted => ?_⟩,
    fun ptr i hp => ?_⟩
  · rw [hinter', hev.pos k hk]
    exact hinter
  · have hlt : j < c.slots.length := by omega
    exact (hev.discarded_iff hs').mpr ⟨_, List.getElem?_eq_getElem hlt,
      hreleased j _ hj (List.getElem?_eq_getElem hlt)⟩
  · obtain ⟨s, hs, rfl⟩ := getElem?_items_mpsc.mp hit
    obtain ⟨s', hs', -, hd⟩ := hev.old j s hs
    refine ⟨s'.item, getElem?_items_mpsc.mpr ⟨s', hs', rfl⟩, hd, fun hcommitted => ?_⟩
    have hs'' := hev.committed j s hs (by simpa [Slot.item] using hcommitted)
    rw [hs'] at hs''
    cases hs''
    rfl
  · obtain ⟨s', hs', rfl⟩ := getElem?_items_mpsc.mp hit'
    exact hev.fresh j s' (by simpa [items] using hj) hs'
  · obtain ⟨s', hs', rfl⟩ := getElem?_items_mpsc.mp hit'
    have hb : s'.busy = false := by simpa [Slot.item] using hcommitted
    rcases (Channel.acts_of_produce hstep).committed hs' hb with
      ⟨u, hu, hub⟩ | ⟨rfl, buf, u, hw, hu, hcontent, -⟩
    · have hu' := hev.committed j u hu hub
      rw [hs'] at hu'
      cases hu'
      exact .inl (getElem?_items_mpsc.mpr ⟨s', hu, rfl⟩)
    · exact .inr ⟨rfl, j, buf, u, hw, hu, hcontent.symm⟩
  · obtain ⟨s, hs, rfl⟩ := hp
    obtain ⟨s', hs', hsize, -⟩ := hev.old i s hs
    refine ⟨s', hs', ?_⟩
    rw [hsize, hev.sampleBuffer horder (List.getElem?_eq_some_iff.mp hs).1.le]

end

end Ring

end Ddprof
