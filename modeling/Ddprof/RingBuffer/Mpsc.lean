import Ddprof.RingBuffer.Producers

/-!
Several producers and one reader on a ring buffer.

The reader takes a snapshot of `writer_pos`, reads samples with
`mpsc_rb_read_sample`, keeps them as long as it likes, and hands them back with
`mpsc_rb_advance_if_possible` in any order. Whatever the interleaving, it gets the
samples in the order of their reservations, each once and with the bytes that its
producer wrote, and no producer touches a sample that has not been handed back.
-/

namespace Ddprof

open Circular (Byte)
open RingBuffer (Layout Found)

structure Mpsc where
  channel : Channel
  head : ℕ := 0
  /-- The buffers that the reader has not handed back, each with the number of samples
  returned before it. -/
  held : List (ℕ × Buffer) := []
  -- The bytes of each sample when it was returned.
  returned : List (List Byte) := []

inductive MpscLabel where
  | producer (w : ℕ) (a : ProducerAction)
  | loadHead
  | readSample
  | advanceIfPossible (j : ℕ)
  deriving DecidableEq, Repr

namespace Mpsc

def setRingBuffer (s : Mpsc) (rb : RingBuffer) : Mpsc :=
  { s with channel := { s.channel with rb := rb } }

def readSample (s : Mpsc) : Option Mpsc :=
  (s.channel.rb.readSample s.head).map fun (rb, buf) =>
    match buf with
    | none => s.setRingBuffer rb
    | some buf =>
      { s.setRingBuffer rb with
        held := s.held ++ [(s.returned.length, buf)]
        returned := s.returned ++ [rb.bytes buf] }

/-- The reader hands back the `j`-th buffer that it holds. -/
def advanceIfPossible (s : Mpsc) (j : ℕ) : Option Mpsc :=
  s.held[j]?.bind fun (i, buf) =>
    (s.channel.rb.advanceIfPossible buf.data).map fun rb =>
      { s with
        channel := { s.channel with
          rb := rb
          slots := s.channel.slots.modify i fun t => { t with discarded := true } }
        held := s.held.eraseIdx j }

def step (s : Mpsc) : MpscLabel → Option Mpsc
  | .producer w a => (s.channel.produce w a).map fun c => { s with channel := c }
  | .loadHead => some { s with head := s.channel.rb.writerPos }
  | .readSample => s.readSample
  | .advanceIfPossible j => s.advanceIfPossible j

def Admissible (s : Mpsc) : MpscLabel → Prop
  | .producer w a => s.channel.Admissible w a
  | _ => True

instance (s : Mpsc) : DecidablePred s.Admissible := by
  intro l
  cases l <;> unfold Admissible <;> infer_instance

def init (order : ℕ) (data : ℕ → Byte) (areas : ℕ → ℕ) : Mpsc where
  channel := .init order data areas

/-- The reader has read as many samples as it has returned, and only those can have
been handed back; those that have been released have been handed back. -/
structure Inv (s : Mpsc) (r hd : ℕ) : Prop where
  channel : s.channel.Inv r
  head : s.head = mpscFormat.pos s.channel.slots hd
  head_le : hd ≤ s.channel.slots.length
  intermediate : s.channel.rb.intermediateReaderPos =
    mpscFormat.pos s.channel.slots s.returned.length
  returned_le : s.returned.length ≤ hd
  returned : ∀ (i : ℕ) (bs : List Byte), s.returned[i]? = some bs →
    ∃ t : Slot, s.channel.slots[i]? = some t ∧ t.busy = false ∧ t.content = bs
  held : ∀ i buf, (i, buf) ∈ s.held → ∃ t, s.channel.slots[i]? = some t ∧ t.busy = false ∧
    t.discarded = false ∧ buf = s.channel.rb.sampleBuffer s.channel.slots i t.size
  nodup : (s.held.map Prod.fst).Nodup
  discarded : ∀ (i : ℕ) (t : Slot), s.channel.slots[i]? = some t → t.discarded = true →
    i < s.returned.length
  released : ∀ (i : ℕ) (t : Slot), i < r → s.channel.slots[i]? = some t → t.discarded = true
  held_lt : ∀ i buf, (i, buf) ∈ s.held → i < s.returned.length

section Step

variable {s s' : Mpsc} {r hd : ℕ}

theorem Inv.released_le (h : s.Inv r hd) : r ≤ s.returned.length := by
  rcases Nat.eq_zero_or_pos r with rfl | hr
  · exact Nat.zero_le _
  · have hlen := h.channel.layout.tiled.released
    have hget : s.channel.slots[r - 1]? = some s.channel.slots[r - 1] :=
      List.getElem?_eq_getElem (by omega)
    have := h.discarded _ _ hget (h.released _ _ (by omega) hget)
    omega

/-- A sample that has not been handed back has not been released. -/
theorem Inv.le_of_not_discarded (h : s.Inv r hd) {i : ℕ} {t : Slot}
    (hi : s.channel.slots[i]? = some t) (ht : t.discarded = false) : r ≤ i := by
  by_contra hlt
  rw [h.released i t (by omega) hi] at ht
  cases ht

theorem Inv.producer (h : s.Inv r hd) {w : ℕ} {a : ProducerAction} {c : Channel}
    (hok : s.channel.Admissible w a) (hstep : s.channel.produce w a = some c) :
    Inv { s with channel := c } r hd := by
  obtain ⟨hinv, hev, horder, -, hinter⟩ := h.channel.produce hok hstep
  have hk : s.returned.length ≤ s.channel.slots.length := h.returned_le.trans h.head_le
  refine ⟨hinv, ?_, h.head_le.trans hev.length_le, ?_, h.returned_le, fun i bs hbs => ?_,
    fun i buf hbuf => ?_, h.nodup, fun i t ht hd => ?_, fun i t hi ht => ?_, h.held_lt⟩
  · rw [hev.pos _ h.head_le]
    exact h.head
  · rw [hev.pos _ hk, hinter]
    exact h.intermediate
  · obtain ⟨t, ht, hb, hcontent⟩ := h.returned i bs hbs
    exact ⟨t, hev.committed i t ht hb, hb, hcontent⟩
  · obtain ⟨t, ht, hb, hd, hbuf'⟩ := h.held i buf hbuf
    refine ⟨t, hev.committed i t ht hb, hb, hd, ?_⟩
    rw [hev.sampleBuffer horder (List.getElem?_eq_some_iff.mp ht).1.le]
    exact hbuf'
  · obtain ⟨u, hu, hdu⟩ := (hev.discarded_iff ht).mp hd
    exact h.discarded i u hu hdu
  · have hlt := hi.trans_le h.channel.layout.tiled.released
    refine (hev.discarded_iff ht).mpr ⟨_, List.getElem?_eq_getElem hlt, ?_⟩
    exact h.released i _ hi (List.getElem?_eq_getElem hlt)

theorem Inv.loadHead (h : s.Inv r hd) :
    Inv { s with head := s.channel.rb.writerPos } r s.channel.slots.length :=
  ⟨h.channel, h.channel.layout.writerPos, le_rfl, h.intermediate, h.returned_le.trans h.head_le,
    h.returned, h.held, h.nodup, h.discarded, h.released, h.held_lt⟩

/-- A read finds the first sample that has not been returned, or nothing when it is
busy or beyond the head. -/
theorem Inv.found (h : s.Inv r hd) :
    ∃ res, s.channel.rb.readSample s.head = some res ∧
      (res = (s.channel.rb, none) ∧ (s.returned.length = hd ∨
          ∃ t, s.channel.slots[s.returned.length]? = some t ∧ t.busy = true) ∨
        ∃ t, s.channel.slots[s.returned.length]? = some t ∧ t.busy = false ∧
          t.discarded = false ∧ s.returned.length < hd ∧
          res = ({ s.channel.rb with
              intermediateReaderPos := mpscFormat.pos s.channel.slots (s.returned.length + 1) },
            some (s.channel.rb.sampleBuffer s.channel.slots s.returned.length t.size))) := by
  obtain ⟨res, hres, hfound⟩ := h.channel.layout.readSample_spec h.intermediate h.released_le
    h.returned_le h.head_le
  rw [← h.head] at hres
  refine ⟨res, hres, ?_⟩
  -- nothing that has not been returned has been discarded, so the read skips nothing
  have hskip : ∀ k', s.returned.length ≤ k' → k' ≤ hd → (∀ (j : ℕ) (t : Slot),
      s.returned.length ≤ j → j < k' → s.channel.slots[j]? = some t →
        t.busy = false ∧ t.discarded = true) → k' = s.returned.length := by
    intro k' hk hk' hall
    by_contra hne
    have hlen := h.head_le
    have hget : s.channel.slots[s.returned.length]? = some s.channel.slots[s.returned.length] :=
      List.getElem?_eq_getElem (by omega)
    exact absurd (h.discarded _ _ hget (hall _ _ le_rfl (by omega) hget).2) (Nat.lt_irrefl _)
  cases hfound with
  | nothing k' hk hk' hall hstop =>
    obtain rfl := hskip k' hk hk' hall
    rw [← h.intermediate]
    exact .inl ⟨rfl, hstop⟩
  | sample k' t hk hk' hall ht hb hd' =>
    obtain rfl := hskip k' hk hk'.le hall
    exact .inr ⟨t, ht, hb, hd', hk', rfl⟩

theorem Inv.readSample (h : s.Inv r hd) (hstep : s.readSample = some s') : s'.Inv r hd := by
  obtain ⟨res, hres, hcases⟩ := h.found
  rw [Mpsc.readSample, hres] at hstep
  rcases hcases with ⟨rfl, -⟩ | ⟨t, ht, hb, hd', hlt, rfl⟩
  · cases hstep
    exact h
  · cases hstep
    have hr := h.le_of_not_discarded ht hd'
    have hlen : ∀ b : List Byte, (s.returned ++ [b]).length = s.returned.length + 1 := by simp
    refine ⟨h.channel.setIntermediate _, h.head, h.head_le, ?_, ?_, fun i bs hbs => ?_,
      fun i buf hbuf => ?_, ?_, fun i u hu hdu => ?_, h.released, fun i buf hbuf => ?_⟩
    · rw [hlen]
      rfl
    · rw [hlen]
      exact hlt
    · rcases Nat.lt_or_ge i s.returned.length with hi | hi
      · rw [List.getElem?_append_left hi] at hbs
        exact h.returned i bs hbs
      · have hi' := (List.getElem?_eq_some_iff.mp hbs).1
        rw [hlen] at hi'
        obtain rfl : i = s.returned.length := by omega
        refine ⟨t, ht, hb, ?_⟩
        rw [List.getElem?_append_right le_rfl, Nat.sub_self] at hbs
        cases hbs
        exact (h.channel.layout.bytes_sampleBuffer hr ht).symm
    · rcases List.mem_append.mp hbuf with hbuf | hbuf
      · exact h.held i buf hbuf
      · cases List.mem_singleton.mp hbuf
        exact ⟨t, ht, hb, hd', rfl⟩
    · rw [List.map_append, List.nodup_append]
      refine ⟨h.nodup, List.nodup_singleton _, fun i hi j hj => ?_⟩
      obtain ⟨⟨i', buf⟩, hmem, rfl⟩ := List.mem_map.mp hi
      rw [List.mem_singleton.mp hj]
      exact (h.held_lt i' buf hmem).ne
    · rw [hlen]
      exact Nat.lt_succ_of_lt (h.discarded i u hu hdu)
    · rw [hlen]
      rcases List.mem_append.mp hbuf with hbuf | hbuf
      · exact Nat.lt_succ_of_lt (h.held_lt i buf hbuf)
      · cases List.mem_singleton.mp hbuf
        exact Nat.lt_succ_self _

/-- The other buffers that the reader holds belong to other samples. -/
theorem Inv.ne_of_mem_eraseIdx (h : s.Inv r hd) {j i i' : ℕ} {buf buf' : Buffer}
    (hj : s.held[j]? = some (i, buf)) (hmem : (i', buf') ∈ s.held.eraseIdx j) : i' ≠ i := by
  obtain ⟨hlt, hget⟩ := List.getElem?_eq_some_iff.mp
    (show (s.held.map Prod.fst)[j]? = some i by simp [hj])
  have herase := h.nodup.erase_getElem j hlt
  have hnot := h.nodup.not_mem_erase (a := i)
  rw [hget] at herase
  rw [herase, List.eraseIdx_map] at hnot
  rintro rfl
  exact hnot (List.mem_map.mpr ⟨_, hmem, rfl⟩)

theorem Inv.advanceIfPossible (h : s.Inv r hd) {j : ℕ} (hstep : s.advanceIfPossible j = some s') :
    ∃ r', s'.Inv r' hd := by
  obtain ⟨⟨i, buf⟩, hj, hstep⟩ := Option.bind_eq_some_iff.mp hstep
  have hmem : (i, buf) ∈ s.held := List.mem_of_getElem? hj
  obtain ⟨t, ht, hb, hdt, rfl⟩ := h.held i buf hmem
  have hr := h.le_of_not_discarded ht hdt
  obtain ⟨rb, r', hrb, hlayout, hrr, hall, -, hinter, horder⟩ :=
    h.channel.layout.advanceIfPossible_spec (n := t.size) hr ht (by
      rintro x u hu (hdu | rfl)
      · exact h.channel.discarded x u hu hdu
      · rw [ht] at hu
        cases hu
        exact hb)
  simp only [hrb, Option.map_some, Channel.modify_eq_set ht] at hstep
  cases hstep
  have hm : Channel.Marks s.channel.slots (s.channel.slots.set i { t with discarded := true }) :=
    .set h.channel ht hb
  have hlt : i < s.channel.slots.length := (List.getElem?_eq_some_iff.mp ht).1
  have hold : ∀ x u, (s.channel.slots.set i { t with discarded := true })[x]? = some u →
      x = i ∧ u.discarded = true ∨ s.channel.slots[x]? = some u := by
    intro x u hu
    by_cases hix : i = x
    · subst hix
      rw [List.getElem?_set_self hlt] at hu
      cases hu
      exact .inl ⟨rfl, rfl⟩
    · rw [List.getElem?_set_ne hix] at hu
      exact .inr hu
  refine ⟨r', h.channel.reader hm hlayout horder hrr fun x u hu hbu => ?_, ?_, ?_, ?_,
    h.returned_le, fun x bs hbs => ?_, fun x buf' hbuf => ?_, ?_, fun x u hu hdu => ?_,
    fun x u hx hu => ?_, fun x buf' hbuf => h.held_lt x buf' (List.mem_of_mem_eraseIdx hbuf)⟩
  · by_contra hlt'
    rcases hall x u (h.channel.busy x u hu hbu).1 (by omega) hu with hdu | rfl
    · rw [h.channel.discarded x u hu hdu] at hbu
      cases hbu
    · rw [ht] at hu
      cases hu
      rw [hb] at hbu
      cases hbu
  · rw [hm.pos]
    exact h.head
  · exact h.head_le.trans_eq hm.length.symm
  · rw [hm.pos, hinter]
    exact h.intermediate
  · obtain ⟨u, hu, hbu, hcontent⟩ := h.returned x bs hbs
    obtain ⟨u', hu', hcontent', hbu', -⟩ := hm.get x u hu
    exact ⟨u', hu', hbu'.trans hbu, hcontent'.trans hcontent⟩
  · obtain ⟨u, hu, hbu, hdu, hbuf'⟩ := h.held x buf' (List.mem_of_mem_eraseIdx hbuf)
    have hne := h.ne_of_mem_eraseIdx hj hbuf
    refine ⟨u, by rw [List.getElem?_set_ne hne.symm]; exact hu, hbu, hdu, ?_⟩
    rw [hm.sampleBuffer horder]
    exact hbuf'
  · rw [← List.eraseIdx_map]
    exact h.nodup.eraseIdx _
  · rcases hold x u hu with ⟨rfl, -⟩ | hu
    · exact h.held_lt x _ hmem
    · exact h.discarded x u hu hdu
  · rcases hold x u hu with ⟨-, hdu⟩ | hu'
    · exact hdu
    · rcases Nat.lt_or_ge x r with hxr | hxr
      · exact h.released x u hxr hu'
      · rcases hall x u hxr hx hu' with hdu | rfl
        · exact hdu
        · rw [List.getElem?_set_self hlt] at hu
          cases hu
          rfl

theorem Inv.step (h : s.Inv r hd) {l : MpscLabel} (hok : s.Admissible l)
    (hstep : s.step l = some s') : ∃ r' hd', s'.Inv r' hd' := by
  cases l with
  | producer w a =>
    obtain ⟨c, hc, rfl⟩ := Option.map_eq_some_iff.mp hstep
    exact ⟨r, hd, h.producer hok hc⟩
  | loadHead =>
    cases hstep
    exact ⟨r, _, h.loadHead⟩
  | readSample => exact ⟨r, hd, h.readSample hstep⟩
  | advanceIfPossible j =>
    obtain ⟨r', h'⟩ := h.advanceIfPossible hstep
    exact ⟨r', hd, h'⟩

end Step

theorem inv_init {order : ℕ} (data : ℕ → Byte) (areas : ℕ → ℕ) (horder : 3 ≤ order) :
    (init order data areas).Inv 0 0 where
  channel := Channel.inv_init data areas horder
  head := rfl
  head_le := le_rfl
  intermediate := rfl
  returned_le := le_rfl
  returned := nofun
  held := nofun
  nodup := List.nodup_nil
  discarded := nofun
  released := nofun
  held_lt := nofun

/-! ### What the reader gets -/

structure Correct (s : Mpsc) : Prop where
  /-- The samples are returned in the order of their reservations, each once, with the
  bytes that their producers wrote. -/
  in_order : s.returned = (s.channel.slots.take s.returned.length).map Slot.content
  -- What is returned has been committed.
  committed : ∀ t ∈ s.channel.slots.take s.returned.length, t.busy = false
  -- The bytes of a sample stay as they were returned until it is handed back.
  intact : ∀ i buf, (i, buf) ∈ s.held → s.returned[i]? = some (s.channel.rb.bytes buf)
  -- No sample reserved later overlaps one that has not been handed back.
  apart : ∀ i j t u, s.channel.slots[i]? = some t → s.channel.slots[j]? = some u → i < j →
    s.returned.length ≤ i ∨ i ∈ s.held.map Prod.fst →
    Circular.Apart s.channel.rb.dataSize (mpscFormat.pos s.channel.slots i) t.space
      (mpscFormat.pos s.channel.slots j) u.space
  -- Reads and releases end.
  total : (s.channel.rb.readSample s.head).isSome ∧
    ∀ p ∈ s.held, (s.channel.rb.advanceIfPossible p.2.data).isSome
  -- When no sample is being written and nothing is left to read, all have been returned.
  complete : (∀ w i buf, (s.channel.writers w).phase ≠ .writing i buf) →
    (∃ rb, s.channel.rb.readSample s.channel.rb.writerPos = some (rb, none)) →
    s.returned.length = s.channel.slots.length

theorem Inv.correct {s : Mpsc} {r hd : ℕ} (h : s.Inv r hd) : s.Correct := by
  have hlen : s.returned.length ≤ s.channel.slots.length := h.returned_le.trans h.head_le
  have hget : ∀ i t, i < s.returned.length → s.channel.slots[i]? = some t →
      t.busy = false ∧ s.returned[i]? = some t.content := by
    intro i t hi ht
    obtain ⟨u, hu, hb, hcontent⟩ := h.returned i _ (List.getElem?_eq_getElem hi)
    rw [ht] at hu
    cases hu
    exact ⟨hb, by rw [List.getElem?_eq_getElem hi, hcontent]⟩
  refine ⟨?_, fun t ht => ?_, fun i buf hbuf => ?_, fun i j t u hi hj hij hlive => ?_,
    ⟨?_, fun p hp => ?_⟩, fun hidle ⟨rb, hread⟩ => ?_⟩
  · refine List.ext_getElem? fun i => ?_
    rcases Nat.lt_or_ge i s.returned.length with hi | hi
    · have ht := List.getElem?_eq_getElem (hi.trans_le hlen)
      rw [(hget i _ hi ht).2, List.getElem?_map, List.getElem?_take_of_lt hi, ht]
      rfl
    · rw [List.getElem?_eq_none hi, List.getElem?_eq_none (by simpa using .inl hi)]
  · obtain ⟨i, hi⟩ := List.mem_iff_getElem?.mp ht
    have hlt : i < s.returned.length := by
      have := (List.getElem?_eq_some_iff.mp hi).1
      rw [List.length_take] at this
      omega
    rw [List.getElem?_take_of_lt hlt] at hi
    exact (hget i t hlt hi).1
  · obtain ⟨t, ht, -, hd', rfl⟩ := h.held i buf hbuf
    rw [h.channel.layout.bytes_sampleBuffer (h.le_of_not_discarded ht hd') ht]
    exact (hget i t (h.held_lt i _ hbuf) ht).2
  · have hr : r ≤ i := by
      rcases hlive with hi' | hmem
      · exact h.released_le.trans hi'
      · obtain ⟨⟨i', buf⟩, hheld, rfl⟩ := List.mem_map.mp hmem
        obtain ⟨t', ht', -, hd', -⟩ := h.held i' buf hheld
        exact h.le_of_not_discarded ht' hd'
    exact h.channel.layout.tiled.apart hr hi hj hij
  · obtain ⟨res, hres, -⟩ := h.found
    rw [hres]
    rfl
  · obtain ⟨i, buf⟩ := p
    obtain ⟨t, ht, hb, hd', rfl⟩ := h.held i buf hp
    obtain ⟨rb, -, hrb, -⟩ := h.channel.layout.advanceIfPossible_spec (n := t.size)
      (h.le_of_not_discarded ht hd') ht (by
        rintro x u hu (hdu | rfl)
        · exact h.channel.discarded x u hu hdu
        · rw [ht] at hu
          cases hu
          exact hb)
    rw [hrb]
    rfl
  · obtain ⟨res, hres, hcases⟩ := h.loadHead.found
    rw [hread] at hres
    cases hres
    rcases hcases with ⟨-, heq | ⟨t, ht, hb⟩⟩ | ⟨t, -, -, -, -, heq⟩
    · exact heq
    · obtain ⟨-, w, buf, hw⟩ := h.channel.busy _ t ht hb
      exact absurd hw (hidle w _ buf)
    · cases heq

/-- In every interleaving of producers and reader, the reader gets what the producers
wrote. -/
theorem run_correct {order : ℕ} {data : ℕ → Byte} {areas : ℕ → ℕ} {ls : List MpscLabel} {s : Mpsc}
    (horder : 3 ≤ order) (hok : Run.Along step Admissible (init order data areas) ls)
    (hrun : Run.steps step (init order data areas) ls = some s) : s.Correct := by
  have hstep : ∀ s l s', (∃ r hd, Inv s r hd) → s.Admissible l → s.step l = some s' →
      ∃ r hd, Inv s' r hd := fun _ _ _ ⟨_, _, h⟩ hok hstep => h.step hok hstep
  obtain ⟨r, hd, h⟩ := Run.steps_invariant hstep ⟨0, 0, inv_init data areas horder⟩ hok hrun
  exact h.correct

/-- Two producers of which the second commits first, and a third that reserves the space
of the first two after both samples have been handed back, the second one first. -/
def handBackOutOfOrder : List MpscLabel :=
  [.producer 0 (.reserve 3 false), .producer 1 (.reserve 2 false),
    .producer 1 (.writeByte 0 7), .producer 1 (.writeByte 1 8),
    .producer 1 .publish, .producer 1 .loadTail,
    .loadHead, .readSample,
    .producer 0 (.writeByte 0 1), .producer 0 (.writeByte 1 2), .producer 0 (.writeByte 2 3),
    .producer 0 .publish, .producer 0 .loadTail,
    .readSample, .readSample, .advanceIfPossible 1, .advanceIfPossible 0,
    .producer 2 .updateTail, .producer 2 (.reserve 20 true)]

theorem run_correct_handBackOutOfOrder :
    ∃ s, Run.steps step (init 6 (fun _ => 0) fun _ => 16) handBackOutOfOrder = some s ∧
      s.returned = [[1, 2, 3], [7, 8]] ∧ s.channel.slots.length = 3 ∧ s.Correct := by
  have hrun : (Run.steps step (init 6 (fun _ => 0) fun _ => 16) handBackOutOfOrder).any
      (fun s => s.returned = [[1, 2, 3], [7, 8]] ∧ s.channel.slots.length = 3) = true := by
    decide +kernel
  obtain ⟨s, hs, hreturned⟩ := Option.any_eq_true _ _ |>.mp hrun
  obtain ⟨hret, hlen⟩ := of_decide_eq_true hreturned
  exact ⟨s, hs, hret, hlen, run_correct (by decide) (by decide +kernel) hs⟩

end Mpsc

end Ddprof
