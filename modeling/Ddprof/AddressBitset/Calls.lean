import Ddprof.AddressBitset.Basic

/-!
What a call of `add` or `remove` may rely on while other threads run.

An access of one call changes the tables only on behalf of its own address. If
no other call is made for the same address meanwhile, everything a call has
learnt about its address stays true: an address that is absent stays absent and
is claimed in a slot that `remove` will reach, and an address that is present
stays where it is until its own `remove` deletes it.
-/

namespace Ddprof

/-- The assumption on tracked addresses: they are none of the two reserved words. -/
def IsAddress (addr : ℕ) : Prop := addr ≠ emptySlot ∧ addr ≠ deletedSlot

instance : DecidablePred IsAddress := fun _ => inferInstanceAs (Decidable (_ ∧ _))

theorem AddressTable.probe_congr {t t' : AddressTable} (h : t'.tableSize = t.tableSize)
    (addr i : ℕ) : t'.probe addr i = t.probe addr i := by
  have hmask : t'.tableMask = t.tableMask := by rw [tableMask, tableMask, h]
  induction i with
  | zero => rw [probe, probe, hmask]
  | succ i ih => rw [probe, probe, nextSlot, nextSlot, ih, hmask]

namespace AddressBitset

variable {b b' : AddressBitset} {k a : ℕ} {op : BitsetOp} {t t' : AddressTable} {isLarge : Bool}

/-! ### What the accesses of another address can change -/

/-- The tables change on behalf of the address `k` only, and a new table is empty. -/
structure Evolves (k : ℕ) (b b' : AddressBitset) : Prop where
  kept : ∀ shard t, b.tables shard = some t → ∃ t', b'.tables shard = some t' ∧
    t'.tableSize = t.tableSize ∧ Probing.Update emptySlot deletedSlot k t.slots t'.slots
  created : ∀ shard t', b.tables shard = none → b'.tables shard = some t' →
    ∀ slot, t'.slots slot = emptySlot

theorem Evolves.refl : Evolves k b b :=
  ⟨fun _ t ht => ⟨t, ht, rfl, .refl⟩, fun _ _ hn hs => by rw [hn] at hs; cases hs⟩

theorem Evolves.setTable {shard : Shard} (ht : b.tables shard = some t)
    (hsize : t'.tableSize = t.tableSize)
    (hslots : Probing.Update emptySlot deletedSlot k t.slots t'.slots) :
    Evolves k b (b.setTable shard t') := by
  refine ⟨fun s u hu => ?_, fun s u hn hs => ?_⟩
  · by_cases h : s = shard
    · subst h
      rw [ht] at hu
      cases hu
      exact ⟨t', tables_setTable_self .., hsize, hslots⟩
    · exact ⟨u, (tables_setTable_of_ne h ..).trans hu, rfl, .refl⟩
  · by_cases h : s = shard
    · subst h
      rw [ht] at hn
      cases hn
    · rw [tables_setTable_of_ne h, hn] at hs
      cases hs

theorem Evolves.install {shard : Shard} (hn : b.tables shard = none) (size : ℕ) :
    Evolves k b (b.setTable shard (AddressTable.make size)) := by
  refine ⟨fun s u hu => ?_, fun s u hn' hs slot => ?_⟩
  · have h : s ≠ shard := by
      rintro rfl
      rw [hn] at hu
      cases hu
    exact ⟨u, (tables_setTable_of_ne h ..).trans hu, rfl, .refl⟩
  · by_cases h : s = shard
    · subst h
      rw [tables_setTable_self] at hs
      cases hs
      rfl
    · rw [tables_setTable_of_ne h, hn'] at hs
      cases hs

theorem stepTable_evolves (ht : b.tables op.shard = some t)
    (hpc : ∀ probe slot e, op.pc = .addClaim probe slot e → e = emptySlot ∨ e = deletedSlot) :
    Evolves op.addr b (b.stepTable op t).1 := by
  rw [stepTable]
  cases hop : op.pc with
  | addClaim probe slot expected =>
    simp only
    split_ifs with hslot
    · refine .setTable ht rfl (.write ?_)
      rw [hslot]
      exact hpc probe slot expected hop
    · exact .refl
  | addCount => exact .setTable ht rfl .refl
  | removeDelete slot =>
    simp only
    split_ifs with hslot
    · exact .setTable ht rfl (.delete hslot)
    · exact .refl
  | removeCount => exact .setTable ht rfl .refl
  | addCheckCapacity => simp only; split_ifs <;> exact .refl
  | addLoad probe slot => simp only; split_ifs <;> exact .refl
  | addReload probe slot => simp only; split_ifs <;> exact .refl
  | removeLoad probe slot => simp only; split_ifs <;> exact .refl
  | addGetTable | addInstall | addDone _ | removeGetTable | removeDone _ => exact .refl

theorem step_evolves
    (hpc : ∀ probe slot e, op.pc = .addClaim probe slot e → e = emptySlot ∨ e = deletedSlot) :
    Evolves op.addr b (b.step op).1 := by
  unfold step
  split
  case h_1 => split_ifs <;> exact .refl
  case h_2 =>
    split_ifs with hsome
    · exact .refl
    · exact .install (Option.not_isSome_iff_eq_none.mp hsome) _
  case h_3 => split <;> exact .refl
  case h_4 =>
    split
    · exact .refl
    · exact stepTable_evolves ‹_› hpc

/-! ### Addresses that are in the set or not -/

def Absent (b : AddressBitset) (a : ℕ) : Prop := ∀ shard slot, ¬ b.Holds a shard slot

/-- The address is stored in the slot `i` of its probe sequence and nowhere else, and
`remove` does not stop before it. -/
structure StoredAt (b : AddressBitset) (a : ℕ) (isLarge : Bool) (t : AddressTable) (i : ℕ) :
    Prop where
  table : b.tables (shardOf a isLarge) = some t
  within : i < maxProbeDistance
  used : Probing.Used emptySlot t.slots (t.probe a) i
  stored : t.slots (t.probe a i) = a
  only : ∀ shard slot, b.Holds a shard slot → shard = shardOf a isLarge ∧ slot = t.probe a i

def Present (b : AddressBitset) (a : ℕ) (isLarge : Bool) : Prop := ∃ t i, b.StoredAt a isLarge t i

section Interference

variable (h : Evolves k b b') (hk : IsAddress k) (ha : IsAddress a) (hne : a ≠ k)
include h ha hne

theorem Evolves.holds_iff {shard : Shard} {slot : ℕ} :
    b'.Holds a shard slot ↔ b.Holds a shard slot := by
  constructor
  · rintro ⟨t', ht', hslot⟩
    cases ht : b.tables shard with
    | none => exact absurd (hslot.symm.trans (h.created shard t' ht ht' slot)) ha.1
    | some t =>
      obtain ⟨u, hu, _, hslots⟩ := h.kept shard t ht
      rw [ht'] at hu
      cases hu
      exact ⟨t, ht, (hslots.eq_iff hne ha.1 ha.2).mp hslot⟩
  · rintro ⟨t, ht, hslot⟩
    obtain ⟨u, hu, _, hslots⟩ := h.kept shard t ht
    exact ⟨u, hu, (hslots.eq_iff hne ha.1 ha.2).mpr hslot⟩

theorem Evolves.absent (habs : b.Absent a) : b'.Absent a :=
  fun shard slot hholds => habs shard slot ((h.holds_iff ha hne).mp hholds)

include hk in
theorem Evolves.storedAt {i : ℕ} (hs : b.StoredAt a isLarge t i) :
    ∃ t', t'.tableSize = t.tableSize ∧ b'.StoredAt a isLarge t' i := by
  obtain ⟨t', ht', hsize, hslots⟩ := h.kept _ t hs.table
  have hprobe := AddressTable.probe_congr hsize a
  refine ⟨t', hsize, ht', hs.within, ?_, ?_, ?_⟩
  · rw [show t'.probe a = t.probe a from funext hprobe]
    exact hslots.used hk.1 (by decide) hs.used
  · rw [hprobe]
    exact (hslots.eq_iff hne ha.1 ha.2).mpr hs.stored
  · intro shard slot hholds
    rw [hprobe]
    exact hs.only shard slot ((h.holds_iff ha hne).mp hholds)

include hk in
theorem Evolves.present (hp : b.Present a isLarge) : b'.Present a isLarge := by
  obtain ⟨t, i, hs⟩ := hp
  obtain ⟨t', _, hs'⟩ := h.storedAt hk ha hne hs
  exact ⟨t', i, hs'⟩

end Interference

/-! ### What a call knows -/

/-- A call of `add` has found the first `i` slots in use and is at the next one. -/
def Probed (b : AddressBitset) (op : BitsetOp) (i slot : ℕ) : Prop :=
  ∃ t, b.tables op.shard = some t ∧ slot = t.probe op.addr i ∧
    Probing.Used emptySlot t.slots (t.probe op.addr) i

def SlotUsed (b : AddressBitset) (op : BitsetOp) (slot : ℕ) : Prop :=
  ∃ t, b.tables op.shard = some t ∧ t.slots slot ≠ emptySlot

theorem Evolves.probed (h : Evolves k b b') (hk : IsAddress k) {i slot : ℕ}
    (hp : b.Probed op i slot) : b'.Probed op i slot := by
  obtain ⟨t, ht, hslot, hused⟩ := hp
  obtain ⟨t', ht', hsize, hslots⟩ := h.kept _ t ht
  have hprobe : t'.probe op.addr = t.probe op.addr :=
    funext (AddressTable.probe_congr hsize op.addr)
  refine ⟨t', ht', ?_, ?_⟩
  · rw [hprobe, hslot]
  · rw [hprobe]
    exact hslots.used hk.1 (by decide) hused

theorem Evolves.slotUsed (h : Evolves k b b') (hk : IsAddress k) {slot : ℕ}
    (hu : b.SlotUsed op slot) : b'.SlotUsed op slot := by
  obtain ⟨t, ht, hslot⟩ := hu
  obtain ⟨t', ht', _, hslots⟩ := h.kept _ t ht
  exact ⟨t', ht', hslots.ne_empty hk.1 (by decide) hslot⟩

/-- What is known about the address of a call at each point of it, when the call is
the only one for its address: an address that is added is absent up to the claim of
a slot, and an address that is removed is present up to its deletion. -/
def Knows (b : AddressBitset) (op : BitsetOp) : Prop :=
  match op.pc with
  | .addGetTable | .addInstall => b.Absent op.addr
  | .addCheckCapacity => b.Absent op.addr ∧ ∃ t, b.tables op.shard = some t
  | .addLoad i slot => b.Absent op.addr ∧ b.Probed op i slot
  | .addClaim i slot expected => b.Absent op.addr ∧ b.Probed op i slot ∧
      i < maxProbeDistance ∧
      (expected = emptySlot ∨ expected = deletedSlot ∧ b.SlotUsed op slot)
  | .addReload i slot => b.Absent op.addr ∧ b.Probed op i slot ∧ b.SlotUsed op slot
  | .addCount => b.Present op.addr op.isLargeAlloc
  | .addDone result => result = true ∧ b.Present op.addr op.isLargeAlloc
  | .removeGetTable => b.Present op.addr op.isLargeAlloc
  | .removeLoad i slot => ∃ t n, b.StoredAt op.addr op.isLargeAlloc t n ∧ i ≤ n ∧
      slot = t.probe op.addr i
  | .removeDelete slot => ∃ t n, b.StoredAt op.addr op.isLargeAlloc t n ∧
      slot = t.probe op.addr n
  | .removeCount => b.Absent op.addr
  | .removeDone result => result = true ∧ b.Absent op.addr

/-- The accesses of other addresses take nothing away from what a call knows. -/
theorem Knows.evolves (hknows : b.Knows op) (h : Evolves k b b') (hk : IsAddress k)
    (ha : IsAddress op.addr) (hne : op.addr ≠ k) : b'.Knows op := by
  unfold Knows at hknows ⊢
  cases hop : op.pc with
  | addGetTable => rw [hop] at hknows; exact h.absent ha hne hknows
  | addInstall => rw [hop] at hknows; exact h.absent ha hne hknows
  | addCheckCapacity =>
    rw [hop] at hknows
    obtain ⟨habs, t, ht⟩ := hknows
    obtain ⟨t', ht', _⟩ := h.kept _ t ht
    exact ⟨h.absent ha hne habs, t', ht'⟩
  | addLoad i slot =>
    rw [hop] at hknows
    exact ⟨h.absent ha hne hknows.1, h.probed hk hknows.2⟩
  | addClaim i slot expected =>
    rw [hop] at hknows
    obtain ⟨habs, hp, hi, hexp⟩ := hknows
    exact ⟨h.absent ha hne habs, h.probed hk hp, hi,
      hexp.imp_right fun hexp => ⟨hexp.1, h.slotUsed hk hexp.2⟩⟩
  | addReload i slot =>
    rw [hop] at hknows
    exact ⟨h.absent ha hne hknows.1, h.probed hk hknows.2.1, h.slotUsed hk hknows.2.2⟩
  | addCount => rw [hop] at hknows; exact h.present hk ha hne hknows
  | addDone result => rw [hop] at hknows; exact ⟨hknows.1, h.present hk ha hne hknows.2⟩
  | removeGetTable => rw [hop] at hknows; exact h.present hk ha hne hknows
  | removeLoad i slot =>
    rw [hop] at hknows
    obtain ⟨t, n, hs, hin, hslot⟩ := hknows
    obtain ⟨t', hsize, hs'⟩ := h.storedAt hk ha hne hs
    exact ⟨t', n, hs', hin, hslot.trans (AddressTable.probe_congr hsize ..).symm⟩
  | removeDelete slot =>
    rw [hop] at hknows
    obtain ⟨t, n, hs, hslot⟩ := hknows
    obtain ⟨t', hsize, hs'⟩ := h.storedAt hk ha hne hs
    exact ⟨t', n, hs', hslot.trans (AddressTable.probe_congr hsize ..).symm⟩
  | removeCount => rw [hop] at hknows; exact h.absent ha hne hknows
  | removeDone result => rw [hop] at hknows; exact ⟨hknows.1, h.absent ha hne hknows.2⟩

/-! ### The accesses of a call -/

/-- No table is full: neither the count nor the probe distance stops the call. -/
def NotFull (b : AddressBitset) (op : BitsetOp) : Prop :=
  match op.pc with
  | .addCheckCapacity => ∀ t ∈ b.tables op.shard, t.count.toNat < t.maxCapacity
  | .addLoad i _ => i < maxProbeDistance
  | _ => True

instance : Decidable (b.NotFull op) := by
  unfold NotFull
  split <;> infer_instance

theorem Absent.of_evolves (hb : b.Absent a) (ha : IsAddress a) (h : ∀ k, Evolves k b b') :
    b'.Absent a :=
  (h (a + 2)).absent ha (by omega) hb

theorem Present.of_evolves (hb : b.Present a isLarge) (ha : IsAddress a)
    (h : ∀ k, Evolves k b b') : b'.Present a isLarge :=
  (h (a + 2)).present ⟨by simp [emptySlot], by simp [deletedSlot]⟩ ha (by omega) hb

theorem present_of_claim (ha : IsAddress op.addr) (habs : b.Absent op.addr) {i slot : ℕ}
    (hi : i < maxProbeDistance) (hp : b.Probed op i slot) (ht : b.tables op.shard = some t)
    (hfree : t.slots slot = emptySlot ∨ t.slots slot = deletedSlot) :
    (b.setTable op.shard (t.write slot op.addr)).Present op.addr op.isLargeAlloc := by
  obtain ⟨u, hu, hslot, hused⟩ := hp
  rw [ht] at hu
  cases hu
  have hprobe : (t.write slot op.addr).probe op.addr = t.probe op.addr :=
    funext (@AddressTable.probe_congr t (t.write slot op.addr) rfl op.addr)
  refine ⟨_, i, tables_setTable_self .., hi, ?_, ?_, ?_⟩
  · rw [hprobe]
    exact (Probing.Update.write hfree).used ha.1 (by decide) hused
  · rw [hprobe, ← hslot]
    exact AddressTable.slots_write_self ..
  · rintro shard s ⟨u, hu, hs⟩
    by_cases hshard : shard = op.shard
    · subst hshard
      rw [tables_setTable_self] at hu
      cases hu
      refine ⟨rfl, ?_⟩
      rw [hprobe, ← hslot]
      by_contra hne
      exact habs op.shard s ⟨t, ht, (AddressTable.slots_write_of_ne hne ..).symm.trans hs⟩
    · rw [tables_setTable_of_ne hshard] at hu
      exact absurd ⟨u, hu, hs⟩ (habs shard s)

theorem StoredAt.absent_delete (ha : IsAddress op.addr) {n : ℕ}
    (h : b.StoredAt op.addr op.isLargeAlloc t n) :
    (b.setTable op.shard (t.write (t.probe op.addr n) deletedSlot)).Absent op.addr := by
  rintro shard s ⟨u, hu, hs⟩
  by_cases hshard : shard = op.shard
  · subst hshard
    rw [tables_setTable_self] at hu
    cases hu
    by_cases hslot : s = t.probe op.addr n
    · subst hslot
      rw [AddressTable.slots_write_self] at hs
      exact ha.2 hs.symm
    · rw [AddressTable.slots_write_of_ne hslot] at hs
      exact hslot (h.only _ s ⟨t, h.table, hs⟩).2
  · rw [tables_setTable_of_ne hshard] at hu
    exact hshard (h.only shard s ⟨u, hu, hs⟩).1

theorem Knows.step (h : b.Knows op) (ha : IsAddress op.addr) (hfull : b.NotFull op) :
    (b.step op).1.Knows (b.step op).2 := by
  unfold Knows at h
  unfold NotFull at hfull
  rw [AddressBitset.step]
  cases hop : op.pc with
  | addGetTable =>
    rw [hop] at h
    simp only
    split_ifs with hsome
    · exact ⟨h, Option.isSome_iff_exists.mp hsome⟩
    · exact h
  | addInstall =>
    rw [hop] at h
    simp only
    split_ifs with hsome
    · exact ⟨h, Option.isSome_iff_exists.mp hsome⟩
    · exact ⟨h.of_evolves ha fun _ => .install (Option.not_isSome_iff_eq_none.mp hsome) _,
        _, tables_setTable_self ..⟩
  | addCheckCapacity =>
    rw [hop] at h hfull
    obtain ⟨habs, t, ht⟩ := h
    simp only [ht, stepTable, hop]
    rw [if_neg (Nat.not_le.mpr (hfull t ht))]
    exact ⟨habs, t, ht, rfl, Probing.used_zero⟩
  | addLoad i slot =>
    rw [hop] at h hfull
    obtain ⟨habs, t, ht, hslot, hused⟩ := h
    simp only [ht, stepTable, hop]
    rw [if_neg (Nat.not_le.mpr hfull)]
    split_ifs with hfree hself
    · refine ⟨habs, ⟨t, ht, hslot, hused⟩, hfull, hfree.imp_right fun hdeleted => ?_⟩
      exact ⟨hdeleted, t, ht, by rw [hdeleted]; decide⟩
    · exact absurd ⟨t, ht, hself⟩ (habs op.shard slot)
    · refine ⟨habs, t, ht, ?_, hused.succ ?_⟩
      · rw [hslot]
        rfl
      · rw [← hslot]
        exact fun hempty => hfree (.inl hempty)
  | addClaim i slot expected =>
    rw [hop] at h
    obtain ⟨habs, hp, hi, hexp⟩ := h
    obtain ⟨t, ht, hslot, hused⟩ := id hp
    simp only [ht, stepTable, hop]
    split_ifs with heq
    · exact present_of_claim ha habs hi hp ht (heq ▸ hexp.imp_right And.left)
    · refine ⟨habs, hp, ?_⟩
      rcases hexp with rfl | ⟨_, hslotUsed⟩
      · exact ⟨t, ht, heq⟩
      · exact hslotUsed
  | addReload i slot =>
    rw [hop] at h
    obtain ⟨habs, ⟨t, ht, hslot, hused⟩, u, hu, hslotUsed⟩ := h
    rw [ht] at hu
    cases hu
    simp only [ht, stepTable, hop]
    split_ifs with hself
    · exact absurd ⟨t, ht, hself⟩ (habs op.shard slot)
    · refine ⟨habs, t, ht, ?_, hused.succ (by rwa [← hslot])⟩
      rw [hslot]
      rfl
  | addCount =>
    rw [hop] at h
    obtain ⟨t, n, hs⟩ := id h
    have ht : b.tables op.shard = some t := hs.table
    simp only [ht, stepTable, hop]
    exact ⟨rfl, h.of_evolves ha fun _ => .setTable ht rfl .refl⟩
  | removeGetTable =>
    rw [hop] at h
    obtain ⟨t, n, hs⟩ := h
    have ht : b.tables op.shard = some t := hs.table
    simp only [ht]
    exact ⟨t, n, hs, Nat.zero_le n, rfl⟩
  | removeLoad i slot =>
    rw [hop] at h
    obtain ⟨t, n, hs, hin, hslot⟩ := h
    have ht : b.tables op.shard = some t := hs.table
    have hmiss : t.slots slot ≠ op.addr → i < n := fun hne =>
      lt_of_le_of_ne hin fun heq => hne (by rw [hslot, heq]; exact hs.stored)
    have hnext : t.slots slot ≠ op.addr → (b.Knows
        (op.goto (.removeLoad (i + 1) (t.nextSlot slot)))) := fun hne =>
      ⟨t, n, hs, hmiss hne, by rw [hslot]; rfl⟩
    simp only [ht, stepTable, hop]
    rw [if_neg (Nat.not_le.mpr (lt_of_le_of_lt hin hs.within))]
    split_ifs with hempty hdeleted hself
    · by_cases hself : t.slots slot = op.addr
      · exact absurd (hself.symm.trans hempty) ha.1
      · exact absurd (hslot ▸ hempty) (hs.used i (hmiss hself))
    · exact hnext fun hself => ha.2 (hself.symm.trans hdeleted)
    · exact ⟨t, n, hs, (hs.only _ slot ⟨t, ht, hself⟩).2⟩
    · exact hnext hself
  | removeDelete slot =>
    rw [hop] at h
    obtain ⟨t, n, hs, rfl⟩ := h
    have ht : b.tables op.shard = some t := hs.table
    simp only [ht, stepTable, hop]
    rw [if_pos hs.stored]
    exact hs.absent_delete ha
  | removeCount =>
    rw [hop] at h
    cases ht : b.tables op.shard with
    | none => simpa only [Knows, hop] using h
    | some t =>
      simp only [stepTable, hop]
      exact ⟨rfl, h.of_evolves ha fun _ => .setTable ht rfl .refl⟩
  | addDone result =>
    rw [hop] at h
    cases ht : b.tables op.shard <;> simpa only [stepTable, hop, Knows] using h
  | removeDone result =>
    rw [hop] at h
    cases ht : b.tables op.shard <;> simpa only [stepTable, hop, Knows] using h

theorem stepTable_op (b : AddressBitset) (op : BitsetOp) (t : AddressTable) :
    ∃ pc, (b.stepTable op t).2 = op.goto pc := by
  unfold stepTable
  split <;> first | exact ⟨_, rfl⟩ | (split_ifs <;> exact ⟨_, rfl⟩)

theorem step_op (b : AddressBitset) (op : BitsetOp) : ∃ pc, (b.step op).2 = op.goto pc := by
  unfold step
  split
  · split_ifs <;> exact ⟨_, rfl⟩
  · split_ifs <;> exact ⟨_, rfl⟩
  · split <;> exact ⟨_, rfl⟩
  · split
    · exact ⟨_, rfl⟩
    · exact b.stepTable_op op _

/-- A call of another address sees nothing of this access. -/
theorem Knows.step_evolves (h : b.Knows op) : Evolves op.addr b (b.step op).1 := by
  refine AddressBitset.step_evolves fun i slot e hop => ?_
  unfold Knows at h
  rw [hop] at h
  exact h.2.2.2.imp_right And.left

end AddressBitset

end Ddprof
