import Ddprof.AddressBitset.Calls

/-!
What any number of calls of `add` and `remove` keep true together.

Calls for the same address may overlap here, so a call knows nothing about where
its own address is. What remains is that a slot in use stays in use: an address is
only ever written to a slot that a later `remove` reaches. The count of a table is
off by the calls that have changed a slot and have not counted it yet.
-/

namespace Ddprof

namespace AddressTable

variable {t : AddressTable}

theorem tableMask_lt (h : 0 < t.tableSize) : t.tableMask < t.tableSize := by
  rw [tableMask]
  omega

theorem probe_le (t : AddressTable) (addr i : ℕ) : t.probe addr i ≤ t.tableMask := by
  cases i with
  | zero => exact Nat.and_le_right
  | succ i => exact Nat.and_le_right

theorem probe_lt_word (t : AddressTable) (addr i : ℕ) : t.probe addr i < 2 ^ 32 := by
  cases i with
  | zero => exact lt_of_le_of_lt Nat.and_le_left (BitVec.isLt _)
  | succ i => exact lt_of_le_of_lt Nat.and_le_left (Nat.mod_lt _ (by decide))

theorem probe_write (t : AddressTable) (slot value : ℕ) :
    (t.write slot value).probe = t.probe := by
  ext addr i
  have hsize : (t.write slot value).tableSize = t.tableSize := rfl
  exact probe_congr hsize addr i

def occupied (t : AddressTable) : ℕ := Probing.keys IsAddress t.slots t.tableSize

theorem occupied_write_address {slot a : ℕ} (hslot : slot < t.tableSize)
    (hfree : t.slots slot = emptySlot ∨ t.slots slot = deletedSlot) (ha : IsAddress a) :
    (t.write slot a).occupied = t.occupied + 1 :=
  Probing.keys_update_of_not hslot (fun h => hfree.elim h.1 h.2) ha

theorem occupied_write_deleted {slot : ℕ} (hslot : slot < t.tableSize)
    (ha : IsAddress (t.slots slot)) : (t.write slot deletedSlot).occupied + 1 = t.occupied :=
  Probing.keys_update_of_key hslot ha (by decide)

theorem occupied_make (size : ℕ) : (make size).occupied = 0 :=
  Probing.keys_eq_zero fun _ => by change ¬ IsAddress emptySlot; decide

end AddressTable

theorem roundUpToPowerOfTwo_pos {num : ℕ} (h : 0 < num) : 0 < roundUpToPowerOfTwo num := by
  rw [roundUpToPowerOfTwo, if_neg h.ne']
  split_ifs
  · exact h
  · simp [Nat.shiftLeft_eq]

/-- The shards of the set: the chunks of 128 MB modulo 128, and the large allocations. -/
def shards : Finset Shard := insert .large ((Finset.range 128).image .chunk)

theorem shardOf_mem (addr : ℕ) (isLargeAlloc : Bool) : shardOf addr isLargeAlloc ∈ shards := by
  rw [shardOf]
  split_ifs
  · exact Finset.mem_insert_self ..
  · refine Finset.mem_insert_of_mem (Finset.mem_image_of_mem _ (Finset.mem_range.mpr ?_))
    exact Nat.lt_succ_of_le Nat.and_le_right

namespace BitsetPc

/-- What a call still owes to the count of its table. -/
def uncounted : BitsetPc → ℤ
  | .addCount => 1
  | .removeCount => -1
  | _ => 0

/-- By how much a call that has not returned has changed the number of addresses. -/
def unreturned : BitsetPc → ℤ
  | .addCount | .addDone true => 1
  | .removeCount | .removeDone true => -1
  | _ => 0

end BitsetPc

namespace AddressBitset

variable {b b' : AddressBitset} {k a : ℕ} {op : BitsetOp} {t t' : AddressTable} {isLarge : Bool}

def countOf (b : AddressBitset) (shard : Shard) : BitVec 64 := (b.tables shard).elim 0 (·.count)

def occupied (b : AddressBitset) (shard : Shard) : ℕ :=
  (b.tables shard).elim 0 AddressTable.occupied

/-! ### Every address is in reach -/

/-- A `remove` of the address that looks at the slots of the table one after the other
gets to the slot `i` of its probe sequence, which holds the address. -/
structure InReach (t : AddressTable) (a i : ℕ) : Prop where
  within : i < maxProbeDistance
  used : Probing.Used emptySlot t.slots (t.probe a) i
  stored : t.slots (t.probe a i) = a

/-- Every address is in its own table, in a slot that `remove` reaches. -/
def Placed (b : AddressBitset) : Prop :=
  ∀ shard t slot, b.tables shard = some t → IsAddress (t.slots slot) →
    (∃ isLarge, shard = shardOf (t.slots slot) isLarge) ∧
      ∃ i, slot = t.probe (t.slots slot) i ∧ InReach t (t.slots slot) i

/-- The values of the program counter are those a call gets to: the slots it has passed
are in use, and what it expects in the slot it claims is no address. -/
def Tracks (b : AddressBitset) (op : BitsetOp) : Prop :=
  match op.pc with
  | .addGetTable | .addInstall | .addDone _ | .removeGetTable | .removeDone _ => True
  | .addCheckCapacity | .addCount | .removeCount => ∃ t, b.tables op.shard = some t
  | .addLoad i slot => b.Probed op i slot
  | .addClaim i slot expected => b.Probed op i slot ∧ i < maxProbeDistance ∧
      (expected = emptySlot ∨ expected = deletedSlot ∧ b.SlotUsed op slot)
  | .addReload i slot => b.Probed op i slot ∧ i < maxProbeDistance ∧ b.SlotUsed op slot
  | .removeLoad i slot => ∃ t, b.tables op.shard = some t ∧ slot = t.probe op.addr i
  | .removeDelete slot => ∃ t i, b.tables op.shard = some t ∧ slot = t.probe op.addr i

theorem Tracks.step_evolves (h : b.Tracks op) : Evolves op.addr b (b.step op).1 := by
  refine AddressBitset.step_evolves fun i slot e hop => ?_
  unfold Tracks at h
  rw [hop] at h
  exact h.2.2.imp_right And.left

theorem Evolves.tracks (h : Evolves k b b') (hk : IsAddress k) (ht : b.Tracks op) :
    b'.Tracks op := by
  have hkept : (∃ t, b.tables op.shard = some t) → ∃ t', b'.tables op.shard = some t' := by
    rintro ⟨t, ht⟩
    obtain ⟨t', ht', _⟩ := h.kept _ t ht
    exact ⟨t', ht'⟩
  have hslot : ∀ i slot, (∃ t, b.tables op.shard = some t ∧ slot = t.probe op.addr i) →
      ∃ t', b'.tables op.shard = some t' ∧ slot = t'.probe op.addr i := by
    rintro i slot ⟨t, ht, hslot⟩
    obtain ⟨t', ht', hsize, _⟩ := h.kept _ t ht
    exact ⟨t', ht', hslot.trans (AddressTable.probe_congr hsize ..).symm⟩
  unfold Tracks at ht ⊢
  cases hop : op.pc with
  | addGetTable | addInstall | addDone _ | removeGetTable | removeDone _ => trivial
  | addCheckCapacity | addCount | removeCount => rw [hop] at ht; exact hkept ht
  | addLoad i slot => rw [hop] at ht; exact h.probed hk ht
  | addClaim i slot expected =>
    rw [hop] at ht
    exact ⟨h.probed hk ht.1, ht.2.1, ht.2.2.imp_right fun he => ⟨he.1, h.slotUsed hk he.2⟩⟩
  | addReload i slot =>
    rw [hop] at ht
    exact ⟨h.probed hk ht.1, ht.2.1, h.slotUsed hk ht.2.2⟩
  | removeLoad i slot => rw [hop] at ht; exact hslot i slot ht
  | removeDelete slot =>
    rw [hop] at ht
    obtain ⟨t, i, ht⟩ := ht
    obtain ⟨t', ht'⟩ := hslot i slot ⟨t, ht⟩
    exact ⟨t', i, ht'⟩

/-! ### The accesses of a call -/

/-- What an access of a call does to the tables, and where the call is afterwards. -/
inductive Access (b : AddressBitset) (op : BitsetOp) : AddressBitset → BitsetPc → Prop
  /-- The access changes no table, or the call has ended before. -/
  | look (pc : BitsetPc) (hcount : pc.uncounted = op.pc.uncounted)
      (hreturn : pc.unreturned = op.pc.unreturned) : Access b op b pc
  | install (hop : op.pc = .addInstall) (hn : b.tables op.shard = none) :
      Access b op (b.setTable op.shard (AddressTable.make b.perTableSize)) .addCheckCapacity
  | claim {t : AddressTable} {i : ℕ} (hop : op.pc.uncounted = 0 ∧ op.pc.unreturned = 0)
      (ht : b.tables op.shard = some t) (hi : i < maxProbeDistance)
      (hfree : t.slots (t.probe op.addr i) = emptySlot ∨
        t.slots (t.probe op.addr i) = deletedSlot)
      (hused : Probing.Used emptySlot t.slots (t.probe op.addr) i) :
      Access b op (b.setTable op.shard (t.write (t.probe op.addr i) op.addr)) .addCount
  | countUp {t : AddressTable} (hop : op.pc = .addCount) (ht : b.tables op.shard = some t) :
      Access b op (b.setTable op.shard { t with count := t.count + 1 }) (.addDone true)
  | delete {t : AddressTable} {i : ℕ} (hop : op.pc.uncounted = 0 ∧ op.pc.unreturned = 0)
      (ht : b.tables op.shard = some t) (hstored : t.slots (t.probe op.addr i) = op.addr) :
      Access b op (b.setTable op.shard (t.write (t.probe op.addr i) deletedSlot)) .removeCount
  | countDown {t : AddressTable} (hop : op.pc = .removeCount)
      (ht : b.tables op.shard = some t) :
      Access b op (b.setTable op.shard { t with count := t.count - 1 }) (.removeDone true)

theorem Access.quiet {pc pc' : BitsetPc} (hop : op.pc = pc')
    (hcount : pc.uncounted = pc'.uncounted) (hreturn : pc.unreturned = pc'.unreturned) :
    Access b op b pc :=
  .look pc (hop ▸ hcount) (hop ▸ hreturn)

theorem Tracks.step (h : b.Tracks op) : ∃ pc, (b.step op).2 = op.goto pc ∧
    Access b op (b.step op).1 pc ∧ (b.step op).1.Tracks (op.goto pc) := by
  unfold Tracks at h
  rw [AddressBitset.step]
  cases hop : op.pc with
  | addGetTable =>
    simp only
    split_ifs with hsome
    · exact ⟨_, rfl, .quiet hop rfl rfl, Option.isSome_iff_exists.mp hsome⟩
    · exact ⟨_, rfl, .quiet hop rfl rfl, trivial⟩
  | addInstall =>
    simp only
    split_ifs with hsome
    · exact ⟨_, rfl, .quiet hop rfl rfl,
        Option.isSome_iff_exists.mp hsome⟩
    · exact ⟨_, rfl, .install hop (Option.not_isSome_iff_eq_none.mp hsome),
        _, tables_setTable_self ..⟩
  | addCheckCapacity =>
    rw [hop] at h
    obtain ⟨t, ht⟩ := h
    simp only [ht, stepTable, hop]
    split_ifs
    · exact ⟨_, rfl, .quiet hop rfl rfl, trivial⟩
    · exact ⟨_, rfl, .quiet hop rfl rfl, t, ht, rfl, Probing.used_zero⟩
  | addLoad i slot =>
    rw [hop] at h
    obtain ⟨t, ht, hslot, hused⟩ := id h
    simp only [ht, stepTable, hop]
    split_ifs with hfar hfree hself
    · exact ⟨_, rfl, .quiet hop rfl rfl, trivial⟩
    · refine ⟨_, rfl, .quiet hop rfl rfl, h, Nat.not_le.mp hfar, hfree.imp_right fun hdel => ?_⟩
      exact ⟨hdel, t, ht, by rw [hdel]; decide⟩
    · exact ⟨_, rfl, .quiet hop rfl rfl, trivial⟩
    · refine ⟨_, rfl, .quiet hop rfl rfl, t, ht, by rw [hslot]; rfl, hused.succ ?_⟩
      rw [← hslot]
      exact fun hempty => hfree (.inl hempty)
  | addClaim i slot expected =>
    rw [hop] at h
    obtain ⟨hp, hi, hexp⟩ := h
    obtain ⟨t, ht, rfl, hused⟩ := id hp
    simp only [ht, stepTable, hop]
    split_ifs with heq
    · exact ⟨_, rfl, .claim (by rw [hop]; exact ⟨rfl, rfl⟩) ht hi
        (heq ▸ hexp.imp_right And.left) hused, _, tables_setTable_self ..⟩
    · refine ⟨_, rfl, .quiet hop rfl rfl, hp, hi, ?_⟩
      rcases hexp with rfl | ⟨_, hslotUsed⟩
      · exact ⟨t, ht, heq⟩
      · exact hslotUsed
  | addReload i slot =>
    rw [hop] at h
    obtain ⟨⟨t, ht, hslot, hused⟩, _, u, hu, hslotUsed⟩ := h
    rw [ht] at hu
    cases hu
    simp only [ht, stepTable, hop]
    split_ifs with hself
    · exact ⟨_, rfl, .quiet hop rfl rfl, trivial⟩
    · exact ⟨_, rfl, .quiet hop rfl rfl, t, ht, by rw [hslot]; rfl, hused.succ (by rwa [← hslot])⟩
  | addCount =>
    rw [hop] at h
    obtain ⟨t, ht⟩ := h
    simp only [ht, stepTable, hop]
    exact ⟨_, rfl, .countUp hop ht, trivial⟩
  | removeGetTable =>
    cases ht : b.tables op.shard with
    | none => exact ⟨_, rfl, .quiet hop rfl rfl, trivial⟩
    | some t => exact ⟨_, rfl, .quiet hop rfl rfl, t, ht, rfl⟩
  | removeLoad i slot =>
    rw [hop] at h
    obtain ⟨t, ht, hslot⟩ := h
    have hnext : b.Tracks (op.goto (.removeLoad (i + 1) (t.nextSlot slot))) :=
      ⟨t, ht, by rw [hslot]; rfl⟩
    simp only [ht, stepTable, hop]
    split_ifs
    · exact ⟨_, rfl, .quiet hop rfl rfl, trivial⟩
    · exact ⟨_, rfl, .quiet hop rfl rfl, trivial⟩
    · exact ⟨_, rfl, .quiet hop rfl rfl, hnext⟩
    · exact ⟨_, rfl, .quiet hop rfl rfl, t, i, ht, hslot⟩
    · exact ⟨_, rfl, .quiet hop rfl rfl, hnext⟩
  | removeDelete slot =>
    rw [hop] at h
    obtain ⟨t, i, ht, rfl⟩ := h
    simp only [ht, stepTable, hop]
    split_ifs with hself
    · exact ⟨_, rfl, .delete (by rw [hop]; exact ⟨rfl, rfl⟩) ht hself,
        _, tables_setTable_self ..⟩
    · exact ⟨_, rfl, .quiet hop rfl rfl, trivial⟩
  | removeCount =>
    rw [hop] at h
    obtain ⟨t, ht⟩ := h
    simp only [ht, stepTable, hop]
    exact ⟨_, rfl, .countDown hop ht, trivial⟩
  | addDone result =>
    refine ⟨.addDone result, ?_, ?_, trivial⟩
    · cases ht : b.tables op.shard <;> simp only [stepTable, hop] <;> rw [← hop] <;> rfl
    · cases ht : b.tables op.shard <;> simp only [stepTable, hop] <;>
        exact .quiet hop rfl rfl
  | removeDone result =>
    refine ⟨.removeDone result, ?_, ?_, trivial⟩
    · cases ht : b.tables op.shard <;> simp only [stepTable, hop] <;> rw [← hop] <;> rfl
    · cases ht : b.tables op.shard <;> simp only [stepTable, hop] <;>
        exact .quiet hop rfl rfl

/-! ### What the accesses keep -/

theorem countOf_setTable (b : AddressBitset) (shard : Shard) (t : AddressTable) :
    (b.setTable shard t).countOf = Function.update b.countOf shard t.count := by
  ext s : 1
  by_cases h : s = shard
  · subst h
    rw [countOf, tables_setTable_self, Function.update_self]
    rfl
  · rw [countOf, tables_setTable_of_ne h, Function.update_of_ne h]
    rfl

theorem occupied_setTable (b : AddressBitset) (shard : Shard) (t : AddressTable) :
    (b.setTable shard t).occupied = Function.update b.occupied shard t.occupied := by
  ext s : 1
  by_cases h : s = shard
  · subst h
    rw [occupied, tables_setTable_self, Function.update_self]
    rfl
  · rw [occupied, tables_setTable_of_ne h, Function.update_of_ne h]
    rfl

def totalOccupied (b : AddressBitset) : ℕ := ∑ shard ∈ shards, b.occupied shard

theorem totalOccupied_setTable {shard : Shard} (h : shard ∈ shards) (t : AddressTable) :
    (b.setTable shard t).totalOccupied + b.occupied shard = b.totalOccupied + t.occupied := by
  rw [totalOccupied, occupied_setTable, Finset.sum_update_of_mem h, totalOccupied,
    ← Finset.add_sum_erase _ _ h, Finset.sdiff_singleton_eq_erase]
  omega

end AddressBitset

/-- What a call owes to the count of a table. -/
def BitsetOp.owes (op : BitsetOp) (shard : Shard) : ℤ :=
  if op.shard = shard then op.pc.uncounted else 0

namespace AddressBitset

variable {b b' : AddressBitset} {k a : ℕ} {op : BitsetOp} {t t' : AddressTable} {isLarge : Bool}
  {pc : BitsetPc}

def Sized (b : AddressBitset) : Prop :=
  0 < b.perTableSize ∧ ∀ shard t, b.tables shard = some t → 0 < t.tableSize

theorem Sized.setTable (h : b.Sized) (shard : Shard) (ht : 0 < t.tableSize) :
    (b.setTable shard t).Sized := by
  refine ⟨h.1, fun s u hu => ?_⟩
  by_cases hs : s = shard
  · subst hs
    rw [tables_setTable_self] at hu
    cases hu
    exact ht
  · rw [tables_setTable_of_ne hs] at hu
    exact h.2 s u hu

theorem Access.sized (h : Access b op b' pc) (hb : b.Sized) : b'.Sized := by
  cases h with
  | look => exact hb
  | install _ hn => exact hb.setTable _ (roundUpToPowerOfTwo_pos hb.1)
  | claim _ ht =>
    have hpos := hb.2 _ _ ht
    exact hb.setTable _ hpos
  | countUp _ ht =>
    have hpos := hb.2 _ _ ht
    exact hb.setTable _ hpos
  | delete _ ht =>
    have hpos := hb.2 _ _ ht
    exact hb.setTable _ hpos
  | countDown _ ht =>
    have hpos := hb.2 _ _ ht
    exact hb.setTable _ hpos

theorem countOf_eq (ht : b.tables op.shard = some t) : b.countOf op.shard = t.count := by
  rw [countOf, ht]
  rfl

theorem occupied_eq (ht : b.tables op.shard = some t) : b.occupied op.shard = t.occupied := by
  rw [occupied, ht]
  rfl

/-- An access that changes one table changes the count and the number of addresses of
that table, and what the call owes. -/
theorem counted_setTable (hpc : (t.count.toNat + pc.uncounted - t.occupied : ℤ) ≡
      (b.countOf op.shard).toNat + op.pc.uncounted - b.occupied op.shard [ZMOD 2 ^ 64])
    (shard : Shard) :
    (((b.setTable op.shard t).countOf shard).toNat + (op.goto pc).owes shard -
        (b.setTable op.shard t).occupied shard : ℤ) ≡
      (b.countOf shard).toNat + op.owes shard - b.occupied shard [ZMOD 2 ^ 64] := by
  have hgoto : (op.goto pc).owes shard = if op.shard = shard then pc.uncounted else 0 := rfl
  rw [countOf_setTable, occupied_setTable, hgoto, BitsetOp.owes]
  by_cases h : shard = op.shard
  · subst h
    rw [Function.update_self, Function.update_self, if_pos rfl, if_pos rfl]
    exact hpc
  · rw [Function.update_of_ne h, Function.update_of_ne h, if_neg (Ne.symm h), if_neg (Ne.symm h)]

/-- The count of a table, with what the calls owe it, moves with its number of addresses. -/
theorem Access.counted (h : Access b op b' pc) (hb : b.Sized) (ha : IsAddress op.addr)
    (shard : Shard) :
    ((b'.countOf shard).toNat + (op.goto pc).owes shard - b'.occupied shard : ℤ) ≡
      (b.countOf shard).toNat + op.owes shard - b.occupied shard [ZMOD 2 ^ 64] := by
  cases h with
  | look pc hcount _ =>
    have howes : (op.goto pc).owes shard = op.owes shard := if_congr Iff.rfl hcount rfl
    rw [howes]
  | install hop hn =>
    refine counted_setTable ?_ shard
    rw [AddressTable.occupied_make, hop, countOf, occupied, hn]
    rfl
  | @claim t i hop ht hi hfree hused =>
    refine counted_setTable ?_ shard
    have hslot := lt_of_le_of_lt (t.probe_le op.addr i) (AddressTable.tableMask_lt (hb.2 _ _ ht))
    rw [AddressTable.occupied_write_address hslot hfree ha, hop.1, countOf_eq ht, occupied_eq ht]
    change ((t.count.toNat : ℤ) + 1 - _) ≡ _ [ZMOD _]
    unfold Int.ModEq
    omega
  | @countUp t hop ht =>
    refine counted_setTable ?_ shard
    rw [hop, countOf_eq ht, occupied_eq ht, BitVec.toNat_add,
      show (1 : BitVec 64).toNat = 1 from rfl]
    change ((_ : ℤ) + 0 - t.occupied) ≡ t.count.toNat + 1 - _ [ZMOD _]
    unfold Int.ModEq
    omega
  | @delete t i hop ht hstored =>
    refine counted_setTable ?_ shard
    have hslot := lt_of_le_of_lt (t.probe_le op.addr i) (AddressTable.tableMask_lt (hb.2 _ _ ht))
    rw [hop.1, countOf_eq ht, occupied_eq ht,
      ← AddressTable.occupied_write_deleted hslot (hstored.symm ▸ ha)]
    change ((t.count.toNat : ℤ) + -1 - _) ≡ _ [ZMOD _]
    unfold Int.ModEq
    omega
  | @countDown t hop ht =>
    refine counted_setTable ?_ shard
    rw [hop, countOf_eq ht, occupied_eq ht, BitVec.toNat_sub,
      show (1 : BitVec 64).toNat = 1 from rfl]
    change ((_ : ℤ) + 0 - t.occupied) ≡ t.count.toNat + -1 - _ [ZMOD _]
    unfold Int.ModEq
    omega

/-- The number of addresses moves with what the call will return. -/
theorem Access.total (h : Access b op b' pc) (hb : b.Sized) (ha : IsAddress op.addr) :
    (b'.totalOccupied : ℤ) - pc.unreturned = b.totalOccupied - op.pc.unreturned := by
  have hshard : op.shard ∈ shards := shardOf_mem ..
  cases h with
  | look pc _ hreturn => rw [hreturn]
  | install hop hn =>
    have htotal := totalOccupied_setTable (b := b) hshard (AddressTable.make b.perTableSize)
    rw [occupied, hn, AddressTable.occupied_make, Option.elim_none] at htotal
    rw [hop, Nat.add_right_cancel htotal]
    rfl
  | @claim t i hop ht hi hfree hused =>
    have hslot := lt_of_le_of_lt (t.probe_le op.addr i) (AddressTable.tableMask_lt (hb.2 _ _ ht))
    have htotal := totalOccupied_setTable (b := b) hshard (t.write (t.probe op.addr i) op.addr)
    rw [occupied_eq ht, AddressTable.occupied_write_address hslot hfree ha] at htotal
    rw [hop.2]
    change _ - (1 : ℤ) = _
    omega
  | @countUp t hop ht =>
    have htotal := totalOccupied_setTable (b := b) hshard { t with count := t.count + 1 }
    rw [occupied_eq ht] at htotal
    rw [hop, Nat.add_right_cancel htotal]
    rfl
  | @delete t i hop ht hstored =>
    have hslot := lt_of_le_of_lt (t.probe_le op.addr i) (AddressTable.tableMask_lt (hb.2 _ _ ht))
    have htotal := totalOccupied_setTable (b := b) hshard (t.write (t.probe op.addr i) deletedSlot)
    rw [occupied_eq ht,
      ← AddressTable.occupied_write_deleted hslot (hstored.symm ▸ ha)] at htotal
    rw [hop.2]
    change _ - (-1 : ℤ) = _
    omega
  | @countDown t hop ht =>
    have htotal := totalOccupied_setTable (b := b) hshard { t with count := t.count - 1 }
    rw [occupied_eq ht] at htotal
    rw [hop, Nat.add_right_cancel htotal]
    rfl

theorem InReach.of_update {i : ℕ} (h : InReach t a i) (hk : IsAddress k)
    (hsize : t'.tableSize = t.tableSize)
    (hslots : Probing.Update emptySlot deletedSlot k t.slots t'.slots)
    (hstored : t'.slots (t.probe a i) = a) : InReach t' a i := by
  have hprobe : t'.probe a = t.probe a := funext (AddressTable.probe_congr hsize a)
  refine ⟨h.within, ?_, ?_⟩
  · rw [hprobe]
    exact hslots.used hk.1 (by decide) h.used
  · rw [hprobe]
    exact hstored

/-- An address that was there is still in reach, so only the slots that are written
matter. -/
theorem Placed.evolves (hb : b.Placed) (h : Evolves k b b') (hk : IsAddress k)
    (hnew : ∀ shard t t' slot, b.tables shard = some t → b'.tables shard = some t' →
      t'.slots slot = k → t.slots slot = k ∨ (∃ isLarge, shard = shardOf k isLarge) ∧
        ∃ i, slot = t'.probe k i ∧ InReach t' k i) : b'.Placed := by
  intro shard t' slot ht' haddr
  cases ht : b.tables shard with
  | none =>
    rw [h.created shard t' ht ht' slot] at haddr
    exact absurd rfl haddr.1
  | some t =>
    obtain ⟨u, hu, hsize, hslots⟩ := h.kept shard t ht
    rw [ht'] at hu
    cases hu
    -- the address of an unchanged slot is where it was
    have hsame : t'.slots slot = t.slots slot →
        (∃ isLarge, shard = shardOf (t'.slots slot) isLarge) ∧
        ∃ i, slot = t'.probe (t'.slots slot) i ∧ InReach t' (t'.slots slot) i := by
      intro heq
      obtain ⟨hshard, i, hslot, hreach⟩ := hb shard t slot ht (heq ▸ haddr)
      rw [heq]
      refine ⟨hshard, i, hslot.trans (AddressTable.probe_congr hsize ..).symm, ?_⟩
      exact hreach.of_update hk hsize hslots (by rw [← hslot]; exact heq)
    rcases hslots slot with heq | ⟨hfree, heq⟩ | ⟨_, heq⟩
    · exact hsame heq
    · rcases hnew shard t t' slot ht ht' heq with hold | hplaced
      · exact hsame (heq.trans hold.symm)
      · rwa [heq]
    · rw [heq] at haddr
      exact absurd rfl haddr.2

theorem setTable_cases {shard shard' : Shard} {u u' : AddressTable}
    (hu : b.tables shard' = some u) (ht : b.tables shard = some t)
    (ht' : (b.setTable shard' u').tables shard = some t') :
    t' = t ∨ shard = shard' ∧ t = u ∧ t' = u' := by
  by_cases h : shard = shard'
  · subst h
    rw [tables_setTable_self] at ht'
    rw [hu] at ht
    cases ht
    cases ht'
    exact .inr ⟨rfl, rfl, rfl⟩
  · rw [tables_setTable_of_ne h, ht] at ht'
    cases ht'
    exact .inl rfl

theorem Access.placed (h : Access b op b' pc) (hev : Evolves op.addr b b') (hb : b.Placed)
    (ha : IsAddress op.addr) : b'.Placed := by
  refine hb.evolves hev ha fun shard t t' slot ht ht' hslot => ?_
  cases h with
  | look =>
    rw [ht] at ht'
    cases ht'
    exact .inl hslot
  | install hop hn =>
    have hne : shard ≠ op.shard := by
      rintro rfl
      rw [hn] at ht
      cases ht
    rw [tables_setTable_of_ne hne, ht] at ht'
    cases ht'
    exact .inl hslot
  | claim hop hu hi hfree hused =>
    rcases setTable_cases hu ht ht' with rfl | ⟨rfl, rfl, rfl⟩
    · exact .inl hslot
    · rename_i i
      by_cases hs : slot = t.probe op.addr i
      · refine .inr ⟨⟨op.isLargeAlloc, rfl⟩, i, ?_, hi, ?_, ?_⟩
        · rw [AddressTable.probe_write, hs]
        · rw [AddressTable.probe_write]
          exact (Probing.Update.write hfree).used ha.1 (by decide) hused
        · rw [AddressTable.probe_write]
          exact AddressTable.slots_write_self ..
      · exact .inl ((AddressTable.slots_write_of_ne hs ..).symm.trans hslot)
  | countUp hop hu =>
    rcases setTable_cases hu ht ht' with rfl | ⟨rfl, rfl, rfl⟩
    · exact .inl hslot
    · exact .inl hslot
  | delete hop hu hstored =>
    rcases setTable_cases hu ht ht' with rfl | ⟨rfl, rfl, rfl⟩
    · exact .inl hslot
    · rename_i i
      by_cases hs : slot = t.probe op.addr i
      · exact .inl (hs ▸ hstored)
      · exact .inl ((AddressTable.slots_write_of_ne hs ..).symm.trans hslot)
  | countDown hop hu =>
    rcases setTable_cases hu ht ht' with rfl | ⟨rfl, rfl, rfl⟩
    · exact .inl hslot
    · exact .inl hslot

/-! ### Calls together -/

/-- The tables and the calls that run on them: `net` is the number of calls of `add` that
have returned true less that of `remove`. -/
structure Consistent (b : AddressBitset) (ops : List BitsetOp) (net : ℤ) : Prop where
  sized : b.Sized
  placed : b.Placed
  address : ∀ op ∈ ops, IsAddress op.addr
  tracks : ∀ op ∈ ops, b.Tracks op
  counted : ∀ shard, ((b.countOf shard).toNat + (ops.map (·.owes shard)).sum : ℤ) ≡
    b.occupied shard [ZMOD 2 ^ 64]
  balanced : (b.totalOccupied : ℤ) = net + (ops.map (·.pc.unreturned)).sum

variable {ops ops' : List BitsetOp} {net : ℤ}

theorem Consistent.perm (h : b.Consistent ops net) (hp : ops.Perm ops') :
    b.Consistent ops' net where
  sized := h.sized
  placed := h.placed
  address op hop := h.address op (hp.mem_iff.mpr hop)
  tracks op hop := h.tracks op (hp.mem_iff.mpr hop)
  counted shard := by
    rw [← (hp.map _).sum_eq]
    exact h.counted shard
  balanced := by
    rw [← (hp.map _).sum_eq]
    exact h.balanced

theorem Consistent.call (h : b.Consistent ops net) (ha : IsAddress op.addr)
    (hpc : op.pc = .addGetTable ∨ op.pc = .removeGetTable) : b.Consistent (op :: ops) net := by
  have huncounted : op.pc.uncounted = 0 := by rcases hpc with hpc | hpc <;> rw [hpc] <;> rfl
  have hunreturned : op.pc.unreturned = 0 := by rcases hpc with hpc | hpc <;> rw [hpc] <;> rfl
  have htracks : b.Tracks op := by
    unfold Tracks
    rcases hpc with hpc | hpc <;> rw [hpc] <;> trivial
  refine ⟨h.sized, h.placed, List.forall_mem_cons.mpr ⟨ha, h.address⟩,
    List.forall_mem_cons.mpr ⟨htracks, h.tracks⟩, fun shard => ?_, ?_⟩
  · rw [List.map_cons, List.sum_cons, BitsetOp.owes, huncounted, ite_self, zero_add]
    exact h.counted shard
  · rw [List.map_cons, List.sum_cons, hunreturned, zero_add]
    exact h.balanced

theorem Consistent.step (h : b.Consistent (op :: ops) net) :
    (b.step op).1.Consistent ((b.step op).2 :: ops) net := by
  obtain ⟨ha, haddress⟩ := List.forall_mem_cons.mp h.address
  obtain ⟨ht, htracks⟩ := List.forall_mem_cons.mp h.tracks
  have hev := ht.step_evolves
  obtain ⟨pc, hpc, haccess, ht'⟩ := ht.step
  rw [hpc]
  refine ⟨haccess.sized h.sized, haccess.placed hev h.placed ha,
    List.forall_mem_cons.mpr ⟨ha, haddress⟩,
    List.forall_mem_cons.mpr ⟨ht', fun o ho => hev.tracks ha (htracks o ho)⟩, fun shard => ?_, ?_⟩
  · have hcounted := h.counted shard
    have haccess := haccess.counted h.sized ha shard
    rw [List.map_cons, List.sum_cons] at hcounted ⊢
    unfold Int.ModEq at *
    omega
  · have hbalanced := h.balanced
    have htotal := haccess.total h.sized ha
    rw [List.map_cons, List.sum_cons] at hbalanced ⊢
    change _ = net + (pc.unreturned + _)
    omega

theorem Consistent.ret (h : b.Consistent (op :: ops) net) {result : Bool}
    (hpc : op.pc = .addDone result ∨ op.pc = .removeDone result) :
    b.Consistent ops (net + op.pc.unreturned) := by
  refine ⟨h.sized, h.placed, (List.forall_mem_cons.mp h.address).2,
    (List.forall_mem_cons.mp h.tracks).2, fun shard => ?_, ?_⟩
  · have huncounted : op.pc.uncounted = 0 := by rcases hpc with hpc | hpc <;> rw [hpc] <;> rfl
    have hcounted := h.counted shard
    rwa [List.map_cons, List.sum_cons, BitsetOp.owes, huncounted, ite_self, zero_add] at hcounted
  · have hbalanced := h.balanced
    rw [List.map_cons, List.sum_cons] at hbalanced
    omega

theorem consistent_of_empty (hsized : b.Sized)
    (hempty : ∀ shard t, b.tables shard = some t →
      (∀ slot, ¬ IsAddress (t.slots slot)) ∧ t.count = 0) : b.Consistent [] 0 := by
  have hoccupied : ∀ shard, b.occupied shard = 0 ∧ b.countOf shard = 0 := by
    intro shard
    rw [occupied, countOf]
    cases ht : b.tables shard with
    | none => exact ⟨rfl, rfl⟩
    | some t =>
      obtain ⟨hslots, hcount⟩ := hempty shard t ht
      exact ⟨Probing.keys_eq_zero hslots, hcount⟩
  refine ⟨hsized, fun shard t slot ht ha => absurd ha ((hempty shard t ht).1 slot), nofun, nofun,
    fun shard => ?_, ?_⟩
  · rw [(hoccupied shard).1, (hoccupied shard).2]
    rfl
  · rw [totalOccupied, Finset.sum_congr rfl fun shard _ => (hoccupied shard).1]
    simp

theorem consistent_init (tableSize : ℕ) : (init tableSize).Consistent [] 0 := by
  have hpos : 0 < (init tableSize).perTableSize := by
    change 0 < ite _ _ _
    split_ifs with h
    · exact Nat.pos_of_ne_zero h
    · decide
  have hnew : ∀ shard t, (init tableSize).tables shard = some t →
      t = AddressTable.make (init tableSize).perTableSize := by
    intro shard t ht
    cases shard with
    | chunk idx => cases ht
    | large => exact (Option.some.inj ht).symm
  refine consistent_of_empty ⟨hpos, fun shard t ht => ?_⟩ fun shard t ht => ?_
  · rw [hnew shard t ht]
    exact roundUpToPowerOfTwo_pos hpos
  · rw [hnew shard t ht]
    exact ⟨fun _ ha => absurd rfl ha.1, rfl⟩

/-- With no call running, the count of a table is the number of its addresses: slots are
numbered by 32-bit words, so the 64-bit count has not wrapped around. -/
theorem Consistent.count_eq (h : b.Consistent [] net) (shard : Shard) :
    (b.countOf shard).toNat = b.occupied shard := by
  have hsmall : b.occupied shard ≤ 2 ^ 32 := by
    cases ht : b.tables shard with
    | none =>
      rw [occupied, ht]
      exact Nat.zero_le _
    | some t =>
      rw [occupied, ht]
      refine Probing.keys_le fun slot ha => ?_
      obtain ⟨_, i, hslot, _⟩ := h.placed shard t slot ht ha
      rw [hslot]
      exact t.probe_lt_word _ i
  have hcounted := h.counted shard
  have hlt := (b.countOf shard).isLt
  rw [List.map_nil, List.sum_nil] at hcounted
  unfold Int.ModEq at hcounted
  omega

end AddressBitset

end Ddprof
