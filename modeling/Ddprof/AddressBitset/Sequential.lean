import Ddprof.AddressBitset.Concurrent

/-!
Calls one after the other: the tables as a finite set.

`add` takes the first free slot of its probe sequence, and a slot whose address has been
removed is free. It does not look further, so an address that is stored behind such
a slot is stored a second time. As long as that does not happen, `add`, `remove` and
`clear` are insertion, deletion and the empty set.
-/

namespace Ddprof

namespace AddressBitset

variable {b b' : AddressBitset} {op : BitsetOp} {t : AddressTable} {a k : ℕ} {isLarge : Bool}
  {net : ℤ} {result : Bool}

/-! ### The operations -/

def add (b : AddressBitset) (addr : ℕ) (isLargeAlloc : Bool) : AddressBitset × Bool :=
  let s := b.call (.add addr isLargeAlloc)
  (s.1, s.2.pc = .addDone true)

def remove (b : AddressBitset) (addr : ℕ) (isLargeAlloc : Bool) : AddressBitset × Bool :=
  let s := b.call (.remove addr isLargeAlloc)
  (s.1, s.2.pc = .removeDone true)

def clear (b : AddressBitset) : AddressBitset :=
  { b with
    tables := fun shard => (b.tables shard).map fun t =>
      { t with
        slots := fun i => if i < t.tableSize then emptySlot else t.slots i
        count := 0 } }

/-- The tables in the order in which their counts are added up. -/
def shardList : List Shard := (List.range 128).map .chunk ++ [.large]

/-- The counts are added up in an `int`. -/
def count (b : AddressBitset) : ℤ :=
  (shardList.foldl (fun total shard => total + (b.countOf shard).setWidth 32) (0 : BitVec 32)).toInt

theorem toNat_foldl_add (f : Shard → BitVec 64) (l : List Shard) (total : BitVec 32) :
    (l.foldl (fun total shard => total + (f shard).setWidth 32) total).toNat =
      (total.toNat + (l.map fun shard => (f shard).toNat).sum) % 2 ^ 32 := by
  induction l generalizing total with
  | nil => simp [Nat.mod_eq_of_lt total.isLt]
  | cons shard rest ih =>
    rw [List.foldl_cons, ih, List.map_cons, List.sum_cons, BitVec.toNat_add,
      BitVec.toNat_setWidth]
    omega

theorem sum_shardList (f : Shard → ℕ) : (shardList.map f).sum = ∑ shard ∈ shards, f shard := by
  have hnodup : shardList.Nodup := by
    refine List.Nodup.append (List.nodup_range.map fun i j h => ?_) (List.nodup_singleton _) ?_
    · exact Shard.chunk.inj h
    · simp
  have hmem : shards = shardList.toFinset := by
    ext shard
    simp [shards, shardList]
  rw [hmem, List.sum_toFinset f hnodup]

theorem Consistent.count (h : b.Consistent [] net) (hsmall : b.totalOccupied < 2 ^ 31) :
    b.count = b.totalOccupied := by
  have htotal : (shardList.map fun shard => (b.countOf shard).toNat).sum = b.totalOccupied := by
    rw [sum_shardList, totalOccupied]
    exact Finset.sum_congr rfl fun shard _ => h.count_eq shard
  have hfold := toNat_foldl_add b.countOf shardList 0
  rw [htotal, show (0 : BitVec 32).toNat = 0 from rfl, Nat.zero_add,
    Nat.mod_eq_of_lt (by omega)] at hfold
  rw [AddressBitset.count, BitVec.toInt_eq_toNat_cond, hfold, if_pos (by omega)]

end AddressBitset

def BitsetPc.isAdd : BitsetPc → Bool
  | .addGetTable | .addInstall | .addCheckCapacity | .addLoad _ _ | .addClaim _ _ _
  | .addReload _ _ | .addCount | .addDone _ => true
  | .removeGetTable | .removeLoad _ _ | .removeDelete _ | .removeCount | .removeDone _ => false

namespace AddressBitset

variable {b b' : AddressBitset} {op : BitsetOp} {t : AddressTable} {a k n : ℕ} {isLarge : Bool}
  {net : ℤ} {result : Bool}

theorem contains_of_present (h : b.Present a isLarge) (ha : IsAddress a) : b.Contains a := by
  obtain ⟨t, i, hstored⟩ := h
  exact ⟨ha.1, ha.2, _, _, t, hstored.table, hstored.stored⟩

theorem not_contains_of_absent (h : b.Absent a) : ¬ b.Contains a :=
  fun ⟨_, _, shard, slot, hholds⟩ => h shard slot hholds

/-! ### The end of a call -/

theorem stepTable_isAdd (b : AddressBitset) (op : BitsetOp) (t : AddressTable) :
    (b.stepTable op t).2.pc.isAdd = op.pc.isAdd := by
  rw [stepTable]
  cases hop : op.pc with
  | addCheckCapacity | addLoad _ _ | addClaim _ _ _ | addReload _ _ => simp only; split_ifs <;> rfl
  | removeLoad _ _ | removeDelete _ => simp only; split_ifs <;> rfl
  | addCount | removeCount => rfl
  | addGetTable | addInstall | addDone _ | removeGetTable | removeDone _ => rw [hop]

theorem step_isAdd (b : AddressBitset) (op : BitsetOp) :
    (b.step op).2.pc.isAdd = op.pc.isAdd := by
  rw [step]
  split
  · rename_i hop
    rw [hop]
    split_ifs <;> rfl
  · rename_i hop
    rw [hop]
    split_ifs <;> rfl
  · rename_i hop
    rw [hop]
    split <;> rfl
  · split
    · rfl
    · exact b.stepTable_isAdd op _

theorem call_isAdd (b : AddressBitset) (op : BitsetOp) :
    (b.call op).2.pc.isAdd = op.pc.isAdd :=
  call_induction (motive := fun _ op' => op'.pc.isAdd = op.pc.isAdd) b op rfl
    fun b op' h => (b.step_isAdd op').trans h

theorem call_op (b : AddressBitset) (op : BitsetOp) : ∃ pc, (b.call op).2 = op.goto pc := by
  refine call_induction (motive := fun _ op' => ∃ pc, op' = op.goto pc) b op ⟨op.pc, rfl⟩ ?_
  rintro b _ ⟨pc, rfl⟩
  obtain ⟨pc', hpc'⟩ := b.step_op (op.goto pc)
  exact ⟨pc', hpc'⟩

theorem Consistent.add (h : b.Consistent [] net) (ha : IsAddress a) (isLarge : Bool) :
    (b.call (.add a isLarge)).2.pc = .addDone (b.add a isLarge).2 ∧
      (b.add a isLarge).1.Consistent [] (net + (b.add a isLarge).2.toNat) := by
  obtain ⟨⟨result, hdone⟩, hcons⟩ := h.call_done (.add a isLarge) ha (.inl rfl)
  have hadd := b.call_isAdd (.add a isLarge)
  rcases hdone with hdone | hdone
  · have hresult : (b.add a isLarge).2 = result := by
      change decide ((b.call (.add a isLarge)).2.pc = .addDone true) = result
      rw [hdone]
      cases result <;> rfl
    rw [hdone] at hcons
    rw [hresult]
    cases result <;> exact ⟨hdone, hcons⟩
  · rw [hdone] at hadd
    cases hadd

theorem Consistent.remove (h : b.Consistent [] net) (ha : IsAddress a) (isLarge : Bool) :
    (b.call (.remove a isLarge)).2.pc = .removeDone (b.remove a isLarge).2 ∧
      (b.remove a isLarge).1.Consistent [] (net - (b.remove a isLarge).2.toNat) := by
  obtain ⟨⟨result, hdone⟩, hcons⟩ := h.call_done (.remove a isLarge) ha (.inr rfl)
  have hadd := b.call_isAdd (.remove a isLarge)
  rcases hdone with hdone | hdone
  · rw [hdone] at hadd
    cases hadd
  · have hresult : (b.remove a isLarge).2 = result := by
      change decide ((b.call (.remove a isLarge)).2.pc = .removeDone true) = result
      rw [hdone]
      cases result <;> rfl
    rw [hdone] at hcons
    rw [hresult]
    cases result <;> exact ⟨hdone, hcons⟩

theorem step_done (b : AddressBitset) (hop : op.pc = .addDone result ∨ op.pc = .removeDone result) :
    b.step op = (b, op) := by
  rw [step]
  rcases hop with hop | hop <;> rw [hop] <;> cases b.tables op.shard <;> simp only [stepTable, hop]

/-! ### What a call does to its own address -/

/-- A call that finds its table full gives up and changes nothing. -/
theorem Knows.step_full (h : b.Knows op) (hfull : ¬ b.NotFull op) :
    b.step op = (b, op.goto (.addDone false)) ∧ b.Absent op.addr := by
  unfold Knows at h
  unfold NotFull at hfull
  rw [AddressBitset.step]
  cases hop : op.pc with
  | addCheckCapacity =>
    rw [hop] at h hfull
    obtain ⟨habs, t, ht⟩ := h
    simp only [ht, Option.mem_def, Option.some.injEq, forall_eq', not_lt] at hfull
    simp only [ht, stepTable, hop]
    exact ⟨if_pos hfull, habs⟩
  | addLoad i slot =>
    rw [hop] at h hfull
    obtain ⟨habs, t, ht, _⟩ := h
    simp only [ht, stepTable, hop]
    exact ⟨if_pos (Nat.not_lt.mp hfull), habs⟩
  | _ =>
    rw [hop] at hfull
    exact absurd trivial hfull

/-- An `add` of an address that is not there stores it or gives up. -/
def Adds (b : AddressBitset) (op : BitsetOp) : Prop :=
  IsAddress op.addr ∧ (b.Knows op ∨ op.pc = .addDone false ∧ b.Absent op.addr)

theorem Adds.step (h : b.Adds op) : (b.step op).1.Adds (b.step op).2 := by
  obtain ⟨ha, hknows | ⟨hdone, habs⟩⟩ := h
  · obtain ⟨pc, hpc⟩ := b.step_op op
    refine ⟨hpc ▸ ha, ?_⟩
    by_cases hfull : b.NotFull op
    · exact .inl (hknows.step ha hfull)
    · obtain ⟨hstep, habs⟩ := hknows.step_full hfull
      rw [hstep]
      exact .inr ⟨rfl, habs⟩
  · rw [step_done b (.inl hdone)]
    exact ⟨ha, .inr ⟨hdone, habs⟩⟩

theorem Adds.done (h : b.Adds op) (hdone : op.pc = .addDone result) :
    if result then b.Present op.addr op.isLargeAlloc else b.Absent op.addr := by
  obtain ⟨_, hknows | ⟨hfalse, habs⟩⟩ := h
  · unfold Knows at hknows
    rw [hdone] at hknows
    rw [hknows.1]
    exact hknows.2
  · cases hdone.symm.trans hfalse
    exact habs

theorem Absent.add (habs : b.Absent a) (hb : b.Consistent [] net) (ha : IsAddress a)
    (isLarge : Bool) :
    if (b.add a isLarge).2 then (b.add a isLarge).1.Present a isLarge
    else (b.add a isLarge).1.Absent a := by
  have hdone := (hb.add ha isLarge).1
  have hadds : b.Adds (.add a isLarge) := ⟨ha, .inl habs⟩
  have hend := call_induction b _ hadds fun _ _ h => h.step
  obtain ⟨pc, hpc⟩ := b.call_op (.add a isLarge)
  have hop := hend.done hdone
  rwa [hpc] at hop

theorem Present.remove (hpresent : b.Present a isLarge) (hb : b.Consistent [] net)
    (ha : IsAddress a) : (b.remove a isLarge).2 = true ∧ (b.remove a isLarge).1.Absent a := by
  have hdone := (hb.remove ha isLarge).1
  have hstep : ∀ b op, IsAddress op.addr ∧ op.pc.isAdd = false ∧ Knows b op →
      IsAddress (b.step op).2.addr ∧ (b.step op).2.pc.isAdd = false ∧
        (b.step op).1.Knows (b.step op).2 := by
    rintro b op ⟨ha, hremove, hknows⟩
    obtain ⟨pc, hpc⟩ := b.step_op op
    refine ⟨hpc ▸ ha, (b.step_isAdd op).trans hremove, hknows.step ha ?_⟩
    unfold NotFull
    cases hop : op.pc with
    | addCheckCapacity | addLoad _ _ => rw [hop] at hremove; cases hremove
    | _ => trivial
  obtain ⟨_, _, hknows⟩ := call_induction
    (motive := fun b op => IsAddress op.addr ∧ op.pc.isAdd = false ∧ b.Knows op)
    b (.remove a isLarge) ⟨ha, rfl, hpresent⟩ hstep
  obtain ⟨pc, hpc⟩ := b.call_op (.remove a isLarge)
  rw [hpc] at hknows hdone
  obtain rfl : pc = .removeDone (b.remove a isLarge).2 := hdone
  exact hknows

/-- Up to the deletion a call of `remove` has changed nothing, and it gets there only if the address
is in the set. -/
def Searches (b b' : AddressBitset) (op : BitsetOp) : Prop :=
  match op.pc with
  | .removeGetTable | .removeLoad _ _ | .removeDone false => b' = b
  | .removeDelete slot => b' = b ∧ b.Holds op.addr op.shard slot
  | .removeCount | .removeDone true => ¬ b.Absent op.addr
  | _ => False

theorem Searches.step {b' : AddressBitset} {op : BitsetOp} (h : Searches b b' op) :
    Searches b (b'.step op).1 (b'.step op).2 := by
  unfold Searches at h
  rw [AddressBitset.step]
  cases hop : op.pc with
  | removeGetTable =>
    rw [hop] at h
    cases b'.tables op.shard <;> exact h
  | removeLoad i slot =>
    rw [hop] at h
    subst h
    cases ht : b'.tables op.shard with
    | none =>
      unfold Searches
      simp only [hop]
    | some t =>
      simp only [stepTable, hop]
      split_ifs with _ _ _ hself
      · rfl
      · rfl
      · rfl
      · exact ⟨rfl, t, ht, hself⟩
      · rfl
  | removeDelete slot =>
    rw [hop] at h
    obtain ⟨rfl, t, ht, hself⟩ := h
    simp only [ht, stepTable, hop]
    rw [if_pos hself]
    exact fun habs => habs op.shard slot ⟨t, ht, hself⟩
  | removeCount =>
    rw [hop] at h
    cases b'.tables op.shard with
    | none =>
      unfold Searches
      simp only [hop]
      exact h
    | some t =>
      simp only [stepTable, hop]
      exact h
  | removeDone result =>
    rw [hop] at h
    cases b'.tables op.shard <;> simp only [stepTable, hop] <;> unfold Searches <;>
      rw [hop] <;> exact h
  | _ =>
    rw [hop] at h
    exact h.elim

/-- A call of `remove` finds the address, or leaves the tables as they are. -/
theorem remove_cases (b : AddressBitset) (a : ℕ) (isLarge : Bool) :
    (b.remove a isLarge).2 = true ∧ ¬ b.Absent a ∨
      (b.remove a isLarge).2 = false ∧ (b.remove a isLarge).1 = b := by
  have hend : Searches b (b.call (.remove a isLarge)).1 (b.call (.remove a isLarge)).2 :=
    call_induction (motive := fun b' op => Searches b b' op) b (.remove a isLarge) rfl
      fun _ _ h => h.step
  have htracks : b.Tracks (.remove a isLarge) := trivial
  have hadd := b.call_isAdd (.remove a isLarge)
  obtain ⟨pc, hpc⟩ := b.call_op (.remove a isLarge)
  have hresult : (b.remove a isLarge).2 = decide (pc = .removeDone true) := by
    rw [remove, hpc]
    rfl
  rw [hpc] at hend
  obtain ⟨result, hdone | hdone⟩ := htracks.call_ends
  · rw [hdone] at hadd
    cases hadd
  · rw [hpc] at hdone
    obtain rfl : pc = .removeDone result := hdone
    cases result with
    | true => exact .inl ⟨hresult, hend⟩
    | false => exact .inr ⟨hresult, hend⟩

theorem Absent.remove (habs : b.Absent a) (isLarge : Bool) :
    (b.remove a isLarge).2 = false ∧ (b.remove a isLarge).1 = b :=
  (b.remove_cases a isLarge).resolve_left fun h => h.2 habs

/-- No slot whose address has been removed stands before one that holds the address. -/
def Unhindered (b : AddressBitset) (a : ℕ) (isLarge : Bool) : Prop :=
  ∀ t ∈ b.tables (shardOf a isLarge), ∀ i < maxProbeDistance, t.slots (t.probe a i) = a →
    ∀ j < i, t.slots (t.probe a j) ≠ deletedSlot

instance : Decidable (b.Unhindered a isLarge) := by
  unfold Unhindered
  infer_instance

/-- Where an `add` is that will come upon its own address. -/
def ComesUpon (t : AddressTable) (n : ℕ) (op : BitsetOp) : Prop :=
  match op.pc with
  | .addGetTable | .addCheckCapacity => True
  | .addLoad i slot => i ≤ n ∧ slot = t.probe op.addr i
  | .addDone result => result = false
  | _ => False

theorem StoredAt.comesUpon_step (h : b.StoredAt op.addr op.isLargeAlloc t n)
    (ha : IsAddress op.addr) (hun : b.Unhindered op.addr op.isLargeAlloc) (hop : ComesUpon t n op) :
    (b.step op).1 = b ∧ ComesUpon t n (b.step op).2 := by
  have ht : b.tables op.shard = some t := h.table
  unfold ComesUpon at hop
  rw [AddressBitset.step]
  cases hpc : op.pc with
  | addGetTable =>
    simp only [ht, Option.isSome_some, if_true]
    exact ⟨trivial, trivial⟩
  | addCheckCapacity =>
    simp only [ht, stepTable, hpc]
    split_ifs
    · exact ⟨rfl, rfl⟩
    · exact ⟨rfl, Nat.zero_le n, rfl⟩
  | addLoad i slot =>
    rw [hpc] at hop
    obtain ⟨hin, rfl⟩ := hop
    simp only [ht, stepTable, hpc]
    split_ifs with _ hfree hself
    · exact ⟨rfl, rfl⟩
    · -- the slots before the one of the address hold other addresses
      rcases Nat.lt_or_eq_of_le hin with hlt | rfl
      · rcases hfree with hempty | hdeleted
        · exact absurd hempty (h.used i hlt)
        · exact absurd hdeleted (hun t ht n h.within h.stored i hlt)
      · rw [h.stored] at hfree
        exact hfree.elim (absurd · ha.1) (absurd · ha.2)
    · exact ⟨rfl, rfl⟩
    · refine ⟨rfl, Nat.succ_le_of_lt (lt_of_le_of_ne hin ?_), rfl⟩
      rintro rfl
      exact hself h.stored
  | addDone result =>
    rw [hpc] at hop
    simp only [ht, stepTable, hpc]
    exact ⟨trivial, by rw [ComesUpon, hpc]; exact hop⟩
  | _ =>
    rw [hpc] at hop
    exact hop.elim

theorem Present.add (hpresent : b.Present a isLarge) (hb : b.Consistent [] net)
    (ha : IsAddress a) (hun : b.Unhindered a isLarge) :
    (b.add a isLarge).2 = false ∧ (b.add a isLarge).1 = b := by
  have hdone := (hb.add ha isLarge).1
  obtain ⟨t, n, hstored⟩ := hpresent
  have hstep : ∀ b' op, (b' = b ∧ op.addr = a ∧ op.isLargeAlloc = isLarge ∧ ComesUpon t n op) →
      (b'.step op).1 = b ∧ (b'.step op).2.addr = a ∧ (b'.step op).2.isLargeAlloc = isLarge ∧
        ComesUpon t n (b'.step op).2 := by
    rintro b' op ⟨rfl, rfl, rfl, hop⟩
    obtain ⟨hb, hop'⟩ := hstored.comesUpon_step ha hun hop
    obtain ⟨pc, hpc⟩ := b'.step_op op
    exact ⟨hb, by rw [hpc]; rfl, by rw [hpc]; rfl, hop'⟩
  obtain ⟨hb, _, _, hop⟩ := call_induction
    (motive := fun b' op => b' = b ∧ op.addr = a ∧ op.isLargeAlloc = isLarge ∧ ComesUpon t n op)
    b (.add a isLarge) ⟨rfl, rfl, rfl, trivial⟩ hstep
  unfold ComesUpon at hop
  rw [hdone] at hop
  exact ⟨hop, hb⟩

/-! ### The tables as a set -/

theorem Tracks.call_others (h : b.Tracks op) (hop : IsAddress op.addr) (ha : IsAddress a)
    (hne : a ≠ op.addr) (isLarge : Bool) : (b.Absent a → (b.call op).1.Absent a) ∧
      (b.Present a isLarge → (b.call op).1.Present a isLarge) := by
  have hstep : ∀ b' op', (op'.addr = op.addr ∧ Tracks b' op' ∧ (b.Absent a → b'.Absent a) ∧
        (b.Present a isLarge → b'.Present a isLarge)) →
      (b'.step op').2.addr = op.addr ∧ (b'.step op').1.Tracks (b'.step op').2 ∧
        (b.Absent a → (b'.step op').1.Absent a) ∧
        (b.Present a isLarge → (b'.step op').1.Present a isLarge) := by
    rintro b' op' ⟨haddr, htracks, habs, hpresent⟩
    have hev := haddr ▸ htracks.step_evolves
    obtain ⟨pc, hpc, _, htracks'⟩ := htracks.step
    exact ⟨hpc ▸ haddr, hpc ▸ htracks', fun h => hev.absent ha hne (habs h),
      fun h => hev.present hop ha hne (hpresent h)⟩
  exact (call_induction (motive := fun b' op' => op'.addr = op.addr ∧ b'.Tracks op' ∧
    (b.Absent a → b'.Absent a) ∧ (b.Present a isLarge → b'.Present a isLarge))
    b op ⟨rfl, h, id, id⟩ hstep).2.2

/-- The tables hold the addresses of a set, each in one slot. -/
structure Represents (b : AddressBitset) (isLarge : Bool) (S : Finset ℕ) : Prop where
  consistent : b.Consistent [] S.card
  address : ∀ a ∈ S, IsAddress a
  present : ∀ a ∈ S, b.Present a isLarge
  absent : ∀ a, IsAddress a → a ∉ S → b.Absent a

variable {S : Finset ℕ}

theorem Represents.call (h : b.Represents isLarge S) (op : BitsetOp) (hop : IsAddress op.addr)
    (hpc : op.pc = .addGetTable ∨ op.pc = .removeGetTable) {S' : Finset ℕ}
    (hcons : (b.call op).1.Consistent [] S'.card) (hS : ∀ a, a ≠ op.addr → (a ∈ S' ↔ a ∈ S))
    (hself : if op.addr ∈ S' then (b.call op).1.Present op.addr isLarge
      else (b.call op).1.Absent op.addr) : (b.call op).1.Represents isLarge S' := by
  have htracks : b.Tracks op := (h.consistent.call hop hpc).tracks op (List.mem_cons_self ..)
  refine ⟨hcons, fun a ha => ?_, fun a ha => ?_, fun a haddr ha => ?_⟩
  · by_cases hne : a = op.addr
    · exact hne ▸ hop
    · exact h.address a ((hS a hne).mp ha)
  · by_cases hne : a = op.addr
    · subst hne
      rwa [if_pos ha] at hself
    · have haS := (hS a hne).mp ha
      exact (htracks.call_others hop (h.address a haS) hne isLarge).2 (h.present a haS)
  · by_cases hne : a = op.addr
    · subst hne
      rwa [if_neg ha] at hself
    · have haS := fun haS => ha ((hS a hne).mpr haS)
      exact (htracks.call_others hop haddr hne isLarge).1 (h.absent a haddr haS)

theorem Represents.add (h : b.Represents isLarge S) (ha : IsAddress a)
    (hun : b.Unhindered a isLarge) : ((b.add a isLarge).2 = true → a ∉ S) ∧
      (b.add a isLarge).1.Represents isLarge (if (b.add a isLarge).2 then insert a S else S) := by
  by_cases haS : a ∈ S
  · obtain ⟨hresult, hb⟩ := (h.present a haS).add h.consistent ha hun
    rw [hresult, hb]
    exact ⟨nofun, h⟩
  · have hcons := (h.consistent.add ha isLarge).2
    have hself := (h.absent a ha haS).add h.consistent ha isLarge
    refine ⟨fun _ => haS, h.call (.add a isLarge) ha (.inl rfl) ?_ ?_ ?_⟩
    · cases hresult : (b.add a isLarge).2 with
      | false =>
        rw [hresult] at hcons
        exact hcons
      | true =>
        rw [hresult] at hcons
        rw [if_pos rfl, Finset.card_insert_of_notMem haS]
        exact hcons
    · intro a' hne
      split_ifs
      · exact Finset.mem_insert.trans (or_iff_right hne)
      · exact Iff.rfl
    · cases hresult : (b.add a isLarge).2 with
      | false =>
        rw [hresult] at hself
        exact (if_neg haS).symm ▸ hself
      | true =>
        rw [hresult] at hself
        exact (if_pos (Finset.mem_insert_self a S)).symm ▸ hself

theorem Represents.remove (h : b.Represents isLarge S) (ha : IsAddress a) :
    ((b.remove a isLarge).2 = true ↔ a ∈ S) ∧
      (b.remove a isLarge).1.Represents isLarge
        (if (b.remove a isLarge).2 then S.erase a else S) := by
  by_cases haS : a ∈ S
  · obtain ⟨hresult, habs⟩ := (h.present a haS).remove h.consistent ha
    have hcons := (h.consistent.remove ha isLarge).2
    rw [hresult] at hcons ⊢
    refine ⟨iff_of_true rfl haS, h.call (.remove a isLarge) ha (.inr rfl) ?_ ?_ ?_⟩
    · have hcard := Finset.card_erase_add_one haS
      have hnet : ((S.card : ℤ) - true.toNat) = (S.erase a).card := by
        rw [Bool.toNat_true]
        omega
      exact hnet ▸ hcons
    · exact fun a' hne => Finset.mem_erase.trans (and_iff_right hne)
    · exact (if_neg (Finset.notMem_erase a S)).symm ▸ habs
  · obtain ⟨hresult, hb⟩ := (h.absent a ha haS).remove isLarge
    rw [hresult, hb]
    exact ⟨iff_of_false nofun haS, h⟩

theorem Represents.clear (h : b.Represents isLarge S) : b.clear.Represents isLarge ∅ := by
  have hslots : ∀ shard t, b.clear.tables shard = some t →
      (∀ slot, ¬ IsAddress (t.slots slot)) ∧ t.count = 0 := by
    intro shard u hu
    obtain ⟨t, ht, rfl⟩ := Option.map_eq_some_iff.mp hu
    refine ⟨fun slot ha => ?_, rfl⟩
    -- beyond its end a table holds no address
    change IsAddress (if slot < t.tableSize then emptySlot else t.slots slot) at ha
    split_ifs at ha with hlt
    · exact absurd rfl ha.1
    · obtain ⟨_, i, hslot, _⟩ := h.consistent.placed shard t slot ht ha
      refine hlt (hslot ▸ lt_of_le_of_lt (t.probe_le _ i) ?_)
      exact AddressTable.tableMask_lt (h.consistent.sized.2 shard t ht)
  refine ⟨consistent_of_empty ⟨h.consistent.sized.1, ?_⟩ hslots, nofun, nofun, ?_⟩
  · intro shard u hu
    obtain ⟨t, ht, rfl⟩ := Option.map_eq_some_iff.mp hu
    exact h.consistent.sized.2 shard t ht
  · rintro a ha _ shard slot ⟨t, ht, rfl⟩
    exact (hslots shard t ht).1 slot ha

theorem represents_init (tableSize : ℕ) (isLarge : Bool) :
    (init tableSize).Represents isLarge ∅ := by
  refine ⟨consistent_init tableSize, nofun, nofun, ?_⟩
  rintro a ha _ shard slot ⟨t, ht, rfl⟩
  cases shard with
  | chunk idx => cases ht
  | large =>
    cases ht
    exact absurd rfl ha.1

end AddressBitset

/-! ### Histories -/

inductive BitsetCall
  | add (addr : ℕ)
  | remove (addr : ℕ)
  | clear
  deriving DecidableEq, Repr

/-- The tables, and the addresses whose last successful operation was an `add`. -/
structure BitsetHistory where
  bitset : AddressBitset
  set : Finset ℕ := ∅

namespace BitsetHistory

variable {s s' : BitsetHistory} {isLarge : Bool}

def init (tableSize : ℕ) : BitsetHistory := { bitset := .init tableSize }

def step (isLarge : Bool) (s : BitsetHistory) : BitsetCall → Option BitsetHistory
  | .add a =>
    if IsAddress a then
      let r := s.bitset.add a isLarge
      some ⟨r.1, if r.2 then insert a s.set else s.set⟩
    else none
  | .remove a =>
    if IsAddress a then
      let r := s.bitset.remove a isLarge
      some ⟨r.1, if r.2 then s.set.erase a else s.set⟩
    else none
  | .clear => some ⟨s.bitset.clear, ∅⟩

/-- An `add` of an address that is in the set does not come upon a removed one first. -/
def Unhindered (isLarge : Bool) (s : BitsetHistory) : BitsetCall → Prop
  | .add a => s.bitset.Unhindered a isLarge
  | .remove _ | .clear => True

instance (isLarge : Bool) (s : BitsetHistory) (c : BitsetCall) :
    Decidable (s.Unhindered isLarge c) := by
  cases c <;> unfold Unhindered <;> infer_instance

structure Refines (isLarge : Bool) (s : BitsetHistory) : Prop where
  add : ∀ a, IsAddress a → s.bitset.Unhindered a isLarge →
    (s.bitset.add a isLarge).2 = true → a ∉ s.set
  stored_once : ∀ a ∈ s.set, ∃! p : Shard × ℕ, s.bitset.Holds a p.1 p.2
  remove : ∀ a, IsAddress a → ((s.bitset.remove a isLarge).2 = true ↔ a ∈ s.set)
  count : s.set.card < 2 ^ 31 → s.bitset.count = s.set.card

end BitsetHistory

namespace AddressBitset

variable {b : AddressBitset} {isLarge : Bool} {S : Finset ℕ}

theorem Represents.refines (h : b.Represents isLarge S) :
    BitsetHistory.Refines isLarge ⟨b, S⟩ := by
  refine ⟨fun a ha hun => (h.add ha hun).1, fun a ha => ?_, fun a ha => (h.remove ha).1,
    fun hsmall => ?_⟩
  · obtain ⟨t, i, hstored⟩ := h.present a ha
    refine ⟨(shardOf a isLarge, t.probe a i), ⟨t, hstored.table, hstored.stored⟩, ?_⟩
    rintro ⟨shard, slot⟩ hholds
    obtain ⟨rfl, rfl⟩ := hstored.only shard slot hholds
    rfl
  · have hbalanced := h.consistent.balanced
    rw [List.map_nil, List.sum_nil, add_zero, Nat.cast_inj] at hbalanced
    change b.count = S.card
    rw [h.consistent.count (hbalanced ▸ hsmall), hbalanced]

end AddressBitset

namespace BitsetHistory

variable {s s' : BitsetHistory} {isLarge : Bool}

theorem represents_step {c : BitsetCall} (h : s.bitset.Represents isLarge s.set)
    (hc : s.Unhindered isLarge c) (hs : s.step isLarge c = some s') :
    s'.bitset.Represents isLarge s'.set := by
  cases c with
  | add a =>
    rw [step] at hs
    split_ifs at hs with ha
    cases hs
    exact (h.add ha hc).2
  | remove a =>
    rw [step] at hs
    split_ifs at hs with ha
    cases hs
    exact (h.remove ha).2
  | clear =>
    cases hs
    exact h.clear

/-- In every history whose calls of `add` do not come upon a removed address before their own,
the tables are the set in every state reached. -/
theorem run_refines {tableSize : ℕ} {cs : List BitsetCall}
    (hok : Run.Along (step isLarge) (Unhindered isLarge) (init tableSize) cs)
    (hrun : Run.steps (step isLarge) (init tableSize) cs = some s) : s.Refines isLarge := by
  have hstep : ∀ (s : BitsetHistory) c s', s.bitset.Represents isLarge s.set →
      s.Unhindered isLarge c → s.step isLarge c = some s' → s'.bitset.Represents isLarge s'.set :=
    fun _ _ _ h hc hs => represents_step h hc hs
  exact (Run.steps_invariant hstep (AddressBitset.represents_init tableSize isLarge) hok
    hrun).refines

/-- Two addresses with one hash value, one of them added again and the other one removed. -/
theorem run_refines_collision :
    ∃ s, Run.steps (step false) (init 16) [.add 17, .add 16, .add 16, .remove 17] = some s ∧
      s.set = {16} ∧ s.Refines false := by
  have hrun : (Run.steps (step false) (init 16) [.add 17, .add 16, .add 16, .remove 17]).any
      (fun s => s.set = {16}) = true := by
    decide +kernel
  obtain ⟨s, hs, hset⟩ := Option.any_eq_true _ _ |>.mp hrun
  exact ⟨s, hs, of_decide_eq_true hset, run_refines (by decide +kernel) hs⟩

/-- When the other address is removed first, the address is added a second time: `add` returns
true for an address of the set, and two slots are counted for it. -/
theorem add_twice :
    ∃ s s', Run.steps (step false) (init 16) [.add 17, .add 16, .remove 17] = some s ∧
      16 ∈ s.set ∧ (s.bitset.add 16 false).2 = true ∧ s.step false (.add 16) = some s' ∧
      s'.set = {16} ∧ s'.bitset.count = 2 := by
  have hrun : (Run.steps (step false) (init 16) [.add 17, .add 16, .remove 17]).any
      (fun s => 16 ∈ s.set ∧ (s.bitset.add 16 false).2 = true ∧
        (s.step false (.add 16)).any (fun s' => s'.set = {16} ∧ s'.bitset.count = 2) = true) =
      true := by
    decide +kernel
  obtain ⟨s, hs, hadd⟩ := Option.any_eq_true _ _ |>.mp hrun
  obtain ⟨hmem, htrue, hstep⟩ := of_decide_eq_true hadd
  obtain ⟨s', hs', hend⟩ := Option.any_eq_true _ _ |>.mp hstep
  exact ⟨s, s', hs, hmem, htrue, hs', of_decide_eq_true hend⟩

end BitsetHistory

end Ddprof
