import Ddprof.AddressBitset.Ledger
import Ddprof.Lib.Run

/-!
Any number of calls of `add` and `remove` at a time.

Whatever the order of their accesses, the counts of the tables are right again as
soon as no call is running, and every address that is left in a slot can be removed.
-/

namespace Ddprof

namespace BitsetPc

/-- A bound for the number of accesses that are left of a call. -/
def remaining : BitsetPc → ℕ
  | .addGetTable | .removeGetTable => 3 * maxProbeDistance + 6
  | .addInstall => 3 * maxProbeDistance + 5
  | .addCheckCapacity => 3 * maxProbeDistance + 4
  | .addLoad i _ => 3 * (maxProbeDistance - i) + 3
  | .addClaim i _ _ => 3 * (maxProbeDistance - i) + 2
  | .addReload i _ => 3 * (maxProbeDistance - i) + 1
  | .removeLoad i _ => 3 * (maxProbeDistance - i) + 3
  | .removeDelete _ => 2
  | .addCount | .removeCount => 1
  | .addDone _ | .removeDone _ => 0

theorem done_of_remaining {pc : BitsetPc} (h : pc.remaining = 0) :
    ∃ result, pc = .addDone result ∨ pc = .removeDone result := by
  cases pc with
  | addDone result => exact ⟨result, .inl rfl⟩
  | removeDone result => exact ⟨result, .inr rfl⟩
  | _ => simp [remaining] at h

end BitsetPc

namespace AddressBitset

variable {b : AddressBitset} {op : BitsetOp} {t : AddressTable} {a : ℕ} {isLarge : Bool} {net : ℤ}

/-! ### A call that runs alone -/

/-- The next accesses of a call, with no other call in between. -/
def accesses : ℕ → AddressBitset → BitsetOp → AddressBitset × BitsetOp
  | 0, b, op => (b, op)
  | n + 1, b, op => accesses n (b.step op).1 (b.step op).2

@[irreducible] def call (b : AddressBitset) (op : BitsetOp) : AddressBitset × BitsetOp :=
  accesses op.pc.remaining b op

variable {motive : AddressBitset → BitsetOp → Prop}

theorem accesses_induction
    (hstep : ∀ b op, motive b op → motive (b.step op).1 (b.step op).2) (n : ℕ) :
    ∀ b op, motive b op → motive (accesses n b op).1 (accesses n b op).2 := by
  induction n with
  | zero => exact fun _ _ h => h
  | succ n ih => exact fun b op h => ih _ _ (hstep b op h)

theorem call_induction (b : AddressBitset) (op : BitsetOp) (h : motive b op)
    (hstep : ∀ b op, motive b op → motive (b.step op).1 (b.step op).2) :
    motive (b.call op).1 (b.call op).2 := by
  rw [call]
  exact accesses_induction hstep op.pc.remaining b op h

theorem Tracks.remaining_step (h : b.Tracks op) :
    (b.step op).2.pc.remaining ≤ op.pc.remaining - 1 := by
  unfold Tracks at h
  rw [AddressBitset.step]
  cases hop : op.pc with
  | addGetTable | addInstall => simp only; split_ifs <;> exact Nat.le_of_ble_eq_true rfl
  | addCheckCapacity =>
    rw [hop] at h
    obtain ⟨t, ht⟩ := h
    simp only [ht, stepTable, hop]
    split_ifs <;> exact Nat.le_of_ble_eq_true rfl
  | addLoad i slot =>
    rw [hop] at h
    obtain ⟨t, ht, _⟩ := h
    simp only [ht, stepTable, hop]
    split_ifs <;> simp only [BitsetOp.goto, BitsetPc.remaining] <;> omega
  | addClaim i slot expected =>
    rw [hop] at h
    obtain ⟨⟨t, ht, _⟩, _⟩ := h
    simp only [ht, stepTable, hop]
    split_ifs <;> simp only [BitsetOp.goto, BitsetPc.remaining] <;> omega
  | addReload i slot =>
    rw [hop] at h
    obtain ⟨⟨t, ht, _⟩, hi, _⟩ := h
    simp only [ht, stepTable, hop]
    split_ifs <;> simp only [BitsetOp.goto, BitsetPc.remaining] <;> omega
  | removeGetTable =>
    cases b.tables op.shard <;> exact Nat.le_of_ble_eq_true rfl
  | removeLoad i slot =>
    rw [hop] at h
    obtain ⟨t, ht, _⟩ := h
    simp only [ht, stepTable, hop]
    split_ifs <;> simp only [BitsetOp.goto, BitsetPc.remaining] <;> omega
  | removeDelete slot =>
    rw [hop] at h
    obtain ⟨t, _, ht, _⟩ := h
    simp only [ht, stepTable, hop]
    split_ifs <;> exact Nat.le_of_ble_eq_true rfl
  | addCount | removeCount =>
    rw [hop] at h
    obtain ⟨t, ht⟩ := h
    simp only [ht, stepTable, hop]
    exact Nat.le_refl 0
  | addDone result | removeDone result =>
    cases b.tables op.shard <;> simp only [stepTable, hop] <;> exact Nat.le_refl 0

theorem Tracks.remaining_accesses (n : ℕ) : ∀ b op, Tracks b op →
    (accesses n b op).2.pc.remaining ≤ op.pc.remaining - n := by
  induction n with
  | zero => exact fun _ _ _ => le_rfl
  | succ n ih =>
    intro b op h
    have hle := h.remaining_step
    obtain ⟨pc, hpc, _, htracks⟩ := h.step
    have hrest := ih _ _ (hpc ▸ htracks)
    rw [accesses]
    omega

theorem Tracks.call_ends (h : b.Tracks op) :
    ∃ result, (b.call op).2.pc = .addDone result ∨ (b.call op).2.pc = .removeDone result := by
  have hle := remaining_accesses op.pc.remaining b op h
  rw [Nat.sub_self, ← AddressBitset.call] at hle
  exact BitsetPc.done_of_remaining (Nat.eq_zero_of_le_zero hle)

theorem Consistent.call_done (h : b.Consistent [] net) (op : BitsetOp) (ha : IsAddress op.addr)
    (hpc : op.pc = .addGetTable ∨ op.pc = .removeGetTable) :
    (∃ result, (b.call op).2.pc = .addDone result ∨ (b.call op).2.pc = .removeDone result) ∧
      (b.call op).1.Consistent [] (net + (b.call op).2.pc.unreturned) := by
  have hcall := h.call ha hpc
  have hcons : (b.call op).1.Consistent [(b.call op).2] net :=
    call_induction (motive := fun b op => b.Consistent [op] net) b op hcall fun _ _ h => h.step
  obtain ⟨result, hdone⟩ := (hcall.tracks op (List.mem_singleton_self _)).call_ends
  exact ⟨⟨result, hdone⟩, hcons.ret hdone⟩

/-- A `remove` that runs alone is on its way to a slot that holds its address. -/
def Finds (b : AddressBitset) (op : BitsetOp) : Prop :=
  match op.pc with
  | .removeGetTable => ∃ t n, b.tables op.shard = some t ∧ InReach t op.addr n
  | .removeLoad i slot => ∃ t n, b.tables op.shard = some t ∧ InReach t op.addr n ∧ i ≤ n ∧
      slot = t.probe op.addr i
  | .removeDelete slot => ∃ t, b.tables op.shard = some t ∧ t.slots slot = op.addr
  | .removeCount => True
  | .removeDone result => result = true
  | _ => False

theorem Finds.step (h : b.Finds op) (ha : IsAddress op.addr) :
    (b.step op).1.Finds (b.step op).2 := by
  unfold Finds at h
  rw [AddressBitset.step]
  cases hop : op.pc with
  | removeGetTable =>
    rw [hop] at h
    obtain ⟨t, n, ht, hreach⟩ := h
    simp only [ht]
    exact ⟨t, n, ht, hreach, Nat.zero_le n, rfl⟩
  | removeLoad i slot =>
    rw [hop] at h
    obtain ⟨t, n, ht, hreach, hin, hslot⟩ := h
    have hmiss : t.slots slot ≠ op.addr → i < n := fun hne =>
      lt_of_le_of_ne hin fun heq => hne (by rw [hslot, heq]; exact hreach.stored)
    have hnext : t.slots slot ≠ op.addr → b.Finds
        (op.goto (.removeLoad (i + 1) (t.nextSlot slot))) := fun hne =>
      ⟨t, n, ht, hreach, hmiss hne, by rw [hslot]; rfl⟩
    simp only [ht, stepTable, hop]
    rw [if_neg (Nat.not_le.mpr (lt_of_le_of_lt hin hreach.within))]
    split_ifs with hempty hdeleted hself
    · have hne : t.slots slot ≠ op.addr := fun hself => ha.1 (hself.symm.trans hempty)
      exact absurd (hslot ▸ hempty) (hreach.used i (hmiss hne))
    · exact hnext fun hself => ha.2 (hself.symm.trans hdeleted)
    · exact ⟨t, ht, hself⟩
    · exact hnext hself
  | removeDelete slot =>
    rw [hop] at h
    obtain ⟨t, ht, hself⟩ := h
    simp only [ht, stepTable, hop]
    rw [if_pos hself]
    trivial
  | removeCount =>
    cases b.tables op.shard with
    | none =>
      unfold Finds
      simp only [hop]
    | some t =>
      simp only [stepTable, hop]
      rfl
  | removeDone result =>
    rw [hop] at h
    cases b.tables op.shard <;> simpa only [stepTable, hop, Finds] using h
  | _ =>
    rw [hop] at h
    exact h.elim

theorem Finds.call (h : b.Finds op) (ha : IsAddress op.addr) :
    (b.call op).1.Finds (b.call op).2 := by
  have hstep : ∀ b op, (IsAddress op.addr ∧ Finds b op) →
      IsAddress (b.step op).2.addr ∧ (b.step op).1.Finds (b.step op).2 := by
    intro b op hb
    obtain ⟨pc, hpc⟩ := b.step_op op
    exact ⟨hpc ▸ hb.1, hb.2.step hb.1⟩
  exact (call_induction (motive := fun b op => IsAddress op.addr ∧ b.Finds op) b op ⟨ha, h⟩ hstep).2

theorem Finds.done (h : b.Finds op) {result : Bool}
    (hdone : op.pc = .addDone result ∨ op.pc = .removeDone result) :
    op.pc = .removeDone true := by
  unfold Finds at h
  rcases hdone with hdone | hdone
  · rw [hdone] at h
    exact h.elim
  · rw [hdone] at h ⊢
    rw [h]

theorem Consistent.remove_inReach (h : b.Consistent [] net) (ha : IsAddress a)
    (ht : b.tables (shardOf a isLarge) = some t) {i : ℕ} (hreach : InReach t a i) :
    (b.call (.remove a isLarge)).2.pc = .removeDone true := by
  have hstart : b.Finds (.remove a isLarge) := ⟨t, i, ht, hreach⟩
  obtain ⟨⟨result, hdone⟩, _⟩ := h.call_done (.remove a isLarge) ha (.inr rfl)
  exact (hstart.call ha).done hdone

end AddressBitset

/-! ### Calls that overlap -/

/-- The set with the calls that are running on it, and how many calls have returned true. -/
structure BitsetRun where
  bitset : AddressBitset
  running : List BitsetOp := []
  added : ℕ := 0
  removed : ℕ := 0

inductive BitsetLabel
  | add (addr : ℕ) (isLargeAlloc : Bool)
  | remove (addr : ℕ) (isLargeAlloc : Bool)
  /-- The next access of the call `j`. -/
  | access (j : ℕ)
  /-- The call `j` returns. -/
  | ret (j : ℕ)
  deriving DecidableEq, Repr

namespace BitsetRun

variable {s s' : BitsetRun} {l : BitsetLabel}

def init (tableSize : ℕ) : BitsetRun := { bitset := .init tableSize }

def start (s : BitsetRun) (op : BitsetOp) : Option BitsetRun :=
  if IsAddress op.addr then some { s with running := op :: s.running } else none

def access (s : BitsetRun) (j : ℕ) (op : BitsetOp) : BitsetRun :=
  { s with
    bitset := (s.bitset.step op).1
    running := s.running.set j (s.bitset.step op).2 }

def ret (s : BitsetRun) (j : ℕ) (op : BitsetOp) : Option BitsetRun :=
  match op.pc with
  | .addDone result =>
    some { s with running := s.running.eraseIdx j, added := s.added + result.toNat }
  | .removeDone result =>
    some { s with running := s.running.eraseIdx j, removed := s.removed + result.toNat }
  | _ => none

def step (s : BitsetRun) : BitsetLabel → Option BitsetRun
  | .add addr isLargeAlloc => s.start (.add addr isLargeAlloc)
  | .remove addr isLargeAlloc => s.start (.remove addr isLargeAlloc)
  | .access j => s.running[j]?.map (s.access j)
  | .ret j => s.running[j]?.bind (s.ret j)

def Inv (s : BitsetRun) : Prop := s.bitset.Consistent s.running (s.added - s.removed)

theorem Inv.start (h : s.Inv) {op : BitsetOp} (hpc : op.pc = .addGetTable ∨ op.pc = .removeGetTable)
    (hs : s.start op = some s') : s'.Inv := by
  rw [BitsetRun.start] at hs
  split_ifs at hs with ha
  cases hs
  exact AddressBitset.Consistent.call h ha hpc

theorem Inv.access (h : s.Inv) {j : ℕ} {op : BitsetOp} (hj : s.running[j]? = some op) :
    (s.access j op).Inv := by
  obtain ⟨hlt, rfl⟩ := List.getElem?_eq_some_iff.mp hj
  have hperm := (List.getElem_cons_eraseIdx_perm hlt).symm
  exact (h.perm hperm).step.perm (List.set_perm_cons_eraseIdx hlt _).symm

theorem Inv.ret (h : s.Inv) {j : ℕ} {op : BitsetOp} (hj : s.running[j]? = some op)
    (hs : s.ret j op = some s') : s'.Inv := by
  obtain ⟨hlt, rfl⟩ := List.getElem?_eq_some_iff.mp hj
  have hperm := (List.getElem_cons_eraseIdx_perm hlt).symm
  rw [BitsetRun.ret] at hs
  split at hs
  · rename_i result hpc
    cases hs
    have hret := (h.perm hperm).ret (.inl hpc)
    have hnet : (s.added - s.removed : ℤ) + (BitsetPc.addDone result).unreturned =
        (s.added + result.toNat : ℕ) - s.removed := by
      cases result <;> simp [BitsetPc.unreturned, add_sub_right_comm]
    rwa [hpc, hnet] at hret
  · rename_i result hpc
    cases hs
    have hret := (h.perm hperm).ret (.inr hpc)
    have hnet : (s.added - s.removed : ℤ) + (BitsetPc.removeDone result).unreturned =
        s.added - (s.removed + result.toNat : ℕ) := by
      cases result <;> simp [BitsetPc.unreturned, sub_sub, ← sub_eq_add_neg]
    rwa [hpc, hnet] at hret
  · cases hs

theorem Inv.step (h : s.Inv) (hs : s.step l = some s') : s'.Inv := by
  cases l with
  | add addr isLargeAlloc => exact h.start (.inl rfl) hs
  | remove addr isLargeAlloc => exact h.start (.inr rfl) hs
  | access j =>
    obtain ⟨op, hj, rfl⟩ := Option.map_eq_some_iff.mp hs
    exact h.access hj
  | ret j =>
    obtain ⟨op, hj, hret⟩ := Option.bind_eq_some_iff.mp hs
    exact h.ret hj hret

theorem inv_init (tableSize : ℕ) : (init tableSize).Inv := AddressBitset.consistent_init tableSize

/-- What the set is when no call is running: its counts are right, and every address in it
can be removed. -/
structure Quiescent (s : BitsetRun) : Prop where
  counts : ∑ shard ∈ shards, (s.bitset.countOf shard).toNat = s.bitset.totalOccupied
  calls : (s.bitset.totalOccupied : ℤ) = s.added - s.removed
  removable : ∀ a shard slot, IsAddress a → s.bitset.Holds a shard slot →
    ∃ isLarge, shardOf a isLarge = shard ∧
      (s.bitset.call (.remove a isLarge)).2.pc = .removeDone true

theorem Inv.quiescent (h : s.Inv) (hidle : s.running = []) : s.Quiescent := by
  have hcons : s.bitset.Consistent [] (s.added - s.removed) := hidle ▸ h
  refine ⟨Finset.sum_congr rfl fun shard _ => hcons.count_eq shard, ?_, ?_⟩
  · have hbalanced := hcons.balanced
    rwa [List.map_nil, List.sum_nil, add_zero] at hbalanced
  · rintro a shard slot ha ⟨t, ht, rfl⟩
    obtain ⟨⟨isLarge, rfl⟩, i, _, hreach⟩ := hcons.placed shard t slot ht ha
    exact ⟨isLarge, rfl, hcons.remove_inReach ha ht hreach⟩

/-- In every interleaving of any number of calls, the set is in order whenever no call is
running. -/
theorem run_quiescent {tableSize : ℕ} {ls : List BitsetLabel}
    (hrun : Run.steps step (init tableSize) ls = some s) (hidle : s.running = []) :
    s.Quiescent := by
  have hinv : s.Inv := Run.steps_keep (fun _ _ _ h hs => h.step hs) (inv_init tableSize) hrun
  exact hinv.quiescent hidle

/-- Two calls of `add` for one address, and one of `remove`. Both of the first install a table
for the chunk, both find the first slot free, and one of them claims it. The address is
then removed before it is counted. -/
def racingAdds : List BitsetLabel :=
  [.add 16 false, .add 16 false, .access 0, .access 1, .access 0, .access 1, .access 0, .access 1,
    .access 0, .access 1, .access 0, .access 1, .access 1, .ret 1,
    .remove 16 false, .access 0, .access 0, .access 0, .access 0, .access 1, .ret 1, .ret 0,
    .add 17 false, .access 0, .access 0, .access 0, .access 0, .access 0, .ret 0]

theorem run_quiescent_racingAdds :
    ∃ s, Run.steps step (init 16) racingAdds = some s ∧ s.added = 2 ∧ s.removed = 1 ∧
      s.Quiescent := by
  have hrun : (Run.steps step (init 16) racingAdds).any
      (fun s => s.running = [] ∧ s.added = 2 ∧ s.removed = 1) = true := by
    decide +kernel
  obtain ⟨s, hs, hend⟩ := Option.any_eq_true _ _ |>.mp hrun
  obtain ⟨hidle, hadded, hremoved⟩ := of_decide_eq_true hend
  exact ⟨s, hs, hadded, hremoved, run_quiescent hs hidle⟩

end BitsetRun

end Ddprof
