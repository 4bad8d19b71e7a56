import Ddprof.LiveAllocation.Basic
import Mathlib.Data.BitVec

/-!
The cumulated values and counts of `LiveAllocation` are the sums over the
address map.

What a stack trace is owed is the sum, over the addresses that point at it, of
one for the count and of the value. The accounting invariant says that each
stack trace holds what it is owed, that one that holds nothing is not kept,
and that every address points at a live node. Both operations first take the
old allocation of the address out and then, for a registration, put the new one
in; the intermediate state is exact as well, with one node possibly at zero.
-/

namespace Ddprof

open UnorderedMap

/-- What an allocation contributes to a stack trace: a count and a value. -/
def contribution (stack : UnwindOutput) (v : ValuePerAddress) : ℕ × BitVec 64 :=
  if v.uniqueStack.map StackPtr.stack = some stack then (1, v.value) else 0

/-- What an address map owes to a stack trace. -/
def owed (addressMap : UnorderedMap ℕ ValuePerAddress) (stack : UnwindOutput) : ℕ × BitVec 64 :=
  addressMap.sumOf (contribution stack)

variable {value : BitVec 64}

namespace PprofStacks

/-- What a stack trace holds; nothing when it has no node. -/
def held (m : PprofStacks) (stack : UnwindOutput) : ℕ × BitVec 64 :=
  match AList.lookup stack m with
  | none => 0
  | some n => (n.data.count, n.data.value)

def nodeId (m : PprofStacks) (stack : UnwindOutput) : Option ℕ :=
  (AList.lookup stack m).map StackNode.id

variable {m : PprofStacks} {stack : UnwindOutput} {ptr : StackPtr}

theorem deref_of_nodeId (h : m.nodeId ptr.stack = some ptr.node) :
    ∃ d, AList.lookup ptr.stack m = some ⟨ptr.node, d⟩ ∧ m.deref ptr = some d := by
  obtain ⟨n, hn, hid⟩ := Option.map_eq_some_iff.mp h
  refine ⟨n.data, ?_, ?_⟩
  · rw [hn, ← hid]
  · rw [deref, hn]
    exact if_pos hid

theorem ptr_unique {p q : StackPtr} (hp : m.nodeId p.stack = some p.node)
    (hq : m.nodeId q.stack = some q.node) (h : p.stack = q.stack) : p = q := by
  obtain ⟨stack, node⟩ := p
  obtain ⟨stack', node'⟩ := q
  obtain rfl : stack = stack' := h
  obtain rfl : node = node' := Option.some.inj (hp.symm.trans hq)
  rfl

theorem lookup_update (h : m.nodeId ptr.stack = some ptr.node)
    (f : ValueAndCount → ValueAndCount) :
    ∃ d, AList.lookup ptr.stack m = some ⟨ptr.node, d⟩ ∧
      m.update ptr f = AList.insert ptr.stack ⟨ptr.node, f d⟩ m := by
  obtain ⟨d, hl, hd⟩ := deref_of_nodeId h
  exact ⟨d, hl, by rw [update, hd]⟩

theorem nodeId_update (h : m.nodeId ptr.stack = some ptr.node)
    (f : ValueAndCount → ValueAndCount) (stack : UnwindOutput) :
    (m.update ptr f).nodeId stack = m.nodeId stack := by
  obtain ⟨d, hl, hu⟩ := lookup_update h f
  rw [hu]
  by_cases hs : stack = ptr.stack
  · subst hs
    simp [nodeId, AList.lookup_insert, hl]
  · simp [nodeId, AList.lookup_insert_ne hs]

theorem held_update_ne (h : m.nodeId ptr.stack = some ptr.node)
    (f : ValueAndCount → ValueAndCount) (hs : stack ≠ ptr.stack) :
    (m.update ptr f).held stack = m.held stack := by
  obtain ⟨d, _, hu⟩ := lookup_update h f
  rw [hu, held, AList.lookup_insert_ne hs, held]

theorem held_add (h : m.nodeId ptr.stack = some ptr.node) (value : BitVec 64) :
    (m.update ptr (ValueAndCount.add value)).held ptr.stack =
      (1, value) + m.held ptr.stack := by
  obtain ⟨d, hl, hu⟩ := lookup_update h (ValueAndCount.add value)
  rw [hu, held, AList.lookup_insert, held, hl]
  simp only [ValueAndCount.add, Prod.mk_add_mk]
  rw [add_comm d.count, add_comm d.value]

theorem held_remove (h : m.nodeId ptr.stack = some ptr.node)
    {rest : ℕ × BitVec 64} (hheld : m.held ptr.stack = (1, value) + rest) :
    (m.update ptr (ValueAndCount.remove value)).held ptr.stack = rest := by
  obtain ⟨d, hl, hu⟩ := lookup_update h (ValueAndCount.remove value)
  rw [held, hl] at hheld
  rw [hu, held, AList.lookup_insert]
  obtain ⟨hc, hv⟩ := Prod.ext_iff.mp hheld
  simp only [ValueAndCount.remove, Prod.fst_add, Prod.snd_add] at hc hv ⊢
  rw [hc, hv]
  refine Prod.ext ?_ ?_
  · simp
  · simp

/-- What `release` does: the stack trace holds `rest` afterwards, and its node
goes exactly when nothing is left and it is not to be kept. -/
theorem release_spec (keep : Option StackPtr) (h : m.nodeId ptr.stack = some ptr.node)
    {rest : ℕ × BitVec 64} (hheld : m.held ptr.stack = (1, value) + rest)
    (hrest : rest.1 = 0 → rest = 0) :
    (m.release keep ptr value).held ptr.stack = rest ∧
    (m.release keep ptr value).nodeId ptr.stack =
      (if some ptr ≠ keep ∧ rest.1 = 0 then none else some ptr.node) ∧
    ∀ stack, stack ≠ ptr.stack →
      AList.lookup stack (m.release keep ptr value) = AList.lookup stack m := by
  have hid := (nodeId_update h (ValueAndCount.remove value) ptr.stack).trans h
  have hval := held_remove h hheld
  obtain ⟨d, hl, hd⟩ := deref_of_nodeId hid
  have hcount : rest.1 = d.count := by
    rw [← hval, held, hl]
  have hother : ∀ stack, stack ≠ ptr.stack →
      AList.lookup stack (m.update ptr (ValueAndCount.remove value)) = AList.lookup stack m := by
    intro stack hs
    obtain ⟨_, _, hu⟩ := lookup_update h (ValueAndCount.remove value)
    rw [hu, AList.lookup_insert_ne hs]
  unfold release
  simp only [hd, Option.any_some, decide_eq_true_eq, hcount]
  split_ifs with herase
  · refine ⟨?_, ?_, ?_⟩
    · rw [held, AList.lookup_erase, hrest (hcount.trans herase.2)]
    · rw [nodeId, AList.lookup_erase, Option.map_none]
    · intro stack hs
      rw [AList.lookup_erase_ne hs, hother stack hs]
  · exact ⟨hval, hid, hother⟩

end PprofStacks

/-! ### What is owed -/

section Owed

variable {addressMap : UnorderedMap ℕ ValuePerAddress} {stack : UnwindOutput} {address : ℕ}
  {v : ValuePerAddress}

theorem contribution_of_ptr {ptr : StackPtr} (h : v.uniqueStack = some ptr) :
    contribution ptr.stack v = (1, v.value) := by
  simp [contribution, h]

theorem contribution_ne {ptr : StackPtr} (h : v.uniqueStack = some ptr)
    (hs : stack ≠ ptr.stack) : contribution stack v = 0 := by
  simp [contribution, h, Ne.symm hs]

/-- A stack trace that is owed no count has no address. -/
theorem not_pointed_of_owed (h : (owed addressMap stack).1 = 0)
    (hv : AList.lookup address addressMap = some v) :
    v.uniqueStack.map StackPtr.stack ≠ some stack := by
  intro hs
  rw [owed, sumOf_eq_add_erase _ hv, contribution, if_pos hs] at h
  simp at h

theorem owed_eq_zero (h : (owed addressMap stack).1 = 0) : owed addressMap stack = 0 :=
  sumOf_eq_zero fun _ _ hv => if_neg (not_pointed_of_owed h hv)

theorem owed_insert (address : ℕ) (v : ValuePerAddress) :
    owed (AList.insert address v addressMap) stack =
      contribution stack v + owed (AList.erase address addressMap) stack :=
  sumOf_insert _ _ _ _

theorem owed_eq_add_erase (hv : AList.lookup address addressMap = some v) :
    owed addressMap stack =
      contribution stack v + owed (AList.erase address addressMap) stack :=
  sumOf_eq_add_erase _ hv

end Owed

/-! ### The accounting invariant -/

/-- Every address points at a live node, every stack trace holds what it is owed, and none
but `keep` is kept without a count. An allocation without a value is not taken out when its
address is registered again; `leak` counts those that a stack trace still holds. -/
structure Balanced (leak : UnwindOutput → ℕ) (keep : Option UnwindOutput)
    (addressMap : UnorderedMap ℕ ValuePerAddress) (m : PprofStacks) : Prop where
  valid : ∀ address v, AList.lookup address addressMap = some v →
    ∃ ptr, v.uniqueStack = some ptr ∧ m.nodeId ptr.stack = some ptr.node
  exact : ∀ stack, m.held stack = owed addressMap stack + (leak stack, 0)
  kept : ∀ stack n, AList.lookup stack m = some n → n.data.count ≠ 0 ∨ keep = some stack

namespace Balanced

variable {leak : UnwindOutput → ℕ} {keep : Option UnwindOutput}
  {addressMap : UnorderedMap ℕ ValuePerAddress} {m : PprofStacks} {address : ℕ}
  {v : ValuePerAddress}

theorem eq_zero_of_count {stack : UnwindOutput}
    (h : (owed addressMap stack + ((leak stack, 0) : ℕ × BitVec 64)).1 = 0) :
    owed addressMap stack = 0 ∧ leak stack = 0 := by
  rw [Prod.fst_add] at h
  exact ⟨owed_eq_zero (by omega), by omega⟩

/-- A stack trace without a node is owed nothing and holds nothing. -/
theorem eq_zero_of_none (h : Balanced leak keep addressMap m) {stack : UnwindOutput}
    (hs : AList.lookup stack m = none) : owed addressMap stack = 0 ∧ leak stack = 0 := by
  have hexact := h.exact stack
  rw [PprofStacks.held, hs] at hexact
  exact eq_zero_of_count (congrArg Prod.fst hexact.symm)

theorem release (h : Balanced leak keep addressMap m)
    (hv : AList.lookup address addressMap = some v) {old : StackPtr}
    (hold : v.uniqueStack = some old) (keepPtr : Option StackPtr)
    (hkeep : keepPtr.map StackPtr.stack = keep)
    (hkeepId : ∀ p ∈ keepPtr, m.nodeId p.stack = some p.node) :
    Balanced leak keep (AList.erase address addressMap) (m.release keepPtr old v.value) ∧
      ∀ p ∈ keepPtr, (m.release keepPtr old v.value).nodeId p.stack = some p.node := by
  have hid : m.nodeId old.stack = some old.node := by
    obtain ⟨ptr, hptr, hid⟩ := h.valid address v hv
    rw [hold] at hptr
    cases hptr
    exact hid
  have hheld : m.held old.stack = (1, v.value) +
      (owed (AList.erase address addressMap) old.stack + (leak old.stack, 0)) := by
    rw [h.exact, owed_eq_add_erase hv, contribution_of_ptr hold, add_assoc]
  have hrest : (owed (AList.erase address addressMap) old.stack +
      ((leak old.stack, 0) : ℕ × BitVec 64)).1 = 0 →
      owed (AList.erase address addressMap) old.stack + (leak old.stack, 0) = 0 := fun hzero => by
    rw [(eq_zero_of_count hzero).1, (eq_zero_of_count hzero).2]
    rfl
  obtain ⟨hval, hnode, hother⟩ := PprofStacks.release_spec keepPtr hid hheld hrest
  have hkeeps : ∀ p ∈ keepPtr, (m.release keepPtr old v.value).nodeId p.stack = some p.node := by
    intro p hp
    rw [Option.mem_def] at hp
    by_cases hs : p.stack = old.stack
    · obtain rfl := PprofStacks.ptr_unique (hkeepId p hp) hid hs
      rw [hnode, if_neg (fun hc => hc.1 hp.symm)]
    · rw [PprofStacks.nodeId, hother _ hs]
      exact hkeepId p hp
  refine ⟨⟨?_, ?_, ?_⟩, hkeeps⟩
  · intro address' v' hv'
    have hne : address' ≠ address := by
      rintro rfl
      rw [AList.lookup_erase] at hv'
      cases hv'
    have hv'' := hv'
    rw [AList.lookup_erase_ne hne] at hv''
    obtain ⟨ptr, hptr, hpid⟩ := h.valid address' v' hv''
    refine ⟨ptr, hptr, ?_⟩
    by_cases hs : ptr.stack = old.stack
    · -- another address still points at the node, so it is not erased
      rw [hs, hnode, if_neg]
      · rw [← hid, ← hs, hpid]
      · rintro ⟨-, hzero⟩
        have howed := congrArg Prod.fst (eq_zero_of_count hzero).1
        exact not_pointed_of_owed howed hv' (by rw [hptr, ← hs]; rfl)
    · rw [PprofStacks.nodeId, hother _ hs]
      exact hpid
  · intro stack
    by_cases hs : stack = old.stack
    · rw [hs, hval]
    · rw [PprofStacks.held, hother _ hs]
      have hexact := h.exact stack
      rw [owed_eq_add_erase hv, contribution_ne hold hs, zero_add, PprofStacks.held] at hexact
      exact hexact
  · intro stack n hn
    by_cases hs : stack = old.stack
    · subst hs
      rw [PprofStacks.nodeId, hn] at hnode
      by_cases hk : some old = keepPtr
      · right
        rw [← hkeep, ← hk]
        rfl
      · left
        intro hzero
        rw [PprofStacks.held, hn] at hval
        rw [if_pos ⟨hk, by rw [← hval]; exact hzero⟩] at hnode
        cases hnode
    · rw [hother _ hs] at hn
      exact h.kept stack n hn

theorem add {ptr : StackPtr}
    (h : Balanced leak (some ptr.stack) (AList.erase address addressMap) m)
    (hid : m.nodeId ptr.stack = some ptr.node) (value : BitVec 64) :
    Balanced leak none (AList.insert address ⟨value, some ptr⟩ addressMap)
      (m.update ptr (ValueAndCount.add value)) := by
  refine ⟨?_, ?_, ?_⟩
  · intro address' v' hv'
    by_cases ha : address' = address
    · subst ha
      rw [AList.lookup_insert] at hv'
      cases hv'
      exact ⟨ptr, rfl, (PprofStacks.nodeId_update hid _ _).trans hid⟩
    · rw [AList.lookup_insert_ne ha, ← AList.lookup_erase_ne ha] at hv'
      obtain ⟨p, hp, hpid⟩ := h.valid address' v' hv'
      exact ⟨p, hp, (PprofStacks.nodeId_update hid _ _).trans hpid⟩
  · intro stack
    rw [owed_insert, add_assoc, ← h.exact stack]
    by_cases hs : stack = ptr.stack
    · subst hs
      rw [PprofStacks.held_add hid, contribution_of_ptr rfl]
    · rw [PprofStacks.held_update_ne hid _ hs, contribution_ne rfl hs, zero_add]
  · intro stack n hn
    obtain ⟨d, _, hu⟩ := PprofStacks.lookup_update hid (ValueAndCount.add value)
    rw [hu] at hn
    left
    by_cases hs : stack = ptr.stack
    · subst hs
      rw [AList.lookup_insert] at hn
      cases hn
      exact Nat.succ_ne_zero _
    · rw [AList.lookup_insert_ne hs] at hn
      exact (h.kept stack n hn).resolve_right fun hk => hs (Option.some.inj hk).symm

theorem valid_erase (h : Balanced leak keep addressMap m) (address : ℕ) :
    ∀ a v, AList.lookup a (AList.erase address addressMap) = some v →
      ∃ ptr, v.uniqueStack = some ptr ∧ m.nodeId ptr.stack = some ptr.node := by
  intro a v hv
  refine h.valid a v ?_
  by_cases ha : a = address
  · subst ha
    rw [AList.lookup_erase] at hv
    cases hv
  · rwa [AList.lookup_erase_ne ha] at hv

theorem erase_of_none (h : Balanced leak keep addressMap m)
    (hv : AList.lookup address addressMap = none) :
    Balanced leak keep (AList.erase address addressMap) m := by
  refine ⟨h.valid_erase address, fun stack => ?_, h.kept⟩
  rw [h.exact, owed, owed, sumOf_erase_of_none _ hv]

/-- Removing an address without a value and leaving its count where it is. -/
theorem erase_of_zero (h : Balanced leak keep addressMap m)
    (hv : AList.lookup address addressMap = some v) (hzero : v.value = 0) :
    ∃ leak', Balanced leak' keep (AList.erase address addressMap) m := by
  obtain ⟨old, hold, -⟩ := h.valid address v hv
  refine ⟨Function.update leak old.stack (leak old.stack + 1), h.valid_erase address,
    fun stack => ?_, h.kept⟩
  rw [h.exact, owed_eq_add_erase hv]
  by_cases hs : stack = old.stack
  · subst hs
    rw [contribution_of_ptr hold, hzero, Function.update_self]
    refine Prod.ext ?_ ?_
    · simp only [Prod.fst_add]
      omega
    · simp
  · rw [contribution_ne hold hs, zero_add, Function.update_of_ne hs]

end Balanced

namespace PidStacks

variable {ps : PidStacks} {leak : UnwindOutput → ℕ}

theorem balanced_default : Balanced (fun _ => 0) none ({} : PidStacks).addressMap ∅ := by
  refine ⟨?_, ?_, ?_⟩
  · intro address v hv
    simp at hv
  · intro stack
    rfl
  · intro stack n hn
    simp at hn

theorem balanced_registerDeallocation (h : Balanced leak none ps.addressMap ps.uniqueStacks)
    (address : ℕ) : Balanced leak none (ps.registerDeallocation address).1.addressMap
      (ps.registerDeallocation address).1.uniqueStacks := by
  unfold PidStacks.registerDeallocation
  cases hv : AList.lookup address ps.addressMap with
  | none => exact h
  | some v =>
    obtain ⟨ptr, hptr, _⟩ := h.valid address v hv
    simp only [hptr]
    exact (h.release hv hptr none rfl (by simp)).1

theorem balanced_findOrEmplace (h : Balanced leak none ps.addressMap ps.uniqueStacks)
    (uo : UnwindOutput) :
    (ps.findOrEmplace uo).1.addressMap = ps.addressMap ∧ (ps.findOrEmplace uo).2.stack = uo ∧
      (ps.findOrEmplace uo).1.uniqueStacks.nodeId uo = some (ps.findOrEmplace uo).2.node ∧
      Balanced leak (some uo) ps.addressMap (ps.findOrEmplace uo).1.uniqueStacks := by
  unfold PidStacks.findOrEmplace
  cases hn : AList.lookup uo ps.uniqueStacks with
  | some n =>
    refine ⟨rfl, rfl, by simp [PprofStacks.nodeId, hn], h.valid, h.exact, ?_⟩
    exact fun stack n hs => .inl ((h.kept stack n hs).resolve_right (by simp))
  | none =>
    refine ⟨rfl, rfl, by simp [PprofStacks.nodeId], ?_, ?_, ?_⟩
    · intro address v hv
      obtain ⟨ptr, hptr, hid⟩ := h.valid address v hv
      refine ⟨ptr, hptr, ?_⟩
      have hs : ptr.stack ≠ uo := by
        intro hs
        rw [PprofStacks.nodeId, hs, hn] at hid
        cases hid
      rw [PprofStacks.nodeId, AList.lookup_insert_ne hs]
      exact hid
    · intro stack
      by_cases hs : stack = uo
      · subst hs
        rw [(h.eq_zero_of_none hn).1, (h.eq_zero_of_none hn).2, PprofStacks.held,
          AList.lookup_insert]
        rfl
      · rw [PprofStacks.held, AList.lookup_insert_ne hs]
        exact h.exact stack
    · intro stack n hs
      by_cases heq : stack = uo
      · exact .inr (by rw [heq])
      · rw [AList.lookup_insert_ne heq] at hs
        exact .inl ((h.kept stack n hs).resolve_right (by simp))

/-- A registration stays balanced, and leaks nothing unless it replaces an allocation
without a value. -/
theorem balanced_registerAllocation (h : Balanced leak none ps.addressMap ps.uniqueStacks)
    (uo : UnwindOutput) (address : ℕ) (value : BitVec 64) :
    ∃ leak', Balanced leak' none (ps.registerAllocation uo address value).1.addressMap
        (ps.registerAllocation uo address value).1.uniqueStacks ∧
      ((∀ v, AList.lookup address ps.addressMap = some v → v.value ≠ 0) → leak' = leak) := by
  unfold PidStacks.registerAllocation
  split_ifs with hempty
  · exact ⟨leak, h, fun _ => rfl⟩
  · obtain ⟨ham, hstack, hid, hb⟩ := balanced_findOrEmplace h uo
    generalize ps.findOrEmplace uo = r at ham hstack hid hb
    obtain ⟨ps', ptr⟩ := r
    simp only at ham hstack hid hb ⊢
    subst hstack
    rw [← ham] at hb ⊢
    cases hv : AList.lookup address ps'.addressMap with
    | none =>
      have hget : ps'.addressMap.get address = {} := by rw [UnorderedMap.get, hv]; rfl
      simp only [hget, ne_eq, not_true_eq_false, if_false]
      exact ⟨leak, (hb.erase_of_none hv).add hid value, fun _ => rfl⟩
    | some v =>
      have hget : ps'.addressMap.get address = v := by rw [UnorderedMap.get, hv]; rfl
      obtain ⟨old, hold, _⟩ := hb.valid address v hv
      by_cases hzero : v.value = 0
      · obtain ⟨leak', hb'⟩ := hb.erase_of_zero hv hzero
        simp only [hget, hzero, ne_eq, not_true_eq_false, if_false]
        exact ⟨leak', hb'.add hid value, fun hnz => absurd hzero (hnz v rfl)⟩
      · obtain ⟨hb', hid'⟩ := hb.release hv hold (some ptr) rfl
          (fun p hp => by cases hp; exact hid)
        simp only [hget, ne_eq, hzero, not_false_eq_true, if_true, hold]
        exact ⟨leak, hb'.add (hid' ptr rfl) value, fun _ => rfl⟩

/-- The accounting invariant of one process: nothing leaks, since every allocation has a
value. -/
structure Accounted (ps : PidStacks) : Prop where
  balanced : Balanced (fun _ => 0) none ps.addressMap ps.uniqueStacks
  nonzero : ∀ address v, AList.lookup address ps.addressMap = some v → v.value ≠ 0

theorem accounted_default : Accounted {} := ⟨balanced_default, fun address v hv => by simp at hv⟩

theorem Accounted.registerDeallocation (h : ps.Accounted) (address : ℕ) :
    (ps.registerDeallocation address).1.Accounted := by
  refine ⟨balanced_registerDeallocation h.balanced address, fun a v hv => ?_⟩
  unfold PidStacks.registerDeallocation at hv
  split at hv
  · exact h.nonzero a v hv
  · by_cases ha : a = address
    · subst ha
      rw [AList.lookup_erase] at hv
      cases hv
    · rw [AList.lookup_erase_ne ha] at hv
      exact h.nonzero a v hv

theorem Accounted.registerAllocation (h : ps.Accounted) (uo : UnwindOutput) (address : ℕ)
    (hvalue : value ≠ 0) :
    (ps.registerAllocation uo address value).1.Accounted := by
  obtain ⟨leak, hb, hleak⟩ := balanced_registerAllocation h.balanced uo address value
  rw [hleak (h.nonzero address)] at hb
  refine ⟨hb, fun a v hv => ?_⟩
  have ham := (balanced_findOrEmplace h.balanced uo).1
  unfold PidStacks.registerAllocation at hv
  split_ifs at hv
  · exact h.nonzero a v hv
  · simp only [ham] at hv
    by_cases ha : a = address
    · subst ha
      rw [AList.lookup_insert] at hv
      cases hv
      exact hvalue
    · rw [AList.lookup_insert_ne ha] at hv
      exact h.nonzero a v hv

end PidStacks

end Ddprof
