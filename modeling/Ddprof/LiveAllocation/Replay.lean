import Ddprof.LiveAllocation.Accounting
import Mathlib.Data.List.GetD

/-!
`LiveAllocation` over whole histories of calls.

The abstract view of the class is a plain map: for each watcher, process and
address, the value and the stack trace of the last registration that has not
been freed or cleared since. The class refines it call by call, and the
accounting invariant holds for every watcher and process at every point.
-/

namespace Ddprof

open UnorderedMap

inductive LiveOp
  | registerAllocation (uo : UnwindOutput) (address : ℕ) (value : BitVec 64) (watcherPos : ℕ)
      (pid : ℤ)
  | registerDeallocation (address watcherPos : ℕ) (pid : ℤ)
  | clearPid (pid : ℤ)
  | clearPidForWatcher (watcherPos : ℕ) (pid : ℤ)
  deriving DecidableEq, Repr

/-- Registered values are sizes of allocations, which are not zero. -/
def LiveOp.NonZero : LiveOp → Prop
  | .registerAllocation _ _ value _ _ => value ≠ 0
  | _ => True

instance : DecidablePred LiveOp.NonZero := by
  intro op
  cases op <;> unfold LiveOp.NonZero <;> infer_instance

def LiveAllocation.step (la : LiveAllocation) : LiveOp → LiveAllocation
  | .registerAllocation uo address value watcherPos pid =>
    la.registerAllocation uo address value watcherPos pid
  | .registerDeallocation address watcherPos pid => la.registerDeallocation address watcherPos pid
  | .clearPid pid => la.clearPid pid
  | .clearPidForWatcher watcherPos pid => la.clearPidForWatcher watcherPos pid

def LiveAllocation.run (ops : List LiveOp) : LiveAllocation := ops.foldl LiveAllocation.step {}

/-! ### The plain map -/

abbrev LiveMap := ℕ → ℤ → ℕ → Option (BitVec 64 × UnwindOutput)

namespace LiveMap

def set (m : LiveMap) (watcherPos : ℕ) (pid : ℤ) (address : ℕ)
    (entry : Option (BitVec 64 × UnwindOutput)) : LiveMap :=
  fun w p a => if w = watcherPos ∧ p = pid ∧ a = address then entry else m w p a

/-- A registration with an empty stack trace is ignored. -/
def step (m : LiveMap) : LiveOp → LiveMap
  | .registerAllocation uo address value watcherPos pid =>
    if uo.locs = [] then m else m.set watcherPos pid address (some (value, uo))
  | .registerDeallocation address watcherPos pid => m.set watcherPos pid address none
  | .clearPid pid => fun w p a => if p = pid then none else m w p a
  | .clearPidForWatcher watcherPos pid =>
    fun w p a => if w = watcherPos ∧ p = pid then none else m w p a

def replay (ops : List LiveOp) : LiveMap := ops.foldl step fun _ _ _ => none

end LiveMap

/-! ### One process -/

namespace PidStacks

/-- The entries of the address map that point at a stack trace. -/
def addressesOf (ps : PidStacks) (stack : UnwindOutput) :
    List (Sigma fun _ : ℕ => ValuePerAddress) :=
  ps.addressMap.entries.filter fun e => e.2.uniqueStack.map StackPtr.stack = some stack

/-- What the class promises of the two maps of a process. -/
structure Consistent (ps : PidStacks) : Prop where
  points : ∀ address v, AList.lookup address ps.addressMap = some v →
    ∃ ptr d, v.uniqueStack = some ptr ∧ ps.uniqueStacks.deref ptr = some d
  count : ∀ stack n, AList.lookup stack ps.uniqueStacks = some n →
    n.data.count = (ps.addressesOf stack).length
  value : ∀ stack n, AList.lookup stack ps.uniqueStacks = some n →
    n.data.value = ((ps.addressesOf stack).map fun e => e.2.value).sum
  nonzero : ∀ stack n, AList.lookup stack ps.uniqueStacks = some n → n.data.count ≠ 0

variable {ps : PidStacks}

theorem owed_eq_addressesOf (ps : PidStacks) (stack : UnwindOutput) :
    owed ps.addressMap stack =
      ((ps.addressesOf stack).length, ((ps.addressesOf stack).map fun e => e.2.value).sum) := by
  unfold owed sumOf addressesOf
  induction ps.addressMap.entries with
  | nil => rfl
  | cons e rest ih =>
    rw [List.map_cons, List.sum_cons, ih, contribution]
    by_cases he : e.2.uniqueStack.map StackPtr.stack = some stack
    · rw [if_pos he, List.filter_cons_of_pos (by simpa using he)]
      simp [add_comm]
    · rw [if_neg he, List.filter_cons_of_neg (by simpa using he), zero_add]

theorem Accounted.consistent (h : ps.Accounted) : ps.Consistent := by
  have hheld : ∀ stack n, AList.lookup stack ps.uniqueStacks = some n →
      (n.data.count, n.data.value) = ((ps.addressesOf stack).length,
        ((ps.addressesOf stack).map fun e => e.2.value).sum) := by
    intro stack n hn
    have hexact := h.balanced.exact stack
    rw [PprofStacks.held, hn, owed_eq_addressesOf] at hexact
    exact hexact.trans (add_zero _)
  refine ⟨?_, ?_, ?_, ?_⟩
  · intro address v hv
    obtain ⟨ptr, hptr, hid⟩ := h.balanced.valid address v hv
    obtain ⟨d, _, hd⟩ := PprofStacks.deref_of_nodeId hid
    exact ⟨ptr, d, hptr, hd⟩
  · exact fun stack n hn => congrArg Prod.fst (hheld stack n hn)
  · exact fun stack n hn => congrArg Prod.snd (hheld stack n hn)
  · exact fun stack n hn => (h.balanced.kept stack n hn).resolve_right (by simp)

/-- The value and the stack trace that the address map gives for an address. -/
def entryAt (ps : PidStacks) (address : ℕ) : Option (BitVec 64 × Option UnwindOutput) :=
  (AList.lookup address ps.addressMap).map fun v =>
    (v.value, v.uniqueStack.map StackPtr.stack)

theorem entryAt_registerDeallocation (ps : PidStacks) (address a : ℕ) :
    (ps.registerDeallocation address).1.entryAt a =
      if a = address then none else ps.entryAt a := by
  unfold registerDeallocation entryAt
  cases hv : AList.lookup address ps.addressMap with
  | none =>
    split_ifs with ha
    · rw [ha, hv]
      rfl
    · rfl
  | some v =>
    split_ifs with ha
    · rw [ha, AList.lookup_erase]
      rfl
    · rw [AList.lookup_erase_ne ha]

theorem findOrEmplace_addressMap (ps : PidStacks) (uo : UnwindOutput) :
    (ps.findOrEmplace uo).1.addressMap = ps.addressMap ∧ (ps.findOrEmplace uo).2.stack = uo := by
  unfold findOrEmplace
  split
  · exact ⟨rfl, rfl⟩
  · exact ⟨rfl, rfl⟩

theorem entryAt_registerAllocation (ps : PidStacks) {uo : UnwindOutput} (huo : uo.locs ≠ [])
    (address : ℕ) (value : BitVec 64) (a : ℕ) :
    (ps.registerAllocation uo address value).1.entryAt a =
      if a = address then some (value, some uo) else ps.entryAt a := by
  obtain ⟨ham, hstack⟩ := ps.findOrEmplace_addressMap uo
  unfold registerAllocation entryAt
  rw [if_neg huo]
  simp only
  split_ifs with ha
  · rw [ha, AList.lookup_insert]
    simp [hstack]
  · rw [AList.lookup_insert_ne ha, ham]

end PidStacks

/-! ### All watchers and processes -/

theorem getD_accessResize (v : List PidMap) (index w : ℕ) :
    (accessResize v index).getD w ∅ = v.getD w ∅ := by
  unfold accessResize
  rcases lt_or_ge w v.length with hw | hw
  · rw [List.getD_append _ _ _ _ hw]
  · rw [List.getD_append_right _ _ _ _ hw, List.getD_eq_default v ∅ hw,
      List.getD_eq_getElem?_getD, List.getElem?_getD_replicate_default_eq]

theorem lt_length_accessResize (v : List PidMap) (index : ℕ) :
    index < (accessResize v index).length := by
  simp only [accessResize, List.length_append, List.length_replicate]
  omega

theorem getD_set_accessResize (v : List PidMap) (index w : ℕ) (m : PidMap) :
    ((accessResize v index).set index m).getD w ∅ = if w = index then m else v.getD w ∅ := by
  have hlen := lt_length_accessResize v index
  split_ifs with hw
  · subst hw
    simp [List.getD_eq_getElem?_getD, List.getElem?_set_self hlen]
  · rw [List.getD_eq_getElem?_getD, List.getElem?_set_ne (Ne.symm hw),
      ← List.getD_eq_getElem?_getD, getD_accessResize]

namespace LiveAllocation

variable (la : LiveAllocation) (watcherPos w : ℕ) (pid p : ℤ)

theorem pidStacks_setPidStacks (ps : PidStacks) :
    (la.setPidStacks watcherPos pid ps).pidStacks w p =
      if w = watcherPos ∧ p = pid then ps else la.pidStacks w p := by
  unfold pidStacks setPidStacks
  simp only [getD_set_accessResize, getD_accessResize]
  by_cases hw : w = watcherPos
  · subst hw
    rw [if_pos rfl]
    by_cases hp : p = pid
    · subst hp
      simp [UnorderedMap.get]
    · simp [UnorderedMap.get, hp, AList.lookup_insert_ne hp]
  · rw [if_neg hw, if_neg fun h => hw h.1]

theorem pidStacks_registerAllocation (uo : UnwindOutput) (address : ℕ) (value : BitVec 64) :
    (la.registerAllocation uo address value watcherPos pid).pidStacks w p =
      if w = watcherPos ∧ p = pid
      then ((la.pidStacks watcherPos pid).registerAllocation uo address value).1
      else la.pidStacks w p := by
  rw [← pidStacks_setPidStacks, registerAllocation]
  simp only
  split_ifs <;> rfl

theorem pidStacks_registerDeallocation (address : ℕ) :
    (la.registerDeallocation address watcherPos pid).pidStacks w p =
      if w = watcherPos ∧ p = pid
      then ((la.pidStacks watcherPos pid).registerDeallocation address).1
      else la.pidStacks w p := by
  rw [← pidStacks_setPidStacks, registerDeallocation]
  simp only
  split_ifs <;> rfl

theorem pidStacks_clearPidForWatcher :
    (la.clearPidForWatcher watcherPos pid).pidStacks w p =
      if w = watcherPos ∧ p = pid then {} else la.pidStacks w p := by
  unfold pidStacks clearPidForWatcher
  simp only [getD_set_accessResize, getD_accessResize]
  by_cases hw : w = watcherPos
  · subst hw
    rw [if_pos rfl]
    by_cases hp : p = pid
    · subst hp
      simp [UnorderedMap.get]
      rfl
    · simp [UnorderedMap.get, hp, AList.lookup_erase_ne hp]
  · rw [if_neg hw, if_neg fun h => hw h.1]

theorem pidStacks_clearPid :
    (la.clearPid pid).pidStacks w p = if p = pid then {} else la.pidStacks w p := by
  unfold pidStacks clearPid
  have hmap : (la.watcherVector.map (AList.erase pid)).getD w ∅ =
      AList.erase pid (la.watcherVector.getD w ∅) :=
    List.getD_map la.watcherVector ∅ (AList.erase pid)
  rw [hmap]
  by_cases hp : p = pid
  · subst hp
    rw [if_pos rfl, UnorderedMap.get, AList.lookup_erase]
    rfl
  · rw [if_neg hp, UnorderedMap.get, AList.lookup_erase_ne hp, UnorderedMap.get]

/-- The class agrees with the plain map, and every process is accounted for. -/
structure Refines (la : LiveAllocation) (m : LiveMap) : Prop where
  accounted : ∀ w p, (la.pidStacks w p).Accounted
  entries : ∀ w p a, (la.pidStacks w p).entryAt a = (m w p a).map fun e => (e.1, some e.2)

theorem refines_empty : Refines {} fun _ _ _ => none := by
  refine ⟨?_, ?_⟩
  · intro w p
    exact PidStacks.accounted_default
  · intro w p a
    rfl

variable {la}

theorem Refines.step {m : LiveMap} (h : Refines la m) (op : LiveOp) (hop : op.NonZero) :
    Refines (la.step op) (m.step op) := by
  cases op with
  | registerAllocation uo address value watcherPos pid =>
    refine ⟨fun w p => ?_, fun w p a => ?_⟩
    · rw [LiveAllocation.step, pidStacks_registerAllocation]
      split_ifs
      · exact (h.accounted _ _).registerAllocation uo address hop
      · exact h.accounted w p
    · rw [LiveAllocation.step, pidStacks_registerAllocation, LiveMap.step]
      by_cases huo : uo.locs = []
      · have hskip : (la.pidStacks watcherPos pid).registerAllocation uo address value =
            (la.pidStacks watcherPos pid, false) := if_pos huo
        rw [if_pos huo, hskip, ← h.entries]
        split_ifs with hwp
        · rw [hwp.1, hwp.2]
        · rfl
      · rw [if_neg huo, LiveMap.set]
        split_ifs with hwp hwpa hwpa
        · rw [PidStacks.entryAt_registerAllocation _ huo, if_pos hwpa.2.2]
          rfl
        · have ha : a ≠ address := fun ha => hwpa ⟨hwp.1, hwp.2, ha⟩
          rw [PidStacks.entryAt_registerAllocation _ huo, if_neg ha, ← h.entries, hwp.1, hwp.2]
        · exact absurd ⟨hwpa.1, hwpa.2.1⟩ hwp
        · exact h.entries w p a
  | registerDeallocation address watcherPos pid =>
    refine ⟨fun w p => ?_, fun w p a => ?_⟩
    · rw [LiveAllocation.step, pidStacks_registerDeallocation]
      split_ifs
      · exact (h.accounted _ _).registerDeallocation address
      · exact h.accounted w p
    · rw [LiveAllocation.step, pidStacks_registerDeallocation, LiveMap.step, LiveMap.set]
      split_ifs with hwp hwpa hwpa
      · rw [PidStacks.entryAt_registerDeallocation, if_pos hwpa.2.2]
        rfl
      · have ha : a ≠ address := fun ha => hwpa ⟨hwp.1, hwp.2, ha⟩
        rw [PidStacks.entryAt_registerDeallocation, if_neg ha, ← h.entries, hwp.1, hwp.2]
      · exact absurd ⟨hwpa.1, hwpa.2.1⟩ hwp
      · exact h.entries w p a
  | clearPid pid =>
    refine ⟨fun w p => ?_, fun w p a => ?_⟩
    · rw [LiveAllocation.step, pidStacks_clearPid]
      split_ifs
      · exact PidStacks.accounted_default
      · exact h.accounted w p
    · simp only [LiveAllocation.step, pidStacks_clearPid, LiveMap.step]
      split_ifs
      · rfl
      · exact h.entries w p a
  | clearPidForWatcher watcherPos pid =>
    refine ⟨fun w p => ?_, fun w p a => ?_⟩
    · rw [LiveAllocation.step, pidStacks_clearPidForWatcher]
      split_ifs
      · exact PidStacks.accounted_default
      · exact h.accounted w p
    · simp only [LiveAllocation.step, pidStacks_clearPidForWatcher, LiveMap.step]
      split_ifs
      · rfl
      · exact h.entries w p a

theorem refines_foldl {m : LiveMap} (h : Refines la m) (ops : List LiveOp)
    (hops : ∀ op ∈ ops, op.NonZero) :
    Refines (ops.foldl LiveAllocation.step la) (ops.foldl LiveMap.step m) := by
  induction ops generalizing la m with
  | nil => exact h
  | cons op rest ih =>
    refine ih (h.step op (hops op List.mem_cons_self)) ?_
    exact fun x hx => hops x (List.mem_cons_of_mem op hx)

/-- After any history of calls, the two maps of every watcher and process are
consistent, and the address map is the result of replaying the history on a plain
map. -/
theorem run_consistent (ops : List LiveOp) (hops : ∀ op ∈ ops, op.NonZero) (w : ℕ) (p : ℤ) :
    ((run ops).pidStacks w p).Consistent ∧
      ∀ a, ((run ops).pidStacks w p).entryAt a =
        (LiveMap.replay ops w p a).map fun e => (e.1, some e.2) := by
  have h : Refines (run ops) (LiveMap.replay ops) := refines_foldl refines_empty ops hops
  exact ⟨(h.accounted w p).consistent, h.entries w p⟩

/-- Two stack traces that swap an address, a free of the last allocation of one of
them, a free of an unknown address and a cleared process. -/
theorem run_consistent_overlap :
    let f : UnwindOutput := ⟨[⟨1, 1, 1, 0, 0⟩], [], [], [], 4, 4⟩
    let g : UnwindOutput := ⟨[⟨2, 2, 1, 0, 0⟩], [], [], [], 4, 4⟩
    let ops : List LiveOp := [.registerAllocation f 16 5 0 4, .registerAllocation f 32 7 0 4,
      .registerAllocation g 16 3 0 4, .registerAllocation g 16 4 0 4,
      .registerDeallocation 32 0 4, .registerDeallocation 48 0 4, .clearPidForWatcher 2 4,
      .registerAllocation g 64 1 1 5, .clearPid 5]
    ((run ops).pidStacks 0 4).Consistent ∧
      ∀ a, ((run ops).pidStacks 0 4).entryAt a =
        (LiveMap.replay ops 0 4 a).map fun e => (e.1, some e.2) :=
  run_consistent _ (by decide) 0 4

end LiveAllocation

end Ddprof
