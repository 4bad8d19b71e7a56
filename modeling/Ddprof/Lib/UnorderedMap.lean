import Mathlib.Data.Finmap
import Mathlib.Tactic

/-!
A finite map with the interface of `std::unordered_map`.

The representation is Mathlib's `AList`. Iteration order is the list order of
the representation; results about iteration are stated through `All`, which
does not depend on it.
-/

abbrev UnorderedMap (κ α : Type) := AList (fun _ : κ => α)

namespace UnorderedMap

variable {κ α : Type} [DecidableEq κ]

/-- `operator[]` read: the stored value, or the default one that the access creates. -/
def get [Inhabited α] (m : UnorderedMap κ α) (k : κ) : α := (AList.lookup k m).getD default

@[simp] theorem get_insert [Inhabited α] (m : UnorderedMap κ α) (k : κ) (v : α) :
    get (AList.insert k v m) k = v := by
  rw [get, AList.lookup_insert, Option.getD_some]

theorem get_insert_ne [Inhabited α] (m : UnorderedMap κ α) {k k' : κ} (v : α) (h : k' ≠ k) :
    get (AList.insert k v m) k' = get m k' := by
  rw [get, AList.lookup_insert_ne h, get]

@[simp] theorem get_erase [Inhabited α] (m : UnorderedMap κ α) (k : κ) :
    get (AList.erase k m) k = default := by
  rw [get, AList.lookup_erase, Option.getD_none]

theorem get_erase_ne [Inhabited α] (m : UnorderedMap κ α) {k k' : κ} (h : k' ≠ k) :
    get (AList.erase k m) k' = get m k' := by
  rw [get, AList.lookup_erase_ne h, get]

/-- Every entry satisfies `P`. -/
def All (P : κ → α → Prop) (m : UnorderedMap κ α) : Prop :=
  ∀ k v, AList.lookup k m = some v → P k v

variable {P : κ → α → Prop} {m : UnorderedMap κ α}

theorem all_empty : All P (∅ : UnorderedMap κ α) := by
  intro k v h
  simp at h

theorem All.get [Inhabited α] (h : All P m) (k : κ) (hd : P k default) : P k (m.get k) := by
  unfold UnorderedMap.get
  cases hk : AList.lookup k m with
  | none => exact hd
  | some v => exact h k v hk

variable {k : κ}

theorem All.insert (h : All P m) {v : α} (hv : P k v) : All P (AList.insert k v m) := by
  intro k' v' h'
  by_cases hk : k' = k
  · subst hk
    rw [AList.lookup_insert] at h'
    exact Option.some.inj h' ▸ hv
  · rw [AList.lookup_insert_ne hk] at h'
    exact h k' v' h'

theorem All.erase (h : All P m) (k : κ) : All P (AList.erase k m) := by
  intro k' v' h'
  by_cases hk : k' = k
  · subst hk
    rw [AList.lookup_erase] at h'
    cases h'
  · rw [AList.lookup_erase_ne hk] at h'
    exact h k' v' h'

def eraseAll (m : UnorderedMap κ α) (keys : List κ) : UnorderedMap κ α :=
  keys.foldl (fun acc k => AList.erase k acc) m

theorem lookup_eraseAll (m : UnorderedMap κ α) (keys : List κ) (k : κ) :
    AList.lookup k (m.eraseAll keys) = if k ∈ keys then none else AList.lookup k m := by
  induction keys generalizing m with
  | nil => rfl
  | cons k' rest ih =>
    rw [eraseAll, List.foldl_cons]
    refine (ih _).trans ?_
    by_cases hk : k = k'
    · subst hk
      rw [AList.lookup_erase, if_pos List.mem_cons_self, ite_self]
    · rw [AList.lookup_erase_ne hk]
      simp [hk]

theorem All.eraseAll (h : All P m) (keys : List κ) : All P (m.eraseAll keys) := by
  induction keys generalizing m with
  | nil => exact h
  | cons k rest ih => exact ih (h.erase k)

theorem foldl_update_dlookup {l : List (Sigma fun _ : κ => α)} (hl : l.NodupKeys) (f : κ → α)
    (k : κ) :
    l.foldl (fun f e => Function.update f e.1 e.2) f k = (List.dlookup k l).getD (f k) := by
  induction l generalizing f with
  | nil => rfl
  | cons e rest ih =>
    obtain ⟨k', v⟩ := e
    obtain ⟨hk', hrest⟩ := List.nodupKeys_cons.mp hl
    rw [List.foldl_cons, ih hrest]
    by_cases hk : k = k'
    · subst hk
      rw [List.dlookup_eq_none.mpr hk', List.dlookup_cons_eq]
      exact Function.update_self ..
    · rw [List.dlookup_cons_ne _ _ hk]
      exact congrArg _ (Function.update_of_ne hk _ _)

theorem foldl_update_entries (m : UnorderedMap κ α) (f : κ → α) (k : κ) :
    m.entries.foldl (fun f e => Function.update f e.1 e.2) f k =
      (AList.lookup k m).getD (f k) :=
  foldl_update_dlookup m.nodupKeys f k

def mapValues (f : κ → α → α) (m : UnorderedMap κ α) : UnorderedMap κ α where
  entries := m.entries.map fun e => ⟨e.1, f e.1 e.2⟩
  nodupKeys := by
    have hkeys : (m.entries.map fun e => (⟨e.1, f e.1 e.2⟩ : Sigma fun _ : κ => α)).keys =
        m.entries.keys := by
      simp [List.keys]
    rw [List.NodupKeys, hkeys]
    exact m.nodupKeys

theorem dlookup_mapValues (f : κ → α → α) (l : List (Sigma fun _ : κ => α)) (k : κ) :
    List.dlookup k (l.map fun e => (⟨e.1, f e.1 e.2⟩ : Sigma fun _ : κ => α)) =
      (List.dlookup k l).map (f k) := by
  induction l with
  | nil => rfl
  | cons e rest ih =>
    obtain ⟨k', v⟩ := e
    by_cases hk : k = k'
    · subst hk
      simp
    · rw [List.map_cons, List.dlookup_cons_ne _ _ hk, List.dlookup_cons_ne _ _ hk, ih]

theorem lookup_mapValues (f : κ → α → α) (m : UnorderedMap κ α) (k : κ) :
    AList.lookup k (m.mapValues f) = (AList.lookup k m).map (f k) :=
  dlookup_mapValues f m.entries k

theorem All.mapValues (h : All P m) {f : κ → α → α} (hf : ∀ k v, P k v → P k (f k v)) :
    All P (m.mapValues f) := by
  intro k v hv
  rw [lookup_mapValues] at hv
  obtain ⟨w, hw, rfl⟩ := Option.map_eq_some_iff.mp hv
  exact hf k w (h k w hw)

/-- `std::erase_if`, with the number of the entries that it erases. -/
def eraseIf (p : κ → α → Bool) (m : UnorderedMap κ α) : UnorderedMap κ α × ℕ :=
  (⟨m.entries.filter fun e => !p e.1 e.2, m.nodupKeys.sublist List.filter_sublist⟩,
    m.entries.countP fun e => p e.1 e.2)

theorem lookup_eraseIf (p : κ → α → Bool) (m : UnorderedMap κ α) (k : κ) :
    AList.lookup k (m.eraseIf p).1 = (AList.lookup k m).filter fun v => !p k v := by
  ext v
  rw [Option.filter_eq_some_iff, ← Option.mem_def, ← Option.mem_def, AList.mem_lookup_iff,
    AList.mem_lookup_iff, eraseIf, List.mem_filter]

theorem All.entries_all {p : κ → α → Bool} (h : All (fun k v => p k v = true) m) :
    (m.entries.all fun e => p e.1 e.2) = true := by
  rw [List.all_eq_true]
  intro e he
  exact h e.1 e.2 (AList.mem_lookup_iff.mpr he)

theorem all_of_entries_all {p : κ → α → Bool}
    (h : (m.entries.all fun e => p e.1 e.2) = true) : All (fun k v => p k v = true) m := by
  intro k v hlook
  exact List.all_eq_true.mp h ⟨k, v⟩ (AList.mem_lookup_iff.mp hlook)

/-! ### Sums over the entries -/

variable {M : Type} [AddCommMonoid M]

def sumOf (f : α → M) (m : UnorderedMap κ α) : M := (m.entries.map fun e => f e.2).sum

theorem sumOf_insert (f : α → M) (m : UnorderedMap κ α) (k : κ) (v : α) :
    sumOf f (AList.insert k v m) = f v + sumOf f (AList.erase k m) := by
  simp [sumOf, AList.entries_insert, AList.erase]

private theorem sum_kerase (f : α → M) {l : List (Sigma fun _ : κ => α)} {v : α}
    (h : List.dlookup k l = some v) :
    (l.map fun e => f e.2).sum = f v + ((l.kerase k).map fun e => f e.2).sum := by
  induction l with
  | nil => cases h
  | cons e rest ih =>
    obtain ⟨k', w⟩ := e
    by_cases hk : k = k'
    · subst hk
      rw [List.dlookup_cons_eq] at h
      cases h
      simp
    · rw [List.dlookup_cons_ne _ _ hk] at h
      rw [List.kerase_cons_ne hk, List.map_cons, List.map_cons, List.sum_cons, List.sum_cons,
        ih h]
      exact add_left_comm _ _ _

variable {m : UnorderedMap κ α}

theorem sumOf_eq_add_erase (f : α → M) {v : α}
    (h : AList.lookup k m = some v) : sumOf f m = f v + sumOf f (AList.erase k m) :=
  sum_kerase f h

theorem sumOf_erase_of_none (f : α → M)
    (h : AList.lookup k m = none) : sumOf f (AList.erase k m) = sumOf f m := by
  have hk : k ∉ m.entries.keys := AList.lookup_eq_none.mp h
  simp [sumOf, AList.erase, List.kerase_of_notMem_keys hk]

theorem sumOf_eq_zero {f : α → M}
    (h : ∀ k v, AList.lookup k m = some v → f v = 0) : sumOf f m = 0 := by
  refine List.sum_eq_zero fun x hx => ?_
  obtain ⟨e, he, rfl⟩ := List.mem_map.mp hx
  exact h e.1 e.2 (AList.mem_lookup_iff.mpr he)

omit [DecidableEq κ] in
/-- A measure that is at most 1 sums up to at most the number of entries. -/
theorem sumOf_le_length {f : α → ℕ} (hf : ∀ v, f v ≤ 1) (m : UnorderedMap κ α) :
    sumOf f m ≤ m.entries.length := by
  rw [sumOf]
  calc (m.entries.map fun e => f e.2).sum
      ≤ (m.entries.map fun e => f e.2).length * 1 := by
        refine List.sum_le_card_nsmul _ 1 fun x hx => ?_
        obtain ⟨e, -, rfl⟩ := List.mem_map.mp hx
        exact hf e.2
    _ = m.entries.length := by rw [mul_one, List.length_map]

theorem sumOf_erase_le (f : α → ℕ) (m : UnorderedMap κ α) (k : κ) :
    sumOf f (AList.erase k m) ≤ sumOf f m := by
  cases h : AList.lookup k m with
  | none => exact (sumOf_erase_of_none f h).le
  | some v =>
    rw [sumOf_eq_add_erase f h]
    exact Nat.le_add_left _ _

theorem sumOf_eraseAll_le (f : α → ℕ) (m : UnorderedMap κ α) (keys : List κ) :
    sumOf f (m.eraseAll keys) ≤ sumOf f m := by
  induction keys generalizing m with
  | nil => exact le_rfl
  | cons k rest ih => exact (ih _).trans (sumOf_erase_le f m k)

theorem sumOf_insert_of_lookup (f : α → M) {v w : α}
    (h : AList.lookup k m = some v) (hfw : f w = f v) :
    sumOf f (AList.insert k w m) = sumOf f m := by
  rw [sumOf_insert, sumOf_eq_add_erase f h, hfw]

theorem length_insert_of_lookup {v : α} (h : AList.lookup k m = some v) (w : α) :
    (AList.insert k w m).entries.length = m.entries.length := by
  have hsum := sumOf_insert_of_lookup (fun _ => 1) (w := w) h rfl
  simpa [sumOf, Nat.add_comm] using hsum

theorem sumOf_insert_of_none {f : α → M} {w : α}
    (h : AList.lookup k m = none) (hfw : f w = 0) : sumOf f (AList.insert k w m) = sumOf f m := by
  rw [sumOf_insert, sumOf_erase_of_none f h, hfw, zero_add]

end UnorderedMap
