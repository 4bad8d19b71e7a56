import Mathlib.Tactic

/-!
Open addressing with tombstones, seen from one key.

A table maps slots to values, one of which stands for a slot that has never been
used and one for a slot whose key has been removed. A key is looked for along
its own sequence of slots, up to the first slot that has never been used. The
table only changes in two ways: a key is written to a slot without a key, and a
key is replaced by the tombstone. So a slot in use stays in use, and what an
update does on behalf of one key is invisible to every other key.
-/

namespace Probing

variable {V : Type} {empty tombstone k a : V} {slots slots' : ℕ → V} {probe : ℕ → ℕ} {n i : ℕ}

/-- An update of the table on behalf of the key `k`. -/
def Update (empty tombstone k : V) (slots slots' : ℕ → V) : Prop :=
  ∀ s, slots' s = slots s ∨ (slots s = empty ∨ slots s = tombstone) ∧ slots' s = k ∨
    slots s = k ∧ slots' s = tombstone

/-- The first `n` slots of a probe sequence are in use. -/
def Used (empty : V) (slots : ℕ → V) (probe : ℕ → ℕ) (n : ℕ) : Prop :=
  ∀ j < n, slots (probe j) ≠ empty

theorem Update.refl : Update empty tombstone k slots slots := fun _ => .inl rfl

theorem Update.write {s : ℕ} (hs : slots s = empty ∨ slots s = tombstone) :
    Update empty tombstone k slots (Function.update slots s k) := by
  intro s'
  by_cases h : s' = s
  · subst h
    exact .inr (.inl ⟨hs, Function.update_self ..⟩)
  · exact .inl (Function.update_of_ne h ..)

theorem Update.delete {s : ℕ} (hs : slots s = k) :
    Update empty tombstone k slots (Function.update slots s tombstone) := by
  intro s'
  by_cases h : s' = s
  · subst h
    exact .inr (.inr ⟨hs, Function.update_self ..⟩)
  · exact .inl (Function.update_of_ne h ..)

theorem Update.ne_empty (h : Update empty tombstone k slots slots') (hk : k ≠ empty)
    (ht : tombstone ≠ empty) {s : ℕ} (hs : slots s ≠ empty) : slots' s ≠ empty := by
  rcases h s with heq | ⟨_, heq⟩ | ⟨_, heq⟩
  · rwa [heq]
  · rwa [heq]
  · rwa [heq]

theorem Update.used (h : Update empty tombstone k slots slots') (hk : k ≠ empty)
    (ht : tombstone ≠ empty) (hu : Used empty slots probe n) : Used empty slots' probe n :=
  fun j hj => h.ne_empty hk ht (hu j hj)

/-- The slots of every other key stay the same. -/
theorem Update.eq_iff (h : Update empty tombstone k slots slots') (hak : a ≠ k)
    (hae : a ≠ empty) (hat : a ≠ tombstone) {s : ℕ} : slots' s = a ↔ slots s = a := by
  rcases h s with heq | ⟨hold, heq⟩ | ⟨hold, heq⟩
  · rw [heq]
  · rw [heq]
    rcases hold with hold | hold <;> rw [hold] <;>
      exact ⟨fun h => absurd h.symm ‹_›, fun h => absurd h.symm ‹_›⟩
  · rw [heq, hold]
    exact ⟨fun h => absurd h.symm hat, fun h => absurd h.symm hak⟩

theorem used_zero : Used empty slots probe 0 := fun _ hj => absurd hj (Nat.not_lt_zero _)

theorem Used.succ (hu : Used empty slots probe n) (hn : slots (probe n) ≠ empty) :
    Used empty slots probe (n + 1) := by
  intro j hj
  rcases Nat.lt_succ_iff_lt_or_eq.mp hj with hj | rfl
  · exact hu j hj
  · exact hn

/-! ### The number of keys -/

section Keys

variable {p : V → Prop} [DecidablePred p] {size s : ℕ} {v : V}

/-- The number of slots of a table that hold a key. -/
def keys (p : V → Prop) [DecidablePred p] (slots : ℕ → V) (size : ℕ) : ℕ :=
  ((Finset.range size).filter fun s => p (slots s)).card

theorem keys_update_of_not (hs : s < size) (hold : ¬ p (slots s)) (hnew : p v) :
    keys p (Function.update slots s v) size = keys p slots size + 1 := by
  have hinsert : (Finset.range size).filter (fun s' => p (Function.update slots s v s')) =
      insert s ((Finset.range size).filter fun s' => p (slots s')) := by
    ext s'
    by_cases h : s' = s
    · subst h
      simp [hs, hnew]
    · simp [h]
  rw [keys, hinsert, Finset.card_insert_of_notMem (by simp [hold])]
  rfl

theorem keys_update_of_key (hs : s < size) (hold : p (slots s)) (hnew : ¬ p v) :
    keys p (Function.update slots s v) size + 1 = keys p slots size := by
  -- writing the key back is the other update
  have hback : keys p (Function.update (Function.update slots s v) s (slots s)) size =
      keys p (Function.update slots s v) size + 1 :=
    keys_update_of_not hs (by rwa [Function.update_self]) hold
  rw [Function.update_idem, Function.update_eq_self] at hback
  exact hback.symm

theorem keys_le {bound : ℕ} (h : ∀ s, p (slots s) → s < bound) : keys p slots size ≤ bound := by
  have hsub : (Finset.range size).filter (fun s => p (slots s)) ⊆ Finset.range bound := by
    intro s hs
    exact Finset.mem_range.mpr (h s (Finset.mem_filter.mp hs).2)
  simpa [keys] using Finset.card_le_card hsub

theorem keys_eq_zero (h : ∀ s, ¬ p (slots s)) : keys p slots size = 0 := by
  simp [keys, h]

end Keys

end Probing
