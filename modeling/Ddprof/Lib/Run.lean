import Mathlib.Tactic

/-!
Runs of a system, and the rules that carry an invariant along a run.

A system is given by its step function. Two kinds occur. A *total* system can
fail: its step returns in `Except`, and the rule shows that a run neither fails
nor leaves the invariant. A *concurrent* system offers a set of actions in each
state: its step returns `none` where an action is not enabled, a run is a list
of actions that are enabled one after the other, and the rule may use a
condition on each step taken.
-/

namespace Run

variable {σ ℓ ε : Type}

/-! ### Systems with enabled actions -/

/-- Take the actions one after the other; `none` when one is not enabled. -/
def steps (step : σ → ℓ → Option σ) : σ → List ℓ → Option σ
  | s, [] => some s
  | s, l :: ls => (step s l).bind fun s' => steps step s' ls

/-- Every step of the run meets the condition in the state it is taken in. -/
def Along (step : σ → ℓ → Option σ) (ok : σ → ℓ → Prop) : σ → List ℓ → Prop
  | _, [] => True
  | s, l :: ls => ok s l ∧
    match step s l with
    | none => True
    | some s' => Along step ok s' ls

instance decidableAlong (step : σ → ℓ → Option σ) (ok : σ → ℓ → Prop)
    [∀ s l, Decidable (ok s l)] : ∀ s ls, Decidable (Along step ok s ls)
  | _, [] => inferInstanceAs (Decidable True)
  | s, l :: ls =>
    @instDecidableAnd _ _ _ <|
      match step s l with
      | none => inferInstanceAs (Decidable True)
      | some s' => decidableAlong step ok s' ls

section Steps

variable {step : σ → ℓ → Option σ} {ok : σ → ℓ → Prop}

theorem steps_cons {s s' : σ} {l : ℓ} {ls : List ℓ} :
    steps step s (l :: ls) = some s' ↔ ∃ t, step s l = some t ∧ steps step t ls = some s' :=
  Option.bind_eq_some_iff

theorem steps_append {s t s' : σ} {ls ls' : List ℓ} (h : steps step s ls = some t)
    (h' : steps step t ls' = some s') : steps step s (ls ++ ls') = some s' := by
  induction ls generalizing s with
  | nil =>
    cases h
    exact h'
  | cons l rest ih =>
    obtain ⟨u, hu, hrest⟩ := steps_cons.mp h
    exact steps_cons.mpr ⟨u, hu, ih hrest⟩

theorem Along.head {s : σ} {l : ℓ} {ls : List ℓ} (h : Along step ok s (l :: ls)) : ok s l := h.1

theorem Along.tail {s t : σ} {l : ℓ} {ls : List ℓ} (h : Along step ok s (l :: ls))
    (ht : step s l = some t) : Along step ok t ls := by
  have := h.2
  rwa [ht] at this

/-- A condition on the actions alone is met along the run when every action meets it. -/
theorem along_of_forall {ok : ℓ → Prop} {s : σ} {ls : List ℓ} (h : ∀ l ∈ ls, ok l) :
    Along step (fun _ l => ok l) s ls := by
  induction ls generalizing s with
  | nil => trivial
  | cons l rest ih =>
    refine ⟨h l List.mem_cons_self, ?_⟩
    split
    · trivial
    · exact ih fun l' hl' => h l' (List.mem_cons_of_mem l hl')

/-- Two conditions that agree where an invariant holds are met along the same runs, if the
steps that meet the first keep the invariant. -/
theorem along_iff_along {ok ok' : σ → ℓ → Prop} {Inv : σ → Prop}
    (hiff : ∀ s l, Inv s → (ok s l ↔ ok' s l))
    (hstep : ∀ s l s', Inv s → ok s l → step s l = some s' → Inv s') {s : σ} (hs : Inv s)
    (ls : List ℓ) : Along step ok s ls ↔ Along step ok' s ls := by
  induction ls generalizing s with
  | nil => exact Iff.rfl
  | cons l rest ih =>
    unfold Along
    rw [← hiff s l hs]
    refine and_congr_right fun hok => ?_
    cases hnext : step s l with
    | none => exact Iff.rfl
    | some t => exact ih (hstep s l t hs hok hnext)

/-- An invariant that each admitted step keeps holds in every state that a run of
admitted steps reaches. -/
theorem steps_invariant {Inv : σ → Prop}
    (hstep : ∀ s l s', Inv s → ok s l → step s l = some s' → Inv s') {s s' : σ} {ls : List ℓ}
    (hs : Inv s) (hok : Along step ok s ls) (hrun : steps step s ls = some s') : Inv s' := by
  induction ls generalizing s with
  | nil =>
    cases hrun
    exact hs
  | cons l rest ih =>
    obtain ⟨t, ht, hrest⟩ := steps_cons.mp hrun
    exact ih (hstep s l t hs hok.head ht) (hok.tail ht) hrest

/-- An invariant that every step keeps holds in every state that a run reaches. -/
theorem steps_keep {Inv : σ → Prop} (hstep : ∀ s l s', Inv s → step s l = some s' → Inv s')
    {s s' : σ} {ls : List ℓ} (hs : Inv s) (hrun : steps step s ls = some s') : Inv s' := by
  have hok : Along step (fun _ _ => True) s ls := along_of_forall fun _ _ => trivial
  exact steps_invariant (fun s l s' h _ => hstep s l s' h) hs hok hrun

/-- Where each step that counts makes a measure smaller, the measure bounds how many of
them a run has. -/
theorem countP_le_measure {Inv : σ → Prop} {counts : ℓ → Bool} {measure : σ → ℕ}
    (hstep : ∀ s l s', Inv s → ok s l → step s l = some s' →
      Inv s' ∧ measure s' + (if counts l then 1 else 0) ≤ measure s)
    {s s' : σ} {ls : List ℓ} (hs : Inv s) (hok : Along step ok s ls)
    (hrun : steps step s ls = some s') : measure s' + ls.countP counts ≤ measure s := by
  induction ls generalizing s with
  | nil =>
    cases hrun
    exact le_rfl
  | cons l rest ih =>
    obtain ⟨t, ht, hrest⟩ := steps_cons.mp hrun
    obtain ⟨hinv, hle⟩ := hstep s l t hs hok.head ht
    have hcount := ih hinv (hok.tail ht) hrest
    rw [List.countP_cons]
    omega

end Steps

/-! ### Systems that can fail -/

theorem exists_of_map_eq_ok {α β : Type} {f : α → β} {x : Except ε α} {b : β}
    (h : x.map f = .ok b) : ∃ a, x = .ok a ∧ f a = b := by
  cases x with
  | error e => cases h
  | ok a => exact ⟨a, rfl, Except.ok.inj h⟩

theorem exists_of_bind_eq_ok {α β : Type} {x : Except ε α} {f : α → Except ε β} {b : β}
    (h : x >>= f = .ok b) : ∃ a, x = .ok a ∧ f a = .ok b := by
  cases x with
  | error e => cases h
  | ok a => exact ⟨a, rfl, h⟩

theorem eq_ok_of_toOption {α : Type} {x : Except ε α} {a : α} (h : x.toOption = some a) :
    x = .ok a := by
  cases x with
  | error e => cases h
  | ok b => exact congrArg Except.ok (Option.some.inj h)

def exec (step : σ → ℓ → Except ε σ) : σ → List ℓ → Except ε σ
  | s, [] => .ok s
  | s, l :: ls =>
    match step s l with
    | .error e => .error e
    | .ok s' => exec step s' ls

/-- If every admitted operation succeeds and keeps the invariant, so does every
sequence of admitted operations. -/
theorem exec_invariant {step : σ → ℓ → Except ε σ} {Inv : σ → Prop} {ok : σ → ℓ → Prop}
    (hstep : ∀ s l, Inv s → ok s l → ∃ s', step s l = .ok s' ∧ Inv s') {s : σ} (hs : Inv s)
    {ls : List ℓ} (hok : Along (fun s l => (step s l).toOption) ok s ls) :
    ∃ s', exec step s ls = .ok s' ∧ Inv s' := by
  induction ls generalizing s with
  | nil => exact ⟨s, rfl, hs⟩
  | cons l rest ih =>
    obtain ⟨s', hs', hinv⟩ := hstep s l hs hok.head
    obtain ⟨s'', hs'', hinv'⟩ := ih hinv (hok.tail (by rw [hs']; rfl))
    exact ⟨s'', by rw [exec, hs']; exact hs'', hinv'⟩

end Run
