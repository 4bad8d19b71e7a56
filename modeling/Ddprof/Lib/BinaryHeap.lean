import Mathlib.Tactic

/-!
Binary heaps in a vector, as the C++ library keeps them (`std::push_heap`,
`std::pop_heap` of libstdc++) with the smallest element on top.

The vector is a list, and the children of the place `i` are `2 * i + 1` and
`2 * i + 2`. Both operations end by moving a hole towards the top until the new
value fits in. The value passes an element only if it is smaller, so an element
on top stays there when one with an equal key is pushed.
-/

namespace BinaryHeap

variable {α κ : Type} [LinearOrder κ] (key : α → κ)

/-- `__push_heap`: elements greater than the value move down into the hole. -/
def siftUp (v : α) (hole : ℕ) (xs : List α) : List α :=
  if 0 < hole then
    match xs[(hole - 1) / 2]? with
    | some p => if key v < key p then siftUp v ((hole - 1) / 2) (xs.set hole p) else xs.set hole v
    | none => xs.set hole v
  else xs.set hole v
termination_by hole

/-- The loop of `__adjust_heap`: the smaller child moves up into the hole until it is at
a leaf. -/
def sink (hole : ℕ) (xs : List α) : ℕ × List α :=
  match xs[2 * hole + 1]?, h : xs[2 * hole + 2]? with
  | some l, some r =>
    have : 2 * hole + 2 < xs.length := (List.getElem?_eq_some_iff.mp h).1
    if key l < key r then sink (2 * hole + 1) (xs.set hole l)
    else sink (2 * hole + 2) (xs.set hole r)
  | some l, none => (2 * hole + 1, xs.set hole l)
  | none, _ => (hole, xs)
termination_by xs.length - hole
decreasing_by all_goals (rw [List.length_set]; omega)

def push (xs : List α) (v : α) : List α := siftUp key v xs.length (xs ++ [v])

def pop (xs : List α) : List α :=
  match xs.getLast? with
  | none => []
  | some v =>
    let ys := xs.dropLast
    if ys.isEmpty then []
    else
      let (hole, zs) := sink key 0 ys
      siftUp key v hole zs

def IsHeap (xs : List α) : Prop :=
  ∀ i p x, 0 < i → xs[(i - 1) / 2]? = some p → xs[i]? = some x → key p ≤ key x

/-- A heap with a hole: the hole is not compared, and what is above it is not greater than
what is below it. -/
structure Holed (hole : ℕ) (xs : List α) : Prop where
  lt : hole < xs.length
  apart : ∀ i p x, 0 < i → i ≠ hole → (i - 1) / 2 ≠ hole → xs[(i - 1) / 2]? = some p →
    xs[i]? = some x → key p ≤ key x
  across : ∀ i p x, 0 < hole → 0 < i → (i - 1) / 2 = hole → xs[(hole - 1) / 2]? = some p →
    xs[i]? = some x → key p ≤ key x

section

variable {key} {xs : List α} {v t x : α} {hole i : ℕ}

theorem IsHeap.head_le (h : IsHeap key xs) (ht : xs[0]? = some t) (hx : xs[i]? = some x) :
    key t ≤ key x := by
  induction i using Nat.strong_induction_on generalizing x with
  | _ i ih =>
    rcases Nat.eq_zero_or_pos i with rfl | hi
    · rw [ht] at hx
      cases hx
      exact le_rfl
    · have hlt : (i - 1) / 2 < xs.length := by
        have := (List.getElem?_eq_some_iff.mp hx).1
        omega
      have hp := List.getElem?_eq_getElem hlt
      exact (ih _ (by omega) hp).trans (h i _ x hi hp hx)

theorem IsHeap.le_of_mem {ts : List α} (h : IsHeap key (t :: ts)) (hx : x ∈ ts) :
    key t ≤ key x := by
  obtain ⟨i, hi⟩ := List.getElem?_of_mem (List.mem_cons_of_mem t hx)
  exact h.head_le rfl hi

/-! ### The hole moves up -/

theorem set_set_perm (hi : hole < xs.length) (hx : xs[i]? = some x) (hne : i ≠ hole) :
    ((xs.set hole x).set i v).Perm (xs.set hole v) := by
  obtain ⟨hlt, rfl⟩ := List.getElem?_eq_some_iff.mp hx
  have h := List.set_set_perm (show hole < (xs.set hole v).length by simpa)
    (show i < (xs.set hole v).length by simpa)
  rwa [List.getElem_set_self, List.getElem_set_ne hne.symm, List.set_set] at h

theorem Holed.up (h : Holed key hole xs) (hpos : 0 < hole) {p : α}
    (hp : xs[(hole - 1) / 2]? = some p) : Holed key ((hole - 1) / 2) (xs.set hole p) where
  lt := by
    rw [List.length_set]
    have := h.lt
    omega
  apart i q x hi hne hpar hq hx := by
    by_cases hih : i = hole
    · exact absurd (by rw [hih]) hpar
    · rw [List.getElem?_set_ne (Ne.symm hih)] at hx
      by_cases hih' : (i - 1) / 2 = hole
      · rw [hih', List.getElem?_set_self h.lt] at hq
        cases hq
        exact h.across i p x hpos hi hih' hp hx
      · rw [List.getElem?_set_ne (Ne.symm hih')] at hq
        exact h.apart i q x hi hih hih' hq hx
  across i q x hpos' hi hpar hq hx := by
    have hq' : xs[((hole - 1) / 2 - 1) / 2]? = some q := by
      rwa [List.getElem?_set_ne (by omega)] at hq
    have hqp : key q ≤ key p := h.apart _ q p hpos' (by omega) (by omega) hq' hp
    by_cases hih : i = hole
    · rw [hih, List.getElem?_set_self h.lt] at hx
      cases hx
      exact hqp
    · rw [List.getElem?_set_ne (Ne.symm hih)] at hx
      refine hqp.trans (h.apart i p x hi hih (by omega) ?_ hx)
      rw [hpar]
      exact hp

theorem Holed.fill (h : Holed key hole xs)
    (habove : ∀ p, 0 < hole → xs[(hole - 1) / 2]? = some p → key p ≤ key v)
    (hbelow : ∀ i x, 0 < i → (i - 1) / 2 = hole → xs[i]? = some x → key v ≤ key x) :
    IsHeap key (xs.set hole v) := by
  intro i p x hi hp hx
  by_cases hih : i = hole
  · subst hih
    rw [List.getElem?_set_self h.lt] at hx
    cases hx
    rw [List.getElem?_set_ne (by omega)] at hp
    exact habove p hi hp
  · rw [List.getElem?_set_ne (Ne.symm hih)] at hx
    by_cases hpar : (i - 1) / 2 = hole
    · rw [hpar, List.getElem?_set_self h.lt] at hp
      cases hp
      exact hbelow i x hi hpar hx
    · rw [List.getElem?_set_ne (Ne.symm hpar)] at hp
      exact h.apart i p x hi hih hpar hp hx

theorem siftUp_spec (h : Holed key hole xs)
    (hbelow : ∀ i x, 0 < i → (i - 1) / 2 = hole → xs[i]? = some x → key v ≤ key x) :
    IsHeap key (siftUp key v hole xs) ∧ (siftUp key v hole xs).Perm (xs.set hole v) := by
  induction hole using Nat.strong_induction_on generalizing xs with
  | _ hole ih =>
    rw [siftUp]
    by_cases hpos : 0 < hole
    · have hlt : (hole - 1) / 2 < xs.length := by
        have := h.lt
        omega
      have hp := List.getElem?_eq_getElem hlt
      rw [if_pos hpos, hp]
      generalize xs[(hole - 1) / 2] = p at hp
      dsimp only
      by_cases hvp : key v < key p
      · rw [if_pos hvp]
        obtain ⟨hheap, hperm⟩ := ih ((hole - 1) / 2) (by omega) (h.up hpos hp)
          fun i x hi hpar hx => by
          by_cases hih : i = hole
          · rw [hih, List.getElem?_set_self h.lt] at hx
            cases hx
            exact hvp.le
          · rw [List.getElem?_set_ne (Ne.symm hih)] at hx
            refine hvp.le.trans (h.apart i p x hi hih (by omega) ?_ hx)
            rw [hpar]
            exact hp
        exact ⟨hheap, hperm.trans (set_set_perm h.lt hp (by omega))⟩
      · rw [if_neg hvp]
        refine ⟨h.fill (fun q _ hq => ?_) hbelow, .refl _⟩
        rw [hp] at hq
        cases hq
        exact not_lt.mp hvp
    · rw [if_neg hpos]
      exact ⟨h.fill (fun q hpos' _ => absurd hpos' hpos) hbelow, .refl _⟩

/-- An element on top that is not greater than the value stays there. -/
theorem getElem?_zero_siftUp (hpos : 0 < hole) (ht : xs[0]? = some t) (hle : key t ≤ key v) :
    (siftUp key v hole xs)[0]? = some t := by
  induction hole using Nat.strong_induction_on generalizing xs with
  | _ hole ih =>
    have hset : ∀ x, (xs.set hole x)[0]? = some t := fun x => by
      rw [List.getElem?_set_ne hpos.ne', ht]
    rw [siftUp, if_pos hpos]
    split
    · rename_i p hp
      by_cases hvp : key v < key p
      · rw [if_pos hvp]
        rcases Nat.eq_zero_or_pos ((hole - 1) / 2) with hzero | hpos'
        · rw [hzero, ht] at hp
          cases hp
          exact absurd hvp (not_lt.mpr hle)
        · exact ih _ (by omega) hpos' (hset p)
      · rw [if_neg hvp]
        exact hset v
    · exact hset v

/-! ### The hole moves down -/

theorem Holed.down (h : Holed key hole xs) {c : α} (hi : i = 2 * hole + 1 ∨ i = 2 * hole + 2)
    (hc : xs[i]? = some c)
    (hmin : ∀ j x, 0 < j → (j - 1) / 2 = hole → xs[j]? = some x → key c ≤ key x) :
    Holed key i (xs.set hole c) where
  lt := by
    rw [List.length_set]
    exact (List.getElem?_eq_some_iff.mp hc).1
  apart j p x hj hne hpar hp hx := by
    by_cases hjh : j = hole
    · subst hjh
      rw [List.getElem?_set_self h.lt] at hx
      cases hx
      rw [List.getElem?_set_ne (by omega)] at hp
      exact h.across i p _ hj (by omega) (by omega) hp hc
    · rw [List.getElem?_set_ne (Ne.symm hjh)] at hx
      by_cases hjp : (j - 1) / 2 = hole
      · rw [hjp, List.getElem?_set_self h.lt] at hp
        cases hp
        exact hmin j x hj hjp hx
      · rw [List.getElem?_set_ne (Ne.symm hjp)] at hp
        exact h.apart j p x hj hjh hjp hp hx
  across j p y _ hj hpar hp hx := by
    rw [show (i - 1) / 2 = hole by omega, List.getElem?_set_self h.lt] at hp
    cases hp
    rw [List.getElem?_set_ne (by omega)] at hx
    refine h.apart j c y hj (by omega) (by omega) ?_ hx
    rw [hpar]
    exact hc

theorem sink_spec (h : Holed key hole xs) :
    Holed key (sink key hole xs).1 (sink key hole xs).2 ∧
      (sink key hole xs).2.length ≤ 2 * (sink key hole xs).1 + 1 ∧
      ∀ v, ((sink key hole xs).2.set (sink key hole xs).1 v).Perm (xs.set hole v) := by
  have hchild : ∀ {hole j : ℕ}, 0 < j → (j - 1) / 2 = hole →
      j = 2 * hole + 1 ∨ j = 2 * hole + 2 := by
    intro hole j hj hpar
    omega
  fun_induction sink key hole xs with
  | case1 hole xs l r hr hl hlt hlr ih =>
    obtain ⟨hholed, hleaf, hperm⟩ := ih <| h.down (.inl rfl) hl fun j x hj hpar hx => by
      rcases hchild hj hpar with rfl | rfl
      · rw [hl] at hx
        cases hx
        exact le_rfl
      · rw [hr] at hx
        cases hx
        exact hlr.le
    exact ⟨hholed, hleaf, fun v => (hperm v).trans (set_set_perm h.lt hl (by omega))⟩
  | case2 hole xs l r hr hl hlt hlr ih =>
    obtain ⟨hholed, hleaf, hperm⟩ := ih <| h.down (.inr rfl) hr fun j x hj hpar hx => by
      rcases hchild hj hpar with rfl | rfl
      · rw [hl] at hx
        cases hx
        exact not_lt.mp hlr
      · rw [hr] at hx
        cases hx
        exact le_rfl
    exact ⟨hholed, hleaf, fun v => (hperm v).trans (set_set_perm h.lt hr (by omega))⟩
  | case3 hole xs l hr hl =>
    have hlen := List.getElem?_eq_none_iff.mp hr
    refine ⟨h.down (.inl rfl) hl fun j x hj hpar hx => ?_, ?_, fun v => ?_⟩
    · rcases hchild hj hpar with rfl | rfl
      · rw [hl] at hx
        cases hx
        exact le_rfl
      · rw [hr] at hx
        cases hx
    · rw [List.length_set]
      omega
    · exact set_set_perm h.lt hl (by omega)
  | case4 hole xs hl =>
    exact ⟨h, List.getElem?_eq_none_iff.mp hl, fun v => .refl _⟩

/-! ### The operations -/

theorem isHeap_nil : IsHeap key ([] : List α) := nofun

theorem push_spec (h : IsHeap key xs) (v : α) :
    IsHeap key (push key xs v) ∧ (push key xs v).Perm (v :: xs) := by
  have hold : ∀ {i : ℕ} {p : α}, i ≠ xs.length → (xs ++ [v])[i]? = some p → xs[i]? = some p := by
    intro i p hi hp
    have hlt := (List.getElem?_eq_some_iff.mp hp).1
    rw [List.length_append, List.length_singleton] at hlt
    rwa [List.getElem?_append_left (by omega)] at hp
  have hend : ∀ {i : ℕ} {p : α}, (xs ++ [v])[i]? = some p → i ≤ xs.length := by
    intro i p hp
    have hlt := (List.getElem?_eq_some_iff.mp hp).1
    rw [List.length_append, List.length_singleton] at hlt
    omega
  have hholed : Holed key xs.length (xs ++ [v]) := by
    refine ⟨by simp, fun i p x hi hne hpar hp hx => ?_, fun i p x _ hi hpar _ hx => ?_⟩
    · exact h i p x hi (hold hpar hp) (hold hne hx)
    · have := hend hx
      omega
  obtain ⟨hheap, hperm⟩ := siftUp_spec (v := v) hholed fun i x hi hpar hx => by
    have := hend hx
    omega
  refine ⟨hheap, hperm.trans ?_⟩
  rw [List.set_append_right _ _ le_rfl, Nat.sub_self, List.set_cons_zero]
  exact List.perm_append_singleton v xs

theorem head?_push {ts : List α} (hle : key t ≤ key v) :
    ∃ rest, push key (t :: ts) v = t :: rest := by
  have htop : (push key (t :: ts) v)[0]? = some t :=
    getElem?_zero_siftUp (Nat.succ_pos _) rfl hle
  cases hpush : push key (t :: ts) v with
  | nil => rw [hpush] at htop; cases htop
  | cons u rest =>
    rw [hpush] at htop
    cases htop
    exact ⟨rest, rfl⟩

theorem pop_spec {ts : List α} (h : IsHeap key (t :: ts)) :
    IsHeap key (pop key (t :: ts)) ∧ (pop key (t :: ts)).Perm ts := by
  rcases List.eq_nil_or_concat ts with rfl | ⟨us, v, rfl⟩
  · exact ⟨isHeap_nil, .refl _⟩
  · rw [List.concat_eq_append, ← List.cons_append] at h ⊢
    have hget : ∀ {i : ℕ} {x : α}, (t :: us)[i]? = some x → (t :: us ++ [v])[i]? = some x := by
      intro i x hx
      rw [List.getElem?_append_left (List.getElem?_eq_some_iff.mp hx).1]
      exact hx
    have hholed : Holed key 0 (t :: us) :=
      ⟨Nat.succ_pos _, fun i p x hi _ _ hp hx => h i p x hi (hget hp) (hget hx),
        fun i p x hzero => absurd hzero (Nat.lt_irrefl 0)⟩
    obtain ⟨hsunk, hleaf, hperm⟩ := sink_spec hholed
    obtain ⟨hheap, hperm'⟩ := siftUp_spec (v := v) hsunk fun i x hi hpar hx => by
      have := (List.getElem?_eq_some_iff.mp hx).1
      omega
    have hpop : pop key (t :: us ++ [v]) =
        siftUp key v (sink key 0 (t :: us)).1 (sink key 0 (t :: us)).2 := by
      rw [pop, List.getLast?_concat]
      simp only [List.dropLast_concat, List.isEmpty_cons, Bool.false_eq_true, if_false]
    rw [hpop]
    refine ⟨hheap, hperm'.trans ((hperm v).trans ?_)⟩
    rw [List.set_cons_zero]
    exact (List.perm_append_singleton v us).symm

end

end BinaryHeap
