import Ddprof.Lib.Circular

/-!
Items laid one after the other in a circular memory.

A format says how much space an item takes and when a memory holds it at a
position. The items of a list follow each other without gaps; the first `r` have
been given up, and the others fit in one turn of the memory. Then they share no
cell, so an item can be changed, an item can be added behind the last one, and
the first items can be given up, without harm to the others.
-/

namespace Circular

variable {α : Type}

/-! ### Positions -/

/-- The position of the `i`-th item. -/
def offset (space : α → ℕ) (xs : List α) (i : ℕ) : ℕ := ((xs.take i).map space).sum

section Offset

variable {space : α → ℕ} {xs : List α} {x y : α} {i j : ℕ}

theorem offset_succ (hi : xs[i]? = some x) :
    offset space xs (i + 1) = offset space xs i + space x := by
  obtain ⟨hlt, rfl⟩ := List.getElem?_eq_some_iff.mp hi
  rw [offset, offset, List.take_succ_eq_append_getElem hlt, List.map_append, List.sum_append,
    List.map_singleton, List.sum_singleton]

theorem offset_mono (h : i ≤ j) : offset space xs i ≤ offset space xs j := by
  rw [offset, offset, show j = i + (j - i) by omega, List.take_add, List.map_append,
    List.sum_append]
  omega

theorem offset_add_space_le (hi : xs[i]? = some x) (h : i < j) :
    offset space xs i + space x ≤ offset space xs j := by
  rw [← offset_succ hi]
  exact offset_mono h

theorem offset_append (ys : List α) (h : i ≤ xs.length) :
    offset space (xs ++ ys) i = offset space xs i := by
  rw [offset, offset, List.take_append_of_le_length h]

theorem offset_append_length (x : α) :
    offset space (xs ++ [x]) (xs ++ [x]).length = offset space xs xs.length + space x := by
  rw [List.length_append, List.length_singleton, offset_succ (x := x) (by simp),
    offset_append _ le_rfl]

/-- Positions do not move when an item is replaced by one of the same space. -/
theorem offset_set (hi : xs[i]? = some x) (hspace : space y = space x) (j : ℕ) :
    offset space (xs.set i y) j = offset space xs j := by
  have hmap : (xs.set i y).map space = xs.map space := by
    obtain ⟨hlt, rfl⟩ := List.getElem?_eq_some_iff.mp hi
    rw [List.map_set, hspace]
    refine List.ext_getElem (by simp) fun k hk hk' => ?_
    by_cases hik : i = k
    · subst hik
      simp
    · rw [List.getElem_set_ne hik]
  rw [offset, offset, List.map_take, List.map_take, hmap]

end Offset

/-! ### Formats and tilings -/

/-- How items are stored. An item that is valid takes space, and whether a memory
holds it depends on the cells of its space only. -/
structure Format (α : Type) where
  space : α → ℕ
  Valid : α → Prop
  At : ℕ → (ℕ → Byte) → ℕ → α → Prop
  space_pos : ∀ x, Valid x → 0 < space x
  congr : ∀ size m m' p x, Valid x →
    (∀ k < space x, m' ((p + k) % size) = m ((p + k) % size)) → At size m p x → At size m' p x

namespace Format

variable (F : Format α)

def pos (xs : List α) (i : ℕ) : ℕ := offset F.space xs i

/-- The number of items that end at or before a position. -/
def index : List α → ℕ → ℕ
  | [], _ => 0
  | x :: xs, p => if p < F.space x then 0 else index xs (p - F.space x) + 1

theorem index_pos {xs : List α} {i : ℕ} (hvalid : ∀ x ∈ xs, F.Valid x) (hi : i ≤ xs.length) :
    F.index xs (F.pos xs i) = i := by
  induction xs generalizing i with
  | nil =>
    rw [List.length_nil] at hi
    rw [index, Nat.le_zero.mp hi]
  | cons x xs ih =>
    cases i with
    | zero =>
      rw [index, if_pos]
      exact F.space_pos x (hvalid x List.mem_cons_self)
    | succ i =>
      have hpos : F.pos (x :: xs) (i + 1) = F.space x + F.pos xs i := by
        rw [pos, pos, offset, offset, List.take_succ_cons, List.map_cons, List.sum_cons]
      rw [index, hpos, if_neg (by omega), Nat.add_sub_cancel_left,
        ih (fun y hy => hvalid y (List.mem_cons_of_mem x hy)) (by simpa using hi)]

/-- The memory holds the items, of which the first `r` have been given up. -/
structure Tiled (size : ℕ) (m : ℕ → Byte) (xs : List α) (r : ℕ) : Prop where
  valid : ∀ x ∈ xs, F.Valid x
  released : r ≤ xs.length
  window : F.pos xs xs.length ≤ F.pos xs r + size
  item : ∀ i x, r ≤ i → xs[i]? = some x → F.At size m (F.pos xs i) x

namespace Tiled

variable {F} {size : ℕ} {m m' : ℕ → Byte} {xs : List α} {x y : α} {r i j : ℕ}
  (h : F.Tiled size m xs r)
include h

theorem valid_of_getElem? (hi : xs[i]? = some x) : F.Valid x :=
  h.valid x (List.mem_of_getElem? hi)

theorem pos_lt (hij : i < j) (hj : j ≤ xs.length) : F.pos xs i < F.pos xs j := by
  have hi : xs[i]? = some xs[i] := List.getElem?_eq_getElem (by omega)
  have hle : F.pos xs i + F.space xs[i] ≤ F.pos xs j := offset_add_space_le hi hij
  have hpos := F.space_pos _ (h.valid_of_getElem? hi)
  omega

theorem pos_inj (hi : i ≤ xs.length) (hj : j ≤ xs.length) (heq : F.pos xs i = F.pos xs j) :
    i = j := by
  rcases Nat.lt_trichotomy i j with hlt | rfl | hlt
  · exact absurd heq (h.pos_lt hlt hj).ne
  · rfl
  · exact absurd heq (h.pos_lt hlt hi).ne'

/-- There are no more items than cells between two positions. -/
theorem sub_le_pos_sub (hij : i ≤ j) (hj : j ≤ xs.length) :
    F.pos xs i + (j - i) ≤ F.pos xs j := by
  induction j, hij using Nat.le_induction with
  | base => omega
  | succ j hij ih =>
    have := ih (by omega)
    have := h.pos_lt (show j < j + 1 by omega) hj
    omega

/-- The last item that has not been given up ends inside the window. -/
theorem pos_add_space_le (hi : xs[i]? = some x) :
    F.pos xs i + F.space x ≤ F.pos xs r + size :=
  (offset_add_space_le hi (List.getElem?_eq_some_iff.mp hi).1).trans h.window

theorem apart (hr : r ≤ i) (hi : xs[i]? = some x) (hj : xs[j]? = some y) (hij : i < j) :
    Apart size (F.pos xs i) (F.space x) (F.pos xs j) (F.space y) :=
  apart_of_le (R := F.pos xs r) (offset_mono hr) (offset_add_space_le hi hij)
    (h.pos_add_space_le hj)

theorem apart_of_ne (hri : r ≤ i) (hrj : r ≤ j) (hi : xs[i]? = some x) (hj : xs[j]? = some y)
    (hij : i ≠ j) : Apart size (F.pos xs i) (F.space x) (F.pos xs j) (F.space y) := by
  rcases Nat.lt_or_gt_of_ne hij with hlt | hlt
  · exact h.apart hri hi hj hlt
  · exact (h.apart hrj hj hi hlt).symm

theorem modify (hr : r ≤ i) (hi : xs[i]? = some x) (hvalid : F.Valid y)
    (hspace : F.space y = F.space x)
    (hdata : ∀ c, (∀ k < F.space x, (F.pos xs i + k) % size ≠ c) → m' c = m c)
    (hitem : F.At size m' (F.pos xs i) y) : F.Tiled size m' (xs.set i y) r := by
  have hpos : ∀ j, F.pos (xs.set i y) j = F.pos xs j := offset_set hi hspace
  refine ⟨fun z hz => ?_, ?_, ?_, fun j z hj hz => ?_⟩
  · rcases List.mem_or_eq_of_mem_set hz with hz | rfl
    · exact h.valid z hz
    · exact hvalid
  · rw [List.length_set]
    exact h.released
  · rw [hpos, hpos, List.length_set]
    exact h.window
  · rw [hpos]
    by_cases hij : i = j
    · subst hij
      rw [List.getElem?_set_self (List.getElem?_eq_some_iff.mp hi).1] at hz
      cases hz
      exact hitem
    · rw [List.getElem?_set_ne hij] at hz
      refine F.congr _ _ _ _ _ (h.valid_of_getElem? hz) (fun k hk => hdata _ fun l hl => ?_)
        (h.item j z hj hz)
      exact h.apart_of_ne hr hj hi hz hij l hl k hk

theorem append (hvalid : F.Valid x)
    (hwindow : F.pos xs xs.length + F.space x ≤ F.pos xs r + size)
    (hdata : ∀ c, (∀ k < F.space x, (F.pos xs xs.length + k) % size ≠ c) → m' c = m c)
    (hitem : F.At size m' (F.pos xs xs.length) x) : F.Tiled size m' (xs ++ [x]) r := by
  have hpos : ∀ j ≤ xs.length, F.pos (xs ++ [x]) j = F.pos xs j := fun j hj => offset_append _ hj
  refine ⟨fun z hz => ?_, ?_, ?_, fun j z hj hz => ?_⟩
  · rcases List.mem_append.mp hz with hz | hz
    · exact h.valid z hz
    · exact List.mem_singleton.mp hz ▸ hvalid
  · exact h.released.trans (by simp)
  · rw [hpos r h.released, pos, offset_append_length]
    exact hwindow
  · rcases Nat.lt_or_ge j xs.length with hjlen | hjlen
    · rw [List.getElem?_append_left hjlen] at hz
      rw [hpos j hjlen.le]
      have hend : F.pos xs j + F.space z ≤ F.pos xs xs.length := offset_add_space_le hz hjlen
      refine F.congr _ _ _ _ _ (h.valid_of_getElem? hz) (fun k hk => hdata _ fun l hl => ?_)
        (h.item j z hj hz)
      have hstart : F.pos xs r ≤ F.pos xs j := offset_mono hj
      exact mod_ne_mod_of_window (R := F.pos xs r) (by omega) (by omega) (by omega) (by omega)
        (by omega)
    · obtain rfl : j = xs.length := by
        have := (List.getElem?_eq_some_iff.mp hz).1
        simp only [List.length_append, List.length_singleton] at this
        omega
      rw [List.getElem?_append_right le_rfl, Nat.sub_self] at hz
      cases hz
      rw [hpos _ le_rfl]
      exact hitem

theorem overwrite {p : ℕ} (b : Byte) (hp : F.pos xs xs.length ≤ p) (hp' : p < F.pos xs r + size) :
    F.Tiled size (Function.update m (p % size) b) xs r := by
  refine ⟨h.valid, h.released, h.window, fun i x hi hx => ?_⟩
  refine F.congr _ _ _ _ _ (h.valid_of_getElem? hx) (fun k hk => ?_) (h.item i x hi hx)
  have hend : F.pos xs i + F.space x ≤ F.pos xs xs.length :=
    offset_add_space_le hx (List.getElem?_eq_some_iff.mp hx).1
  have hstart : F.pos xs r ≤ F.pos xs i := offset_mono hi
  rw [Function.update_of_ne]
  exact mod_ne_mod_of_window (R := F.pos xs r) (by omega) (by omega) (by omega) (by omega)
    (by omega)

theorem release {r' : ℕ} (hr : r ≤ r') (hr' : r' ≤ xs.length) : F.Tiled size m xs r' :=
  ⟨h.valid, hr', h.window.trans (Nat.add_le_add_right (offset_mono hr) _),
    fun i x hi => h.item i x (hr.trans hi)⟩

end Tiled

end Format

end Circular
