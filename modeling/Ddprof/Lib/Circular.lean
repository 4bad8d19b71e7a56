import Mathlib.Tactic

/-!
Circular byte memory.

A memory of `size` cells is addressed by positions that only grow; a position
stands for the cell it has modulo the size. Two positions less than `size` apart
stand for different cells, so everything inside a window of `size` positions
behaves as if the memory were linear. Words are stored with the lowest byte
first.
-/

namespace Circular

abbrev Byte := BitVec 8

variable {size p q n k R : ℕ} {m : ℕ → Byte} {bs cs : List Byte}

/-! ### Cells -/

theorem mod_ne_mod (hpq : p < q) (hq : q < p + size) : p % size ≠ q % size := by
  intro h
  have hdvd : size ∣ q - p := (Nat.modEq_iff_dvd' hpq.le).mp h
  exact absurd (Nat.le_of_dvd (by omega) hdvd) (by omega)

theorem mod_ne_mod_of_window (hp : R ≤ p) (hp' : p < R + size) (hq : R ≤ q)
    (hq' : q < R + size) (hne : p ≠ q) : p % size ≠ q % size := by
  rcases Nat.lt_or_gt_of_ne hne with h | h
  · exact mod_ne_mod h (by omega)
  · exact (mod_ne_mod h (by omega)).symm

/-! ### Reading and writing -/

/-- The `n` bytes from position `p` on. -/
def read (size : ℕ) (m : ℕ → Byte) (p : ℕ) : ℕ → List Byte
  | 0 => []
  | n + 1 => m (p % size) :: read size m (p + 1) n

def write (size : ℕ) (m : ℕ → Byte) (p : ℕ) : List Byte → ℕ → Byte
  | [] => m
  | b :: bs => write size (Function.update m (p % size) b) (p + 1) bs

@[simp] theorem length_read : (read size m p n).length = n := by
  induction n generalizing p with
  | zero => rfl
  | succ n ih => rw [read, List.length_cons, ih]

theorem read_congr {m' : ℕ → Byte} (h : ∀ i < n, m' ((p + i) % size) = m ((p + i) % size)) :
    read size m' p n = read size m p n := by
  induction n generalizing p with
  | zero => rfl
  | succ n ih =>
    rw [read, read, show m' (p % size) = m (p % size) from h 0 (by omega)]
    refine congrArg _ (ih fun i hi => ?_)
    have := h (i + 1) (by omega)
    rwa [show p + (i + 1) = p + 1 + i by omega] at this

theorem write_of_outside {c : ℕ} (h : ∀ i < bs.length, (p + i) % size ≠ c) :
    write size m p bs c = m c := by
  induction bs generalizing p m with
  | nil => rfl
  | cons b bs ih =>
    rw [write, ih fun i hi => ?_]
    · exact Function.update_of_ne (h 0 (by simp)).symm ..
    · have := h (i + 1) (by simpa using hi)
      rwa [show p + (i + 1) = p + 1 + i by omega] at this

theorem read_write_self (h : bs.length ≤ size) :
    read size (write size m p bs) p bs.length = bs := by
  induction bs generalizing p m with
  | nil => rfl
  | cons b bs ih =>
    rw [List.length_cons] at h
    rw [List.length_cons, read, write, ih (by omega)]
    refine congrArg (· :: bs) ?_
    rw [write_of_outside fun i hi => ?_, Function.update_self]
    exact (mod_ne_mod (by omega) (by omega)).symm

/-- The positions `[p, p + n)` and `[q, q + k)` share no cell. -/
def Apart (size p n q k : ℕ) : Prop := ∀ i < n, ∀ j < k, (p + i) % size ≠ (q + j) % size

theorem Apart.symm (h : Apart size p n q k) : Apart size q k p n :=
  fun j hj i hi => (h i hi j hj).symm

/-- Two ranges one after the other inside a window share no cell. -/
theorem apart_of_le (hp : R ≤ p) (hpq : p + n ≤ q) (hq : q + k ≤ R + size) :
    Apart size p n q k := by
  intro i hi j hj
  exact mod_ne_mod_of_window (R := R) (by omega) (by omega) (by omega) (by omega) (by omega)

theorem read_write_of_apart (h : Apart size p bs.length q k) :
    read size (write size m p bs) q k = read size m q k :=
  read_congr fun j hj => write_of_outside fun i hi => h i hi j hj

theorem read_add (size : ℕ) (m : ℕ → Byte) (p n k : ℕ) :
    read size m p (n + k) = read size m p n ++ read size m (p + n) k := by
  induction n generalizing p with
  | zero => simp [read]
  | succ n ih =>
    rw [show n + 1 + k = n + k + 1 by omega, read, read, ih, List.cons_append,
      show p + 1 + n = p + (n + 1) by omega]

theorem take_drop_read {j : ℕ} (h : k + j ≤ n) :
    ((read size m p n).drop k).take j = read size m (p + k) j := by
  rw [show n = k + (j + (n - k - j)) by omega, read_add, read_add,
    List.drop_left' length_read, List.take_left' length_read]

theorem read_mod : read size m (p % size) n = read size m p n := by
  induction n generalizing p with
  | zero => rfl
  | succ n ih =>
    rw [read, read, Nat.mod_mod, ← ih (p := p + 1), ← ih (p := p % size + 1), Nat.mod_add_mod]

theorem write_mod : write size m (p % size) bs = write size m p bs := by
  induction bs generalizing p m with
  | nil => rfl
  | cons b bs ih =>
    rw [write, write, Nat.mod_mod, ← ih (p := p + 1), ← ih (p := p % size + 1), Nat.mod_add_mod]

theorem read_update {i : ℕ} {b : Byte} (hi : i < n) (hn : n ≤ size) :
    read size (Function.update m ((p + i) % size) b) p n = (read size m p n).set i b := by
  induction n generalizing p i with
  | zero => omega
  | succ n ih =>
    rw [read, read]
    cases i with
    | zero =>
      rw [List.set_cons_zero, Nat.add_zero, Function.update_self]
      refine congrArg _ (read_congr fun j hj => ?_)
      exact Function.update_of_ne (mod_ne_mod (by omega) (by omega)).symm ..
    | succ i =>
      rw [List.set_cons_succ, show p + (i + 1) = p + 1 + i by omega, ih (by omega) (by omega),
        Function.update_of_ne]
      exact mod_ne_mod (by omega) (by omega)

/-! ### Words -/

def leBytes : ℕ → ℕ → List Byte
  | 0, _ => []
  | k + 1, w => BitVec.ofNat 8 w :: leBytes k (w / 256)

def leWord : List Byte → ℕ
  | [] => 0
  | b :: bs => b.toNat + 256 * leWord bs

@[simp] theorem length_leBytes (k w : ℕ) : (leBytes k w).length = k := by
  induction k generalizing w with
  | zero => rfl
  | succ k ih => rw [leBytes, List.length_cons, ih]

theorem leWord_leBytes (k w : ℕ) : leWord (leBytes k w) = w % 256 ^ k := by
  induction k generalizing w with
  | zero => simp [leBytes, leWord, Nat.mod_one]
  | succ k ih =>
    rw [leBytes, leWord, ih, BitVec.toNat_ofNat, show 256 ^ (k + 1) = 2 ^ 8 * 256 ^ k from
      pow_succ' 256 k, Nat.mod_mul]
    rfl

theorem leWord_lt (bs : List Byte) : leWord bs < 256 ^ bs.length := by
  induction bs with
  | nil => simp [leWord]
  | cons b bs ih =>
    have hb : b.toNat < 256 := b.isLt
    rw [leWord, List.length_cons, pow_succ]
    omega

/-- Bytes are determined by the word that they are. -/
theorem leBytes_leWord (bs : List Byte) : leBytes bs.length (leWord bs) = bs := by
  induction bs with
  | nil => rfl
  | cons b bs ih =>
    have hb : b.toNat < 256 := b.isLt
    rw [List.length_cons, leBytes, leWord, show (b.toNat + 256 * leWord bs) / 256 = leWord bs by
      omega, ih]
    refine congrArg (· :: bs) (BitVec.eq_of_toNat_eq ?_)
    rw [BitVec.toNat_ofNat]
    omega

theorem leWord_read_write {w : ℕ} (hk : k ≤ size) (hw : w < 256 ^ k) :
    leWord (read size (write size m p (leBytes k w)) p k) = w := by
  have h := read_write_self (m := m) (p := p)
    (by rwa [length_leBytes] : (leBytes k w).length ≤ size)
  rw [length_leBytes] at h
  rw [h, leWord_leBytes, Nat.mod_eq_of_lt hw]

end Circular
