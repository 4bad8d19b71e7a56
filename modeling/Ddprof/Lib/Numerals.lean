import Mathlib.Tactic

/-!
Numerals: positional notation as text, as it is printed and as it is read.

Printing is `Nat.toDigits`, with zeros in front up to a width. Reading goes through the digits from
the left and is given by what each character is worth, so that it covers digits of either case.
-/

namespace Numerals

def value (digit : Char → ℕ) (base : ℕ) (s : List Char) : ℕ :=
  s.foldl (fun n c => n * base + digit c) 0

/-- `%0<width>`, of decimal or hexadecimal numerals. -/
def padded (width base n : ℕ) : List Char :=
  List.replicate (width - (Nat.toDigits base n).length) '0' ++ Nat.toDigits base n

def decimal (n : ℤ) : List Char :=
  if n < 0 then '-' :: Nat.toDigits 10 n.natAbs else Nat.toDigits 10 n.natAbs

variable {digit : Char → ℕ} {base : ℕ}

@[simp] theorem padded_zero (n : ℕ) : padded 0 base n = Nat.toDigits base n := by
  simp [padded]

theorem value_append_singleton (s : List Char) (c : Char) :
    value digit base (s ++ [c]) = value digit base s * base + digit c := by
  simp [value]

theorem value_replicate_zero_append (hzero : digit '0' = 0) (k : ℕ) (s : List Char) :
    value digit base (List.replicate k '0' ++ s) = value digit base s := by
  induction k with
  | zero => rfl
  | succ k ih =>
    rw [← ih]
    simp [value, List.replicate_succ, hzero]

theorem value_toDigits (hbase : 1 < base) (hdigit : ∀ d < base, digit (Nat.digitChar d) = d)
    (n : ℕ) : value digit base (Nat.toDigits base n) = n := by
  induction n using Nat.strong_induction_on with
  | _ n ih =>
    rw [Nat.toDigits_eq_if hbase]
    split_ifs with hlt
    · simpa [value] using hdigit n hlt
    · -- the last digit comes off the end
      have hdiv : n / base < n := Nat.div_lt_self (by omega) hbase
      rw [value_append_singleton, ih _ hdiv, hdigit _ (Nat.mod_lt n (by omega)), Nat.mul_comm]
      exact Nat.div_add_mod n base

theorem value_padded (hbase : 1 < base) (hdigit : ∀ d < base, digit (Nat.digitChar d) = d)
    (width n : ℕ) : value digit base (padded width base n) = n := by
  have hzero : digit '0' = 0 := hdigit 0 (by omega)
  rw [padded, value_replicate_zero_append hzero, value_toDigits hbase hdigit]

theorem mem_toDigits (hbase : 1 < base) {n : ℕ} {c : Char} (hc : c ∈ Nat.toDigits base n) :
    ∃ d < base, c = Nat.digitChar d := by
  induction n using Nat.strong_induction_on with
  | _ n ih =>
    rw [Nat.toDigits_eq_if hbase] at hc
    split_ifs at hc with hlt
    · exact ⟨n, hlt, List.mem_singleton.mp hc⟩
    · rcases List.mem_append.mp hc with hc | hc
      · exact ih _ (Nat.div_lt_self (by omega) hbase) hc
      · exact ⟨n % base, Nat.mod_lt n (by omega), List.mem_singleton.mp hc⟩

theorem mem_padded (hbase : 1 < base) {width n : ℕ} {c : Char} (hc : c ∈ padded width base n) :
    ∃ d < base, c = Nat.digitChar d := by
  rcases List.mem_append.mp hc with hc | hc
  · exact ⟨0, by omega, (List.mem_replicate.mp hc).2⟩
  · exact mem_toDigits hbase hc

theorem padded_ne_nil (width n : ℕ) : padded width base n ≠ [] := by
  simp [padded, Nat.toDigits_ne_nil]

end Numerals
