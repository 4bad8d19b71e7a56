import Ddprof.Dso.ProcMaps
import Ddprof.Lib.Numerals
import Ddprof.Lib.Scanner

/-!
Conversions of the scanning functions, on what the printing functions make.
-/

namespace Ddprof

namespace Scan

open Scanner (HeadNot headNot_cons)

theorem digitValue_digitChar : ∀ d < 16, digitValue (Nat.digitChar d) = some d := by
  decide

theorem isDigitOf_digitChar {base d : ℕ} (hbase : base ≤ 16) (hd : d < base) :
    isDigitOf base (Nat.digitChar d) = true := by
  rw [isDigitOf, digitValue_digitChar d (hd.trans_le hbase), Option.any_some]
  exact decide_eq_true hd

theorem isDigit_iff {c : Char} : c.isDigit = true ↔ 48 ≤ c.toNat ∧ c.toNat ≤ 57 := by
  simp only [Char.isDigit, ge_iff_le, Bool.and_eq_true, decide_eq_true_eq]
  rfl

theorem isDigitOf_ten (c : Char) : isDigitOf 10 c = c.isDigit := by
  have h0 : '0'.val.toNat = 48 := rfl
  have h9 : '9'.val.toNat = 57 := rfl
  have hval : c.toNat = c.val.toNat := rfl
  have hzero : '0'.toNat = 48 := rfl
  rw [Bool.eq_iff_iff, isDigit_iff]
  unfold isDigitOf digitValue
  simp only [Char.le_def, UInt32.le_iff_toNat_le]
  split_ifs
  · simp only [Option.any_some, decide_eq_true_eq]
    omega
  · simp only [Option.any_some, decide_eq_true_eq]
    omega
  · simp only [Option.any_some, decide_eq_true_eq]
    omega
  · simp only [Option.any_none, Bool.false_eq_true, false_iff]
    omega

variable {c : Char}

theorem isDigitOf_mono {base base' : ℕ} (hle : base ≤ base')
    (hc : isDigitOf base c = true) : isDigitOf base' c = true := by
  rw [isDigitOf, Option.any_eq_true] at hc ⊢
  obtain ⟨d, hd, hlt⟩ := hc
  exact ⟨d, hd, decide_eq_true ((of_decide_eq_true hlt).trans_le hle)⟩

section Base

variable {base : ℕ}

theorem digitsValue_padded (hone : 1 < base) (hbase : base ≤ 16) (width n : ℕ) :
    digitsValue base (Numerals.padded width base n) = n :=
  Numerals.value_padded hone
    (fun d hd => by rw [digitValue_digitChar d (hd.trans_le hbase), Option.getD_some]) width n

theorem digitsValue_toDigits (hone : 1 < base) (hbase : base ≤ 16) (n : ℕ) :
    digitsValue base (Nat.toDigits base n) = n :=
  Numerals.value_toDigits hone
    (fun d hd => by rw [digitValue_digitChar d (hd.trans_le hbase), Option.getD_some]) n

theorem isDigitOf_of_mem_padded (hone : 1 < base) (hbase : base ≤ 16) {width n : ℕ}
    (hc : c ∈ Numerals.padded width base n) : isDigitOf base c = true := by
  obtain ⟨d, hd, rfl⟩ := Numerals.mem_padded hone hc
  exact isDigitOf_digitChar hbase hd

theorem le_toNat_of_isDigitOf (hc : isDigitOf base c = true) : 48 ≤ c.toNat := by
  have h0 : '0'.val.toNat = 48 := rfl
  have ha : 'a'.val.toNat = 97 := rfl
  have hA : 'A'.val.toNat = 65 := rfl
  have hval : c.toNat = c.val.toNat := rfl
  unfold isDigitOf digitValue at hc
  simp only [Char.le_def, UInt32.le_iff_toNat_le] at hc
  split_ifs at hc
  · omega
  · omega
  · omega
  · cases hc

theorem ne_of_isDigitOf {c d : Char} (hc : isDigitOf base c = true) (hd : digitValue d = none) :
    c ≠ d := by
  rintro rfl
  rw [isDigitOf, hd] at hc
  cases hc

theorem isSpace_of_isDigitOf (hc : isDigitOf base c = true) : isSpace c = false := by
  have hr : '\r'.val.toNat = 13 := rfl
  have hval : c.toNat = c.val.toNat := rfl
  have hle := le_toNat_of_isDigitOf hc
  have hblank : c ≠ ' ' := ne_of_isDigitOf hc (by decide)
  simp only [isSpace, hblank, decide_false, Bool.false_or, Bool.and_eq_false_iff,
    decide_eq_false_iff_not, Char.le_def, UInt32.le_iff_toNat_le]
  omega

theorem sign_of_isDigitOf (hc : isDigitOf base c = true) (s : List Char) :
    sign (c :: s) = (false, c :: s) := by
  unfold sign
  split
  · rename_i heq
    exact absurd (List.cons.inj heq).1 (ne_of_isDigitOf hc (by decide))
  · rename_i heq
    exact absurd (List.cons.inj heq).1 (ne_of_isDigitOf hc (by decide))
  · rfl

/-- Digits do not begin with the marker of hexadecimal numerals. -/
theorem hexMarker_of_isDigitOf {p t : List Char} (hp : ∀ c ∈ p, isDigitOf base c = true)
    (hne : p ≠ []) (ht : HeadNot (fun c => c = 'x' || c = 'X') t) :
    hexMarker (p ++ t) = (false, p ++ t) := by
  have hsecond : ∀ c d s, p ++ t = c :: d :: s → d ≠ 'x' ∧ d ≠ 'X' := by
    intro c d s heq
    rcases p with - | ⟨c', - | ⟨d', p⟩⟩
    · exact absurd rfl hne
    · obtain ⟨-, rfl⟩ := List.cons.inj heq
      simpa using headNot_cons.mp ht
    · obtain ⟨-, heq⟩ := List.cons.inj heq
      obtain ⟨rfl, -⟩ := List.cons.inj heq
      have hd := hp d' (by simp)
      exact ⟨ne_of_isDigitOf hd (by decide), ne_of_isDigitOf hd (by decide)⟩
  unfold hexMarker
  split
  · rename_i heq
    exact absurd rfl (hsecond _ _ _ heq).1
  · rename_i heq
    exact absurd rfl (hsecond _ _ _ heq).2
  · rfl

theorem skipSpace_of_isDigitOf {p : List Char} (hp : ∀ c ∈ p, isDigitOf base c = true)
    (hne : p ≠ []) (t : List Char) : skipSpace (p ++ t) = p ++ t := by
  cases p with
  | nil => exact absurd rfl hne
  | cons c p =>
    have hc := isSpace_of_isDigitOf (hp c List.mem_cons_self)
    simp [skipSpace, hc]

/-- An integer conversion reads a numeral, with any number of zeros in front, up to something that
cannot belong to it. -/
theorem unsigned_padded (hbase : base = 10 ∨ base = 16) {width n : ℕ} (hn : n < addrSpace)
    {t : List Char} (ht : HeadNot (isDigitOf base) t)
    (hx : HeadNot (fun c => c = 'x' || c = 'X') t) :
    unsigned base (Numerals.padded width base n ++ t) = some (n, t) := by
  have hone : 1 < base := by omega
  have hle : base ≤ 16 := by omega
  have hdigits : ∀ c ∈ Numerals.padded width base n, isDigitOf base c = true :=
    fun c hc => isDigitOf_of_mem_padded hone hle hc
  have hne : Numerals.padded width base n ≠ [] := Numerals.padded_ne_nil width n
  have hvalue : digitsValue base (Numerals.padded width base n) = n :=
    digitsValue_padded hone hle width n
  generalize Numerals.padded width base n = p at hdigits hne hvalue
  have hskip := skipSpace_of_isDigitOf hdigits hne t
  have hsign : sign (p ++ t) = (false, p ++ t) := by
    cases p with
    | nil => exact absurd rfl hne
    | cons c p => exact sign_of_isDigitOf (hdigits c List.mem_cons_self) _
  have hmarker : (if base = 16 then hexMarker (p ++ t) else (false, p ++ t)) = (false, p ++ t) := by
    split_ifs
    · exact hexMarker_of_isDigitOf hdigits hne hx
    · rfl
  have htake : (p ++ t).takeWhile (isDigitOf base) = p := by
    rw [List.takeWhile_append_of_pos hdigits, ht.takeWhile, List.append_nil]
  have hdrop : (p ++ t).dropWhile (isDigitOf base) = t := by
    rw [List.dropWhile_append_of_pos hdigits, ht.dropWhile]
  unfold unsigned
  simp only [hskip, hsign, hmarker, htake, hdrop, hvalue]
  simp [hne, toUnsigned, hn]

theorem unsigned_toDigits (hbase : base = 10 ∨ base = 16) {n : ℕ} (hn : n < addrSpace)
    {t : List Char} (ht : HeadNot (isDigitOf base) t)
    (hx : HeadNot (fun c => c = 'x' || c = 'X') t) :
    unsigned base (Nat.toDigits base n ++ t) = some (n, t) := by
  rw [← Numerals.padded_zero]
  exact unsigned_padded hbase hn ht hx

theorem skipSpace_blank_padded (hone : 1 < base) (hle : base ≤ 16) (width n : ℕ)
    (t : List Char) :
    skipSpace (' ' :: (Numerals.padded width base n ++ t)) = Numerals.padded width base n ++ t :=
  skipSpace_of_isDigitOf (fun _ hc => isDigitOf_of_mem_padded hone hle hc)
    (Numerals.padded_ne_nil width n) t

end Base

end Scan

end Ddprof
