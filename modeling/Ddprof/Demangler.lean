import Mathlib.Tactic

/-!
Demangling of legacy Rust names (`demangler.cc`).

Such a name ends in `::h` and sixteen hexadecimal digits, which are cut off. A read outside of the
string is `none`. The demangler works on one piece of the name after the other; a piece that is
longer than one character ends in `.` or `$`, and the suffix has no such character.
-/

namespace Ddprof

namespace Demangler

def hashPre : List Char := "::h".toList
def hashEgSize : ℕ := 16

def isHexdig (c : Char) : Bool := ('a' ≤ c && c ≤ 'f') || ('0' ≤ c && c ≤ '9')

/-- `str.compare(pos, s.size(), s) == 0`, which reads no further than the end of `str`. -/
def matchesAt (str : List Char) (pos : ℕ) (s : List Char) : Bool :=
  decide ((str.drop pos).take s.length = s)

/-- The loop of `has_hash`, with the number of digits to check. -/
def checkHexdigs (str : List Char) : ℕ → ℕ → Option Bool
  | 0, _ => some true
  | n + 1, i => do
    let c ← str[i]?
    if isHexdig c then checkHexdigs str n (i + 1) else some false

def hasHash (str : List Char) : Option Bool :=
  if str.length ≤ hashPre.length + hashEgSize then some false
  else if ¬ matchesAt str (str.length - hashEgSize - hashPre.length) hashPre then some false
  else checkHexdigs str hashEgSize (str.length - hashEgSize)

/-- The length of the name without the suffix. -/
def payload (str : List Char) : ℕ := str.length - hashPre.length - hashEgSize

/-- The loop of `is_probably_rust_legacy`, with the number of characters to visit. -/
def legacyLoop (str : List Char) : ℕ → ℕ → Option Bool
  | 0, _ => some true
  | n + 1, ptr => do
    let c ← str[ptr]?
    if c = '$' then
      let c₁ ← str[ptr + 1]?
      if c₁ = '$' then some false
      else
        let c₂ ← str[ptr + 2]?
        if c₂ = '$' then some true
        else
          let c₃ ← str[ptr + 3]?
          if c₃ = '$' then some true
          else
            let c₄ ← str[ptr + 4]?
            some (c₄ = '$')
    else if c = '.' then
      let c₁ ← str[ptr + 1]?
      if c₁ ≠ '.' then some true
      else
        let c₂ ← str[ptr + 2]?
        some (c₂ ≠ '.')
    else legacyLoop str n (ptr + 1)

def isProbablyRustLegacy (str : List Char) : Option Bool := do
  if ¬ (← hasHash str) then some false else legacyLoop str (payload str + 1) 0

/-- `none` for -1. -/
def hexToInt (dig : Char) : Option ℕ :=
  if '0' ≤ dig ∧ dig ≤ '9' then some (dig.toNat - '0'.toNat)
  else if 'a' ≤ dig ∧ dig ≤ 'f' then some (dig.toNat - 'a'.toNat + 0xa)
  else if 'A' ≤ dig ∧ dig ≤ 'F' then some (dig.toNat - 'A'.toNat + 0xa)
  else none

def patterns : List (List Char × List Char) :=
  [("..".toList, "::".toList), ("$C$".toList, ",".toList), ("$BP$".toList, "*".toList),
    ("$GT$".toList, ">".toList), ("$LT$".toList, "<".toList), ("$LP$".toList, "(".toList),
    ("$RP$".toList, ")".toList), ("$RF$".toList, "&".toList), ("$SP$".toList, "@".toList)]

/-- What one iteration of `rust_demangle` consumes and appends. -/
structure Piece where
  start : ℕ
  length : ℕ
  output : List Char
  deriving DecidableEq, Repr

/-- `$u??$` with two hexadecimal digits is a character; otherwise it is copied. -/
def unicodePiece (str : List Char) (i : ℕ) : Option Piece := do
  let hi ← str[i + 2]?
  let lo ← str[i + 3]?
  match hexToInt hi, hexToInt lo with
  | some hi, some lo => some ⟨i, 5, [Char.ofNat (lo + 16 * hi)]⟩
  | _, _ => some ⟨i, 5, (str.drop i).take 5⟩

def piece (str : List Char) (i : ℕ) : Option Piece := do
  let c ← str[i]?
  if c = '.' ∨ c = '$' then
    match patterns.find? fun p => matchesAt str i p.1 with
    | some (pattern, replacement) => some ⟨i, pattern.length, replacement⟩
    | none =>
      if c = '.' then some ⟨i, 1, ['-']⟩
      else if matchesAt str i "$u".toList then
        let c₄ ← str[i + 4]?
        if c₄ = '$' then unicodePiece str i else some ⟨i, 1, [c]⟩
      else some ⟨i, 1, [c]⟩
  else some ⟨i, 1, [c]⟩

/-- The loop of `rust_demangle`; `n` bounds the iterations. -/
def demangleLoop (str : List Char) : ℕ → ℕ → Option (List Piece)
  | 0, i => if i < payload str then none else some []
  | n + 1, i =>
    if i < payload str then do
      let p ← piece str i
      let ps ← demangleLoop str n (i + p.length)
      some (p :: ps)
    else some []

def demanglePieces (str : List Char) : Option (List Piece) := do
  let c₀ ← str[0]?
  -- a defect of C++ demangling is repaired
  let i ← if c₀ = '_' then do
      let c₁ ← str[1]?
      some (if c₁ = '$' then 1 else 0)
    else some 0
  demangleLoop str (payload str) i

def rustDemangle (str : List Char) : Option (List Char) :=
  (demanglePieces str).map fun ps => ps.flatMap Piece.output

/-! ### The suffix -/

variable {str : List Char}

/-- The name is longer than the suffix, which has neither `.` nor `$`. -/
structure HasSuffix (str : List Char) : Prop where
  lt : 19 < str.length
  plain : ∀ i c, payload str ≤ i → str[i]? = some c → c ≠ '.' ∧ c ≠ '$'

theorem payload_eq (str : List Char) : payload str = str.length - 19 := by
  rw [payload, Nat.sub_sub]
  rfl

theorem exists_read (str : List Char) {i : ℕ} (h : i < str.length) : ∃ c, str[i]? = some c :=
  ⟨_, List.getElem?_eq_getElem h⟩

theorem getElem?_of_matchesAt {pos : ℕ} {s : List Char} (h : matchesAt str pos s = true) {k : ℕ}
    (hk : k < s.length) : str[pos + k]? = s[k]? := by
  conv_rhs => rw [← of_decide_eq_true h]
  rw [List.getElem?_take_of_lt hk, List.getElem?_drop]

theorem checkHexdigs_spec (str : List Char) : ∀ (n i : ℕ), i + n ≤ str.length →
    ∃ b, checkHexdigs str n i = some b ∧
      (b = true → ∀ j c, i ≤ j → j < i + n → str[j]? = some c → isHexdig c = true) := by
  intro n
  induction n with
  | zero => exact fun i _ => ⟨true, rfl, fun _ j c hle hlt => by omega⟩
  | succ n ih =>
    intro i hi
    obtain ⟨c, hc⟩ := exists_read str (i := i) (by omega)
    by_cases hhex : isHexdig c = true
    · obtain ⟨b, hb, hall⟩ := ih (i + 1) (by omega)
      refine ⟨b, by simp [checkHexdigs, hc, hhex, hb], fun htrue j c' hle hlt hc' => ?_⟩
      rcases Nat.eq_or_lt_of_le hle with rfl | hgt
      · rwa [Option.some.inj (hc'.symm.trans hc)]
      · exact hall htrue j c' hgt (by omega) hc'
    · exact ⟨false, by simp [checkHexdigs, hc, hhex], nofun⟩

theorem not_pattern_of_isHexdig {c : Char} (h : isHexdig c = true) : c ≠ '.' ∧ c ≠ '$' := by
  constructor <;> rintro rfl <;> exact absurd h (by decide)

theorem hasHash_spec (str : List Char) :
    ∃ b, hasHash str = some b ∧ (b = true → HasSuffix str) := by
  unfold hasHash
  split_ifs with hlen hpre
  · exact ⟨false, rfl, nofun⟩
  · replace hlen : 19 < str.length := not_le.mp hlen
    obtain ⟨b, hb, hhex⟩ := checkHexdigs_spec str hashEgSize (str.length - hashEgSize)
      (Nat.sub_add_cancel (by unfold hashEgSize; omega)).le
    refine ⟨b, hb, fun htrue => ⟨hlen, fun i c hi hc => ?_⟩⟩
    have hlt := (List.getElem?_eq_some_iff.mp hc).1
    rw [payload_eq] at hi
    by_cases hdigits : str.length - hashEgSize ≤ i
    · exact not_pattern_of_isHexdig
        (hhex htrue i c hdigits (by unfold hashEgSize at *; omega) hc)
    · -- the three characters before the digits
      obtain ⟨k, rfl⟩ := Nat.exists_eq_add_of_le hi
      have hk : k < hashPre.length := by
        change k < 3
        unfold hashEgSize at hdigits
        omega
      have hread := getElem?_of_matchesAt hpre hk
      rw [Nat.sub_sub] at hread
      have hchar : hashPre[k]? = some c := hread.symm.trans hc
      have hplain : '.' ∉ hashPre ∧ '$' ∉ hashPre := by decide
      have hmem := List.mem_of_getElem? hchar
      exact ⟨fun hc => hplain.1 (hc ▸ hmem), fun hc => hplain.2 (hc ▸ hmem)⟩
  · exact ⟨false, rfl, nofun⟩

/-- Within the payload there are nineteen characters to come. -/
theorem HasSuffix.payload_add (h : HasSuffix str) : payload str + 19 = str.length := by
  rw [payload_eq]
  have := h.lt
  omega

theorem HasSuffix.lt_payload (h : HasSuffix str) {i : ℕ} {c : Char} (hc : str[i]? = some c)
    (hpattern : c = '.' ∨ c = '$') : i < payload str := by
  by_contra hge
  have := h.plain i c (not_lt.mp hge) hc
  rcases hpattern with rfl | rfl <;> simp at this

theorem legacyLoop_isSome (h : HasSuffix str) : ∀ n ptr, ptr + n ≤ payload str + 1 →
    (legacyLoop str n ptr).isSome = true := by
  have hlen := h.payload_add
  intro n
  induction n with
  | zero => exact fun _ _ => rfl
  | succ n ih =>
    intro ptr hptr
    obtain ⟨c, hc⟩ := exists_read str (i := ptr) (by omega)
    have hnext := ih (ptr + 1) (by omega)
    have hread : c = '.' ∨ c = '$' → ∀ k ≤ 4, ∃ c', str[ptr + k]? = some c' := fun hp k hk =>
      exists_read str (by have := h.lt_payload hc hp; omega)
    rw [legacyLoop, hc]
    simp only [Option.bind_eq_bind, Option.bind_some]
    split_ifs with hdollar hdot
    · obtain ⟨c₁, h₁⟩ := hread (.inr hdollar) 1 (by decide)
      obtain ⟨c₂, h₂⟩ := hread (.inr hdollar) 2 (by decide)
      obtain ⟨c₃, h₃⟩ := hread (.inr hdollar) 3 (by decide)
      obtain ⟨c₄, h₄⟩ := hread (.inr hdollar) 4 (by decide)
      simp only [h₁, h₂, h₃, h₄, Option.bind_some]
      split_ifs <;> rfl
    · obtain ⟨c₁, h₁⟩ := hread (.inl hdot) 1 (by decide)
      obtain ⟨c₂, h₂⟩ := hread (.inl hdot) 2 (by decide)
      simp only [h₁, h₂, Option.bind_some]
      split_ifs <;> rfl
    · exact hnext

/-! ### The demangler -/

/-- A piece that lies in the payload and appends no more than it consumes. -/
structure Piece.Within (p : Piece) (str : List Char) (i : ℕ) : Prop where
  start : p.start = i
  pos : 0 < p.length
  le : i + p.length ≤ payload str
  output : p.output.length ≤ p.length

/-- Patterns end in `.` or `$` and have no shorter replacement. -/
theorem patterns_spec : ∀ p ∈ patterns, 0 < p.1.length ∧ p.2.length ≤ p.1.length ∧
    (p.1[p.1.length - 1]? = some '.' ∨ p.1[p.1.length - 1]? = some '$') := by
  decide

theorem unicodePiece_spec {i : ℕ} (hi : i + 5 ≤ payload str)
    (hlen : payload str + 19 = str.length) :
    ∃ p, unicodePiece str i = some p ∧ p.Within str i := by
  obtain ⟨hi', h₂⟩ := exists_read str (i := i + 2) (by omega)
  obtain ⟨lo, h₃⟩ := exists_read str (i := i + 3) (by omega)
  rw [unicodePiece, h₂, h₃]
  simp only [Option.bind_eq_bind, Option.bind_some]
  split
  · exact ⟨_, rfl, rfl, Nat.succ_pos 4, hi, by simp⟩
  · exact ⟨_, rfl, rfl, Nat.succ_pos 4, hi, List.length_take_le _ _⟩

theorem piece_spec (h : HasSuffix str) {i : ℕ} (hi : i < payload str) :
    ∃ p, piece str i = some p ∧ p.Within str i := by
  have hlen := h.payload_add
  obtain ⟨c, hc⟩ := exists_read str (i := i) (by omega)
  have hone : ∀ o, (⟨i, 1, [o]⟩ : Piece).Within str i := fun o =>
    ⟨rfl, Nat.one_pos, hi, le_rfl⟩
  rw [piece, hc]
  simp only [Option.bind_eq_bind, Option.bind_some]
  by_cases hspecial : c = '.' ∨ c = '$'
  · rw [if_pos hspecial]
    cases hfind : patterns.find? fun p => matchesAt str i p.1 with
    | some p =>
      obtain ⟨hpos, hout, hlast⟩ := patterns_spec p (List.mem_of_find?_eq_some hfind)
      have hmatch : matchesAt str i p.1 = true := by simpa using List.find?_some hfind
      have hread := getElem?_of_matchesAt hmatch (Nat.sub_lt hpos Nat.one_pos)
      refine ⟨_, rfl, rfl, hpos, ?_, hout⟩
      have : i + (p.1.length - 1) < payload str := by
        rcases hlast with hlast | hlast
        · exact h.lt_payload (hread.trans hlast) (.inl rfl)
        · exact h.lt_payload (hread.trans hlast) (.inr rfl)
      simp only
      omega
    | none =>
      simp only
      split_ifs with hdot hu
      · exact ⟨_, rfl, hone '-'⟩
      · obtain ⟨c₄, h₄⟩ := exists_read str (i := i + 4) (by omega)
        rw [h₄, Option.bind_some]
        split_ifs with hdollar
        · have := h.lt_payload h₄ (.inr hdollar)
          exact unicodePiece_spec (by omega) hlen
        · exact ⟨_, rfl, hone c⟩
      · exact ⟨_, rfl, hone c⟩
  · rw [if_neg hspecial]
    exact ⟨_, rfl, hone c⟩

theorem demangleLoop_spec (h : HasSuffix str) : ∀ n i, payload str ≤ i + n →
    ∃ ps, demangleLoop str n i = some ps ∧ (∀ p ∈ ps, p.start + p.length ≤ payload str) ∧
      (ps.flatMap Piece.output).length ≤ payload str - i := by
  intro n
  induction n with
  | zero => exact fun i hi => ⟨[], by rw [demangleLoop, if_neg (by omega)], nofun, by simp⟩
  | succ n ih =>
    intro i hn
    by_cases hi : i < payload str
    · obtain ⟨p, hp, hwithin⟩ := piece_spec h hi
      obtain ⟨ps, hps, hall, hout⟩ := ih (i + p.length) (by have := hwithin.pos; omega)
      refine ⟨p :: ps, by simp [demangleLoop, hi, hp, hps], ?_, ?_⟩
      · refine List.forall_mem_cons.mpr ⟨?_, hall⟩
        rw [hwithin.start]
        exact hwithin.le
      · have := hwithin.le
        have := hwithin.output
        rw [List.flatMap_cons, List.length_append]
        omega
    · exact ⟨[], by rw [demangleLoop, if_neg hi], nofun, by simp⟩

/-- Neither function reads outside of the string, no piece reaches into the suffix, and the output
is not longer than the payload. -/
theorem rustDemangle_within (str : List Char) :
    (isProbablyRustLegacy str).isSome = true ∧
      (isProbablyRustLegacy str = some true → ∃ ps, demanglePieces str = some ps ∧
        (∀ p ∈ ps, p.start + p.length ≤ str.length - 19) ∧
        ∃ out, rustDemangle str = some out ∧ out.length ≤ str.length - 19) := by
  obtain ⟨b, hb, hsuffix⟩ := hasHash_spec str
  rw [isProbablyRustLegacy, hb, ← payload_eq]
  cases b with
  | false => exact ⟨rfl, fun h => absurd h (by simp)⟩
  | true =>
    have h := hsuffix rfl
    refine ⟨legacyLoop_isSome h _ 0 (by omega), fun _ => ?_⟩
    obtain ⟨i, hi⟩ : ∃ i, demanglePieces str = demangleLoop str (payload str) i := by
      obtain ⟨c₀, h₀⟩ := exists_read str (i := 0) (by have := h.lt; omega)
      obtain ⟨c₁, h₁⟩ := exists_read str (i := 1) (by have := h.lt; omega)
      rw [demanglePieces, h₀, h₁]
      simp only [Option.bind_eq_bind, Option.bind_some]
      split_ifs <;> exact ⟨_, rfl⟩
    obtain ⟨ps, hps, hall, hout⟩ := demangleLoop_spec h (payload str) i (Nat.le_add_left _ _)
    refine ⟨ps, hi.trans hps, hall, _, ?_, hout.trans (Nat.sub_le _ _)⟩
    rw [rustDemangle, hi, hps]
    rfl

theorem rustDemangle_within_closure :
    isProbablyRustLegacy "a..b$u20$::h0123456789abcdef".toList = some true ∧
      ∃ out, rustDemangle "a..b$u20$::h0123456789abcdef".toList = some out ∧ out.length ≤ 9 := by
  have haccepted : isProbablyRustLegacy "a..b$u20$::h0123456789abcdef".toList = some true := by
    decide
  obtain ⟨ps, -, -, out, hout, hlen⟩ := (rustDemangle_within _).2 haccepted
  exact ⟨haccepted, out, hout, hlen⟩

end Demangler

end Ddprof
