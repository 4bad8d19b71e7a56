import Mathlib.Data.List.TakeWhile
import Mathlib.Tactic

/-!
Scanners: a table of rules, and the longest match.

A rule says how much of the input it matches, and what it makes of the matched text: a token or
nothing, and the mode that the scanner goes on in. Each mode has its own rules. The rule with the
longest match is taken, the earliest one if there are several, and text that no rule matches is
skipped one element at a time.

The fact that the clients need is about concatenation. A *boundary* is a text that no token
reaches into from the left. The tokens of a text with a boundary behind it are its own tokens, and
then those of the boundary, scanned in the mode in which the text ends.
-/

namespace Scanner

variable {μ α τ : Type}

/-! ### How much is matched -/

section Matchers

/-- The elements that come before the first one without the property. -/
def span (p : α → Bool) (s : List α) : ℕ := (s.takeWhile p).length

def one (p : α → Bool) : List α → ℕ
  | [] => 0
  | c :: _ => if p c then 1 else 0

/-- One element of the first kind, then any number of the second kind. -/
def headed (first later : α → Bool) : List α → ℕ
  | [] => 0
  | c :: s => if first c then span later s + 1 else 0

def literals [DecidableEq α] (words : List (List α)) (s : List α) : ℕ :=
  ((words.filter fun w => w.isPrefixOf s).map List.length).foldr max 0

/-- At most one element of a kind, then a match that is not empty. -/
def optionally (p : α → Bool) (len : List α → ℕ) : List α → ℕ
  | [] => len []
  | c :: s => if p c then (if len s = 0 then 0 else len s + 1) else len (c :: s)

/-- The text does not begin with an element of this kind. -/
def HeadNot (p : α → Bool) (s : List α) : Prop := ∀ c ∈ s.head?, p c = false

instance (p : α → Bool) (s : List α) : Decidable (HeadNot p s) :=
  inferInstanceAs (Decidable (∀ c ∈ s.head?, p c = false))

variable {p first later : α → Bool} {s t : List α}

theorem headNot_nil : HeadNot p [] := nofun

theorem headNot_cons {c : α} : HeadNot p (c :: s) ↔ p c = false := by
  simp [HeadNot]

theorem HeadNot.takeWhile (h : HeadNot p t) : t.takeWhile p = [] := by
  cases t with
  | nil => rfl
  | cons c t => rw [List.takeWhile_cons, headNot_cons.mp h]; rfl

theorem HeadNot.dropWhile (h : HeadNot p t) : t.dropWhile p = t := by
  cases t with
  | nil => rfl
  | cons c t => rw [List.dropWhile_cons, headNot_cons.mp h]; rfl

theorem HeadNot.mono {q : α → Bool} (h : HeadNot p t) (hpq : ∀ c, q c = true → p c = true) :
    HeadNot q t := by
  intro c hc
  cases hq : q c with
  | false => rfl
  | true => rw [← hpq c hq, h c hc]

theorem span_le (p : α → Bool) (s : List α) : span p s ≤ s.length :=
  (List.takeWhile_prefix p).length_le

theorem one_le (p : α → Bool) (s : List α) : one p s ≤ s.length := by
  cases s with
  | nil => rfl
  | cons c s =>
    rw [one]
    split_ifs <;> simp

theorem headed_le (first later : α → Bool) (s : List α) : headed first later s ≤ s.length := by
  cases s with
  | nil => rfl
  | cons c s =>
    have := span_le later s
    rw [headed]
    split_ifs <;> simp [this]

theorem foldr_max_le {ns : List ℕ} {b : ℕ} : ns.foldr max 0 ≤ b ↔ ∀ n ∈ ns, n ≤ b := by
  induction ns with
  | nil => simp
  | cons n ns ih => simp [ih]

theorem literals_le_iff [DecidableEq α] {words : List (List α)} {b : ℕ} :
    literals words s ≤ b ↔ ∀ w ∈ words, w <+: s → w.length ≤ b := by
  rw [literals, foldr_max_le]
  simp only [List.mem_map, List.mem_filter, List.isPrefixOf_iff_prefix]
  exact ⟨fun h w hw hpre => h _ ⟨w, ⟨hw, hpre⟩, rfl⟩, fun h n ⟨w, hw, hn⟩ => hn ▸ h w hw.1 hw.2⟩

theorem literals_le [DecidableEq α] (words : List (List α)) (s : List α) :
    literals words s ≤ s.length :=
  literals_le_iff.mpr fun _ _ h => h.length_le

theorem optionally_le {len : List α → ℕ} (h : ∀ s, len s ≤ s.length) (s : List α) :
    optionally p len s ≤ s.length := by
  cases s with
  | nil => exact h []
  | cons c s =>
    have htail := h s
    rw [optionally]
    split_ifs with hc hzero
    · exact Nat.zero_le _
    · rw [List.length_cons]
      omega
    · exact h (c :: s)

theorem span_append (h : HeadNot p t) : span p (s ++ t) = span p s := by
  induction s with
  | nil => rw [List.nil_append, span, h.takeWhile]; rfl
  | cons c s ih =>
    unfold span at ih ⊢
    rw [List.cons_append, List.takeWhile_cons, List.takeWhile_cons]
    cases p c with
    | false => rfl
    | true => simpa using ih

theorem span_of_forall (hs : ∀ c ∈ s, p c = true) (ht : HeadNot p t) :
    span p (s ++ t) = s.length := by
  rw [span_append ht, span, List.takeWhile_eq_self_iff.mpr hs]

theorem one_append (h : HeadNot p t) : one p (s ++ t) = one p s := by
  cases s with
  | cons c s => rfl
  | nil =>
    cases t with
    | nil => rfl
    | cons c t => simp [one, headNot_cons.mp h]

theorem one_append_of_ne_nil (hs : s ≠ []) : one p (s ++ t) = one p s := by
  cases s with
  | nil => exact absurd rfl hs
  | cons c s => rfl

theorem eq_singleton_of_one (hs : s ≠ []) (h : one p (s ++ t) = s.length) :
    ∃ c, p c = true ∧ s = [c] := by
  cases s with
  | nil => exact absurd rfl hs
  | cons c s =>
    rw [List.cons_append, one] at h
    split_ifs at h with hc
    exact ⟨c, hc, by rw [List.length_eq_zero_iff.mp (Nat.succ.inj h).symm]⟩

theorem headed_append (hs : s ≠ []) (h : HeadNot later t) :
    headed first later (s ++ t) = headed first later s := by
  cases s with
  | nil => exact absurd rfl hs
  | cons c s => rw [List.cons_append, headed, headed, span_append h]

theorem literals_append [DecidableEq α] {words : List (List α)}
    (h : ∀ c ∈ t.head?, ∀ w ∈ words, c ∉ w) : literals words (s ++ t) = literals words s := by
  have hfilter : (words.filter fun w => w.isPrefixOf (s ++ t)) =
      words.filter fun w => w.isPrefixOf s := by
    refine List.filter_congr fun w hw => ?_
    rw [Bool.eq_iff_iff, List.isPrefixOf_iff_prefix, List.isPrefixOf_iff_prefix]
    refine ⟨fun hpre => ?_, fun hpre => hpre.trans (List.prefix_append s t)⟩
    rcases Nat.lt_or_ge s.length w.length with hlt | hle
    · -- a word that is longer reaches the head of the rest
      exfalso
      obtain ⟨rest, hrest⟩ := hpre
      obtain ⟨u, rfl⟩ : s <+: w :=
        List.prefix_of_prefix_length_le (List.prefix_append s t) ⟨rest, hrest⟩ hlt.le
      have hu : u ++ rest = t := by
        rw [List.append_assoc] at hrest
        exact List.append_cancel_left hrest
      cases u with
      | nil => simp at hlt
      | cons c u =>
        refine h c ?_ _ hw (by simp)
        rw [← hu]
        rfl
    · exact List.prefix_of_prefix_length_le hpre (List.prefix_append s t) hle
  rw [literals, hfilter, literals]

theorem optionally_append {len : List α → ℕ} (hs : s ≠ []) (hlen : ∀ s, len (s ++ t) = len s) :
    optionally p len (s ++ t) = optionally p len s := by
  cases s with
  | nil => exact absurd rfl hs
  | cons c s => rw [List.cons_append, optionally, optionally, hlen, ← List.cons_append, hlen]

end Matchers

/-! ### The rule that is taken -/

structure Rule (μ α τ : Type) where
  /-- How much of the input is matched; nothing is no match. -/
  len : List α → ℕ
  /-- The token of the matched text, if any, and the mode after it. -/
  action : List α → Option τ × μ

/-- The longest match, and the earliest of the longest. -/
def longest : List (Rule μ α τ) → List α → Option (Rule μ α τ)
  | [], _ => none
  | r :: rules, s =>
    match longest rules s with
    | some r' => if r'.len s ≤ r.len s then some r else some r'
    | none => if 0 < r.len s then some r else none

section Longest

variable {rules : List (Rule μ α τ)} {r : Rule μ α τ} {s s' : List α}

theorem longest_spec (h : longest rules s = some r) : r ∈ rules ∧ 0 < r.len s := by
  induction rules generalizing r with
  | nil => cases h
  | cons r' rules ih =>
    rw [longest] at h
    split at h
    · rename_i r'' hrest
      obtain ⟨hmem, hpos⟩ := ih hrest
      split_ifs at h with hle
      · obtain rfl := Option.some.inj h
        exact ⟨List.mem_cons_self, hpos.trans_le hle⟩
      · obtain rfl := Option.some.inj h
        exact ⟨List.mem_cons_of_mem _ hmem, hpos⟩
    · split_ifs at h with hpos
      obtain rfl := Option.some.inj h
      exact ⟨List.mem_cons_self, hpos⟩

/-- Which rule is taken depends only on how much each rule matches. -/
theorem longest_congr (h : ∀ r ∈ rules, r.len s = r.len s') :
    longest rules s = longest rules s' := by
  induction rules with
  | nil => rfl
  | cons r rules ih =>
    rw [List.forall_mem_cons] at h
    rw [longest, longest, ih h.2, h.1]
    cases hrest : longest rules s' with
    | none => rfl
    | some r' => simp only [h.2 r' (longest_spec hrest).1]

theorem longest_eq_none (h : longest rules s = none) : ∀ r ∈ rules, r.len s = 0 := by
  induction rules with
  | nil => nofun
  | cons r rules ih =>
    rw [longest] at h
    split at h
    · split_ifs at h
    · rename_i hrest
      split_ifs at h with hpos
      exact List.forall_mem_cons.mpr ⟨Nat.eq_zero_of_not_pos hpos, ih hrest⟩

/-- A rule is taken if it matches, and matches more than the ones before it and no less than the
ones behind it. -/
theorem longest_append_cons {before after : List (Rule μ α τ)} (hpos : 0 < r.len s)
    (hbefore : ∀ r' ∈ before, r'.len s < r.len s) (hafter : ∀ r' ∈ after, r'.len s ≤ r.len s) :
    longest (before ++ r :: after) s = some r := by
  induction before with
  | nil =>
    rw [List.nil_append, longest]
    split
    · rename_i r' hrest
      rw [if_pos (hafter r' (longest_spec hrest).1)]
    · rw [if_pos hpos]
  | cons r' before ih =>
    rw [List.forall_mem_cons] at hbefore
    rw [List.cons_append, longest, ih hbefore.2]
    simp only [not_le.mpr hbefore.1, if_false]

end Longest

/-! ### Scanning -/

/-- The tokens of one text, and then those of another one that is scanned in the mode reached. -/
def andThen (r : List τ × μ) (next : μ → List τ × μ) : List τ × μ :=
  (r.1 ++ (next r.2).1, (next r.2).2)

@[simp] theorem andThen_fst (r : List τ × μ) (next : μ → List τ × μ) :
    (andThen r next).1 = r.1 ++ (next r.2).1 := rfl

@[simp] theorem andThen_snd (r : List τ × μ) (next : μ → List τ × μ) :
    (andThen r next).2 = (next r.2).2 := rfl

theorem andThen_assoc (r : List τ × μ) (next next' : μ → List τ × μ) :
    andThen (andThen r next) next' = andThen r fun m => andThen (next m) next' := by
  simp [andThen]

/-- Scan in a mode, with some elements to go of the text that has been matched. -/
def scanFrom (rules : μ → List (Rule μ α τ)) : μ → ℕ → List α → List τ × μ
  | m, _, [] => ([], m)
  | m, k + 1, _ :: s => scanFrom rules m k s
  | m, 0, c :: s =>
    match longest (rules m) (c :: s) with
    | none => scanFrom rules m 0 s
    | some r =>
      let (t, m') := r.action ((c :: s).take (r.len (c :: s)))
      andThen (t.toList, m') fun m => scanFrom rules m (r.len (c :: s) - 1) s

def scan (rules : μ → List (Rule μ α τ)) (m : μ) (s : List α) : List τ × μ := scanFrom rules m 0 s

/-- No rule matches more than there is. -/
def Bounded (rules : μ → List (Rule μ α τ)) : Prop :=
  ∀ m, ∀ r ∈ rules m, ∀ s, r.len s ≤ s.length

/-- No rule that matches something in front of the text reaches into it. -/
def Boundary (rules : μ → List (Rule μ α τ)) (t : List α) : Prop :=
  ∀ m, ∀ r ∈ rules m, ∀ s, s ≠ [] → r.len (s ++ t) = r.len s

section Scan

variable {rules : μ → List (Rule μ α τ)} {m : μ} {r : Rule μ α τ} {c : α} {s t : List α}

theorem scanFrom_eq_drop (k : ℕ) : scanFrom rules m k s = scan rules m (s.drop k) := by
  induction s generalizing k with
  | nil => cases k <;> rfl
  | cons c s ih =>
    cases k with
    | zero => rfl
    | succ k => exact ih k

@[simp] theorem scan_nil : scan rules m [] = ([], m) := rfl

theorem scan_of_none (h : longest (rules m) (c :: s) = none) :
    scan rules m (c :: s) = scan rules m s := by
  rw [scan, scanFrom, h]
  rfl

theorem scan_of_longest (hs : s ≠ []) (h : longest (rules m) s = some r) :
    scan rules m s = andThen ((r.action (s.take (r.len s))).1.toList,
      (r.action (s.take (r.len s))).2) fun m => scan rules m (s.drop (r.len s)) := by
  cases s with
  | nil => exact absurd rfl hs
  | cons c s =>
    obtain ⟨k, hk⟩ := Nat.exists_eq_add_of_lt (longest_spec h).2
    rw [Nat.zero_add] at hk
    rw [scan, scanFrom, h]
    simp only [hk, scanFrom_eq_drop, Nat.add_sub_cancel, List.drop_succ_cons]

/-- The text that a rule takes is cut off in front. -/
theorem scan_append_of_longest (hs : s ≠ []) (h : longest (rules m) (s ++ t) = some r)
    (hlen : r.len (s ++ t) = s.length) :
    scan rules m (s ++ t) =
      andThen ((r.action s).1.toList, (r.action s).2) fun m => scan rules m t := by
  rw [scan_of_longest (by simp [hs]) h, hlen, List.take_left, List.drop_left]

/-- A rule takes the text that it matches, if the rules before it match less and those behind it
no more. -/
theorem scan_append_of_rule (before : List (Rule μ α τ)) {after : List (Rule μ α τ)} (hs : s ≠ [])
    (hrules : rules m = before ++ r :: after) (hlen : r.len (s ++ t) = s.length)
    (hbefore : ∀ r' ∈ before, r'.len (s ++ t) < s.length)
    (hafter : ∀ r' ∈ after, r'.len (s ++ t) ≤ s.length) :
    scan rules m (s ++ t) =
      andThen ((r.action s).1.toList, (r.action s).2) fun m => scan rules m t := by
  refine scan_append_of_longest hs ?_ hlen
  rw [← hlen] at hbefore hafter
  rw [hrules]
  exact longest_append_cons (hlen ▸ List.length_pos_iff.mpr hs) hbefore hafter

/-- What holds at the end of the input, and before a text that is taken or skipped if it holds
behind it, holds of every input. -/
theorem scan_induction (hbounded : Bounded rules) {motive : μ → List α → Prop}
    (nil : ∀ m, motive m [])
    (skip : ∀ m c s, longest (rules m) (c :: s) = none → motive m s → motive m (c :: s))
    (step : ∀ m s t r, s ≠ [] → longest (rules m) (s ++ t) = some r →
      r.len (s ++ t) = s.length → motive (r.action s).2 t → motive m (s ++ t))
    (m : μ) (s : List α) : motive m s := by
  induction hn : s.length using Nat.strong_induction_on generalizing m s with
  | _ n ih =>
    cases s with
    | nil => exact nil m
    | cons c s =>
      cases hlongest : longest (rules m) (c :: s) with
      | none => exact skip m c s hlongest (ih s.length (by rw [← hn]; simp) m s rfl)
      | some r =>
        obtain ⟨hmem, hpos⟩ := longest_spec hlongest
        have hle := hbounded m r hmem (c :: s)
        have hsplit := List.take_append_drop (r.len (c :: s)) (c :: s)
        have htext : ((c :: s).take (r.len (c :: s))).length = r.len (c :: s) := by
          rw [List.length_take, min_eq_left hle]
        rw [← hsplit]
        refine step m _ _ r (List.ne_nil_of_length_pos (htext.symm ▸ hpos)) ?_ ?_
          (ih _ ?_ _ _ rfl)
        · rwa [hsplit]
        · rw [hsplit, htext]
        · rw [List.length_drop, ← hn]
          exact Nat.sub_lt (by simp) hpos

theorem scan_append (hbounded : Bounded rules) (ht : Boundary rules t) (m : μ) (s : List α) :
    scan rules m (s ++ t) = andThen (scan rules m s) fun m => scan rules m t := by
  induction m, s using scan_induction hbounded with
  | nil m => simp [andThen]
  | skip m c s hnone ih =>
    have hnone' : longest (rules m) (c :: (s ++ t)) = none := by
      rw [← hnone, ← List.cons_append]
      exact longest_congr fun r hr => ht m r hr (c :: s) (List.cons_ne_nil c s)
    rw [List.cons_append, scan_of_none hnone', scan_of_none hnone, ih]
  | step m s s' r hs hlongest hlen ih =>
    have hne : s ++ s' ≠ [] := by simp [hs]
    have hlen' : r.len (s ++ (s' ++ t)) = s.length := by
      rw [← List.append_assoc, ht m r (longest_spec hlongest).1 _ hne, hlen]
    have hlongest' : longest (rules m) (s ++ (s' ++ t)) = some r := by
      rw [← hlongest, ← List.append_assoc]
      exact longest_congr fun r hr => ht m r hr _ hne
    rw [List.append_assoc, scan_append_of_longest hs hlongest' hlen',
      scan_append_of_longest hs hlongest hlen, andThen_assoc]
    unfold andThen at ih ⊢
    simp only [ih]

end Scan

end Scanner
