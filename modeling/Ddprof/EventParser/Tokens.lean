import Ddprof.Dso.Scan
import Ddprof.EventParser.Lexer

/-!
What the scanner of event strings makes of words, of numerals and of what stands around them.

Tokens go on over letters, digits, underscores and dots, and blanks over blanks. A text that
begins with anything else is a boundary for the text before it.
-/

namespace Ddprof

namespace EventParser

open Scanner

variable {t : List Char}

/-! ### Boundaries -/

variable {r : LexRule}

theorem mem_initial : r ∈ rules .initial ↔
    (∃ key ∈ keyTable, keyRule key = r) ∨ r = eqRule ∨ r = blankRule ∨ r = optSepRule ∨
      r = confSepRule ∨ r = wordRule ∨ r = charRule ∨ r = echoRule .initial := by
  simp [rules, -Prod.exists]

theorem mem_value : r ∈ rules .value ↔
    r = wordRule ∨ r = numberRule ∨ r = hexRule ∨ r = floatRule ∨ r = charRule ∨
      r = echoRule .value := by
  simp [rules]

theorem keyTable_isWordChar : ∀ key ∈ keyTable, ∀ w ∈ key.1, ∀ c ∈ w, isWordChar c = true := by
  have hall : (keyTable.all fun key => key.1.all fun w => w.all isWordChar) = true := by
    decide +kernel
  simpa only [List.all_eq_true] using hall

variable {key : List (List Char) × EventConfField}

theorem literals_key_append (ht : HeadNot isWordChar t)
    (hkey : key ∈ keyTable) (s : List Char) : literals key.1 (s ++ t) = literals key.1 s := by
  refine literals_append fun c hc w hw hmem => ?_
  have := keyTable_isWordChar key hkey w hw c hmem
  rw [ht c hc] at this
  cases this

variable {c : Char}

theorem isWordChar_of_isDigit (h : c.isDigit = true) : isWordChar c = true := by
  simp [isWordChar, Char.isAlphanum, h]

theorem hexDigitsLen_eq_zero (ht : HeadNot isWordChar t) : hexDigitsLen t = 0 := by
  cases t with
  | nil => rfl
  | cons c t =>
    have hne : c ≠ '0' := by
      rintro rfl
      exact absurd (headNot_cons.mp ht) (by decide)
    simp [hexDigitsLen, hne]

theorem hexDigitsLen_append (ht : HeadNot isWordChar t) (s : List Char) :
    hexDigitsLen (s ++ t) = hexDigitsLen s := by
  rcases s with - | ⟨c, - | ⟨d, s⟩⟩
  · exact hexDigitsLen_eq_zero ht
  · cases t with
    | nil => rfl
    | cons d t =>
      have hne : d ≠ 'x' := by
        rintro rfl
        exact absurd (headNot_cons.mp ht) (by decide)
      simp [hexDigitsLen, hne]
  · have hspan : span Char.isDigit (s ++ t) = span Char.isDigit s :=
      span_append (ht.mono fun c => isWordChar_of_isDigit)
    by_cases hcd : c = '0' ∧ d = 'x'
    · obtain ⟨rfl, rfl⟩ := hcd
      simp [hexDigitsLen, hspan]
    · have : ∀ s : List Char, hexDigitsLen (c :: d :: s) = 0 := by
        intro s
        unfold hexDigitsLen
        split
        · rename_i heq
          simp at heq
          exact absurd ⟨heq.1, heq.2.1⟩ hcd
        · rfl
      rw [List.cons_append, List.cons_append, this, this]

theorem isFloatSuffix_isWordChar (h : isFloatSuffix c = true) :
    isWordChar c = true := by
  simp only [isFloatSuffix, Bool.or_eq_true, decide_eq_true_eq] at h
  rcases h with ((rfl | rfl) | rfl) | rfl <;> decide

theorem headNot_isFloatChar (ht : HeadNot isWordChar t) (hdot : HeadNot (· = '.') t) :
    HeadNot isFloatChar t := by
  intro c hc
  have hdigit : c.isDigit = false := (ht.mono fun c => isWordChar_of_isDigit) c hc
  have hne : decide (c = '.') = false := hdot c hc
  rw [isFloatChar, hdigit, hne]
  rfl

theorem floatDigitsLen_append (ht : HeadNot isWordChar t) (hdot : HeadNot (· = '.') t)
    (s : List Char) : floatDigitsLen (s ++ t) = floatDigitsLen s := by
  have hspan : span isFloatChar (s ++ t) = span isFloatChar s :=
    span_append (headNot_isFloatChar ht hdot)
  have hsuffix : HeadNot isFloatSuffix t := ht.mono fun c => isFloatSuffix_isWordChar
  rw [floatDigitsLen, floatDigitsLen, hspan, List.drop_append_of_le_length (span_le _ s),
    one_append hsuffix]

theorem hexDigitsLen_le (s : List Char) : hexDigitsLen s ≤ s.length := by
  unfold hexDigitsLen
  split
  · rename_i s
    have := span_le Char.isDigit s
    split_ifs
    · exact Nat.zero_le _
    · simpa using this
  · exact Nat.zero_le _

theorem floatDigitsLen_le (s : List Char) : floatDigitsLen s ≤ s.length := by
  have hspan := span_le isFloatChar s
  have hone := one_le isFloatSuffix (s.drop (span isFloatChar s))
  rw [List.length_drop] at hone
  unfold floatDigitsLen
  split_ifs
  · exact Nat.zero_le _
  · omega

theorem bounded_rules : Bounded rules := by
  intro m r hr s
  cases m with
  | initial =>
    rcases mem_initial.mp hr with ⟨key, -, rfl⟩ | rfl | rfl | rfl | rfl | rfl | rfl | rfl
    · exact literals_le _ s
    · exact one_le _ s
    · exact span_le _ s
    · exact one_le _ s
    · exact one_le _ s
    · exact headed_le _ _ s
    · exact one_le _ s
    · exact one_le _ s
  | value =>
    rcases mem_value.mp hr with rfl | rfl | rfl | rfl | rfl | rfl
    · exact headed_le _ _ s
    · exact optionally_le (span_le _) s
    · exact optionally_le hexDigitsLen_le s
    · exact optionally_le floatDigitsLen_le s
    · exact one_le _ s
    · exact one_le _ s

theorem boundary_rules (ht : HeadNot isWordChar t) (hblank : HeadNot isBlank t)
    (hdot : HeadNot (· = '.') t) : Boundary rules t := by
  intro m r hr s hs
  have hone : ∀ p : Char → Bool, one p (s ++ t) = one p s := fun p => one_append_of_ne_nil hs
  cases m with
  | initial =>
    rcases mem_initial.mp hr with ⟨key, hkey, rfl⟩ | rfl | rfl | rfl | rfl | rfl | rfl | rfl
    · exact literals_key_append ht hkey s
    · exact hone _
    · exact span_append hblank
    · exact hone _
    · exact hone _
    · exact headed_append hs ht
    · exact hone _
    · exact hone _
  | value =>
    have hdigit : HeadNot Char.isDigit t := ht.mono fun c => isWordChar_of_isDigit
    rcases mem_value.mp hr with rfl | rfl | rfl | rfl | rfl | rfl
    · exact headed_append hs ht
    · exact optionally_append hs fun s => span_append hdigit
    · exact optionally_append hs (hexDigitsLen_append ht)
    · exact optionally_append hs (floatDigitsLen_append ht hdot)
    · exact hone _
    · exact hone _

theorem boundary_cons (hc : c = ';' ∨ c = '=') (t : List Char) :
    Boundary rules (c :: t) := by
  rcases hc with rfl | rfl <;>
    exact boundary_rules (headNot_cons.mpr (by decide)) (headNot_cons.mpr (by decide))
      (headNot_cons.mpr (by decide))

/-! ### Words -/

def IsWord : List Char → Prop
  | [] => False
  | c :: w => isWordStart c = true ∧ ∀ c ∈ w, isWordChar c = true

instance : ∀ w, Decidable (IsWord w)
  | [] => inferInstanceAs (Decidable False)
  | c :: w =>
    decidable_of_iff (isWordStart c = true ∧ w.all isWordChar = true) (by
      rw [List.all_eq_true]
      rfl)

def keyField (w : List Char) : Option EventConfField :=
  (keyTable.find? fun key => w ∈ key.1).map Prod.snd

def wordToken (w : List Char) : Token :=
  match keyField w with
  | some field => .key field
  | none => .word w

theorem literals_lt {words : List (List Char)} {w : List Char} (hw : w ∉ words) (hne : w ≠ []) :
    literals words w < w.length := by
  have hpos := List.length_pos_iff.mpr hne
  suffices literals words w ≤ w.length - 1 by omega
  refine literals_le_iff.mpr fun w' hw' hpre => ?_
  have hle := hpre.length_le
  have hlen : w'.length ≠ w.length := fun h => hw (hpre.eq_of_length h ▸ hw')
  omega

theorem literals_eq {words : List (List Char)} {w : List Char} (hw : w ∈ words) :
    literals words w = w.length :=
  le_antisymm (literals_le words w)
    (literals_le_iff.mp le_rfl w hw (List.prefix_refl w))

section Words

variable {w : List Char}

theorem IsWord.ne_nil (hw : IsWord w) : w ≠ [] := by
  rintro rfl
  exact hw

theorem IsWord.wordLen_append (hw : IsWord w) (ht : HeadNot isWordChar t) :
    wordLen (w ++ t) = w.length := by
  cases w with
  | nil => exact hw.elim
  | cons c w =>
    rw [wordLen, List.cons_append, headed, if_pos hw.1, span_of_forall hw.2 ht,
      List.length_cons]

theorem IsWord.one_append (hw : IsWord w) {p : Char → Bool}
    (hp : ∀ c, isWordStart c = true → p c = false) : one p (w ++ t) = 0 := by
  cases w with
  | nil => exact hw.elim
  | cons c w => simp [one, hp c hw.1]

theorem IsWord.span_append (hw : IsWord w) {p : Char → Bool}
    (hp : ∀ c, isWordStart c = true → p c = false) : span p (w ++ t) = 0 := by
  cases w with
  | nil => exact hw.elim
  | cons c w => simp [span, hp c hw.1]

theorem isWordStart_ne {c d : Char} (hc : isWordStart c = true) (hd : isWordStart d = false) :
    decide (c = d) = false := by
  rw [decide_eq_false_iff_not]
  rintro rfl
  rw [hd] at hc
  cases hc

theorem isBlank_of_isWordStart (hc : isWordStart c = true) : isBlank c = false := by
  simp only [isBlank, isWordStart_ne hc (by decide : isWordStart ' ' = false),
    isWordStart_ne hc (by decide : isWordStart '\t' = false), Bool.or_false]

theorem IsWord.separator_len (hw : IsWord w) (t : List Char) :
    ∀ r ∈ [eqRule, blankRule, optSepRule, confSepRule], r.len (w ++ t) = 0 := by
  intro r hr
  simp only [List.mem_cons, List.not_mem_nil, or_false] at hr
  rcases hr with rfl | rfl | rfl | rfl
  · exact hw.one_append fun c hc => isWordStart_ne hc (by decide)
  · exact hw.span_append fun c => isBlank_of_isWordStart
  · refine hw.one_append fun c hc => ?_
    rw [isBlank_of_isWordStart hc, isWordStart_ne hc (by decide)]
    rfl
  · exact hw.one_append fun c hc => isWordStart_ne hc (by decide)

theorem IsWord.char_len (hw : IsWord w) (t : List Char) :
    ∀ r ∈ [charRule, echoRule .initial], r.len (w ++ t) ≤ w.length := by
  intro r hr
  simp only [List.mem_cons, List.not_mem_nil, or_false] at hr
  rcases hr with rfl | rfl
  · exact (one_append_of_ne_nil hw.ne_nil).trans_le (one_le _ w)
  · exact (one_append_of_ne_nil hw.ne_nil).trans_le (one_le _ w)

/-- A word is taken by the rule of its key, if it is a key. -/
theorem scan_word (hw : IsWord w) (ht : HeadNot isWordChar t) :
    scan rules .initial (w ++ t) = andThen ([wordToken w], .initial) fun m => scan rules m t := by
  have hkeys : ∀ key ∈ keyTable, (keyRule key).len (w ++ t) = literals key.1 w :=
    fun key hkey => literals_key_append ht hkey w
  have hpos : 0 < w.length := List.length_pos_iff.mpr hw.ne_nil
  have hword : wordRule.len (w ++ t) = w.length := hw.wordLen_append ht
  cases hfind : keyTable.find? fun key => w ∈ key.1 with
  | some key =>
    obtain ⟨hmem, before, after, htable, hbefore⟩ := List.find?_eq_some_iff_append.mp hfind
    have hrules : rules .initial = before.map keyRule ++ keyRule key :: (after.map keyRule ++
        ([eqRule, blankRule, optSepRule, confSepRule] ++
          wordRule :: [charRule, echoRule .initial])) := by
      rw [rules, htable, List.map_append, List.append_assoc]
      rfl
    have haction : wordToken w = .key key.2 := by simp [wordToken, keyField, hfind]
    rw [haction]
    refine scan_append_of_rule _ hw.ne_nil hrules ?_ ?_ ?_
    · rw [hkeys key (by simp [htable]), literals_eq (by simpa using hmem)]
    · rw [List.forall_mem_map]
      intro key' hkey'
      rw [hkeys key' (by simp [htable, hkey'])]
      exact literals_lt (by simpa using hbefore key' hkey') hw.ne_nil
    · rw [List.forall_mem_append, List.forall_mem_map, List.forall_mem_append]
      refine ⟨fun key' hkey' => ?_, fun r hr => ?_,
        List.forall_mem_cons.mpr ⟨hword.le, hw.char_len t⟩⟩
      · rw [hkeys key' (by simp [htable, hkey'])]
        exact literals_le _ w
      · rw [hw.separator_len t r hr]
        exact hpos.le
  | none =>
    have hrules : rules .initial = (keyTable.map keyRule ++
        [eqRule, blankRule, optSepRule, confSepRule]) ++
          wordRule :: [charRule, echoRule .initial] := by
      rw [List.append_assoc]
      rfl
    have haction : wordToken w = .word w := by simp [wordToken, keyField, hfind]
    rw [haction]
    refine scan_append_of_rule _ hw.ne_nil hrules hword ?_ (hw.char_len t)
    rw [List.forall_mem_append, List.forall_mem_map]
    refine ⟨fun key hkey => ?_, fun r hr => ?_⟩
    · rw [hkeys key hkey]
      exact literals_lt (by simpa using List.find?_eq_none.mp hfind key hkey) hw.ne_nil
    · rw [hw.separator_len t r hr]
      exact hpos

end Words

/-! ### Separators -/

theorem literals_key_eq_zero (ht : HeadNot isWordChar t)
    (hkey : key ∈ keyTable) : (keyRule key).len t = 0 := by
  have h := literals_key_append ht hkey []
  rw [List.nil_append] at h
  have hle := literals_le key.1 []
  exact Nat.eq_zero_of_le_zero (h.trans_le hle)

/-- A character that is in no word is left to the rules behind those of the keys. -/
theorem scan_initial (before : List LexRule) {after : List LexRule}
    (hrules : rules .initial = keyTable.map keyRule ++ (before ++ r :: after))
    (hc : isWordChar c = false) (hlen : r.len (c :: t) = 1)
    (hbefore : ∀ r' ∈ before, r'.len (c :: t) = 0) (hafter : ∀ r' ∈ after, r'.len (c :: t) ≤ 1) :
    scan rules .initial (c :: t) =
      andThen ((r.action [c]).1.toList, (r.action [c]).2) fun m => scan rules m t := by
  rw [← List.append_assoc] at hrules
  refine scan_append_of_rule _ (s := [c]) (List.cons_ne_nil _ _) hrules hlen
    (List.forall_mem_append.mpr ⟨?_, fun r' hr' => (hbefore r' hr').trans_lt Nat.one_pos⟩) hafter
  rw [List.forall_mem_map]
  intro key hkey
  exact (literals_key_eq_zero (headNot_cons.mpr hc) hkey).trans_lt Nat.one_pos

theorem scan_eq (t : List Char) :
    scan rules .initial ('=' :: t) = andThen ([.eq], .value) fun m => scan rules m t := by
  refine scan_initial [] rfl (by decide) rfl nofun ?_
  simp [blankRule, optSepRule, confSepRule, wordRule, charRule, echoRule, span, one, isBlank,
    wordLen, headed, isWordStart, anyLen]

theorem scan_confSep (t : List Char) :
    scan rules .initial (';' :: t) = andThen ([.confSep], .initial) fun m => scan rules m t := by
  refine scan_initial [eqRule, blankRule, optSepRule] rfl (by decide) rfl ?_ ?_
  · simp [eqRule, blankRule, optSepRule, span, one, isBlank]
  · simp [wordRule, charRule, echoRule, one, wordLen, headed, isWordStart, anyLen]

theorem scan_blank (ht : HeadNot isBlank t) :
    scan rules .initial (' ' :: t) = scan rules .initial t := by
  refine scan_initial [eqRule] rfl (by decide) (r := blankRule)
    (span_of_forall (s := [' ']) (by simp [isBlank]) ht) ?_ ?_
  · simp [eqRule, one]
  · simp [optSepRule, confSepRule, wordRule, charRule, echoRule, one, isBlank, wordLen, headed,
      isWordStart, anyLen]

/-- The characters that are in no pattern but the last one. -/
def isOther (c : Char) : Bool :=
  !isWordChar c && !isSign c && !isBlank c && c ∉ ['=', ',', ';', '.', '\n']

theorem scan_other (hc : isOther c = true) (m : LexMode) (t : List Char) :
    scan rules m (c :: t) = andThen ([.char c], .initial) fun m => scan rules m t := by
  simp only [isOther, Bool.and_eq_true, Bool.not_eq_true', decide_eq_true_eq, List.mem_cons,
    List.not_mem_nil, or_false, not_or] at hc
  obtain ⟨⟨⟨hword, hsign⟩, hblank⟩, heq, hcomma, hsemi, hdot, hline⟩ := hc
  have hstart : isWordStart c = false := by
    rw [isWordChar, Char.isAlphanum, Bool.or_eq_false_iff, Bool.or_eq_false_iff] at hword
    rw [isWordStart, hword.1.1, hword.2]
    rfl
  have hdigit : c.isDigit = false := by
    rw [isWordChar, Char.isAlphanum, Bool.or_eq_false_iff, Bool.or_eq_false_iff] at hword
    exact hword.1.2
  have hlen : charRule.len (c :: t) = 1 := by simp [charRule, anyLen, one, hline]
  cases m with
  | initial =>
    refine scan_initial [eqRule, blankRule, optSepRule, confSepRule, wordRule] rfl hword hlen ?_ ?_
    · simp [eqRule, blankRule, optSepRule, confSepRule, wordRule, wordLen, headed, span, one, heq,
        hblank, hcomma, hsemi, hstart]
    · simp [echoRule, one, hline]
  | value =>
    have hhex : hexDigitsLen (c :: t) = 0 := hexDigitsLen_eq_zero (headNot_cons.mpr hword)
    refine scan_append_of_rule [wordRule, numberRule, hexRule, floatRule] (s := [c])
      (List.cons_ne_nil _ _) rfl hlen ?_ ?_
    · simp [wordRule, wordLen, headed, hstart, numberRule, numberLen, optionally, hsign, span,
        hdigit, hexRule, hexLen, hhex, floatRule, floatLen, floatDigitsLen, isFloatChar, hdot]
    · simp [echoRule, one, hline]

theorem boundary_other (hc : isOther c = true) (t : List Char) :
    Boundary rules (c :: t) := by
  simp only [isOther, Bool.and_eq_true, Bool.not_eq_true', decide_eq_true_eq, List.mem_cons,
    List.not_mem_nil, or_false, not_or] at hc
  obtain ⟨⟨⟨hword, -⟩, hblank⟩, -, -, -, hdot, -⟩ := hc
  exact boundary_rules (headNot_cons.mpr hword) (headNot_cons.mpr hblank)
    (headNot_cons.mpr (decide_eq_false hdot))

theorem lex_word_key {w key : List Char} (hw : IsWord w) (hkey : IsWord key) (t : List Char) :
    lex (w ++ ' ' :: (key ++ '=' :: t)) =
      wordToken w :: wordToken key :: .eq :: (scan rules .value t).1 := by
  have hblank : HeadNot isBlank (key ++ '=' :: t) := by
    cases key with
    | nil => exact hkey.elim
    | cons c key => exact headNot_cons.mpr (isBlank_of_isWordStart hkey.1)
  rw [lex, scan_word hw (headNot_cons.mpr (by decide)), andThen_fst, scan_blank hblank,
    scan_word hkey (headNot_cons.mpr (by decide)), andThen_fst, scan_eq]
  rfl

/-! ### The mode in which a text ends -/

theorem longest_ne_none (m : LexMode) (c : Char) (s : List Char) :
    longest (rules m) (c :: s) ≠ none := by
  intro h
  have hzero := longest_eq_none h
  have hchar : one (· ≠ '\n') (c :: s) = 0 := hzero charRule (by cases m <;> simp [rules])
  have hecho : one (· = '\n') (c :: s) = 0 := hzero (echoRule m) (by cases m <;> simp [rules])
  by_cases hc : c = '\n'
  · simp [one, hc] at hecho
  · simp [one, hc] at hchar

/-- Every text is taken by some rule, so that it is enough to look at what the rules take. -/
theorem lex_induction {motive : LexMode → List Char → Prop} (nil : ∀ m, motive m [])
    (step : ∀ m s t r, s ≠ [] → r ∈ rules m → r.len (s ++ t) = s.length →
      scan rules m (s ++ t) =
        andThen ((r.action s).1.toList, (r.action s).2) (fun m => scan rules m t) →
      motive (r.action s).2 t → motive m (s ++ t)) (m : LexMode) (s : List Char) :
    motive m s := by
  induction m, s using scan_induction bounded_rules with
  | nil m => exact nil m
  | skip m c s hnone ih => exact absurd hnone (longest_ne_none m c s)
  | step m s t r hs hlongest hlen ih =>
    exact step m s t r hs (longest_spec hlongest).1 hlen
      (scan_append_of_longest hs hlongest hlen) ih

variable {m : LexMode} {s : List Char}

/-- Only an equals sign enters the mode of values, and only a line end keeps it. -/
theorem action_eq_value (hr : r ∈ rules m)
    (hs : s ≠ []) (hlen : r.len (s ++ t) = s.length) (h : (r.action s).2 = .value) :
    (r = eqRule ∧ s = ['=']) ∨ (m = .value ∧ r = echoRule .value ∧ s = ['\n']) := by
  cases m with
  | initial =>
    rcases mem_initial.mp hr with ⟨key, -, rfl⟩ | rfl | rfl | rfl | rfl | rfl | rfl | rfl
    case inr.inl =>
      obtain ⟨c, hc, rfl⟩ := eq_singleton_of_one hs hlen
      exact .inl ⟨rfl, by rw [of_decide_eq_true hc]⟩
    all_goals cases h
  | value =>
    rcases mem_value.mp hr with rfl | rfl | rfl | rfl | rfl | rfl
    case inr.inr.inr.inr.inr =>
      obtain ⟨c, hc, rfl⟩ := eq_singleton_of_one hs hlen
      exact .inr ⟨rfl, rfl, by rw [of_decide_eq_true hc]⟩
    all_goals cases h

/-- Where a text ends inside of a value, its last token is an equals sign. -/
theorem scan_getLast_eq (h : (scan rules m s).2 = .value) :
    (m = .value ∧ (scan rules m s).1 = []) ∨ (scan rules m s).1.getLast? = some .eq := by
  induction m, s using lex_induction with
  | nil m => exact .inl ⟨h, rfl⟩
  | step m s t r hne hr hlen hscan ih =>
    rw [hscan, andThen_snd] at h
    rw [hscan, andThen_fst]
    rcases ih h with ⟨haction, hnil⟩ | hlast
    · simp only [hnil, List.append_nil]
      rcases action_eq_value hr hne hlen haction with ⟨rfl, rfl⟩ | ⟨hm, rfl, rfl⟩
      · exact .inr rfl
      · exact .inl ⟨hm, rfl⟩
    · right
      rw [List.getLast?_append, hlast]
      rfl

theorem mem_of_char_mem (h : Token.char c ∈ (scan rules m s).1) : c ∈ s := by
  induction m, s using lex_induction with
  | nil m => cases h
  | step m s t r hne hr hlen hscan ih =>
    rw [hscan, andThen_fst, List.mem_append] at h
    rcases h with h | h
    · refine List.mem_append_left t ?_
      rw [Option.mem_toList] at h
      have hr : r = charRule := by
        cases m with
        | initial =>
          rcases mem_initial.mp hr with ⟨key, -, rfl⟩ | rfl | rfl | rfl | rfl | rfl | rfl | rfl
          case inr.inr.inr.inr.inr.inr.inl => rfl
          all_goals cases h
        | value =>
          rcases mem_value.mp hr with rfl | rfl | rfl | rfl | rfl | rfl
          case inr.inr.inr.inr.inl => rfl
          all_goals cases h
      subst hr
      obtain ⟨d, hd, hchar⟩ := Option.map_eq_some_iff.mp h
      obtain rfl := Token.char.inj hchar
      exact List.mem_of_mem_head? hd
    · exact List.mem_append_right s (ih h)

/-! ### Values -/

section Values

variable {ds : List Char}

theorem isSign_of_isDigit (hc : c.isDigit = true) : isSign c = false := by
  simp only [isSign, Bool.or_eq_false_iff, decide_eq_false_iff_not]
  constructor <;> rintro rfl <;> cases hc

theorem isAlpha_iff : c.isAlpha = true ↔
    (65 ≤ c.toNat ∧ c.toNat ≤ 90) ∨ (97 ≤ c.toNat ∧ c.toNat ≤ 122) := by
  change (decide ('A'.val ≤ c.val ∧ c.val ≤ 'Z'.val) ||
    (decide ('a'.val ≤ c.val) && decide (c.val ≤ 'z'.val))) = true ↔ _
  simp only [Bool.or_eq_true, Bool.and_eq_true, decide_eq_true_eq]
  rfl

theorem isWordStart_of_isDigit (hc : c.isDigit = true) : isWordStart c = false := by
  rw [isWordStart, Bool.or_eq_false_iff, decide_eq_false_iff_not, ← Bool.not_eq_true, isAlpha_iff]
  rw [Scan.isDigit_iff] at hc
  refine ⟨by omega, ?_⟩
  rintro rfl
  exact absurd hc.2 (by decide)

theorem optionally_sign {sign body : List Char} {len : List Char → ℕ}
    (hsign : sign = [] ∨ sign = ['-']) (hbody : HeadNot isSign body) :
    optionally isSign len (sign ++ body) =
      if len body = 0 then 0 else sign.length + len body := by
  rcases hsign with rfl | rfl
  · cases body with
    | nil => simp +contextual [optionally]
    | cons c body => simp +contextual [optionally, headNot_cons.mp hbody]
  · simp [optionally, isSign, Nat.add_comm]

theorem headNot_of_forall {p q : Char → Bool} (hs : ∀ c ∈ s, p c = true)
    (hne : s ≠ []) (hpq : ∀ c, p c = true → q c = false) : HeadNot q (s ++ t) := by
  cases s with
  | nil => exact absurd rfl hne
  | cons c s => exact headNot_cons.mpr (hpq c (hs c List.mem_cons_self))

/-- The characters that a numeral could go on with. -/
def isNumeralChar (c : Char) : Bool := Scan.isDigitOf 16 c || c = '.' || c = 'x'

theorem isNumeralChar_of_isDigit (hc : c.isDigit = true) : isNumeralChar c = true := by
  rw [← Scan.isDigitOf_ten] at hc
  rw [isNumeralChar, Scan.isDigitOf_mono (by decide) hc]
  rfl

theorem isNumeralChar_of_isFloatSuffix (hc : isFloatSuffix c = true) :
    isNumeralChar c = true := by
  simp only [isFloatSuffix, Bool.or_eq_true, decide_eq_true_eq] at hc
  rcases hc with ((rfl | rfl) | rfl) | rfl <;> decide

theorem isNumeralChar_of_isFloatChar (hc : isFloatChar c = true) :
    isNumeralChar c = true := by
  rw [isFloatChar, Bool.or_eq_true] at hc
  rcases hc with hc | hc
  · exact isNumeralChar_of_isDigit hc
  · rw [of_decide_eq_true hc]
    rfl

theorem hexDigitsLen_of_isDigit (hds : ∀ c ∈ ds, c.isDigit = true) (hne : ds ≠ [])
    (ht : HeadNot isNumeralChar t) : hexDigitsLen (ds ++ t) = 0 := by
  unfold hexDigitsLen
  split
  · rename_i heq
    exfalso
    rcases ds with - | ⟨c, - | ⟨d, ds⟩⟩
    · exact hne rfl
    · obtain ⟨-, rfl⟩ := List.cons.inj heq
      exact absurd (headNot_cons.mp ht) (by decide)
    · obtain ⟨rfl, -⟩ := List.cons.inj (List.cons.inj heq).2
      exact absurd (hds 'x' (by simp)) (by decide)
  · rfl

theorem floatDigitsLen_of_isDigit (hds : ∀ c ∈ ds, c.isDigit = true) (hne : ds ≠ [])
    (ht : HeadNot isNumeralChar t) : floatDigitsLen (ds ++ t) = ds.length := by
  have hspan : span isFloatChar (ds ++ t) = ds.length :=
    span_of_forall (fun c hc => by simp [isFloatChar, hds c hc])
      (ht.mono fun c => isNumeralChar_of_isFloatChar)
  have hsuffix : one isFloatSuffix t = 0 := by
    have := one_append (s := []) (ht.mono fun c => isNumeralChar_of_isFloatSuffix)
    rw [List.nil_append] at this
    exact this
  rw [floatDigitsLen, hspan, if_neg (List.length_pos_iff.mpr hne).ne', List.drop_left, hsuffix,
    Nat.add_zero]

/-- A decimal numeral is a number, if nothing behind it could belong to it. -/
theorem scan_number {sign : List Char} (hsign : sign = [] ∨ sign = ['-'])
    (hds : ∀ c ∈ ds, c.isDigit = true) (hne : ds ≠ []) (ht : HeadNot isNumeralChar t) :
    scan rules .value (sign ++ ds ++ t) =
      andThen ([.number (strtol 10 (sign ++ ds))], .initial) fun m => scan rules m t := by
  have hpos : 0 < ds.length := List.length_pos_iff.mpr hne
  have htext : 0 < (sign ++ ds).length := by
    rw [List.length_append]
    omega
  have hbody : HeadNot isSign (ds ++ t) := headNot_of_forall hds hne fun c => isSign_of_isDigit
  have hspan : span Char.isDigit (ds ++ t) = ds.length :=
    span_of_forall hds (ht.mono fun c => isNumeralChar_of_isDigit)
  have hlen : ∀ {len : List Char → ℕ}, len (ds ++ t) = ds.length →
      optionally isSign len (sign ++ ds ++ t) = (sign ++ ds).length := by
    intro len h
    rw [List.append_assoc, optionally_sign hsign hbody, h, if_neg hpos.ne', List.length_append]
  have hhex : hexRule.len (sign ++ ds ++ t) = 0 := by
    rw [List.append_assoc]
    exact (optionally_sign hsign hbody).trans (if_pos (hexDigitsLen_of_isDigit hds hne ht))
  have hword : wordRule.len (sign ++ ds ++ t) = 0 := by
    rcases hsign with rfl | rfl
    · cases ds with
      | nil => exact absurd rfl hne
      | cons c ds =>
        simp [wordRule, wordLen, headed, isWordStart_of_isDigit (hds c List.mem_cons_self)]
    · simp [wordRule, wordLen, headed, isWordStart]
  have hone : ∀ p, one p (sign ++ ds ++ t) ≤ (sign ++ ds).length := fun p =>
    (one_append_of_ne_nil (List.length_pos_iff.mp htext)).trans_le (one_le p _)
  refine scan_append_of_rule [wordRule] (r := numberRule) (List.length_pos_iff.mp htext) rfl
    (hlen hspan) ?_ ?_
  · exact List.forall_mem_singleton.mpr (hword.trans_lt htext)
  · simp only [List.forall_mem_cons]
    exact ⟨hhex.trans_le htext.le, (hlen (floatDigitsLen_of_isDigit hds hne ht)).le, hone _,
      hone _, List.forall_mem_nil _⟩

/-! ### Decimal values -/

theorem strtol_of_isDigit (hds : ∀ c ∈ ds, c.isDigit = true) :
    strtol 10 ds = toLong (Scan.digitsValue 10 ds) ∧
      strtol 10 ('-' :: ds) = toLong (-Scan.digitsValue 10 ds) := by
  have hdigits : ∀ c ∈ ds, Scan.isDigitOf 10 c = true := fun c hc => by
    rw [Scan.isDigitOf_ten]
    exact hds c hc
  have htake : ds.takeWhile (Scan.isDigitOf 10) = ds := List.takeWhile_eq_self_iff.mpr hdigits
  have hsign : Scan.sign ds = (false, ds) := by
    cases ds with
    | nil => rfl
    | cons c ds => exact Scan.sign_of_isDigitOf (hdigits c List.mem_cons_self) ds
  have hneg : Scan.sign ('-' :: ds) = (true, ds) := rfl
  constructor
  · simp [strtol, hsign, htake]
  · simp [strtol, hneg, htake]

theorem isDigit_of_mem_toDigits {n : ℕ} (hc : c ∈ Nat.toDigits 10 n) :
    c.isDigit = true :=
  Nat.isDigit_of_mem_toDigits (by decide) (by decide) hc

/-- A decimal numeral is the number it was printed from, as far as a `long` goes. -/
theorem strtol_decimal (n : ℤ) : strtol 10 (Numerals.decimal n) = toLong n := by
  obtain ⟨hpos, hneg⟩ := strtol_of_isDigit fun c => isDigit_of_mem_toDigits (n := n.natAbs)
  rw [Scan.digitsValue_toDigits (by decide) (by decide)] at hpos hneg
  rw [Numerals.decimal]
  split_ifs with h
  · rw [hneg]
    congr 1
    omega
  · rw [hpos]
    congr 1
    omega

theorem scan_decimal (n : ℤ) (ht : HeadNot isNumeralChar t) :
    scan rules .value (Numerals.decimal n ++ t) =
      andThen ([.number (toLong n)], .initial) fun m => scan rules m t := by
  have hdigits : ∀ c ∈ Nat.toDigits 10 n.natAbs, c.isDigit = true := fun c =>
    isDigit_of_mem_toDigits
  have hdecimal : ∃ sign, (sign = [] ∨ sign = ['-']) ∧
      Numerals.decimal n = sign ++ Nat.toDigits 10 n.natAbs := by
    rw [Numerals.decimal]
    split_ifs
    · exact ⟨['-'], .inr rfl, rfl⟩
    · exact ⟨[], .inl rfl, rfl⟩
  obtain ⟨sign, hsign, heq⟩ := hdecimal
  rw [← strtol_decimal, heq, scan_number hsign hdigits Nat.toDigits_ne_nil ht]

end Values

end EventParser

end Ddprof
