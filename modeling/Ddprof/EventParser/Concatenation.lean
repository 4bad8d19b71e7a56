import Ddprof.EventParser.Parser
import Ddprof.EventParser.Tokens
import Ddprof.Lib.Run

/-!
Two strings of configurations with a separator between them.

At a separator the parser does what it does at the end of the input, and is then where it starts,
with the configurations that it has added so far. What it has added is never read again. So the
configurations of the second string follow those of the first one, unless the first one already
ended the input: with a signed `char`, a byte above 127 does.
-/

namespace Ddprof

namespace EventParser

open Scanner

variable {arch : Arch} {s s' : ParserState} {token : Token} {tokens : List Token}

namespace ParserState

/-! ### Configurations that have been added before -/

/-- The state with other configurations in front. -/
def after (added : List ScaledConf) (s : ParserState) : ParserState :=
  { s with configs := added ++ s.configs }

/-- The same, whether the parser goes on or gives up. -/
def resultAfter (added : List ScaledConf) : ParserResult → ParserResult
  | .ok s => .ok (s.after added)
  | .error s => .error (s.after added)

variable (added : List ScaledConf)

theorem confFinalize_after (s : ParserState) :
    (s.after added).confFinalize = s.confFinalize.after added := by
  simp [confFinalize, after]

theorem option_after (s : ParserState) (r : Except ScaledConf ScaledConf) :
    (s.after added).option r = resultAfter added (s.option r) := by
  cases r <;> rfl

theorem startOption_after (s : ParserState) (token : Token) :
    (s.after added).startOption token = resultAfter added (s.startOption token) := by
  cases token <;> rfl

theorem afterOption_after (s : ParserState) (token : Token) :
    (s.after added).afterOption token = resultAfter added (s.afterOption token) := by
  cases token with
  | confSep => exact congrArg Except.ok (confFinalize_after added s)
  | word | key | optSep => rfl
  | _ => exact congrArg Except.error (confFinalize_after added s)

theorem resultAfter_bind (r : ParserResult) {f g : ParserState → ParserResult}
    (h : ∀ s, g (s.after added) = resultAfter added (f s)) :
    (resultAfter added r).bind g = resultAfter added (r.bind f) := by
  cases r with
  | error s => rfl
  | ok s => exact h s

theorem afterWord_after (s : ParserState) (field : EventConfField) (w : List Char)
    (token : Token) :
    (s.after added).afterWord field w token = resultAfter added (s.afterWord field w token) := by
  unfold afterWord
  split_ifs
  · rfl
  · rw [option_after]
    exact resultAfter_bind added _ fun s => afterOption_after added s token

theorem step_after (s : ParserState) (token : Token) :
    (s.after added).step arch token = resultAfter added (s.step arch token) := by
  have hphase : (s.after added).phase = s.phase := rfl
  unfold step
  rw [hphase]
  cases s.phase with
  | confs => cases token <;> rfl
  | conf => exact afterOption_after added s token
  | optSep => exact startOption_after added s token
  | key field => cases token <;> rfl
  | eq field =>
    cases token with
    | number n => exact option_after added s _
    | hexNumber n => exact option_after added s _
    | float text => exact option_after added s _
    | _ => rfl
  | word field w => exact afterWord_after added s field w token
  | colon field w => cases token <;> rfl

theorem finish_after (s : ParserState) :
    (s.after added).finish = resultAfter added s.finish := by
  have hphase : (s.after added).phase = s.phase := rfl
  unfold finish
  rw [hphase]
  cases s.phase with
  | conf => exact congrArg Except.ok (confFinalize_after added s)
  | word field w =>
    show Except.map _ ((s.after added).option (setWord field w s.accum)) =
      resultAfter added (Except.map _ (s.option (setWord field w s.accum)))
    rw [option_after]
    cases s.option (setWord field w s.accum) with
    | error s => rfl
    | ok s => exact congrArg Except.ok (confFinalize_after added s)
  | _ => rfl

end ParserState

/-- What has been added before stays in front, and changes nothing else. -/
theorem parse_after (added : List ScaledConf) (s : ParserState) (tokens : List Token) :
    parse arch (s.after added) tokens = ParserState.resultAfter added (parse arch s tokens) := by
  induction tokens generalizing s with
  | nil => exact ParserState.finish_after added s
  | cons token tokens ih =>
    rw [parse, parse]
    split_ifs
    · exact ParserState.finish_after added s
    · rw [ParserState.step_after]
      exact ParserState.resultAfter_bind added _ ih

/-! ### Separators -/

/-- A separator is treated like the end of the input. -/
theorem step_confSep (s : ParserState) : s.step arch .confSep = s.finish := by
  unfold ParserState.step ParserState.finish
  cases s.phase with
  | word field w =>
    show Except.bind (s.option _) _ = Except.map _ (s.option _)
    cases s.option _ <;> rfl
  | _ => rfl

theorem parse_append_confSep (htokens : ∀ token ∈ tokens, endsInput arch token = false)
    (s : ParserState) (tokens' : List Token) :
    parse arch s (tokens ++ .confSep :: tokens') =
      (parse arch s tokens).bind fun s => parse arch s tokens' := by
  induction tokens generalizing s with
  | nil =>
    rw [List.nil_append, parse, parse, step_confSep]
    rfl
  | cons token tokens ih =>
    rw [List.forall_mem_cons] at htokens
    rw [List.cons_append, parse, parse, htokens.1]
    simp only [Bool.false_eq_true, if_false]
    cases s.step arch token with
    | error s => rfl
    | ok s => exact ih htokens.2 s

theorem parse_append_of_endsInput (htoken : endsInput arch token = true) (s : ParserState)
    (tokens rest : List Token) :
    parse arch s (tokens ++ token :: rest) = parse arch s (tokens ++ [token]) := by
  induction tokens generalizing s with
  | nil => simp [parse, htoken]
  | cons token' tokens ih =>
    rw [List.cons_append, List.cons_append, parse, parse]
    split_ifs
    · rfl
    · exact congrArg _ (funext fun s => ih s)

/-! ### Between configurations -/

/-- Where a token can take the parser: it stays between configurations, it goes on inside of one,
or it has finished one. -/
inductive Advance (s : ParserState) : ParserState → Prop
  | stays (hphase : s.phase = .confs) : Advance s s
  | inside (phase : Phase) (hphase : phase ≠ .confs) (conf : ScaledConf) :
      Advance s { s with phase := phase, accum := conf }
  | finished (conf : ScaledConf) : Advance s ({ s with accum := conf } : ParserState).confFinalize

theorem Advance.of_ok {s₁ : ParserState} (h : Advance s s₁)
    (hs : (.ok s₁ : ParserResult) = .ok s') : Advance s s' :=
  Except.ok.inj hs ▸ h

theorem option_advance {r : Except ScaledConf ScaledConf} (hs : s.option r = .ok s') :
    ∃ conf, s' = { s with phase := .conf, accum := conf } := by
  cases r with
  | error conf => cases hs
  | ok conf => exact ⟨conf, (Except.ok.inj hs).symm⟩

theorem startOption_advance (token : Token) (hs : s.startOption token = .ok s') :
    Advance s s' := by
  cases token with
  | word w => exact .of_ok (.inside .conf nofun _) hs
  | key field => exact .of_ok (.inside (.key field) nofun s.accum) hs
  | _ => cases hs

theorem afterOption_advance (hs : s.afterOption token = .ok s') : Advance s s' := by
  cases token with
  | word w => exact startOption_advance (.word w) hs
  | key field => exact startOption_advance (.key field) hs
  | optSep => exact .of_ok (.inside .optSep nofun s.accum) hs
  | confSep => exact .of_ok (.finished s.accum) hs
  | _ => cases hs

theorem afterWord_advance {field : EventConfField} {w : List Char}
    (hs : s.afterWord field w token = .ok s') : Advance s s' := by
  unfold ParserState.afterWord at hs
  split_ifs at hs
  · exact .of_ok (.inside (.colon field w) nofun s.accum) hs
  · obtain ⟨s₁, hs₁, hs⟩ := Run.exists_of_bind_eq_ok hs
    obtain ⟨conf, rfl⟩ := option_advance hs₁
    cases afterOption_advance hs with
    | stays hconf => cases hconf
    | inside phase hphase conf' => exact .inside phase hphase conf'
    | finished conf' => exact .finished conf'

theorem step_advance (hs : s.step arch token = .ok s') : Advance s s' := by
  unfold ParserState.step at hs
  generalize hphase : s.phase = phase at hs
  cases phase with
  | confs =>
    cases token with
    | confSep => exact .of_ok (.stays hphase) hs
    | word w => exact startOption_advance (.word w) hs
    | key field => exact startOption_advance (.key field) hs
    | _ => cases hs
  | conf => exact afterOption_advance hs
  | optSep => exact startOption_advance token hs
  | key field =>
    cases token with
    | eq => exact .of_ok (.inside (.eq field) nofun s.accum) hs
    | _ => cases hs
  | eq field =>
    cases token with
    | word w => exact .of_ok (.inside (.word field w) nofun s.accum) hs
    | number | hexNumber | float =>
      obtain ⟨conf, rfl⟩ := option_advance hs
      exact .inside .conf nofun conf
    | _ => cases hs
  | word field w => exact afterWord_advance hs
  | colon field w =>
    cases token with
    | word w' => exact .of_ok (.inside .conf nofun _) hs
    | _ => cases hs

/-- Between configurations the one that is being read is the template. -/
structure Fresh (template : ScaledConf) (s : ParserState) : Prop where
  template_eq : s.template = template
  accum_eq : s.phase = .confs → s.accum = template

section Fresh

variable {template : ScaledConf}

theorem fresh_initialState (template : ScaledConf) (configs : List ScaledConf) :
    Fresh template (initialState template configs) :=
  ⟨rfl, fun _ => rfl⟩

theorem Fresh.step (h : Fresh template s) (hs : s.step arch token = .ok s') :
    Fresh template s' := by
  cases step_advance hs with
  | stays hphase => exact h
  | inside phase hphase conf => exact ⟨h.template_eq, fun heq => absurd heq hphase⟩
  | finished conf => exact ⟨h.template_eq, fun _ => h.template_eq⟩

/-- The end of the input leaves the parser where it starts. -/
theorem Fresh.finish (h : Fresh template s) (hs : s.finish = .ok s') :
    s' = initialState template s'.configs := by
  have hfinalized : ∀ conf, ({ s with accum := conf } : ParserState).confFinalize =
      initialState template (s.configs ++ [finalized conf]) := by
    intro conf
    simp [ParserState.confFinalize, initialState, h.template_eq]
  unfold ParserState.finish at hs
  generalize hphase : s.phase = phase at hs
  cases phase with
  | confs =>
    obtain rfl := Except.ok.inj hs
    exact ParserState.ext hphase (h.accum_eq hphase) h.template_eq rfl
  | conf =>
    obtain rfl := Except.ok.inj hs
    exact hfinalized s.accum
  | word field w =>
    obtain ⟨s₁, hs₁, rfl⟩ := Run.exists_of_map_eq_ok hs
    obtain ⟨conf, rfl⟩ := option_advance hs₁
    exact hfinalized conf
  | _ => cases hs

theorem Fresh.parse (h : Fresh template s) (hs : parse arch s tokens = .ok s') :
    s' = initialState template s'.configs := by
  induction tokens generalizing s with
  | nil => exact h.finish hs
  | cons token tokens ih =>
    rw [EventParser.parse] at hs
    split_ifs at hs
    · exact h.finish hs
    · obtain ⟨s₁, hs₁, hs⟩ := Run.exists_of_bind_eq_ok hs
      exact ih (h.step hs₁) hs

end Fresh

/-! ### Strings that end inside of a value -/

theorem step_eq_phase (hs : s.step arch .eq = .ok s') : ∃ field, s'.phase = .eq field := by
  unfold ParserState.step at hs
  generalize s.phase = phase at hs
  cases phase with
  | key field => exact ⟨field, congrArg ParserState.phase (Except.ok.inj hs).symm⟩
  | word field w =>
    obtain ⟨s₁, -, hs⟩ := Run.exists_of_bind_eq_ok hs
    cases hs
  | _ => cases hs

theorem parse_append_eq (htokens : ∀ token ∈ tokens, endsInput arch token = false) :
    parse arch s (tokens ++ [.eq]) ≠ .ok s' := by
  intro hs
  induction tokens generalizing s with
  | nil =>
    obtain ⟨s₁, hs₁, hs⟩ := Run.exists_of_bind_eq_ok hs
    obtain ⟨field, hphase⟩ := step_eq_phase hs₁
    simp [parse, ParserState.finish, hphase] at hs
  | cons token tokens ih =>
    rw [List.forall_mem_cons] at htokens
    rw [List.cons_append, parse, htokens.1] at hs
    obtain ⟨s₁, -, hs⟩ := Run.exists_of_bind_eq_ok hs
    exact ih htokens.2 hs

/-! ### Strings -/

variable {a : List Char}

theorem lex_append_confSep (ha : (scan rules .initial a).2 = .initial)
    (b : List Char) : lex (a ++ ';' :: b) = lex a ++ .confSep :: lex b := by
  rw [lex, scan_append bounded_rules (boundary_cons (.inl rfl) b), andThen_fst, ha, scan_confSep]
  rfl

theorem isWordChar_lt {c : Char} (hc : isWordChar c = true) : 0 < c.toNat ∧ c.toNat < 128 := by
  rw [isWordChar, Char.isAlphanum, Bool.or_eq_true, Bool.or_eq_true, decide_eq_true_eq,
    isAlpha_iff, Scan.isDigit_iff] at hc
  rcases hc with hc | rfl
  · omega
  · decide

theorem isOther_of_endsInput {c : Char} (hc : arch.endsInput c = true) : isOther c = true := by
  have hrange : c.toNat = 0 ∨ 128 ≤ c.toNat := by
    simp only [Arch.endsInput, Bool.or_eq_true, Bool.and_eq_true, decide_eq_true_eq] at hc
    rcases hc with rfl | hc
    · exact .inl rfl
    · exact .inr hc.2
  have hword : isWordChar c = false := by
    rw [Bool.eq_false_iff]
    intro h
    have := isWordChar_lt h
    omega
  -- the other characters that begin a token are ascii too
  have hne : ∀ d ∈ ['-', '+', ' ', '\t', '=', ',', ';', '.', '\n'], c ≠ d := by
    rintro d hd rfl
    have hascii : (['-', '+', ' ', '\t', '=', ',', ';', '.', '\n'].all fun d =>
        0 < d.toNat ∧ d.toNat < 128) = true := by decide
    have := of_decide_eq_true (List.all_eq_true.mp hascii c hd)
    omega
  simp only [List.forall_mem_cons] at hne
  simp [isOther, hword, isSign, isBlank, hne]

/-- A character that ends the input is a token of its own. -/
theorem lex_append_of_endsInput {c : Char} (hc : arch.endsInput c = true) (u v : List Char) :
    ∃ rest, lex (u ++ c :: v) = lex u ++ .char c :: rest := by
  have hother := isOther_of_endsInput hc
  rw [lex, scan_append bounded_rules (boundary_other hother v), andThen_fst, scan_other hother]
  exact ⟨_, rfl⟩

theorem endsInput_eq_false_of_mem_lex (ha : ∀ c ∈ a, arch.endsInput c = false) :
    ∀ token ∈ lex a, endsInput arch token = false := by
  intro token htoken
  cases token with
  | char c => exact ha c (mem_of_char_mem htoken)
  | _ => rfl

section Outcome

variable {g : Globals} {msg : List Char} {template : ScaledConf} {configs : List ScaledConf}

theorem eventConfParse_eq (g : Globals) (msg : List Char) (template : ScaledConf)
    (configs : List ScaledConf) :
    eventConfParse arch g msg template configs =
      match parse arch (initialState template configs) (lex msg) with
      | .ok s => outcome 0 s
      | .error s => outcome 1 s := rfl

/-- A call that accepts the string leaves the parser where it starts. -/
theorem parse_of_ret_eq_zero (h : (eventConfParse arch g msg template configs).ret = 0) :
    parse arch (initialState template configs) (lex msg) =
      .ok (initialState template (eventConfParse arch g msg template configs).configs) := by
  rw [eventConfParse_eq] at h ⊢
  cases hs : parse arch (initialState template configs) (lex msg) with
  | error s =>
    rw [hs] at h
    cases h
  | ok s => exact congrArg Except.ok ((fresh_initialState template configs).parse hs)

end Outcome

theorem parse_initialState {configsA : List ScaledConf} {template : ScaledConf}
    (h : parse arch (initialState template []) tokens = .ok (initialState template configsA))
    (configs : List ScaledConf) :
    parse arch (initialState template configs) tokens =
      .ok (initialState template (configs ++ configsA)) := by
  have hinitial : initialState template configs = (initialState template []).after configs := by
    simp [initialState, ParserState.after]
  rw [hinitial, parse_after, h]
  rfl

/-- An accepted string without early end does not stop in a value. -/
theorem scan_snd_of_parse (hparse : parse arch s (lex a) = .ok s')
    (hends : ∀ c ∈ a, arch.endsInput c = false) : (scan rules .initial a).2 = .initial := by
  cases hmode : (scan rules .initial a).2 with
  | initial => rfl
  | value =>
    exfalso
    rcases scan_getLast_eq hmode with ⟨hvalue, -⟩ | hlast
    · cases hvalue
    · obtain ⟨tokens, htail⟩ := List.getLast?_eq_some_iff.mp hlast
      have htokens := endsInput_eq_false_of_mem_lex hends
      rw [lex, htail] at hparse htokens
      exact parse_append_eq (fun token htoken => htokens token (List.mem_append_left _ htoken))
        hparse

theorem parse_confSep {a b : List Char} {template : ScaledConf}
    {configsA configsB : List ScaledConf}
    (ha : parse arch (initialState template []) (lex a) = .ok (initialState template configsA))
    (hb : parse arch (initialState template []) (lex b) = .ok (initialState template configsB))
    (hends : ∀ c ∈ a, arch.endsInput c = false) (configs : List ScaledConf) :
    parse arch (initialState template configs) (lex (a ++ ';' :: b)) =
      .ok (initialState template (configs ++ configsA ++ configsB)) := by
  rw [lex_append_confSep (scan_snd_of_parse ha hends),
    parse_append_confSep (endsInput_eq_false_of_mem_lex hends), parse_initialState ha]
  exact parse_initialState hb (configs ++ configsA)

theorem parse_confSep_of_endsInput {c : Char} (hc : c ∈ a)
    (hends : arch.endsInput c = true) (s : ParserState) (b : List Char) :
    parse arch s (lex (a ++ ';' :: b)) = parse arch s (lex a) := by
  obtain ⟨u, v, rfl⟩ := List.append_of_mem hc
  obtain ⟨rest, hrest⟩ := lex_append_of_endsInput hends u v
  obtain ⟨rest', hrest'⟩ := lex_append_of_endsInput hends u (v ++ ';' :: b)
  have htoken : endsInput arch (.char c) = true := hends
  rw [List.append_assoc, List.cons_append, hrest, hrest', parse_append_of_endsInput htoken,
    parse_append_of_endsInput htoken s (lex u) rest]

/-- The string that is made of two accepted strings with a separator between them is accepted and
yields the configurations of both, whatever has been parsed before, exactly if the first string
does not end the input early, or the second one has no configurations. -/
theorem eventConfParse_confSep_iff (arch : Arch) (template : ScaledConf) (a b : List Char)
    (g₁ g₂ : Globals) (ha : (eventConfParse arch g₁ a template []).ret = 0)
    (hb : (eventConfParse arch g₂ b template []).ret = 0) :
    (∀ g configs, (eventConfParse arch g (a ++ ';' :: b) template configs).ret = 0 ∧
      (eventConfParse arch g (a ++ ';' :: b) template configs).configs =
        configs ++ (eventConfParse arch g₁ a template []).configs ++
          (eventConfParse arch g₂ b template []).configs) ↔
      (∀ c ∈ a, arch.endsInput c = false) ∨
        (eventConfParse arch g₂ b template []).configs = [] := by
  have hparse := parse_of_ret_eq_zero ha
  have hparse' := parse_of_ret_eq_zero hb
  generalize (eventConfParse arch g₁ a template []).configs = configsA at hparse ⊢
  generalize (eventConfParse arch g₂ b template []).configs = configsB at hparse' ⊢
  simp only [eventConfParse_eq]
  by_cases hends : ∀ c ∈ a, arch.endsInput c = false
  · refine iff_of_true (fun g configs => ?_) (.inl hends)
    rw [parse_confSep hparse hparse' hends]
    exact ⟨rfl, rfl⟩
  · simp only [hends, false_or]
    push Not at hends
    obtain ⟨c, hc, hc'⟩ := hends
    have hc' := Bool.of_not_eq_false hc'
    constructor
    · intro h
      have hconfigs := (h g₁ []).2
      rw [parse_confSep_of_endsInput hc hc', hparse] at hconfigs
      simpa [outcome, initialState] using hconfigs
    · rintro rfl g configs
      rw [parse_confSep_of_endsInput hc hc', parse_initialState hparse]
      exact ⟨rfl, by rw [List.append_nil]; rfl⟩

theorem eventConfParse_confSep_two :
    let g : Globals := ⟨templateConf 0, templateConf 1⟩
    (eventConfParse .x86 g "sCPU period=7;sALLOC mode=sl".toList (templateConf 32000) []).ret = 0 ∧
      (eventConfParse .x86 g "sCPU period=7;sALLOC mode=sl".toList
        (templateConf 32000) []).configs.map (fun conf => (conf.eventname, conf.cadence)) =
        [("sCPU".toList, 7), ("sALLOC".toList, 0)] := by
  intro g
  have hends : ("sCPU period=7".toList.all fun c => !Arch.x86.endsInput c) = true := by
    decide +kernel
  have h := (eventConfParse_confSep_iff .x86 (templateConf 32000) "sCPU period=7".toList
    "sALLOC mode=sl".toList g g (by decide +kernel) (by decide +kernel)).mpr
      (.inl (by simpa using hends)) g []
  refine ⟨h.1, ?_⟩
  have hconfigs := h.2
  rw [show "sCPU period=7;sALLOC mode=sl".toList =
    "sCPU period=7".toList ++ ';' :: "sALLOC mode=sl".toList by decide +kernel, hconfigs]
  decide +kernel

/-- A byte above 127 ends the input where `char` is signed: the second configuration is lost, and
the string is accepted. -/
theorem eventConfParse_confSep_lost :
    let g : Globals := ⟨templateConf 0, templateConf 0⟩
    let names := fun msg => (eventConfParse .x86 g msg (templateConf 32000) []).configs.map
      fun conf => conf.eventname
    (∀ msg ∈ ["sCPU \xe9".toList, "sALLOC".toList, "sCPU \xe9;sALLOC".toList],
      (eventConfParse .x86 g msg (templateConf 32000) []).ret = 0) ∧
      names "sCPU \xe9".toList = ["sCPU".toList] ∧ names "sALLOC".toList = ["sALLOC".toList] ∧
      names "sCPU \xe9;sALLOC".toList = ["sCPU".toList] := by
  decide +kernel

end EventParser

end Ddprof
