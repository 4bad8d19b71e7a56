import Ddprof.EventParser.Lexer
import Ddprof.Lib.Numerals
import Ddprof.Watcher.Basic

/-!
The parser of event strings (`event_parser.y`).

The grammar is regular, and the parser is modelled by what it has read of the current option. The
generated parser reduces by default: behind an option it finishes the configuration on every token
that does not continue it, before it sees that the token is an error, so that a rejected string
can still have added configurations. Actions work on two global objects, the configuration that
is being read and the template that it is reset to.

A token that is a negative character code is the end of the input for the generated parser.
-/

namespace Ddprof

/-! ### Architectures -/

inductive Arch
  | x86
  | aarch64
  deriving DecidableEq, Repr

namespace Arch

def charIsSigned : Arch → Bool
  | .x86 => true
  | .aarch64 => false

/-- `k_perf_register_count` -/
def perfRegisterCount : Arch → ℕ
  | .x86 => 20
  | .aarch64 => 33

/-- The registers of the parameters, from the first one on. -/
def regLookup : Arch → List ℕ
  | .x86 => [5, 4, 3, 2, 12, 13]
  | .aarch64 => [0, 1, 2, 3, 4, 5, 6]

/-- Parameters are numbered from 1, and `none` is the register number `-1`. -/
def paramToPerfRegno (arch : Arch) (paramNo : ℕ) : Option ℕ :=
  if paramNo = 0 then none else arch.regLookup[paramNo - 1]?

/-- The character codes that a token cannot have: 0, and those of negative characters. -/
def endsInput (arch : Arch) (c : Char) : Bool :=
  c = '\x00' || (arch.charIsSigned && 128 ≤ c.toNat)

end Arch

/-! ### Configurations -/

/-- The `double` that an integer is converted to, or that `strtod` makes of a text. -/
inductive ValueScale
  | ofInt (n : ℤ)
  | strtod (text : List Char)
  deriving DecidableEq, Repr

/-- `EventConf` with the field that watchers are not asked about. -/
structure ScaledConf extends EventConf where
  valueScale : ValueScale := .ofInt 0
  deriving DecidableEq, Repr

namespace EventParser

/-- The loop of `mode_from_str`. -/
def addModes (mode : AggregationMode) : List Char → Option AggregationMode
  | [] => some mode
  | c :: str =>
    if c = 'S' ∨ c = 's' then addModes { mode with sum := true } str
    else if c = 'L' ∨ c = 'l' then addModes { mode with liveSum := true } str
    else if c = 'A' ∨ c = 'a' ∨ c = '*' then addModes ⟨true, true⟩ str
    else none

def modeFromStr (str : List Char) : Option AggregationMode := addModes ⟨false, false⟩ str

/-- `KEY EQ WORD`. An error is what `VAL_ERROR` leaves of the configuration. -/
def setWord (field : EventConfField) (w : List Char) (conf : ScaledConf) :
    Except ScaledConf ScaledConf :=
  match field with
  | .event => .ok { conf with eventname := w }
  | .group => .ok { conf with groupname := w }
  | .label => .ok { conf with label := w }
  | .mode =>
    match modeFromStr w with
    | none => .error conf
    | some mode => .ok { conf with mode := mode }
  | _ => .error conf

/-- `KEY EQ WORD ':' WORD`, which is ignored for other keys. -/
def setPair (field : EventConfField) (w w' : List Char) (conf : ScaledConf) : ScaledConf :=
  if field = .event ∨ field = .group then { conf with eventname := w, groupname := w' } else conf

/-- The keys that say where the value is can be given once. -/
def setSource (conf : ScaledConf) (set : ScaledConf → Except ScaledConf ScaledConf) :
    Except ScaledConf ScaledConf :=
  if conf.valueSource ≠ .sample then .error conf else set conf

/-- The cadence can be given once. -/
def setConfCadence (cadType : CadenceType) (n : ℤ) (conf : ScaledConf) :
    Except ScaledConf ScaledConf :=
  if conf.cadType ≠ .undefined then .error conf
  else .ok { conf with cadence := n, cadType := cadType }

/-- `KEY EQ integer` -/
def setInteger (arch : Arch) (field : EventConfField) (n : ℤ) (conf : ScaledConf) :
    Except ScaledConf ScaledConf :=
  if n < 0 ∧ field ≠ .period ∧ field ≠ .valueScale then .error conf
  else
    match field with
    | .id => .ok { conf with id := n }
    | .rawSize =>
      if n ≠ 1 ∧ n ≠ 2 ∧ n ≠ 4 ∧ n ≠ 8 then .error conf
      else .ok { conf with rawSize := n.toNat }
    | .valueScale => .ok { conf with valueScale := .ofInt n }
    | .mode => .ok { conf with mode := ⟨n.toNat.testBit 0, n.toNat.testBit 1⟩ }
    | .parameter => setSource conf fun conf =>
      -- the source is set before the number is checked
      let conf := { conf with valueSource := .register }
      match arch.paramToPerfRegno (n.toNat % 2 ^ 32) with
      | none => .error conf
      | some regno => .ok { conf with registerNum := regno }
    | .register => setSource conf fun conf =>
      if (arch.perfRegisterCount : ℤ) ≤ n then .error conf
      else .ok { conf with valueSource := .register, registerNum := n.toNat }
    | .rawOffset => setSource conf fun conf =>
      .ok { conf with valueSource := .raw, rawOffset := n.toNat }
    | .stackSampleSize => .ok { conf with stackSampleSize := n.toNat % 2 ^ 32 }
    | .period => setConfCadence .period n conf
    | .frequency => setConfCadence .frequency n conf
    | .event => .error conf
    | .group => .error conf
    | .label => .error conf

/-- `KEY EQ FLOAT` -/
def setFloat (field : EventConfField) (text : List Char) (conf : ScaledConf) :
    Except ScaledConf ScaledConf :=
  if field = .valueScale then .ok { conf with valueScale := .strtod text } else .error conf

/-- The label that `conf_finalize` makes up. -/
def defaultLabel (conf : ScaledConf) : List Char :=
  if conf.label ≠ [] then conf.label
  else if conf.eventname ≠ [] ∧ conf.groupname ≠ [] then conf.groupname ++ ':' :: conf.eventname
  else if conf.eventname ≠ [] ∧ conf.groupname = [] then conf.eventname
  else if conf.id ≠ 0 then "id:".toList ++ Numerals.decimal conf.id
  else []

/-- The configuration as `conf_finalize` adds it. -/
def finalized (conf : ScaledConf) : ScaledConf :=
  { conf with
    label := defaultLabel conf
    cadType := if conf.cadType = .undefined then .period else conf.cadType }

/-! ### The parser -/

inductive Phase
  -- nothing: at the start, or behind a separator of configurations
  | confs
  -- one or more options
  | conf
  -- a separator of options
  | optSep
  | key (field : EventConfField)
  | eq (field : EventConfField)
  | word (field : EventConfField) (w : List Char)
  | colon (field : EventConfField) (w : List Char)
  deriving DecidableEq, Repr

@[ext] structure ParserState where
  phase : Phase := .confs
  -- `g_accum_event_conf`
  accum : ScaledConf
  -- `g_template_event_conf`
  template : ScaledConf
  -- `*g_event_configs`
  configs : List ScaledConf
  deriving DecidableEq, Repr

/-- An error is the state in which the parser gives up. -/
abbrev ParserResult := Except ParserState ParserState

namespace ParserState

def confFinalize (s : ParserState) : ParserState :=
  { s with phase := .confs, accum := s.template, configs := s.configs ++ [finalized s.accum] }

/-- An option has been read, and its action has been run. -/
def option (s : ParserState) : Except ScaledConf ScaledConf → ParserResult
  | .ok conf => .ok { s with phase := .conf, accum := conf }
  | .error conf => .error { s with accum := conf }

def startOption (s : ParserState) : Token → ParserResult
  | .word w => s.option (.ok { s.accum with eventname := w })
  | .key field => .ok { s with phase := .key field }
  | _ => .error s

def afterOption (s : ParserState) : Token → ParserResult
  | .word w => s.startOption (.word w)
  | .key field => s.startOption (.key field)
  | .optSep => .ok { s with phase := .optSep }
  | .confSep => .ok s.confFinalize
  | _ => .error s.confFinalize

def betweenConfs (s : ParserState) : Token → ParserResult
  | .confSep => .ok s
  | token => s.startOption token

def afterKey (s : ParserState) (field : EventConfField) : Token → ParserResult
  | .eq => .ok { s with phase := .eq field }
  | _ => .error s

def afterEq (arch : Arch) (s : ParserState) (field : EventConfField) : Token → ParserResult
  | .word w => .ok { s with phase := .word field w }
  | .number n => s.option (setInteger arch field n s.accum)
  | .hexNumber n => s.option (setInteger arch field n s.accum)
  | .float text => s.option (setFloat field text s.accum)
  | _ => .error s

/-- The token behind the word is read before the action is run. -/
def afterWord (s : ParserState) (field : EventConfField) (w : List Char) (token : Token) :
    ParserResult :=
  if token = .char ':' then .ok { s with phase := .colon field w }
  else (s.option (setWord field w s.accum)).bind fun s => s.afterOption token

def afterColon (s : ParserState) (field : EventConfField) (w : List Char) : Token → ParserResult
  | .word w' => s.option (.ok (setPair field w w' s.accum))
  | _ => .error s

def step (arch : Arch) (s : ParserState) (token : Token) : ParserResult :=
  match s.phase with
  | .confs => s.betweenConfs token
  | .conf => s.afterOption token
  | .optSep => s.startOption token
  | .key field => s.afterKey field token
  | .eq field => s.afterEq arch field token
  | .word field w => s.afterWord field w token
  | .colon field w => s.afterColon field w token

def finish (s : ParserState) : ParserResult :=
  match s.phase with
  | .confs => .ok s
  | .conf => .ok s.confFinalize
  | .word field w => (s.option (setWord field w s.accum)).map confFinalize
  | _ => .error s

end ParserState

/-- The tokens that the parser takes for the end of the input. -/
def endsInput (arch : Arch) : Token → Bool
  | .char c => arch.endsInput c
  | _ => false

def parse (arch : Arch) (s : ParserState) : List Token → ParserResult
  | [] => s.finish
  | token :: tokens =>
    if endsInput arch token then s.finish
    else (s.step arch token).bind fun s => parse arch s tokens

/-! ### Calls -/

structure Globals where
  accum : ScaledConf
  template : ScaledConf
  deriving DecidableEq, Repr

structure ParseOutcome where
  ret : ℤ
  globals : Globals
  configs : List ScaledConf
  deriving DecidableEq, Repr

def initialState (template : ScaledConf) (configs : List ScaledConf) : ParserState where
  accum := template
  template := template
  configs := configs

def outcome (ret : ℤ) (s : ParserState) : ParseOutcome := ⟨ret, ⟨s.accum, s.template⟩, s.configs⟩

/-- `EventConf_parse`. The globals of earlier calls are overwritten before anything is read. -/
def eventConfParse (arch : Arch) (g : Globals) (msg : List Char) (template : ScaledConf)
    (eventConfigs : List ScaledConf) : ParseOutcome :=
  let g := { g with template := template }
  let g := { g with accum := g.template }
  match parse arch ⟨.confs, g.accum, g.template, eventConfigs⟩ (lex msg) with
  | .ok s => outcome 0 s
  | .error s => outcome 1 s

/-- The template of `watchers_from_str`. -/
def templateConf (stackSampleSize : ℕ) : ScaledConf where
  mode := ⟨true, false⟩
  stackSampleSize := stackSampleSize
  cadType := .undefined

end EventParser

end Ddprof
