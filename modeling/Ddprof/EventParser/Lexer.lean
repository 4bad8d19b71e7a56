import Ddprof.Dso.ProcMaps
import Ddprof.Lib.Scanner

/-!
The scanner of event strings (`event_parser.l`).

The rules are those of the source, in its order. The scanner is in mode `value` behind an equals
sign and leaves it with the next token. A character of the model is a byte of the string. Text
that no rule of the source matches is copied to the standard output. Only a line end is such text,
and the last rule of each mode stands for it.
-/

namespace Ddprof

open Scanner (Rule headed literals one optionally span HeadNot)

inductive EventConfField
  | valueScale | rawOffset | rawSize | event | frequency | group | id | label | mode
  | parameter | period | register | stackSampleSize
  deriving DecidableEq, Repr

namespace EventParser

inductive Token
  | eq
  | optSep
  | confSep
  /-- A `FLOAT` has the text that `strtod` is given. -/
  | float (text : List Char)
  | number (n : ℤ)
  | hexNumber (n : ℤ)
  | word (text : List Char)
  | key (field : EventConfField)
  | char (c : Char)
  deriving DecidableEq, Repr

inductive LexMode
  | initial
  | value
  deriving DecidableEq, Repr

/-! ### Patterns -/

/-- `[[:alpha:]_]` -/
def isWordStart (c : Char) : Bool := c.isAlpha || c = '_'

/-- `[[:alnum:]_]` -/
def isWordChar (c : Char) : Bool := c.isAlphanum || c = '_'

/-- `[-+]` -/
def isSign (c : Char) : Bool := c = '-' || c = '+'

/-- `[ \t]` -/
def isBlank (c : Char) : Bool := c = ' ' || c = '\t'

/-- `[[:digit:].]` -/
def isFloatChar (c : Char) : Bool := c.isDigit || c = '.'

/-- `[fFdD]` -/
def isFloatSuffix (c : Char) : Bool := c = 'f' || c = 'F' || c = 'd' || c = 'D'

/-- `[[:alpha:]_][[:alnum:]_]*` -/
def wordLen : List Char → ℕ := headed isWordStart isWordChar

/-- `[-+]?[[:digit:]]+` -/
def numberLen : List Char → ℕ := optionally isSign (span Char.isDigit)

/-- `0x[[:digit:]]+` -/
def hexDigitsLen : List Char → ℕ
  | '0' :: 'x' :: s => if span Char.isDigit s = 0 then 0 else span Char.isDigit s + 2
  | _ => 0

/-- `[-+]?0x[[:digit:]]+` -/
def hexLen : List Char → ℕ := optionally isSign hexDigitsLen

/-- `[[:digit:].]+[fFdD]?` -/
def floatDigitsLen (s : List Char) : ℕ :=
  if span isFloatChar s = 0 then 0
  else span isFloatChar s + one isFloatSuffix (s.drop (span isFloatChar s))

/-- `[-+]?[[:digit:].]+[fFdD]?` -/
def floatLen : List Char → ℕ := optionally isSign floatDigitsLen

/-- `.` -/
def anyLen : List Char → ℕ := one (· ≠ '\n')

/-! ### Values -/

def longMax : ℤ := 2 ^ 63 - 1
def longMin : ℤ := -2 ^ 63

def toLong (n : ℤ) : ℤ := max longMin (min n longMax)

/-- `strtol` on a text without blanks, with base 10 or 16. -/
def strtol (base : ℕ) (text : List Char) : ℤ :=
  let (negative, body) := Scan.sign text
  let body := if base = 16 then (Scan.hexMarker body).2 else body
  let n : ℕ := Scan.digitsValue base (body.takeWhile (Scan.isDigitOf base))
  toLong (if negative then -n else n)

/-! ### Rules -/

/-- The keys, with all their spellings. -/
def keyTable : List (List (List Char) × EventConfField) :=
  [(["s".toList, "value_scale".toList, "scale".toList], .valueScale),
    (["f".toList, "frequency".toList, "freq".toList], .frequency),
    (["e".toList, "event".toList, "eventname".toList, "ev".toList], .event),
    (["g".toList, "group".toList, "groupname".toList, "gr".toList], .group),
    (["i".toList, "id".toList], .id),
    (["l".toList, "label".toList], .label),
    (["m".toList, "mode".toList], .mode),
    (["n".toList, "arg_num".toList, "argno".toList], .parameter),
    (["o".toList, "raw_offset".toList, "rawoff".toList], .rawOffset),
    (["p".toList, "period".toList, "per".toList], .period),
    (["st".toList, "stack_sample_size".toList, "stcksz".toList], .stackSampleSize),
    (["r".toList, "register".toList, "regno".toList], .register),
    (["z".toList, "raw_size".toList, "rawsz".toList], .rawSize)]

abbrev LexRule := Rule LexMode Char Token

/-- `DISPATCH` -/
def keyRule (key : List (List Char) × EventConfField) : LexRule :=
  ⟨literals key.1, fun _ => (some (.key key.2), .initial)⟩

def wordRule : LexRule := ⟨wordLen, fun text => (some (.word text), .initial)⟩

def charRule : LexRule :=
  ⟨anyLen, fun text => (text.head?.map .char, .initial)⟩

def echoRule (mode : LexMode) : LexRule := ⟨one (· = '\n'), fun _ => (none, mode)⟩

def eqRule : LexRule := ⟨one (· = '='), fun _ => (some .eq, .value)⟩
def blankRule : LexRule := ⟨span isBlank, fun _ => (none, .initial)⟩
def optSepRule : LexRule :=
  ⟨one fun c => isBlank c || c = ',', fun _ => (some .optSep, .initial)⟩
def confSepRule : LexRule := ⟨one (· = ';'), fun _ => (some .confSep, .initial)⟩

def numberRule : LexRule := ⟨numberLen, fun text => (some (.number (strtol 10 text)), .initial)⟩
def hexRule : LexRule := ⟨hexLen, fun text => (some (.hexNumber (strtol 16 text)), .initial)⟩
def floatRule : LexRule := ⟨floatLen, fun text => (some (.float text), .initial)⟩

def rules : LexMode → List LexRule
  | .initial =>
    keyTable.map keyRule ++
      [eqRule, blankRule, optSepRule, confSepRule, wordRule, charRule, echoRule .initial]
  | .value => [wordRule, numberRule, hexRule, floatRule, charRule, echoRule .value]

/-- The tokens of a string, up to its end. -/
def lex (msg : List Char) : List Token := (Scanner.scan rules .initial msg).1

end EventParser

end Ddprof
