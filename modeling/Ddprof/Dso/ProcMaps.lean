import Ddprof.Dso.Basic

/-!
Parsing of one line of `/proc/<pid>/maps`.

The source reads the fixed fields with one `sscanf` call and takes the rest of
the line as the path. The directives of the format are modelled one by one,
each returning the rest of the input. A line whose scan stops early produces
the invalid `Dso`, whose pid is `-1`.
-/

namespace Ddprof

namespace Scan

/-- `isspace` of the C locale. -/
def isSpace (c : Char) : Bool :=
  c = ' ' || (decide ('\t' ≤ c) && decide (c ≤ '\r'))

/-- White space in a format matches any amount of white space. -/
def skipSpace (s : List Char) : List Char := s.dropWhile isSpace

def digitValue (c : Char) : Option ℕ :=
  if '0' ≤ c ∧ c ≤ '9' then some (c.toNat - '0'.toNat)
  else if 'a' ≤ c ∧ c ≤ 'f' then some (c.toNat - 'a'.toNat + 10)
  else if 'A' ≤ c ∧ c ≤ 'F' then some (c.toNat - 'A'.toNat + 10)
  else none

def isDigitOf (base : ℕ) (c : Char) : Bool := (digitValue c).any (· < base)

def digitsValue (base : ℕ) (digits : List Char) : ℕ :=
  digits.foldl (fun acc c => acc * base + (digitValue c).getD 0) 0

/-- An optional sign, as `strtoul` accepts it for unsigned conversions too. -/
def sign : List Char → Bool × List Char
  | '-' :: rest => (true, rest)
  | '+' :: rest => (false, rest)
  | s => (false, s)

/-- The `0x` that hexadecimal input may start with; it stands for a digit `0`. -/
def hexMarker : List Char → Bool × List Char
  | '0' :: 'x' :: rest => (true, rest)
  | '0' :: 'X' :: rest => (true, rest)
  | s => (false, s)

/-- The result of `strtoul`: saturated at `2 ^ 64 - 1`, and negated modulo
`2 ^ 64` after a minus sign. -/
def toUnsigned (negative : Bool) (value : ℕ) : ℕ :=
  if addrSpace ≤ value then addrSpace - 1
  else if negative then (addrSpace - value) % addrSpace
  else value

/-- An integer conversion without a width: `%lx` and `%x` with base 16, `%lu` with base 10. -/
def unsigned (base : ℕ) (s : List Char) : Option (ℕ × List Char) :=
  let (negative, afterSign) := sign (skipSpace s)
  let (marked, body) := if base = 16 then hexMarker afterSign else (false, afterSign)
  let digits := body.takeWhile (isDigitOf base)
  if digits.isEmpty && !marked then none
  else some (toUnsigned negative (digitsValue base digits), body.dropWhile (isDigitOf base))

/-- An ordinary character of the format must be the next character. -/
def literal (c : Char) : List Char → Option (List Char)
  | [] => none
  | x :: rest => if x = c then some rest else none

/-- `%<n>c`. A shorter input is accepted by this directive but leaves nothing for
the ones that follow, so the scan as a whole fails in either case. -/
def chars (n : ℕ) (s : List Char) : Option (List Char × List Char) :=
  if s.length < n then none else some (s.take n, s.drop n)

end Scan

def modeStringToProt (mode : List Char) : ℕ :=
  (if mode[0]? = some 'r' then protRead else 0) |||
    (if mode[1]? = some 'w' then protWrite else 0) |||
    (if mode[2]? = some 'x' then protExec else 0)

/-- The fields of a line that the source goes on to use; `rest` is what follows
the inode. -/
structure ProcLine where
  start : ℕ
  stop : ℕ
  mode : List Char
  offset : ℕ
  inode : ℕ
  rest : List Char
  deriving DecidableEq, Repr

/-- `sscanf(line, "%lx-%lx %4c %lx %x:%x %lu%n", ...)` with its seven matches. -/
def scanProcLine (line : List Char) : Option ProcLine := do
  let (start, s) ← Scan.unsigned 16 line
  let s ← Scan.literal '-' s
  let (stop, s) ← Scan.unsigned 16 s
  let (mode, s) ← Scan.chars 4 (Scan.skipSpace s)
  let (offset, s) ← Scan.unsigned 16 (Scan.skipSpace s)
  let (_devMajor, s) ← Scan.unsigned 16 (Scan.skipSpace s)
  let s ← Scan.literal ':' s
  let (_devMinor, s) ← Scan.unsigned 16 s
  let (inode, rest) ← Scan.unsigned 10 (Scan.skipSpace s)
  return { start, stop, mode, offset, inode, rest }

/-- Trim blanks on the left and one newline at the end. -/
def trimPath (rest : List Char) : List Char :=
  let path := rest.dropWhile fun c => c = ' ' || c = '\t'
  if path.getLast? = some '\n' then path.dropLast else path

def dsoFromProcLine (pid : ℤ) (line : List Char) : Dso :=
  match scanProcLine line with
  | none => Dso.invalid
  | some l =>
    -- `m_end - 1` wraps when the line ends a region at address 0
    Dso.make pid l.start ((l.stop + (addrSpace - 1)) % addrSpace) l.offset (trimPath l.rest)
      l.inode (modeStringToProt l.mode) .procMaps

/-- A parsed line belongs to the process it was read for, unless it is invalid. -/
theorem dsoFromProcLine_pid (pid : ℤ) (line : List Char) :
    (dsoFromProcLine pid line).pid = pid ∨ (dsoFromProcLine pid line).pid = -1 := by
  unfold dsoFromProcLine
  cases scanProcLine line with
  | none => exact .inr rfl
  | some l => exact .inl rfl

end Ddprof
