import Cron.Number.Double
import Cron.Text.Blank

-- Numbers in settings. White space may surround a number, its digits may be those of any script,
-- and single underscores may stand between digits.

namespace Cron.Text

def isNumberBlank (c : Char) : Bool := isBlank c && !(0x1C ≤ c.toNat && c.toNat ≤ 0x1F)

def asciiDigit (c : Char) : Char :=
  match digitValue? c with
  | some n => Char.ofNat ('0'.toNat + n)
  | none => c

def plainNumber (s : List Char) : List Char := (trimWhile isNumberBlank s).map asciiDigit

-- The sign in front of a number, negative if it is a minus, and what follows.
def takeSign : List Char → Bool × List Char
  | '-' :: rest => (true, rest)
  | '+' :: rest => (false, rest)
  | s => (false, s)

-- The text without its underscores, if each of them stands between two digits.
def dropUnderscores? : List Char → Option (List Char)
  | [] => some []
  | '_' :: _ => none
  | [c] => some [c]
  | c :: '_' :: d :: rest =>
    if isAsciiDigit c && isAsciiDigit d then (dropUnderscores? (d :: rest)).map (c :: ·) else none
  | c :: rest => (dropUnderscores? rest).map (c :: ·)

inductive IntegerText
  | integer (n : Int)
  | tooLong (digits : Nat)
  | other
deriving DecidableEq, Repr

def readInt (limit : Nat) (s : List Char) : IntegerText :=
  let (negative, body) := takeSign (plainNumber s)
  match dropUnderscores? body with
  | some digits =>
    if !isNumeral digits then .other
    else if limit < digits.length then .tooLong digits.length
    else .integer (if negative then -(digitsValue digits : Int) else digitsValue digits)
  | none => .other

-- What stands before a point with at least one zero behind it; a text of another form stays.
def dropZeroFraction (s : List Char) : List Char :=
  match cutAt? '.' s with
  | some (whole, fraction) => if !fraction.isEmpty && fraction.all (· = '0') then whole else s
  | none => s

-- A text without the zeros and underscores at its front, the first of which is a zero.
def dropLeadingZeros (s : List Char) : List Char :=
  if s.head? = some '0' then s.dropWhile fun c => c = '0' || c = '_' else s

-- Reads an integer in ASCII digits, behind which a point and zeros may stand. Leading zeros are not
-- counted as digits, and any number of underscores may stand among them.
def readWhole? (s : List Char) : Option Int :=
  let (negative, body) := takeSign (trimWhile isNumberBlank s)
  let whole := dropZeroFraction body
  let significant := dropLeadingZeros whole
  if significant.isEmpty && whole.getLast? = some '0' then some 0
  else
    match dropUnderscores? significant with
    | some digits =>
      if isNumeral digits && digits.length ≤ maxDigits then
        some (if negative then -(digitsValue digits : Int) else digitsValue digits)
      else none
    | none => none

def readPower? (s : List Char) : Option Int :=
  let (negative, digits) := takeSign s
  if isNumeral digits then
    some (if negative then -(digitsValue digits : Int) else digitsValue digits)
  else none

-- A decimal without sign: digits, perhaps a point and digits, perhaps a power of ten.
def readDecimal? (negative : Bool) (s : List Char) : Option Double :=
  let whole := s.takeWhile isAsciiDigit
  let afterWhole := s.dropWhile isAsciiDigit
  let (fraction, afterFraction) :=
    match afterWhole with
    | '.' :: rest => (rest.takeWhile isAsciiDigit, rest.dropWhile isAsciiDigit)
    | rest => ([], rest)
  if whole.isEmpty && fraction.isEmpty then none
  else
    let finish (power : Int) : Double :=
      Double.ofDecimal negative (whole ++ fraction) (power - fraction.length)
    match afterFraction with
    | [] => some (finish 0)
    | c :: rest => if c = 'e' || c = 'E' then (readPower? rest).map finish else none

-- Reads a floating-point number: a decimal, or a word for infinity or for no number.
def readDouble? (s : List Char) : Option Double := do
  let text ← dropUnderscores? (plainNumber s)
  let (negative, body) := takeSign text
  let word := String.ofList (body.map Char.toLower)
  if word = "inf" ∨ word = "infinity" then some (.infinite negative)
  else if word = "nan" then some .nan
  else readDecimal? negative body

end Cron.Text
