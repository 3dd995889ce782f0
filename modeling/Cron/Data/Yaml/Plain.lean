import Cron.Data.Yaml.Timestamp
import Cron.Number.Arithmetic
import Cron.Number.Literal

-- The value of a plain scalar of a YAML document, told by its form: one of the words for truth,
-- falsehood and nothing, an integer, a floating-point number, a timestamp, or a text. Underscores
-- may stand among the digits of a number, and numbers may be written in base sixty, with colons
-- between the places.

namespace Cron.Yaml

def spellings (word : String) : List String := [word, word.capitalize, word.toUpper]

def trueWords : List String := ["yes", "true", "on"].flatMap spellings
def falseWords : List String := ["no", "false", "off"].flatMap spellings
def nullWords : List String := ["", "~"] ++ spellings "null"
def infiniteWords : List String := [".inf", ".Inf", ".INF"]
def noNumberWords : List String := [".nan", ".NaN", ".NAN"]

def allDigits (isDigit : Char → Bool) (s : List Char) : Bool := s.all fun c => c = '_' || isDigit c

def isOctalDigit (c : Char) : Bool := '0' ≤ c && c ≤ '7'

-- The base and the digits of an integer without sign: its beginning tells the base.
def integerForm? : List Char → Option (Nat × List Char)
  | '0' :: 'b' :: c :: rest =>
    if allDigits (fun c => c = '0' || c = '1') (c :: rest) then some (2, c :: rest) else none
  | '0' :: 'x' :: c :: rest =>
    if allDigits (Text.hexValue? · |>.isSome) (c :: rest) then some (16, c :: rest) else none
  | '0' :: rest => if allDigits isOctalDigit rest then some (8, '0' :: rest) else none
  | c :: rest =>
    if Text.isAsciiDigit c && allDigits Text.isAsciiDigit rest then some (10, c :: rest) else none
  | [] => none

-- The number that digits and underscores of a base write; a decimal one has a limited length.
def natural? (base : Nat) (s : List Char) : Option Nat :=
  let digits := s.filter (· ≠ '_')
  if digits.isEmpty || (base = 10 && Text.maxDigits < digits.length) then none
  else Text.numberIn? base digits

def isSixtieth : List Char → Bool
  | [c] => Text.isAsciiDigit c
  | [c, d] => '0' ≤ c && c ≤ '5' && Text.isAsciiDigit d
  | _ => false

-- The places of a number of base sixty, from the greatest: colons stand between them.
def sixtieths? (s : List Char) : Option (List Char × List (List Char)) :=
  match Text.pieces (· = ':') s with
  | (c :: rest) :: place :: more =>
    let isWhole := Text.isAsciiDigit c && allDigits Text.isAsciiDigit rest
    if isWhole && (place :: more).all isSixtieth then some (c :: rest, place :: more) else none
  | _ => none

def integerSixtieths? (s : List Char) : Option (List Char × List (List Char)) :=
  if s.head? = some '0' then none else sixtieths? s

def sixtiethsValue? (first : List Char) (more : List (List Char)) : Option Nat :=
  (natural? 10 first).map fun n => more.foldl (fun n place => 60 * n + Text.digitsValue place) n

-- The places and the fraction of a floating-point number of base sixty, which has a point.
def floatSixtieths? (s : List Char) : Option (List (List Char) × List Char) :=
  match Text.cutAt? '.' s with
  | some (whole, fraction) =>
    if allDigits Text.isAsciiDigit fraction then
      (sixtieths? whole).map fun (first, more) => (first :: more, fraction)
    else none
  | none => none

-- The sum of places, from the least, times their weights, the first of which is `weight`.
def weighted (sum : Double) (weight : Nat) : List Double → Except Unread Double
  | [] => .ok sum
  | place :: more =>
    match Double.ofInt weight with
    | .infinite _ => .error (.fault .hugeInteger)
    | w => weighted (sum.add (place.mul w)) (60 * weight) more

def floatSixtiethsValue (places : List (List Char)) (fraction : List Char) :
    Except Unread Double := do
  let digits (s : List Char) : List Char := s.filter (· ≠ '_')
  let texts :=
    match places.reverse with
    | [] => []
    | least :: more => (least ++ '.' :: fraction) :: more
  let numbers ← Unread.expect (texts.mapM fun s => Text.readDecimal? false (digits s))
  weighted (Double.ofInt 0) 1 numbers

def isPower : List Char → Bool
  | [] => true
  | mark :: sign :: digits =>
    (mark = 'e' || mark = 'E') && (sign = '+' || sign = '-') && Text.isNumeral digits
  | _ => false

-- Whether a text without its sign has the form of a floating-point number: it has a point, digits
-- in front of it or, if there is no sign, behind it, and its power of ten has a sign.
def isFloatForm (signed : Bool) (s : List Char) : Bool :=
  let isPart (c : Char) : Bool := c = '_' || Text.isAsciiDigit c
  let whole := s.takeWhile isPart
  match s.dropWhile isPart with
  | '.' :: rest =>
    let first := if whole.isEmpty then rest.head? else whole.head?
    first.any Text.isAsciiDigit && !(signed && whole.isEmpty) && isPower (rest.dropWhile isPart)
  | _ => false

-- The words that are no values of their own: one stands for any value, one merges mappings.
def specialWords : List String := ["=", "<<"]

def plainValue (s : List Char) : Except Unread Value :=
  let word := String.ofList s
  if nullWords.contains word then .ok .null
  else if trueWords.contains word then .ok (.bool true)
  else if falseWords.contains word then .ok (.bool false)
  else if noNumberWords.contains word then .ok (.float .nan)
  else if specialWords.contains word then .error .malformed
  else
    let (negative, body) := Text.takeSign s
    let integer (n : Option Nat) : Except Unread Value :=
      (Unread.expect n).map fun n => .integer (if negative then -(n : Int) else n)
    if infiniteWords.contains (String.ofList body) then .ok (.float (.infinite negative))
    else if isFloatForm (body.length < s.length) body then
      (Unread.expect (Text.readDecimal? negative (body.filter (· ≠ '_')))).map .float
    else
      match floatSixtieths? body, integerForm? body, integerSixtieths? body, Timestamp.read? s with
      | some (places, fraction), _, _, _ =>
        (floatSixtiethsValue places fraction).map fun d =>
          .float (if negative then d.opposite else d)
      | none, some (base, digits), _, _ => integer (natural? base digits)
      | none, none, some (first, more), _ => integer (sixtiethsValue? first more)
      | none, none, none, some t => Unread.expect t.value?
      | none, none, none, none => .ok (.text word)

end Cron.Yaml
