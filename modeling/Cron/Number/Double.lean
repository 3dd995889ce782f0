import Cron.Number.Round
import Cron.Text.Digit

-- Binary floating-point numbers of 64 bits, by value: a sign, a mantissa below 2^53 and a power of
-- two. Every number has one form: the exponent is at least -1074, and it is -1074 where the
-- mantissa is below 2^52. Arithmetic on them is exact arithmetic followed by `ofRatio`, which
-- rounds once.

namespace Cron

inductive Double
  | nan
  | infinite (negative : Bool)
  -- The number `mantissa * 2 ^ exponent`, or its opposite.
  | finite (negative : Bool) (mantissa : Nat) (exponent : Int)
deriving DecidableEq, Repr

namespace Double

-- The least exponent, and the greatest.
def minExponent : Int := -1074
def maxExponent : Int := 971

def scaled (num den : Nat) (e : Int) : Nat × Nat :=
  if 0 ≤ e then (num, den * twoTo e.toNat) else (num * twoTo (-e).toNat, den)

-- The exponent at which `num / den` has a mantissa of 53 bits, or the least exponent.
def exponentOf (num den : Nat) : Int :=
  let e : Int := (num.log2 : Int) - den.log2 - 53
  let (n, d) := scaled num den e
  max minExponent (if twoTo 53 ≤ n / d then e + 1 else e)

def ofRatio (negative : Bool) (num den : Nat) : Double :=
  if num = 0 then finite negative 0 minExponent
  else
    let e := exponentOf num den
    let (n, d) := scaled num den e
    let m := roundHalfEven n d
    let (m, e) := if m = twoTo 53 then (twoTo 52, e + 1) else (m, e)
    if maxExponent < e then infinite negative else finite negative m e

def ofInt (n : Int) : Double := ofRatio (decide (n < 0)) n.natAbs 1

def ratio (mantissa : Nat) (exponent : Int) : Nat × Nat :=
  if 0 ≤ exponent then (mantissa * twoTo exponent.toNat, 1) else (mantissa, twoTo (-exponent).toNat)

def isNegative : Double → Bool
  | nan => false
  | infinite negative => negative
  | finite negative mantissa _ => negative && mantissa ≠ 0

def toInt? : Double → Option Int
  | finite negative mantissa exponent =>
    let (num, den) := ratio mantissa exponent
    if num % den = 0 then
      some (if negative then -(num / den : Nat) else (num / den : Nat))
    else none
  | _ => none

def ofDecimal (negative : Bool) (digits : List Char) (exponent : Int) : Double :=
  let n := Text.digitsValue digits
  let size : Int := (Text.natDigits n).length + exponent
  if n = 0 ∨ size < -400 then finite negative 0 minExponent
  else if 400 < size then infinite negative
  else if 0 ≤ exponent then ofRatio negative (n * tenTo exponent.toNat) 1
  else ofRatio negative n (tenTo (-exponent).toNat)

def tenths (d : Double) : String :=
  match d with
  | nan => "nan"
  | infinite negative => if negative then "-inf" else "inf"
  | finite negative mantissa exponent =>
    let (num, den) := ratio mantissa exponent
    let n := roundHalfEven (10 * num) den
    String.ofList ((if negative then ['-'] else []) ++ Text.natDigits (n / 10) ++
      '.' :: Text.natDigits (n % 10))

end Double

end Cron
