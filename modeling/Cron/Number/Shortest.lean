import Cron.Number.Double

-- The shortest decimal of a floating-point number: of the decimals that are rounded to the number,
-- those with the fewest digits, and of these the nearest.

namespace Cron.Double

def leadingPower (num den : Nat) : Int :=
  if den ≤ num then ((Text.natDigits (num / den)).length : Int) - 1
  else -((Text.natDigits ((den - 1) / num)).length : Int)

-- The ends of the interval of reals that are rounded to `mantissa * 2 ^ exponent`, in quarters of
-- the last place: the lower gap is half as wide below a power of two.
def interval (mantissa : Nat) (exponent : Int) : Nat × Nat :=
  (if mantissa = twoTo 52 ∧ minExponent < exponent then 4 * mantissa - 1 else 4 * mantissa - 2,
    4 * mantissa + 2)

-- Whether `c * 10 ^ k` lies in the interval; its ends count if the mantissa is even.
def reads (mantissa : Nat) (exponent : Int) (c : Nat) (k : Int) : Bool :=
  let (low, high) := interval mantissa exponent
  -- Compare `c * 10 ^ k` with quarters of `2 ^ exponent`, all multiplied to integers.
  let left := 4 * c * tenTo k.toNat * twoTo (-exponent).toNat
  let unit := tenTo (-k).toNat * twoTo exponent.toNat
  if mantissa % 2 = 0 then low * unit ≤ left && left ≤ high * unit
  else low * unit < left && left < high * unit

-- Of the two neighbours of the number among the multiples of `10 ^ k`, the better that reads.
def neighbour? (mantissa : Nat) (exponent k : Int) : Option Nat :=
  let (num, den) := ratio mantissa exponent
  let n := num * tenTo (-k).toNat
  let d := den * tenTo k.toNat
  let down := n / d
  let fits (c : Nat) : Bool := reads mantissa exponent c k
  match fits down, fits (down + 1) with
  | true, true => some (roundHalfEven n d)
  | true, false => some down
  | false, true => some (down + 1)
  | false, false => none

-- The first of the powers from `k` down, `count` at most, at which a decimal reads.
def shortestFrom (mantissa : Nat) (exponent : Int) (k : Int) : Nat → Nat × Int
  | 0 => (0, k)
  | count + 1 =>
    match neighbour? mantissa exponent k with
    | some c => (c, k)
    | none => shortestFrom mantissa exponent (k - 1) count

-- The digits of the shortest decimal and the power of ten of its last digit.
def shortest (mantissa : Nat) (exponent : Int) : Nat × Int :=
  let (num, den) := ratio mantissa exponent
  shortestFrom mantissa exponent (leadingPower num den) 17

def trimZeros (digits : List Char) : List Char × Nat :=
  let kept := (digits.reverse.dropWhile (· == '0')).reverse
  (kept, digits.length - kept.length)

def powerText (power : Int) : List Char :=
  (if power < 0 then '-' else '+') :: Text.padded 2 power.natAbs

-- The text of the decimal `digits * 10 ^ last`: positional from 0.0001 up to 10^16, with at least
-- one decimal place, and with a power of ten otherwise.
def decimalText (digits : List Char) (last : Int) : List Char :=
  let lead := last + digits.length - 1
  if -4 ≤ lead ∧ lead < 16 then
    if 0 ≤ last then digits ++ List.replicate last.toNat '0' ++ ['.', '0']
    else if 0 ≤ lead then
      digits.take (lead.toNat + 1) ++ '.' :: digits.drop (lead.toNat + 1)
    else '0' :: '.' :: (List.replicate (-lead - 1).toNat '0' ++ digits)
  else
    let fraction := digits.drop 1
    digits.take 1 ++ (if fraction.isEmpty then [] else '.' :: fraction) ++ 'e' :: powerText lead

def text : Double → String
  | nan => "nan"
  | infinite negative => if negative then "-inf" else "inf"
  | finite negative mantissa exponent =>
    let body :=
      if mantissa = 0 then ['0', '.', '0']
      else
        let (c, k) := shortest mantissa exponent
        let (digits, zeros) := trimZeros (Text.natDigits c)
        decimalText digits (k + zeros)
    String.ofList ((if negative then ['-'] else []) ++ body)

end Cron.Double
