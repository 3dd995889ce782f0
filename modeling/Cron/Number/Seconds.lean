import Cron.Number.Double

namespace Cron

inductive DurationFault
  | notANumber
  | infinite
  | tooLong (days : Int)
  | uncounted
deriving DecidableEq, Repr

def maxDays : Int := 999999999

def DurationFault.message : DurationFault → String
  | .notANumber => "cannot convert float NaN to integer"
  | .infinite => "cannot convert float infinity to integer"
  | .tooLong days => s!"days={days}; must have magnitude <= {maxDays}"
  | .uncounted => "Python int too large to convert to C int"

def checkDuration (micros : Int) : Except DurationFault Int :=
  let days := micros / 86400000000
  if days < -2147483648 ∨ 2147483648 ≤ days then .error .uncounted
  else if days < -maxDays ∨ maxDays < days then .error (.tooLong days)
  else .ok micros

namespace Double

-- The microseconds nearest to a magnitude of seconds, a half to the even number. Whole seconds are
-- exact; the microseconds of the fraction are a floating-point product.
def micros (mantissa : Nat) (exponent : Int) : Nat :=
  let (num, den) := ratio mantissa exponent
  let whole := 1000000 * (num / den)
  match ofRatio false (1000000 * (num % den)) den with
  | finite _ m e =>
    let (n, d) := ratio m e
    whole + roundHalfEven n d
  | _ => whole

def toDuration : Double → Except DurationFault Int
  | nan => .error .notANumber
  | infinite _ => .error .infinite
  | finite negative mantissa exponent =>
    let size := micros mantissa exponent
    checkDuration (if negative then -(size : Int) else size)

def ofMicros (micros : Int) : Double := ofRatio (decide (micros < 0)) micros.natAbs 1000000

end Double

end Cron
