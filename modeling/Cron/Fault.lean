import Cron.Text.Digit

namespace Cron

inductive Fault
  | zeroStep
  | pastCalendar
  | yearOutOfRange (year : Int)
  | monthOutOfRange
  | dayOutOfRange
  | hourOutOfRange
  | minuteOutOfRange
  | mixedComparison
  -- An instant with an offset was subtracted from one that has none, or the other way round.
  | mixedDifference
  | hugeCode
  | hugeInteger
  | tooManyDigits
  -- There is no room for another nested call.
  | tooDeep
deriving DecidableEq, Repr

def Fault.message : Fault → String
  | .zeroStep => "integer division or modulo by zero"
  | .pastCalendar => "date value out of range"
  | .yearOutOfRange year => s!"year {year} is out of range"
  | .monthOutOfRange => "month must be in 1..12"
  | .dayOutOfRange => "day is out of range for month"
  | .hourOutOfRange => "hour must be in 0..23"
  | .minuteOutOfRange => "minute must be in 0..59"
  | .mixedComparison => "can't compare offset-naive and offset-aware datetimes"
  | .mixedDifference => "can't subtract offset-naive and offset-aware datetimes"
  | .hugeCode => "Python int too large to convert to C int"
  | .hugeInteger => "int too large to convert to float"
  | .tooManyDigits =>
    s!"Exceeds the limit ({Text.maxDigits} digits) for integer string conversion; " ++
      "use sys.set_int_max_str_digits() to increase the limit"
  | .tooDeep => "maximum recursion depth exceeded in comparison"

end Cron
