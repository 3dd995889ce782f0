import Cron.Calendar.Date
import Cron.Text.Digit

-- Instants: a date, a time of day in microseconds and, if known, the offset from universal time.
-- `ticks` counts the microseconds of the local calendar and orders instants of one offset.

namespace Cron

-- Microseconds of a second, a minute, an hour and a day.
def secondMicros : Nat := 1000000
def minuteMicros : Nat := 60000000
def hourMicros : Nat := 3600000000
def dayMicros : Nat := 86400000000

def Date.isoText (d : Date) : List Char :=
  Text.padded 4 d.year ++ '-' :: Text.padded 2 d.month ++ '-' :: Text.padded 2 d.day

@[ext]
structure Instant where
  date : Date
  -- Microseconds since midnight.
  clock : Nat
  -- Microseconds by which local time is ahead of universal time.
  offset : Option Int
  clock_lt : clock < dayMicros
deriving DecidableEq

namespace Instant

def year (t : Instant) : Nat := t.date.year
def month (t : Instant) : Nat := t.date.month
def day (t : Instant) : Nat := t.date.day
def hour (t : Instant) : Nat := t.clock / hourMicros
def minute (t : Instant) : Nat := t.clock / minuteMicros % 60
def second (t : Instant) : Nat := t.clock / secondMicros % 60
def microsecond (t : Instant) : Nat := t.clock % secondMicros

def ticks (t : Instant) : Nat := t.clock + dayMicros * t.date.ordinal

def endTicks : Nat := dayMicros * (Date.lastOrdinal + 1)

theorem ticks_lt_endTicks (t : Instant) : t.ticks < endTicks := by
  have hd := t.date.ordinal_le
  have hc := t.clock_lt
  unfold ticks endTicks
  unfold dayMicros at *
  omega

def remaining (t : Instant) : Nat := endTicks - t.ticks

theorem remaining_lt {s t : Instant} (h : s.ticks < t.ticks) : t.remaining < s.remaining := by
  unfold remaining
  exact Nat.sub_lt_sub_left (Nat.lt_trans h t.ticks_lt_endTicks) h

-- Microseconds of universal time, or of the local calendar if there is no offset.
def universal (t : Instant) : Int := t.ticks - t.offset.getD 0

def midnight (t : Instant) : Instant := { t with clock := 0, clock_lt := by decide }

def startOf (t : Instant) (d : Date) : Instant :=
  { t with date := d, clock := 0, clock_lt := by decide }

def atClock (t : Instant) (hour minute : Int) : Except Fault Instant :=
  if hh : 0 ≤ hour ∧ hour < 24 then
    if hm : 0 ≤ minute ∧ minute < 60 then
      .ok { t with
        clock := hourMicros * hour.toNat + minuteMicros * minute.toNat
        clock_lt := by unfold hourMicros minuteMicros dayMicros; omega }
    else .error .minuteOutOfRange
  else .error .hourOutOfRange

def ofTicks (t : Instant) (n : Int) : Except Fault Instant :=
  match Date.ofOrdinal (n / dayMicros) with
  | .ok d =>
    .ok { t with
      date := d
      clock := (n % dayMicros).toNat
      clock_lt := by unfold dayMicros; omega }
  | .error e => .error e

def add (t : Instant) (micros : Int) : Except Fault Instant := t.ofTicks (t.ticks + micros)

def addDays (t : Instant) (days : Int) : Except Fault Instant := t.add (dayMicros * days)

def isWholeMinute (t : Instant) : Bool := t.clock % minuteMicros == 0

def ceilMinute (t : Instant) : Except Fault Instant :=
  if t.isWholeMinute then .ok t else t.ofTicks (t.ticks - t.clock % minuteMicros + minuteMicros)

def sameKind (a b : Instant) : Bool := a.offset.isSome == b.offset.isSome

def before (a b : Instant) : Except Fault Bool :=
  if a.sameKind b then .ok (a.universal < b.universal) else .error .mixedComparison

def since (a b : Instant) : Except Fault Int :=
  if a.sameKind b then .ok (a.universal - b.universal) else .error .mixedDifference

-- The text of an offset: hours and minutes, and seconds and microseconds where there are any.
def offsetText (micros : Int) : List Char :=
  let size := micros.natAbs
  let seconds := size / secondMicros % 60
  let rest := size % secondMicros
  (if micros < 0 then '-' else '+') ::
    (Text.padded 2 (size / hourMicros) ++ ':' :: Text.padded 2 (size / minuteMicros % 60) ++
      (if seconds = 0 ∧ rest = 0 then [] else ':' :: Text.padded 2 seconds) ++
      (if rest = 0 then [] else '.' :: Text.padded 6 rest))

-- The text of an instant, with `sep` between the date and the time of day.
def text (sep : Char) (t : Instant) : List Char :=
  t.date.isoText ++
    sep :: Text.padded 2 t.hour ++ ':' :: Text.padded 2 t.minute ++ ':' :: Text.padded 2 t.second ++
    (if t.microsecond = 0 then [] else '.' :: Text.padded 6 t.microsecond) ++
    (match t.offset with
    | none => []
    | some micros => offsetText micros)

def iso (t : Instant) : String := String.ofList (t.text 'T')

def plain (t : Instant) : String := String.ofList (t.text ' ')

end Instant

end Cron
