import Cron.Calendar.Iso
import Cron.Data.Value
import Cron.Data.Yaml.Lines

-- Timestamps in a YAML document: a date alone, or a date, a time of day and perhaps an offset. With
-- a time, months, days and hours may have a single digit, and white space may stand for the `T`.

namespace Cron.Yaml

structure Timestamp where
  year : Nat
  month : Nat
  day : Nat
  -- The time of day and the minutes of the offset, with its sign, if they are written.
  time : Option (Iso.Reading × Option Int)

def pass? (c : Char) : List Char → Option (List Char)
  | [] => none
  | d :: rest => if d = c then some rest else none

def shortNumber? (s : List Char) : Option (Nat × List Char) :=
  Iso.takeDigits? 2 s <|> Iso.takeDigits? 1 s

def passSeparator? : List Char → Option (List Char)
  | [] => none
  | c :: rest =>
    if c = 'T' || c = 't' then some rest
    else if isSpace c then some (rest.dropWhile isSpace)
    else none

-- The microseconds of a fraction, of whose digits six count, and what follows.
def fraction (s : List Char) : Nat × List Char :=
  match s with
  | '.' :: rest =>
    let digits := (rest.takeWhile Text.isAsciiDigit).take 6
    (Text.digitsValue digits * tenTo (6 - digits.length), rest.dropWhile Text.isAsciiDigit)
  | _ => (0, s)

def offsetMinutes? (s : List Char) : Option Nat := do
  let (hours, rest) ← shortNumber? s
  if rest.isEmpty then some (60 * hours)
  else do
    let (minutes, rest) ← Iso.takeDigits? 2 (← pass? ':' rest)
    if rest.isEmpty then some (60 * hours + minutes) else none

def offset? (s : List Char) : Option (Option Int) :=
  match s with
  | [] => some none
  | _ =>
    match s.dropWhile isSpace with
    | ['Z'] => some (some 0)
    | '+' :: rest => (offsetMinutes? rest).map fun n => some (n : Int)
    | '-' :: rest => (offsetMinutes? rest).map fun n => some (-n : Int)
    | _ => none

namespace Timestamp

def read? (s : List Char) : Option Timestamp := do
  let (year, rest) ← Iso.takeDigits? 4 s
  let (month, rest) ← shortNumber? (← pass? '-' rest)
  let (day, rest) ← shortNumber? (← pass? '-' rest)
  if rest.isEmpty then if s.length = 10 then some ⟨year, month, day, none⟩ else none
  else do
    let (hour, rest) ← shortNumber? (← passSeparator? rest)
    let (minute, rest) ← Iso.takeDigits? 2 (← pass? ':' rest)
    let (second, rest) ← Iso.takeDigits? 2 (← pass? ':' rest)
    let (micro, rest) := fraction rest
    let offset ← offset? rest
    some ⟨year, month, day, some (⟨hour, minute, second, micro, false⟩, offset)⟩

def dayMinutes : Nat := 1440

-- The date or the instant, if the calendar has it and the offset is less than a day.
def value? (t : Timestamp) : Option Value := do
  let date ← (Date.of t.year t.month t.day).toOption
  match t.time with
  | none => some (.date date)
  | some (reading, offset) =>
    if offset.any fun minutes => dayMinutes ≤ minutes.natAbs then none
    else (Iso.assemble? date reading (offset.map (minuteMicros * ·))).map .instant

end Timestamp

end Cron.Yaml
