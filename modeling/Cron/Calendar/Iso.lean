import Cron.Calendar.Instant
import Cron.Number.Round
import Cron.Text.Codes

-- Reading the ISO text of an instant. A date is a year, month and day, or a year, week and weekday,
-- with dashes or without; any code point may stand between it and the time of day. A time has
-- hours, minutes, seconds and a fraction, with colons or without, each after the first optional;
-- then comes the offset from universal time, if there is one.

namespace Cron.Iso

-- The number that the first `count` characters write, and what follows them.
def takeDigits? (count : Nat) (s : List Char) : Option (Nat × List Char) :=
  let digits := s.take count
  if digits.length = count ∧ digits.all Text.isAsciiDigit then
    some (Text.digitsValue digits, s.drop count)
  else none

def isDigitAt (s : List Char) (i : Nat) : Bool := s[i]?.any Text.isAsciiDigit

-- The length of the date at the beginning of a text. A week date may lack its weekday; after one
-- without dashes the parity of the digits tells, as times have an even number of them.
def dateLength (s : List Char) : Nat :=
  if s.length = 7 then 7
  else if s[4]? = some '-' then
    if s[5]? = some 'W' then
      if s[8]? = some '-' then (if isDigitAt s 10 then 8 else 10) else 8
    else 10
  else if s[4]? = some 'W' then
    let run := 7 + ((s.drop 7).takeWhile Text.isAsciiDigit).length
    if run < 9 then run else if run % 2 = 0 then 7 else 8
  else 8

def yearStart (year : Nat) : Nat := Date.daysBeforeYear year + 1

-- The weekday on which a year begins, counted from Monday.
def firstWeekday (year : Nat) : Nat := (yearStart year + 6) % 7

def weeksOf (year : Nat) : Nat :=
  if firstWeekday year = 3 ∨ (firstWeekday year = 2 ∧ isLeap year) then 53 else 52

-- The number of the Monday of the first week: the week of the first Thursday.
def firstMonday (year : Nat) : Int :=
  let monday : Int := (yearStart year : Int) - firstWeekday year
  if 3 < firstWeekday year then monday + 7 else monday

def weekDate? (year week weekday : Nat) : Option Date :=
  if 1 ≤ year ∧ 1 ≤ week ∧ week ≤ weeksOf year ∧ 1 ≤ weekday ∧ weekday ≤ 7 then
    (Date.ofOrdinal (firstMonday year + (week - 1) * 7 + (weekday - 1))).toOption
  else none

def passDash? (dashes : Bool) (s : List Char) : Option (List Char) :=
  match dashes, s with
  | false, s => some s
  | true, '-' :: rest => some rest
  | true, _ => none

def readDate? (s : List Char) : Option Date := do
  let (year, rest) ← takeDigits? 4 s
  let dashes := rest.head? == some '-'
  let rest := if dashes then rest.drop 1 else rest
  match rest with
  | 'W' :: rest => do
    let (week, rest) ← takeDigits? 2 rest
    if rest.isEmpty then weekDate? year week 1
    else do
      let rest ← passDash? dashes rest
      let (weekday, _) ← takeDigits? 1 rest
      weekDate? year week weekday
  | rest => do
    let (month, rest) ← takeDigits? 2 rest
    let rest ← passDash? dashes rest
    let (day, rest) ← takeDigits? 2 rest
    if rest.isEmpty then (Date.of year month day).toOption else none

structure Reading where
  hour : Nat
  minute : Nat
  second : Nat
  micro : Nat
  -- Whether something was left unread, the character after the text included.
  unread : Bool

def Reading.of (numbers : List Nat) (micro : Nat) (unread : Bool) : Reading :=
  ⟨numbers.getD 0 0, numbers.getD 1 0, numbers.getD 2 0, micro, unread⟩

def readFraction? (numbers : List Nat) (followed : Bool) (s : List Char) : Option Reading := do
  let count := min 6 s.length
  let (n, rest) ← takeDigits? count s
  let left := rest.dropWhile Text.isAsciiDigit
  some (Reading.of numbers (n * tenTo (6 - count)) (!left.isEmpty || followed))

-- Reads up to `count` more numbers of two digits and the fraction. `colons` tells whether the
-- numbers are separated, once this is known; `followed` whether the text goes on behind `s`. One
-- ASCII character at the end is left unread.
def readNumbers? (followed : Bool) :
    Nat → Option Bool → List Nat → List Char → Option Reading
  | 0, _, numbers, s => readFraction? numbers followed s
  | count + 1, colons, numbers, s => do
    let (n, rest) ← takeDigits? 2 s
    let numbers := numbers ++ [n]
    match rest with
    | [] => some (Reading.of numbers 0 followed)
    | [c] => if c.toNat < 0x80 then some (Reading.of numbers 0 true) else none
    | c :: more =>
      let colons := colons.getD (c == ':')
      if colons && c == ':' then readNumbers? followed count colons numbers more
      else if c == '.' || c == ',' then readFraction? numbers followed more
      else if !colons then readNumbers? followed count colons numbers rest
      else none

def readTime? (followed : Bool) (s : List Char) : Option Reading :=
  readNumbers? followed 3 none [] s

-- The microseconds of an offset, less than a day; less than a second counts as none.
def offsetMicros? (negative : Bool) (r : Reading) : Option Int :=
  let seconds := r.hour * 3600 + r.minute * 60 + r.second
  let size := if seconds = 0 then 0 else seconds * secondMicros + r.micro
  if size < dayMicros then some (if negative then -(size : Int) else size) else none

def assemble? (d : Date) (r : Reading) (offset : Option Int) : Option Instant :=
  if h : r.hour < 24 ∧ r.minute < 60 ∧ r.second < 60 ∧ r.micro < secondMicros then
    some {
      date := d
      clock := hourMicros * r.hour + minuteMicros * r.minute + secondMicros * r.second + r.micro
      offset := offset
      clock_lt := by
        obtain ⟨h₁, h₂, h₃, h₄⟩ := h
        unfold secondMicros at h₄
        unfold hourMicros minuteMicros secondMicros dayMicros
        omega }
  else none

def readClock? (d : Date) (s : List Char) : Option Instant :=
  let time := s.takeWhile fun c => c != '+' && c != '-' && c != 'Z'
  match s.drop time.length with
  | [] => do
    let r ← readTime? false time
    if r.unread then none else assemble? d r none
  | 'Z' :: rest => do
    let r ← readTime? true time
    if rest.isEmpty then assemble? d r (some 0) else none
  | sign :: rest => do
    let r ← readTime? true time
    let o ← readTime? false rest
    if o.unread then none
    else do
      let offset ← offsetMicros? (sign == '-') o
      assemble? d r (some offset)

-- The places at which a date can end.
def dateEnds : List Nat := [7, 8, 10]

-- A text with the first half of a surrogate pair at the end of a date replaced by a character.
def mendSeparator (s : List Code) : List Code :=
  match dateEnds.find? fun i => s[i]?.any (·.char?.isNone) with
  | some i => s.set i (.char 'T')
  | none => s

def read? (text : Codes) : Option Instant := do
  let s ← Codes.chars? ⟨mendSeparator text.points⟩
  if s.length < 7 then none
  else do
    let length := dateLength s
    let d ← readDate? (s.take length)
    match s.drop length with
    | [] => assemble? d ⟨0, 0, 0, 0, false⟩ none
    | _ :: rest => readClock? d rest

end Cron.Iso
