import Cron.Domain
import Cron.Fault
import Cron.Text.Lower
import Cron.Text.Quoted

-- The six columns of a schedule: what integers each ranges over, which names its values have, and
-- the words it is described with. Only the weekday column depends on the dialect, only the year
-- column on the first year and the horizon.

namespace Cron

inductive Dialect
  | unix
  | quartz
deriving DecidableEq, Repr

namespace Dialect

def name : Dialect → String
  | .unix => "unix"
  | .quartz => "quartz"

def all : List Dialect := [.unix, .quartz]

-- The dialect with a given name, whatever its case and the white space around it.
def ofName? (text : Codes) : Option Dialect :=
  text.word?.bind fun name => all.find? (·.name == name)

def unknown (text : Codes) : String :=
  s!"Unknown dialect: {Text.quote text}. Expected one of: unix, quartz"

end Dialect

inductive Column
  | minute
  | hour
  | dayOfMonth
  | month
  | dayOfWeek
  | year
deriving DecidableEq, Repr

@[ext]
structure Columns (α : Type) where
  minute : α
  hour : α
  dayOfMonth : α
  month : α
  dayOfWeek : α
  year : α
deriving DecidableEq, Repr

namespace Columns

variable {α β : Type}

def get (cs : Columns α) : Column → α
  | .minute => cs.minute
  | .hour => cs.hour
  | .dayOfMonth => cs.dayOfMonth
  | .month => cs.month
  | .dayOfWeek => cs.dayOfWeek
  | .year => cs.year

def set (cs : Columns α) (c : Column) (x : α) : Columns α :=
  match c with
  | .minute => { cs with minute := x }
  | .hour => { cs with hour := x }
  | .dayOfMonth => { cs with dayOfMonth := x }
  | .month => { cs with month := x }
  | .dayOfWeek => { cs with dayOfWeek := x }
  | .year => { cs with year := x }

def toList (cs : Columns α) : List α :=
  [cs.minute, cs.hour, cs.dayOfMonth, cs.month, cs.dayOfWeek, cs.year]

def map (f : α → β) (cs : Columns α) : Columns β :=
  ⟨f cs.minute, f cs.hour, f cs.dayOfMonth, f cs.month, f cs.dayOfWeek, f cs.year⟩

def of (f : Column → α) : Columns α :=
  ⟨f .minute, f .hour, f .dayOfMonth, f .month, f .dayOfWeek, f .year⟩

@[simp] theorem get_of (f : Column → α) (c : Column) : (of f).get c = f c := by
  cases c <;> rfl

@[simp] theorem get_map (f : α → β) (cs : Columns α) (c : Column) :
    (cs.map f).get c = f (cs.get c) := by
  cases c <;> rfl

@[simp] theorem get_set (cs : Columns α) (c d : Column) (x : α) :
    (cs.set c x).get d = if c = d then x else cs.get d := by
  cases c <;> cases d <;> rfl

end Columns

namespace Column

def all : List Column := [.minute, .hour, .dayOfMonth, .month, .dayOfWeek, .year]

def index : Column → Nat
  | .minute => 0
  | .hour => 1
  | .dayOfMonth => 2
  | .month => 3
  | .dayOfWeek => 4
  | .year => 5

def id (c : Column) : Int := c.index + 1

def ofId? (n : Int) : Option Column := all.find? (·.id == n)

structure Wording where
  name : String
  title : String
  unit : String
  within : String
  before : String
  article : String
  free : String

def wording : Column → Wording
  | .minute => ⟨"Minute", "MinuteField", "minute", "hour", "on ", "the ", "every minute"⟩
  | .hour => ⟨"Hour", "HourField", "hour", "day", "at ", "", ""⟩
  | .dayOfMonth => ⟨"Day of Month", "DayOfMonthField", "day", "month", "on ", "the ", ""⟩
  | .month => ⟨"Month", "MonthField", "month", "year", "in ", "", ""⟩
  | .dayOfWeek => ⟨"Day of Week", "DayOfWeekField", "day", "week", "on ", "a ", ""⟩
  | .year => ⟨"Year", "YearField", "year", "year", "in ", "", ""⟩

def name (c : Column) : String := c.wording.name

def lowerName (c : Column) : String := c.name.toLower

-- What follows a value to say of what: `minute of the hour`; most columns need nothing.
def ending : Column → String
  | c@.minute | c@.dayOfMonth => s!"{c.wording.unit} of {c.wording.article}{c.wording.within}"
  | _ => ""

end Column

def monthNames : List String :=
  ["January", "February", "March", "April", "May", "June", "July", "August", "September",
    "October", "November", "December"]

def weekdayNames : List String :=
  ["Sunday", "Monday", "Tuesday", "Wednesday", "Thursday", "Friday", "Saturday"]

-- The capital form of a character, as far as it is one ASCII capital; other characters stay.
def capital (c : Char) : Char :=
  if c = 'ſ' then 'S' else if c = 'ı' then 'I' else c.toUpper

-- The first three letters of names, in capitals, numbered from `first` on.
def abbreviations (first : Int) : List String → List (List Char × Int)
  | [] => []
  | name :: rest => ((name.toList.take 3).map capital, first) :: abbreviations (first + 1) rest

def ordinalText (n : Int) : String :=
  let suffix :=
    if 10 < n % 100 ∧ n % 100 < 14 then "th"
    else if n % 10 = 1 then "st"
    else if n % 10 = 2 then "nd"
    else if n % 10 = 3 then "rd"
    else "th"
  s!"{n}{suffix}"

def defaultHorizon : Int := 100

-- Of the thousand calls that may be nested, about what is left to the reader of a column.
def defaultRoom : Nat := 900

structure Layout where
  dialect : Dialect
  firstYear : Int
  -- The number of years after the first that the year column holds.
  horizon : Int
  -- The number of calls that may be nested for a token, beyond those for the ends of a range.
  room : Nat
deriving DecidableEq, Repr

namespace Layout

def sunday (l : Layout) : Int :=
  match l.dialect with
  | .unix => 0
  | .quartz => 1

def domain (l : Layout) : Column → Domain
  | .minute => ⟨0, 59⟩
  | .hour => ⟨0, 23⟩
  | .dayOfMonth => ⟨1, 31⟩
  | .month => ⟨1, 12⟩
  | .dayOfWeek => ⟨l.sunday, 6 + l.sunday⟩
  | .year => ⟨l.firstYear, l.firstYear + l.horizon⟩

-- The value that a written integer stands for. It is moved into the domain; a year is moved up to 0
-- only, so that a past year stays what it is.
def bound (l : Layout) : Column → Int → Int
  | .year, n => max n 0
  | c, n => (l.domain c).clamp n

def names (l : Layout) : Column → List (List Char × Int)
  | .month => abbreviations 1 monthNames
  | .dayOfWeek => abbreviations l.sunday weekdayNames
  | _ => []

def valueName (l : Layout) : Column → Int → String
  | .minute, n => ordinalText (n + 1)
  | .hour, n =>
    if n = 0 then "12am"
    else if n < 12 then s!"{n}am"
    else if n = 12 then "12pm"
    else s!"{n - 12}pm"
  | .dayOfMonth, n => ordinalText n
  | .month, n => monthNames.getD (max 0 (n - 1) % 12).toNat ""
  | .dayOfWeek, n => weekdayNames.getD ((n - l.sunday) % 7).toNat ""
  | .year, n => toString n

def withEnding (c : Column) (phrase : String) : String :=
  if c.ending.isEmpty then phrase else s!"{phrase} {c.ending}"

def between (l : Layout) (c : Column) (low high : Int) : String :=
  match c with
  | .dayOfWeek => s!"from {l.valueName c low} to {l.valueName c high}"
  | _ =>
    withEnding c s!"between {c.wording.article}{l.valueName c low} and {l.valueName c high}"

def checkWords (words : String) : Except Fault String :=
  if words.toList.countP Text.isAsciiDigit ≤ Text.maxDigits then .ok words
  else .error .tooManyDigits

def nameOf (l : Layout) (c : Column) (n : Int) : Except Fault String :=
  checkWords (l.valueName c n)

end Layout

end Cron
