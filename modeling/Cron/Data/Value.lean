import Cron.Calendar.Instant
import Cron.Number.Shortest
import Cron.Text.Quoted

-- Values of configuration documents. The entries of a mapping keep their order; writing a key a
-- second time replaces its value and leaves it in its place. Any value but a list or a mapping can
-- be a key.

namespace Cron

inductive Value where
  | null
  | bool (b : Bool)
  | integer (n : Int)
  | float (d : Double)
  | text (s : Codes)
  | date (d : Date)
  | instant (t : Instant)
  | list (items : List Value)
  | mapping (entries : List (Value × Value))

abbrev Entries : Type := List (Value × Value)

namespace Value

instance : Inhabited Value := ⟨null⟩

instance : Coe String Value := ⟨fun s => text s⟩

-- A value as a number: one and zero are truth and falsehood, and an integer has one form.
def number? : Value → Option (Int ⊕ Double)
  | bool b => some (.inl (if b then 1 else 0))
  | integer n => some (.inl n)
  | float d =>
    match d.toInt? with
    | some n => some (.inl n)
    | none => some (.inr d)
  | _ => none

-- Whether two values are the same key. Instants are the same if they name one point in time.
def sameKey : Value → Value → Bool
  | null, null => true
  | text s, text t => s == t
  | date d, date e => d == e
  | instant t, instant u => t.sameKind u && t.universal == u.universal
  | v, w =>
    match v.number?, w.number? with
    | some m, some n => m == n
    | _, _ => false

instance : BEq Value := ⟨sameKey⟩

variable {κ α : Type} [BEq κ]

-- The entries with a key set to a value: in its old place, or at the end if it is new.
def put (key : κ) (x : α) : List (κ × α) → List (κ × α)
  | [] => [(key, x)]
  | (k, y) :: rest => if k == key then (k, x) :: rest else (k, y) :: put key x rest

def putAll (entries pairs : List (κ × α)) : List (κ × α) :=
  pairs.foldl (fun es (key, x) => put key x es) entries

-- Whether a value counts as nothing: an empty text, list or mapping, a zero, `false` or null.
def isBlank : Value → Bool
  | null => true
  | bool b => !b
  | integer n => n == 0
  | float (.finite _ mantissa _) => mantissa == 0
  | float _ => false
  | text s => s.points.isEmpty
  | date _ | instant _ => false
  | list items => items.isEmpty
  | mapping entries => entries.isEmpty

def call (name : String) (arguments : List String) : String :=
  name ++ "(" ++ String.intercalate ", " arguments ++ ")"

def inspectDate (d : Date) : String :=
  call "datetime.date" ([d.year, d.month, d.day].map toString)

-- An offset as it is shown in messages: the seconds of a day, and a day less where it is west.
def inspectOffset (micros : Int) : String :=
  let seconds := micros / 1000000
  if seconds = 0 then "datetime.timezone.utc"
  else
    let days := if seconds < 0 then ["days=-1"] else []
    call "datetime.timezone" [call "datetime.timedelta" (days ++ [s!"seconds={seconds % 86400}"])]

-- An instant as it is shown in messages: seconds and microseconds only where there are any.
def inspectInstant (t : Instant) : String :=
  let fine :=
    if t.microsecond ≠ 0 then [t.second, t.microsecond]
    else if t.second ≠ 0 then [t.second]
    else []
  let numbers := [t.year, t.month, t.day, t.hour, t.minute] ++ fine
  let zone :=
    match t.offset with
    | some micros => ["tzinfo=" ++ inspectOffset micros]
    | none => []
  call "datetime.datetime" (numbers.map toString ++ zone)

mutual

def inspect : Value → String
  | null => "None"
  | bool true => "True"
  | bool false => "False"
  | integer n => toString n
  | float d => d.text
  | text s => Text.quote s
  | date d => inspectDate d
  | instant t => inspectInstant t
  | list items => "[" ++ String.intercalate ", " (inspectAll items) ++ "]"
  | mapping entries => "\x7b" ++ String.intercalate ", " (inspectEntries entries) ++ "\x7d"

def inspectAll : List Value → List String
  | [] => []
  | v :: rest => v.inspect :: inspectAll rest

def inspectEntries : Entries → List String
  | [] => []
  | (key, v) :: rest => (key.inspect ++ ": " ++ v.inspect) :: inspectEntries rest

end

def toCodes : Value → Codes
  | text s => s
  | date d => .ofChars d.isoText
  | instant t => t.plain
  | v => v.inspect

mutual

def isShowable : Value → Bool
  | integer n => (Text.natDigits n.natAbs).length ≤ Text.maxDigits
  | list items => areShowable items
  | mapping entries => haveShowable entries
  | _ => true

def areShowable : List Value → Bool
  | [] => true
  | v :: rest => v.isShowable && areShowable rest

def haveShowable : Entries → Bool
  | [] => true
  | (key, v) :: rest => key.isShowable && v.isShowable && haveShowable rest

end

end Value

-- Why the text of a document gives no value: it is malformed, or a number in it is too large to go
-- on.
inductive Unread
  | malformed
  | fault (f : Fault)
deriving DecidableEq, Repr

def Unread.expect {α : Type} : Option α → Except Unread α
  | some x => .ok x
  | none => .error .malformed

end Cron
