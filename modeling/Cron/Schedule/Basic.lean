import Cron.English
import Cron.Expr.Read
import Cron.Schedule.Registry
import Cron.Search

-- Schedules: a layout and six expressions whose parts are numbered. The columns have the numbers 1
-- to 6; parts are numbered from 7 on, in the order in which they join the schedule, each before the
-- parts below it.

namespace Cron

structure Schedule where
  layout : Layout
  roots : Columns Part
  registry : Registry
  -- The parts that have left, each with the parts below it, as they are since.
  retired : List Part
  -- What tells the next part that is made from all others.
  nextRef : Nat

namespace Schedule

variable {ι : Type}

-- Puts a part at the root of a column, where it joins with everything below it.
def join (s : Schedule) (c : Column) (part : Part) : Schedule :=
  let joined := part.adopt (some c.id) s.registry
  { s with roots := s.roots.set c joined.1, registry := joined.2 }

def plant (s : Schedule) (c : Column) (e : Expr ι) : Schedule :=
  let made := e.mint (s.layout.domain c) s.nextRef
  { s with nextRef := made.2 }.join c made.1

def bare (l : Layout) : Schedule where
  layout := l
  roots := Columns.of fun c => .any (.blank 0 (l.domain c))
  registry := .empty
  retired := []
  nextRef := 1

-- The schedule of six expressions, which join in the order of the columns.
def ofShapes (l : Layout) (shapes : Columns Shape) : Schedule :=
  Column.all.foldl (fun s c => s.plant c (shapes.get c)) (bare l)

def unrestricted (l : Layout) : Schedule := ofShapes l (Columns.of fun _ => .any ())

def read (l : Layout) (text : Codes) : Except ReadError Schedule :=
  (l.readColumns text).map (ofShapes l)

-- The schedule that a text writes, or the unrestricted one if there is no text.
def read? (l : Layout) : Option Codes → Except ReadError Schedule
  | some text => read l text
  | none => .ok (unrestricted l)

-- What is wrong with a text: nothing, or that it is malformed. There is no answer on a text that
-- is refused for another reason.
def complaints (l : Layout) (text : Codes) : Except ReadError (List String) :=
  match read l text with
  | .ok _ => .ok []
  | .error e => if e.isMalformed then .ok [e.message] else .error e

def isValid (l : Layout) (text : Codes) : Except ReadError Bool :=
  match read l text with
  | .ok _ => .ok true
  | .error e => if e.isMalformed then .ok false else .error e

def root (s : Schedule) (c : Column) : Part := s.roots.get c

def shapes (s : Schedule) : Columns Shape := Columns.of fun c => (s.root c).shape

-- The text of a column. With weekdays numbered from 1 an unrestricted day column is written `?`:
-- the weekday, or the day of the month where the weekday is restricted.
def columnText (s : Schedule) (c : Column) : List Char :=
  let root := s.root c
  if root.isAny && s.layout.dialect == .quartz &&
      (c == .dayOfWeek || (c == .dayOfMonth && !(s.root .dayOfWeek).isAny)) then ['?']
  else root.cron

def cron (s : Schedule) : String :=
  String.ofList (Text.joinWith [' '] (Column.all.map s.columnText))

def inspect (s : Schedule) : String :=
  s!"Schedule({Text.quote s.cron}, dialect={Text.quote s.layout.dialect.name})"

def inspectColumn (c : Column) (e : Expr ι) : String :=
  s!"{c.wording.title}(id={c.id}, {Text.quote e.cronText})"

def human (s : Schedule) (newlines : Bool) : String := s.layout.describeColumns s.roots newlines

-- The search for the first whole minute at or after `t` that the schedule admits.
def search (s : Schedule) (t : Instant) : Except Fault Outcome := s.layout.search s.roots t

-- The first whole minute at or after `t` that the schedule admits, if there is one in reach.
def next? (s : Schedule) (t : Instant) : Except Fault (Option Instant) :=
  (s.search t).map Outcome.instant?

def matchesIn (s : Schedule) (t : Instant) : List Column → Except Fault Bool
  | [] => .ok true
  | c :: rest => do
    if ← s.layout.admits c (s.root c) t then s.matchesIn t rest else .ok false

def matches? (s : Schedule) (t : Instant) : Except Fault Bool := s.matchesIn t Column.all

structure Hunt where
  start : Instant
  outcome : Outcome

def Hunt.notice (s : Schedule) (h : Hunt) : String := h.outcome.notice s.cron h.start

-- Up to `count` searches, each beginning `gap` microseconds past the instant that the one before
-- found; the first that finds nothing is the last.
def hunts (s : Schedule) (gap : Int) : Nat → Instant → Except Fault (List Hunt)
  | 0, _ => .ok []
  | count + 1, start => do
    let outcome ← s.search start
    match outcome.instant? with
    | none => .ok [⟨start, outcome⟩]
    | some t => do
      let after ← t.add gap
      let rest ← s.hunts gap count after
      .ok (⟨start, outcome⟩ :: rest)

-- The first `count` instants at or after `start` that the schedule admits, or all there are.
def nextN (s : Schedule) (count : Nat) (start : Instant) : Except Fault (List Instant) :=
  (s.hunts minuteMicros count start).map fun hunts => hunts.filterMap (·.outcome.instant?)

end Schedule

end Cron
