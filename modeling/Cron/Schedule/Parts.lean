import Cron.Schedule.Basic

-- The parts of a schedule, each with what holds it. A part is found by its number in the registry;
-- its column is found by going from holder to holder.

namespace Cron

inductive EditError
  | unknownPart (id : Int)
  | refused (error : ReadError)
  | exclusive (column other : Column)
  | misplaced (cause : Misplaced)
  | fault (cause : Fault)
deriving DecidableEq, Repr

def exclusiveMessage (column other : Column) : String :=
  s!"{column.name} cannot be set while a {other.lowerName} filter is set"

def unknownPartMessage (id : Int) : String := s!"No live part or field with id {id}"

def EditError.message : EditError → String
  | .unknownPart id => unknownPartMessage id
  | .refused error => error.message
  | .exclusive column other => exclusiveMessage column other
  | .misplaced cause => cause.message
  | .fault cause => cause.message

inductive Holder
  | column (c : Column)
  | part (whole : Part)

structure Description where
  id : Int
  kind : Kind
  column : Column
  domain : Domain
  value : Int
  text : String
  phrase : String
  parent : Option Int
  parentKind : String
  relation : Option String

namespace Schedule

def live (s : Schedule) : List Part := Column.all.flatMap fun c => (s.root c).preorder

def object? (s : Schedule) (ref : Nat) : Option Part :=
  (s.live ++ Expr.preorderAll s.retired).find? (·.label.ref == ref)

def part (s : Schedule) (id : Int) : Except EditError Part :=
  match (s.registry.find? id).bind s.object? with
  | some part => .ok part
  | none => .error (.unknownPart id)

def parts (s : Schedule) : List Part :=
  (s.registry.rows.mergeSort fun a b => a.1 ≤ b.1).filterMap fun row => s.object? row.2

-- The column that is reached from `id` in at most `steps` steps from a part to its holder.
def climb (s : Schedule) (start : Int) : Nat → Option Int → Except EditError Column
  | _, none => .error (.unknownPart start)
  | steps, some id =>
    match Column.ofId? id with
    | some c => .ok c
    | none =>
      match steps with
      | 0 => .error (.unknownPart id)
      | steps + 1 => do
        let part ← s.part id
        s.climb start steps part.label.parent

-- The column that holds a part. No chain of holders is longer than there are live parts.
def columnOf (s : Schedule) (part : Part) : Except EditError Column :=
  s.climb part.label.id s.registry.rows.length part.label.parent

def holderOf (s : Schedule) (part : Part) : Except EditError Holder :=
  match part.label.parent with
  | none => .error (.unknownPart part.label.id)
  | some id =>
    match Column.ofId? id with
    | some c => .ok (.column c)
    | none => (s.part id).map .part

-- The column and the part that a number addresses; the number of a column addresses its root.
def resolve (s : Schedule) (id : Int) : Except EditError (Column × Part) :=
  match Column.ofId? id with
  | some c => .ok (c, s.root c)
  | none => do
    let part ← s.part id
    let c ← s.columnOf part
    .ok (c, part)

def Holder.describe (part : Part) : Holder → String × Option String
  | .column _ => ("field", some "child")
  | .part whole => (whole.kind.name, (part.relationTo? whole).map Relation.name)

def describe (s : Schedule) (id : Int) : Except EditError Description := do
  let (c, part) ← s.resolve id
  let holder ← s.holderOf part
  let (parentKind, relation) := Holder.describe part holder
  .ok {
    id := part.label.id
    kind := part.kind
    column := c
    domain := s.layout.domain c
    value := part.literal
    text := part.cronText
    phrase := s.layout.describe c part
    parent := part.label.parent
    parentKind := parentKind
    relation := relation }

def descriptions (s : Schedule) : List Description :=
  s.parts.filterMap fun part => (s.describe part.label.id).toOption

def legalValues (s : Schedule) (c : Column) : Except Fault (List (Int × String)) :=
  (s.layout.domain c).toList.mapM fun n => (s.layout.nameOf c n).map fun words => (n, words)

end Schedule

end Cron
