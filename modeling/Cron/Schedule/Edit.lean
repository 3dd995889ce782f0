import Cron.Schedule.Parts

-- Editing a schedule. Parts are addressed by number. An edit is a sequence of steps on the
-- schedule: it finds the part, reads the text, checks whether the outcome may stand, and only then
-- changes trees and registry. It ends with a receipt or with an error; the schedule is handed on
-- either way.
--
-- The day of the month and the weekday may not both be restricted by an edit.

namespace Cron

structure Receipt where
  holder : Int
  notice : String
deriving DecidableEq, Repr

def Column.rival? : Column → Option Column
  | .dayOfMonth => some .dayOfWeek
  | .dayOfWeek => some .dayOfMonth
  | _ => none

-- Whether every number in an expression has few enough digits to be written.
def Expr.isWritable {ι : Type} (e : Expr ι) : Bool :=
  e.preorder.all fun part => (Text.natDigits part.literal.natAbs).length ≤ Text.maxDigits

def Expr.written {ι : Type} (e : Expr ι) : Except Fault String :=
  if e.isWritable then .ok e.cronText else .error .tooManyDigits

namespace Schedule

def blockedBy? (s : Schedule) (c : Column) : Option Column :=
  c.rival?.filter fun other => !(s.root other).isAny

def checkExclusive (s : Schedule) (c : Column) (isAny : Bool) : Except EditError Unit :=
  if isAny then .ok ()
  else
    match s.blockedBy? c with
    | some other => .error (.exclusive c other)
    | none => .ok ()

def readEdit (s : Schedule) (c : Column) (text : Codes) : Except EditError Shape :=
  (s.layout.read c text (-1)).mapError .refused

def written (s : Schedule) (c : Column) : Except EditError String :=
  (s.root c).written.mapError .fault

def leave (s : Schedule) (part : Part) : Schedule :=
  let left := part.retire s.registry
  { s with registry := left.2, retired := s.retired ++ [left.1] }

def numberOf (s : Schedule) (ref : Nat) : Int := (s.object? ref).elim 0 (·.label.id)

def checkFits (part whole : Part) (new : Shape) (text : Codes) : Except EditError Unit :=
  let refuse (reason : Refusal) : Except EditError Unit := .error (.refused ⟨reason, text, -1⟩)
  match part.relationTo? whole with
  | some .lower => if new.isValue then .ok () else refuse (.endpoint .lower text)
  | some .upper => if new.isValue then .ok () else refuse (.endpoint .upper text)
  | some .step => if new.isValue && 0 < new.literal then .ok () else refuse (.width text)
  | some .base =>
    match new.kind with
    | .any | .value | .range => .ok ()
    | .step | .list => refuse (.base text)
  | _ => .ok ()

end Schedule

abbrev EditM := EStateM EditError Schedule

namespace EditM

variable {α ι : Type}

def ask (question : Schedule → Except EditError α) : EditM α := fun s =>
  match question s with
  | .ok answer => .ok answer s
  | .error e => .error e s

-- New parts are made for a column, whose domain they carry.
def makeTag (c : Column) : EditM Tag := fun s =>
  .ok (.blank s.nextRef (s.layout.domain c)) { s with nextRef := s.nextRef + 1 }

def make (c : Column) (e : Expr ι) : EditM Part := fun s =>
  let made := e.mint (s.layout.domain c) s.nextRef
  .ok made.1 { s with nextRef := made.2 }

def makeAll (c : Column) (es : List (Expr ι)) : EditM (List Part) := fun s =>
  let made := Expr.mintAll (s.layout.domain c) s.nextRef es
  .ok made.1 { s with nextRef := made.2 }

def joinAt (c : Column) (part : Part) : EditM Unit := modify (·.join c part)

def dismiss (part : Part) : EditM Unit := modify (·.leave part)

def put (part : Part) : EditM Unit :=
  modify fun s => { s with roots := s.roots.map (Expr.put part) }

def rejoin (part : Part) : EditM Unit := modify fun s =>
  { s with
    roots := s.roots.map (Expr.put (part.adopt part.label.parent s.registry).1)
    registry := (part.adopt part.label.parent s.registry).2 }

def append (t : Tag) (members added : List Part) : EditM Unit := modify fun s =>
  { s with
    roots := s.roots.map (Expr.put
      (.list t (members ++ (Expr.adoptAll (some t.id) s.registry added).1)))
    registry := (Expr.adoptAll (some t.id) s.registry added).2 }

end EditM

namespace Schedule

open EditM

-- What holds the parts that were added below `whole`: a single one holds itself.
def holderAmong (added : List Part) (whole : Tag) : Nat :=
  match added with
  | [part] => part.label.ref
  | _ => whole.ref

-- Puts a new expression in the place of the root of a column; gives the new root.
def replant {ι : Type} (c : Column) (old : Part) (new : Expr ι) : EditM Nat := do
  let part ← make c new
  dismiss old
  joinAt c part
  pure part.label.ref

-- Adds an expression to the list of a column, which gains members; gives what holds them.
def extend (c : Column) (t : Tag) (members : List Part) (new : Shape) : EditM Nat := do
  let added ← makeAll c new.members
  append t members added
  pure (holderAmong added t)

-- Makes the root of a column the first member of a list, with others after it.
def enlist (c : Column) (root : Part) (new : Shape) : EditM Nat := do
  let t ← makeTag c
  let added ← makeAll c new.members
  joinAt c (.list t (root :: added))
  pure (holderAmong added t)

-- Adds an expression to a column with a given root; gives the part that holds it. An unrestricted
-- column takes the expression, a list gains members, and any other root becomes the first member of
-- a list.
def graft (c : Column) (root : Part) (new : Shape) : EditM Nat :=
  match root with
  | .any _ => replant c root new
  | .list t members => extend c t members new
  | _ => enlist c root new

-- Puts a new expression in the place of a part of a column below another one; gives what holds it.
def substitute (c : Column) (part whole : Part) (new : Shape) : EditM Nat := do
  let made ← make c new
  let changed ← ask fun _ => (whole.exchange part made).mapError .misplaced
  put changed
  dismiss part
  rejoin changed
  pure (if new.kind = .list ∧ whole.kind = .list then whole.label.ref else made.label.ref)

-- Leaves a list that has one member left or none: the member becomes the root of the column.
def collapse (c : Column) (t : Tag) (members : List Part) : EditM Unit := do
  let survivor ←
    match members with
    | member :: _ => pure member
    | [] => make c (Expr.any ())
  dismiss (.list t [])
  joinAt c survivor

def prune (c : Column) (part whole : Part) : EditM Unit := do
  let rest ← ask fun _ => (whole.withdraw part).mapError .misplaced
  put rest
  dismiss part
  if rest.children.length ≤ 1 then collapse c whole.label rest.children

def add (id : Int) (text : Codes) : EditM Receipt := do
  let (c, target) ← ask (·.resolve id)
  let new ← ask (·.readEdit c text)
  let root ← ask fun s => .ok (s.root c)
  ask (·.checkExclusive c (root.isAny && new.isAny))
  let holder ← graft c root new
  let shown ← ask (·.written c)
  let holder ← ask fun s => .ok (s.numberOf holder)
  pure {
    holder := holder
    notice := s!"Added {Text.quote text} to {c.name} (target {target.label.id}): {shown}" }

-- The checks and changes of a replacement; gives the part that holds what was written.
def replaceBelow (c : Column) (part : Part) (new : Shape) (text : Codes) : Holder → EditM Nat
  | .column _ => do
    ask (·.checkExclusive c new.isAny)
    replant c part new
  | .part whole => do
    ask fun _ => checkFits part whole new text
    ask (·.checkExclusive c false)
    substitute c part whole new

def replace (id : Int) (text : Codes) : EditM Receipt := do
  let (c, target) ← ask (·.resolve id)
  let new ← ask (·.readEdit c text)
  let parent ← ask (·.holderOf target)
  let holder ← replaceBelow c target new text parent
  let shown ← ask (·.written c)
  let holder ← ask fun s => .ok (s.numberOf holder)
  pure { holder := holder, notice := s!"Replaced part {id} of {c.name}: {shown}" }

def removed (id : Int) (c : Column) : EditM Receipt := do
  let shown ← ask (·.written c)
  let root ← ask fun s => .ok (s.root c).label.id
  pure { holder := root, notice := s!"Removed part {id} from {c.name}: {shown}" }

-- Removes a part. A root becomes unrestricted; a list that keeps a single member becomes this
-- member, and one that keeps none becomes unrestricted. An end of a range and an operand of a step
-- leave with the whole range or step, which is at most `steps` holders up.
def removeWithin (steps : Nat) (id : Int) : EditM Receipt := do
  let (c, target) ← ask (·.resolve id)
  match ← ask (·.holderOf target) with
  | .column _ => do
    let _ ← replant c target (Expr.any ())
    removed id c
  | .part whole =>
    if whole.kind = .list then do
      prune c target whole
      removed id c
    else
      match steps with
      | 0 => throw (.unknownPart whole.label.id)
      | steps + 1 => removeWithin steps whole.label.id

-- Removes a part, with the range or step that cannot do without it.
def remove (id : Int) : EditM Receipt := do
  let steps ← ask fun s => .ok s.registry.rows.length
  removeWithin steps id

end Schedule

inductive Edit
  | add (id : Int) (text : Codes)
  | replace (id : Int) (text : Codes)
  | remove (id : Int)
deriving DecidableEq, Repr

def Edit.run : Edit → EditM Receipt
  | .add id text => Schedule.add id text
  | .replace id text => Schedule.replace id text
  | .remove id => Schedule.remove id

def Schedule.after (s : Schedule) (e : Edit) : Schedule :=
  match e.run s with
  | .ok _ s => s
  | .error _ s => s

end Cron
