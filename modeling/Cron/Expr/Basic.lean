import Cron.Domain
import Cron.Text.Blank
import Cron.Text.Digit

-- Column expressions. An expression is a small tree over the integers of a column:
--
--     10-30/5,45   is   list [step (range 10 30) 5, value 45]
--
-- Every node carries a label. Labels are what a schedule addresses parts by; `shape` forgets them.

namespace Cron

inductive Expr (ι : Type) where
  | any (label : ι)
  | value (label : ι) (n : Int)
  -- From `low` up to `high`; around the ends of the domain if `low` is above `high`.
  | range (label : ι) (low high : Expr ι)
  -- From the first integer of `base` on in steps of `width`.
  | step (label : ι) (base width : Expr ι)
  | list (label : ι) (members : List (Expr ι))

instance {ι : Type} [Inhabited ι] : Inhabited (Expr ι) := ⟨.any default⟩

abbrev Shape := Expr Unit

inductive Kind
  | any
  | value
  | range
  | step
  | list
deriving DecidableEq, Repr

def Kind.name : Kind → String
  | .any => "wildcard"
  | .value => "literal"
  | .range => "range"
  | .step => "increment"
  | .list => "compound"

def Kind.title : Kind → String
  | .any => "Wildcard"
  | .value => "Literal"
  | .range => "Range"
  | .step => "Increment"
  | .list => "Compound"

inductive Relation
  | lower
  | upper
  | base
  | step
  | member
deriving DecidableEq, Repr

def Relation.name : Relation → String
  | .lower => "lower"
  | .upper => "upper"
  | .base => "base"
  | .step => "step"
  | .member => "member"

namespace Expr

variable {ι κ : Type}

def label : Expr ι → ι
  | any l | value l _ | range l _ _ | step l _ _ | list l _ => l

def kind : Expr ι → Kind
  | any _ => .any
  | value _ _ => .value
  | range _ _ _ => .range
  | step _ _ _ => .step
  | list _ _ => .list

def isAny (e : Expr ι) : Bool := e.kind == .any
def isValue (e : Expr ι) : Bool := e.kind == .value

-- The integer of a single value, and 0 for every other form.
def literal : Expr ι → Int
  | value _ n => n
  | _ => 0

def children : Expr ι → List (Expr ι)
  | any _ | value _ _ => []
  | range _ low high => [low, high]
  | step _ base width => [base, width]
  | list _ members => members

def relation? : Expr ι → Nat → Option Relation
  | range _ _ _, 0 => some .lower
  | range _ _ _, 1 => some .upper
  | step _ _ _, 0 => some .base
  | step _ _ _, 1 => some .step
  | list _ members, i => if i < members.length then some .member else none
  | _, _ => none

def get? (e : Expr ι) : List Nat → Option (Expr ι)
  | [] => some e
  | i :: path =>
    match e.children[i]? with
    | some child => child.get? path
    | none => none

mutual

-- The parts of an expression, each before the parts below it.
def preorder : Expr ι → List (Expr ι)
  | any l => [any l]
  | value l n => [value l n]
  | range l low high => range l low high :: (low.preorder ++ high.preorder)
  | step l base width => step l base width :: (base.preorder ++ width.preorder)
  | list l members => list l members :: preorderAll members

def preorderAll : List (Expr ι) → List (Expr ι)
  | [] => []
  | e :: rest => e.preorder ++ preorderAll rest

end

mutual

def map (f : ι → κ) : Expr ι → Expr κ
  | any l => any (f l)
  | value l n => value (f l) n
  | range l low high => range (f l) (low.map f) (high.map f)
  | step l base width => step (f l) (base.map f) (width.map f)
  | list l members => list (f l) (mapAll f members)

def mapAll (f : ι → κ) : List (Expr ι) → List (Expr κ)
  | [] => []
  | e :: rest => e.map f :: mapAll f rest

end

def shape (e : Expr ι) : Shape := e.map fun _ => ()

mutual

def cron : Expr ι → List Char
  | any _ => ['*']
  | value _ n => Text.intDigits n
  | range _ low high => low.cron ++ '-' :: high.cron
  | step _ base width => base.cron ++ '/' :: width.cron
  | list _ members => Text.joinWith [','] (cronAll members)

def cronAll : List (Expr ι) → List (List Char)
  | [] => []
  | e :: rest => e.cron :: cronAll rest

end

def cronText (e : Expr ι) : String := String.ofList e.cron

def members : Expr ι → List (Expr ι)
  | list _ ms => ms
  | e => [e]

theorem mapAll_eq_map (f : ι → κ) (es : List (Expr ι)) : mapAll f es = es.map (·.map f) := by
  induction es with
  | nil => rfl
  | cons e rest ih => rw [mapAll, ih, List.map_cons]

theorem cronAll_eq_map (es : List (Expr ι)) : cronAll es = es.map (·.cron) := by
  induction es with
  | nil => rfl
  | cons e rest ih => rw [cronAll, ih, List.map_cons]

theorem preorderAll_eq_flatMap (es : List (Expr ι)) : preorderAll es = es.flatMap (·.preorder) := by
  induction es with
  | nil => rfl
  | cons e rest ih => rw [preorderAll, ih, List.flatMap_cons]

end Expr

end Cron
