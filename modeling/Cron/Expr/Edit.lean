import Cron.Expr.Basic
import Cron.Text.Quoted

-- Changing an expression at a place. A place is a path of child positions from the root. Lists stay
-- flat: a list put among the members of a list gives way to its own members.

namespace Cron

inductive Misplaced
  | childless (kind : Kind)
  | endpoint (part whole : String)
  | operand (part whole : String)
  | member (part whole : String)
deriving DecidableEq, Repr

def Misplaced.message : Misplaced → String
  | .childless kind => s!"{kind.title} has no children to replace"
  | .endpoint part whole => s!"{part} is not an endpoint of {whole}"
  | .operand part whole => s!"{part} is not an operand of {whole}"
  | .member part whole => s!"{part} is not a member of {whole}"

namespace Expr

variable {ι : Type}

def inspect (id : Int) (e : Expr ι) : String :=
  s!"{e.kind.title}({Text.quote e.cronText}, id={id})"

-- The expression with another child at a position, a list of its own if it is one.
def putChild (e : Expr ι) (i : Nat) (child : Expr ι) : Expr ι :=
  match e, i with
  | range l _ high, 0 => range l child high
  | range l low _, 1 => range l low child
  | step l _ width, 0 => step l child width
  | step l base _, 1 => step l base child
  | list l ms, i => list l (ms.set i child)
  | e, _ => e

-- The expression with `new` in place of the child at a position; lists stay flat.
def replaceChild (e : Expr ι) (i : Nat) (new : Expr ι) : Expr ι :=
  match e with
  | list l ms => list l (ms.take i ++ new.members ++ ms.drop (i + 1))
  | e => e.putChild i new

def eraseChild : Expr ι → Nat → Expr ι
  | list l ms, i => list l (ms.eraseIdx i)
  | e, _ => e

def updateAt (f : Expr ι → Expr ι) (e : Expr ι) : List Nat → Expr ι
  | [] => f e
  | i :: path =>
    match e.children[i]? with
    | some child => e.putChild i (child.updateAt f path)
    | none => e

def misplaced (partId wholeId : Int) (part whole : Expr ι) : Misplaced :=
  match whole.kind with
  | .any | .value => .childless whole.kind
  | .range => .endpoint (part.inspect partId) (whole.inspect wholeId)
  | .step => .operand (part.inspect partId) (whole.inspect wholeId)
  | .list => .member (part.inspect partId) (whole.inspect wholeId)

end Expr

end Cron
