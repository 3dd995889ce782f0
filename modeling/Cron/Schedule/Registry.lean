import Cron.Expr.Edit

-- The parts of a schedule and their numbers. Every part carries a tag: which part it is, the number
-- it has been given, the number of what holds it, and the integers that it ranges over. A registry
-- tells which parts are live, each under its number, and which number is given next.
--
-- Parts join and leave with everything below them. A part that joins again keeps its number; a part
-- that leaves is struck off and forgets what held it.

namespace Cron

structure Tag where
  -- What tells the part from every other part that was ever made.
  ref : Nat
  -- The number that the part was given, 0 before that.
  id : Int
  -- The number of what holds the part; none before it joins and after it has left.
  parent : Option Int
  -- The domain of the column that the part was made for.
  domain : Domain
deriving DecidableEq, Repr

def Tag.blank (ref : Nat) (domain : Domain) : Tag := ⟨ref, 0, none, domain⟩

abbrev Part := Expr Tag

-- The number of the first part; smaller ones belong to the columns.
def firstPartId : Int := 7

structure Registry where
  rows : List (Int × Nat)
  nextId : Int
deriving DecidableEq, Repr

namespace Registry

def empty : Registry := ⟨[], firstPartId⟩

def find? (r : Registry) (id : Int) : Option Nat := r.rows.lookup id

def holds (r : Registry) (t : Tag) : Bool := r.find? t.id == some t.ref

def add (r : Registry) (ref : Nat) : Registry := ⟨r.rows ++ [(r.nextId, ref)], r.nextId + 1⟩

def erase (r : Registry) (id : Int) : Registry := { r with rows := r.rows.filter (·.1 != id) }

def enroll (r : Registry) (parent : Option Int) (t : Tag) : Tag × Registry :=
  if r.holds t then ({ t with parent := parent }, r)
  else ({ t with id := r.nextId, parent := parent }, r.add t.ref)

def dismiss (r : Registry) (t : Tag) : Tag × Registry :=
  ({ t with parent := none }, if r.holds t then r.erase t.id else r)

end Registry

namespace Expr

variable {ι : Type}

mutual

-- Makes parts of an expression, the first of them with `next`; gives the first that is left.
def mint (d : Domain) (next : Nat) : Expr ι → Part × Nat
  | any _ => (any (.blank next d), next + 1)
  | value _ n => (value (.blank next d) n, next + 1)
  | range _ low high =>
    let l := low.mint d (next + 1)
    let h := high.mint d l.2
    (range (.blank next d) l.1 h.1, h.2)
  | step _ base width =>
    let b := base.mint d (next + 1)
    let w := width.mint d b.2
    (step (.blank next d) b.1 w.1, w.2)
  | list _ members =>
    let ms := mintAll d (next + 1) members
    (list (.blank next d) ms.1, ms.2)

def mintAll (d : Domain) (next : Nat) : List (Expr ι) → List Part × Nat
  | [] => ([], next)
  | e :: rest =>
    let first := e.mint d next
    let others := mintAll d first.2 rest
    (first.1 :: others.1, others.2)

end

mutual

-- Lets an expression join below `parent`, each part before the parts below it.
def adopt (parent : Option Int) (r : Registry) : Part → Part × Registry
  | any t =>
    let t := r.enroll parent t
    (any t.1, t.2)
  | value t n =>
    let t := r.enroll parent t
    (value t.1 n, t.2)
  | range t low high =>
    let t := r.enroll parent t
    let l := low.adopt (some t.1.id) t.2
    let h := high.adopt (some t.1.id) l.2
    (range t.1 l.1 h.1, h.2)
  | step t base width =>
    let t := r.enroll parent t
    let b := base.adopt (some t.1.id) t.2
    let w := width.adopt (some t.1.id) b.2
    (step t.1 b.1 w.1, w.2)
  | list t members =>
    let t := r.enroll parent t
    let ms := adoptAll (some t.1.id) t.2 members
    (list t.1 ms.1, ms.2)

def adoptAll (parent : Option Int) (r : Registry) : List Part → List Part × Registry
  | [] => ([], r)
  | e :: rest =>
    let first := e.adopt parent r
    let others := adoptAll parent first.2 rest
    (first.1 :: others.1, others.2)

end

mutual

def retire (r : Registry) : Part → Part × Registry
  | any t =>
    let t := r.dismiss t
    (any t.1, t.2)
  | value t n =>
    let t := r.dismiss t
    (value t.1 n, t.2)
  | range t low high =>
    let t := r.dismiss t
    let l := low.retire t.2
    let h := high.retire l.2
    (range t.1 l.1 h.1, h.2)
  | step t base width =>
    let t := r.dismiss t
    let b := base.retire t.2
    let w := width.retire b.2
    (step t.1 b.1 w.1, w.2)
  | list t members =>
    let t := r.dismiss t
    let ms := retireAll t.2 members
    (list t.1 ms.1, ms.2)

def retireAll (r : Registry) : List Part → List Part × Registry
  | [] => ([], r)
  | e :: rest =>
    let first := e.retire r
    let others := retireAll first.2 rest
    (first.1 :: others.1, others.2)

end

mutual

-- The expression after one of its parts has become `new`: the part with the same `ref`.
def put (new : Part) : Part → Part
  | any t => if t.ref = new.label.ref then new else any t
  | value t n => if t.ref = new.label.ref then new else value t n
  | range t low high =>
    if t.ref = new.label.ref then new else range t (put new low) (put new high)
  | step t base width =>
    if t.ref = new.label.ref then new else step t (put new base) (put new width)
  | list t members => if t.ref = new.label.ref then new else list t (putAll new members)

def putAll (new : Part) : List Part → List Part
  | [] => []
  | e :: rest => put new e :: putAll new rest

end

def position? (whole part : Part) : Option Nat :=
  whole.children.findIdx? (·.label.ref == part.label.ref)

def relationTo? (part whole : Part) : Option Relation :=
  (whole.position? part).bind whole.relation?

-- Why a part cannot be exchanged below another one where it does not stand.
def stray (part whole : Part) : Misplaced := misplaced part.label.id whole.label.id part whole

-- A part with `new` in place of `part` directly below it; lists stay flat.
def exchange (whole part new : Part) : Except Misplaced Part :=
  match whole.position? part with
  | some i => .ok (whole.replaceChild i new)
  | none => .error (stray part whole)

def withdraw (whole part : Part) : Except Misplaced Part :=
  match whole.position? part with
  | some i => .ok (whole.eraseChild i)
  | none => .error (stray part whole)

end Expr

end Cron
