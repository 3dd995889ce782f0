import Cron.Expr.Basic

-- The values of an expression. `next?` looks for the least value at or after a start and answers in
-- one integer: an answer `r` with `start ≤ r` is that value; an answer below `start` says that none
-- is left, and its absolute value is the least value of the next cycle.
--
-- No answer at all is given only where a step of width zero would have to be counted.

namespace Cron.Expr

variable {ι : Type}

def leastOr (fallback : Int) (ns : List Int) : Int := ns.min?.getD fallback

def greatestOr (fallback : Int) (ns : List Int) : Int := ns.max?.getD fallback

mutual

def floor (d : Domain) : Expr ι → Int
  | any _ => d.lower
  | value _ n => n
  | range _ low _ => low.floor d
  | step _ base _ => base.floor d
  | list _ members => leastOr d.lower (floorAll d members)

def floorAll (d : Domain) : List (Expr ι) → List Int
  | [] => []
  | e :: rest => e.floor d :: floorAll d rest

end

-- The last value that `first`, `first + width`, … reaches without passing `top`.
def lastStep? (first width top : Int) : Option Int :=
  if width = 0 then none else some (first + (top - first).fdiv width * width)

-- The first value at or after `start` that `first`, `first + width`, … reaches.
def stepFrom? (first width start : Int) : Option Int :=
  if width = 0 then none else some (first + -((-(start - first)).fdiv width) * width)

mutual

def ceiling? (d : Domain) : Expr ι → Option Int
  | any _ => some d.upper
  | value _ n => some n
  | range _ low high =>
    match high.ceiling? d with
    | some top => some (if top < low.floor d then d.upper else top)
    | none => none
  | step _ base width =>
    match base.ceiling? d with
    | some top => lastStep? (base.floor d) width.literal top
    | none => none
  | list _ members => (ceilingAll? d members).map (greatestOr d.upper)

def ceilingAll? (d : Domain) : List (Expr ι) → Option (List Int)
  | [] => some []
  | e :: rest =>
    match e.ceiling? d, ceilingAll? d rest with
    | some top, some tops => some (top :: tops)
    | _, _ => none

end

-- Whether a range passes over the ends of the domain; `false` for every other form.
def wraps? (d : Domain) : Expr ι → Option Bool
  | range _ low high => (high.ceiling? d).map (· < low.floor d)
  | _ => some false

def rangeNext (low high start : Int) : Int :=
  if high < low then
    if start ≤ high ∨ low ≤ start then start else low
  else if start < low then low
  else if high < start then -low
  else start

def unionNext (start : Int) (answers : List Int) : Int :=
  match answers with
  | [] => start
  | answer :: rest =>
    match (answers.filter (start ≤ ·)).min? with
    | some hit => hit
    | none => -leastOr 0 ((answer :: rest).map fun r => (r.natAbs : Int))

mutual

-- The least value at or after `start`, or a smaller answer if none is left.
def next? (d : Domain) (start : Int) : Expr ι → Option Int
  | any _ => some start
  | value _ n => some (if start ≤ n then n else -n)
  | range _ low high => (high.ceiling? d).map fun top => rangeNext (low.floor d) top start
  | step _ base width =>
    let first := base.floor d
    if start ≤ first then some first
    else
      match stepFrom? first width.literal start, base.ceiling? d with
      | some candidate, some top => some (if top < candidate then -first else candidate)
      | _, _ => none
  | list _ members => (nextAll? d start members).map (unionNext start)

def nextAll? (d : Domain) (start : Int) : List (Expr ι) → Option (List Int)
  | [] => some []
  | e :: rest =>
    match e.next? d start, nextAll? d start rest with
    | some answer, some answers => some (answer :: answers)
    | _, _ => none

end

def matches? (d : Domain) (n : Int) (e : Expr ι) : Option Bool := (e.next? d n).map (· == n)

theorem floorAll_eq_map (d : Domain) (es : List (Expr ι)) : floorAll d es = es.map (·.floor d) := by
  induction es with
  | nil => rfl
  | cons e rest ih => rw [floorAll, ih, List.map_cons]

end Cron.Expr
