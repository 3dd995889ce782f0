import Cron.Expr.Basic
import Cron.Layout

namespace Cron.Layout

variable {ι : Type}

def joinPhrases : List String → String
  | [] => ""
  | [phrase] => phrase
  | phrases => String.intercalate ", " phrases.dropLast ++ " and " ++ phrases.getLastD ""

def valuePhrase (l : Layout) (c : Column) (n : Int) : String :=
  withEnding c s!"{c.wording.before}{c.wording.article}{l.valueName c n}"

def everyPhrase (c : Column) (width : Int) : String :=
  if width = 1 then s!"every {c.wording.unit}" else s!"every {ordinalText width} {c.wording.unit}"

def stepPhrase (l : Layout) (c : Column) (base width : Expr ι) (basePhrase : String) : String :=
  let every := everyPhrase c width.literal
  match base with
  | .any _ => every
  | .value _ n => s!"{every} starting {l.valuePhrase c n}"
  | _ => s!"{every} {basePhrase}"

mutual

def describe (l : Layout) (c : Column) : Expr ι → String
  | .any _ => c.wording.free
  | .value _ n => l.valuePhrase c n
  | .range _ low high => l.between c low.literal high.literal
  | .step _ base width => l.stepPhrase c base width (l.describe c base)
  | .list _ members => joinPhrases ((l.describeAll c members).filter (!·.isEmpty))

def describeAll (l : Layout) (c : Column) : List (Expr ι) → List String
  | [] => []
  | e :: rest => l.describe c e :: l.describeAll c rest

end

theorem describeAll_eq_map (l : Layout) (c : Column) (es : List (Expr ι)) :
    l.describeAll c es = es.map (l.describe c) := by
  induction es with
  | nil => rfl
  | cons e rest ih => rw [describeAll, ih, List.map_cons]

-- The description of a schedule: the phrases of the columns that have one.
def describeColumns (l : Layout) (roots : Columns (Expr ι)) (newlines : Bool) : String :=
  let phrases := Column.all.map fun c =>
    String.ofList (Text.trim (l.describe c (roots.get c)).toList)
  String.intercalate (if newlines then "\n" else " ") (phrases.filter (!·.isEmpty))

end Cron.Layout
