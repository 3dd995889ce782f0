import Cron.Expr.Basic
import Cron.Layout

-- Reading the text of a column. A text is a list of tokens between commas; a token is
--
--     base / step       with the first slash as the cut
--     value - value     with the first dash as the cut
--     *  or  ?          the whole domain
--     value             a name of the column or a numeral
--
-- where a base is a token of the last three forms. A token is tried against the forms in this
-- order. What follows the first dash is read by a call of its own, so that a token with too many
-- dashes leaves no room for the next call.

namespace Cron

inductive Refusal
  | columnCount (count : Nat)
  | step (text : Codes)
  | stepOfZero (n : Nat)
  | range (text : Codes)
  | value (text : Codes)
  | tooLong (digits : Nat)
  | endpoint (relation : Relation) (text : Codes)
  | width (text : Codes)
  | base (text : Codes)
  | tooDeep
deriving DecidableEq, Repr

def Refusal.message : Refusal → String
  | .columnCount count => s!"Invalid number of fields: {count}. Expected 5 or 6 fields."
  | .step text => s!"Invalid step: {Text.quote text}"
  | .stepOfZero n => s!"Step must be positive: {n}"
  | .range text => s!"Invalid range: {Text.quote text}"
  | .value text => s!"Invalid value: {Text.quote text}"
  | .tooLong digits => Text.tooManyDigits digits
  | .endpoint relation text =>
    s!"Range {relation.name} bound must be a single value: {Text.quote text}"
  | .width text => s!"Step must be a positive value: {Text.quote text}"
  | .base text => s!"Invalid increment base: {Text.quote text}"
  | .tooDeep => Fault.tooDeep.message

-- Whether a text is refused because it is not in the grammar.
def Refusal.isMalformed : Refusal → Bool
  | .tooLong _ | .tooDeep => false
  | _ => true

-- A refusal with the text that was read and, where it is one of several columns, its place.
structure ReadError where
  reason : Refusal
  expression : Codes
  position : Int
deriving DecidableEq, Repr

def ReadError.isMalformed (e : ReadError) : Bool := e.reason.isMalformed

def ReadError.message (e : ReadError) : String := e.reason.message

namespace Layout

def readNumeral (digits : List Char) : Except Refusal Nat :=
  if digits.length ≤ Text.maxDigits then .ok (Text.digitsValue digits)
  else .error (.tooLong digits.length)

-- The integer that a value writes: a name of the column in any case, or a numeral.
def readInteger (l : Layout) (c : Column) (token : Codes) : Except Refusal Int :=
  match token.trim.chars? with
  | none => .error (.value token)
  | some s =>
    let word := s.map capital
    match (l.names c).find? (·.1 == word) with
    | some (_, n) => .ok n
    | none =>
      if Text.isNumeral word then (readNumeral word).map Int.ofNat else .error (.value token)

def readSingle (l : Layout) (c : Column) (token : Codes) : Except Refusal Shape :=
  if token = .ofChars ['*'] ∨ token = .ofChars ['?'] then .ok (.any ())
  else (l.readInteger c token).map fun n => .value () (l.bound c n)

-- A token without slash, given by its pieces between dashes, with room for some nested calls. What
-- follows the first dash is read as a token of its own, and is refused as the end of a range unless
-- it is a single value.
def readSpan (l : Layout) (c : Column) : Nat → List Codes → Except Refusal Shape
  | _, [] => l.readSingle c (.ofChars [])
  | _, [token] => l.readSingle c token
  | 0, _ => .error .tooDeep
  | room + 1, piece :: rest => do
    let low ← l.readSingle c piece
    let high ← l.readSpan c room rest
    if low.isValue && high.isValue then .ok (.range () low high)
    else .error (.range (.join (.ofChars ['-']) (piece :: rest)))

-- The ends of a range take one nested call.
def readBase (l : Layout) (c : Column) (token : Codes) : Except Refusal Shape :=
  l.readSpan c (l.room + 1) (token.pieces '-')

def readWidth (l : Layout) (c : Column) (text : Codes) : Except Refusal Shape :=
  match text.chars? with
  | none => .error (.step text)
  | some s =>
    if Text.isNumeral s then do
      let n ← readNumeral s
      if n = 0 then .error (.stepOfZero n) else .ok (.value () (l.bound c n))
    else .error (.step text)

def readToken (l : Layout) (c : Column) (token : Codes) : Except Refusal Shape :=
  match token.cutAt? '/' with
  | some (base, width) => do
    let base ← l.readBase c base
    let width ← l.readWidth c width
    .ok (.step () base width)
  | none => l.readBase c token

def readShape (l : Layout) (c : Column) (text : Codes) : Except Refusal Shape :=
  match text.pieces ',' with
  | [token] => l.readToken c token
  | tokens => (tokens.mapM (l.readToken c)).map (.list ())

-- The text of a column at a place among the columns, or at -1 if it stands alone.
def read (l : Layout) (c : Column) (text : Codes) (position : Int) : Except ReadError Shape :=
  (l.readShape c text).mapError fun reason => ⟨reason, text, position⟩

end Layout

def aliases : List (String × String) := [
  ("@yearly", "0 0 1 1 * *"),
  ("@annually", "0 0 1 1 * *"),
  ("@monthly", "0 0 1 * * *"),
  ("@weekly", "0 0 * * 0 *"),
  ("@daily", "0 0 * * * *"),
  ("@midnight", "0 0 * * * *"),
  ("@hourly", "0 * * * * *")]

def splitColumns (text : Codes) : Except ReadError (List Codes) :=
  let whole : Codes :=
    match text.word?.bind (aliases.lookup ·) with
    | some columns => columns
    | none => text
  let columns := whole.words
  if 5 ≤ columns.length ∧ columns.length ≤ 6 then .ok columns
  else .error ⟨.columnCount columns.length, text, -1⟩

namespace Layout

def readFrom (l : Layout) : List Column → List Codes → Except ReadError (List Shape)
  | c :: columns, text :: texts => do
    let shape ← l.read c text c.index
    let shapes ← l.readFrom columns texts
    .ok (shape :: shapes)
  | _, _ => .ok []

-- The six columns of a schedule's text; a missing year column is unrestricted.
def readColumns (l : Layout) (text : Codes) : Except ReadError (Columns Shape) := do
  let texts ← splitColumns text
  let shapes ← l.readFrom Column.all texts
  .ok (Columns.of fun c => shapes.getD c.index (.any ()))

end Layout

end Cron
