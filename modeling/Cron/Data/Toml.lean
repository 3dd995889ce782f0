import Cron.Data.Value
import Cron.Number.Literal

-- TOML documents of tables whose values are texts in one line, integers, floating-point numbers and
-- truth values. A key is given a value once, and a table is declared once.

namespace Cron.Toml

def isSpace (c : Char) : Bool := c = ' ' || c = '\t'

def skip (s : List Char) : List Char := s.dropWhile isSpace

def isControl (c : Char) : Bool := c ≠ '\t' && (c.toNat < 0x20 || c.toNat = 0x7F)

def isBare (c : Char) : Bool :=
  ('a' ≤ c && c ≤ 'z') || ('A' ≤ c && c ≤ 'Z') || Text.isAsciiDigit c || c = '-' || c = '_'

def literal? : List Char → Option (List Char × List Char)
  | [] => none
  | c :: rest =>
    if c = '\'' then some ([], rest)
    else if isControl c then none
    else (literal? rest).map fun (s, rest) => (c :: s, rest)

def escape? : Char → Option Char
  | 'b' => some '\x08'
  | 't' => some '\t'
  | 'n' => some '\n'
  | 'f' => some '\x0c'
  | 'r' => some '\r'
  | '"' => some '"'
  | '\\' => some '\\'
  | _ => none

def coded? (digits : List Char) : Option Char :=
  match Text.numberIn? 16 digits with
  | some n => if n.isValidChar then some (Char.ofNat n) else none
  | none => none

def basic? : List Char → Option (List Char × List Char)
  | [] => none
  | '"' :: rest => some ([], rest)
  | '\\' :: 'u' :: a :: b :: c :: d :: rest => do
    let c ← coded? [a, b, c, d]
    let (s, rest) ← basic? rest
    return (c :: s, rest)
  | '\\' :: 'U' :: a :: b :: c :: d :: e :: f :: g :: h :: rest => do
    let c ← coded? [a, b, c, d, e, f, g, h]
    let (s, rest) ← basic? rest
    return (c :: s, rest)
  | '\\' :: c :: rest => do
    let c ← escape? c
    let (s, rest) ← basic? rest
    return (c :: s, rest)
  | c :: rest => do
    if isControl c then none
    else do
      let (s, rest) ← basic? rest
      return (c :: s, rest)

def keyPart? (s : List Char) : Option (String × List Char) :=
  match s with
  | '\'' :: rest => (literal? rest).map fun (s, rest) => (String.ofList s, rest)
  | '"' :: rest => (basic? rest).map fun (s, rest) => (String.ofList s, rest)
  | s =>
    let part := s.takeWhile isBare
    if part.isEmpty then none else some (String.ofList part, s.dropWhile isBare)

-- The parts of a key with points between them, and what follows; `fuel` bounds their number.
def key? : Nat → List Char → Option (List String × List Char)
  | 0, _ => none
  | fuel + 1, s => do
    let (part, rest) ← keyPart? s
    match skip rest with
    | '.' :: rest =>
      let (parts, rest) ← key? fuel (skip rest)
      return (part :: parts, rest)
    | rest => return ([part], rest)

-- Digits with single underscores between them at the beginning of a text, and what follows.
def takeDigits (isDigit : Char → Bool) : List Char → List Char × List Char
  | c :: '_' :: d :: rest =>
    if isDigit c && isDigit d then
      let (digits, rest) := takeDigits isDigit (d :: rest)
      (c :: digits, rest)
    else if isDigit c then ([c], '_' :: d :: rest)
    else ([], c :: '_' :: d :: rest)
  | c :: rest =>
    if isDigit c then
      let (digits, rest) := takeDigits isDigit rest
      (c :: digits, rest)
    else ([], c :: rest)
  | [] => ([], [])

def base? : Char → Option Nat
  | 'x' => some 16
  | 'o' => some 8
  | 'b' => some 2
  | _ => none

def based? : List Char → Option (Value × List Char)
  | '0' :: letter :: rest => do
    let base ← base? letter
    let (digits, rest) := takeDigits (fun c => (Text.hexValue? c).any (· < base)) rest
    if digits.isEmpty then none
    else do
      let n ← Text.numberIn? base digits
      return (.integer n, rest)
  | _ => none

-- The digits of a fraction, and what follows; nothing where no point and digit stand.
def fraction (s : List Char) : List Char × List Char :=
  match s with
  | '.' :: rest =>
    match takeDigits Text.isAsciiDigit rest with
    | ([], _) => ([], s)
    | read => read
  | _ => ([], s)

def power? (s : List Char) : Option (Int × List Char) :=
  match s with
  | mark :: rest =>
    if mark = 'e' || mark = 'E' then
      let (negative, rest) := Text.takeSign rest
      match takeDigits Text.isAsciiDigit rest with
      | ([], _) => none
      | (digits, rest) =>
        let n : Int := Text.digitsValue digits
        some (if negative then -n else n, rest)
    else none
  | [] => none

def decimal? (negative : Bool) (s : List Char) : Option (Value × List Char) :=
  let (whole, rest) :=
    match s with
    | '0' :: rest => (['0'], rest)
    | s => takeDigits Text.isAsciiDigit s
  let (fraction, rest) := fraction rest
  if whole.isEmpty then none
  else
    match power? rest with
    | some (power, rest) =>
      some (.float (.ofDecimal negative (whole ++ fraction) (power - fraction.length)), rest)
    | none =>
      if !fraction.isEmpty then
        some (.float (.ofDecimal negative (whole ++ fraction) (-fraction.length)), rest)
      else if Text.maxDigits < whole.length then none
      else
        let n : Int := Text.digitsValue whole
        some (.integer (if negative then -n else n), rest)

def words : List (String × Value) := [
  ("true", .bool true), ("false", .bool false), ("inf", .float (.infinite false)),
  ("+inf", .float (.infinite false)), ("-inf", .float (.infinite true)), ("nan", .float .nan),
  ("+nan", .float .nan), ("-nan", .float .nan)]

def value? (s : List Char) : Option (Value × List Char) :=
  match words.find? fun (word, _) => word.toList.isPrefixOf s with
  | some (word, v) => some (v, s.drop word.length)
  | none =>
    match s with
    | '\'' :: rest => (literal? rest).map fun (s, rest) => (.text (.ofChars s), rest)
    | '"' :: rest => (basic? rest).map fun (s, rest) => (.text (.ofChars s), rest)
    | s =>
      match based? s with
      | some read => some read
      | none =>
        let (negative, rest) := Text.takeSign s
        decimal? negative rest

inductive Statement
  | table (key : List String)
  | entry (key : List String) (value : Value)

def statement? (s : List Char) : Option (Statement × List Char) := do
  match s with
  | '[' :: rest =>
    let (key, rest) ← key? (s.length + 1) (skip rest)
    match rest with
    | ']' :: rest => return (.table key, rest)
    | _ => none
  | s =>
    let (key, rest) ← key? (s.length + 1) s
    match rest with
    | '=' :: rest =>
      let (v, rest) ← value? (skip rest)
      return (.entry key v, rest)
    | _ => none

def isComment : List Char → Bool
  | [] => true
  | c :: rest => c = '#' && !rest.any isControl

def line? (s : List Char) : Option (Option Statement) :=
  let s := skip s
  if isComment s then some none
  else do
    let (said, rest) ← statement? s
    if isComment (skip rest) then some (some said) else none

def find? (key : String) (entries : Entries) : Option Value :=
  (entries.find? fun (k, _) => k == (key : Value)).map (·.2)

def set (key : String) (v : Value) (entries : Entries) : Entries :=
  Value.put (key : Value) v entries

-- The entries with a table under a path of keys, which may be there already.
def addTable? : List String → Entries → Option Entries
  | [], entries => some entries
  | key :: path, entries =>
    match find? key entries with
    | none => (addTable? path []).map fun inner => set key (.mapping inner) entries
    | some (.mapping inner) =>
      (addTable? path inner).map fun inner => set key (.mapping inner) entries
    | some _ => none

def addValue? : List String → Value → Entries → Option Entries
  | [], _, _ => none
  | [key], v, entries => if (find? key entries).isSome then none else some (set key v entries)
  | key :: path, v, entries =>
    match find? key entries with
    | none => (addValue? path v []).map fun inner => set key (.mapping inner) entries
    | some (.mapping inner) =>
      (addValue? path v inner).map fun inner => set key (.mapping inner) entries
    | some _ => none

structure Reading where
  entries : Entries
  current : List String
  closed : List (List String)
  dotted : List (List String)

namespace Reading

def empty : Reading := ⟨[], [], [], []⟩

-- The beginnings of a path that are longer than `base` and shorter than the whole.
def inner (base : Nat) (path : List String) : List (List String) :=
  (List.range path.length).filterMap fun n => if base < n then some (path.take n) else none

def say? (r : Reading) : Statement → Option Reading
  | .table key =>
    let closed := r.closed ++ r.dotted
    if closed.contains key then none
    else (addTable? key r.entries).map fun entries => ⟨entries, key, closed ++ [key], []⟩
  | .entry key v =>
    let path := r.current ++ key
    let tables := inner r.current.length path
    if tables.any r.closed.contains then none
    else (addValue? path v r.entries).map fun entries =>
      { r with entries := entries, dotted := r.dotted ++ tables }

end Reading

def read? (s : List Char) : Option Value := do
  let lines ← (Text.pieces (· = '\n') s).mapM line?
  let r ← (lines.filterMap id).foldlM Reading.say? Reading.empty
  return .mapping r.entries

end Cron.Toml
