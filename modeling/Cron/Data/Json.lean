import Cron.Data.Value
import Cron.Number.Literal

-- JSON documents: reading, and writing with indentation. Besides the standard, the three words
-- `NaN`, `Infinity` and `-Infinity` are numbers, and half of a surrogate pair may stand alone. An
-- integer may have as many digits as any other numeral.

namespace Cron.Json

def isSpace (c : Char) : Bool := c = ' ' || c = '\t' || c = '\n' || c = '\r'

def skip (s : List Char) : List Char := s.dropWhile isSpace

def escape? : Char → Option Char
  | '"' => some '"'
  | '\\' => some '\\'
  | '/' => some '/'
  | 'b' => some '\x08'
  | 'f' => some '\x0c'
  | 'n' => some '\n'
  | 'r' => some '\r'
  | 't' => some '\t'
  | _ => none

def readUnits : List Char → Option (List Nat × List Char)
  | [] => none
  | '"' :: rest => some ([], rest)
  | '\\' :: 'u' :: a :: b :: c :: d :: rest => do
    let unit ← Text.numberIn? 16 [a, b, c, d]
    let (units, rest) ← readUnits rest
    return (unit :: units, rest)
  | '\\' :: c :: rest => do
    let c ← escape? c
    let (units, rest) ← readUnits rest
    return (c.toNat :: units, rest)
  | c :: rest => do
    if c.toNat < 0x20 then none
    else do
      let (units, rest) ← readUnits rest
      return (c.toNat :: units, rest)

-- The code points of code units; two that form a pair write one character.
def ofUnits : List Nat → List Code
  | high :: low :: rest =>
    if 0xD800 ≤ high ∧ high < 0xDC00 ∧ 0xDC00 ≤ low ∧ low < 0xE000 then
      .char (Char.ofNat (0x10000 + (high - 0xD800) * 0x400 + (low - 0xDC00))) :: ofUnits rest
    else (Code.ofNat? high).toList ++ ofUnits (low :: rest)
  | [n] => (Code.ofNat? n).toList
  | [] => []

def readString (s : List Char) : Option (Codes × List Char) :=
  (readUnits s).map fun (units, rest) => (⟨ofUnits units⟩, rest)

-- The digits of an integer at the beginning of a text: one zero, or no zero at the front.
def wholeDigits (s : List Char) : List Char :=
  match s with
  | '0' :: _ => ['0']
  | _ => s.takeWhile Text.isAsciiDigit

def fractionDigits (s : List Char) : List Char :=
  match s with
  | '.' :: rest => rest.takeWhile Text.isAsciiDigit
  | _ => []

-- The power of ten, if a mark, perhaps a sign and at least one digit follow; and its length.
def power? (s : List Char) : Option (Int × Nat) :=
  match s with
  | mark :: rest =>
    if mark = 'e' ∨ mark = 'E' then
      let (negative, body) := Text.takeSign rest
      let digits := body.takeWhile Text.isAsciiDigit
      if digits.isEmpty then none
      else
        let n : Int := Text.digitsValue digits
        some (if negative then -n else n, 1 + (rest.length - body.length) + digits.length)
    else none
  | [] => none

def readNumber (negative : Bool) (s : List Char) : Option (Value × List Char) :=
  let whole := wholeDigits s
  let s := s.drop whole.length
  let fraction := fractionDigits s
  let s := if fraction.isEmpty then s else s.drop (fraction.length + 1)
  if whole.isEmpty then none
  else
    match power? s with
    | some (power, length) =>
      some (.float (.ofDecimal negative (whole ++ fraction) (power - fraction.length)),
        s.drop length)
    | none =>
      if !fraction.isEmpty then
        some (.float (.ofDecimal negative (whole ++ fraction) (-fraction.length)), s)
      else if Text.maxDigits < whole.length then none
      else
        let n : Int := Text.digitsValue whole
        some (.integer (if negative then -n else n), s)

def passWord? (word : String) (s : List Char) : Option (List Char) :=
  if word.toList.isPrefixOf s then some (s.drop word.length) else none

def words : List (String × Value) := [
  ("null", .null), ("true", .bool true), ("false", .bool false), ("NaN", .float .nan),
  ("Infinity", .float (.infinite false)), ("-Infinity", .float (.infinite true))]

-- The word at the beginning of a text that is a value, and what follows it.
def readWord (s : List Char) : Option (Value × List Char) :=
  words.findSome? fun (word, v) => (passWord? word s).map fun rest => (v, rest)

mutual

-- The value at the beginning of a text, and what follows it; `fuel` is above the text's length.
def readValue : Nat → List Char → Option (Value × List Char)
  | 0, _ => none
  | fuel + 1, s =>
    match s with
    | '"' :: rest => (readString rest).map fun (text, rest) => (.text text, rest)
    | '[' :: rest =>
      match skip rest with
      | ']' :: rest => some (.list [], rest)
      | rest => (readItems fuel rest).map fun (items, rest) => (.list items, rest)
    | '\x7b' :: rest =>
      match skip rest with
      | '\x7d' :: rest => some (.mapping [], rest)
      | rest =>
        (readEntries fuel rest).map fun (entries, rest) =>
          (.mapping (Value.putAll [] entries), rest)
    | s =>
      match readWord s with
      | some read => some read
      | none =>
        match s with
        | '-' :: rest => readNumber true rest
        | s => readNumber false s

def readItems : Nat → List Char → Option (List Value × List Char)
  | 0, _ => none
  | fuel + 1, s =>
    match readValue fuel s with
    | none => none
    | some (item, rest) =>
      match skip rest with
      | ']' :: rest => some ([item], rest)
      | ',' :: rest => (readItems fuel (skip rest)).map fun (items, rest) => (item :: items, rest)
      | _ => none

def readEntries : Nat → List Char → Option (Entries × List Char)
  | 0, _ => none
  | fuel + 1, s =>
    match s with
    | '"' :: rest =>
      match readString rest with
      | none => none
      | some (key, rest) =>
        match skip rest with
        | ':' :: rest =>
          match readValue fuel (skip rest) with
          | none => none
          | some (value, rest) =>
            match skip rest with
            | '\x7d' :: rest => some ([(.text key, value)], rest)
            | ',' :: rest =>
              (readEntries fuel (skip rest)).map fun (entries, rest) =>
                ((.text key, value) :: entries, rest)
            | _ => none
        | _ => none
    | _ => none

end

def read? (s : List Char) : Option Value :=
  match readValue (s.length + 1) (skip s) with
  | some (v, rest) => if (skip rest).isEmpty then some v else none
  | none => none

def unitText (n : Nat) : List Char := '\\' :: 'u' :: Text.hexPadded 4 n

def charText (c : Char) : List Char :=
  if c = '"' then ['\\', '"']
  else if c = '\\' then ['\\', '\\']
  else if c = '\n' then ['\\', 'n']
  else if c = '\r' then ['\\', 'r']
  else if c = '\t' then ['\\', 't']
  else if c = '\x08' then ['\\', 'b']
  else if c = '\x0c' then ['\\', 'f']
  else if 0x20 ≤ c.toNat ∧ c.toNat < 0x7F then [c]
  else if c.toNat < 0x10000 then unitText c.toNat
  else
    unitText (0xD800 + (c.toNat - 0x10000) / 0x400) ++
      unitText (0xDC00 + (c.toNat - 0x10000) % 0x400)

def codeText : Code → List Char
  | .char c => charText c
  | .half n => unitText (0xD800 + n)

def stringText (s : Codes) : String :=
  String.ofList ('"' :: (s.points.flatMap codeText ++ ['"']))

def lineStart (depth : Nat) : String := "\n" ++ "".pushn ' ' (2 * depth)

def bracketed (opening closing : String) (depth : Nat) (items : List String) : String :=
  if items.isEmpty then opening ++ closing
  else
    opening ++ lineStart (depth + 1) ++ String.intercalate ("," ++ lineStart (depth + 1)) items ++
      lineStart depth ++ closing

mutual

def write (depth : Nat) : Value → String
  | .null => "null"
  | .bool true => "true"
  | .bool false => "false"
  | .integer n => toString n
  | .float d => d.text
  | .text s => stringText s
  | .date d => stringText (.ofChars d.isoText)
  | .instant t => stringText t.iso
  | .list items => bracketed "[" "]" depth (writeAll (depth + 1) items)
  | .mapping entries => bracketed "\x7b" "\x7d" depth (writeEntries (depth + 1) entries)

def writeAll (depth : Nat) : List Value → List String
  | [] => []
  | v :: rest => write depth v :: writeAll depth rest

def writeEntries (depth : Nat) : Entries → List String
  | [] => []
  | (key, v) :: rest =>
    (stringText key.toCodes ++ ": " ++ write depth v) :: writeEntries depth rest

end

def text (v : Value) : String := write 0 v

end Cron.Json
