import Cron.Data.Value
import Cron.Data.Yaml.Lines

-- Scalars between quotes in a YAML document. Between single quotes, a quote is written twice;
-- between double quotes, a backslash begins an escape, which may write half of a surrogate pair.

namespace Cron.Yaml

def escapes : List (Char × Char) := [
  ('0', '\x00'), ('a', '\x07'), ('b', '\x08'), ('t', '\t'), ('\t', '\t'), ('n', '\n'),
  ('v', '\x0b'), ('f', '\x0c'), ('r', '\r'), ('e', '\x1b'), (' ', ' '), ('"', '"'),
  ('\\', '\\'), ('/', '/'), ('N', '\u0085'), ('_', '\u00a0'), ('L', '\u2028'), ('P', '\u2029')]

-- The number of hexadecimal digits after a letter that begins a code point.
def codeLength? : Char → Option Nat
  | 'x' => some 2
  | 'u' => some 4
  | 'U' => some 8
  | _ => none

def codePoint (n : Nat) : Except Unread Code :=
  if 0x80000000 ≤ n then .error (.fault .hugeCode) else Unread.expect (Code.ofNat? n)

def escape : List Char → Except Unread (List Code × List Char)
  | [] => .error .malformed
  | c :: rest =>
    match codeLength? c with
    | some length =>
      if rest.length < length then .error .malformed
      else do
        let code ← codePoint (← Unread.expect (Text.numberIn? 16 (rest.take length)))
        return ([code], rest.drop length)
    | none =>
      if isBreak c then do
        let (breaks, rest) ← Unread.expect (afterBreak? isSpace rest)
        return (breaks.map .char, rest)
      else do
        let c ← Unread.expect (escapes.lookup c)
        return ([.char c], rest)

-- A quoted scalar after its opening quote, and what follows; `fuel` is above the text's length.
def quoted (quote : Char) : Nat → List Char → Except Unread (List Code × List Char)
  | 0, _ => .error .malformed
  | _, [] => .error .malformed
  | fuel + 1, c :: rest =>
    let before (part : List Code) (rest : List Char) : Except Unread (List Code × List Char) :=
      (quoted quote fuel rest).map fun (s, rest) => (part ++ s, rest)
    if c = quote then
      if quote = '\'' && rest.head? = some quote then before [.char quote] (rest.drop 1)
      else .ok ([], rest)
    else if quote = '"' && c = '\\' then do
      let (part, rest) ← escape rest
      before part rest
    else if isSpace c || isBreak c then do
      let (part, rest) ← Unread.expect (gap? isSpace (c :: rest))
      before (part.map .char) rest
    else before [.char c] rest

end Cron.Yaml
