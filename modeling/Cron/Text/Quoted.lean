import Cron.Text.Codes
import Cron.Text.Printable

-- Quoted text. A text is set between single quotes, or between double quotes when it holds a single
-- quote and no double one; the quote that is used, the backslash and unprintable characters are
-- escaped.

namespace Cron.Text

def quoteMark (s : List Char) : Char :=
  if s.contains '\'' && !s.contains '"' then '"' else '\''

def quotedChar (mark c : Char) : List Char :=
  if c = mark || c = '\\' then ['\\', c]
  else if c = '\n' then ['\\', 'n']
  else if c = '\t' then ['\\', 't']
  else if c = '\r' then ['\\', 'r']
  else if isPrintable c then [c]
  else if c.toNat < 0x100 then '\\' :: 'x' :: hexPadded 2 c.toNat
  else if c.toNat < 0x10000 then '\\' :: 'u' :: hexPadded 4 c.toNat
  else '\\' :: 'U' :: hexPadded 8 c.toNat

-- A code point as it stands between two of the marks `mark`; half of a pair is unprintable.
def quotedCode (mark : Char) : Code → List Char
  | .char c => quotedChar mark c
  | .half n => Code.escape n

def quote (t : Codes) : String :=
  let mark := quoteMark (t.points.filterMap Code.char?)
  String.ofList (mark :: (t.points.flatMap (quotedCode mark) ++ [mark]))

end Cron.Text
