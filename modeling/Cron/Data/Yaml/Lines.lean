import Cron.Text.Blank

-- White space and line breaks in a YAML document, and places in it. A scalar that goes on over
-- several lines is folded: a single break reads as a space, and of several the first is dropped.

namespace Cron.Yaml

def isSpace (c : Char) : Bool := c = ' ' || c = '\t'

def isBreak (c : Char) : Bool :=
  c = '\n' || c = '\r' || c = '\u0085' || c = '\u2028' || c = '\u2029'

def keptBreak (c : Char) : Char := if c = '\u2028' || c = '\u2029' then c else '\n'

def endsWord : List Char → Bool
  | [] => true
  | c :: _ => isSpace c || isBreak c

def isBound : List Char → Bool
  | '-' :: '-' :: '-' :: rest => endsWord rest
  | '.' :: '.' :: '.' :: rest => endsWord rest
  | _ => false

-- The breaks of empty lines, and what follows; none where a document ends.
def emptyLines? (indents : Char → Bool) : List Char → Option (List Char × List Char)
  | [] => some ([], [])
  | c :: rest =>
    if indents c then emptyLines? indents rest
    else if isBreak c then
      if isBound rest then none
      else (emptyLines? indents rest).map fun (breaks, rest) => (keptBreak c :: breaks, rest)
    else some ([], c :: rest)

def afterBreak? (indents : Char → Bool) (s : List Char) : Option (List Char × List Char) :=
  if isBound s then none else emptyLines? indents s

-- The white space between two words of a scalar as it reads when folded, and what follows; none
-- where a document ends. Only spaces, or spaces and tabs, begin a line.
def gap? (indents : Char → Bool) (s : List Char) : Option (List Char × List Char) :=
  match s.dropWhile indents with
  | [] => some (s.takeWhile indents, [])
  | c :: rest =>
    if isBreak c then
      (afterBreak? indents rest).map fun (breaks, rest) =>
        (if keptBreak c ≠ '\n' then c :: breaks else if breaks.isEmpty then [' '] else breaks,
          rest)
    else some (s.takeWhile indents, c :: rest)

structure Cursor where
  line : Nat
  column : Nat
  opensLine : Bool
  text : List Char

namespace Cursor

def next (p : Cursor) : Cursor :=
  match p.text with
  | [] => p
  | c :: rest =>
    if isBreak c then ⟨p.line + 1, 0, true, rest⟩
    else ⟨p.line, p.column + 1, p.opensLine && c = ' ', rest⟩

def advance (p : Cursor) : Nat → Cursor
  | 0 => p
  | count + 1 => p.next.advance count

def upTo (p : Cursor) (rest : List Char) : Cursor := p.advance (p.text.length - rest.length)

def skipSpaces (p : Cursor) : Cursor := p.upTo (p.text.dropWhile (· = ' '))

end Cursor

def skipBlank (inComment : Bool) : List Char → List Char
  | [] => []
  | c :: rest =>
    if isBreak c then skipBlank false rest
    else if inComment || c = ' ' then skipBlank inComment rest
    else if c = '#' then skipBlank true rest
    else c :: rest

-- The next place at which something other than blanks and comments stands.
def Cursor.skip (p : Cursor) : Cursor := p.upTo (skipBlank false p.text)

def Cursor.atEnd (p : Cursor) : Bool := p.text.isEmpty || (p.column = 0 && isBound p.text)

end Cron.Yaml
