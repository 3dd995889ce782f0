import Cron.Data.Yaml.Node
import Cron.Data.Yaml.Quoted

-- Reading a YAML document of block and flow mappings and sequences, quoted and plain scalars and
-- comments. A node of the block form ends where a line begins left of its least column. A key is
-- told by the colon behind it, in its line, or by a question mark in front of it.

namespace Cron.Yaml

def flowMarks : List Char := [',', '[', ']', '\x7b', '\x7d']

def indicators : List Char :=
  flowMarks ++ ['#', '&', '*', '!', '|', '>', '\'', '"', '%', '@', '\x60']

def beginsPlain (inFlow : Bool) : List Char → Bool
  | [] => false
  | c :: rest =>
    if c = '-' then !endsWord rest
    else if c = '?' || c = ':' then !inFlow && !endsWord rest
    else !(endsWord (c :: rest) || indicators.contains c)

def endsPlain (inFlow : Bool) : List Char → Bool
  | [] => true
  | c :: rest =>
    endsWord (c :: rest) ||
      (c = ':' && (endsWord rest || (inFlow && rest.head?.any flowMarks.contains))) ||
      (inFlow && (c = '?' || flowMarks.contains c))

def plainWord (inFlow : Bool) : List Char → List Char × List Char
  | [] => ([], [])
  | c :: rest =>
    if endsPlain inFlow (c :: rest) then ([], c :: rest)
    else
      let (word, rest) := plainWord inFlow rest
      (c :: word, rest)

-- The words of a plain scalar with what stands between them, and the place after it. Outside of
-- brackets, it goes on in a next line only from the column `least` on.
def plainText (inFlow : Bool) (least : Nat) : Nat → Cursor → List Char × Cursor
  | 0, p => ([], p)
  | fuel + 1, p =>
    let (word, rest) := plainWord inFlow p.text
    let after := p.upTo rest
    match gap? (· = ' ') rest with
    | none => (word, after)
    | some (gap, rest) =>
      let further := after.upTo rest
      if gap.isEmpty || further.text.head? = some '#' || (!inFlow && further.column < least) then
        (word, after)
      else
        match plainText inFlow least fuel further with
        | ([], _) => (word, after)
        | (more, p) => (word ++ gap ++ more, p)

def scalar (inFlow : Bool) (least : Nat) (p : Cursor) : Except Unread (Node × Cursor) :=
  match p.text with
  | [] => .error .malformed
  | c :: rest =>
    if c = '\'' || c = '"' then
      (quoted c p.text.length rest).map fun (s, rest) => (.quoted ⟨s⟩, p.upTo rest)
    else if beginsPlain inFlow p.text then
      let (s, after) := plainText inFlow least p.text.length p
      .ok (.plain s, after)
    else .error .malformed

-- The most characters from the beginning of a key to its colon.
def maxKey : Nat := 1024

-- What follows a colon, if one stands next in the line and ends a key that began at `start`.
def afterColon? (inFlow : Bool) (start p : Cursor) : Option Cursor :=
  let p := p.skipSpaces
  match p.text with
  | ':' :: rest =>
    if p.line = start.line && p.column - start.column ≤ maxKey && (inFlow || endsWord rest) then
      some p.next
    else none
  | _ => none

def endsEntry (p : Cursor) : Bool :=
  p.text.head?.any [',', ']', '\x7d'].contains

mutual

def flowNode : Nat → Cursor → Except Unread (Node × Cursor)
  | 0, _ => .error .malformed
  | fuel + 1, p =>
    match p.text with
    | '[' :: _ => (flowItems fuel p.next.skip).map fun (items, p) => (.sequence items, p)
    | '\x7b' :: _ => (flowEntries fuel p.next.skip).map fun (entries, p) => (.mapping entries, p)
    | _ => if p.atEnd then .error .malformed else scalar true 0 p

-- The items up to a closing bracket. A key with its value is an item, a mapping of its own.
def flowItems : Nat → Cursor → Except Unread (List Node × Cursor)
  | 0, _ => .error .malformed
  | fuel + 1, p =>
    if p.text.head? = some ']' then .ok ([], p.next)
    else do
      let (first, value, after) ← flowEntry fuel p
      let item := value.elim first fun v => .mapping [(first, v)]
      let after := after.skip
      match after.text with
      | ']' :: _ => return ([item], after.next)
      | ',' :: _ =>
        let (items, p) ← flowItems fuel after.next.skip
        return (item :: items, p)
      | _ => .error .malformed

def flowEntries : Nat → Cursor → Except Unread (List (Node × Node) × Cursor)
  | 0, _ => .error .malformed
  | fuel + 1, p =>
    if p.text.head? = some '\x7d' then .ok ([], p.next)
    else do
      let (key, value, after) ← flowEntry fuel p
      let entry := (key, value.getD .empty)
      let after := after.skip
      match after.text with
      | '\x7d' :: _ => return ([entry], after.next)
      | ',' :: _ =>
        let (entries, p) ← flowEntries fuel after.next.skip
        return (entry :: entries, p)
      | _ => .error .malformed

-- A node between brackets and the value that belongs to it if it is a key.
def flowEntry : Nat → Cursor → Except Unread (Node × Option Node × Cursor)
  | 0, _ => .error .malformed
  | fuel + 1, p =>
    if p.text.head? = some '?' then do
      let start := p.next.skip
      let (key, after) ←
        if start.text.head? = some ':' || endsEntry start then pure (.empty, start)
        else flowNode fuel start
      let after := after.skip
      if after.text.head? = some ':' then
        let (v, after) ← flowValue fuel after.next.skip
        return (key, some v, after)
      else return (key, some .empty, after)
    else do
      let (key, after) ← flowNode fuel p
      match afterColon? true p after with
      | some colon =>
        let (v, after) ← flowValue fuel colon.skip
        return (key, some v, after)
      | none => return (key, none, after)

def flowValue : Nat → Cursor → Except Unread (Node × Cursor)
  | 0, _ => .error .malformed
  | fuel + 1, p => if endsEntry p then .ok (.empty, p) else flowNode fuel p

end

def beginsWith (mark : Char) (p : Cursor) : Bool :=
  !p.atEnd && p.text.head? = some mark && endsWord (p.text.drop 1)

def beginsItem (p : Cursor) : Bool := beginsWith '-' p

def key (p : Cursor) : Except Unread (Node × Cursor) := do
  let (key, after) ← scalar false 0 p
  let after ← Unread.expect (afterColon? false p after)
  return (key, after)

mutual

-- The node at a place, and the place after it. A mapping or a sequence begins only where `opens`
-- says so: at the beginning of a line or after the dash of an item.
def node : Nat → Nat → Bool → Cursor → Except Unread (Node × Cursor)
  | 0, _, _, _ => .error .malformed
  | fuel + 1, least, opens, p =>
    if p.atEnd || p.column < least then .ok (.empty, p)
    else if beginsItem p then
      if opens then (items fuel p.column p).map fun (items, p) => (.sequence items, p)
      else .error .malformed
    else if p.text.head?.any ['[', '\x7b'].contains then flowNode fuel p
    else if opens && (beginsWith '?' p || (key p).isOk) then
      (entries fuel p.column p).map fun (entries, p) => (.mapping entries, p)
    else scalar false least p

-- The items of a sequence whose dashes stand in one column, each on a line of its own.
def items : Nat → Nat → Cursor → Except Unread (List Node × Cursor)
  | 0, _, _ => .error .malformed
  | fuel + 1, column, p => do
    let (item, after) ← node fuel (column + 1) true p.next.skip
    let after := after.skip
    if after.column = column && beginsItem after then
      if after.opensLine then
        let (rest, after) ← items fuel column after
        return (item :: rest, after)
      else .error .malformed
    else return ([item], after)

-- The entries of a mapping whose keys stand in one column, each on a line of its own.
def entries : Nat → Nat → Cursor → Except Unread (List (Node × Node) × Cursor)
  | 0, _, _ => .error .malformed
  | fuel + 1, column, p => do
    let (key, value, after) ←
      if beginsWith '?' p then do
        let (key, after) ← content fuel column true p.next.skip
        let after := after.skip
        if after.column = column && after.opensLine && beginsWith ':' after then
          let (value, after) ← content fuel column true after.next.skip
          pure (key, value, after)
        else pure (key, .empty, after)
      else do
        let (key, colon) ← key p
        let (value, after) ← content fuel column colon.skip.opensLine colon.skip
        pure (key, value, after)
    let after := after.skip
    if after.atEnd || after.column < column then return ([(key, value)], after)
    else if after.column = column && after.opensLine then
      let (rest, after) ← entries fuel column after
      return ((key, value) :: rest, after)
    else .error .malformed

-- A key or a value of a mapping whose keys stand in a column. The dashes of a sequence may stand in
-- the same column.
def content : Nat → Nat → Bool → Cursor → Except Unread (Node × Cursor)
  | 0, _, _, _ => .error .malformed
  | fuel + 1, column, opens, p =>
    if p.column = column && beginsItem p then
      (items fuel column p).map fun (items, p) => (.sequence items, p)
    else node fuel (column + 1) opens p

end

def isAllowed (c : Char) : Bool :=
  let n := c.toNat
  c = '\t' || c = '\n' || c = '\r' || (0x20 ≤ n && n ≤ 0x7E) || n = 0x85 ||
    (0xA0 ≤ n && n ≠ 0xFFFE && n ≠ 0xFFFF)

def isOpening (p : Cursor) : Bool := p.column = 0 && p.text.head? = some '-' && isBound p.text

-- The place after the lines that end a document, and after the blanks around them.
def passEndings : Nat → Cursor → Cursor
  | 0, p => p
  | fuel + 1, p =>
    if p.atEnd && !isOpening p && !p.text.isEmpty then passEndings fuel (p.advance 3).skip else p

-- The node of the one document of a text. A document that ends at once needs an opening line.
def document (s : List Char) : Except Unread Node := do
  let start := Cursor.skip ⟨0, 0, true, s⟩
  if start.atEnd && !isOpening start && !start.text.isEmpty then .error .malformed
  else
    let first := if isOpening start then (start.advance 3).skip else start
    let (root, after) ← node (4 * s.length + 4) 0 first.opensLine first
    if (passEndings (s.length + 1) after.skip).text.isEmpty then return root
    else .error .malformed

-- Reads a document; a text with an error, or with a second document, is none.
def read (s : List Char) : Except Unread Value :=
  let s := if s.head? = some '\ufeff' then s.drop 1 else s
  if !s.all isAllowed then .error .malformed else do (← document s).value

end Cron.Yaml
