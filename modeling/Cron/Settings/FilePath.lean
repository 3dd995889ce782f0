import Cron.Text.Lower

-- Paths of files: names with slashes between them. Empty names and single dots are dropped; two
-- dots stay, since what is above a name depends on the files.

namespace Cron

structure FilePath where
  -- Nothing, one slash, or two where a path begins with just two.
  root : String
  names : List Codes
deriving DecidableEq, Repr

namespace FilePath

def ofText (text : Codes) : FilePath :=
  let slashes := (text.points.takeWhile (· = .char '/')).length
  { root := if slashes = 0 then "" else if slashes = 2 then "//" else "/"
    names := (text.pieces '/').filter fun name => !name.isEmpty && name ≠ "." }

def text (p : FilePath) : Codes :=
  let s := p.root ++ Codes.join "/" p.names
  if s.isEmpty then "." else s

def child (p : FilePath) (name : Codes) : FilePath := { p with names := p.names ++ [name] }

def name (p : FilePath) : Codes := p.names.getLast?.getD ""

-- The ending of a name in lower case: what begins at its last dot, if something stands on both
-- sides of the dot.
def suffix (p : FilePath) : Codes :=
  let reversed := p.name.points.reverse
  let ending := (reversed.takeWhile (· ≠ .char '.')).reverse
  let stem := reversed.dropWhile (· ≠ .char '.')
  if ending.isEmpty || stem.length < 2 then ""
  else Codes.lower ⟨.char '.' :: ending⟩

end FilePath

end Cron
