import Cron.Text.Codes

-- Control sequences that style the text of a terminal: an escape character, an opening bracket,
-- digits among semicolons and question marks, and a letter.

namespace Cron

namespace Text

def isStyleMark (c : Char) : Bool := c = ';' || c = '?' || isAsciiDigit c

-- The length of the control sequence at the beginning of a text, 0 if there is none.
def styleLength : List Code → Nat
  | .char '\x1b' :: .char '[' :: rest =>
    let marks := rest.takeWhile (·.passes isStyleMark)
    if (rest.drop marks.length).head?.any (·.passes Char.isAlpha) then marks.length + 3 else 0
  | _ => 0

-- A text without its control sequences and without its first `skip` code points.
def dropStyles : Nat → List Code → List Code
  | _, [] => []
  | skip + 1, _ :: rest => dropStyles skip rest
  | 0, c :: rest =>
    match styleLength (c :: rest) with
    | 0 => c :: dropStyles 0 rest
    | skip + 1 => dropStyles skip rest

end Text

def Codes.unstyled (t : Codes) : Codes := ⟨Text.dropStyles 0 t.points⟩

end Cron
