import Cron.Text.Blank
import Cron.Text.Digit

-- Texts that need not be well formed: besides characters they may hold halves of surrogate pairs
-- that stand alone. Main statement: a text made of characters reads back as the string it was made
-- of.

namespace Cron

-- Whether a code point lies in a table of ranges, each given by its first and its last.
def Text.inRanges (table : List (Nat × Nat)) (n : Nat) : Bool :=
  table.any fun (first, last) => first ≤ n && n ≤ last

inductive Code
  | char (c : Char)
  -- Half of a surrogate pair: the code point `0xD800 + n`.
  | half (n : Fin 0x800)
deriving DecidableEq, Repr

namespace Code

def toNat : Code → Nat
  | char c => c.toNat
  | half n => 0xD800 + n

def ofNat? (n : Nat) : Option Code :=
  if h : 0xD800 ≤ n ∧ n < 0xE000 then some (half ⟨n - 0xD800, by omega⟩)
  else if n.isValidChar then some (char (Char.ofNat n))
  else none

def char? : Code → Option Char
  | char c => some c
  | half _ => none

def passes (p : Char → Bool) (code : Code) : Bool := code.char?.any p

def escape (n : Fin 0x800) : List Char := '\\' :: 'u' :: Text.hexPadded 4 (half n).toNat

end Code

structure Codes where
  points : List Code
deriving DecidableEq, Repr

namespace Codes

def ofChars (s : List Char) : Codes := ⟨s.map Code.char⟩

def ofString (s : String) : Codes := ofChars s.toList

instance : Coe String Codes := ⟨ofString⟩

instance : Append Codes := ⟨fun s t => ⟨s.points ++ t.points⟩⟩

def chars? (t : Codes) : Option (List Char) := t.points.mapM Code.char?

def string? (t : Codes) : Option String := t.chars?.map String.ofList

def escaped (t : Codes) : String :=
  String.ofList (t.points.flatMap fun
    | .char c => [c]
    | .half n => Code.escape n)

def isEmpty (t : Codes) : Bool := t.points.isEmpty

def trim (t : Codes) : Codes := ⟨Text.trimWhile (·.passes Text.isBlank) t.points⟩

def pieces (sep : Char) (t : Codes) : List Codes :=
  (Text.pieces (· == .char sep) t.points).map Codes.mk

def words (t : Codes) : List Codes :=
  (Text.runs (·.passes Text.isBlank) t.points).map Codes.mk

def cutAt? (sep : Char) (t : Codes) : Option (Codes × Codes) :=
  (Text.cutAt? (.char sep) t.points).map fun (before, after) => (⟨before⟩, ⟨after⟩)

def join (sep : Codes) (texts : List Codes) : Codes :=
  ⟨Text.joinWith sep.points (texts.map points)⟩

theorem chars?_ofChars (s : List Char) : (ofChars s).chars? = some s := by
  rw [chars?, ofChars]
  induction s with
  | nil => rfl
  | cons c s ih => simp [List.mapM_cons, ih, Code.char?]

theorem string?_ofString (s : String) : (ofString s).string? = some s := by
  rw [string?, ofString, chars?_ofChars]
  simp

end Codes

end Cron
