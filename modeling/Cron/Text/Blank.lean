-- White space and the ways to cut a text: at both ends, at the first separator, at all of them.

namespace Cron.Text

variable {α : Type}

-- White space: the blanks of Unicode and the four ASCII separators from `0x1C` to `0x1F`.
def isBlank (c : Char) : Bool :=
  let n := c.toNat
  (0x09 ≤ n && n ≤ 0x0D) || (0x1C ≤ n && n ≤ 0x20) || n == 0x85 || n == 0xA0 || n == 0x1680 ||
    (0x2000 ≤ n && n ≤ 0x200A) || n == 0x2028 || n == 0x2029 || n == 0x202F || n == 0x205F ||
    n == 0x3000

def trimWhile (p : α → Bool) (s : List α) : List α :=
  ((s.dropWhile p).reverse.dropWhile p).reverse

def trim (s : List Char) : List Char := trimWhile isBlank s

-- The pieces of a list between its separators: one more than there are separators.
def pieces (separates : α → Bool) : List α → List (List α)
  | [] => [[]]
  | c :: rest =>
    if separates c then [] :: pieces separates rest
    else
      match pieces separates rest with
      | [] => [[c]]
      | piece :: more => (c :: piece) :: more

def runs (separates : α → Bool) (s : List α) : List (List α) :=
  (pieces separates s).filter (!·.isEmpty)

def cutAt? [DecidableEq α] (sep : α) : List α → Option (List α × List α)
  | [] => none
  | c :: rest =>
    if c = sep then some ([], rest)
    else (cutAt? sep rest).map fun (before, after) => (c :: before, after)

def joinWith (sep : List α) : List (List α) → List α
  | [] => []
  | [piece] => piece
  | piece :: more => piece ++ sep ++ joinWith sep more

theorem pieces_ne_nil (separates : α → Bool) (s : List α) : pieces separates s ≠ [] := by
  cases s with
  | nil => simp [pieces]
  | cons c rest =>
    rw [pieces]
    split
    · simp
    · split <;> simp

end Cron.Text
