-- Reading the text of a file: octets in UTF-8, with each kind of line end written as a line feed.

namespace Cron.Utf8

def tail? (b : UInt8) : Option Nat := if 0x80 ≤ b && b < 0xC0 then some (b.toNat - 0x80) else none

-- The character of a code point that was written in `length` octets, if that was needed.
def char? (length n : Nat) : Option Char :=
  let least := if length = 2 then 0x80 else if length = 3 then 0x800 else 0x10000
  if least ≤ n ∧ n.isValidChar then some (Char.ofNat n) else none

def decode? : List UInt8 → Option (List Char)
  | [] => some []
  | a :: rest =>
    if a < 0x80 then (decode? rest).map (Char.ofNat a.toNat :: ·)
    else if 0xC0 ≤ a && a < 0xE0 then
      match rest with
      | b :: rest => do
        let c ← char? 2 ((a.toNat - 0xC0) * 0x40 + (← tail? b))
        (decode? rest).map (c :: ·)
      | _ => none
    else if 0xE0 ≤ a && a < 0xF0 then
      match rest with
      | b :: c :: rest => do
        let c ← char? 3 (((a.toNat - 0xE0) * 0x40 + (← tail? b)) * 0x40 + (← tail? c))
        (decode? rest).map (c :: ·)
      | _ => none
    else if 0xF0 ≤ a && a < 0xF8 then
      match rest with
      | b :: c :: d :: rest => do
        let high := ((a.toNat - 0xF0) * 0x40 + (← tail? b)) * 0x40 + (← tail? c)
        let c ← char? 4 (high * 0x40 + (← tail? d))
        (decode? rest).map (c :: ·)
      | _ => none
    else none

-- A text with every carriage return, alone or before a line feed, as a line feed.
def unifyLines : List Char → List Char
  | [] => []
  | '\r' :: '\n' :: rest => '\n' :: unifyLines rest
  | '\r' :: rest => '\n' :: unifyLines rest
  | c :: rest => c :: unifyLines rest

end Cron.Utf8
