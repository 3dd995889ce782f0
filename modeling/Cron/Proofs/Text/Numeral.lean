import Mathlib
import Cron.Text.Blank
import Cron.Text.Digit

namespace Cron.Text

variable {c : Char} {s : List Char} {n init : Nat}

theorem isAsciiDigit_iff : isAsciiDigit c ↔ 48 ≤ c.toNat ∧ c.toNat ≤ 57 := by
  rw [isAsciiDigit, Bool.and_eq_true, decide_eq_true_iff, decide_eq_true_iff]
  rfl

theorem isBlank_eq_false (h : isAsciiDigit c) : isBlank c = false := by
  have := isAsciiDigit_iff.mp h
  simp only [isBlank, Bool.or_eq_false_iff, Bool.and_eq_false_iff, decide_eq_false_iff_not,
    beq_eq_false_iff_ne]
  omega

theorem isNumeral_iff : isNumeral s ↔ s ≠ [] ∧ ∀ c ∈ s, isAsciiDigit c := by
  rw [isNumeral, Bool.and_eq_true, Bool.not_eq_true', List.isEmpty_eq_false_iff, List.all_eq_true]

theorem ofDigitChars_lt (h : ∀ c ∈ s, isAsciiDigit c) :
    Nat.ofDigitChars 10 s init < (init + 1) * 10 ^ s.length := by
  induction s generalizing init
  case nil => simp [Nat.ofDigitChars_nil]
  case cons c s hi =>
    have hc := isAsciiDigit_iff.mp <| h c List.mem_cons_self
    have hc : c.toNat - '0'.toNat < 10 := by
      show c.toNat - 48 < 10
      omega
    rw [Nat.ofDigitChars_cons, List.length_cons, pow_succ']
    calc
      _ < (10 * init + (c.toNat - '0'.toNat) + 1) * 10 ^ s.length :=
        hi fun c hc => h c <| List.mem_cons_of_mem _ hc
      _ ≤ (10 * init + 10) * 10 ^ s.length := Nat.mul_le_mul_right _ (by omega)
      _ = (init + 1) * (10 * 10 ^ s.length) := by ring

-- The decimal form of what a numeral writes is no longer than the numeral.
theorem length_natDigits_digitsValue_le (hs : s ≠ []) (h : ∀ c ∈ s, isAsciiDigit c) :
    (natDigits (digitsValue s)).length ≤ s.length := by
  rw [natDigits, Nat.length_toDigits_le_iff (by decide) (List.length_pos_iff.mpr hs)]
  have hlt : Nat.ofDigitChars 10 s 0 < (0 + 1) * 10 ^ s.length := ofDigitChars_lt h
  rwa [Nat.zero_add, Nat.one_mul] at hlt

theorem isAsciiDigit_of_mem_natDigits (h : c ∈ natDigits n) : isAsciiDigit c := by
  have hd := Nat.isDigit_of_mem_toDigits (by decide) (by decide) h
  rw [Char.isDigit, Bool.and_eq_true, decide_eq_true_iff, decide_eq_true_iff] at hd
  exact isAsciiDigit_iff.mpr hd

theorem natDigits_ne_nil (n : Nat) : natDigits n ≠ [] := Nat.toDigits_ne_nil

theorem isNumeral_natDigits (n : Nat) : isNumeral (natDigits n) :=
  isNumeral_iff.mpr ⟨natDigits_ne_nil n, fun _ hc => isAsciiDigit_of_mem_natDigits hc⟩

-- Reading the digits of a number gives the number.
theorem digitsValue_natDigits (n : Nat) : digitsValue (natDigits n) = n :=
  Nat.ofDigitChars_ten_toDigits

theorem length_natDigits_le {k : Nat} (hk : 0 < k) (h : n < 10 ^ k) : (natDigits n).length ≤ k :=
  (Nat.length_toDigits_le_iff (by decide) hk).mpr h

end Cron.Text
