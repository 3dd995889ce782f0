-- Powers of two and of ten, and rounding a quotient to the nearest integer, a half to the even
-- neighbour. Main statement: a rounded quotient is at most half a unit too large.

namespace Cron

def twoTo (n : Nat) : Nat := Nat.pow 2 n

def tenTo (n : Nat) : Nat := Nat.pow 10 n

theorem twoTo_pos (n : Nat) : 0 < twoTo n := Nat.pow_pos (by decide)

theorem tenTo_pos (n : Nat) : 0 < tenTo n := Nat.pow_pos (by decide)

-- The integer nearest to `num / den`, the even one of two that are equally near.
def roundHalfEven (num den : Nat) : Nat :=
  let q := num / den
  let r := num % den
  if den < 2 * r ∨ (den = 2 * r ∧ q % 2 = 1) then q + 1 else q

theorem two_mul_roundHalfEven_le (num : Nat) {den : Nat} :
    2 * den * roundHalfEven num den ≤ 2 * num + den := by
  have hq := Nat.div_add_mod num den
  have ha : 2 * den * (num / den) = 2 * (den * (num / den)) := by rw [Nat.mul_assoc]
  have hb : 2 * den * (num / den + 1) = 2 * (den * (num / den)) + 2 * den := by
    rw [Nat.mul_add, ha, Nat.mul_one]
  unfold roundHalfEven
  simp only
  split
  · rw [hb]; omega
  · rw [ha]; omega

end Cron
