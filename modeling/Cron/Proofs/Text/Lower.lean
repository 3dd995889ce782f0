import Cron.Proofs.Text.Cutting
import Cron.Text.Lower

namespace Cron

variable {c : Char} {s : List Char}

namespace Text

-- ASCII characters that are no capitals are their own lower-case forms.
def IsSmall (c : Char) : Prop := c.toNat < 65 ∨ 90 < c.toNat ∧ c.toNat < 128

instance (c : Char) : Decidable (IsSmall c) := inferInstanceAs (Decidable (_ ∨ _))

theorem lowerChar_of_isSmall (h : IsSmall c) : lowerChar c = c := by
  have h : c.toNat < 65 ∨ 90 < c.toNat ∧ c.toNat < 128 := h
  have hc : ¬('A'.val ≤ c.val ∧ c.val ≤ 'Z'.val) := fun hc => by
    have hl : 65 ≤ c.toNat := hc.1
    have hu : c.toNat ≤ 90 := hc.2
    omega
  rw [lowerChar, if_pos (by omega), Char.toLower, dif_neg hc]

theorem lowerAt_of_isSmall {before after : List Code} (h : IsSmall c) :
    lowerAt before c after = [c] := by
  have hs : c ≠ 'Σ' := fun he => absurd (he ▸ h) (by decide)
  have hi : c ≠ 'İ' := fun he => absurd (he ▸ h) (by decide)
  rw [lowerAt, if_neg hs, if_neg hi, lowerChar_of_isSmall h]

theorem lowerAfter_of_isSmall {before : List Code} (h : ∀ c ∈ s, IsSmall c) :
    lowerAfter before (s.map .char) = s.map .char := by
  induction s generalizing before
  case nil => rfl
  case cons c s hi =>
    have ⟨hc, hs⟩ := List.forall_mem_cons.mp h
    rw [List.map_cons, lowerAfter, lowerAt_of_isSmall hc, hi hs]
    rfl

end Text

namespace Codes

theorem lower_ofChars (h : ∀ c ∈ s, Text.IsSmall c) : (ofChars s).lower = ofChars s :=
  congrArg Codes.mk <| Text.lowerAfter_of_isSmall h

theorem word?_ofChars (h : ∀ c ∈ s, Text.IsSmall c) :
    (ofChars s).word? = some (String.ofList (Text.trim s)) := by
  have ht : ∀ c ∈ Text.trim s, Text.IsSmall c := fun c hc => h c <| Text.mem_of_mem_trimWhile hc
  rw [word?, trim_ofChars, lower_ofChars ht, string?, chars?_ofChars]
  rfl

end Codes

end Cron
