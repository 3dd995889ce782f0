import Cron.Proofs.Except
import Cron.Proofs.Expr.Fits

namespace Cron

variable {l : Layout} {c : Column} {e : Shape} {n : Int} {token : Codes} {tokens : List Codes}

-- A number that is not too long, and a name, stand for a value of their column.
theorem Layout.takes_bound (hn : (Text.natDigits n.toNat).length ≤ Text.maxDigits) :
    l.Takes c (l.bound c n) := by
  by_cases hc : c = .year
  case pos =>
    subst hc
    refine ⟨Int.le_max_right _ _, ?_⟩
    rcases Int.le_total 0 n with h | h
    · rwa [bound, max_eq_left h]
    · rw [bound, max_eq_right h]
      decide
  case neg =>
    rw [takes_iff hc]
    cases c
    case year => exact absurd rfl hc
    all_goals exact Domain.clamp_mem (lower_le_upper hc) n

theorem Layout.one_le_bound (hn : 1 ≤ n) : 1 ≤ l.bound c n := by
  have hs := l.sunday_mem
  cases c
  all_goals
    simp only [bound, domain, Domain.clamp]
    omega

namespace Layout

theorem readNumeral_ok {digits : List Char} {n : Nat} (hd : Text.isNumeral digits)
    (h : readNumeral digits = .ok n) : (Text.natDigits n).length ≤ Text.maxDigits := by
  rw [Text.isNumeral_iff] at hd
  rw [readNumeral] at h
  split at h
  case isTrue hl =>
    cases h
    exact Nat.le_trans (Text.length_natDigits_digitsValue_le hd.1 hd.2) hl
  case isFalse => cases h

theorem mem_abbreviations {first : Int} {names : List String} {nm : List Char × Int}
    (h : nm ∈ abbreviations first names) : first ≤ nm.2 ∧ nm.2 < first + names.length := by
  induction names generalizing first
  case nil => cases h
  case cons name names hi =>
    rcases List.mem_cons.mp h with rfl | h
    · simp
    · have := hi h
      rw [List.length_cons]
      omega

theorem names_length : ∀ nm ∈ l.names c, (Text.natDigits nm.2.toNat).length ≤ Text.maxDigits := by
  intro nm h
  have hn : nm.2 < 100 := by
    have hs := l.sunday_mem
    cases c
    case month     => exact Int.lt_trans (mem_abbreviations h).2 (by decide)
    case dayOfWeek =>
      have : nm.2 < l.sunday + 7 := (mem_abbreviations h).2
      omega
    all_goals cases h
  exact Nat.le_trans (Text.length_natDigits_le (by decide : 0 < 2) (by omega)) (by decide)

theorem readInteger_ok (h : l.readInteger c token = .ok n) :
    (Text.natDigits n.toNat).length ≤ Text.maxDigits := by
  rw [readInteger] at h
  split at h
  case h_1 => cases h
  case h_2 s _ =>
    dsimp only at h
    split at h
    case h_1 nm k hf =>
      cases h
      exact names_length _ <| List.mem_of_find?_eq_some hf
    case h_2 =>
      split at h
      case isTrue hd =>
        obtain ⟨k, hk, rfl⟩ := Except.map_eq_ok_iff.mp h
        exact readNumeral_ok hd hk
      case isFalse => cases h

theorem readSingle_fits (h : l.readSingle c token = .ok e) : e.Fits l c .base := by
  rw [readSingle] at h
  split at h
  case isTrue =>
    cases h
    simp
  case isFalse =>
    obtain ⟨n, hn, rfl⟩ := Except.map_eq_ok_iff.mp h
    simp [takes_bound <| readInteger_ok hn]

theorem readSpan_fits {room : Nat} (h : l.readSpan c room tokens = .ok e) : e.Fits l c .base := by
  induction tokens generalizing e room
  case nil => exact readSingle_fits <| by rwa [readSpan] at h
  case cons piece rest hi =>
    cases rest
    case nil => exact readSingle_fits <| by rwa [readSpan] at h
    case cons =>
      cases room
      case zero => cases h
      case succ =>
        simp only [readSpan, Except.bind_eq_ok_iff] at h
        obtain ⟨low, hl, high, hh, h⟩ := h
        split at h
        case isTrue hv =>
          cases h
          rw [Bool.and_eq_true] at hv
          have hl := (readSingle_fits hl).endpoint_of_isValue hv.1
          have hh := (hi hh).endpoint_of_isValue hv.2
          exact .range (.inr <| .inr rfl) hl hh
        case isFalse => cases h

theorem readWidth_fits (h : l.readWidth c token = .ok e) : e.Fits l c .width := by
  rw [readWidth] at h
  split at h
  case h_1 => cases h
  case h_2 =>
    split at h
    case isFalse => cases h
    case isTrue hd =>
      obtain ⟨n, hn, h⟩ := Except.bind_eq_ok_iff.mp h
      split at h
      case isTrue  => cases h
      case isFalse hz =>
        cases h
        refine .value (takes_bound <| readNumeral_ok hd hn) fun _ => one_le_bound ?_
        omega

theorem readToken_fits (h : l.readToken c token = .ok e) : e.Fits l c .member := by
  rw [readToken] at h
  split at h
  case h_1 =>
    obtain ⟨base, hb, h⟩ := Except.bind_eq_ok_iff.mp h
    obtain ⟨width, hw, h⟩ := Except.bind_eq_ok_iff.mp h
    cases h
    exact .step (.inr rfl) (readSpan_fits hb) (readWidth_fits hw)
  case h_2 => exact (readSpan_fits h).member_of_base

theorem readShape_fits {text : Codes} (h : l.readShape c text = .ok e) : e.Fits l c .root := by
  rw [readShape] at h
  split at h
  case h_1 => exact (readToken_fits h).alone
  case h_2 hone =>
    obtain ⟨ms, hms, rfl⟩ := Except.map_eq_ok_iff.mp h
    have hm := Except.mapM_eq_ok_iff.mp hms
    have hne : text.pieces ',' ≠ [] := by
      rw [Codes.pieces, Ne, List.map_eq_nil_iff]
      exact Text.pieces_ne_nil _ _
    have hlen : (text.pieces ',').length ≠ 1 := fun hl =>
      have ⟨token, ht⟩ := List.length_eq_one_iff.mp hl
      hone token ht
    have hpos := List.length_pos_iff.mpr hne
    -- What is read from a token fits as a member, and no other member is read.
    have hfits := (List.forall₂_and_left _ _).mp <|
      hm.flip.imp fun _ _ ht => And.intro (readToken_fits ht) ht
    refine .list ?_ hfits.1
    rw [← hm.length_eq]
    omega

theorem read_fits {text : Codes} {position : Int} (h : l.read c text position = .ok e) :
    e.Fits l c .root :=
  readShape_fits <| Except.mapError_eq_ok_iff.mp h

end Layout
end Cron
