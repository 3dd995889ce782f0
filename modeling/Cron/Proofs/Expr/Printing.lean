import Cron.Proofs.Expr.Reading
import Cron.Proofs.Text.Cutting

namespace Cron

variable {ι : Type} {l l' : Layout} {c : Column} {pos : Position} {e : Expr ι} {n : Int}
variable {x : Char} {s : List Char}

namespace Text

theorem intDigits_of_nonneg (h : 0 ≤ n) : intDigits n = natDigits n.toNat := by
  have ⟨k, hk⟩ := Int.eq_ofNat_of_zero_le h
  subst hk
  rfl

theorem capital_of_isAsciiDigit (h : isAsciiDigit x) : capital x = x := by
  have hx := isAsciiDigit_iff.mp h
  have hs : x ≠ 'ſ' := fun he => by
    subst he
    exact absurd hx (by decide)
  have hi : x ≠ 'ı' := fun he => by
    subst he
    exact absurd hx (by decide)
  have hc : ¬('a'.val ≤ x.val ∧ x.val ≤ 'z'.val) := fun hc => by
    have hc : 97 ≤ x.toNat := hc.1
    omega
  rw [capital, if_neg hs, if_neg hi, Char.toUpper, dif_neg hc]

-- Digits are neither trimmed away nor capitalized.

theorem trim_of_isAsciiDigit (h : ∀ x ∈ s, isAsciiDigit x) : trim s = s :=
  trimWhile_of_none fun x hx => isBlank_eq_false <| h x hx

theorem map_capital_of_isAsciiDigit (h : ∀ x ∈ s, isAsciiDigit x) : s.map capital = s :=
  (List.map_congr_left fun x hx => capital_of_isAsciiDigit <| h x hx).trans (List.map_id _)

end Text

-- The characters beside digits in the text of a part.
def Position.marks : Position → List Char
  | .root               => ['*', '-', '/', ',']
  | .member             => ['*', '-', '/']
  | .base               => ['*', '-']
  | .endpoint | .width  => []

namespace Expr

theorem Fits.mem_cron (h : e.Fits l c pos) (hx : x ∈ e.cron) :
    Text.isAsciiDigit x ∨ x ∈ pos.marks := by
  induction h
  case any hp =>
    rw [cron, List.mem_singleton] at hx
    subst hx
    rcases hp with rfl | rfl | rfl <;> simp [Position.marks]
  case value ht hw =>
    rw [cron, Text.intDigits_of_nonneg ht.length_le.1] at hx
    exact .inl <| Text.isAsciiDigit_of_mem_natDigits hx
  case range hp hl hh hil hih =>
    rw [cron, List.mem_append, List.mem_cons] at hx
    rcases hx with hx | rfl | hx
    · exact .inl <| (hil hx).resolve_right nofun
    · rcases hp with rfl | rfl | rfl <;> simp [Position.marks]
    · exact .inl <| (hih hx).resolve_right nofun
  case step hp hb hw hib hiw =>
    rw [cron, List.mem_append, List.mem_cons] at hx
    rcases hx with hx | rfl | hx
    · refine (hib hx).imp_right fun hx => ?_
      rcases hp with rfl | rfl
      · exact (by decide : Position.base.marks ⊆ Position.root.marks) hx
      · exact (by decide : Position.base.marks ⊆ Position.member.marks) hx
    · rcases hp with rfl | rfl <;> simp [Position.marks]
    · exact .inl <| (hiw hx).resolve_right nofun
  case list hl hm hi =>
    rw [cron, cronAll_eq_map] at hx
    rcases Text.mem_joinWith hx with hx | ⟨t, ht, hx⟩
    · rw [List.mem_singleton] at hx
      simp [hx, Position.marks]
    · obtain ⟨m, hm, rfl⟩ := List.mem_map.mp ht
      exact (hi m hm hx).imp_right fun hx =>
        (by decide : Position.member.marks ⊆ Position.root.marks) hx

theorem Fits.not_mem_cron (h : e.Fits l c pos) (hd : ¬Text.isAsciiDigit x) (hm : x ∉ pos.marks) :
    x ∉ e.cron :=
  fun hx => (h.mem_cron hx).elim hd hm

theorem Fits.cron_ne_nil (h : e.Fits l c pos) : e.cron ≠ [] := by
  cases h
  case any => exact List.cons_ne_nil _ _
  case value n ht _ =>
    rw [cron, Text.intDigits_of_nonneg ht.length_le.1]
    exact Text.natDigits_ne_nil _
  case range  => exact List.append_ne_nil_of_right_ne_nil _ <| List.cons_ne_nil _ _
  case step   => exact List.append_ne_nil_of_right_ne_nil _ <| List.cons_ne_nil _ _
  case list ms hl _ =>
    match ms, hl with
    | m :: m' :: ms, _ =>
      rw [cron, cronAll, cronAll, Text.joinWith_cons_cons]
      simp

end Expr

namespace Layout

theorem bound_of_takes (h : l.Takes c n) : l.bound c n = n := by
  by_cases hc : c = .year
  case pos =>
    subst hc
    exact max_eq_left h.1
  case neg =>
    have h := (takes_iff hc).mp h
    cases c
    case year => exact absurd rfl hc
    all_goals exact Domain.clamp_of_mem h

theorem map_fst_abbreviations (first : Int) (names : List String) :
    (abbreviations first names).map Prod.fst =
      names.map fun name => (name.toList.take 3).map capital := by
  induction names generalizing first
  case nil => rfl
  case cons name names hi => rw [abbreviations, List.map_cons, List.map_cons, hi]

theorem fst_mem_of_mem_abbreviations {first : Int} {names : List String} {nm : List Char × Int}
    (h : nm ∈ abbreviations first names) :
    nm.1 ∈ names.map fun name => (name.toList.take 3).map capital :=
  map_fst_abbreviations first names ▸ List.mem_map_of_mem h

-- A name is not a numeral.
theorem not_isNumeral_of_mem_names {nm : List Char × Int} (h : nm ∈ l.names c) :
    ¬Text.isNumeral nm.1 := by
  have hm : ∀ word ∈ monthNames.map fun name => (name.toList.take 3).map capital,
    ¬Text.isNumeral word := by decide
  have hd : ∀ word ∈ weekdayNames.map fun name => (name.toList.take 3).map capital,
    ¬Text.isNumeral word := by decide
  cases c
  case month      => exact hm _ <| fst_mem_of_mem_abbreviations h
  case dayOfWeek  => exact hd _ <| fst_mem_of_mem_abbreviations h
  all_goals cases h

theorem readNumeral_natDigits {k : Nat} (h : (Text.natDigits k).length ≤ Text.maxDigits) :
    readNumeral (Text.natDigits k) = .ok k := by
  rw [readNumeral, if_pos h, Text.digitsValue_natDigits]

theorem readInteger_natDigits {k : Nat} (h : (Text.natDigits k).length ≤ Text.maxDigits) :
    l.readInteger c (.ofChars (Text.natDigits k)) = .ok k := by
  have hd : ∀ x ∈ Text.natDigits k, Text.isAsciiDigit x := fun x =>
    Text.isAsciiDigit_of_mem_natDigits
  have hw := Text.map_capital_of_isAsciiDigit hd
  have hn : (l.names c).find? (·.1 == Text.natDigits k) = none := by
    refine List.find?_eq_none.mpr fun nm hm he => not_isNumeral_of_mem_names hm ?_
    exact (beq_iff_eq.mp he) ▸ Text.isNumeral_natDigits k
  rw [readInteger, Codes.trim_ofChars, Text.trim_of_isAsciiDigit hd, Codes.chars?_ofChars]
  simp only [hw, hn, if_pos (Text.isNumeral_natDigits k), readNumeral_natDigits h]
  rfl

theorem readSingle_value (h : l.Takes c n) :
    l.readSingle c (.ofChars (Text.intDigits n)) = .ok (.value () n) := by
  have ⟨hn, hl⟩ := h.length_le
  obtain ⟨k, rfl⟩ := Int.eq_ofNat_of_zero_le hn
  have hd : Text.natDigits k ≠ ['*'] ∧ Text.natDigits k ≠ ['?'] := by
    have hk := Text.isNumeral_natDigits k
    constructor <;> exact fun he => absurd (he ▸ hk) (by decide)
  have hr : l.readInteger c (.ofChars (Text.intDigits k)) = .ok k := readInteger_natDigits hl
  rw [readSingle, if_neg, hr]
  · exact congrArg (fun n => Except.ok (Expr.value () n)) <| bound_of_takes h
  · rw [Codes.ofChars_inj, Codes.ofChars_inj, not_or]
    exact hd

theorem readBase_of_not_mem (h : '-' ∉ s) :
    l.readBase c (.ofChars s) = l.readSingle c (.ofChars s) := by
  rw [readBase, Codes.pieces_of_not_mem h, readSpan]

theorem readBase_cron (h : e.Fits l c .base) : l.readBase c (.ofChars e.cron) = .ok e.shape := by
  cases h
  case any => rfl
  case value t n ht _ =>
    have hv : (Expr.value t n).Fits l c .endpoint := .value ht nofun
    rw [readBase_of_not_mem <| hv.not_mem_cron (by decide) (by decide), Expr.cron,
      readSingle_value ht]
    rfl
  case range low high hl hh _ =>
    obtain ⟨_, m, rfl, hm⟩ := Expr.fits_endpoint_iff.mp hl
    obtain ⟨_, n, rfl, hn⟩ := Expr.fits_endpoint_iff.mp hh
    rw [readBase, Expr.cron, Codes.pieces_append_cons <| hl.not_mem_cron (by decide) (by decide),
      Codes.pieces_of_not_mem <| hh.not_mem_cron (by decide) (by decide)]
    simp only [Expr.cron, readSpan, readSingle_value hm, readSingle_value hn]
    rfl
  case step h => simp at h

-- A positive numeral is read as a width, whatever zeros it begins with.
theorem readWidth_eq (hd : Text.isNumeral s) (hl : s.length ≤ Text.maxDigits)
    (hn : Text.digitsValue s ≠ 0) :
    l.readWidth c (.ofChars s) = .ok (.value () (l.bound c (Text.digitsValue s))) := by
  have hr : readNumeral s = .ok (Text.digitsValue s) := if_pos hl
  rw [readWidth, Codes.chars?_ofChars]
  simp only [if_pos hd, hr, bind, Except.bind, if_neg hn]

theorem readWidth_natDigits {k : Nat} (h : (Text.natDigits k).length ≤ Text.maxDigits)
    (hk : k ≠ 0) :
    l.readWidth c (.ofChars (Text.natDigits k)) = .ok (.value () (l.bound c k)) := by
  have hw := readWidth_eq (l := l) (c := c) (Text.isNumeral_natDigits k) h
  rw [Text.digitsValue_natDigits] at hw
  exact hw hk

theorem readWidth_cron (h : e.Fits l c .width) :
    l.readWidth c (.ofChars e.cron) = .ok e.shape := by
  obtain ⟨_, n, rfl, ht, hn⟩ := Expr.fits_width_iff.mp h
  have ⟨hz, hl⟩ := ht.length_le
  obtain ⟨k, rfl⟩ := Int.eq_ofNat_of_zero_le hz
  rw [Int.toNat_natCast] at hl
  have hr := readWidth_natDigits (l := l) (c := c) hl (by omega)
  rw [bound_of_takes ht] at hr
  exact hr

theorem readToken_cron (h : e.Fits l c .member) :
    l.readToken c (.ofChars e.cron) = .ok e.shape := by
  by_cases hk : e.kind = .step
  case pos =>
    cases e <;> cases hk
    case refl base width =>
      have ⟨_, hb, hw⟩ := Expr.fits_step_iff.mp h
      rw [readToken, Expr.cron, Codes.cutAt?_ofChars <| hb.not_mem_cron (by decide) (by decide)]
      simp only [readBase_cron hb, readWidth_cron hw]
      rfl
  case neg =>
    have hb := h.base_of_member hk
    rw [readToken, Codes.cutAt?_ofChars_eq_none <| hb.not_mem_cron (by decide) (by decide)]
    exact readBase_cron hb

theorem readShape_of_two_le {text : Codes} (h : 2 ≤ (text.pieces ',').length) :
    l.readShape c text = ((text.pieces ',').mapM (l.readToken c)).map (.list ()) := by
  rw [readShape]
  split
  case h_1 token ht => simp [ht] at h
  case h_2 => rfl

-- The text of a column reads back as the column.
theorem readShape_cron (h : e.Fits l c .root) :
    l.readShape c (.ofChars e.cron) = .ok e.shape := by
  by_cases hk : e.kind = .list
  case pos =>
    obtain ⟨t, ms, rfl⟩ : ∃ t ms, e = .list t ms := by cases e <;> simp_all [Expr.kind]
    obtain ⟨-, hl, hm⟩ := Expr.fits_list_iff.mp h
    have hne : ms.map (·.cron) ≠ [] := by
      rw [Ne, List.map_eq_nil_iff, ← List.length_eq_zero_iff]
      omega
    have htokens : (Codes.ofChars (Expr.list t ms).cron).pieces ',' =
        (ms.map (·.cron)).map Codes.ofChars := by
      rw [Expr.cron, Expr.cronAll_eq_map, Codes.pieces_joinWith hne]
      exact List.forall_mem_map.mpr fun m hm' => (hm m hm').not_mem_cron (by decide) (by decide)
    have hread : ((ms.map (·.cron)).map Codes.ofChars).mapM (l.readToken c) =
        .ok (ms.map (·.shape)) := by
      rw [Except.mapM_eq_ok_iff, List.map_map, List.forall₂_map_left_iff,
        List.forall₂_map_right_iff, List.forall₂_same]
      exact fun m hm' => readToken_cron (hm m hm')
    rw [readShape_of_two_le (by simpa [htokens] using hl), htokens, hread, Expr.shape_list]
    rfl
  case neg =>
    have hm := h.member_of_root hk
    rw [readShape, Codes.pieces_of_not_mem <| hm.not_mem_cron (by decide) (by decide)]
    exact readToken_cron hm

theorem read_cron (h : e.Fits l c .root) (position : Int) :
    l.read c (.ofChars e.cron) position = .ok e.shape := by
  rw [read, readShape_cron h]
  rfl

end Layout

end Cron
