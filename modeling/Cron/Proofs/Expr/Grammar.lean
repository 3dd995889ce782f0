import Cron.Proofs.Expr.Printing
import Cron.Proofs.Text.Runs

-- The grammar of the text of a column, as relations between texts and what they write:
--
--     column  ::=  token  |  token , token , …
--     token   ::=  base  |  base / width
--     base    ::=  single  |  integer - integer
--     single  ::=  *  |  ?  |  integer
--
-- An integer is a name of the column or a numeral, a width a positive numeral. No separator is part
-- of what it separates, so a text is cut at the first that it has.

namespace Cron

namespace Layout

-- The white space around an integer and the case of its letters do not matter.
inductive WritesInteger (l : Layout) (c : Column) (token : Codes) : Int → Prop
  | name {s n} (ht : token.trim = .ofChars s) (h : (s.map capital, n) ∈ l.names c) :
    WritesInteger l c token n
  | numeral {s} (ht : token.trim = .ofChars s) (h : Text.isNumeral (s.map capital)) :
    WritesInteger l c token (Text.digitsValue (s.map capital))

inductive WritesSingle (l : Layout) (c : Column) (token : Codes) : Shape → Prop
  | any (h : token = .ofChars ['*'] ∨ token = .ofChars ['?']) : WritesSingle l c token (.any ())
  | value {n} (h : l.WritesInteger c token n) : WritesSingle l c token (.value () (l.bound c n))

@[mk_iff]
inductive WritesBase (l : Layout) (c : Column) : Codes → Shape → Prop
  | single {token e} (h : l.WritesSingle c token e) : WritesBase l c token e
  | range {low high m n} (hl : l.WritesInteger c low m) (hh : l.WritesInteger c high n) :
    WritesBase l c (low ++ .ofChars ['-'] ++ high)
      (.range () (.value () (l.bound c m)) (.value () (l.bound c n)))

-- Nothing is trimmed off a width.
inductive WritesWidth (l : Layout) (c : Column) (text : Codes) : Shape → Prop
  | numeral {s} (ht : text = .ofChars s) (h : Text.isNumeral s) (hp : 0 < Text.digitsValue s) :
    WritesWidth l c text (.value () (l.bound c (Text.digitsValue s)))

@[mk_iff]
inductive WritesToken (l : Layout) (c : Column) : Codes → Shape → Prop
  | base {token e} (h : l.WritesBase c token e) : WritesToken l c token e
  | step {base width e w} (hb : l.WritesBase c base e) (hw : l.WritesWidth c width w) :
    WritesToken l c (base ++ .ofChars ['/'] ++ width) (.step () e w)

@[mk_iff]
inductive Writes (l : Layout) (c : Column) : Codes → Shape → Prop
  | token {token e} (h : l.WritesToken c token e) : Writes l c token e
  | list {tokens es} (hl : 2 ≤ tokens.length) (h : List.Forall₂ (l.WritesToken c) tokens es) :
    Writes l c (.join (.ofChars [',']) tokens) (.list () es)

variable {l : Layout} {c : Column} {token text before after : Codes} {e : Shape} {n : Int}
variable {s : List Char} {x : Char}

section Names

theorem nodup_names (l : Layout) (c : Column) : ((l.names c).map Prod.fst).Nodup := by
  cases c
  case month =>
    rw [names, map_fst_abbreviations]
    decide
  case dayOfWeek =>
    rw [names, map_fst_abbreviations]
    decide
  all_goals exact List.nodup_nil

theorem isUpper_of_mem_names {nm : List Char × Int} (h : nm ∈ l.names c) :
    nm.1.all Char.isUpper := by
  have hn (names : List String)
      (hu : ∀ word ∈ names.map fun name => (name.toList.take 3).map capital, word.all Char.isUpper)
      (first : Int) (h : nm ∈ abbreviations first names) : nm.1.all Char.isUpper :=
    hu nm.1 <| fst_mem_of_mem_abbreviations h
  cases c
  case month      => exact hn monthNames (by decide) _ h
  case dayOfWeek  => exact hn weekdayNames (by decide) _ h
  all_goals cases h

end Names

section Characters

theorem isUpper_capital (h : capital x ≠ x) : (capital x).isUpper := by
  rw [capital] at *
  split_ifs at *
  case pos    => rfl
  case pos    => rfl
  case neg    =>
    have hl : x.isLower := of_not_not fun hl => h <| Char.toUpper_eq_of_not_isLower hl
    rw [Char.isUpper_toUpper_eq_isAlpha, Char.isAlpha, hl, Bool.or_true]

-- Nothing but itself becomes a character other than a capital.
theorem eq_capital_of_not_isUpper (h : ¬(capital x).isUpper) : capital x = x :=
  of_not_not fun he => h <| isUpper_capital he

theorem not_isUpper_of_isAsciiDigit (h : Text.isAsciiDigit x) : ¬x.isUpper := by
  have hx := Text.isAsciiDigit_iff.mp h
  rw [Char.isUpper, decide_eq_true_iff]
  rintro ⟨hu, -⟩
  have hu : 65 ≤ x.toNat := hu
  omega

theorem map_capital_of_isNumeral (h : Text.isNumeral (s.map capital)) : s.map capital = s := by
  refine (List.map_congr_left fun x hx => ?_).trans s.map_id
  have hd := (Text.isNumeral_iff.mp h).2 (capital x) <| List.mem_map_of_mem hx
  exact eq_capital_of_not_isUpper <| not_isUpper_of_isAsciiDigit hd

-- The characters with a meaning of their own.
def marks : List Char := ['*', '?', '-', '/', ',']

theorem not_mem_of_mem_names (h : (s.map capital, n) ∈ l.names c) (hx : ¬x.isUpper)
    (hc : capital x = x) : x ∉ s := by
  intro hm
  have hu := List.all_eq_true.mp (isUpper_of_mem_names h) (capital x) <| List.mem_map_of_mem hm
  exact hx <| hc ▸ hu

theorem not_mem_of_isNumeral (h : Text.isNumeral s) (hx : ¬Text.isAsciiDigit x) : x ∉ s :=
  fun hm => hx <| (Text.isNumeral_iff.mp h).2 x hm

theorem WritesInteger.not_mem (h : l.WritesInteger c token n) (hx : x ∈ marks) :
    .char x ∉ token.points := by
  have hblank : ∀ x ∈ marks, Text.isBlank x = false := by simp [marks, Text.isBlank]
  have hother : ∀ x ∈ marks, capital x = x ∧ ¬x.isUpper ∧ ¬Text.isAsciiDigit x := by
    simp [marks, capital, Text.isAsciiDigit]
  obtain ⟨hc, hu, hd⟩ := hother x hx
  intro hm
  have hm : .char x ∈ token.trim.points := Codes.mem_trim (hblank x hx) hm
  cases h
  case name s ht h =>
    rw [ht] at hm
    exact Codes.not_mem_points (not_mem_of_mem_names h hu hc) hm
  case numeral s ht h =>
    rw [map_capital_of_isNumeral h] at h
    rw [ht] at hm
    exact Codes.not_mem_points (not_mem_of_isNumeral h hd) hm

theorem WritesSingle.not_mem (h : l.WritesSingle c token e) (hx : x ∈ marks) (ha : x ≠ '*')
    (hq : x ≠ '?') : .char x ∉ token.points := by
  cases h
  case any h =>
    rcases h with rfl | rfl
    · exact Codes.not_mem_points <| by simpa using ha
    · exact Codes.not_mem_points <| by simpa using hq
  case value h => exact h.not_mem hx

theorem WritesBase.not_mem (h : l.WritesBase c token e) (hx : x = '/' ∨ x = ',') :
    .char x ∉ token.points := by
  have hm : x ∈ marks ∧ x ≠ '*' ∧ x ≠ '?' ∧ x ≠ '-' := by rcases hx with rfl | rfl <;> decide
  cases h
  case single h   => exact h.not_mem hm.1 hm.2.1 hm.2.2.1
  case range hl hh =>
    exact Codes.not_mem_append (hl.not_mem hm.1) hm.2.2.2 (hh.not_mem hm.1)

theorem WritesWidth.not_mem (h : l.WritesWidth c token e) (hx : ¬Text.isAsciiDigit x) :
    .char x ∉ token.points := by
  cases h
  case numeral ht h _ =>
    subst ht
    exact Codes.not_mem_points <| not_mem_of_isNumeral h hx

theorem WritesToken.not_mem (h : l.WritesToken c token e) : .char ',' ∉ token.points := by
  cases h
  case base h     => exact h.not_mem <| .inr rfl
  case step hb hw =>
    exact Codes.not_mem_append (hb.not_mem <| .inr rfl) (by decide) (hw.not_mem (by decide))

end Characters

-- What a text writes depends on its cut at the first separator alone.
section Cuts

theorem writesInteger_iff (ht : token.trim = .ofChars s) :
    l.WritesInteger c token n ↔ (s.map capital, n) ∈ l.names c ∨
      Text.isNumeral (s.map capital) ∧ n = Text.digitsValue (s.map capital) where
  mp h := by
    cases h
    case name ht' h =>
      obtain rfl := Codes.ofChars_inj.mp <| ht.symm.trans ht'
      exact .inl h
    case numeral ht' h =>
      obtain rfl := Codes.ofChars_inj.mp <| ht.symm.trans ht'
      exact .inr ⟨h, rfl⟩
  mpr h := by
    rcases h with h | ⟨h, rfl⟩
    · exact .name ht h
    · exact .numeral ht h

-- No two names are the same, and no name is a numeral.
theorem writesInteger_iff_eq (ht : token.trim = .ofChars s) (h : (s.map capital, n) ∈ l.names c)
    (m : Int) : l.WritesInteger c token m ↔ m = n := by
  rw [writesInteger_iff ht]
  constructor
  · rintro (h' | ⟨h', -⟩)
    · exact congrArg Prod.snd <| List.inj_on_of_nodup_map (nodup_names l c) h' h rfl
    · exact absurd h' <| not_isNumeral_of_mem_names h
  · rintro rfl
    exact .inl h

theorem writesWidth_iff :
    l.WritesWidth c (.ofChars s) e ↔ Text.isNumeral s ∧ 0 < Text.digitsValue s ∧
      e = .value () (l.bound c (Text.digitsValue s)) where
  mp h := by
    obtain ⟨ht, hd, hp⟩ := h
    obtain rfl := Codes.ofChars_inj.mp ht
    exact ⟨hd, hp, rfl⟩
  mpr h := by
    obtain ⟨hd, hp, rfl⟩ := h
    exact .numeral rfl hd hp

theorem WritesSingle.of_isValue (h : l.WritesSingle c token e) (hv : e.isValue) :
    ∃ n, l.WritesInteger c token n ∧ e = .value () (l.bound c n) := by
  cases h
  case any      => cases hv
  case value hn => exact ⟨_, hn, rfl⟩

theorem WritesBase.of_isValue (h : l.WritesBase c token e) (hv : e.isValue) :
    ∃ n, l.WritesInteger c token n ∧ e = .value () (l.bound c n) := by
  cases h
  case single h => exact h.of_isValue hv
  case range    => cases hv

-- The ends of a range, on both sides of its first dash.
theorem writesBase_append_iff (hb : .char '-' ∉ before.points) :
    l.WritesBase c (before ++ .ofChars ['-'] ++ after) e ↔
      ∃ low, l.WritesSingle c before low ∧ ∃ high, l.WritesBase c after high ∧
        (low.isValue ∧ high.isValue) ∧ e = .range () low high := by
  rw [writesBase_iff]
  constructor
  · rintro (h | ⟨before', after', m, n, hl, hh, ht, rfl⟩)
    · refine absurd ?_ <| h.not_mem (x := '-') (by decide) (by decide) (by decide)
      simp [Codes.points_append]
    · obtain ⟨rfl, rfl⟩ := Codes.append_inj hb (hl.not_mem (by decide)) ht
      exact ⟨_, .value hl, _, .single (.value hh), ⟨rfl, rfl⟩, rfl⟩
  · rintro ⟨low, hl, high, hh, ⟨hlv, hhv⟩, rfl⟩
    obtain ⟨m, hm, rfl⟩ := hl.of_isValue hlv
    obtain ⟨n, hn, rfl⟩ := hh.of_isValue hhv
    exact .inr ⟨_, _, _, _, hm, hn, rfl, rfl⟩

theorem writesBase_iff_writesSingle (h : .char '-' ∉ token.points) :
    l.WritesBase c token e ↔ l.WritesSingle c token e := by
  refine ⟨fun hb => ?_, .single⟩
  cases hb
  case single hs  => exact hs
  case range      => simp [Codes.points_append] at h

theorem writesToken_append_iff (hb : .char '/' ∉ before.points) :
    l.WritesToken c (before ++ .ofChars ['/'] ++ after) e ↔
      ∃ base, l.WritesBase c before base ∧ ∃ width, l.WritesWidth c after width ∧
        e = .step () base width := by
  rw [writesToken_iff]
  constructor
  · rintro (h | ⟨before', after', base, width, hbase, hwidth, ht, rfl⟩)
    · refine absurd ?_ <| h.not_mem (x := '/') (.inl rfl)
      simp [Codes.points_append]
    · obtain ⟨rfl, rfl⟩ := Codes.append_inj hb (hbase.not_mem (.inl rfl)) ht
      exact ⟨base, hbase, width, hwidth, rfl⟩
  · rintro ⟨base, hbase, width, hwidth, rfl⟩
    exact .inr ⟨_, _, _, _, hbase, hwidth, rfl, rfl⟩

theorem writesToken_iff_writesBase (h : .char '/' ∉ token.points) :
    l.WritesToken c token e ↔ l.WritesBase c token e := by
  refine ⟨fun ht => ?_, .base⟩
  cases ht
  case base hb  => exact hb
  case step     => simp [Codes.points_append] at h

theorem pieces_join_of_writesToken {tokens : List Codes} {es : List Shape}
    (hl : 2 ≤ tokens.length) (h : List.Forall₂ (l.WritesToken c) tokens es) :
    (Codes.join (.ofChars [',']) tokens).pieces ',' = tokens := by
  have hm : List.Forall₂ (fun token e => .char ',' ∉ token.points ∧ l.WritesToken c token e)
      tokens es := h.imp fun _ _ ht => ⟨ht.not_mem, ht⟩
  refine Codes.pieces_join (List.ne_nil_of_length_pos (by omega)) ?_
  exact ((List.forall₂_and_left _ _).mp hm).1

theorem writes_iff_forall₂ (h : .char ',' ∈ text.points) :
    l.Writes c text e ↔
      ∃ es, List.Forall₂ (l.WritesToken c) (text.pieces ',') es ∧ e = .list () es := by
  rw [writes_iff]
  constructor
  · rintro (ht | ⟨tokens, es, hl, hes, rfl, rfl⟩)
    · exact absurd h ht.not_mem
    · exact ⟨es, by rwa [pieces_join_of_writesToken hl hes], rfl⟩
  · rintro ⟨es, hes, rfl⟩
    exact .inr ⟨_, es, Codes.two_le_length_pieces h, hes, (Codes.join_pieces ',' text).symm, rfl⟩

theorem writes_iff_writesToken (h : .char ',' ∉ text.points) :
    l.Writes c text e ↔ l.WritesToken c text e := by
  refine ⟨fun hw => ?_, .token⟩
  cases hw
  case token ht => exact ht
  case list hl hes =>
    rw [← pieces_join_of_writesToken hl hes, Codes.pieces_eq_singleton h] at hl
    simp at hl

end Cuts

end Layout

end Cron
