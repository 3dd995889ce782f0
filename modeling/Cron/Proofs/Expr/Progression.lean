import Cron.Proofs.Expr.Bounds
import Cron.Proofs.Expr.Stepping

-- What a step selects from its base when it is written as a text over the text of the base: from
-- the least value of the base on, every multiple of the number written, up to the greatest. A
-- number beyond the last integer of the column counts as this integer.

namespace Cron

variable {ι : Type} {d : Domain} {e base width : Expr ι} {l : Layout} {c : Column} {pos : Position}
variable {v n first last : Int}

namespace Layout

variable {text : Codes} {e : Shape} {digits : List Char}

-- A text that writes neither a list nor a step is a token without slash.
theorem readBase_of_readShape (h : l.readShape c text = .ok e) (hl : e.kind ≠ .list)
    (hs : e.kind ≠ .step) :
    .char ',' ∉ text.points ∧ .char '/' ∉ text.points ∧ l.readBase c text = .ok e := by
  have hcomma : .char ',' ∉ text.points := fun hm => by
    rw [readShape_of_two_le <| Codes.two_le_length_pieces hm] at h
    obtain ⟨ms, -, rfl⟩ := Except.map_eq_ok_iff.mp h
    exact hl rfl
  rw [readShape, Codes.pieces_eq_singleton hcomma] at h
  simp only [readToken] at h
  have hslash : .char '/' ∉ text.points := fun hm => by
    obtain ⟨before, after, hcut⟩ := Codes.exists_cutAt? hm
    simp only [hcut, Except.bind_eq_ok_iff] at h
    obtain ⟨base, -, width, -, h⟩ := h
    cases h
    exact hs rfl
  rw [Codes.cutAt?_eq_none hslash] at h
  exact ⟨hcomma, hslash, h⟩

-- A number written behind a slash makes a step of such a text.
theorem readShape_step {base : Shape} (h : l.readShape c text = .ok base) (hl : base.kind ≠ .list)
    (hs : base.kind ≠ .step) (hd : Text.isNumeral digits) (hlen : digits.length ≤ Text.maxDigits)
    (hn : Text.digitsValue digits ≠ 0) :
    l.readShape c (text ++ .ofChars ('/' :: digits)) =
      .ok (.step () base (.value () (l.bound c (Text.digitsValue digits)))) := by
  obtain ⟨hcomma, hslash, hbase⟩ := readBase_of_readShape h hl hs
  have hdigits : ',' ∉ '/' :: digits := fun hm => by
    rcases List.mem_cons.mp hm with he | hm
    · exact absurd he (by decide)
    · exact absurd ((Text.isNumeral_iff.mp hd).2 _ hm) (by decide)
  have hall : .char ',' ∉ (text ++ .ofChars ('/' :: digits)).points := fun hm =>
    (List.mem_append.mp hm).elim hcomma <| Codes.not_mem_points hdigits
  rw [readShape, Codes.pieces_eq_singleton hall]
  simp only [readToken, Codes.cutAt?_append hslash, hbase, readWidth_eq hd hlen hn]
  rfl

theorem one_le_upper (hc : c ≠ .year) : 1 ≤ (l.domain c).upper := by
  have hs := l.sunday_mem
  cases c
  case year => exact absurd rfl hc
  all_goals
    simp only [domain]
    omega

-- A positive integer is moved into the domain from above only.
theorem bound_of_one_le (hc : c ≠ .year) (hn : 1 ≤ n) : l.bound c n = min n (l.domain c).upper := by
  have hl := lower_le_one (l := l) hc
  have hu := one_le_upper (l := l) hc
  have hb : l.bound c n = (l.domain c).clamp n := by
    cases c
    case year => exact absurd rfl hc
    all_goals rfl
  rw [hb, Domain.clamp]
  omega

end Layout

namespace Expr

-- An expression tells of every integer whether it matches it; it matches those with a property.
def Selects (d : Domain) (e : Expr ι) (P : Int → Prop) : Prop :=
  ∀ v, ∃ b, e.matches? d v = some b ∧ (b ↔ P v)

theorem Selects.congr {P Q : Int → Prop} (h : e.Selects d P) (hp : ∀ v, P v ↔ Q v) :
    e.Selects d Q := fun v =>
  have ⟨b, hb, hv⟩ := h v
  ⟨b, hb, hv.trans (hp v)⟩

theorem Selects.matches?_eq_true_iff {P : Int → Prop} (h : e.Selects d P) :
    e.matches? d v = some true ↔ P v := by
  obtain ⟨b, hb, hv⟩ := h v
  rw [hb, Option.some_inj]
  exact hv

-- The bases that count from their least value up to their greatest.
inductive Ascending : Shape → Prop
  | any : Ascending (.any ())
  | value {n : Int} : Ascending (.value () n)
  | range {lo hi : Int} : lo ≤ hi → Ascending (interval lo hi)

-- The integers from `first` on in steps of `n`, as far as `last`.
def Progression (first n last v : Int) : Prop := ∃ k : Nat, v = first + k * n ∧ v ≤ last

theorem holds_step_iff_progression {t : ι} (ht : base.ceiling? d = some last)
    (hle : base.floor d ≤ last) :
    Holds d (.step t base width) v ↔ Progression (base.floor d) width.literal last v := by
  rw [holds_step_iff]
  constructor
  · rintro (rfl | ⟨k, top, ht', rfl, hk⟩)
    · exact ⟨0, by simp, hle⟩
    · cases ht.symm.trans ht'
      exact ⟨k, rfl, hk⟩
  · rintro ⟨k, rfl, hk⟩
    exact .inr ⟨k, last, ht, rfl, hk⟩

-- Steps that are longer than the way to the end reach nothing but the beginning.
theorem progression_of_lt (hle : first ≤ last) (hn : last - first < n) :
    Progression first n last v ↔ v = first := by
  constructor
  · rintro ⟨k, rfl, hk⟩
    rcases Nat.eq_zero_or_pos k with rfl | hpos
    · simp
    · have : 1 * n ≤ k * n := Int.mul_le_mul_of_nonneg_right (by omega) (by omega)
      omega
  · rintro rfl
    exact ⟨0, by simp, hle⟩

theorem progression_of_sub_eq (hn : 0 < n) (he : last - first = n) :
    Progression first n last v ↔ v = first ∨ v = last := by
  constructor
  · rintro ⟨k, rfl, hk⟩
    have hk : k < 2 := by
      by_contra hlt
      have : 2 * n ≤ k * n := Int.mul_le_mul_of_nonneg_right (by omega) (by omega)
      omega
    interval_cases k
    · simp
    · exact .inr <| by push_cast; omega
  · rintro (rfl | rfl)
    · exact ⟨0, by simp, by omega⟩
    · exact ⟨1, by push_cast; omega, Int.le_refl _⟩

-- Steps that are shortened to the end of the column select the same, unless they reach just there.
theorem progression_min {upper : Int} (hf : 0 ≤ first) (hle : first ≤ last) (hl : last ≤ upper)
    (hcase : n ≤ upper ∨ first ≠ 0 ∨ last ≠ upper) :
    Progression first (min n upper) last v ↔ Progression first n last v := by
  rcases le_or_gt n upper with hn | hlt
  · rw [min_eq_left hn]
  · have hlong : last - first < n := by omega
    have hshort : last - first < min n upper := by omega
    rw [progression_of_lt hle hlong, progression_of_lt hle hshort]

-- The values of a base that an expression of the column counts from and up to.
def IsSpan (d : Domain) (e : Expr ι) (first last : Int) : Prop :=
  IsLeast {v | v ∈ d ∧ e.matches? d v = some true} first ∧
    IsGreatest {v | v ∈ d ∧ e.matches? d v = some true} last

theorem Fits.selects (h : e.Fits l c pos) (hd : 0 ≤ (l.domain c).lower) :
    e.Selects (l.domain c) (Holds (l.domain c) e) :=
  h.matches?_eq hd

theorem Fits.matches?_eq_true_iff (h : e.Fits l c pos) (hc : c ≠ .year) :
    e.matches? (l.domain c) v = some true ↔ Holds (l.domain c) e v :=
  (h.selects <| Layout.lower_nonneg hc).matches?_eq_true_iff

theorem Ascending.kind_ne {base : Shape} (ha : base.Ascending) :
    base.kind ≠ .list ∧ base.kind ≠ .step := by
  cases ha <;> exact ⟨nofun, nofun⟩

theorem Ascending.fits {base : Shape} (ha : base.Ascending) (h : base.Fits l c .root) :
    base.Fits l c .base := by
  cases ha
  case any   => exact .any <| .inr <| .inr rfl
  case value => exact fits_value_iff.mpr <| by simpa using fits_value_iff.mp h
  case range => exact fits_range_iff.mpr <| by simpa using fits_range_iff.mp h

theorem Ascending.wraps? {base : Shape} (ha : base.Ascending) (d : Domain) :
    ∀ q ∈ base.preorder, q.wraps? d = some false := by
  cases ha
  case any    => simp [preorder, Expr.wraps?]
  case value  => simp [preorder, Expr.wraps?]
  case range hle =>
    simp [interval, preorder, Expr.wraps?, ceiling?, floor, Int.not_lt.mpr hle]

section Columns

variable (hc : c ≠ .year)

include hc

-- Where no range wraps, an expression reaches from its floor up to its ceiling.
theorem Fits.isSpan (h : e.Fits l c pos)
    (hw : ∀ q ∈ e.preorder, q.wraps? (l.domain c) = some false) :
    ∃ last, e.ceiling? (l.domain c) = some last ∧
      e.IsSpan (l.domain c) (e.floor (l.domain c)) last := by
  obtain ⟨last, hb⟩ := h.bounded hc
  simp only [IsSpan, h.matches?_eq_true_iff hc]
  exact ⟨last, hb.ceiling, hb.least hw, hb.greatest⟩

-- A base counts from its floor up to its ceiling.
theorem Ascending.isSpan {base : Shape} (ha : base.Ascending) (hf : base.Fits l c .base) :
    ∃ last, base.ceiling? (l.domain c) = some last ∧
      base.IsSpan (l.domain c) (base.floor (l.domain c)) last :=
  hf.isSpan hc <| ha.wraps? _

end Columns

section Steps

variable {text : Codes} {base : Shape} {digits : List Char}

-- A text that ends in a slash and a number selects from the values of the text before it: from the
-- first of them on, every multiple of the number up to the last, and so only the first if the
-- number is greater than the way from there to the last. It is otherwise only where the number is
-- greater than every value of the column, and the values before the slash reach from 0 to the last
-- integer of the column: the number counts as this integer, and the last value is selected as well.
theorem step_selects_progression (hc : c ≠ .year) (hb : l.readShape c text = .ok base)
    (ha : base.Ascending) (hd : Text.isNumeral digits) (hlen : digits.length ≤ Text.maxDigits)
    (hn : 0 < Text.digitsValue digits) :
    let d := l.domain c
    let n : Int := Text.digitsValue digits
    ∃ (stepped : Shape) (first last : Int),
      l.readShape c (text ++ .ofChars ('/' :: digits)) = .ok stepped ∧ base.IsSpan d first last ∧
      (n ≤ d.upper ∨ first ≠ 0 ∨ last ≠ d.upper →
        stepped.Selects d (Progression first n last) ∧
        (last - first < n → stepped.Selects d fun v => v = first)) ∧
      (d.upper < n ∧ first = 0 ∧ last = d.upper →
        stepped.Selects d fun v => v = first ∨ v = last) := by
  intro d n
  have hn : 1 ≤ n := by omega
  have hf := ha.fits <| Layout.readShape_fits hb
  obtain ⟨hlist, hstep⟩ := ha.kind_ne
  obtain ⟨last, htop, hspan⟩ := ha.isSpan hc hf
  have hread := Layout.readShape_step hb hlist hstep hd hlen (by omega)
  rw [Layout.bound_of_one_le hc hn] at hread
  have hle : base.floor d ≤ last := hspan.1.2 hspan.2.1
  have hzero : 0 ≤ base.floor d := (Layout.lower_nonneg hc).trans hspan.1.1.1.1
  have hupper : last ≤ d.upper := hspan.2.1.1.2
  have hsel : (Expr.step () base (.value () (min n d.upper))).Selects d
      (Progression (base.floor d) (min n d.upper) last) :=
    ((Layout.readShape_fits hread).selects <| Layout.lower_nonneg hc).congr fun v =>
      holds_step_iff_progression htop hle
  refine ⟨_, base.floor d, last, hread, hspan, fun hcase => ?_, fun hcase => ?_⟩
  · have hsel := hsel.congr fun v => progression_min hzero hle hupper hcase
    exact ⟨hsel, fun hlt => hsel.congr fun v => progression_of_lt hle hlt⟩
  · obtain ⟨hlt, hfirst, hlast⟩ := hcase
    have hone : 1 ≤ d.upper := Layout.one_le_upper hc
    exact hsel.congr fun v => progression_of_sub_eq (by omega) (by omega)

-- Numbers with zeros in front, past the end of the column: in one of values from 1 on, and over a
-- range that stops short of the end.
theorem step_selects_progression_past_end :
    let l : Layout := ⟨.quartz, 2024, 100, 900⟩
    ∃ stepped first last, l.readShape .dayOfWeek "mon-FRI/08" = .ok stepped ∧
      (interval 2 6).IsSpan (l.domain .dayOfWeek) first last ∧
      stepped.Selects (l.domain .dayOfWeek) (Progression first 8 last) := by
  intro l
  have hc : Column.dayOfWeek ≠ .year := by decide
  have hb : l.readShape .dayOfWeek "mon-FRI" = .ok (interval 2 6) := rfl
  have ha : (interval 2 6).Ascending := .range (by decide)
  have hd : Text.isNumeral ['0', '8'] := by decide
  obtain ⟨stepped, first, last, hr, hs, hp, -⟩ :=
    step_selects_progression hc hb ha hd (by decide) (by decide)
  have hfirst : 1 ≤ first := hs.1.1.1.1
  exact ⟨stepped, first, last, hr, hs, (hp <| .inr <| .inl <| by omega).1⟩

-- A step of sixty minutes over the whole hour selects its last minute, which lies no sixty minutes
-- after the first.
theorem step_past_end_selects_last :
    let l : Layout := ⟨.unix, 2024, 100, 900⟩
    ∃ stepped : Shape, l.readShape .minute "*/60" = .ok stepped ∧
      (any () : Shape).IsSpan (l.domain .minute) 0 59 ∧
      stepped.matches? (l.domain .minute) 59 = some true ∧ ¬Progression 0 60 59 59 := by
  intro l
  obtain ⟨last, htop, hs⟩ := Ascending.any.isSpan (l := l) (c := .minute) nofun (by simp)
  cases htop
  refine ⟨.step () (.any ()) (.value () 59), rfl, hs, by decide, ?_⟩
  rw [progression_of_lt (by decide) (by decide)]
  decide

end Steps

end Expr

end Cron
