import Cron.English
import Cron.Proofs.Expr.Values

-- Weekdays are numbered from 0 or from 1 on. An expression written for the one numbering says the
-- same in the other when every value in it is counted up; the widths of steps count days, and stay.

namespace Cron

def Domain.up (d : Domain) : Domain := ⟨d.lower + 1, d.upper + 1⟩

namespace Expr

variable {ι : Type}

mutual

def renumber : Expr ι → Expr ι
  | any t => any t
  | value t n => value t (n + 1)
  | range t low high => range t low.renumber high.renumber
  | step t base width => step t base.renumber width
  | list t members => list t (renumberAll members)

def renumberAll : List (Expr ι) → List (Expr ι)
  | [] => []
  | e :: rest => e.renumber :: renumberAll rest

end

variable {l l' : Layout} {c : Column} {pos : Position} {e : Expr ι} {d : Domain} {n : Int}

theorem renumberAll_eq_map (es : List (Expr ι)) : renumberAll es = es.map renumber := by
  induction es
  case nil            => rfl
  case cons e rest hi => rw [renumberAll, hi, List.map_cons]

-- What may be counted up, and what is kept, may stand where it stood.
theorem Fits.renumber (hv : ∀ n, l.Takes c n → l'.Takes c (n + 1))
    (hw : ∀ n, 1 ≤ n → l.Takes c n → l'.Takes c n) (h : e.Fits l c pos) (hp : pos ≠ .width) :
    e.renumber.Fits l' c pos := by
  induction h
  case any hpos             => exact .any hpos
  case value ht _           => exact .value (hv _ ht) (absurd · hp)
  case range hpos _ _ hl hh => exact .range hpos (hl nofun) (hh nofun)
  case step hpos _ hwidth hb _ =>
    obtain ⟨t, n, rfl, ht, hn⟩ := fits_width_iff.mp hwidth
    exact .step hpos (hb nofun) <| .value (hw n hn ht) fun _ => hn
  case list hl _ hm =>
    rw [Expr.renumber, renumberAll_eq_map]
    refine .list (by simpa using hl) fun m' hm' => ?_
    obtain ⟨m, hmem, rfl⟩ := List.mem_map.mp hm'
    exact hm m hmem nofun

section Values

theorem Fits.literal_renumber (h : e.Fits l c .endpoint) :
    e.renumber.literal = e.literal + 1 := by
  obtain ⟨t, n, rfl, -⟩ := fits_endpoint_iff.mp h
  rfl

theorem Fits.floor_renumber (h : e.Fits l c .base) : e.renumber.floor d.up = e.floor d + 1 := by
  cases h
  case any   => rfl
  case value => rfl
  case range hl _ _ =>
    obtain ⟨t, n, rfl, -⟩ := fits_endpoint_iff.mp hl
    rfl
  case step => simp_all

theorem Fits.ceiling?_renumber (h : e.Fits l c .base) :
    e.renumber.ceiling? d.up = (e.ceiling? d).map (· + 1) := by
  cases h
  case any   => rfl
  case value => rfl
  case range hl hh _ =>
    obtain ⟨t, low, rfl, -⟩ := fits_endpoint_iff.mp hl
    obtain ⟨t', high, rfl, -⟩ := fits_endpoint_iff.mp hh
    simp only [Expr.renumber, ceiling?, floor, Domain.up, Option.map_some, Int.add_lt_add_iff_right]
    by_cases hw : high < low <;> simp [hw]
  case step => simp_all

-- An expression that is counted up stands for what it stood for, counted up.
theorem Fits.holds_renumber_iff (h : e.Fits l c pos) :
    Holds d.up e.renumber (n + 1) ↔ Holds d e n := by
  induction e generalizing pos
  case any => simp [Expr.renumber]
  case value => simp [Expr.renumber]
  case range t low high _ _ =>
    obtain ⟨-, hl, hh⟩ := fits_range_iff.mp h
    simp only [Expr.renumber, holds_range_iff, hl.literal_renumber, hh.literal_renumber]
    omega
  case step t base width _ _ =>
    obtain ⟨-, hb, -⟩ := fits_step_iff.mp h
    simp only [Expr.renumber, holds_step_iff, hb.floor_renumber, hb.ceiling?_renumber,
      Option.map_eq_some_iff]
    constructor
    · rintro (hn | ⟨k, top, ⟨top', ht, rfl⟩, hn, hle⟩)
      · exact .inl <| by omega
      · exact .inr ⟨k, top', ht, by omega, by omega⟩
    · rintro (hn | ⟨k, top, ht, hn, hle⟩)
      · exact .inl <| by omega
      · exact .inr ⟨k, top + 1, ⟨top, ht, rfl⟩, by omega, by omega⟩
  case list t ms hi =>
    obtain ⟨-, -, hms⟩ := fits_list_iff.mp h
    simp only [Expr.renumber, renumberAll_eq_map, holds_list_iff, List.mem_map,
      exists_exists_and_eq_and]
    exact exists_congr fun m => and_congr_right fun hm => hi m hm (hms m hm)

end Values

end Expr

namespace Layout

variable {ι : Type} {l l' : Layout} {e : Expr ι} {pos : Position}

-- Counted up, a value names the same day where weekdays begin one later.
theorem valueName_up (hs : l'.sunday = l.sunday + 1) (n : Int) :
    l'.valueName .dayOfWeek (n + 1) = l.valueName .dayOfWeek n := by
  simp only [valueName, hs, Int.add_sub_add_right]

theorem describe_renumber (hs : l'.sunday = l.sunday + 1) (h : e.Fits l .dayOfWeek pos) :
    l'.describe .dayOfWeek e.renumber = l.describe .dayOfWeek e := by
  have hv (n : Int) : l'.valuePhrase .dayOfWeek (n + 1) = l.valuePhrase .dayOfWeek n := by
    rw [valuePhrase, valueName_up hs, valuePhrase]
  induction e generalizing pos
  case any     => rfl
  case value n => exact hv n
  case range t low high _ _ =>
    obtain ⟨-, hl, hh⟩ := Expr.fits_range_iff.mp h
    simp only [Expr.renumber, describe, hl.literal_renumber, hh.literal_renumber, between,
      valueName_up hs]
  case step t base width hi _ =>
    obtain ⟨-, hb, -⟩ := Expr.fits_step_iff.mp h
    rw [Expr.renumber, describe, hi hb, describe]
    cases base
    case value n => simp only [Expr.renumber, stepPhrase, hv]
    all_goals rfl
  case list t ms hi =>
    obtain ⟨-, -, hms⟩ := Expr.fits_list_iff.mp h
    have hm : ms.map (l'.describe .dayOfWeek ∘ Expr.renumber) = ms.map (l.describe .dayOfWeek) :=
      List.map_congr_left fun m hm => hi m hm (hms m hm)
    rw [Expr.renumber, Expr.renumberAll_eq_map, describe, describeAll_eq_map, List.map_map, hm,
      describe, describeAll_eq_map]

end Layout

end Cron
