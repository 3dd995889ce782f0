import Cron.Proofs.Expr.Progression
import Cron.Proofs.Schedule.NextMatch

-- What the columns of a schedule answer when they are asked for a value: the least one that they
-- stand for from a start on or, if none is left, the least of all. Asked for their bounds, the
-- parts of a column answer with integers that they match.

namespace Cron

open Schedule

variable {ι : Type} {s : Schedule} {c : Column} {p : Part} {d : Domain} {e : Expr ι} {start r : Int}

namespace Expr

-- An answer below the start tells the least value by its absolute value.
theorem Answers.isLeast_abs (h : Answers d e start r) (hn : ∀ n, Holds d e n → n < start) :
    r < start ∧ IsLeast {n | Holds d e n} |r| := by
  have hr : r < start := by
    by_contra hle
    obtain ⟨n, hold, hs⟩ := h.le_iff.mp <| Int.not_lt.mp hle
    exact absurd (hn n hold) <| Int.not_lt.mpr hs
  obtain ⟨-, hl, hneg⟩ := h.of_lt hr
  exact ⟨hr, by rwa [abs_of_nonpos hneg]⟩

end Expr

-- Every column of every reachable schedule answers, whatever the start. The answer is the least of
-- its values from the start on; if there is none, it is an integer below the start whose absolute
-- value is the least value of all. The column matches its values and nothing else.
theorem next_value_protocol (h : Reachable s) (c : Column) (start : Int) :
    let d := s.layout.domain c
    let e := s.root c
    ∃ r b, e.next? d start = some r ∧ e.matches? d start = some b ∧
      ((∃ n, e.Holds d n ∧ start ≤ n) → IsLeast {n | e.Holds d n ∧ start ≤ n} r) ∧
      ((∀ n, e.Holds d n → n < start) → r < start ∧ IsLeast {n | e.Holds d n} |r|) ∧
      (b ↔ e.Holds d start) := by
  intro d e
  have hw := h.sound.wellFormed h.one_le_firstYear
  obtain ⟨r, hr, ha⟩ := (hw.fits c).next?_answers (hw.lower c) start
  obtain ⟨b, hb, hm⟩ := (hw.fits c).matches?_eq (hw.lower c) start
  exact ⟨r, b, hr, hb, fun hn => ha.of_le <| ha.le_iff.mpr hn, ha.isLeast_abs, hm⟩

-- Past the last minute of a list, and between two months of one with a range that wraps.
theorem next_value_protocol_of_lists :
    let s := (((unrestricted ⟨.quartz, 2024, 100, 900⟩).after (.add 1 "45,10-30/7")).after
      (.add 4 "MAY")).after (.add 4 "NOV-FEB")
    let d := s.layout.domain .minute
    let d' := s.layout.domain .month
    (s.root .minute).next? d 46 = some (-10) ∧ IsLeast {n | (s.root .minute).Holds d n} 10 ∧
      (s.root .month).next? d' 3 = some 5 ∧
      IsLeast {n | (s.root .month).Holds d' n ∧ 3 ≤ n} 5 := by
  intro s d d'
  have h : Reachable s := (((Reachable.unrestricted (l := ⟨.quartz, 2024, 100, 900⟩)
    (by decide)).edited _).edited _).edited _
  have hminute : (s.root .minute).next? d 46 = some (-10) := by decide +kernel
  have hmonth : (s.root .month).next? d' 3 = some 5 := by decide +kernel
  obtain ⟨r, -, hr, -, hleft, hpast, -⟩ := next_value_protocol h .minute 46
  obtain ⟨r', -, hr', -, hleft', hpast', -⟩ := next_value_protocol h .month 3
  cases hminute.symm.trans hr
  cases hmonth.symm.trans hr'
  have hnone : ∀ n, (s.root .minute).Holds d n → n < 46 := fun n hn => by
    by_contra hle
    exact absurd (hleft ⟨n, hn, Int.not_lt.mp hle⟩).1.2 (by decide)
  have hsome : ∃ n, (s.root .month).Holds d' n ∧ 3 ≤ n := by
    by_contra hno
    exact absurd (hpast' fun n hn => Int.not_le.mp fun hle => hno ⟨n, hn, hle⟩).1 (by decide)
  exact ⟨hminute, (hpast hnone).2, hmonth, hleft' hsome⟩

-- Every part of every column of a reachable schedule but the years, whichever its place, matches
-- some integer of the domain. The greatest of them is its ceiling, the least its floor if no range
-- in it wraps. The floor of a range, or of a step over one, is the lower end of the range in any
-- case. No floor lies above the ceiling.
theorem floor_and_ceiling_of_part (h : Reachable s) (hc : c ≠ .year)
    (hp : p ∈ (s.root c).preorder) :
    let d := s.layout.domain c
    let matched : Set Int := {n | n ∈ d ∧ p.matches? d n = some true}
    matched.Nonempty ∧ ∃ top, p.ceiling? d = some top ∧ IsGreatest matched top ∧
      ((∀ q ∈ p.preorder, q.wraps? d = some false) → IsLeast matched (p.floor d)) ∧
      (∀ t low high, (p = .range t low high ∨ ∃ t' width, p = .step t' (.range t low high) width) →
        p.floor d = low.literal) ∧
      p.floor d ≤ top := by
  intro d matched
  obtain ⟨pos, hf⟩ := (h.sound.proper c).fits.exists_of_mem hp
  obtain ⟨top, hb⟩ := hf.bounded hc
  have hm : matched = {n | n ∈ d ∧ p.Holds d n} :=
    Set.ext fun n => and_congr_right fun _ => hf.matches?_eq_true_iff hc
  rw [hm]
  refine ⟨⟨top, hb.greatest.1⟩, top, hb.ceiling, hb.greatest, hb.least, ?_, hb.le⟩
  intro t low high hr
  rcases hr with rfl | ⟨t', width, rfl⟩
  · obtain ⟨-, hl, -⟩ := Expr.fits_range_iff.mp hf
    obtain ⟨_, n, rfl, -⟩ := Expr.fits_endpoint_iff.mp hl
    rfl
  · obtain ⟨-, hbase, -⟩ := Expr.fits_step_iff.mp hf
    obtain ⟨-, hl, -⟩ := Expr.fits_range_iff.mp hbase
    obtain ⟨_, n, rfl, -⟩ := Expr.fits_endpoint_iff.mp hl
    rfl

-- A list of hours with a step over a range through midnight: the step begins at eight in the
-- evening, although the range begins at midnight.
theorem floor_and_ceiling_of_part_through_midnight :
    let s := (unrestricted ⟨.unix, 2024, 100, 900⟩).after (.add 2 "6,20-4/3")
    let d := s.layout.domain .hour
    let whole := s.root .hour
    ∃ single stepped, whole.children = [single, stepped] ∧
      IsGreatest {n | n ∈ d ∧ whole.matches? d n = some true} 23 ∧
      IsLeast {n | n ∈ d ∧ single.matches? d n = some true} 6 ∧
      IsGreatest {n | n ∈ d ∧ stepped.matches? d n = some true} 23 ∧ stepped.floor d = 20 := by
  intro s d whole
  have h : Reachable s :=
    (Reachable.unrestricted (l := ⟨.unix, 2024, 100, 900⟩) (by decide)).edited _
  let single := (whole.get? [0]).getD whole
  let stepped := (whole.get? [1]).getD whole
  have hchildren : whole.children = [single, stepped] := rfl
  have hmem (m : Part) (hm : m ∈ whole.children) : m ∈ whole.preorder :=
    Expr.mem_preorder_of_mem_children hm <| Expr.mem_preorder_self whole
  have hwhole : whole.ceiling? d = some 23 := by decide +kernel
  have hstepped : stepped.ceiling? d = some 23 := by decide +kernel
  obtain ⟨-, top, htop, hgreatest, -⟩ :=
    floor_and_ceiling_of_part h (by decide) (Expr.mem_preorder_self whole)
  obtain ⟨-, -, -, -, hleast, -⟩ :=
    floor_and_ceiling_of_part h (by decide) (hmem single (by simp [hchildren]))
  obtain ⟨-, top', htop', hgreatest', -, hfloor, -⟩ :=
    floor_and_ceiling_of_part h (by decide) (hmem stepped (by simp [hchildren]))
  cases hwhole.symm.trans htop
  cases hstepped.symm.trans htop'
  refine ⟨single, stepped, rfl, hgreatest, hleast fun q hq => ?_, hgreatest', ?_⟩
  · cases List.mem_singleton.mp hq
    rfl
  · exact hfloor _ _ _ <| .inr ⟨_, _, rfl⟩

end Cron
