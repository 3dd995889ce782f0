import Cron.Proofs.Expr.Defined
import Cron.Proofs.Schedule.Reachable

namespace Cron

open Schedule

variable {s : Schedule} {c : Column} {p : Part}

namespace Schedule

-- The form of a column, part by part. A part is described with the domain that it carries.
structure WellShaped (s : Schedule) (c : Column) : Prop where
  lists   : ∀ p ∈ (s.root c).preorder, p.kind = .list →
    p = s.root c ∧ 2 ≤ p.children.length ∧ ∀ m ∈ p.children, m.kind ≠ .list
  ranges  : ∀ t low high, .range t low high ∈ (s.root c).preorder →
    low.kind = .value ∧ high.kind = .value
  steps   : ∀ t base width, .step t base width ∈ (s.root c).preorder →
    (base.kind = .any ∨ base.kind = .value ∨ base.kind = .range) ∧
      width.kind = .value ∧ 1 ≤ width.literal
  values  : ∀ t n, .value t n ∈ (s.root c).preorder → c ≠ .year → n ∈ s.layout.domain c
  years   : ∀ t n, .value t n ∈ (s.root c).preorder → c = .year → 0 ≤ n
  domains : ∀ p ∈ (s.root c).preorder, p.label.domain = s.layout.domain c
  told    : ∀ p ∈ (s.root c).preorder, ∃ d, s.describe p.label.id = .ok d ∧
    d.kind = p.kind ∧ d.column = c ∧ d.domain = p.label.domain

-- A part is found under its number, in its column, and below what holds it.
theorem Sound.describe_eq (h : s.Sound) (hp : p ∈ (s.root c).preorder) :
    ∃ d, s.describe p.label.id = .ok d ∧
      d.kind = p.kind ∧ d.column = c ∧ d.domain = p.label.domain := by
  have hr := h.resolve_eq_ok_iff.mpr <| .inr ⟨hp, rfl⟩
  have ⟨holder, hh⟩ : ∃ holder, s.holderOf p = .ok holder := by
    rcases h.holderOf_eq hp with ⟨-, hh⟩ | ⟨q, -, -, hh⟩
    · exact ⟨_, hh⟩
    · exact ⟨_, hh⟩
  rw [describe, hr]
  simp only [bind, Except.bind, hh]
  exact ⟨_, rfl, rfl, rfl, ((h.proper c).ranges p hp).symm⟩

theorem Sound.wellShaped (h : s.Sound) (c : Column) : s.WellShaped c := by
  have hf := (h.proper c).fits
  constructor
  case lists =>
    intro p hp hk
    have he := hf.eq_of_kind_eq_list hp hk
    have hf := he ▸ hf
    cases p <;> cases hk
    obtain ⟨-, hlen, hms⟩ := Expr.fits_list_iff.mp hf
    refine ⟨he, hlen, fun m hm hk => ?_⟩
    have := hms m hm
    cases m <;> cases hk
    simp at this
  case ranges =>
    intro t low high hp
    obtain ⟨pos, hf⟩ := hf.exists_of_mem hp
    obtain ⟨-, hl, hh⟩ := Expr.fits_range_iff.mp hf
    obtain ⟨_, _, rfl, -⟩ := Expr.fits_endpoint_iff.mp hl
    obtain ⟨_, _, rfl, -⟩ := Expr.fits_endpoint_iff.mp hh
    exact ⟨rfl, rfl⟩
  case steps =>
    intro t base width hp
    obtain ⟨pos, hf⟩ := hf.exists_of_mem hp
    obtain ⟨-, hb, hw⟩ := Expr.fits_step_iff.mp hf
    obtain ⟨_, _, rfl, -, hn⟩ := Expr.fits_width_iff.mp hw
    refine ⟨?_, rfl, hn⟩
    cases base <;> simp_all [Expr.kind]
  case values =>
    intro t n hp hc
    obtain ⟨pos, hf⟩ := hf.exists_of_mem hp
    exact (Layout.takes_iff hc).mp (Expr.fits_value_iff.mp hf).1
  case years =>
    intro t n hp _
    obtain ⟨pos, hf⟩ := hf.exists_of_mem hp
    exact (Expr.fits_value_iff.mp hf).1.length_le.1
  case domains => exact (h.proper c).ranges
  case told    => exact fun p hp => h.describe_eq hp

end Schedule

-- Every column of every reachable schedule is well formed, and none of its parts ever has to count
-- a step of width zero: whatever is asked about its values, in the domain that it carries, is
-- answered.
theorem columns_well_shaped (h : Reachable s) (c : Column) :
    s.WellShaped c ∧ ∀ p ∈ (s.root c).preorder, p.Answered p.label.domain := by
  refine ⟨h.sound.wellShaped c, fun p hp => ?_⟩
  have ⟨pos, hf⟩ := (h.sound.proper c).fits.exists_of_mem hp
  exact hf.answered _

theorem columns_well_shaped_of_list :
    let s := (unrestricted ⟨.quartz, 2024, 5, 900⟩).after (.add 1 "5,10-20/3,70")
    s.WellShaped .minute ∧ ∀ p ∈ (s.root .minute).preorder, p.Answered p.label.domain :=
  have h := Reachable.unrestricted (l := ⟨.quartz, 2024, 5, 900⟩) (by decide)
  columns_well_shaped (h.edited _) .minute

end Cron
