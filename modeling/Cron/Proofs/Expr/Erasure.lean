import Cron.English
import Cron.Proofs.Expr.Values

namespace Cron.Expr

variable {ι κ : Type} {e : Expr ι} {e' : Expr κ} {ms : List (Expr ι)} {d : Domain} {start n : Int}

-- Neither the text of a part nor what it means depends on its labels.

theorem cronAll_shape (hi : ∀ m ∈ ms, m.shape.cron = m.cron) :
    cronAll (ms.map shape) = cronAll ms := by
  rw [cronAll_eq_map, cronAll_eq_map, List.map_map]
  exact List.map_congr_left hi

theorem cron_shape (e : Expr ι) : e.shape.cron = e.cron := by
  induction e
  case any          => rfl
  case value        => rfl
  case range hl hh  => rw [shape_range, cron, hl, hh, cron]
  case step hb hw   => rw [shape_step, cron, hb, hw, cron]
  case list hi      => rw [shape_list, cron, cronAll_shape hi, cron]

theorem floorAll_shape (hi : ∀ m ∈ ms, m.shape.floor d = m.floor d) :
    floorAll d (ms.map shape) = floorAll d ms := by
  rw [floorAll_eq_map, floorAll_eq_map, List.map_map]
  exact List.map_congr_left hi

theorem floor_shape (e : Expr ι) : e.shape.floor d = e.floor d := by
  induction e
  case any          => rfl
  case value        => rfl
  case range hl hh  => rw [shape_range, floor, hl, floor]
  case step hb hw   => rw [shape_step, floor, hb, floor]
  case list hi      => rw [shape_list, floor, floorAll_shape hi, floor]

theorem ceilingAll?_shape (hi : ∀ m ∈ ms, m.shape.ceiling? d = m.ceiling? d) :
    ceilingAll? d (ms.map shape) = ceilingAll? d ms := by
  induction ms
  case nil => rfl
  case cons m ms h =>
    have ⟨hm, hms⟩ := List.forall_mem_cons.mp hi
    rw [List.map_cons, ceilingAll?, hm, h hms, ceilingAll?]

theorem ceiling?_shape (e : Expr ι) : e.shape.ceiling? d = e.ceiling? d := by
  induction e
  case any          => rfl
  case value        => rfl
  case range hl hh  => rw [shape_range, ceiling?, hh, floor_shape, ceiling?]
  case step hb hw   => rw [shape_step, ceiling?, hb, floor_shape, literal_shape, ceiling?]
  case list hi      => rw [shape_list, ceiling?, ceilingAll?_shape hi, ceiling?]

theorem nextAll?_shape (hi : ∀ m ∈ ms, m.shape.next? d start = m.next? d start) :
    nextAll? d start (ms.map shape) = nextAll? d start ms := by
  induction ms
  case nil => rfl
  case cons m ms h =>
    have ⟨hm, hms⟩ := List.forall_mem_cons.mp hi
    rw [List.map_cons, nextAll?, hm, h hms, nextAll?]

theorem next?_shape (e : Expr ι) : e.shape.next? d start = e.next? d start := by
  induction e
  case any          => rfl
  case value        => rfl
  case range hl hh  => rw [shape_range, next?, ceiling?_shape, floor_shape, next?]
  case step hb hw   =>
    rw [shape_step, next?, ceiling?_shape, floor_shape, literal_shape, next?]
  case list hi      => rw [shape_list, next?, nextAll?_shape hi, next?]

@[simp]
theorem holds_shape_iff : Holds d e.shape n ↔ Holds d e n := by
  induction e
  case any    => simp
  case value  => simp
  case range  => simp only [shape_range, holds_range_iff, literal_shape]
  case step   =>
    simp only [shape_step, holds_step_iff, floor_shape, ceiling?_shape, literal_shape]
  case list hi =>
    simp only [shape_list, holds_list_iff, List.mem_map, exists_exists_and_eq_and]
    exact exists_congr fun m => and_congr_right fun hm => hi m hm

-- Nor do the words for it.
theorem describe_shape (l : Layout) (c : Column) (e : Expr ι) :
    l.describe c e.shape = l.describe c e := by
  induction e
  case any    => rfl
  case value  => rfl
  case range  => simp only [shape_range, Layout.describe, literal_shape]
  case step t base width hb _ =>
    rw [shape_step, Layout.describe, hb, Layout.describe]
    cases base <;> simp [Layout.stepPhrase, literal_shape]
  case list ms hi =>
    have hm : ms.map (l.describe c ∘ shape) = ms.map (l.describe c) := List.map_congr_left hi
    rw [shape_list, Layout.describe, Layout.describeAll_eq_map, List.map_map, hm, Layout.describe,
      Layout.describeAll_eq_map]

theorem cron_congr (h : e.shape = e'.shape) : e.cron = e'.cron := by
  rw [← cron_shape e, h, cron_shape]

theorem kind_congr (h : e.shape = e'.shape) : e.kind = e'.kind := by
  rw [← kind_shape e, h, kind_shape]

theorem next?_congr (h : e.shape = e'.shape) : e.next? d start = e'.next? d start := by
  rw [← next?_shape e, h, next?_shape]

end Cron.Expr
