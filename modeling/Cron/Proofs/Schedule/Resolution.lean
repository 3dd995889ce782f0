import Cron.Proofs.Except
import Cron.Proofs.Expr.Depth
import Cron.Proofs.Schedule.Sound

namespace Cron

theorem Column.ofId?_id (c : Column) : ofId? c.id = some c := by
  cases c <;> rfl

theorem Column.id_of_ofId? {c : Column} {n : Int} (h : ofId? n = some c) : c.id = n := by
  simpa using List.find?_some h

theorem Column.ofId?_eq_none {n : Int} (h : firstPartId ≤ n) : ofId? n = none := by
  rw [ofId?, List.find?_eq_none]
  intro c _
  have : c.id < firstPartId := by cases c <;> decide
  simp only [beq_iff_eq]
  omega

namespace Schedule

variable {s : Schedule} {c d : Column} {p q : Part} {id : Int} {ref : Nat}

theorem mem_live_iff : p ∈ s.live ↔ ∃ c, p ∈ (s.root c).preorder := by
  simp [live, mem_all]

theorem keys_eq_map_live (s : Schedule) : s.keys = s.live.map fun p => p.label.key := by
  rw [live, List.map_flatMap]
  rfl

theorem key_mem (hp : p ∈ s.live) : p.label.key ∈ s.keys :=
  keys_eq_map_live s ▸ List.mem_map_of_mem hp

theorem length_preorder_le (s : Schedule) (c : Column) :
    (s.root c).preorder.length ≤ s.live.length := by
  have ⟨left, right, hc⟩ := List.append_of_mem <| mem_all c
  rw [live, hc]
  simp only [List.flatMap_append, List.flatMap_cons, List.length_append]
  omega

-- What a number stands for: the root of the column, or the part of the column with this number.
def Addresses (s : Schedule) (id : Int) (c : Column) (p : Part) : Prop :=
  id = c.id ∧ p = s.root c ∨ p ∈ (s.root c).preorder ∧ p.label.id = id

theorem Addresses.mem (h : s.Addresses id c p) : p ∈ (s.root c).preorder := by
  rcases h with ⟨-, rfl⟩ | ⟨hp, -⟩
  · exact Expr.mem_preorder_self _
  · exact hp

namespace Sound

variable (h : s.Sound)

include h

theorem lists : s.registry.Lists s.keys := joined_eq_self h.numbered ▸ h.coherent.registry

-- No part stands twice, and no two parts have the same number.
theorem eq_of_ref_eq (hp : p ∈ s.live) (hq : q ∈ s.live) (he : p.label.ref = q.label.ref) :
    p = q := by
  have hn := h.coherent.refs
  rw [keys_eq_map_live, List.map_map] at hn
  exact List.inj_on_of_nodup_map hn hp hq he

theorem eq_of_id_eq (hp : p ∈ s.live) (hq : q ∈ s.live) (he : p.label.id = q.label.id) : p = q :=
  h.eq_of_ref_eq hp hq <| congrArg Prod.snd <|
    h.lists.eq_of_fst_eq (key_mem hp) (key_mem hq) he

theorem firstPartId_le (hp : p ∈ s.live) : firstPartId ≤ p.label.id :=
  (h.lists.bound _ <| key_mem hp).1

theorem object?_eq (hp : p ∈ s.live) : s.object? p.label.ref = some p := by
  rw [object?, List.find?_append]
  cases hf : s.live.find? (·.label.ref == p.label.ref)
  case none => exact absurd (List.find?_eq_none.mp hf p hp) (by simp)
  case some q =>
    have hr : q.label.ref = p.label.ref := by simpa using List.find?_some hf
    simp [h.eq_of_ref_eq (List.mem_of_find?_eq_some hf) hp hr]

theorem part_eq_ok_iff : s.part id = .ok p ↔ p ∈ s.live ∧ p.label.id = id := by
  constructor
  · intro hp
    rw [part] at hp
    split at hp
    case h_2 => cases hp
    case h_1 q hq =>
      cases hp
      have ⟨ref, hf, ho⟩ := Option.bind_eq_some_iff.mp hq
      have hk := h.lists.find?_eq_some_iff.mp hf
      rw [keys_eq_map_live] at hk
      obtain ⟨q, hql, he⟩ := List.mem_map.mp hk
      obtain ⟨rfl, rfl⟩ := Prod.mk.inj he
      rw [h.object?_eq hql] at ho
      cases ho
      exact ⟨hql, rfl⟩
  · rintro ⟨hp, rfl⟩
    have hf : s.registry.find? p.label.id = some p.label.ref :=
      h.lists.find?_eq_some_iff.mpr <| key_mem hp
    simp [part, hf, h.object?_eq hp]

theorem parent_eq (hp : p ∈ (s.root c).preorder) :
    (p = s.root c ∧ p.label.parent = some c.id) ∨
    ∃ q ∈ (s.root c).preorder, p ∈ q.children ∧ p.label.parent = some q.label.id := by
  have hl := (h.proper c).linked
  rcases Expr.eq_or_mem_children_of_mem_preorder hp with rfl | ⟨q, hq, hm⟩
  · exact .inl ⟨rfl, hl.1⟩
  · exact .inr ⟨q, hq, hm, hl.2 q hq p hm⟩

theorem holderOf_root (c : Column) : s.holderOf (s.root c) = .ok (.column c) := by
  simp [holderOf, (h.proper c).linked.1, Column.ofId?_id]

theorem holderOf_of_mem_children (hq : q ∈ (s.root c).preorder) (hm : p ∈ q.children) :
    s.holderOf p = .ok (.part q) := by
  have hl : q ∈ s.live := mem_live_iff.mpr ⟨c, hq⟩
  have hn := Column.ofId?_eq_none <| h.firstPartId_le hl
  simp only [holderOf, (h.proper c).linked.2 q hq p hm, hn, h.part_eq_ok_iff.mpr ⟨hl, rfl⟩]
  rfl

-- What holds a part is its column or the part above it.
theorem holderOf_eq (hp : p ∈ (s.root c).preorder) :
    (p = s.root c ∧ s.holderOf p = .ok (.column c)) ∨
    ∃ q ∈ (s.root c).preorder, p ∈ q.children ∧ s.holderOf p = .ok (.part q) := by
  rcases Expr.eq_or_mem_children_of_mem_preorder hp with rfl | ⟨q, hq, hm⟩
  · exact .inl ⟨rfl, h.holderOf_root c⟩
  · exact .inr ⟨q, hq, hm, h.holderOf_of_mem_children hq hm⟩

theorem eq_of_climb {start : Int} {steps : Nat} (hp : p ∈ (s.root c).preorder)
    (hd : s.climb start steps p.label.parent = .ok d) : d = c := by
  induction steps generalizing p
  all_goals
    rcases h.parent_eq hp with ⟨-, hpar⟩ | ⟨q, hq, -, hpar⟩
    · simp only [climb, hpar, Column.ofId?_id] at hd
      cases hd
      rfl
    have hl : q ∈ s.live := mem_live_iff.mpr ⟨c, hq⟩
    have hn := Column.ofId?_eq_none <| h.firstPartId_le hl
    simp only [climb, hpar, hn] at hd
  case zero => cases hd
  case succ hi =>
    rw [h.part_eq_ok_iff.mpr ⟨hl, rfl⟩] at hd
    exact hi hq hd

-- What a number addresses stands in the column that is found.
theorem mem_of_resolve (hr : s.resolve id = .ok (c, p)) : p ∈ (s.root c).preorder := by
  rw [resolve] at hr
  split at hr
  case h_1 =>
    cases hr
    exact Expr.mem_preorder_self _
  case h_2 =>
    cases hp : s.part id
    case error => simp [hp, bind, Except.bind] at hr
    case ok q =>
      obtain ⟨d, hd⟩ := mem_live_iff.mp (h.part_eq_ok_iff.mp hp).1
      cases hc : s.columnOf q
      case error => simp [hp, hc, bind, Except.bind] at hr
      case ok d' =>
        simp only [hp, hc, bind, Except.bind, Except.ok.injEq, Prod.mk.injEq] at hr
        obtain ⟨rfl, rfl⟩ := hr
        exact h.eq_of_climb hd hc ▸ hd

-- As many steps as a part stands deep lead to its column.
theorem climb_eq {start : Int} {steps n : Nat} (hd : (s.root c).Depth n p) (hn : n ≤ steps) :
    s.climb start steps p.label.parent = .ok c := by
  have hl := (h.proper c).linked
  induction hd generalizing steps
  case top => cases steps <;> simp [climb, hl.1, Column.ofId?_id]
  case child q p hq hm hi =>
    have hlive : q ∈ s.live := mem_live_iff.mpr ⟨c, hq.mem⟩
    have hid := Column.ofId?_eq_none <| h.firstPartId_le hlive
    obtain ⟨steps, rfl⟩ := Nat.exists_eq_succ_of_ne_zero (Nat.ne_zero_of_lt hn)
    simp only [climb, hl.2 q hq.mem p hm, hid, h.part_eq_ok_iff.mpr ⟨hlive, rfl⟩]
    exact hi <| Nat.le_of_succ_le_succ hn

theorem length_rows : s.registry.rows.length = s.live.length := by
  rw [h.lists.rows.length_eq, keys_eq_map_live, List.length_map]

theorem columnOf_eq (hp : p ∈ (s.root c).preorder) : s.columnOf p = .ok c := by
  have ⟨n, hn, hd⟩ := Expr.exists_depth hp
  refine h.climb_eq hd ?_
  rw [h.length_rows]
  exact Nat.le_of_lt <| Nat.lt_of_lt_of_le hn <| s.length_preorder_le c

-- A number is resolved if it stands for something, and to that.
theorem resolve_eq_ok_iff : s.resolve id = .ok (c, p) ↔ s.Addresses id c p := by
  constructor
  · intro hr
    by_cases hid : ∃ d, Column.ofId? id = some d
    case pos =>
      obtain ⟨d, hd⟩ := hid
      simp only [resolve, hd, Except.ok.injEq, Prod.mk.injEq] at hr
      obtain ⟨rfl, rfl⟩ := hr
      exact .inl ⟨(Column.id_of_ofId? hd).symm, rfl⟩
    case neg =>
      have hid : Column.ofId? id = none :=
        Option.eq_none_iff_forall_ne_some.mpr fun d hd => hid ⟨d, hd⟩
      have hp := h.mem_of_resolve hr
      simp only [resolve, hid] at hr
      obtain ⟨q, hq, hr⟩ := Except.bind_eq_ok_iff.mp hr
      obtain ⟨d, -, hr⟩ := Except.bind_eq_ok_iff.mp hr
      cases hr
      exact .inr ⟨hp, (h.part_eq_ok_iff.mp hq).2⟩
  · rintro (⟨rfl, rfl⟩ | ⟨hp, rfl⟩)
    · simp [resolve, Column.ofId?_id]
    · have hl : p ∈ s.live := mem_live_iff.mpr ⟨c, hp⟩
      have hid := Column.ofId?_eq_none <| h.firstPartId_le hl
      simp [resolve, hid, h.part_eq_ok_iff.mpr ⟨hl, rfl⟩, h.columnOf_eq hp, bind, Except.bind]

end Sound
end Schedule
end Cron
