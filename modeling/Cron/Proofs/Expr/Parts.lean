import Mathlib
import Cron.Schedule.Registry

namespace Cron

namespace Expr

variable {ι κ : Type} {e p q m : Expr ι}

-- Structural induction with a hypothesis for every member of a list.
@[induction_eliminator]
theorem induction {P : Expr ι → Prop}
    (any : ∀ t, P (any t)) (value : ∀ t n, P (value t n))
    (range : ∀ t low high, P low → P high → P (range t low high))
    (step : ∀ t base width, P base → P width → P (step t base width))
    (list : ∀ t members, (∀ m ∈ members, P m) → P (list t members)) : ∀ e, P e
  | .any t              => any t
  | .value t n          => value t n
  | .range t low high   => range t low high (go low) (go high)
  | .step t base width  => step t base width (go base) (go width)
  | .list t members     => list t members (goAll members)
where
  go (e : Expr ι) : P e := induction any value range step list e
  goAll : (es : List (Expr ι)) → ∀ m ∈ es, P m
    | [], _, h => nomatch h
    | e :: es, m, h => by
      cases h
      case head   => exact go e
      case tail h => exact goAll es m h

theorem preorder_eq (e : Expr ι) : e.preorder = e :: e.children.flatMap preorder := by
  cases e <;> simp [preorder, children, preorderAll_eq_flatMap]

-- Many properties of trees do not depend on which form the node above has.
theorem children_induction {P : Expr ι → Prop} (h : ∀ e, (∀ m ∈ e.children, P m) → P e) (e) :
    P e := by
  induction e
  case any            => exact h _ (by simp [children])
  case value          => exact h _ (by simp [children])
  case range hl hh    => exact h _ (by simp [children, hl, hh])
  case step hb hw     => exact h _ (by simp [children, hb, hw])
  case list hi        => exact h _ hi

theorem mem_preorder_self (e : Expr ι) : e ∈ e.preorder := by
  rw [preorder_eq]
  exact List.mem_cons_self

theorem mem_preorder_iff : p ∈ e.preorder ↔ p = e ∨ ∃ m ∈ e.children, p ∈ m.preorder := by
  rw [preorder_eq e]
  simp

theorem mem_preorder_trans (hp : p ∈ q.preorder) (hq : q ∈ e.preorder) : p ∈ e.preorder := by
  induction e using children_induction
  case h e hi =>
    rcases mem_preorder_iff.mp hq with rfl | ⟨m, hm, hq⟩
    · exact hp
    · exact mem_preorder_iff.mpr <| .inr ⟨m, hm, hi m hm hq⟩

theorem mem_preorder_of_mem_children (hm : m ∈ q.children) (hq : q ∈ e.preorder) :
    m ∈ e.preorder :=
  mem_preorder_trans (mem_preorder_iff.mpr <| .inr ⟨m, hm, mem_preorder_self m⟩) hq

-- Every part but the first of them stands directly below another one.
theorem eq_or_mem_children_of_mem_preorder (hp : p ∈ e.preorder) :
    p = e ∨ ∃ q ∈ e.preorder, p ∈ q.children := by
  induction e using children_induction
  case h e hi =>
    rcases mem_preorder_iff.mp hp with rfl | ⟨m, hm, hp⟩
    · exact .inl rfl
    · rcases hi m hm hp with rfl | ⟨q, hq, hp⟩
      · exact .inr ⟨e, mem_preorder_self e, hm⟩
      · have hm := mem_preorder_of_mem_children hm <| mem_preorder_self e
        exact .inr ⟨q, mem_preorder_trans hq hm, hp⟩

-- A tree is given by its first part, as far as that goes, and what is directly below.
theorem eq_of_children_eq (hk : p.kind = q.kind) (hl : p.label = q.label)
    (hn : p.literal = q.literal) (hc : p.children = q.children) : p = q := by
  cases p <;> cases q <;> simp_all [kind, label, literal, children]

end Expr
end Cron
