import Cron.Proofs.Expr.Parts

namespace Cron.Expr

variable {ι : Type} {e p q m : Expr ι} {n : Nat}

-- How many steps down from the first part another one stands.
inductive Depth (e : Expr ι) : Nat → Expr ι → Prop
  | top : Depth e 0 e
  | child {n : Nat} {q p : Expr ι} : Depth e n q → p ∈ q.children → Depth e (n + 1) p

theorem Depth.mem (h : Depth e n p) : p ∈ e.preorder := by
  induction h
  case top          => exact mem_preorder_self e
  case child hm hi  => exact mem_preorder_of_mem_children hm hi

theorem Depth.lift (h : Depth m n p) (hm : m ∈ e.children) : Depth e (n + 1) p := by
  induction h
  case top            => exact .child .top hm
  case child hm' hi   => exact .child hi hm'

theorem length_preorder_lt (hm : m ∈ e.children) : m.preorder.length < e.preorder.length := by
  obtain ⟨left, right, hc⟩ := List.append_of_mem hm
  rw [preorder_eq e, hc]
  simp only [List.length_cons, List.flatMap_append, List.flatMap_cons, List.length_append]
  omega

-- No part stands deeper than there are parts.
theorem exists_depth (hp : p ∈ e.preorder) : ∃ n < e.preorder.length, Depth e n p := by
  induction e using children_induction
  case h e hi =>
    rcases mem_preorder_iff.mp hp with rfl | ⟨m, hm, hp⟩
    · exact ⟨0, List.length_pos_of_mem <| mem_preorder_self p, .top⟩
    · have ⟨n, hn, hd⟩ := hi m hm hp
      have := length_preorder_lt hm
      exact ⟨n + 1, by omega, hd.lift hm⟩

end Cron.Expr
