import Cron.Proofs.Expr.Values

namespace Cron.Expr

variable {ι : Type} {l : Layout} {c : Column} {pos : Position} {e : Expr ι} {ms : List (Expr ι)}
variable {d : Domain} {start : Int}

-- Whatever is asked about the values of an expression is answered, in any domain and from any
-- start. Its floor needs no mention: it counts no steps.
structure Answered (e : Expr ι) (d : Domain) : Prop where
  ceiling : ∃ top, e.ceiling? d = some top
  wraps   : ∃ b, e.wraps? d = some b
  next    : ∀ start, ∃ n, e.next? d start = some n
  matched : ∀ n, ∃ b, e.matches? d n = some b

theorem stepFrom?_eq_some {width : Int} (hw : 1 ≤ width) (first start : Int) :
    ∃ n, stepFrom? first width start = some n :=
  ⟨_, by rw [stepFrom?, if_neg (by omega)]⟩

theorem nextAll?_eq_some (h : ∀ m ∈ ms, ∃ n, m.next? d start = some n) :
    ∃ ns, nextAll? d start ms = some ns := by
  induction ms
  case nil => exact ⟨[], rfl⟩
  case cons m ms hi =>
    have ⟨n, hn⟩ := h m List.mem_cons_self
    have ⟨ns, hns⟩ := hi fun m hm => h m <| List.mem_cons_of_mem _ hm
    exact ⟨n :: ns, by simp [nextAll?, hn, hns]⟩

namespace Fits

theorem wraps?_eq_some (h : Fits l c pos e) (d : Domain) : ∃ b, e.wraps? d = some b := by
  cases e
  case range =>
    have ⟨top, ht⟩ := (fits_range_iff.mp h).2.2.ceiling?_eq_some d
    exact ⟨_, by rw [wraps?, ht]; rfl⟩
  all_goals exact ⟨false, rfl⟩

theorem next?_eq_some (h : Fits l c pos e) (d : Domain) (start : Int) :
    ∃ n, e.next? d start = some n := by
  induction e generalizing pos
  case any    => exact ⟨_, rfl⟩
  case value  => exact ⟨_, rfl⟩
  case range t low high _ _ =>
    obtain ⟨top, ht⟩ := (fits_range_iff.mp h).2.2.ceiling?_eq_some d
    exact ⟨_, by rw [next?, ht]; rfl⟩
  case step t base width _ _ =>
    obtain ⟨-, hb, hw⟩ := fits_step_iff.mp h
    obtain ⟨t, n, rfl, -, hn⟩ := fits_width_iff.mp hw
    obtain ⟨top, ht⟩ := hb.ceiling?_eq_some d
    rw [next?]
    split
    · exact ⟨_, rfl⟩
    · obtain ⟨n, hn⟩ := stepFrom?_eq_some hn (base.floor d) start
      simp only [literal, hn, ht]
      exact ⟨_, rfl⟩
  case list ms hi =>
    obtain ⟨-, -, hms⟩ := fits_list_iff.mp h
    obtain ⟨ns, hn⟩ := nextAll?_eq_some fun m hm => hi m hm (hms m hm)
    exact ⟨_, by rw [next?, hn]; rfl⟩

theorem answered (h : Fits l c pos e) (d : Domain) : e.Answered d where
  ceiling   := h.ceiling?_eq_some d
  wraps     := h.wraps?_eq_some d
  next      := h.next?_eq_some d
  matched n := have ⟨m, hm⟩ := h.next?_eq_some d n; ⟨m == n, by rw [matches?, hm]; rfl⟩

end Fits

end Cron.Expr
