import Mathlib

namespace Cron.Except

variable {ε ε' α β : Type}

theorem ok_bind (a : α) (f : α → Except ε β) : (Except.ok a >>= f) = f a := rfl

theorem error_bind (e : ε) (f : α → Except ε β) : (Except.error e >>= f) = .error e := rfl

theorem bind_eq_ok_iff {x : Except ε α} {f : α → Except ε β} {b : β} :
    x >>= f = .ok b ↔ ∃ a, x = .ok a ∧ f a = .ok b := by
  cases x <;> simp [bind, Except.bind]

theorem bind_eq_error_iff {x : Except ε α} {f : α → Except ε β} {e : ε} :
    x >>= f = .error e ↔ x = .error e ∨ ∃ a, x = .ok a ∧ f a = .error e := by
  cases x <;> simp [bind, Except.bind]

theorem map_eq_ok_iff {x : Except ε α} {f : α → β} {b : β} :
    x.map f = .ok b ↔ ∃ a, x = .ok a ∧ f a = b := by
  cases x <;> simp [Except.map]

theorem map_eq_error_iff {x : Except ε α} {f : α → β} {e : ε} :
    x.map f = .error e ↔ x = .error e := by
  cases x <;> simp [Except.map]

theorem toOption_eq_some_iff {x : Except ε α} {a : α} : x.toOption = some a ↔ x = .ok a := by
  cases x <;> simp [Except.toOption]

theorem exists_eq_ok_of_isSome {x : Except ε α} (h : x.toOption.isSome) : ∃ a, x = .ok a := by
  obtain ⟨a, ha⟩ := Option.isSome_iff_exists.mp h
  exact ⟨a, toOption_eq_some_iff.mp ha⟩

theorem mapError_eq_ok_iff {x : Except ε α} {f : ε → ε'} {a : α} :
    x.mapError f = .ok a ↔ x = .ok a := by
  cases x <;> simp [Except.mapError]

theorem mapError_eq_error_iff {x : Except ε α} {f : ε → ε'} {e' : ε'} :
    x.mapError f = .error e' ↔ ∃ e, x = .error e ∧ f e = e' := by
  cases x <;> simp [Except.mapError]

-- A list is worked through if every item is.
theorem mapM_eq_ok_iff {f : α → Except ε β} {as : List α} {bs : List β} :
    as.mapM f = .ok bs ↔ List.Forall₂ (fun a b => f a = .ok b) as bs := by
  induction as generalizing bs
  case nil => cases bs <;> simp [pure, Except.pure]
  case cons a as hi =>
    rw [List.mapM_cons, bind_eq_ok_iff]
    cases bs
    case nil => simp [bind_eq_ok_iff, pure, Except.pure]
    case cons b bs => simp [bind_eq_ok_iff, pure, Except.pure, hi]

-- The first item that fails ends the work.
theorem mapM_eq_error_iff {f : α → Except ε β} {as : List α} {e : ε} :
    as.mapM f = .error e ↔
      ∃ (i : Nat) (a : α), as[i]? = some a ∧ f a = .error e ∧
        ∀ j < i, ∀ b, as[j]? = some b → ∃ y, f b = .ok y := by
  induction as
  case nil => simp [pure, Except.pure]
  case cons a as hi =>
    simp only [List.mapM_cons, bind_eq_error_iff, pure, Except.pure, reduceCtorEq, and_false,
      exists_false, or_false, hi]
    constructor
    · rintro (h | ⟨y, hy, i, b, hb, he, hok⟩)
      · exact ⟨0, a, rfl, h, nofun⟩
      · refine ⟨i + 1, b, hb, he, fun j hj d hd => ?_⟩
        cases j
        case zero =>
          cases hd
          exact ⟨y, hy⟩
        case succ j => exact hok j (by omega) d hd
    · rintro ⟨i, b, hb, he, hok⟩
      cases i
      case zero =>
        cases hb
        exact .inl he
      case succ i =>
        obtain ⟨y, hy⟩ := hok 0 (by omega) a rfl
        exact .inr ⟨y, hy, i, b, hb, he, fun j hj d hd => hok (j + 1) (by omega) d hd⟩

end Cron.Except
