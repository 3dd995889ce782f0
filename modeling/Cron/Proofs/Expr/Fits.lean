import Cron.Expr.Read
import Cron.Proofs.Expr.Parts
import Cron.Proofs.Text.Numeral

namespace Cron

-- Where a part stands. What may stand there depends on nothing else.
inductive Position
  | root
  | member
  | base
  | endpoint
  | width

-- A written value: in the domain of the column, except that any year is kept, however late.
def Layout.Takes (l : Layout) : Column → Int → Prop
  | .year, n => 0 ≤ n ∧ (Text.natDigits n.toNat).length ≤ Text.maxDigits
  | c,     n => n ∈ l.domain c

theorem Layout.lower_le_upper {l : Layout} {c : Column} (hc : c ≠ .year) :
    (l.domain c).lower ≤ (l.domain c).upper := by
  cases c
  case year => exact absurd rfl hc
  all_goals simp [domain]

theorem Layout.takes_iff {l : Layout} {c : Column} {n : Int} (hc : c ≠ .year) :
    l.Takes c n ↔ n ∈ l.domain c := by
  cases c <;> first | rfl | exact absurd rfl hc

theorem Layout.sunday_mem (l : Layout) : 0 ≤ l.sunday ∧ l.sunday ≤ 1 := by
  rw [sunday]
  split <;> decide

theorem Layout.Takes.length_le {l : Layout} {c : Column} {n : Int} (h : l.Takes c n) :
    0 ≤ n ∧ (Text.natDigits n.toNat).length ≤ Text.maxDigits := by
  have hs := l.sunday_mem
  cases c
  case year => exact h
  all_goals
    have h : _ ≤ n ∧ n ≤ _ := h
    simp only [domain] at h
    refine ⟨by omega, ?_⟩
    exact Nat.le_trans (Text.length_natDigits_le (by decide : 0 < 2) (by omega)) (by decide)

namespace Expr

variable {ι κ : Type}

-- The trees that a column can have: lists at the root only, of two members or more, ranges between
-- single values, and steps of positive width from a base that is neither step nor list.
inductive Fits (l : Layout) (c : Column) : Position → Expr ι → Prop
  | any {pos t} : (pos = .root ∨ pos = .member ∨ pos = .base) → Fits l c pos (any t)
  | value {pos t n} : l.Takes c n → (pos = .width → 1 ≤ n) → Fits l c pos (value t n)
  | range {pos t low high} :
    (pos = .root ∨ pos = .member ∨ pos = .base) →
    Fits l c .endpoint low → Fits l c .endpoint high → Fits l c pos (range t low high)
  | step {pos t base width} :
    (pos = .root ∨ pos = .member) →
    Fits l c .base base → Fits l c .width width → Fits l c pos (step t base width)
  | list {t members} :
    2 ≤ members.length → (∀ m ∈ members, Fits l c .member m) → Fits l c .root (list t members)

variable {l : Layout} {c : Column} {pos : Position} {e : Expr ι}

@[simp]
theorem fits_any_iff {t : ι} :
    Fits l c pos (.any t) ↔ (pos = .root ∨ pos = .member ∨ pos = .base) where
  mp  := fun | .any h => h
  mpr := .any

@[simp]
theorem fits_value_iff {t : ι} {n : Int} :
    Fits l c pos (.value t n) ↔ l.Takes c n ∧ (pos = .width → 1 ≤ n) where
  mp  := fun | .value ht hw => ⟨ht, hw⟩
  mpr := fun ⟨ht, hw⟩ => .value ht hw

@[simp]
theorem fits_range_iff {t : ι} {low high : Expr ι} :
    Fits l c pos (.range t low high) ↔
      (pos = .root ∨ pos = .member ∨ pos = .base) ∧
        Fits l c .endpoint low ∧ Fits l c .endpoint high where
  mp  := fun | .range hp hl hh => ⟨hp, hl, hh⟩
  mpr := fun ⟨hp, hl, hh⟩ => .range hp hl hh

@[simp]
theorem fits_step_iff {t : ι} {base width : Expr ι} :
    Fits l c pos (.step t base width) ↔
      (pos = .root ∨ pos = .member) ∧ Fits l c .base base ∧ Fits l c .width width where
  mp  := fun | .step hp hb hw => ⟨hp, hb, hw⟩
  mpr := fun ⟨hp, hb, hw⟩ => .step hp hb hw

@[simp]
theorem fits_list_iff {t : ι} {ms : List (Expr ι)} :
    Fits l c pos (.list t ms) ↔
      pos = .root ∧ 2 ≤ ms.length ∧ ∀ m ∈ ms, Fits l c .member m where
  mp  := fun | .list hl hm => ⟨rfl, hl, hm⟩
  mpr := fun ⟨hp, hl, hm⟩ => hp ▸ .list hl hm

theorem fits_endpoint_iff :
    Fits l c .endpoint e ↔ ∃ t n, e = .value t n ∧ l.Takes c n := by
  cases e <;> simp

theorem fits_width_iff :
    Fits l c .width e ↔ ∃ t n, e = .value t n ∧ l.Takes c n ∧ 1 ≤ n := by
  cases e <;> simp

-- Whatever may stand somewhere may also stand alone.
theorem Fits.alone (h : Fits l c pos e) : Fits l c .root e := by
  cases e <;> simp_all

theorem Fits.member_of_base (h : Fits l c .base e) : Fits l c .member e := by
  cases e <;> simp_all

theorem Fits.base_of_member (h : Fits l c .member e) (hk : e.kind ≠ .step) : Fits l c .base e := by
  cases e <;> simp_all [kind]

theorem Fits.endpoint_of_isValue (h : Fits l c pos e) (hv : e.isValue) : Fits l c .endpoint e := by
  cases e <;> simp_all [isValue, kind]

theorem Fits.member_of_root (h : Fits l c .root e) (hk : e.kind ≠ .list) : Fits l c .member e := by
  cases e <;> simp_all [kind]

theorem Fits.members (h : Fits l c .root e) : ∀ m ∈ e.members, Fits l c .member m := by
  cases e <;> simp_all [Expr.members]

theorem Fits.two_le_members {t : ι} {ms : List (Expr ι)} (h : Fits l c pos (.list t ms)) :
    2 ≤ ms.length :=
  (fits_list_iff.mp h).2.1

theorem Fits.one_le_members (h : Fits l c .root e) : 1 ≤ e.members.length := by
  cases e
  case list => exact Nat.le_trans (by decide) h.two_le_members
  all_goals exact Nat.le_refl _

theorem Fits.of_mem_children {m : Expr ι} (h : Fits l c pos e) (hm : m ∈ e.children) :
    ∃ pos, pos ≠ .root ∧ Fits l c pos m := by
  cases h
  case any    => cases hm
  case value  => cases hm
  case range hl hh _ =>
    simp only [children, List.mem_cons, List.not_mem_nil, or_false] at hm
    rcases hm with rfl | rfl
    · exact ⟨.endpoint, by simp, hl⟩
    · exact ⟨.endpoint, by simp, hh⟩
  case step hb hw _ =>
    simp only [children, List.mem_cons, List.not_mem_nil, or_false] at hm
    rcases hm with rfl | rfl
    · exact ⟨.base, by simp, hb⟩
    · exact ⟨.width, by simp, hw⟩
  case list _ hms => exact ⟨.member, by simp, hms m hm⟩

theorem Fits.of_mem {p : Expr ι} (h : Fits l c pos e) (hp : p ∈ e.preorder) :
    p = e ∨ ∃ pos, pos ≠ .root ∧ Fits l c pos p := by
  induction e using children_induction generalizing pos
  case h e hi =>
    rcases mem_preorder_iff.mp hp with rfl | ⟨m, hm, hp⟩
    · exact .inl rfl
    · have ⟨pos', hpos, hf⟩ := h.of_mem_children hm
      rcases hi m hm hf hp with rfl | h
      · exact .inr ⟨pos', hpos, hf⟩
      · exact .inr h

theorem Fits.exists_of_mem {p : Expr ι} (h : Fits l c pos e) (hp : p ∈ e.preorder) :
    ∃ pos, Fits l c pos p := by
  rcases h.of_mem hp with rfl | ⟨pos, -, hf⟩
  · exact ⟨_, h⟩
  · exact ⟨pos, hf⟩

-- A list stands at the root.
theorem Fits.eq_of_kind_eq_list {p : Expr ι} (h : Fits l c pos e) (hp : p ∈ e.preorder)
    (hk : p.kind = .list) : p = e := by
  rcases h.of_mem hp with rfl | ⟨pos, hpos, hf⟩
  · rfl
  · cases hf <;> simp_all [kind]

-- What may stand somewhere still may when each child has become one that may stand where it did.
theorem Fits.of_children {e' : Expr κ} (h : Fits l c pos e) (f : Expr ι → Expr κ)
    (hk : e'.kind = e.kind) (hn : e'.literal = e.literal) (hc : e'.children = e.children.map f)
    (hf : ∀ m ∈ e.children, ∀ pos, Fits l c pos m → Fits l c pos (f m)) : Fits l c pos e' := by
  cases h
  case any hp =>
    cases e' <;> cases hk
    exact .any hp
  case value ht hw =>
    cases e' <;> cases hk
    cases hn
    exact .value ht hw
  case range hl hh hp =>
    cases e' <;> cases hk
    cases hc
    exact .range hp (hf _ (by simp [children]) _ hl) (hf _ (by simp [children]) _ hh)
  case step hb hw hp =>
    cases e' <;> cases hk
    cases hc
    exact .step hp (hf _ (by simp [children]) _ hb) (hf _ (by simp [children]) _ hw)
  case list hl hms =>
    cases e' <;> cases hk
    cases hc
    refine .list (by simpa [children] using hl) fun m' hm' => ?_
    obtain ⟨m, hm, rfl⟩ := List.mem_map.mp hm'
    exact hf m hm _ (hms m hm)

-- Which trees a column can have depends on the values that it takes.
theorem Fits.of_takes {l' : Layout} (ht : ∀ n, l.Takes c n → l'.Takes c n) (h : Fits l c pos e) :
    Fits l' c pos e := by
  induction h
  case any hp                 => exact .any hp
  case value hn hw            => exact .value (ht _ hn) hw
  case range hp _ _ hl hh     => exact .range hp hl hh
  case step hp _ _ hb hw      => exact .step hp hb hw
  case list hl _ hm           => exact .list hl hm

section Shape

@[simp]
theorem shape_any (t : ι) : (any t).shape = .any () := rfl

@[simp]
theorem shape_value (t : ι) (n : Int) : (value t n).shape = .value () n := rfl

@[simp]
theorem shape_range (t : ι) (low high : Expr ι) :
    (range t low high).shape = .range () low.shape high.shape := rfl

@[simp]
theorem shape_step (t : ι) (base width : Expr ι) :
    (step t base width).shape = .step () base.shape width.shape := rfl

@[simp]
theorem shape_list (t : ι) (ms : List (Expr ι)) :
    (list t ms).shape = .list () (ms.map shape) := by
  simp [shape, map, mapAll_eq_map]

theorem kind_shape (e : Expr ι) : e.shape.kind = e.kind := by
  cases e <;> rfl

theorem literal_shape (e : Expr ι) : e.shape.literal = e.literal := by
  cases e <;> rfl

theorem children_shape (e : Expr ι) : e.shape.children = e.children.map shape := by
  cases e <;> simp [children]

theorem shape_eq_of_children_eq {p : Expr ι} {q : Expr κ} (hk : p.kind = q.kind)
    (hn : p.literal = q.literal) (hc : p.children.map shape = q.children.map shape) :
    p.shape = q.shape := by
  apply eq_of_children_eq
  · rw [kind_shape, kind_shape, hk]
  · rfl
  · rw [literal_shape, literal_shape, hn]
  · rw [children_shape, children_shape, hc]

@[simp]
theorem shape_shape (e : Shape) : e.shape = e := by
  induction e using children_induction
  case h e hi =>
    refine eq_of_children_eq (kind_shape e) rfl (literal_shape e) ?_
    rw [children_shape]
    exact (List.map_congr_left hi).trans (List.map_id _)

@[simp]
theorem fits_shape_iff : Fits l c pos e.shape ↔ Fits l c pos e := by
  induction e generalizing pos
  case any            => simp
  case value          => simp
  case range hl hh    => simp [hl, hh]
  case step hb hw     => simp [hb, hw]
  case list ms hi     =>
    simp only [shape_list, fits_list_iff, List.length_map, List.mem_map, forall_exists_index,
      and_imp, forall_apply_eq_imp_iff₂]
    exact and_congr_right fun _ => and_congr_right fun _ => forall₂_congr fun m hm => hi m hm

theorem fits_of_map_shape_eq {ms : List (Expr ι)} {es : List (Expr κ)}
    (h : ms.map shape = es.map shape) (hf : ∀ e ∈ es, Fits l c pos e) :
    ∀ m ∈ ms, Fits l c pos m := by
  intro m hm
  have hm : m.shape ∈ es.map shape := h ▸ List.mem_map_of_mem hm
  obtain ⟨e, he, hs⟩ := List.mem_map.mp hm
  rw [← fits_shape_iff, ← hs, fits_shape_iff]
  exact hf e he

end Shape

end Expr
end Cron
