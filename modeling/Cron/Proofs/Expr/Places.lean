import Cron.Expr.Edit
import Cron.Proofs.Expr.Fits

-- Places in a tree: a place is told by the positions that lead to it from the first part. What is
-- put at a place takes the whole part that stands there; below a list, a list gives way to its
-- members.

namespace Cron.Expr

variable {ι κ : Type} {e m p whole part new : Expr ι} {left right : List (Expr ι)}
variable {l : Layout} {c : Column} {pos : Position} {path : List Nat} {i : Nat}

section Map

variable (f : ι → κ)

theorem label_map (e : Expr ι) : (e.map f).label = f e.label := by
  cases e <;> rfl

theorem kind_map (e : Expr ι) : (e.map f).kind = e.kind := by
  cases e <;> rfl

theorem literal_map (e : Expr ι) : (e.map f).literal = e.literal := by
  cases e <;> rfl

theorem children_map (e : Expr ι) : (e.map f).children = e.children.map (·.map f) := by
  cases e <;> simp [map, children, mapAll_eq_map]

theorem members_map (e : Expr ι) : (e.map f).members = e.members.map (·.map f) := by
  cases e <;> simp [map, members, mapAll_eq_map]

@[simp]
theorem shape_map (e : Expr ι) : (e.map f).shape = e.shape := by
  induction e using children_induction
  case h e hi =>
    refine shape_eq_of_children_eq (kind_map f e) (literal_map f e) ?_
    rw [children_map, List.map_map]
    exact List.map_congr_left hi

end Map

section Children

theorem eq_list_of_kind (h : e.kind = .list) : ∃ t ms, e = list t ms := by
  cases e <;> cases h
  exact ⟨_, _, rfl⟩

-- What a part becomes below another one: a list gives its members to a list.
def entries (whole new : Expr ι) : List (Expr ι) :=
  if whole.kind = .list then new.members else [new]

theorem members_of_kind_ne (h : e.kind ≠ .list) : e.members = [e] := by
  cases e <;> simp_all [kind, members]

theorem entries_of_kind_ne (h : new.kind ≠ .list) : entries whole new = [new] := by
  rw [entries, members_of_kind_ne h, ite_self]

theorem pair_eq_append {a b : Expr ι} (h : [a, b] = left ++ part :: right) :
    (left = [] ∧ part = a ∧ right = [b]) ∨ (left = [a] ∧ part = b ∧ right = []) := by
  rcases left with _ | ⟨x, _ | ⟨y, left⟩⟩
  · simp only [List.nil_append, List.cons.injEq] at h
    exact .inl ⟨rfl, h.1.symm, h.2.symm⟩
  · simp only [List.cons_append, List.nil_append, List.cons.injEq] at h
    exact .inr ⟨by rw [h.1], h.2.1.symm, h.2.2.symm⟩
  · simp at h

theorem children_replaceChild (hc : whole.children = left ++ part :: right) (new : Expr ι) :
    (whole.replaceChild left.length new).children = left ++ entries whole new ++ right ∧
    (whole.replaceChild left.length new).label = whole.label ∧
    (whole.replaceChild left.length new).kind = whole.kind := by
  cases whole
  case any    => simp [children] at hc
  case value  => simp [children] at hc
  case range  => obtain ⟨rfl, -, rfl⟩ | ⟨rfl, -, rfl⟩ := pair_eq_append hc <;> exact ⟨rfl, rfl, rfl⟩
  case step   => obtain ⟨rfl, -, rfl⟩ | ⟨rfl, -, rfl⟩ := pair_eq_append hc <;> exact ⟨rfl, rfl, rfl⟩
  case list   =>
    simp only [children] at hc
    subst hc
    simp [replaceChild, entries, kind, children, label]

-- Whatever looks like the entries below a part are the entries of something.
theorem exists_entries [Inhabited κ] {es : List (Expr κ)}
    (hs : es.map shape = (entries whole new).map shape) :
    ∃ made : Expr κ, made.shape = new.shape ∧
      ∀ whole' : Expr κ, whole'.kind = whole.kind → entries whole' made = es := by
  by_cases hk : whole.kind = .list ∧ new.kind = .list
  case pos =>
    refine ⟨.list default es, ?_, fun whole' hw => by rw [entries, if_pos (hw.trans hk.1), members]⟩
    rw [entries, if_pos hk.1] at hs
    rw [shape_list, hs]
    cases new <;> cases hk.2
    rw [members, shape_list]
  case neg =>
    have he : entries whole new = [new] := by
      by_cases hw : whole.kind = .list
      · exact entries_of_kind_ne fun hn => hk ⟨hw, hn⟩
      · rw [entries, if_neg hw]
    obtain ⟨m, rfl, hm⟩ := List.map_eq_singleton_iff.mp <| hs.trans <| congrArg _ he
    refine ⟨m, hm, fun whole' hw => ?_⟩
    by_cases hl : whole'.kind = .list
    · refine entries_of_kind_ne fun hn => hk ⟨hw ▸ hl, ?_⟩
      rw [← kind_shape, ← hm, kind_shape, hn]
    · rw [entries, if_neg hl]

theorem literal_replaceChild (hc : whole.children = left ++ part :: right) (new : Expr ι) :
    (whole.replaceChild left.length new).literal = whole.literal := by
  cases whole
  case any    => rfl
  case value  => simp [children] at hc
  case range  => obtain ⟨rfl, -, rfl⟩ | ⟨rfl, -, rfl⟩ := pair_eq_append hc <;> rfl
  case step   => obtain ⟨rfl, -, rfl⟩ | ⟨rfl, -, rfl⟩ := pair_eq_append hc <;> rfl
  case list   => rfl

theorem exists_children_eq (h : e.children[i]? = some m) :
    ∃ left right, e.children = left ++ m :: right ∧ left.length = i := by
  obtain ⟨hi, rfl⟩ := List.getElem?_eq_some_iff.mp h
  refine ⟨e.children.take i, e.children.drop (i + 1), ?_, by simp; omega⟩
  simp

-- A tree is the same after a child has been put in its own place.
theorem replaceChild_self (h : e.children[i]? = some m) (hm : m.kind ≠ .list) :
    e.replaceChild i m = e := by
  obtain ⟨left, right, hc, rfl⟩ := exists_children_eq h
  obtain ⟨hc', hl, hk⟩ := children_replaceChild hc m
  refine eq_of_children_eq hk hl (literal_replaceChild hc m) ?_
  rw [hc', hc, entries_of_kind_ne hm]
  simp

theorem map_replaceChild (f : ι → κ) (h : e.children[i]? = some m) (new : Expr ι) :
    (e.replaceChild i new).map f = (e.map f).replaceChild i (new.map f) := by
  obtain ⟨left, right, hc, rfl⟩ := exists_children_eq h
  have hm : (e.map f).children = left.map (·.map f) ++ m.map f :: right.map (·.map f) := by
    rw [children_map, hc, List.map_append, List.map_cons]
  obtain ⟨hc', hl, hk⟩ := children_replaceChild hc new
  obtain ⟨hmc, hml, hmk⟩ := children_replaceChild hm (new.map f)
  have hn := literal_replaceChild hm (new.map f)
  rw [List.length_map] at hmc hml hmk hn
  have hent : entries (e.map f) (new.map f) = (entries e new).map (·.map f) := by
    rw [entries, entries, kind_map, members_map]
    split <;> rfl
  refine eq_of_children_eq ?_ ?_ ?_ ?_
  · rw [kind_map, hk, hmk, kind_map]
  · rw [label_map, hl, hml, label_map]
  · rw [literal_map, literal_replaceChild hc, hn, literal_map]
  · rw [children_map, hc', hmc, hent, List.map_append, List.map_append]

end Children

section Places

theorem get?_cons (h : e.children[i]? = some m) : e.get? (i :: path) = m.get? path := by
  rw [get?, h]

theorem get?_cons_eq_some (h : e.get? (i :: path) = some p) :
    ∃ m, e.children[i]? = some m ∧ m.get? path = some p := by
  rw [get?] at h
  cases hm : e.children[i]?
  case none => simp [hm] at h
  case some m => exact ⟨m, rfl, by simpa [hm] using h⟩

theorem get?_append {path' : List Nat} (h : e.get? path = some p) :
    e.get? (path ++ path') = p.get? path' := by
  induction path generalizing e
  case nil =>
    cases h
    rfl
  case cons i path hi =>
    obtain ⟨m, hm, h⟩ := get?_cons_eq_some h
    rw [List.cons_append, get?_cons hm, hi h]

theorem exists_get? (h : p ∈ e.preorder) : ∃ path, e.get? path = some p := by
  induction e using children_induction
  case h e hi =>
    rcases mem_preorder_iff.mp h with rfl | ⟨m, hm, h⟩
    · exact ⟨[], rfl⟩
    · obtain ⟨path, hp⟩ := hi m hm h
      obtain ⟨i, hi⟩ := List.mem_iff_getElem?.mp hm
      exact ⟨i :: path, (get?_cons hi).trans hp⟩

theorem mem_preorder_of_get? (h : e.get? path = some p) : p ∈ e.preorder := by
  induction path generalizing e
  case nil =>
    cases h
    exact mem_preorder_self _
  case cons i path hi =>
    obtain ⟨m, hm, h⟩ := get?_cons_eq_some h
    exact mem_preorder_iff.mpr <| .inr ⟨m, List.mem_of_getElem? hm, hi h⟩

theorem get?_map (f : ι → κ) (e : Expr ι) (path : List Nat) :
    (e.map f).get? path = (e.get? path).map (·.map f) := by
  induction path generalizing e
  case nil => rfl
  case cons i path hi =>
    rw [get?, get?, children_map, List.getElem?_map]
    cases e.children[i]?
    case none => rfl
    case some m => exact hi m

theorem Fits.kind_ne_list (h : Fits l c pos e) (hp : pos ≠ .root) : e.kind ≠ .list := by
  cases h <;> simp_all [kind]

theorem Fits.of_getElem? (h : Fits l c pos e) (hm : e.children[i]? = some m) :
    ∃ pos, pos ≠ .root ∧ Fits l c pos m :=
  h.of_mem_children <| List.mem_of_getElem? hm

end Places

section Replacing

-- The tree with `new` in place of what stands at a place; lists stay flat.
def replaceAt (e new : Expr ι) : List Nat → Expr ι
  | [] => new
  | i :: path =>
    match e.children[i]? with
    | some child => e.replaceChild i (child.replaceAt new path)
    | none => e

theorem replaceAt_cons (h : e.children[i]? = some m) :
    e.replaceAt new (i :: path) = e.replaceChild i (m.replaceAt new path) := by
  rw [replaceAt, h]

theorem kind_replaceAt_cons (h : e.children[i]? = some m) :
    (e.replaceAt new (i :: path)).kind = e.kind := by
  rw [replaceAt_cons h]
  obtain ⟨left, right, hc, rfl⟩ := exists_children_eq h
  exact (children_replaceChild hc _).2.2

theorem map_replaceAt (f : ι → κ) (h : e.get? path = some p) :
    (e.replaceAt new path).map f = (e.map f).replaceAt (new.map f) path := by
  induction path generalizing e
  case nil => rfl
  case cons i path hi =>
    obtain ⟨m, hm, h⟩ := get?_cons_eq_some h
    have hm' : (e.map f).children[i]? = some (m.map f) := by
      rw [children_map, List.getElem?_map, hm]
      rfl
    rw [replaceAt_cons hm, replaceAt_cons hm', map_replaceChild f hm, hi h]

theorem shape_replaceAt (h : e.get? path = some p) :
    (e.replaceAt new path).shape = e.shape.replaceAt new.shape path :=
  map_replaceAt _ h

-- What is put below a part at a place is put at the place below.
theorem replaceAt_replaceChild (h : e.get? path = some whole)
    (hc : whole.children[i]? = some part) :
    e.replaceAt (whole.replaceChild i new) path = e.replaceAt new (path ++ [i]) := by
  induction path generalizing e
  case nil =>
    cases h
    rw [List.nil_append, replaceAt_cons hc, replaceAt, replaceAt]
  case cons j path hi =>
    obtain ⟨m, hm, h⟩ := get?_cons_eq_some h
    rw [List.cons_append, replaceAt_cons hm, replaceAt_cons hm, hi h]

-- A tree is the same after a part has been put in its own place.
theorem Fits.replaceAt_self (hf : e.Fits l c pos) (h : e.get? path = some p) :
    e.replaceAt p path = e := by
  induction path generalizing e pos
  case nil =>
    cases h
    rfl
  case cons i path hi =>
    obtain ⟨m, hm, h⟩ := get?_cons_eq_some h
    obtain ⟨pos, hpos, hf⟩ := hf.of_getElem? hm
    rw [replaceAt_cons hm, hi hf h, replaceChild_self hm <| hf.kind_ne_list hpos]

-- A list stands at no place but the first.
theorem Fits.eq_nil_of_get? (hf : e.Fits l c pos) (h : e.get? path = some p)
    (hk : p.kind = .list) : path = [] := by
  cases path
  case nil => rfl
  case cons i path =>
    obtain ⟨m, hm, h⟩ := get?_cons_eq_some h
    obtain ⟨pos, hpos, hfm⟩ := hf.of_getElem? hm
    rcases hfm.of_mem (mem_preorder_of_get? h) with rfl | ⟨pos', hpos', hfp⟩
    · exact absurd hk <| hfm.kind_ne_list hpos
    · exact absurd hk <| hfp.kind_ne_list hpos'

-- What is put at a place stands there, unless it has given way to its members.
theorem Fits.get?_replaceAt (hf : e.Fits l c pos) (h : e.get? path = some p)
    (hn : new.kind ≠ .list ∨ path = []) : (e.replaceAt new path).get? path = some new := by
  induction path generalizing e pos
  case nil => rfl
  case cons i path hi =>
    obtain ⟨m, hm, h⟩ := get?_cons_eq_some h
    obtain ⟨pos, hpos, hf⟩ := hf.of_getElem? hm
    have hnew : new.kind ≠ .list := hn.resolve_right nofun
    have hk : (m.replaceAt new path).kind ≠ .list := by
      cases path
      case nil => exact hnew
      case cons =>
        obtain ⟨m', hm', -⟩ := get?_cons_eq_some h
        rw [kind_replaceAt_cons hm']
        exact hf.kind_ne_list hpos
    rw [replaceAt_cons hm, ← hi hf h (.inl hnew)]
    refine get?_cons ?_
    obtain ⟨left, right, hc, rfl⟩ := exists_children_eq hm
    rw [(children_replaceChild hc _).1, entries_of_kind_ne hk]
    simp

end Replacing

end Cron.Expr
