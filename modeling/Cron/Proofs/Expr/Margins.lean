import Cron.Proofs.Expr.Places
import Cron.Proofs.Expr.Recognition

-- The text of an expression holds the text of each of its parts. With another text in the place of
-- one, it writes something if and only if the other text writes something that may stand in the
-- place: it then writes the expression with this in place of the part.

namespace Cron

-- What stands between the texts of the children of an expression.
def Kind.mark : Kind → Char
  | .range                => '-'
  | .step                 => '/'
  | .any | .value | .list => ','

-- The place of a child.
def Relation.position : Relation → Position
  | .lower | .upper => .endpoint
  | .base           => .base
  | .step           => .width
  | .member         => .member

variable {ι : Type} {l : Layout} {c : Column} {pos : Position} {r : Relation} {i : Nat}
variable {e m p whole part : Expr ι} {left right : List (Expr ι)} {path : List Nat}
variable {text : Codes} {e' : Shape}

namespace Expr

section Texts

def cronCodes (e : Expr ι) : Codes := .ofChars e.cron

-- What stands before and after the text of the part at a place.
def margins (e : Expr ι) : List Nat → List Char × List Char
  | [] => ([], [])
  | i :: path =>
    match e.children[i]? with
    | some m =>
      ((e.children.take i).flatMap (fun p => p.cron ++ [e.kind.mark]) ++ (m.margins path).1,
        (m.margins path).2 ++ (e.children.drop (i + 1)).flatMap fun p => e.kind.mark :: p.cron)
    | none => ([], [])

-- The text of an expression with another text in place of the one of a part.
def cronWith (e : Expr ι) (text : Codes) (path : List Nat) : Codes :=
  .ofChars (e.margins path).1 ++ text ++ .ofChars (e.margins path).2

theorem cronWith_nil (e : Expr ι) (text : Codes) : e.cronWith text [] = text :=
  congrArg Codes.mk <| (List.append_nil _).trans <| List.nil_append _

theorem cronWith_cons (hc : e.children = left ++ m :: right) (text : Codes) (path : List Nat) :
    e.cronWith text (left.length :: path) =
      .join (.ofChars [e.kind.mark])
        (left.map cronCodes ++ m.cronWith text path :: right.map cronCodes) := by
  have hm : e.margins (left.length :: path) =
      (left.flatMap (fun p => p.cron ++ [e.kind.mark]) ++ (m.margins path).1,
        (m.margins path).2 ++ right.flatMap fun p => e.kind.mark :: p.cron) := by
    simp [margins, hc]
  have hj := Codes.join_append_cons [e.kind.mark] (left.map cron) (right.map cron)
    (m.cronWith text path)
  rw [List.map_map, List.map_map, List.flatMap_map, List.flatMap_map] at hj
  refine .trans ?_ hj.symm
  simp only [cronWith, hm, Codes.ofChars_append, Codes.append_assoc]
  rfl

theorem cronCodes_eq (hc : e.children = left ++ m :: right) :
    e.cronCodes =
      .join (.ofChars [e.kind.mark])
        (left.map cronCodes ++ m.cronCodes :: right.map cronCodes) := by
  have hj : e.cron = Text.joinWith [e.kind.mark] (e.children.map cron) := by
    cases e
    case any    => simp [children] at hc
    case value  => simp [children] at hc
    case range  => exact List.append_cons ..
    case step   => exact List.append_cons ..
    case list   => exact congrArg _ <| cronAll_eq_map _
  rw [cronCodes, hj, Codes.ofChars_joinWith, hc, List.map_map, List.map_append, List.map_cons]
  rfl

-- The text of a part stands between its margins.
theorem cronWith_cron (h : e.get? path = some p) : e.cronWith p.cronCodes path = e.cronCodes := by
  induction path generalizing e
  case nil =>
    cases h
    exact cronWith_nil ..
  case cons i path hi =>
    obtain ⟨m, hm, hp⟩ := get?_cons_eq_some h
    obtain ⟨left, right, hc, rfl⟩ := exists_children_eq hm
    rw [cronWith_cons hc, hi hp, cronCodes_eq hc]

-- Runs of digits end at a mark, so that they get no longer.
theorem shortRuns_cronWith (h : e.get? path = some p) (he : e.cronCodes.ShortRuns)
    (ht : text.ShortRuns) : (e.cronWith text path).ShortRuns := by
  induction path generalizing e
  case nil => rwa [cronWith_nil]
  case cons i path hi =>
    obtain ⟨m, hm, hp⟩ := get?_cons_eq_some h
    obtain ⟨left, right, hc, rfl⟩ := exists_children_eq hm
    have hmark : Text.isAsciiDigit e.kind.mark = false := by cases e.kind <;> rfl
    rw [cronCodes_eq hc, Codes.shortRuns_join_iff hmark, List.forall_mem_append,
      List.forall_mem_cons] at he
    rw [cronWith_cons hc, Codes.shortRuns_join_iff hmark, List.forall_mem_append,
      List.forall_mem_cons]
    exact ⟨he.1, hi hp he.2.1, he.2.2⟩

end Texts

end Expr

-- A text is cut at none of the marks but those that may stand in a place.
def Position.Admits (pos : Position) (text : Codes) : Prop :=
  ∀ x ∈ ['-', '/', ','], x ∉ pos.marks → .char x ∉ text.points

namespace Expr

section Admission

theorem Fits.admits (h : e.Fits l c pos) : pos.Admits e.cronCodes := by
  have hd : ∀ x ∈ ['-', '/', ','], ¬Text.isAsciiDigit x := by simp [Text.isAsciiDigit]
  exact fun x hx hp => Codes.not_mem_points <| h.not_mem_cron (hd x hx) hp

-- Every child stands in some relation, which tells what may stand in its place.
theorem Fits.exists_relation (h : e.Fits l c pos) (hc : e.children = left ++ m :: right) :
    ∃ r, e.relation? left.length = some r ∧ m.Fits l c r.position := by
  cases h
  case any    => simp [children] at hc
  case value  => simp [children] at hc
  case range hl hh _ =>
    obtain ⟨rfl, rfl, rfl⟩ | ⟨rfl, rfl, rfl⟩ := pair_eq_append hc
    · exact ⟨.lower, rfl, hl⟩
    · exact ⟨.upper, rfl, hh⟩
  case step hb hw _ =>
    obtain ⟨rfl, rfl, rfl⟩ | ⟨rfl, rfl, rfl⟩ := pair_eq_append hc
    · exact ⟨.base, rfl, hb⟩
    · exact ⟨.step, rfl, hw⟩
  case list hms =>
    rw [children] at hc
    subst hc
    exact ⟨.member, by simp [relation?], hms m (by simp)⟩

-- No mark may stand in the place of a child but those that may stand in the place of the whole.
theorem Fits.marks_subset (h : e.Fits l c pos) (hr : e.relation? i = some r) :
    r.position.marks ⊆ pos.marks := by
  cases h
  case any    => cases hr
  case value  => cases hr
  case range =>
    have hm : r.position.marks = [] := by rcases i with _ | _ | i <;> cases hr <;> rfl
    exact hm ▸ List.nil_subset _
  case step hp =>
    have hm : r.position.marks ⊆ Position.base.marks := by
      rcases i with _ | _ | i <;> cases hr <;> decide
    refine List.Subset.trans hm ?_
    rcases hp with rfl | rfl <;> decide
  case list =>
    obtain ⟨-, rfl⟩ : i < _ ∧ Relation.member = r := by simpa [relation?] using hr
    decide

theorem Fits.admits_of_get? (h : e.Fits l c pos) (hget : e.get? path = some whole)
    (hr : whole.relation? i = some r) (ht : r.position.Admits text) : pos.Admits text := by
  induction path generalizing e pos
  case nil =>
    cases hget
    exact fun x hx hp => ht x hx fun hm => hp <| h.marks_subset hr hm
  case cons j path hi =>
    obtain ⟨m, hm, hp⟩ := get?_cons_eq_some hget
    obtain ⟨left, right, hc, rfl⟩ := exists_children_eq hm
    obtain ⟨r', hr', hf⟩ := h.exists_relation hc
    exact fun x hx hp' => hi hf hp x hx fun hm => hp' <| h.marks_subset hr' hm

theorem Fits.admits_cronWith (h : e.Fits l c pos) (hget : e.get? path = some p)
    (ht : pos.Admits text) : pos.Admits (e.cronWith text path) := by
  intro x hx hp hm
  have hpoints (t : Codes) : (e.cronWith t path).points =
      (Codes.ofChars (e.margins path).1).points ++ t.points ++
        (Codes.ofChars (e.margins path).2).points := rfl
  have he := h.admits x hx hp
  rw [← cronWith_cron hget] at he
  simp only [hpoints, List.mem_append, not_or] at he hm
  rcases hm with (hm | hm) | hm
  · exact he.1.1 hm
  · exact ht x hx hp hm
  · exact he.2 hm

end Admission

end Expr

section Members

variable {α β γ : Type} {R : β → γ → Prop} {f : α → β} {g : α → γ} {as as' : List α} {b : β}
variable {cs : List γ}

theorem forall₂_map_iff (h : ∀ a ∈ as, ∀ c, R (f a) c ↔ c = g a) :
    List.Forall₂ R (as.map f) cs ↔ cs = as.map g := by
  induction as generalizing cs
  case nil => simp
  case cons a as hi =>
    have ⟨ha, has⟩ := List.forall_mem_cons.mp h
    simp [List.forall₂_cons_left_iff, ha, hi has]

-- Where all items but one have a single partner, that one decides.
theorem forall₂_append_cons_iff (h : ∀ a ∈ as, ∀ c, R (f a) c ↔ c = g a)
    (h' : ∀ a ∈ as', ∀ c, R (f a) c ↔ c = g a) :
    List.Forall₂ R (as.map f ++ b :: as'.map f) cs ↔
      ∃ c, R b c ∧ cs = as.map g ++ c :: as'.map g := by
  induction as generalizing cs
  case nil => simp [List.forall₂_cons_left_iff, forall₂_map_iff h']
  case cons a as hi =>
    have ⟨ha, has⟩ := List.forall_mem_cons.mp h
    simp [List.forall₂_cons_left_iff, ha, hi has]

end Members

namespace Layout

section Places

variable {low high base width : Codes} {texts : List Codes}

-- What a text writes in a place, where not every expression may stand.
def WritesAt (l : Layout) (c : Column) : Position → Codes → Shape → Prop
  | .root     => l.Writes c
  | .member   => l.WritesToken c
  | .base     => l.WritesBase c
  | .endpoint => fun text e => e.isValue ∧ l.WritesSingle c text e
  | .width    => l.WritesWidth c

theorem WritesToken.kind_ne_list (h : l.WritesToken c text e') : e'.kind ≠ .list := by
  rcases h with (⟨_ | _⟩ | _) | _ <;> simp [Expr.kind]

theorem writesAt_range_iff (hp : pos = .root ∨ pos = .member ∨ pos = .base)
    (hl : Position.endpoint.Admits low) (hh : Position.endpoint.Admits high) :
    l.WritesAt c pos (low ++ .ofChars ['-'] ++ high) e' ↔
      ∃ a, l.WritesAt c .endpoint low a ∧ ∃ b, l.WritesAt c .endpoint high b ∧
        e' = .range () a b := by
  have hl (x) (hx : x ∈ ['-', '/', ',']) := hl x hx List.not_mem_nil
  have hh (x) (hx : x ∈ ['-', '/', ',']) := hh x hx List.not_mem_nil
  have hs := Codes.not_mem_append (hl '/' (by simp)) (by decide : '/' ≠ '-') (hh '/' (by simp))
  have hc := Codes.not_mem_append (hl ',' (by simp)) (by decide : ',' ≠ '-') (hh ',' (by simp))
  calc l.WritesAt c pos (low ++ .ofChars ['-'] ++ high) e'
    _ ↔ l.WritesBase c (low ++ .ofChars ['-'] ++ high) e' := by
      rcases hp with rfl | rfl | rfl
      · exact (writes_iff_writesToken hc).trans <| writesToken_iff_writesBase hs
      · exact writesToken_iff_writesBase hs
      · rfl
    _ ↔ _ := by
      rw [writesBase_append_iff (hl '-' (by simp))]
      simp only [WritesAt, writesBase_iff_writesSingle (hh '-' (by simp))]
      tauto

theorem writesAt_step_iff (hp : pos = .root ∨ pos = .member)
    (hb : Position.base.Admits base) (hw : Position.width.Admits width) :
    l.WritesAt c pos (base ++ .ofChars ['/'] ++ width) e' ↔
      ∃ a, l.WritesAt c .base base a ∧ ∃ b, l.WritesAt c .width width b ∧
        e' = .step () a b := by
  have hc : .char ',' ∉ (base ++ .ofChars ['/'] ++ width).points :=
    Codes.not_mem_append (hb ',' (by decide) (by decide)) (by decide) <|
      hw ',' (by decide) (by decide)
  refine .trans ?_ <| writesToken_append_iff <| hb '/' (by decide) (by decide)
  rcases hp with rfl | rfl
  · exact writes_iff_writesToken hc
  · rfl

theorem writesAt_list_iff (hl : 2 ≤ texts.length) (ht : ∀ t ∈ texts, Position.member.Admits t) :
    l.WritesAt c .root (.join (.ofChars [',']) texts) e' ↔
      ∃ es, List.Forall₂ (l.WritesAt c .member) texts es ∧ e' = .list () es := by
  have hp : (Codes.join (.ofChars [',']) texts).pieces ',' = texts :=
    Codes.pieces_join (List.ne_nil_of_length_pos (by omega)) fun t hm =>
      ht t hm ',' (by decide) (by decide)
  have hm : .char ',' ∈ (Codes.join (.ofChars [',']) texts).points := by
    by_contra hm
    rw [← hp, Codes.pieces_eq_singleton hm] at hl
    simp at hl
  have h := writes_iff_forall₂ (l := l) (c := c) (e := e') hm
  rwa [hp] at h

-- A text in a place that the reader has no room for.
def NestsAt (l : Layout) (c : Column) : Position → Codes → Prop
  | .root, text          => l.Nests c text
  | .member, text        => l.Overruns c (l.room + 1) (baseOf text)
  | .base, text          => l.Overruns c (l.room + 1) text
  | .endpoint, _         => False
  | .width, _            => False

theorem WritesAt.not_nestsAt (h : l.WritesAt c pos text e') : ¬l.NestsAt c pos text := by
  cases pos
  case root     => exact Writes.not_nests h
  case member   => exact WritesToken.not_overruns h
  case base     => exact WritesBase.not_overruns h
  case endpoint => exact id
  case width    => exact id

theorem not_nestsAt_range (hp : pos = .root ∨ pos = .member ∨ pos = .base)
    (hl : Position.endpoint.Admits low) (hh : Position.endpoint.Admits high) :
    ¬l.NestsAt c pos (low ++ .ofChars ['-'] ++ high) := by
  have hl (x) (hx : x ∈ ['-', '/', ',']) := hl x hx List.not_mem_nil
  have hh (x) (hx : x ∈ ['-', '/', ',']) := hh x hx List.not_mem_nil
  have hs := Codes.not_mem_append (hl '/' (by simp)) (by decide : '/' ≠ '-') (hh '/' (by simp))
  have hc := Codes.not_mem_append (hl ',' (by simp)) (by decide : ',' ≠ '-') (hh ',' (by simp))
  have ho : ¬l.Overruns c (l.room + 1) (low ++ .ofChars ['-'] ++ high) :=
    not_overruns_of_range (hl '-' (by simp)) (hh '-' (by simp))
  rcases hp with rfl | rfl | rfl
  · rwa [NestsAt, nests_iff_of_not_mem hc, baseOf_of_not_mem hs]
  · rwa [NestsAt, baseOf_of_not_mem hs]
  · exact ho

theorem not_nestsAt_step (hp : pos = .root ∨ pos = .member)
    (hb : Position.base.Admits base) (hw : Position.width.Admits width)
    (hn : ¬l.NestsAt c .base base) : ¬l.NestsAt c pos (base ++ .ofChars ['/'] ++ width) := by
  have hc : .char ',' ∉ (base ++ .ofChars ['/'] ++ width).points :=
    Codes.not_mem_append (hb ',' (by decide) (by decide)) (by decide) <|
      hw ',' (by decide) (by decide)
  have ho : ¬l.Overruns c (l.room + 1) (baseOf (base ++ .ofChars ['/'] ++ width)) := by
    rwa [baseOf_append <| hb '/' (by decide) (by decide)]
  rcases hp with rfl | rfl
  · rwa [NestsAt, nests_iff_of_not_mem hc]
  · exact ho

theorem not_nestsAt_list (hl : texts ≠ []) (ht : ∀ t ∈ texts, Position.member.Admits t)
    (hn : ∀ t ∈ texts, ¬l.NestsAt c .member t) :
    ¬l.NestsAt c .root (.join (.ofChars [',']) texts) := by
  refine not_nests_of_forall ?_
  rw [Codes.pieces_join hl fun t hm => ht t hm ',' (by decide) (by decide)]
  exact hn

end Places

end Layout

namespace Expr

-- A part writes itself in its place.
theorem Fits.writesAt_iff (h : e.Fits l c pos) :
    l.WritesAt c pos e.cronCodes e' ↔ e' = e.shape := by
  cases pos
  case root   => exact (l.reading_shape c _).iff_of_eq_ok (Layout.readShape_cron h) e'
  case member => exact (l.reading_token c _).iff_of_eq_ok (Layout.readToken_cron h) e'
  case base   => exact (l.reading_base c _).iff_of_eq_ok (Layout.readBase_cron h) e'
  case width  => exact (l.reading_width c _).iff_of_eq_ok (Layout.readWidth_cron h) e'
  case endpoint =>
    obtain ⟨t, n, rfl, hn⟩ := fits_endpoint_iff.mp h
    have hs := (l.reading_single c _).iff_of_eq_ok (Layout.readSingle_value hn) e'
    exact (and_congr_right fun _ => hs).trans <| and_iff_right_of_imp fun he => he ▸ rfl

theorem writesAt_members_iff {t : ι} (hl : 2 ≤ (left ++ m :: right).length)
    (hms : ∀ p ∈ left ++ m :: right, Fits l c .member p) (ht : Position.member.Admits text) :
    l.WritesAt c .root (.join (.ofChars [',']) (left.map cronCodes ++ text :: right.map cronCodes))
        e' ↔
      ∃ new, l.WritesToken c text new ∧
        e' = (list t (left ++ m :: right)).shape.replaceChild left.length new := by
  obtain ⟨hfl, hfr⟩ := List.forall_mem_append.mp hms
  replace hfr := (List.forall_mem_cons.mp hfr).2
  have hadm : ∀ t ∈ left.map cronCodes ++ text :: right.map cronCodes,
      Position.member.Admits t := by
    simp only [List.forall_mem_append, List.forall_mem_cons, List.forall_mem_map]
    exact ⟨fun p hp => (hfl p hp).admits, ht, fun p hp => (hfr p hp).admits⟩
  have hput (new) (hn : l.WritesToken c text new) :
      (list t (left ++ m :: right)).shape.replaceChild left.length new =
        .list () (left.map shape ++ new :: right.map shape) := by
    simp [replaceChild, members_of_kind_ne hn.kind_ne_list, List.drop_append]
  rw [Layout.writesAt_list_iff (by simpa using hl) hadm]
  simp only [forall₂_append_cons_iff (fun p hp _ => (hfl p hp).writesAt_iff)
    (fun p hp _ => (hfr p hp).writesAt_iff)]
  constructor
  · rintro ⟨_, ⟨new, hnew, rfl⟩, rfl⟩
    exact ⟨new, hnew, (hput new hnew).symm⟩
  · rintro ⟨new, hnew, rfl⟩
    exact ⟨_, ⟨new, hnew, rfl⟩, hput new hnew⟩

-- With another text in the place of a child ...
theorem Fits.writesAt_join_iff (h : e.Fits l c pos) (hc : e.children = left ++ m :: right)
    (hr : e.relation? left.length = some r) (ht : r.position.Admits text) :
    l.WritesAt c pos (.join (.ofChars [e.kind.mark])
      (left.map cronCodes ++ text :: right.map cronCodes)) e' ↔
        ∃ new, l.WritesAt c r.position text new ∧ e' = e.shape.replaceChild left.length new := by
  cases h
  case any    => cases hr
  case value  => cases hr
  case range hl hh hp =>
    obtain ⟨rfl, rfl, rfl⟩ | ⟨rfl, rfl, rfl⟩ := pair_eq_append hc
    all_goals cases hr
    · refine (Layout.writesAt_range_iff hp ht hh.admits).trans ?_
      simp only [hh.writesAt_iff, exists_eq_left]
      rfl
    · refine (Layout.writesAt_range_iff hp hl.admits ht).trans ?_
      simp only [hl.writesAt_iff, exists_eq_left]
      rfl
  case step hb hw hp =>
    obtain ⟨rfl, rfl, rfl⟩ | ⟨rfl, rfl, rfl⟩ := pair_eq_append hc
    all_goals cases hr
    · refine (Layout.writesAt_step_iff hp ht hw.admits).trans ?_
      simp only [hw.writesAt_iff, exists_eq_left]
      rfl
    · refine (Layout.writesAt_step_iff hp hb.admits ht).trans ?_
      simp only [hb.writesAt_iff, exists_eq_left]
      rfl
  case list hl hms =>
    rw [children] at hc
    subst hc
    obtain rfl : Relation.member = r := by simpa [relation?] using hr
    exact writesAt_members_iff hl hms ht

-- ... and, by induction on what leads to it, in the place of any part.
theorem Fits.writesAt_cronWith_iff (h : e.Fits l c pos) (hget : e.get? path = some whole)
    (hc : whole.children = left ++ part :: right) (hr : whole.relation? left.length = some r)
    (ht : r.position.Admits text) :
    l.WritesAt c pos (e.cronWith text (path ++ [left.length])) e' ↔
      ∃ new, l.WritesAt c r.position text new ∧
        e' = e.shape.replaceAt new (path ++ [left.length]) := by
  induction path generalizing e pos e'
  case nil =>
    cases hget
    have hi : whole.shape.children[left.length]? = some part.shape := by
      simp [children_shape, hc]
    rw [List.nil_append, cronWith_cons hc, cronWith_nil, h.writesAt_join_iff hc hr ht]
    simp only [replaceAt_cons hi]
    rfl
  case cons i path hi =>
    obtain ⟨m, hm, hp⟩ := get?_cons_eq_some hget
    obtain ⟨left', right', hc', rfl⟩ := exists_children_eq hm
    obtain ⟨r', hr', hf⟩ := h.exists_relation hc'
    have hpart : m.get? (path ++ [left.length]) = some part :=
      (get?_append hp).trans <| get?_cons <| by simp [hc]
    have ha := hf.admits_cronWith hpart <| hf.admits_of_get? hp hr ht
    have hplace : e.shape.children[left'.length]? = some m.shape := by simp [children_shape, hc']
    rw [List.cons_append, cronWith_cons hc', h.writesAt_join_iff hc' hr' ha]
    simp only [hi hf hp, replaceAt_cons hplace]
    constructor
    · rintro ⟨_, ⟨new, hnew, rfl⟩, rfl⟩
      exact ⟨new, hnew, rfl⟩
    · rintro ⟨new, hnew, rfl⟩
      exact ⟨_, ⟨new, hnew, rfl⟩, rfl⟩

section Room

theorem Fits.not_nestsAt (h : e.Fits l c pos) : ¬l.NestsAt c pos e.cronCodes :=
  (h.writesAt_iff.mpr rfl).not_nestsAt

-- There is room for a text in the place of a child if there is for what is put there ...
theorem Fits.not_nestsAt_join (h : e.Fits l c pos) (hc : e.children = left ++ m :: right)
    (hr : e.relation? left.length = some r) (ht : r.position.Admits text)
    (hn : ¬l.NestsAt c r.position text) :
    ¬l.NestsAt c pos (.join (.ofChars [e.kind.mark])
      (left.map cronCodes ++ text :: right.map cronCodes)) := by
  cases h
  case any    => cases hr
  case value  => cases hr
  case range hl hh hp =>
    obtain ⟨rfl, rfl, rfl⟩ | ⟨rfl, rfl, rfl⟩ := pair_eq_append hc
    all_goals cases hr
    · exact Layout.not_nestsAt_range hp ht hh.admits
    · exact Layout.not_nestsAt_range hp hl.admits ht
  case step hb hw hp =>
    obtain ⟨rfl, rfl, rfl⟩ | ⟨rfl, rfl, rfl⟩ := pair_eq_append hc
    all_goals cases hr
    · exact Layout.not_nestsAt_step hp ht hw.admits hn
    · exact Layout.not_nestsAt_step hp hb.admits ht hb.not_nestsAt
  case list hl hms =>
    rw [children] at hc
    subst hc
    obtain rfl : Relation.member = r := by simpa [relation?] using hr
    obtain ⟨hfl, hfr⟩ := List.forall_mem_append.mp hms
    replace hfr := (List.forall_mem_cons.mp hfr).2
    refine Layout.not_nestsAt_list (by simp) ?_ ?_
    all_goals simp only [List.forall_mem_append, List.forall_mem_cons, List.forall_mem_map]
    · exact ⟨fun p hp => (hfl p hp).admits, ht, fun p hp => (hfr p hp).admits⟩
    · exact ⟨fun p hp => (hfl p hp).not_nestsAt, hn, fun p hp => (hfr p hp).not_nestsAt⟩

-- ... and, by induction on what leads to it, in the place of any part.
theorem Fits.not_nestsAt_cronWith (h : e.Fits l c pos) (hget : e.get? path = some whole)
    (hc : whole.children = left ++ part :: right) (hr : whole.relation? left.length = some r)
    (ht : r.position.Admits text) (hn : ¬l.NestsAt c r.position text) :
    ¬l.NestsAt c pos (e.cronWith text (path ++ [left.length])) := by
  induction path generalizing e pos
  case nil =>
    cases hget
    rw [List.nil_append, cronWith_cons hc, cronWith_nil]
    exact h.not_nestsAt_join hc hr ht hn
  case cons i path hi =>
    obtain ⟨m, hm, hp⟩ := get?_cons_eq_some hget
    obtain ⟨left', right', hc', rfl⟩ := exists_children_eq hm
    obtain ⟨r', hr', hf⟩ := h.exists_relation hc'
    have hpart : m.get? (path ++ [left.length]) = some part :=
      (get?_append hp).trans <| get?_cons <| by simp [hc]
    have ha := hf.admits_cronWith hpart <| hf.admits_of_get? hp hr ht
    rw [List.cons_append, cronWith_cons hc']
    exact h.not_nestsAt_join hc' hr' ha <| hi hf hp

end Room

-- The text of a column with another text in the place of a part reads as the column with what the
-- other text writes there. If it writes nothing that may stand there, the whole is malformed.
theorem Fits.read_cronWith (h : e.Fits l c .root) (hget : e.get? path = some whole)
    (hc : whole.children = left ++ part :: right) (hr : whole.relation? left.length = some r)
    (ht : r.position.Admits text) (hs : text.ShortRuns) (position : Int) :
    let written := e.cronWith text (path ++ [left.length])
    (∀ new, l.WritesAt c r.position text new →
      l.read c written position = .ok (e.shape.replaceAt new (path ++ [left.length]))) ∧
    (¬l.NestsAt c r.position text → (∀ new, ¬l.WritesAt c r.position text new) →
      ∃ err, l.read c written position = .error err ∧ err.isMalformed) := by
  intro written
  have hread : l.read c e.cronCodes position = .ok e.shape := Layout.read_cron h position
  have hpart : e.get? (path ++ [left.length]) = some part :=
    (get?_append hget).trans <| get?_cons <| by simp [hc]
  have hshort : written.ShortRuns := shortRuns_cronWith hpart (Layout.of_read_eq_ok hread).2 hs
  have hw (e') : l.WritesAt c .root written e' ↔ _ := h.writesAt_cronWith_iff hget hc hr ht
  refine ⟨fun new hnew => ?_, fun hroom hnone => ?_⟩
  · exact (Layout.read_eq_ok_iff hshort).mpr <| (hw _).mpr ⟨new, hnew, rfl⟩
  · cases hres : l.read c written position
    case ok e' =>
      obtain ⟨new, hnew, -⟩ := (hw e').mp <| (Layout.read_eq_ok_iff hshort).mp hres
      exact absurd hnew <| hnone new
    case error err =>
      obtain ⟨-, -, -, hm, -⟩ := Layout.of_read_eq_error_of_shortRuns hshort hres
      exact ⟨err, rfl, hm.mpr <| h.not_nestsAt_cronWith hget hc hr ht hroom⟩

end Expr

end Cron
