import Cron.Proofs.Schedule.Removing
import Cron.Proofs.Schedule.Replacing

-- What a schedule tells of its parts. A live part is told with its column, with what holds it, and
-- with its place there. Nothing is told of a part that has left, and nothing can be done with it.

namespace Cron

open Schedule EditM

variable {s s' : Schedule} {c d : Column} {p q whole : Part} {id parent : Int}
variable {holder : Holder} {kind relation : String} {right : List Part}

namespace Schedule

-- Where a part stands in a column: the number of what holds it, what this is, and the place there.
inductive Stands (s : Schedule) (c : Column) : Part → Int → String → String → Prop
  | root : Stands s c (s.root c) c.id "field" "child"
  | lower {t : Tag} {low high : Part} :
    .range t low high ∈ (s.root c).preorder → Stands s c low t.id "range" "lower"
  | upper {t : Tag} {low high : Part} :
    .range t low high ∈ (s.root c).preorder → Stands s c high t.id "range" "upper"
  | base {t : Tag} {base width : Part} :
    .step t base width ∈ (s.root c).preorder → Stands s c base t.id "increment" "base"
  | step {t : Tag} {base width : Part} :
    .step t base width ∈ (s.root c).preorder → Stands s c width t.id "increment" "step"
  | member {t : Tag} {members : List Part} {p : Part} :
    .list t members ∈ (s.root c).preorder → p ∈ members → Stands s c p t.id "compound" "member"

-- What is to be told of a part that stands there.
def account (s : Schedule) (c : Column) (p : Part) (parent : Int) (kind relation : String) :
    Description where
  id := p.label.id
  kind := p.kind
  column := c
  domain := s.layout.domain c
  value := p.literal
  text := p.cronText
  phrase := s.layout.describe c p
  parent := some parent
  parentKind := kind
  relation := some relation

-- Nothing is left of a part but itself, with the number it had.
structure Forgotten (s : Schedule) (p : Part) : Prop where
  column   : ∃ q, s.object? p.label.ref = some q ∧ q.label = { p.label with parent := none } ∧
    s.columnOf q = .error (.unknownPart p.label.id)
  describe : s.describe p.label.id = .error (.unknownPart p.label.id)
  add      : ∀ text, (Edit.add p.label.id text).run s = .error (.unknownPart p.label.id) s
  replace  : ∀ text, (Edit.replace p.label.id text).run s = .error (.unknownPart p.label.id) s
  remove   : (Edit.remove p.label.id).run s = .error (.unknownPart p.label.id) s

section Standing

theorem exists_stands_of_mem_children (hq : q ∈ (s.root c).preorder) (hm : p ∈ q.children) :
    ∃ parent kind relation, s.Stands c p parent kind relation := by
  cases q
  case any    => cases hm
  case value  => cases hm
  case range  =>
    rcases List.mem_pair.mp hm with rfl | rfl
    · exact ⟨_, _, _, .lower hq⟩
    · exact ⟨_, _, _, .upper hq⟩
  case step   =>
    rcases List.mem_pair.mp hm with rfl | rfl
    · exact ⟨_, _, _, .base hq⟩
    · exact ⟨_, _, _, .step hq⟩
  case list   => exact ⟨_, _, _, .member hq hm⟩

theorem exists_stands (hp : p ∈ (s.root c).preorder) :
    ∃ parent kind relation, s.Stands c p parent kind relation := by
  rcases Expr.eq_or_mem_children_of_mem_preorder hp with rfl | ⟨q, hq, hm⟩
  · exact ⟨_, _, _, .root⟩
  · exact exists_stands_of_mem_children hq hm

namespace Sound

variable (h : s.Sound)

include h

-- What a number addresses is told with what holds it.
theorem describe_addressed (ha : s.Addresses id c p) (hp : p.label.parent = some parent)
    (hh : s.holderOf p = .ok holder) (hd : Holder.describe p holder = (kind, some relation)) :
    s.describe id = .ok (s.account c p parent kind relation) := by
  simp only [describe, h.resolve_eq_ok_iff.mpr ha, hh, hd, Except.ok_bind, hp, account]

theorem describe_root (ha : s.Addresses id c (s.root c)) :
    s.describe id = .ok (s.account c (s.root c) c.id "field" "child") :=
  h.describe_addressed ha (h.proper c).linked.1 (h.holderOf_root c) rfl

-- A part is told with the place that it has among the children of what holds it.
theorem describe_child (left : List Part) (hq : q ∈ (s.root c).preorder)
    (hc : q.children = left ++ p :: right)
    (hr : (q.relation? left.length).map Relation.name = some relation) :
    s.describe p.label.id = .ok (s.account c p q.label.id q.kind.name relation) := by
  have hm : p ∈ q.children := hc ▸ List.mem_append_cons_self
  have hp : p ∈ (s.root c).preorder := Expr.mem_preorder_of_mem_children hm hq
  refine h.describe_addressed (.inr ⟨hp, rfl⟩) ((h.proper c).linked.2 q hq p hm)
    (h.holderOf_of_mem_children hq hm) ?_
  simp only [Holder.describe, Expr.relationTo?,
    Expr.position?_of_nodup (h.nodup_keys_of_mem hq) hc, Option.bind_some, hr]

theorem describe_of_stands (hs : s.Stands c p parent kind relation) :
    s.describe p.label.id = .ok (s.account c p parent kind relation) := by
  cases hs
  case root => exact h.describe_root <| .inr ⟨Expr.mem_preorder_self _, rfl⟩
  case lower hq => exact h.describe_child [] hq rfl rfl
  case upper low hq => exact h.describe_child [low] hq rfl rfl
  case base hq => exact h.describe_child [] hq rfl rfl
  case step base hq => exact h.describe_child [base] hq rfl rfl
  case member t members hq hm =>
    obtain ⟨left, right, rfl⟩ := List.append_of_mem hm
    refine h.describe_child left hq rfl ?_
    simp [Expr.relation?, Relation.name]

-- Nothing changes if more steps from holder to holder are allowed.
theorem climb_of_le {steps : Nat} (hp : p ∈ (s.root c).preorder)
    (hl : s.registry.rows.length ≤ steps) :
    s.climb p.label.id steps p.label.parent = .ok c := by
  obtain ⟨n, hn, hd⟩ := Expr.exists_depth hp
  have hlen := s.length_preorder_le c
  rw [h.length_rows] at hl
  exact h.climb_eq hd (by omega)

theorem column_unique (hp : p ∈ (s.root c).preorder) (hd : p ∈ (s.root d).preorder) : d = c :=
  Except.ok.inj <| (h.columnOf_eq hd).symm.trans <| h.columnOf_eq hp

end Sound
end Standing

section Leaving

-- What an edit has parts leave: live ones, none of them twice.
structure Leaves (s s' : Schedule) (ps : List Part) : Prop where
  live : ∀ p ∈ ps, p ∈ s.live
  once : (ps.map fun p => p.label.ref).Nodup
  gone : s'.gone = s.gone ++ ps.map fun p => { p.label with parent := none }

theorem leaves_nil (hg : s'.gone = s.gone) : s.Leaves s' [] := ⟨nofun, .nil, by simp [hg]⟩

theorem Sound.leaves (h : s.Sound) (hp : p ∈ (s.root c).preorder)
    (hg : s'.gone = s.gone ++ p.preorder.map fun q => { q.label with parent := none }) :
    s.Leaves s' p.preorder where
  live q hq := mem_live_iff.mpr ⟨c, Expr.mem_preorder_trans hq hp⟩
  once := by simpa [Expr.keys, Tag.key, Function.comp_def] using h.nodup_keys_of_mem hp
  gone := hg

theorem graft_leaves (h : s.Sound) {new : Shape} {ref : Nat}
    (hm : graft c (s.root c) new s = .ok ref s') : ∃ ps, s.Leaves s' ps := by
  rcases graft_cases c (s.root c) new with ⟨-, hg⟩ | ⟨t, members, -, hg⟩ | ⟨-, -, hg⟩
  all_goals rw [hg] at hm
  · obtain ⟨-, -, hg⟩ := (replant_shape s c (s.root c) new).of_eq hm
    exact ⟨_, h.leaves (Expr.mem_preorder_self _) hg⟩
  · cases hm
    exact ⟨[], leaves_nil rfl⟩
  · cases hm
    exact ⟨[], leaves_nil rfl⟩

theorem Placed.leaves (h : s.Sound) {new : Shape} {path : List Nat} {ref : Nat}
    (hp : Placed s c p path new ref s') : ∃ ps, s.Leaves s' ps :=
  ⟨_, h.leaves (Expr.mem_preorder_of_get? hp.place) hp.gone⟩

theorem Change.leaves (h : s.Sound) {e : Edit} {m : EditM Nat} {ref : Nat} (hc : Change s c e m)
    (hm : m s = .ok ref s') : ∃ ps, s.Leaves s' ps := by
  cases e
  case add =>
    cases hc
    exact graft_leaves h hm
  case replace =>
    obtain ⟨_, _, _, -, -, hp⟩ := hc.placed h
    exact (hp.of_eq hm).leaves h
  case remove => cases hc

-- A list that gives way to its last member leaves after the other one.
theorem Removal.leaves (h : s.Sound) (hr : Removal s c p s') : ∃ ps, s.Leaves s' ps := by
  cases hr
  case root hm =>
    obtain ⟨-, -, hg⟩ := (replant_shape s c (s.root c) (.any ())).of_eq hm
    exact ⟨_, h.leaves (Expr.mem_preorder_self _) hg⟩
  case member t members hroot hm hp =>
    have hm : p ∈ (s.root c).children := hroot ▸ hm
    have hpre := Expr.mem_preorder_of_mem_children hm <| Expr.mem_preorder_self _
    have hl : s.Leaves (s.leave p) p.preorder := h.leaves hpre (gone_leave s p)
    cases hp
    case kept hs =>
      subst hs
      exact ⟨_, h.leaves hpre (gone_leave _ p)⟩
    case collapsed hr _ hs =>
      subst hs
      refine ⟨p.preorder ++ [s.root c], fun q hq => ?_, ?_, gone_collapsed hr⟩
      · rcases List.mem_append.mp hq with hq | hq
        · exact hl.live q hq
        · exact List.mem_singleton.mp hq ▸ mem_live_iff.mpr ⟨c, Expr.mem_preorder_self _⟩
      · have hn := h.nodup_keys_root c
        rw [Expr.keys_eq, List.map_cons, List.nodup_cons] at hn
        rw [List.map_append, List.nodup_append]
        refine ⟨hl.once, by simp, fun a ha b hb he => hn.1 ?_⟩
        obtain ⟨q, hq, rfl⟩ := List.mem_map.mp ha
        cases List.mem_singleton.mp hb
        have hk : q.label.key ∈ (s.root c).children.flatMap Expr.keys :=
          List.mem_flatMap.mpr ⟨p, hm, Expr.key_mem_keys hq⟩
        exact List.mem_map.mpr ⟨_, hk, he⟩

-- An edit changes one column at most, and what leaves is put away.
theorem Sound.leaves_of_eq (h : s.Sound) (he : s' = s) :
    ∃ c ps, Confined s c s' ∧ s.Leaves s' ps := by
  subst he
  exact ⟨.minute, [], ⟨h.turn, fun _ _ => rfl⟩, leaves_nil rfl⟩

theorem Sound.after_leaves (h : s.Sound) (e : Edit) :
    ∃ c ps, Confined s c (s.after e) ∧ s.Leaves (s.after e) ps := by
  rcases h.exists_change e with ⟨c, m, hc⟩ | ⟨err, he, -⟩ | ⟨id, rfl⟩
  · obtain ⟨ref, s', hm, hd⟩ := hc.decided h
    by_cases hx : e.Excluded s
    case pos =>
      obtain ⟨d, -, -, -, he⟩ := hd.eq_exclusive hx
      exact h.leaves_of_eq <| after_of_error he
    case neg =>
      obtain ⟨receipt, he⟩ := hd.exists_receipt hx
      obtain ⟨ps, hl⟩ := hc.leaves h hm
      exact after_of_ok he ▸ ⟨c, ps, hd.confined, hl⟩
  · exact h.leaves_of_eq <| after_of_error he
  · by_cases ha : ∃ c p, s.Addresses id c p
    case pos =>
      obtain ⟨c, p, ha⟩ := ha
      obtain ⟨q, -, receipt, s', he, hr⟩ := remove_removal h ha
      obtain ⟨ps, hl⟩ := hr.leaves h
      exact after_of_ok (e := .remove id) he ▸ ⟨c, ps, (hr.confined h).1, hl⟩
    case neg =>
      have he := remove_fails <| h.resolve_eq_error fun c p hp => ha ⟨c, p, hp⟩
      exact h.leaves_of_eq <| after_of_error (e := .remove id) he

-- No part leaves twice.
theorem Leaves.nodup {ps : List Part} (h : s.Sound) (hl : s.Leaves s' ps)
    (hn : (s.gone.map Tag.ref).Nodup) : (s'.gone.map Tag.ref).Nodup := by
  rw [hl.gone, List.map_append, List.nodup_append]
  refine ⟨hn, by simpa [Function.comp_def] using hl.once, fun a ha b hb he => ?_⟩
  obtain ⟨t, ht, rfl⟩ := List.mem_map.mp ha
  rw [List.map_map] at hb
  obtain ⟨p, hp, rfl⟩ := List.mem_map.mp hb
  exact (h.coherent.gone t ht).ref <| List.mem_map.mpr ⟨_, key_mem (hl.live p hp), he.symm⟩

theorem retired_foldl_plant {ι : Type} (es : Column → Expr ι) (cs : List Column) (s : Schedule) :
    (cs.foldl (fun s c => s.plant c (es c)) s).retired = s.retired := by
  induction cs generalizing s
  case nil        => rfl
  case cons c _ hi => exact hi _

theorem gone_of_read? {l : Layout} {text : Option Codes} (h : read? l text = .ok s) :
    s.gone = [] := by
  have hr : s.retired = [] := by
    cases text
    case none =>
      cases h
      exact retired_foldl_plant _ _ _
    case some text =>
      obtain ⟨shapes, -, rfl⟩ := Except.map_eq_ok_iff.mp h
      exact retired_foldl_plant _ _ _
  rw [gone, hr]
  rfl

theorem nodup_gone (h : Reachable s) : (s.gone.map Tag.ref).Nodup := by
  induction h
  case opened h =>
    rw [gone_of_read? h]
    exact .nil
  case edited e h hn =>
    obtain ⟨_, ps, -, hl⟩ := h.sound.after_leaves e
    exact hl.nodup h.sound hn

end Leaving

section Forgetting

theorem columnOf_of_parent (hp : p.label.parent = none) :
    s.columnOf p = .error (.unknownPart p.label.id) := by
  rw [columnOf, hp]
  cases s.registry.rows.length <;> rfl

-- A part stays in its column, and keeps the domain of the column.
theorem Confined.domain_eq (h : s.Sound) (hc : Confined s c s') (hp : p ∈ s.live)
    (hq : q ∈ s'.live) (hr : q.label.ref = p.label.ref) : q.label.domain = p.label.domain := by
  have h' := hc.turn.sound
  obtain ⟨d, hpd⟩ := mem_live_iff.mp hp
  obtain ⟨d', hqd⟩ := mem_live_iff.mp hq
  by_cases hd : d = c
  case neg =>
    rw [← hc.others d hd] at hpd
    rw [h'.eq_of_ref_eq hq (mem_live_iff.mpr ⟨d, hpd⟩) hr]
  case pos =>
    by_cases hd' : d' = c
    case neg =>
      rw [hc.others d' hd'] at hqd
      rw [h.eq_of_ref_eq (mem_live_iff.mpr ⟨d', hqd⟩) hp hr]
    case pos =>
      have hdomain := (h'.proper d').ranges q hqd
      rw [hc.turn.evolves.layout, hd', ← hd] at hdomain
      exact hdomain.trans ((h.proper d).ranges p hpd).symm

-- A live part either remains or has left, and is the same but for what holds it.
theorem Leaves.fate {ps : List Part} (h : s.Sound) (hc : Confined s c s') (hl : s.Leaves s' ps)
    (hp : p ∈ s.live) :
    (∃ q ∈ s'.live, { q.label with parent := none } = { p.label with parent := none }) ∨
      { p.label with parent := none } ∈ s'.gone := by
  have hk : p.label.key ∈ joined s.keys :=
    mem_joined_iff.mpr ⟨key_mem hp, h.numbered _ <| key_mem hp⟩
  rcases hc.turn.evolves.fate _ hk with hk | ⟨t, ht, he⟩
  · have hk := (mem_joined_iff.mp hk).1
    rw [keys_eq_map_live] at hk
    obtain ⟨q, hq, he⟩ := List.mem_map.mp hk
    obtain ⟨hid, hr⟩ := Prod.mk.inj he
    exact .inl ⟨q, hq, by simp [hid, hr, hc.domain_eq h hp hq hr]⟩
  · have hr : t.ref = p.label.ref := congrArg Prod.snd he
    rw [hl.gone, List.mem_append] at ht ⊢
    rcases ht with ht | ht
    · exact absurd (hr ▸ List.mem_map_of_mem (key_mem hp)) (h.coherent.gone t ht).ref
    · obtain ⟨p', hp', rfl⟩ := List.mem_map.mp ht
      rw [h.eq_of_ref_eq (hl.live p' hp') hp hr] at ht
      exact .inr <| .inr ht

-- By induction on the edits.
theorem Sound.fate (h : s.Sound) (edits : List Edit) (hp : p ∈ s.live) :
    (∃ q ∈ (edits.foldl Schedule.after s).live,
      { q.label with parent := none } = { p.label with parent := none }) ∨
      { p.label with parent := none } ∈ (edits.foldl Schedule.after s).gone := by
  induction edits generalizing s p
  case nil => exact .inl ⟨p, hp, rfl⟩
  case cons e edits hi =>
    obtain ⟨c, ps, hc, hl⟩ := h.after_leaves e
    rcases hl.fate h hc hp with ⟨q, hq, he⟩ | hm
    · exact he ▸ hi hc.turn.sound hq
    · exact .inr <| (hc.turn.sound.turn_foldl edits).evolves.gone _ hm

-- Since no part leaves twice, it is found as it was when it left.
theorem Sound.object?_eq_of_gone (h : s.Sound) {t : Tag} (hn : (s.gone.map Tag.ref).Nodup)
    (ht : t ∈ s.gone) : ∃ q, s.object? t.ref = some q ∧ q.label = t := by
  have hlive (q) (hq : q ∈ s.live) : q.label.ref ≠ t.ref := fun he =>
    (h.coherent.gone t ht).ref <| List.mem_map.mpr ⟨_, key_mem hq, he⟩
  obtain ⟨q, hq, -⟩ := h.object?_of_gone ht hlive
  have hr : q.label.ref = t.ref := by simpa using List.find?_some hq
  refine ⟨q, hq, List.inj_on_of_nodup_map hn ?_ ht hr⟩
  refine (List.mem_append.mp <| List.mem_of_find?_eq_some hq).elim (fun hl => ?_) fun hq => ?_
  · exact absurd hr <| hlive q hl
  · exact List.mem_map_of_mem hq

theorem Sound.forgotten (h : s.Sound) (hn : (s.gone.map Tag.ref).Nodup)
    (hp : { p.label with parent := none } ∈ s.gone) (hid : firstPartId ≤ p.label.id) :
    s.Forgotten p := by
  have hr : s.resolve p.label.id = .error (.unknownPart p.label.id) :=
    h.resolve_of_gone (t := { p.label with parent := none }) hp hid
  constructor
  case column =>
    obtain ⟨q, hq, he⟩ := h.object?_eq_of_gone hn hp
    have hc : s.columnOf q = .error (.unknownPart q.label.id) := columnOf_of_parent <| by rw [he]
    rw [he] at hc
    exact ⟨q, hq, he, hc⟩
  case describe => rw [Schedule.describe, hr]; rfl
  case add      => exact fun text => Fails.ask hr
  case replace  => exact fun text => Fails.ask hr
  case remove   => exact remove_fails hr

end Forgetting
end Schedule

theorem Reachable.foldl (h : Reachable s) (es : List Edit) :
    Reachable (es.foldl Schedule.after s) := by
  induction es generalizing s
  case nil          => exact h
  case cons e _ hi  => exact hi (h.edited e)

-- A live part is told with the one column that holds it, with its own value and text, and with its
-- place; the number of a column tells of its root. The column is reached in no more steps than
-- there are live parts. What has left by now is told no more, and its number is unknown to every
-- edit.
theorem introspection_is_truthful (h : Reachable s) :
    (∀ id, s.registry.find? id ≠ none → ∃ c, ∃ p ∈ (s.root c).preorder, p.label.id = id) ∧
    (∀ c, ∀ p ∈ (s.root c).preorder,
      s.part p.label.id = .ok p ∧ s.columnOf p = .ok c ∧
      (∀ steps ≥ s.registry.rows.length, s.climb p.label.id steps p.label.parent = .ok c) ∧
      (∀ d, p ∈ (s.root d).preorder → d = c) ∧
      (∃ parent kind relation, s.Stands c p parent kind relation) ∧
      ∀ parent kind relation, s.Stands c p parent kind relation →
        s.describe p.label.id = .ok (s.account c p parent kind relation)) ∧
    (∀ c, s.describe c.id = s.describe (s.root c).label.id) ∧
    ∀ edits : List Edit, ∀ p ∈ s.live,
      (∀ q ∈ (edits.foldl Schedule.after s).live, q.label.ref ≠ p.label.ref) →
        (edits.foldl Schedule.after s).Forgotten p := by
  have hs := h.sound
  refine ⟨fun id hid => ?_, fun c p hp => ?_, fun c => ?_, fun edits p hp hn => ?_⟩
  · obtain ⟨ref, hf⟩ := Option.ne_none_iff_exists'.mp hid
    have hk := hs.lists.find?_eq_some_iff.mp hf
    rw [keys_eq_map_live] at hk
    obtain ⟨p, hp, he⟩ := List.mem_map.mp hk
    obtain ⟨c, hp⟩ := mem_live_iff.mp hp
    exact ⟨c, p, hp, congrArg Prod.fst he⟩
  · have hl : p ∈ s.live := mem_live_iff.mpr ⟨c, hp⟩
    exact ⟨hs.part_eq_ok_iff.mpr ⟨hl, rfl⟩, hs.columnOf_eq hp, fun _ => hs.climb_of_le hp,
      fun _ => hs.column_unique hp, exists_stands hp, fun _ _ _ => hs.describe_of_stands⟩
  · rw [hs.describe_root (.inl ⟨rfl, rfl⟩), hs.describe_root (.inr ⟨Expr.mem_preorder_self _, rfl⟩)]
  · have hgone := (hs.fate edits hp).resolve_left fun hq =>
      have ⟨q, hq, he⟩ := hq
      hn q hq (Tag.mk.inj he).1
    exact (hs.turn_foldl edits).sound.forgotten (nodup_gone <| h.foldl edits) hgone
      (hs.firstPartId_le hp)

-- A list gives way to one of its two members when the other one is removed.
theorem introspection_is_truthful_of_list :
    let s := (unrestricted ⟨.quartz, 2024, 5, 900⟩).after (.add 1 "5,10-20/3")
    ∃ p q, s.part 13 = .ok p ∧ s.part 18 = .ok q ∧
      s.describe 18 = .ok (s.account .minute q 16 "range" "upper") ∧
      (s.after (.remove 14)).Forgotten p := by
  intro s
  have h : Reachable s :=
    (Reachable.unrestricted (l := ⟨.quartz, 2024, 5, 900⟩) (by decide)).edited _
  obtain ⟨-, hlive, -, hgone⟩ := introspection_is_truthful h
  have hw : .range ⟨10, 16, some 15, ⟨0, 59⟩⟩ (.value ⟨11, 17, some 16, ⟨0, 59⟩⟩ 10)
      (.value ⟨12, 18, some 16, ⟨0, 59⟩⟩ 20) ∈ (s.root .minute).preorder :=
    .tail _ <| .tail _ <| .tail _ <| .head _
  have hq := Expr.mem_preorder_of_mem_children (List.mem_cons_of_mem _ List.mem_cons_self) hw
  obtain ⟨p, hp⟩ : ∃ p, s.part 13 = .ok p := ⟨_, rfl⟩
  have hn : p.label.ref ∉ (s.after (.remove 14)).live.map fun q => q.label.ref := by
    cases hp
    decide +kernel
  obtain ⟨hfound, -, -, -, -, htold⟩ := hlive _ _ hq
  refine ⟨p, _, hp, hfound, htold _ _ _ (.upper hw), ?_⟩
  refine hgone [.remove 14] p (h.sound.part_eq_ok_iff.mp hp).1 fun q hq he => hn ?_
  exact List.mem_map.mpr ⟨q, hq, he⟩

end Cron
