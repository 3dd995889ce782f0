import Cron.Proofs.Expr.Places
import Cron.Proofs.Schedule.Exclusivity

-- Which parts remain. A part remains if it is live under the number that it has; what holds it may
-- have changed. A tree is told up to this by its outline, which says of every part where it stands
-- and by what key it is registered.

namespace Cron

variable {s s' : Schedule} {r : Registry} {ks ks' : List Key}
variable {parent : Option Int} {c : Column} {l : Layout} {pos : Position}

section Registry

namespace Registry

def Knows (r : Registry) (ks : List Key) : Prop := ∀ k ∈ ks, r.find? k.1 = some k.2

-- What is registered joins without a change.
theorem Knows.assign_eq (h : r.Knows ks) : r.assign ks = (ks, r) := by
  induction ks
  case nil => rfl
  case cons k ks hi =>
    obtain ⟨hk, hks⟩ := List.forall_mem_cons.mp h
    rw [assign, if_pos hk, hi hks]

theorem Knows.add (h : r.Knows ks) (ref : Nat) : (r.add ref).Knows ks := by
  intro k hk
  rw [find?, Registry.add, List.lookup_append, show r.rows.lookup k.1 = some k.2 from h k hk]
  rfl

theorem Knows.enroll (h : r.Knows ks) (parent : Option Int) (t : Tag) :
    (r.enroll parent t).2.Knows ks := by
  rw [Registry.enroll]
  split
  · exact h
  · exact h.add t.ref

theorem Knows.enroll_eq {t : Tag} (h : r.Knows [t.key]) (parent : Option Int) :
    r.enroll parent t = ({ t with parent := parent }, r) := by
  have hf : r.find? t.id = some t.ref := h t.key List.mem_cons_self
  rw [Registry.enroll, holds, if_pos <| by rw [hf, beq_self_eq_true]]

theorem Knows.assign (h : r.Knows ks) (ks' : List Key) : (r.assign ks').2.Knows ks := by
  induction ks' generalizing r
  case nil => exact h
  case cons k ks' hi =>
    rw [Registry.assign]
    split
    · exact hi h
    · exact hi (h.add k.2)

end Registry

theorem Coherent.knows (h : Coherent s ks) (hs : ks' ⊆ ks) (hn : ∀ k ∈ ks', ¬k.Blank) :
    s.registry.Knows ks' := fun k hk =>
  h.registry.find?_eq_some_iff.mpr <| mem_joined_iff.mpr ⟨hs hk, hn k hk⟩

end Registry

namespace Expr

variable {e e' whole x m : Part} {es es' left mid right : List Part} {path : List Nat} {i : Nat}

abbrev outline (e : Part) : Expr Key := e.map Tag.key

@[simp]
theorem outline_list (t : Tag) (ms : List Part) :
    (list t ms).outline = .list t.key (ms.map outline) := by
  simp [map, mapAll_eq_map]

section Determined

theorem outlines_eq_of_append_eq
    (h : ∀ e ∈ es, ∀ {ks ks'} {e' : Part}, e.shape = e'.shape → e.keys ++ ks = e'.keys ++ ks' →
      e.outline = e'.outline ∧ ks = ks')
    (hs : es.map shape = es'.map shape) (hk : es.flatMap keys ++ ks = es'.flatMap keys ++ ks') :
    es.map outline = es'.map outline ∧ ks = ks' := by
  induction es generalizing es'
  case nil =>
    cases List.map_eq_nil_iff.mp hs.symm
    exact ⟨rfl, hk⟩
  case cons e es hi =>
    cases es'
    case nil => cases hs
    case cons e' es' =>
      obtain ⟨he, hs⟩ := List.cons.inj hs
      rw [List.flatMap_cons, List.flatMap_cons, List.append_assoc, List.append_assoc] at hk
      obtain ⟨he, hk⟩ := h e List.mem_cons_self he hk
      obtain ⟨hes, hk⟩ := hi (fun e he => h e <| List.mem_cons_of_mem _ he) hs hk
      exact ⟨List.cons_eq_cons.mpr ⟨he, hes⟩, hk⟩

-- The shape of a tree says how many keys belong to each part, so that the keys of several trees in
-- a row are told apart.
theorem outline_eq_of_append_eq (hs : e.shape = e'.shape) (hk : e.keys ++ ks = e'.keys ++ ks') :
    e.outline = e'.outline ∧ ks = ks' := by
  induction e using children_induction generalizing e' ks ks'
  case h e hi =>
    have hc : e.children.map shape = e'.children.map shape := by
      rw [← children_shape, hs, children_shape]
    rw [keys_eq e, keys_eq e', List.cons_append, List.cons_append] at hk
    obtain ⟨hl, hk⟩ := List.cons.inj hk
    obtain ⟨hc, hk⟩ := outlines_eq_of_append_eq hi hc hk
    refine ⟨eq_of_children_eq ?_ ?_ ?_ ?_, hk⟩
    · rw [kind_map, ← kind_shape, hs, kind_shape, kind_map]
    · rw [label_map, hl, label_map]
    · rw [literal_map, ← literal_shape, hs, literal_shape, literal_map]
    · rw [children_map, hc, children_map]

theorem outline_eq (hs : e.shape = e'.shape) (hk : e.keys = e'.keys) : e.outline = e'.outline := by
  have hk : e.keys ++ [] = e'.keys ++ [] := by rw [hk]
  exact (outline_eq_of_append_eq hs hk).1

theorem outlines_eq (hs : es.map shape = es'.map shape)
    (hk : es.flatMap keys = es'.flatMap keys) : es.map outline = es'.map outline := by
  have hk : es.flatMap keys ++ [] = es'.flatMap keys ++ [] := by rw [hk]
  exact (outlines_eq_of_append_eq (fun _ _ => outline_eq_of_append_eq) hs hk).1

end Determined

section Joining

-- Parts that are registered remain when they join again.
theorem outline_adopt (h : r.Knows e.keys) : (e.adopt parent r).1.outline = e.outline :=
  outline_eq (shape_adopt ..) <| by rw [(keys_adopt ..).1, h.assign_eq]

theorem outlines_adoptAll (h : r.Knows (es.flatMap keys)) :
    (adoptAll parent r es).1.map outline = es.map outline :=
  outlines_eq (adoptAll_shapes ..) <| by rw [(adoptAll_keys ..).1, h.assign_eq]

theorem adoptAll_append (parent : Option Int) (r : Registry) (es es' : List Part) :
    adoptAll parent r (es ++ es') =
      ((adoptAll parent r es).1 ++ (adoptAll parent (adoptAll parent r es).2 es').1,
        (adoptAll parent (adoptAll parent r es).2 es').2) := by
  induction es generalizing r
  case nil => rfl
  case cons e es hi => rw [List.cons_append, adoptAll, hi, adoptAll, List.cons_append]

-- New parts may join between others, which remain.
theorem adoptAll_between (parent : Option Int) (mid : List Part)
    (hl : r.Knows (left.flatMap keys)) (hr : r.Knows (right.flatMap keys)) :
    ∃ left' right', (adoptAll parent r (left ++ mid ++ right)).1 =
        left' ++ (adoptAll parent r mid).1 ++ right' ∧
      left'.map outline = left.map outline ∧ right'.map outline = right.map outline := by
  have hreg : (adoptAll parent r left).2 = r := by rw [(adoptAll_keys ..).2, hl.assign_eq]
  refine ⟨(adoptAll parent r left).1, (adoptAll parent (adoptAll parent r mid).2 right).1, ?_,
    outlines_adoptAll hl, outlines_adoptAll ?_⟩
  · rw [adoptAll_append, adoptAll_append, hreg]
  · rw [(adoptAll_keys ..).2]
    exact hr.assign _

theorem adopt_list (parent : Option Int) (r : Registry) (t : Tag) (ms : List Part) :
    (list t ms).adopt parent r =
      (list (r.enroll parent t).1
        (adoptAll (some (r.enroll parent t).1.id) (r.enroll parent t).2 ms).1,
        (adoptAll (some (r.enroll parent t).1.id) (r.enroll parent t).2 ms).2) := by
  rw [adopt]

theorem refs_adoptAll (parent : Option Int) (r : Registry) (es : List Part) :
    (adoptAll parent r es).1.map (·.label.ref) = es.map (·.label.ref) := by
  induction es generalizing r
  case nil => rfl
  case cons e es hi => rw [adoptAll, List.map_cons, hi, ref_adopt, List.map_cons]

end Joining

section Putting

theorem kind_replaceAt (h : e.get? path = some whole) (hk : x.kind = whole.kind) :
    (e.replaceAt x path).kind = e.kind := by
  cases path
  case nil =>
    cases h
    exact hk
  case cons i path =>
    obtain ⟨m, hm, -⟩ := get?_cons_eq_some h
    exact kind_replaceAt_cons hm

-- In a tree that holds every part once, a part that changes does so at its own place.
theorem Fits.put_eq_replaceAt (hf : e.Fits l c pos) (hn : (e.keys.map Prod.snd).Nodup)
    (h : e.get? path = some whole) (hr : x.label.ref = whole.label.ref)
    (hk : x.kind = whole.kind) : Expr.put x e = e.replaceAt x path := by
  induction path generalizing e pos
  case nil =>
    cases h
    exact put_of_ref_eq hr.symm
  case cons i path hi =>
    obtain ⟨m, hm, hw⟩ := get?_cons_eq_some h
    obtain ⟨pos, hpos, hfm⟩ := hf.of_getElem? hm
    obtain ⟨left, right, hc, rfl⟩ := exists_children_eq hm
    have hin : x.label.ref ∈ m.keys.map Prod.snd := by
      rw [hr]
      exact List.mem_map_of_mem <| key_mem_keys <| mem_preorder_of_get? hw
    have hkeys : e.keys = e.label.key :: (left.flatMap keys ++ (m.keys ++ right.flatMap keys)) := by
      simp [keys_eq e, hc]
    rw [hkeys, List.map_cons, List.map_append, List.map_append, List.nodup_cons,
      List.nodup_append, List.nodup_append] at hn
    obtain ⟨he, -, ⟨hnm, -, hmr⟩, hlm⟩ := hn
    have he : e.label.ref ≠ x.label.ref := fun heq => he <| by
      rw [show e.label.key.2 = x.label.ref from heq]
      exact List.mem_append_right _ <| List.mem_append_left _ hin
    -- The other children do not hold the part, so they stay as they are.
    have hleft : left.map (Expr.put x) = left :=
      map_put_of_not_mem fun hx => hlm _ hx _ (List.mem_append_left _ hin) rfl
    have hright : right.map (Expr.put x) = right :=
      map_put_of_not_mem fun hx => hmr _ hin _ hx rfl
    obtain ⟨hc', hl', hk'⟩ := children_replaceChild hc (m.replaceAt x path)
    have hkm : (m.replaceAt x path).kind ≠ .list :=
      (kind_replaceAt hw hk).trans_ne <| hfm.kind_ne_list hpos
    rw [replaceAt_cons hm]
    refine eq_of_children_eq ?_ ?_ ?_ ?_
    · rw [kind_put he, hk']
    · rw [label_put he, hl']
    · rw [literal_put he, literal_replaceChild hc]
    · rw [children_put he, hc', hc, entries_of_kind_ne hkm, List.map_append, List.map_cons, hleft,
        hright, hi hfm hnm hw]
      simp

end Putting

end Expr

namespace Schedule

open EditM

variable {ι : Type} {q : Part} {ps : List Part} {t : Tag}

theorem replant_shape (s : Schedule) (c : Column) (old : Part) (new : Expr ι) :
    (replant c old new).Gives s fun holder s' =>
      (s'.root c).shape = new.shape ∧ (s'.root c).label.ref = holder ∧
        s'.gone = s.gone ++ old.preorder.map fun p => { p.label with parent := none } := by
  refine ⟨_, _, rfl, ?_, ?_, gone_leave _ old⟩
  all_goals dsimp only; rw [root_join, if_pos rfl]
  · exact (Expr.shape_adopt ..).trans <| Expr.shape_mint ..
  · exact Expr.ref_adopt _

-- Some of the live parts leave: their numbers stand for nothing afterwards. All others remain.
structure Departs (s s' : Schedule) (ps : List Part) : Prop where
  left : ∀ p ∈ s.live, p ∈ ps → s'.resolve p.label.id = .error (.unknownPart p.label.id)
  kept : ∀ p ∈ s.live, p ∉ ps → ∃ q, s'.part p.label.id = .ok q ∧ q.label.ref = p.label.ref

theorem Sound.numberOf_eq (h : s.Sound) (hq : q ∈ s.live) :
    s.numberOf q.label.ref = q.label.id := by
  rw [numberOf, h.object?_eq hq]
  rfl

theorem Sound.part_numberOf (h : s.Sound) (hq : q ∈ (s.root c).preorder) :
    s.part (s.numberOf q.label.ref) = .ok q := by
  have hl : q ∈ s.live := mem_live_iff.mpr ⟨c, hq⟩
  rw [h.numberOf_eq hl]
  exact h.part_eq_ok_iff.mpr ⟨hl, rfl⟩

-- Tags of parts that have left are not in use.
theorem Sound.resolve_of_gone (h : s.Sound) (ht : t ∈ s.gone)
    (hid : firstPartId ≤ t.id) : s.resolve t.id = .error (.unknownPart t.id) := by
  refine h.resolve_eq_error fun c p hp => ?_
  rcases hp with ⟨he, -⟩ | ⟨hp, he⟩
  · have := Column.ofId?_eq_none hid
    rw [he, Column.ofId?_id] at this
    cases this
  · have hk : p.label.key ∈ s.keys := key_mem <| mem_live_iff.mpr ⟨c, hp⟩
    refine (h.coherent.gone t ht).id <| List.mem_map.mpr ⟨p.label.key, ?_, he⟩
    exact mem_joined_iff.mpr ⟨hk, h.numbered _ hk⟩

-- Exactly the parts that have been put away leave.
theorem Turn.departs (h : s.Sound) (ht : Turn s s') (hps : ∀ p ∈ ps, p ∈ s.live)
    (hg : s'.gone = s.gone ++ ps.map fun p => { p.label with parent := none }) :
    Departs s s' ps where
  left p hp hgone := by
    refine ht.sound.resolve_of_gone (t := { p.label with parent := none }) ?_ <| h.firstPartId_le hp
    rw [hg]
    exact List.mem_append_right _ <| List.mem_map.mpr ⟨p, hgone, rfl⟩
  kept p hp hgone := by
    have hk : p.label.key ∈ joined s.keys :=
      mem_joined_iff.mpr ⟨key_mem hp, h.numbered _ <| key_mem hp⟩
    rcases ht.evolves.fate _ hk with hk | ⟨t, hm, he⟩
    · have hk := (mem_joined_iff.mp hk).1
      rw [keys_eq_map_live] at hk
      obtain ⟨q, hq, he⟩ := List.mem_map.mp hk
      obtain ⟨hid, hr⟩ := Prod.mk.inj he
      exact ⟨q, ht.sound.part_eq_ok_iff.mpr ⟨hq, hid⟩, hr⟩
    · have hr : t.ref = p.label.ref := congrArg Prod.snd he
      rw [hg, List.mem_append] at hm
      rcases hm with hm | hm
      · exact absurd (hr ▸ List.mem_map_of_mem (key_mem hp)) (h.coherent.gone _ hm).ref
      · obtain ⟨p', hp', rfl⟩ := List.mem_map.mp hm
        exact absurd (h.eq_of_ref_eq (hps p' hp') hp hr ▸ hp') hgone

end Schedule
end Cron
