import Cron.Proofs.Expr.Fits
import Cron.Proofs.Schedule.Registry

namespace Cron.Expr

variable {ι : Type} {e p q m new : Part} {es : List Part} {r : Registry} {parent : Option Int}
variable {d : Domain}

def keys (e : Part) : List Key := e.preorder.map fun p => p.label.key

theorem keys_eq (e : Part) : e.keys = e.label.key :: e.children.flatMap keys := by
  rw [keys, preorder_eq, List.map_cons, List.map_flatMap]
  rfl

theorem key_mem_keys (hp : p ∈ e.preorder) : p.label.key ∈ e.keys :=
  List.mem_map_of_mem hp

-- In a tree that holds every part once, two parts are the same if their references are.
theorem eq_of_ref_eq (hn : (e.keys.map Prod.snd).Nodup) (hp : p ∈ e.preorder) (hq : q ∈ e.preorder)
    (h : p.label.ref = q.label.ref) : p = q := by
  rw [keys, List.map_map] at hn
  exact List.inj_on_of_nodup_map hn hp hq h

section Joining

theorem assign_cons (r : Registry) (parent : Option Int) (t : Tag) (ks : List Key) :
    r.assign (t.key :: ks) =
      ((r.enroll parent t).1.key :: ((r.enroll parent t).2.assign ks).1,
        ((r.enroll parent t).2.assign ks).2) := by
  by_cases h : r.find? t.id = some t.ref <;>
    simp [Registry.assign, Registry.enroll, Registry.holds, Tag.key, h]

theorem label_adopt (e : Part) : (e.adopt parent r).1.label = (r.enroll parent e.label).1 := by
  cases e <;> rfl

theorem ref_enroll (r : Registry) (parent : Option Int) (t : Tag) :
    (r.enroll parent t).1.ref = t.ref := by
  rw [Registry.enroll]
  split <;> rfl

theorem ref_adopt (e : Part) : (e.adopt parent r).1.label.ref = e.label.ref := by
  rw [label_adopt, ref_enroll]

theorem children_adopt (e : Part) :
    (e.adopt parent r).1.children =
      (adoptAll (some (e.adopt parent r).1.label.id) (r.enroll parent e.label).2 e.children).1 := by
  cases e <;> rfl

theorem registry_adopt (e : Part) :
    (e.adopt parent r).2 =
      (adoptAll (some (e.adopt parent r).1.label.id) (r.enroll parent e.label).2 e.children).2 := by
  cases e <;> rfl

theorem keys_adoptAll
    (h : ∀ e ∈ es, ∀ parent r, (e.adopt parent r).1.keys = (r.assign e.keys).1 ∧
      (e.adopt parent r).2 = (r.assign e.keys).2) (parent : Option Int) (r : Registry) :
    (adoptAll parent r es).1.flatMap keys = (r.assign (es.flatMap keys)).1 ∧
    (adoptAll parent r es).2 = (r.assign (es.flatMap keys)).2 := by
  induction es generalizing r
  case nil => exact ⟨rfl, rfl⟩
  case cons e es hi =>
    have ⟨hk, hr⟩ := h e List.mem_cons_self parent r
    have ⟨hks, hrs⟩ := hi (fun e he => h e (List.mem_cons_of_mem _ he)) (e.adopt parent r).2
    simp only [adoptAll, List.flatMap_cons, Registry.assign_append, hk, hr] at hks hrs ⊢
    exact ⟨by rw [hks], hrs⟩

-- Joining acts on the keys of a tree alone, in the order of its parts.
theorem keys_adopt (e : Part) (parent : Option Int) (r : Registry) :
    (e.adopt parent r).1.keys = (r.assign e.keys).1 ∧
    (e.adopt parent r).2 = (r.assign e.keys).2 := by
  induction e using children_induction generalizing parent r
  case h e hi =>
    have ⟨hk, hr⟩ :=
      keys_adoptAll hi (some (e.adopt parent r).1.label.id) (r.enroll parent e.label).2
    rw [keys_eq (e.adopt parent r).1, keys_eq e, children_adopt, registry_adopt,
      assign_cons r parent, hk, hr, label_adopt]
    exact ⟨rfl, rfl⟩

theorem adoptAll_keys (es : List Part) (parent : Option Int) (r : Registry) :
    (adoptAll parent r es).1.flatMap keys = (r.assign (es.flatMap keys)).1 ∧
    (adoptAll parent r es).2 = (r.assign (es.flatMap keys)).2 :=
  keys_adoptAll (fun e _ => keys_adopt e) parent r

end Joining

section Links

-- Every part below knows the number of the part that holds it, and the first one knows `parent`.
def Linked (parent : Option Int) (e : Part) : Prop :=
  e.label.parent = parent ∧ ∀ q ∈ e.preorder, ∀ m ∈ q.children, m.label.parent = some q.label.id

theorem linked_iff :
    e.Linked parent ↔ e.label.parent = parent ∧ ∀ m ∈ e.children, m.Linked (some e.label.id) := by
  constructor
  · intro ⟨hp, h⟩
    refine ⟨hp, fun m hm => ⟨h e (mem_preorder_self e) m hm, fun q hq => h q ?_⟩⟩
    exact mem_preorder_iff.mpr <| .inr ⟨m, hm, hq⟩
  · intro ⟨hp, h⟩
    refine ⟨hp, fun q hq => ?_⟩
    rcases mem_preorder_iff.mp hq with rfl | ⟨m, hm, hq⟩
    · exact fun m hm => (h m hm).1
    · exact (h m hm).2 q hq

theorem linked_enroll (r : Registry) (parent : Option Int) (t : Tag) :
    (r.enroll parent t).1.parent = parent := by
  rw [Registry.enroll]
  split <;> rfl

theorem linked_adoptAll (h : ∀ e ∈ es, ∀ parent r, (e.adopt parent r).1.Linked parent)
    (parent : Option Int) (r : Registry) : ∀ m ∈ (adoptAll parent r es).1, m.Linked parent := by
  induction es generalizing r
  case nil => exact nofun
  case cons e es hi =>
    intro m hm
    rcases List.mem_cons.mp hm with rfl | hm
    · exact h e List.mem_cons_self parent r
    · exact hi (fun e he => h e (List.mem_cons_of_mem _ he)) _ m hm

theorem linked_adopt (e : Part) (parent : Option Int) (r : Registry) :
    (e.adopt parent r).1.Linked parent := by
  induction e using children_induction generalizing parent r
  case h e hi =>
    rw [linked_iff, children_adopt, label_adopt, linked_enroll]
    exact ⟨rfl, linked_adoptAll hi _ _⟩

theorem adoptAll_linked (es : List Part) (parent : Option Int) (r : Registry) :
    ∀ m ∈ (adoptAll parent r es).1, m.Linked parent :=
  linked_adoptAll (fun e _ => linked_adopt e) parent r

end Links

section Making

-- The keys of parts that are made in a row and have not joined.
def blankKeys (next count : Nat) : List Key := (List.range' next count).map fun ref => (0, ref)

theorem blankKeys_append (next m n : Nat) :
    blankKeys next m ++ blankKeys (next + m) n = blankKeys next (m + n) := by
  simp [blankKeys, ← List.map_append]

theorem mem_blankKeys_iff {k : Key} {next count : Nat} :
    k ∈ blankKeys next count ↔ k.Blank ∧ next ≤ k.2 ∧ k.2 < next + count := by
  obtain ⟨id, ref⟩ := k
  simp [blankKeys, Key.Blank, List.mem_range'_1]
  tauto

theorem nodup_blankKeys (next count : Nat) : ((blankKeys next count).map Prod.snd).Nodup := by
  simp [blankKeys, List.map_map, Function.comp_def, List.nodup_range']

theorem label_mint (e : Expr ι) (next : Nat) : (e.mint d next).1.label = .blank next d := by
  cases e <;> rfl

theorem children_mint (e : Expr ι) (next : Nat) :
    (e.mint d next).1.children = (mintAll d (next + 1) e.children).1 := by
  cases e <;> rfl

theorem next_mint (e : Expr ι) (next : Nat) :
    (e.mint d next).2 = (mintAll d (next + 1) e.children).2 := by
  cases e <;> rfl

theorem keys_mintAll {es : List (Expr ι)}
    (h : ∀ e ∈ es, ∀ next, ∃ count, (e.mint d next).1.keys = blankKeys next count ∧
      (e.mint d next).2 = next + count) (next : Nat) :
    ∃ count, (mintAll d next es).1.flatMap keys = blankKeys next count ∧
      (mintAll d next es).2 = next + count := by
  induction es generalizing next
  case nil => exact ⟨0, rfl, rfl⟩
  case cons e es hi =>
    have ⟨m, hk, hn⟩ := h e List.mem_cons_self next
    have ⟨n, hks, hns⟩ := hi (fun e he => h e (List.mem_cons_of_mem _ he)) (next + m)
    refine ⟨m + n, ?_, ?_⟩
    · simp [mintAll, hk, hn, hks, blankKeys_append]
    · simp [mintAll, hn, hns, Nat.add_assoc]

theorem keys_mint (e : Expr ι) (d : Domain) (next : Nat) :
    ∃ count, (e.mint d next).1.keys = blankKeys next count ∧ (e.mint d next).2 = next + count := by
  induction e using children_induction generalizing next
  case h e hi =>
    have ⟨n, hk, hn⟩ := keys_mintAll hi (next + 1)
    refine ⟨1 + n, ?_, ?_⟩
    · rw [keys_eq, children_mint, hk, label_mint, ← blankKeys_append]
      rfl
    · rw [next_mint, hn, Nat.add_assoc]

theorem mintAll_keys (es : List (Expr ι)) (d : Domain) (next : Nat) :
    ∃ count, (mintAll d next es).1.flatMap keys = blankKeys next count ∧
      (mintAll d next es).2 = next + count :=
  keys_mintAll (fun e _ => keys_mint e d) next

end Making

section Leaving

theorem label_retire (e : Part) : (e.retire r).1.label = { e.label with parent := none } := by
  cases e <;> rfl

theorem children_retire (e : Part) :
    (e.retire r).1.children = (retireAll (r.dismiss e.label).2 e.children).1 := by
  cases e <;> rfl

theorem registry_retire (e : Part) :
    (e.retire r).2 = (retireAll (r.dismiss e.label).2 e.children).2 := by
  cases e <;> rfl

theorem strike_cons (r : Registry) (t : Tag) (ks : List Key) :
    r.strike (t.key :: ks) = (r.dismiss t).2.strike ks := by
  by_cases h : r.find? t.id = some t.ref <;>
    simp [Registry.strike, Registry.dismiss, Registry.holds, Tag.key, h]

theorem registry_retireAll (h : ∀ e ∈ es, ∀ r, (e.retire r).2 = r.strike e.keys) (r : Registry) :
    (retireAll r es).2 = r.strike (es.flatMap keys) := by
  induction es generalizing r
  case nil => rfl
  case cons e es hi =>
    have hr := h e List.mem_cons_self r
    have hrs := hi (fun e he => h e (List.mem_cons_of_mem _ he)) (e.retire r).2
    rw [retireAll, List.flatMap_cons, Registry.strike_append, hrs, hr]

-- Leaving strikes off the keys of a tree, in the order of its parts.
theorem retire_registry (e : Part) (r : Registry) : (e.retire r).2 = r.strike e.keys := by
  induction e using children_induction generalizing r
  case h e hi => rw [registry_retire, registry_retireAll hi, keys_eq, strike_cons]

theorem labels_retireAll
    (h : ∀ e ∈ es, ∀ r, (e.retire r).1.preorder.map label =
      e.preorder.map fun p => { p.label with parent := none }) (r : Registry) :
    (retireAll r es).1.flatMap (fun e => e.preorder.map label) =
      es.flatMap fun e => e.preorder.map fun p => { p.label with parent := none } := by
  induction es generalizing r
  case nil => rfl
  case cons e es hi =>
    rw [retireAll, List.flatMap_cons, List.flatMap_cons, h e List.mem_cons_self,
      hi fun e he => h e (List.mem_cons_of_mem _ he)]

-- A part that has left stays which it is and keeps its number, but no longer knows what held it.
theorem retire_labels (e : Part) (r : Registry) :
    (e.retire r).1.preorder.map label =
      e.preorder.map fun p => { p.label with parent := none } := by
  induction e using children_induction generalizing r
  case h e hi =>
    rw [preorder_eq, preorder_eq e, List.map_cons, List.map_cons, List.map_flatMap,
      List.map_flatMap, children_retire, labels_retireAll hi, label_retire]

end Leaving

section Putting

theorem put_of_ref_eq (h : e.label.ref = new.label.ref) : put new e = new := by
  cases e <;> simp_all [put, label]

theorem putAll_eq_map (new : Part) (es : List Part) : putAll new es = es.map (put new) := by
  induction es
  case nil        => rfl
  case cons _ _ hi => rw [putAll, hi, List.map_cons]

theorem label_put (h : e.label.ref ≠ new.label.ref) : (put new e).label = e.label := by
  cases e <;> simp_all [put, label]

theorem ref_put (new e : Part) : (put new e).label.ref = e.label.ref := by
  by_cases h : e.label.ref = new.label.ref
  · rw [put_of_ref_eq h, h]
  · rw [label_put h]

theorem children_put (h : e.label.ref ≠ new.label.ref) :
    (put new e).children = e.children.map (put new) := by
  cases e <;> simp_all [put, label, children, putAll_eq_map]

theorem kind_put (h : e.label.ref ≠ new.label.ref) : (put new e).kind = e.kind := by
  cases e <;> simp_all [put, label, kind]

theorem literal_put (h : e.label.ref ≠ new.label.ref) : (put new e).literal = e.literal := by
  cases e <;> simp_all [put, label, literal]

theorem put_of_not_mem (h : new.label.ref ∉ e.keys.map Prod.snd) : put new e = e := by
  induction e using children_induction
  case h e hi =>
    rw [keys_eq, List.map_cons, List.mem_cons, not_or, List.map_flatMap] at h
    have hr : e.label.ref ≠ new.label.ref := Ne.symm h.1
    refine eq_of_children_eq (kind_put hr) (label_put hr) (literal_put hr) ?_
    rw [children_put hr]
    refine (List.map_congr_left fun m hm => ?_).trans (List.map_id _)
    exact hi m hm fun hm' => h.2 <| List.mem_flatMap.mpr ⟨m, hm, hm'⟩

theorem map_put_of_not_mem (h : new.label.ref ∉ (es.flatMap keys).map Prod.snd) :
    es.map (put new) = es := by
  refine (List.map_congr_left fun m hm => put_of_not_mem fun hm' => h ?_).trans (List.map_id _)
  rw [List.map_flatMap]
  exact List.mem_flatMap.mpr ⟨m, hm, hm'⟩

-- In a tree that holds every part once, changing a part changes the keys of that part only.
theorem keys_put (hn : (e.keys.map Prod.snd).Nodup) (hp : p ∈ e.preorder) :
    ∃ before after, e.keys = before ++ p.keys ++ after ∧
      ∀ new, new.label.ref = p.label.ref → (put new e).keys = before ++ new.keys ++ after := by
  induction e using children_induction
  case h e hi =>
    rcases mem_preorder_iff.mp hp with rfl | ⟨m, hm, hp⟩
    · exact ⟨[], [], by simp, fun new hr => by simp [put_of_ref_eq hr.symm]⟩
    obtain ⟨left, right, hc⟩ := List.append_of_mem hm
    have hk : e.keys = e.label.key :: (left.flatMap keys ++ (m.keys ++ right.flatMap keys)) := by
      simp [keys_eq e, hc]
    rw [hk, List.map_cons, List.map_append, List.map_append, List.nodup_cons, List.nodup_append,
      List.nodup_append] at hn
    obtain ⟨he, -, ⟨hm', -, hmr⟩, hlm⟩ := hn
    have hin : p.label.ref ∈ m.keys.map Prod.snd := List.mem_map_of_mem (key_mem_keys hp)
    have ⟨before, after, hb, ha⟩ := hi m hm hm' hp
    refine ⟨e.label.key :: left.flatMap keys ++ before, after ++ right.flatMap keys, ?_, ?_⟩
    · simp [hk, hb]
    · intro new hr
      -- The part stands below one child, so the others stay as they are.
      have hl : new.label.ref ∉ (left.flatMap keys).map Prod.snd := fun h =>
        hlm _ h _ (List.mem_append_left _ hin) hr
      have hr' : new.label.ref ∉ (right.flatMap keys).map Prod.snd := fun h =>
        hmr _ hin _ h hr.symm
      have he : e.label.ref ≠ new.label.ref := fun h => he <| by
        rw [show e.label.key.2 = p.label.ref from h.trans hr]
        exact List.mem_append_right _ <| List.mem_append_left _ hin
      rw [keys_eq, label_put he, children_put he, hc, List.map_append, List.map_cons,
        map_put_of_not_mem hl, map_put_of_not_mem hr']
      simp [ha new hr]

theorem put_put {new' : Part} (h : new'.label.ref = new.label.ref) (e : Part) :
    put new' (put new e) = put new' e := by
  induction e using children_induction
  case h e hi =>
    by_cases he : e.label.ref = new.label.ref
    case pos => rw [put_of_ref_eq he, put_of_ref_eq h.symm, put_of_ref_eq (he.trans h.symm)]
    case neg =>
      have he' : e.label.ref ≠ new'.label.ref := h ▸ he
      have hp : (put new e).label.ref ≠ new'.label.ref := label_put he ▸ he'
      apply eq_of_children_eq
      · rw [kind_put hp, kind_put he, kind_put he']
      · rw [label_put hp, label_put he, label_put he']
      · rw [literal_put hp, literal_put he, literal_put he']
      · rw [children_put hp, children_put he, children_put he', List.map_map]
        exact List.map_congr_left hi

theorem put_linked (h : e.Linked parent)
    (hnew : ∀ q ∈ e.preorder, q.label.ref = new.label.ref → new.Linked q.label.parent) :
    (put new e).Linked parent := by
  induction e using children_induction generalizing parent
  case h e hi =>
    by_cases he : e.label.ref = new.label.ref
    case pos =>
      rw [put_of_ref_eq he]
      exact h.1 ▸ hnew e (mem_preorder_self e) he
    case neg =>
      have ⟨hp, hc⟩ := linked_iff.mp h
      rw [linked_iff, label_put he, children_put he]
      refine ⟨hp, fun m' hm' => ?_⟩
      obtain ⟨m, hm, rfl⟩ := List.mem_map.mp hm'
      refine hi m hm (hc m hm) fun q hq => hnew q ?_
      exact mem_preorder_iff.mpr <| .inr ⟨m, hm, hq⟩

end Putting

section Domains

-- Every part carries the domain that it ranges over.
def RangesOver (d : Domain) (e : Part) : Prop := ∀ p ∈ e.preorder, p.label.domain = d

theorem rangesOver_iff :
    e.RangesOver d ↔ e.label.domain = d ∧ ∀ m ∈ e.children, m.RangesOver d := by
  rw [RangesOver, preorder_eq, List.forall_mem_cons, List.forall_mem_flatMap]
  rfl

theorem RangesOver.of_mem (h : e.RangesOver d) (hp : p ∈ e.preorder) : p.RangesOver d :=
  fun q hq => h q <| mem_preorder_trans hq hp

theorem rangesOver_mintAll {es : List (Expr ι)}
    (h : ∀ e ∈ es, ∀ next, (e.mint d next).1.RangesOver d) (next : Nat) :
    ∀ m ∈ (mintAll d next es).1, m.RangesOver d := by
  induction es generalizing next
  case nil => simp [mintAll]
  case cons e es hi =>
    obtain ⟨he, hes⟩ := List.forall_mem_cons.mp h
    exact List.forall_mem_cons.mpr ⟨he next, hi hes _⟩

-- Parts are made with the domain that they carry ...
theorem rangesOver_mint (e : Expr ι) (d : Domain) (next : Nat) :
    (e.mint d next).1.RangesOver d := by
  induction e using children_induction generalizing next
  case h e hi =>
    rw [rangesOver_iff, children_mint, label_mint]
    exact ⟨rfl, rangesOver_mintAll hi _⟩

theorem mintAll_rangesOver (es : List (Expr ι)) (d : Domain) (next : Nat) :
    ∀ m ∈ (mintAll d next es).1, m.RangesOver d :=
  rangesOver_mintAll (fun e _ => rangesOver_mint e d) next

theorem domain_enroll (r : Registry) (parent : Option Int) (t : Tag) :
    (r.enroll parent t).1.domain = t.domain := by
  rw [Registry.enroll]
  split <;> rfl

theorem rangesOver_adoptAll (h : ∀ e ∈ es, ∀ parent r, (e.adopt parent r).1.RangesOver d)
    (parent : Option Int) (r : Registry) : ∀ m ∈ (adoptAll parent r es).1, m.RangesOver d := by
  induction es generalizing r
  case nil => simp [adoptAll]
  case cons e es hi =>
    obtain ⟨he, hes⟩ := List.forall_mem_cons.mp h
    exact List.forall_mem_cons.mpr ⟨he parent r, hi hes _⟩

-- ... and keep it when they join ...
theorem RangesOver.adopt (h : e.RangesOver d) (parent : Option Int) (r : Registry) :
    (e.adopt parent r).1.RangesOver d := by
  induction e using children_induction generalizing parent r
  case h e hi =>
    obtain ⟨hd, hc⟩ := rangesOver_iff.mp h
    rw [rangesOver_iff, children_adopt, label_adopt, domain_enroll]
    exact ⟨hd, rangesOver_adoptAll (fun m hm => hi m hm (hc m hm)) _ _⟩

theorem adoptAll_rangesOver (h : ∀ e ∈ es, e.RangesOver d) (parent : Option Int) (r : Registry) :
    ∀ m ∈ (adoptAll parent r es).1, m.RangesOver d :=
  rangesOver_adoptAll (fun e he => (h e he).adopt) parent r

-- ... and when another one with the same domain takes the place of one.
theorem RangesOver.put (h : e.RangesOver d) (hnew : new.RangesOver d) :
    (put new e).RangesOver d := by
  induction e using children_induction
  case h e hi =>
    by_cases he : e.label.ref = new.label.ref
    case pos => rwa [put_of_ref_eq he]
    case neg =>
      obtain ⟨hd, hc⟩ := rangesOver_iff.mp h
      rw [rangesOver_iff, label_put he, children_put he, List.forall_mem_map]
      exact ⟨hd, fun m hm => hi m hm (hc m hm)⟩

theorem RangesOver.members (h : e.RangesOver d) : ∀ m ∈ e.members, m.RangesOver d := by
  cases e
  case list => exact (rangesOver_iff.mp h).2
  all_goals exact List.forall_mem_singleton.mpr h

end Domains

section Shape

theorem kind_mint (e : Expr ι) (next : Nat) : (e.mint d next).1.kind = e.kind := by
  cases e <;> rfl

theorem literal_mint (e : Expr ι) (next : Nat) : (e.mint d next).1.literal = e.literal := by
  cases e <;> rfl

theorem shapes_mintAll {es : List (Expr ι)}
    (h : ∀ e ∈ es, ∀ next, (e.mint d next).1.shape = e.shape) (next : Nat) :
    (mintAll d next es).1.map shape = es.map shape := by
  induction es generalizing next
  case nil => rfl
  case cons e es hi =>
    rw [mintAll, List.map_cons, List.map_cons, h e List.mem_cons_self,
      hi fun e he => h e (List.mem_cons_of_mem _ he)]

@[simp]
theorem shape_mint (e : Expr ι) (next : Nat) : (e.mint d next).1.shape = e.shape := by
  induction e using children_induction generalizing next
  case h e hi =>
    refine shape_eq_of_children_eq (kind_mint e next) (literal_mint e next) ?_
    rw [children_mint, shapes_mintAll hi]

@[simp]
theorem mintAll_shapes (es : List (Expr ι)) (next : Nat) :
    (mintAll d next es).1.map shape = es.map shape :=
  shapes_mintAll (fun e _ => shape_mint e) next

theorem kind_adopt (e : Part) : (e.adopt parent r).1.kind = e.kind := by
  cases e <;> rfl

theorem literal_adopt (e : Part) : (e.adopt parent r).1.literal = e.literal := by
  cases e <;> rfl

theorem shapes_adoptAll (h : ∀ e ∈ es, ∀ parent r, (e.adopt parent r).1.shape = e.shape)
    (parent : Option Int) (r : Registry) : (adoptAll parent r es).1.map shape = es.map shape := by
  induction es generalizing r
  case nil => rfl
  case cons e es hi =>
    rw [adoptAll, List.map_cons, List.map_cons, h e List.mem_cons_self,
      hi fun e he => h e (List.mem_cons_of_mem _ he)]

@[simp]
theorem shape_adopt (e : Part) (parent : Option Int) (r : Registry) :
    (e.adopt parent r).1.shape = e.shape := by
  induction e using children_induction generalizing parent r
  case h e hi =>
    refine shape_eq_of_children_eq (kind_adopt e) (literal_adopt e) ?_
    rw [children_adopt, shapes_adoptAll hi]

@[simp]
theorem adoptAll_shapes (es : List Part) (parent : Option Int) (r : Registry) :
    (adoptAll parent r es).1.map shape = es.map shape :=
  shapes_adoptAll (fun e _ => shape_adopt e) parent r

variable {l : Layout} {c : Column} {pos : Position}

theorem fits_mint_iff {e : Expr ι} {next : Nat} :
    Fits l c pos (e.mint d next).1 ↔ Fits l c pos e := by
  rw [← fits_shape_iff, shape_mint, fits_shape_iff]

theorem fits_adopt_iff : Fits l c pos (e.adopt parent r).1 ↔ Fits l c pos e := by
  rw [← fits_shape_iff, shape_adopt, fits_shape_iff]

-- Where a part changes to another one that may stand wherever it may, the tree stays well formed.
theorem Fits.put (h : Fits l c pos e)
    (hnew : ∀ q ∈ e.preorder, q.label.ref = new.label.ref →
      ∀ pos, Fits l c pos q → Fits l c pos new) :
    Fits l c pos (put new e) := by
  induction e using children_induction generalizing pos
  case h e hi =>
    by_cases he : e.label.ref = new.label.ref
    case pos =>
      rw [put_of_ref_eq he]
      exact hnew e (mem_preorder_self e) he pos h
    case neg =>
      refine h.of_children (Expr.put new) (kind_put he) (literal_put he) (children_put he) ?_
      intro m hm pos hf
      exact hi m hm hf fun q hq => hnew q <| mem_preorder_iff.mpr <| .inr ⟨m, hm, hq⟩

end Shape

end Cron.Expr
