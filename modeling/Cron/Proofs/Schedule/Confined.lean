import Cron.Proofs.Schedule.Editing

namespace Cron

variable {ι : Type} {s s' s₁ : Schedule} {c d : Column} {part whole p q : Part} {id : Int}
variable {text : Codes} {new : Shape} {members : List Part} {t : Tag}

namespace Expr

variable {e : Part}

theorem isAny_mint (e : Expr ι) (d : Domain) (next : Nat) : (e.mint d next).1.isAny = e.isAny := by
  rw [isAny, kind_mint, isAny]

theorem isAny_adopt (e : Part) (parent : Option Int) (r : Registry) :
    (e.adopt parent r).1.isAny = e.isAny := by
  rw [isAny, kind_adopt, isAny]

-- What has to leave for a part to leave: the part, unless it is an end of a range or an operand of
-- a step; else the range or step that stands at the root, or is a member of a list there.
inductive Carries (root : Part) : Part → Part → Prop
  | root {p : Part} : p ∈ root.preorder → (root.kind = .list → p = root) → Carries root root p
  | member {q p : Part} :
    root.kind = .list → q ∈ root.children → p ∈ q.preorder → Carries root q p

theorem Carries.of_mem_children {root q p m : Part} (h : Carries root q p) (hk : p.kind ≠ .list)
    (hm : m ∈ p.children) : Carries root q m := by
  cases h
  case root hp hl =>
    refine .root (mem_preorder_of_mem_children hm hp) fun hlist => ?_
    exact absurd (hl hlist ▸ hlist) hk
  case member hl hq hp => exact .member hl hq <| mem_preorder_of_mem_children hm hp

theorem isAny_eq_false_of_mem_children {m : Expr ι} {e : Expr ι} (hm : m ∈ e.children) :
    e.isAny = false := by
  cases e
  case any => simp [children] at hm
  all_goals rfl

-- Nothing stands below anything in an unrestricted column.
theorem isAny_eq_false_of_mem_preorder {m w e : Expr ι} (hw : w ∈ e.preorder)
    (hm : m ∈ w.children) : e.isAny = false := by
  rcases mem_preorder_iff.mp hw with rfl | ⟨m', hm', -⟩
  · exact isAny_eq_false_of_mem_children hm
  · exact isAny_eq_false_of_mem_children hm'

-- Changing a part within a tree, but not its kind, leaves the kind of the tree.
theorem kind_put_of_kind_eq {new : Part} (h : e.label.ref = new.label.ref → new.kind = e.kind) :
    (put new e).kind = e.kind := by
  by_cases he : e.label.ref = new.label.ref
  case pos => rw [put_of_ref_eq he, h he]
  case neg => exact kind_put he

end Expr

namespace Schedule

open EditM

-- A change of one column; the others are as they were.
structure Confined (s : Schedule) (c : Column) (s' : Schedule) : Prop where
  turn   : Turn s s'
  others : ∀ d ≠ c, s'.root d = s.root d

theorem root_join_of_ne (hd : d ≠ c) : (s.join c part).root d = s.root d := by
  rw [root_join, if_neg hd.symm]

theorem isAny_root_join (s : Schedule) (c : Column) (part : Part) :
    ((s.join c part).root c).isAny = part.isAny := by
  rw [root_join, if_pos rfl, Expr.isAny_adopt]

theorem root_of_roots_eq {x : Part} (hr : s'.roots = s.roots.map (Expr.put x)) (d : Column) :
    s'.root d = Expr.put x (s.root d) := by
  rw [root, hr, Columns.get_map, root]

theorem replant_confined {new : Expr ι} (h : s.Sound) (hf : new.Fits s.layout c .root) :
    (replant c (s.root c) new).Gives s fun _ s' =>
      Confined s c s' ∧ (s'.root c).isAny = new.isAny := by
  have hr : (replant c (s.root c) new).Gives s fun _ s' =>
      (∀ d ≠ c, s'.root d = s.root d) ∧ (s'.root c).isAny = new.isAny := by
    refine ⟨_, _, rfl, fun d hd => root_join_of_ne hd, ?_⟩
    rw [isAny_root_join, Expr.isAny_mint]
  exact ((replant_gives h hf).and hr).imp fun _ _ ⟨ht, ho, ha⟩ => ⟨⟨ht, ho⟩, ha⟩

theorem extend_confined (h : s.Sound) (hr : s.root c = .list t members)
    (hf : new.Fits s.layout c .root) :
    (extend c t members new).Gives s fun _ s' => Confined s c s' ∧ (s'.root c).isAny = false := by
  have hw : .list t members ∈ (s.root c).preorder := hr ▸ Expr.mem_preorder_self _
  have hx : (extend c t members new).Gives s fun _ s' =>
      (∀ d ≠ c, s'.root d = s.root d) ∧ (s'.root c).isAny = false := by
    refine ⟨_, _, rfl, fun d hd => ?_, ?_⟩
    · rw [root_of_roots_eq (s := s) rfl]
      exact h.put_root_of_ne hw rfl hd
    · rw [root_of_roots_eq (s := s) rfl, hr]
      exact congrArg Expr.isAny <| Expr.put_of_ref_eq (by rfl)
  exact ((extend_gives h hr hf).and hx).imp fun _ _ ⟨ht, ho, ha⟩ => ⟨⟨ht, ho⟩, ha⟩

theorem enlist_confined (h : s.Sound) (hk : (s.root c).kind ≠ .list)
    (hf : new.Fits s.layout c .root) :
    (enlist c (s.root c) new).Gives s fun _ s' =>
      Confined s c s' ∧ (s'.root c).isAny = false := by
  have hr : (enlist c (s.root c) new).Gives s fun _ s' =>
      (∀ d ≠ c, s'.root d = s.root d) ∧ (s'.root c).isAny = false := by
    refine ⟨_, _, rfl, fun d hd => root_join_of_ne hd, ?_⟩
    rw [isAny_root_join]
    rfl
  exact ((enlist_gives h hk hf).and hr).imp fun _ _ ⟨ht, ho, ha⟩ => ⟨⟨ht, ho⟩, ha⟩

-- What is added to a column leaves it unrestricted only if nothing restricts it.
theorem graft_confined (h : s.Sound) (hf : new.Fits s.layout c .root) :
    (graft c (s.root c) new).Gives s fun _ s' =>
      Confined s c s' ∧ (s'.root c).isAny = ((s.root c).isAny && new.isAny) := by
  rcases graft_cases c (s.root c) new with ⟨hany, hg⟩ | ⟨t, members, hr, hg⟩ | ⟨hany, hk, hg⟩
  all_goals rw [hg]
  · exact (replant_confined h hf).imp fun _ _ hc => ⟨hc.1, by rw [hc.2, hany, Bool.true_and]⟩
  · refine (extend_confined h hr hf).imp fun _ _ hc => ⟨hc.1, ?_⟩
    rw [hc.2, hr]
    rfl
  · exact (enlist_confined h hk hf).imp fun _ _ hc =>
      ⟨hc.1, by rw [hc.2, hany, Bool.false_and]⟩

-- A part that was changed where it stands joins again there.
theorem rejoin_roots (hr : s₁.roots = s.roots.map (Expr.put part)) :
    (rejoin part).Gives s₁ fun _ s' =>
      ∀ d, s'.root d = Expr.put (part.adopt part.label.parent s₁.registry).1 (s.root d) := by
  refine ⟨_, _, rfl, fun d => ?_⟩
  rw [root_of_roots_eq (s := s₁) rfl, root_of_roots_eq hr, Expr.put_put (Expr.ref_adopt _)]

theorem substitute_confined (h : s.Sound) (hw : whole ∈ (s.root c).preorder)
    (hm : part ∈ whole.children) (hok : checkFits part whole new text = .ok ())
    (hf : new.Fits s.layout c .root) :
    (substitute c part whole new).Gives s fun _ s' =>
      Confined s c s' ∧ (s'.root c).isAny = false := by
  obtain ⟨left, right, hc, hpos⟩ := Expr.position?_of_mem (h.nodup_keys_of_mem hw) hm
  have hr := (substitute_gives h hw hm hok hf).and (substitute_rejoins hpos c new)
  refine hr.imp fun _ s' ⟨ht, hj, _⟩ => ?_
  have hroot := (rejoin_roots (s := s) rfl).of_eq hj
  generalize hx : (Expr.adopt _ _ _).1 = x at hroot
  obtain ⟨-, hlabel, hkind⟩ :=
    Expr.children_replaceChild hc (new.mint (s.layout.domain c) s.nextRef).1
  have href : x.label.ref = whole.label.ref := by rw [← hx, Expr.ref_adopt, hlabel]
  refine ⟨⟨ht, fun d hd => (hroot d).trans <| h.put_root_of_ne hw href hd⟩, ?_⟩
  have hkp : (Expr.put x (s.root c)).kind = (s.root c).kind := by
    refine Expr.kind_put_of_kind_eq fun he => ?_
    have : s.root c = whole := Expr.eq_of_ref_eq (h.nodup_keys_root c)
      (Expr.mem_preorder_self _) hw (he.trans href)
    rw [this, ← hx, Expr.kind_adopt, hkind]
  rw [hroot, Expr.isAny, hkp]
  exact Expr.isAny_eq_false_of_mem_preorder hw hm

theorem Pruned.confined (h : s.Sound) (hp : Pruned s c part s') : Confined s c s' := by
  refine ⟨hp.turn h, fun d hd => ?_⟩
  have hcut {t : Tag} {ms ms' : List Part} (hr : s.root c = .list t ms) :
      (s.cut part (.list t ms')).root d = s.root d := by
    have hw : .list t ms ∈ (s.root c).preorder := hr ▸ Expr.mem_preorder_self _
    exact (root_cut ..).trans <| h.put_root_of_ne hw rfl hd
  cases hp
  case kept hr _ hs =>
    subst hs
    exact hcut hr
  case collapsed hr _ hs =>
    subst hs
    exact (root_join_of_ne hd).trans <| hcut hr

theorem removed_eq (h : s.Sound) (id : Int) (c : Column) :
    (removed id c).Gives s fun _ s' => s' = s :=
  Gives.ask (written_eq h c) <| Gives.ask rfl <| Gives.pure rfl

-- What removing comes to once it is found what has to leave.
inductive Removal (s : Schedule) (c : Column) : Part → Schedule → Prop
  | root {holder : Nat} {s' : Schedule} :
    replant c (s.root c) (Expr.any ()) s = .ok holder s' → Removal s c (s.root c) s'
  | member {t : Tag} {members : List Part} {p : Part} {s' : Schedule} :
    s.root c = .list t members → p ∈ members → Pruned s c p s' → Removal s c p s'

-- No column becomes restricted by a removal.
theorem Removal.confined (h : s.Sound) (hr : Removal s c p s') :
    Confined s c s' ∧ ((s.root c).isAny → (s'.root c).isAny) := by
  cases hr
  case root hm =>
    have hg : (replant c (s.root c) (Expr.any ())).Gives s _ := replant_confined h (by simp)
    obtain ⟨hc, hany⟩ := hg.of_eq hm
    exact ⟨hc, fun _ => hany⟩
  case member hr _ hp =>
    refine ⟨hp.confined h, fun hany => ?_⟩
    rw [hr] at hany
    cases hany

-- A member of a list is removed alone.
theorem removeWithin_member {steps : Nat} (h : s.Sound) (ha : s.Addresses id c p)
    (hr : s.root c = .list t members) (hm : p ∈ members) :
    (removeWithin steps id).Gives s fun _ s' => Removal s c p s' := by
  have hask := h.resolve_eq_ok_iff.mpr ha
  have hw : .list t members ∈ (s.root c).preorder := hr ▸ Expr.mem_preorder_self _
  have hholder := h.holderOf_of_mem_children hw hm
  cases steps
  all_goals
    rw [removeWithin]
    refine Gives.ask hask <| Gives.ask hholder <| (prune_pruned h hr hm).bind fun _ s' hp => ?_
    exact (removed_eq (hp.turn h).sound id c).imp fun _ _ he => he ▸ .member hr hm hp

-- A part is removed, be it alone or with the range or step that cannot do without it.
theorem removeWithin_gives {steps n : Nat} (h : s.Sound) (ha : s.Addresses id c p)
    (hd : (s.root c).Depth n p) (hn : n ≤ steps) :
    ∃ q, (s.root c).Carries q p ∧ (removeWithin steps id).Gives s fun _ s' => Removal s c q s' := by
  -- By induction on how deep the part stands, going from a part to what holds it.
  induction hd generalizing id steps
  case top =>
    have hask := h.resolve_eq_ok_iff.mpr ha
    refine ⟨_, .root (Expr.mem_preorder_self _) fun _ => rfl, ?_⟩
    obtain ⟨holder, s', hm, hc, -⟩ :
      (replant c (s.root c) (Expr.any ())).Gives s _ := replant_confined h (by simp)
    cases steps
    all_goals
      rw [removeWithin]
      refine Gives.ask hask <| Gives.ask (h.holderOf_root c) <| Gives.next hm ?_
      exact (removed_eq hc.turn.sound id c).imp fun _ _ he => he ▸ .root hm
  case child q p hq hm hi =>
    by_cases hk : q.kind = .list
    case pos =>
      obtain ⟨t, members, rfl⟩ := Expr.eq_list_of_kind hk
      have hr := ((h.proper c).fits.eq_of_kind_eq_list hq.mem rfl).symm
      exact ⟨p, .member (hr ▸ rfl) (hr ▸ hm) (Expr.mem_preorder_self p),
        removeWithin_member h ha hr hm⟩
    case neg =>
      obtain ⟨steps, rfl⟩ := Nat.exists_eq_succ_of_ne_zero (Nat.ne_zero_of_lt hn)
      rw [removeWithin]
      have hask := h.resolve_eq_ok_iff.mpr ha
      have hholder := h.holderOf_of_mem_children hq.mem hm
      obtain ⟨r, hc, hg⟩ := hi (.inr ⟨hq.mem, rfl⟩) <| Nat.le_of_succ_le_succ hn
      refine ⟨r, hc.of_mem_children hk hm, Gives.ask hask <| Gives.ask hholder ?_⟩
      dsimp only
      rwa [if_neg hk]

theorem remove_removal (h : s.Sound) (ha : s.Addresses id c p) :
    ∃ q, (s.root c).Carries q p ∧ (remove id).Gives s fun _ s' => Removal s c q s' := by
  have ⟨n, hn, hd⟩ := Expr.exists_depth ha.mem
  have hsteps : n ≤ s.registry.rows.length := by
    rw [h.length_rows]
    exact Nat.le_of_lt <| Nat.lt_of_lt_of_le hn <| s.length_preorder_le c
  obtain ⟨q, hc, hg⟩ := removeWithin_gives h ha hd hsteps
  exact ⟨q, hc, Gives.ask rfl hg⟩

theorem remove_gives (h : s.Sound) (ha : s.Addresses id c p) :
    (remove id).Gives s fun _ s' =>
      Confined s c s' ∧ ((s.root c).isAny → (s'.root c).isAny) := by
  obtain ⟨q, -, hg⟩ := remove_removal h ha
  exact hg.imp fun _ _ hr => hr.confined h

end Schedule
end Cron
