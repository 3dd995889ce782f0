import Cron.Proofs.Schedule.Sound

namespace Cron

variable {α β ι : Type} {s s' s₁ : Schedule} {ks rest : List Key}

namespace EditM

variable {m : EditM α} {f : α → EditM β} {R : α → Schedule → Prop} {Q : β → Schedule → Prop}

-- The steps succeed, and `Q` holds of the answer and the schedule afterwards.
def Gives (m : EditM α) (s : Schedule) (Q : α → Schedule → Prop) : Prop :=
  ∃ a s', m s = .ok a s' ∧ Q a s'

-- The steps fail, and leave the schedule as it was.
def Fails (m : EditM α) (s : Schedule) (e : EditError) : Prop := m s = .error e s

-- The steps succeed in this way, or they fail and leave the schedule as it was.
def Keeps (m : EditM α) (s : Schedule) (Q : α → Schedule → Prop) : Prop :=
  (∃ e, m s = .error e s) ∨ m.Gives s Q

theorem Gives.keeps (h : m.Gives s R) : m.Keeps s R := .inr h

theorem Gives.imp {R' : α → Schedule → Prop} (h : m.Gives s R) (hi : ∀ a s', R a s' → R' a s') :
    m.Gives s R' :=
  have ⟨a, s', hm, hr⟩ := h
  ⟨a, s', hm, hi a s' hr⟩

-- The outcome of steps is one, so what is known of it may be known separately.
theorem Gives.and {R' : α → Schedule → Prop} (h : m.Gives s R) (h' : m.Gives s R') :
    m.Gives s fun a s' => R a s' ∧ R' a s' := by
  have ⟨a, s', hm, hr⟩ := h
  have ⟨a', s'', hm', hr'⟩ := h'
  cases hm.symm.trans hm'
  exact ⟨a, s', hm, hr, hr'⟩

theorem Gives.pure {a : α} (h : R a s) : (Pure.pure a : EditM α).Gives s R := ⟨a, s, rfl, h⟩

theorem bind_eq {a : α} (h : m s = .ok a s') : (m >>= f) s = f a s' := by
  simp [bind, EStateM.bind, h]

theorem Gives.next {a : α} (h : m s = .ok a s') (hf : (f a).Gives s' Q) : (m >>= f).Gives s Q := by
  rw [Gives, bind_eq h]
  exact hf

theorem Gives.bind (h : m.Gives s R) (hf : ∀ a s', R a s' → (f a).Gives s' Q) :
    (m >>= f).Gives s Q := by
  have ⟨a, s', hm, hr⟩ := h
  exact .next hm <| hf a s' hr

theorem Keeps.bind (h : m.Keeps s R) (hf : ∀ a s', R a s' → (f a).Gives s' Q) :
    (m >>= f).Keeps s Q := by
  rcases h with ⟨e, he⟩ | h
  · exact .inl ⟨e, by simp [Bind.bind, EStateM.bind, he]⟩
  · exact .inr <| h.bind hf

theorem bind_eq_ok_iff {b : β} :
    (m >>= f) s = .ok b s' ↔ ∃ a s₁, m s = .ok a s₁ ∧ f a s₁ = .ok b s' := by
  cases h : m s
  case ok a s₁ => simp [bind_eq h]
  case error   => simp [bind, EStateM.bind, h]

variable {question : Schedule → Except EditError α}

theorem ask_bind_eq_ok_iff {b : β} :
    (ask question >>= f) s = .ok b s' ↔ ∃ a, question s = .ok a ∧ f a s = .ok b s' := by
  rw [bind_eq_ok_iff]
  cases h : question s <;> simp [ask, h]

-- What is known to follow from steps follows if they have been made.
theorem Gives.of_eq {a : α} (h : m.Gives s R) (hm : m s = .ok a s') : R a s' := by
  obtain ⟨a', s'', hm', hr⟩ := h
  cases hm.symm.trans hm'
  exact hr

theorem ask_eq_ok {a : α} (h : question s = .ok a) : ask question s = .ok a s := by
  simp [ask, h]

theorem Fails.bind {e : EditError} (h : m.Fails s e) : (m >>= f).Fails s e := by
  have h : m s = .error e s := h
  simp [Fails, Bind.bind, EStateM.bind, h]

theorem Fails.ask {e : EditError} (h : question s = .error e) :
    (ask question >>= f).Fails s e := by
  simp [Fails, Bind.bind, EStateM.bind, EditM.ask, h]

theorem Fails.next {a : α} {e : EditError} (h : question s = .ok a) (hf : (f a).Fails s e) :
    (EditM.ask question >>= f).Fails s e := by
  rw [Fails, bind_eq (ask_eq_ok h)]
  exact hf

theorem Gives.ask {a : α} (h : question s = .ok a) (hf : (f a).Gives s Q) :
    (ask question >>= f).Gives s Q :=
  .next (ask_eq_ok h) hf

-- To ask does not change the schedule; the answer may be assumed in what follows.
theorem Keeps.ask (hf : ∀ a, question s = .ok a → (f a).Keeps s Q) :
    (ask question >>= f).Keeps s Q := by
  cases h : question s
  case error e => exact .inl ⟨e, Fails.ask h⟩
  case ok a =>
    rw [Keeps, Gives, bind_eq (ask_eq_ok h)]
    exact hf a h

end EditM

namespace Schedule

open EditM

variable {c : Column} {part whole changed : Part} {members : List Part} {t : Tag} {text : Codes}
variable {new : Shape}

theorem replant_gives {new : Expr ι} (h : s.Sound) (hf : new.Fits s.layout c .root) :
    (replant c (s.root c) new).Gives s fun _ s' => Turn s s' := by
  have hn := (h.proper c).numbered
  have made := (h.evolves_erase c).trans <|
    (h.evolves_erase c).coherent.mint new (s.layout.domain c)
  have made := made.perm (List.perm_append_comm_assoc _ _ _)
  have left := made.trans <| made.coherent.leave hn
  refine ⟨_, _, rfl, Turn.of_join left (fun d _ => (h.proper d).congr rfl rfl) ?_ ?_⟩
  · exact Expr.fits_mint_iff.mpr hf
  · exact new.rangesOver_mint _ _

theorem fits_adopted {added : List Part} {parent : Option Int} {r : Registry} {next : Nat}
    {d : Domain} (ha : added = (Expr.mintAll d next new.members).1)
    (hf : new.Fits s.layout c .root) :
    ∀ m ∈ (Expr.adoptAll parent r added).1, m.Fits s.layout c .member :=
  Expr.fits_of_map_shape_eq (by rw [Expr.adoptAll_shapes, ha, Expr.mintAll_shapes]) hf.members

theorem extend_gives (h : s.Sound) (hr : s.root c = .list t members)
    (hf : new.Fits s.layout c .root) :
    (extend c t members new).Gives s fun _ s' => Turn s s' := by
  let added := (Expr.mintAll (s.layout.domain c) s.nextRef new.members).1
  let adopted := (Expr.adoptAll (some t.id) s.registry added).1
  let x := Expr.list t (members ++ adopted)
  have hw : .list t members ∈ (s.root c).preorder := hr ▸ Expr.mem_preorder_self _
  have hl := (h.proper c).linked
  rw [hr, Expr.linked_iff] at hl
  have ⟨rest, hperm, hput⟩ := h.keys_put hw
  have made := (Evolves.refl h.coherent).perm hperm
  have made := made.trans <| made.coherent.mintAll new.members (s.layout.domain c)
  have joined := made.trans made.coherent.assign
  have ⟨hk, hreg⟩ := Expr.adoptAll_keys added (some t.id) s.registry
  have hx : x.keys =
      (Expr.list t members).keys ++ (s.registry.assign (added.flatMap Expr.keys)).1 := by
    simp [Expr.keys_eq, x, Expr.children, Expr.label, adopted, hk]
  refine ⟨holderAmong added t, _, rfl, ?_, h.proper_put (x := x) hw rfl rfl rfl ?_ ?_ ?_ ?_⟩
  case refine_1 =>
    dsimp only
    rw [hreg]
    refine (joined.move _).perm (List.Perm.trans ?_ (hput x _ rfl rfl).symm)
    rw [hx, ← List.append_assoc]
    exact List.perm_append_comm.append_right _
  case refine_2 =>
    rw [hx]
    intro k hm
    rcases List.mem_append.mp hm with hm | hm
    · exact h.numbered k <| hperm.mem_iff.mpr <| List.mem_append_left _ hm
    · exact made.coherent.not_blank_of_mem_assign k hm
  case refine_3 =>
    rw [Expr.linked_iff]
    refine ⟨rfl, fun m hm => ?_⟩
    rcases List.mem_append.mp hm with hm | hm
    · exact hl.2 m hm
    · exact Expr.adoptAll_linked _ _ _ m hm
  case refine_4 =>
    intro pos hfw
    rw [Expr.fits_list_iff] at hfw ⊢
    obtain ⟨hpos, hlen, hm⟩ := hfw
    refine ⟨hpos, ?_, fun m hm' => ?_⟩
    · rw [List.length_append]
      exact Nat.le_add_right_of_le hlen
    · rcases List.mem_append.mp hm' with hm' | hm'
      · exact hm m hm'
      · exact fits_adopted rfl hf m hm'
  case refine_5 =>
    have hranges := (h.proper c).ranges
    rw [hr, Expr.rangesOver_iff] at hranges
    refine Expr.rangesOver_iff.mpr ⟨hranges.1, List.forall_mem_append.mpr ⟨hranges.2, ?_⟩⟩
    exact Expr.adoptAll_rangesOver (Expr.mintAll_rangesOver _ _ _) _ _

theorem enlist_gives (h : s.Sound) (hk : (s.root c).kind ≠ .list) (hf : new.Fits s.layout c .root) :
    (enlist c (s.root c) new).Gives s fun _ s' => Turn s s' := by
  let d := s.layout.domain c
  let added := (Expr.mintAll d (s.nextRef + 1) new.members).1
  let whole := Expr.list (.blank s.nextRef d) (s.root c :: added)
  have made := (h.evolves_erase c).trans <| (h.evolves_erase c).coherent.make 1
  have made := made.trans <| made.coherent.mintAll new.members d
  have hperm (rest : List Key) : (added.flatMap Expr.keys ++
      (Expr.blankKeys s.nextRef 1 ++ ((s.root c).keys ++ rest))).Perm (whole.keys ++ rest) := by
    have hw : whole.keys =
        Expr.blankKeys s.nextRef 1 ++ (s.root c).keys ++ added.flatMap Expr.keys := Expr.keys_eq _
    rw [hw, ← List.append_assoc, ← List.append_assoc, List.append_assoc (added.flatMap _)]
    exact List.perm_append_comm.append_right _
  refine ⟨holderAmong added whole.label, _, rfl, Turn.of_join (made.perm (hperm _)) ?_ ?_ ?_⟩
  case refine_1 => exact fun d _ => (h.proper d).congr rfl rfl
  case refine_2 =>
    have hs : added.map Expr.shape = new.members.map Expr.shape := Expr.mintAll_shapes _ _
    have hlen : added.length = new.members.length := by simpa using congrArg List.length hs
    refine .list ?_ fun m hm => ?_
    · rw [List.length_cons, hlen]
      exact Nat.succ_le_succ hf.one_le_members
    · rcases List.mem_cons.mp hm with rfl | hm
      · exact (h.proper c).fits.member_of_root hk
      · exact Expr.fits_of_map_shape_eq hs hf.members m hm
  case refine_3 =>
    refine Expr.rangesOver_iff.mpr ⟨rfl, List.forall_mem_cons.mpr ⟨(h.proper c).ranges, ?_⟩⟩
    exact Expr.mintAll_rangesOver _ _ _

theorem graft_cases (c : Column) (root : Part) (new : Shape) :
    root.isAny ∧ graft c root new = replant c root new ∨
    (∃ t members, root = .list t members ∧ graft c root new = extend c t members new) ∨
    root.isAny = false ∧ root.kind ≠ .list ∧ graft c root new = enlist c root new := by
  cases root
  case any    => exact .inl ⟨rfl, rfl⟩
  case list   => exact .inr <| .inl ⟨_, _, rfl, rfl⟩
  all_goals exact .inr <| .inr ⟨rfl, nofun, rfl⟩

-- Adding an expression to a column never fails.
theorem graft_gives (h : s.Sound) (hf : new.Fits s.layout c .root) :
    (graft c (s.root c) new).Gives s fun _ s' => Turn s s' := by
  rcases graft_cases c (s.root c) new with ⟨-, hg⟩ | ⟨t, members, hr, hg⟩ | ⟨-, hk, hg⟩
  all_goals rw [hg]
  · exact replant_gives h hf
  · exact extend_gives h hr hf
  · exact enlist_gives h hk hf

-- An expression that is made to take the place of a part. A list that goes among the members of
-- another one is taken apart; what held its members never joins.
theorem evolves_entries {e : Expr ι} (h : Coherent s ks) (whole : Part) (d : Domain) :
    Evolves s ks { s with nextRef := (e.mint d s.nextRef).2 }
      ((Expr.entries whole (e.mint d s.nextRef).1).flatMap Expr.keys ++ ks) := by
  have made := h.mint e d
  rcases Expr.keys_entries whole (e.mint d s.nextRef).1 with he | he
  · rw [← he]
    exact made
  · rw [he] at made
    refine made.trans <| made.coherent.forget ?_
    rw [Expr.label_mint]
    rfl

-- A part that was changed where it stands joins again, with what has come below it.
theorem rejoin_gives (h : s.Sound) (hw : whole ∈ (s.root c).preorder)
    (hput : ∀ x (s' : Schedule), x.label.ref = whole.label.ref →
      s'.roots = s.roots.map (Expr.put x) → s'.keys.Perm (x.keys ++ rest))
    (e : Evolves s s.keys s₁ (changed.keys ++ rest))
    (hr : s₁.roots = s.roots.map (Expr.put changed)) (hl : changed.label = whole.label)
    (hf : ∀ pos, whole.Fits s.layout c pos → changed.Fits s.layout c pos)
    (hd : changed.RangesOver (s.layout.domain c)) :
    (rejoin changed).Gives s₁ fun _ s' => Turn s s' := by
  let x := (changed.adopt changed.label.parent s₁.registry).1
  have ⟨hk, hreg⟩ := changed.keys_adopt changed.label.parent s₁.registry
  have hx : x.label.ref = whole.label.ref := by rw [Expr.ref_adopt, hl]
  have hroots : s₁.roots.map (Expr.put x) = s.roots.map (Expr.put x) := by
    have he := Expr.put_put (hx.trans <| congrArg Tag.ref hl.symm)
    simp [hr, Columns.map, he]
  refine ⟨(), _, rfl, ?_, h.proper_put (x := x) hw hx hroots e.layout ?_ ?_ ?_ ?_⟩
  case refine_1 =>
    refine Evolves.perm ?_ (hput x _ hx hroots).symm
    dsimp only
    rw [hk, hreg]
    exact (e.trans e.coherent.assign).move _
  case refine_2 => exact hk ▸ e.coherent.not_blank_of_mem_assign
  case refine_3 => exact hl ▸ changed.linked_adopt _ _
  case refine_4 => exact fun pos hfw => Expr.fits_adopt_iff.mpr <| hf pos hfw
  case refine_5 => exact hd.adopt _ _

section Substitute

variable {left right : List Part}

-- A part has given way to another one, and what holds them has not joined again yet.
def exchanged (s : Schedule) (part changed : Part) (next : Nat) : Schedule :=
  { s with nextRef := next, roots := s.roots.map (Expr.put changed) }.leave part

theorem substitute_rejoins {i : Nat} (hpos : whole.position? part = some i) (c : Column)
    (new : Shape) :
    (substitute c part whole new).Gives s fun holder s' =>
      let made := (new.mint (s.layout.domain c) s.nextRef).1
      let changed := whole.replaceChild i made
      rejoin changed (s.exchanged part changed (new.mint (s.layout.domain c) s.nextRef).2) =
          .ok () s' ∧
        holder = if new.kind = .list ∧ whole.kind = .list then whole.label.ref
          else made.label.ref := by
  have hask (made : Part) : (whole.exchange part made).mapError EditError.misplaced =
      .ok (whole.replaceChild i made) := by
    rw [Expr.exchange, hpos]
    rfl
  exact Gives.next rfl <| Gives.ask (hask _) <| Gives.next rfl <| Gives.next rfl <|
    Gives.next rfl <| Gives.pure ⟨rfl, rfl⟩

-- The new parts come in, the old one leaves, and what holds them is still to join again.
theorem evolves_exchanged (h : s.Sound) (hw : whole ∈ (s.root c).preorder)
    (hc : whole.children = left ++ part :: right) (new : Expr ι) (d : Domain) :
    let made := (new.mint d s.nextRef).1
    let changed := whole.replaceChild left.length made
    ∃ rest, Evolves s s.keys (s.exchanged part changed (new.mint d s.nextRef).2)
        (changed.keys ++ rest) ∧
      ∀ x (s' : Schedule), x.label.ref = whole.label.ref → s'.roots = s.roots.map (Expr.put x) →
        s'.keys.Perm (x.keys ++ rest) := by
  intro made changed
  obtain ⟨hch, hlabel, -⟩ : changed.children = _ ∧ changed.label = _ ∧ _ :=
    Expr.children_replaceChild hc made
  have ⟨rest, hperm, hput⟩ := h.keys_put hw
  have hmove (new : List Key) : (new ++ (whole.keys ++ rest)).Perm
      (part.keys ++ ((whole.label.key :: (left.flatMap Expr.keys ++ new ++
        right.flatMap Expr.keys)) ++ rest)) := by
    rw [Expr.keys_eq whole, hc, List.perm_iff_count]
    intro k
    simp only [List.count_append, List.count_cons, List.flatMap_append, List.flatMap_cons]
    omega
  have hpart : ∀ k ∈ part.keys, ¬k.Blank := fun k hk =>
    h.numbered k <| hperm.mem_iff.mpr <| List.mem_append_left _ <| by
      simp [Expr.keys_eq whole, hc, hk]
  have e := (Evolves.refl h.coherent).perm hperm
  have e := (e.trans <| evolves_entries (e := new) e.coherent whole d).perm (hmove _)
  have e := (e.trans <| e.coherent.leave hpart).move <| s.roots.map (Expr.put changed)
  have hk : changed.keys = whole.label.key :: (left.flatMap Expr.keys ++
      (Expr.entries whole made).flatMap Expr.keys ++ right.flatMap Expr.keys) := by
    rw [Expr.keys_eq, hch, hlabel, List.flatMap_append, List.flatMap_append]
  rw [← hk] at e
  exact ⟨rest, e, hput⟩

theorem substitute_gives (h : s.Sound) (hw : whole ∈ (s.root c).preorder)
    (hm : part ∈ whole.children) (hok : checkFits part whole new text = .ok ())
    (hf : new.Fits s.layout c .root) :
    (substitute c part whole new).Gives s fun _ s' => Turn s s' := by
  have ⟨left, right, hc, hpos⟩ := Expr.position?_of_mem (h.nodup_keys_of_mem hw) hm
  have ⟨rest, e, hput⟩ := evolves_exchanged h hw hc new (s.layout.domain c)
  have hlabel := (Expr.children_replaceChild hc (new.mint (s.layout.domain c) s.nextRef).1).2.1
  have hranges := (h.ranges_of_mem hw).replaceChild hc <| new.rangesOver_mint _ s.nextRef
  refine (substitute_rejoins hpos c new).imp fun _ _ ⟨hj, _⟩ => ?_
  refine (rejoin_gives h hw hput e rfl hlabel (fun pos hfw => ?_) hranges).of_eq hj
  exact hfw.of_checkFits hc hpos hok hf <| by rw [Expr.shape_mint, Expr.shape_shape]

end Substitute

section Prune

variable {left right : List Part}

theorem keys_cut :
    (Expr.list t (left ++ part :: right)).keys.Perm
      (part.keys ++ (Expr.list t (left ++ right)).keys) := by
  rw [Expr.keys_eq, Expr.keys_eq (.list t (left ++ right)), List.perm_iff_count]
  intro k
  simp only [Expr.children, Expr.label, List.count_append, List.count_cons, List.flatMap_append,
    List.flatMap_cons]
  omega

theorem mem_cut {m : Part} (hm : m ∈ left ++ right) : m ∈ left ++ part :: right := by
  rw [List.mem_append] at hm
  exact List.mem_append.mpr <| hm.imp_right <| List.mem_cons_of_mem _

-- A member of a list leaves, and the list stays with one member less.
def cut (s : Schedule) (part x : Part) : Schedule :=
  { s with roots := s.roots.map (Expr.put x) }.leave part

theorem evolves_cut (h : s.Sound) (hr : s.root c = .list t (left ++ part :: right)) :
    Evolves s s.keys (s.cut part (.list t (left ++ right)))
      (s.cut part (.list t (left ++ right))).keys ∧
    ∀ k ∈ (s.cut part (.list t (left ++ right))).keys, ¬k.Blank := by
  have hw : .list t (left ++ part :: right) ∈ (s.root c).preorder :=
    hr ▸ Expr.mem_preorder_self _
  have ⟨rest, hperm, hput⟩ := h.keys_put hw
  have hput := hput (.list t (left ++ right)) (s.cut part (.list t (left ++ right))) rfl rfl
  have hks : s.keys.Perm (part.keys ++ ((Expr.list t (left ++ right)).keys ++ rest)) := by
    rw [← List.append_assoc]
    exact hperm.trans <| keys_cut.append_right _
  have e := (Evolves.refl h.coherent).perm hks
  have e := e.move <| s.roots.map (Expr.put <| .list t (left ++ right))
  have e := e.trans <| e.coherent.leave fun k hm =>
    h.numbered k <| hks.mem_iff.mpr <| List.mem_append_left _ hm
  exact ⟨e.perm hput.symm, fun k hm =>
    h.numbered k <| hks.mem_iff.mpr <| List.mem_append_right _ <| hput.mem_iff.mp hm⟩

theorem root_cut (s : Schedule) (part x : Part) (d : Column) :
    (s.cut part x).root d = Expr.put x (s.root d) :=
  Columns.get_map ..

-- The last member of a list is left where the list stood.
theorem evolves_collapsed {m : Part} (h : s.Sound)
    (hr : s.root c = .list t (left ++ part :: right)) (hm : left ++ right = [m]) :
    let rest := (s.cut part (.list t [m])).leave (.list t [])
    Evolves s s.keys rest (m.keys ++ rest.keysOf (Column.all.erase c)) := by
  intro rest
  obtain ⟨e, hn⟩ := evolves_cut h hr
  rw [hm] at e hn
  have hx : (s.cut part (.list t [m])).root c = .list t [m] := by
    rw [root_cut, hr]
    exact Expr.put_of_ref_eq rfl
  have hk : (s.cut part (.list t [m])).keys.Perm
      ((Expr.list t []).keys ++ (m.keys ++ rest.keysOf (Column.all.erase c))) := by
    have hk := keys_perm (s.cut part (.list t [m])) c
    rwa [hx, Expr.keys_eq, Expr.children, List.flatMap_singleton] at hk
  have e := e.perm hk
  exact e.trans <| e.coherent.leave fun k hm =>
    hn k <| hk.mem_iff.mpr <| List.mem_append_left _ hm

-- What removing a member makes of a list: it stays, or its last member takes its place.
inductive Pruned (s : Schedule) (c : Column) (part : Part) (s' : Schedule) : Prop
  | kept {t : Tag} {left right : List Part} :
    s.root c = .list t (left ++ part :: right) → 2 ≤ (left ++ right).length →
    s' = s.cut part (.list t (left ++ right)) → Pruned s c part s'
  | collapsed {t : Tag} {left right : List Part} {m : Part} :
    s.root c = .list t (left ++ part :: right) → left ++ right = [m] →
    s' = ((s.cut part (.list t [m])).leave (.list t [])).join c m → Pruned s c part s'

theorem prune_pruned (h : s.Sound) (hr : s.root c = .list t members) (hm : part ∈ members) :
    (prune c part (.list t members)).Gives s fun _ s' => Pruned s c part s' := by
  have hw : .list t members ∈ (s.root c).preorder := hr ▸ Expr.mem_preorder_self _
  have ⟨left, right, hc, hask⟩ := Expr.withdraw_eq (h.nodup_keys_of_mem hw) hm rfl
  simp only [Expr.children] at hc
  subst hc
  have hf := (h.proper c).fits
  rw [hr] at hf
  have hlen := hf.two_le_members
  rw [List.length_append, List.length_cons] at hlen
  rw [prune]
  refine Gives.ask (a := .list t (left ++ right)) (by rw [hask]; rfl) <| Gives.next rfl <|
    Gives.next rfl ?_
  by_cases hone : (left ++ right).length ≤ 1
  case pos =>
    have hone' : (left ++ right).length = 1 := by
      rw [List.length_append] at hone ⊢
      omega
    obtain ⟨m, hm⟩ := List.length_eq_one_iff.mp hone'
    have hc : (collapse c t [m]).Gives (s.cut part (.list t [m])) fun _ s' => Pruned s c part s' :=
      ⟨(), _, rfl, .collapsed hr hm rfl⟩
    rw [← hm] at hc
    rwa [if_pos (show (Expr.list t (left ++ right)).children.length ≤ 1 from hone)]
  case neg =>
    rw [if_neg (show ¬(Expr.list t (left ++ right)).children.length ≤ 1 from hone)]
    exact ⟨(), _, rfl, .kept hr (Nat.lt_of_not_le hone) rfl⟩

theorem Pruned.turn (h : s.Sound) (hp : Pruned s c part s') : Turn s s' := by
  cases hp
  case kept t left right hr hlen hs =>
    subst hs
    have hw : .list t (left ++ part :: right) ∈ (s.root c).preorder :=
      hr ▸ Expr.mem_preorder_self _
    obtain ⟨e, hn⟩ := evolves_cut h hr
    have hl := (h.proper c).linked
    rw [hr, Expr.linked_iff] at hl
    let x := Expr.list t (left ++ right)
    refine ⟨e, h.proper_put (x := x) hw rfl rfl rfl ?_ ?_ ?_ ?_⟩
    case refine_1 =>
      obtain ⟨rest, -, hput⟩ := h.keys_put hw
      exact fun k hm => hn k <| (hput x _ rfl rfl).mem_iff.mpr <| List.mem_append_left _ hm
    case refine_2 => exact Expr.linked_iff.mpr ⟨rfl, fun m hm => hl.2 m <| mem_cut hm⟩
    case refine_3 =>
      intro pos hfw
      obtain ⟨hpos, -, hfm⟩ := Expr.fits_list_iff.mp hfw
      exact Expr.fits_list_iff.mpr ⟨hpos, hlen, fun m hm => hfm m <| mem_cut hm⟩
    case refine_4 =>
      have hranges := (h.proper c).ranges
      rw [hr, Expr.rangesOver_iff] at hranges
      exact Expr.rangesOver_iff.mpr ⟨hranges.1, fun m hm => hranges.2 m <| mem_cut hm⟩
  case collapsed t left right m hr hm hs =>
    subst hs
    have hw : .list t (left ++ part :: right) ∈ (s.root c).preorder :=
      hr ▸ Expr.mem_preorder_self _
    refine Turn.of_join (evolves_collapsed h hr hm) (fun d hd => ?_) ?_ ?_
    · refine (h.proper d).congr rfl ?_
      exact (root_cut s part _ d).trans <| h.put_root_of_ne hw rfl hd
    · have hf := (h.proper c).fits
      rw [hr, Expr.fits_list_iff] at hf
      exact (hf.2.2 m <| mem_cut <| by simp [hm]).alone
    · have hranges := (h.proper c).ranges
      rw [hr, Expr.rangesOver_iff] at hranges
      exact hranges.2 m <| mem_cut <| by simp [hm]

end Prune

theorem prune_gives (h : s.Sound) (hr : s.root c = .list t members) (hm : part ∈ members) :
    (prune c part (.list t members)).Gives s fun _ s' => Turn s s' :=
  (prune_pruned h hr hm).imp fun _ _ hp => hp.turn h

end Schedule
end Cron
