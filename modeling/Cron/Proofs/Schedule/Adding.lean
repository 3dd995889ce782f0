import Cron.Proofs.Expr.Erasure
import Cron.Proofs.Expr.Progression
import Cron.Proofs.Schedule.Identity
import Cron.Proofs.Schedule.NextMatch

-- Adding an expression to a column is union within the column. The parts that stood there remain,
-- in their order, and what has been added follows them.

namespace Cron

open Schedule EditM

variable {s s' : Schedule} {c : Column} {part : Part} {members old added : List Part} {t : Tag}
variable {id : Int} {text : Codes} {new : Shape} {holder : Nat} {receipt : Receipt} {v : Int}

namespace Expr

variable {ι : Type} {d : Domain} {e : Expr ι}

theorem map_shape (es : List Shape) : es.map shape = es :=
  (List.map_congr_left fun e _ => shape_shape e).trans <| List.map_id _

theorem shapes_eq_of_outlines_eq {es es' : List Part} (h : es.map outline = es'.map outline) :
    es.map shape = es'.map shape := by
  have h := congrArg (List.map shape) h
  simpa [List.map_map, Function.comp_def] using h

-- An expression stands for what its members stand for, whatever carries them.
theorem holds_iff_members : Holds d e v ↔ ∃ m ∈ e.members.map shape, Holds d m v := by
  simp only [List.mem_map, exists_exists_and_eq_and, holds_shape_iff]
  cases e
  case list => simp [members]
  all_goals simp [members]

end Expr

namespace Schedule

-- What a column comes to when an expression is added: it takes it, or becomes a list that ends with
-- the members of it. `holder` is what the answer tells of.
inductive Grafted (s : Schedule) (c : Column) (new : Shape) (holder : Nat) (s' : Schedule) : Prop
  | taken :
    ¬s.Restricted c → (s'.root c).shape = new → (s'.root c).label.ref = holder →
    Grafted s c new holder s'
  | joined {t : Tag} {old added : List Part} :
    s.Restricted c → s'.root c = .list t (old ++ added) →
    old.map Expr.outline = (s.root c).members.map Expr.outline →
    added.map Expr.shape = new.members →
    ((s.root c).kind = .list → t.key = (s.root c).label.key) →
    holderAmong added t = holder → Grafted s c new holder s'

theorem holderAmong_congr {added' : List Part} {t' : Tag} (ht : t.ref = t'.ref)
    (h : added.map (·.label.ref) = added'.map (·.label.ref)) :
    holderAmong added t = holderAmong added' t' := by
  rcases added with _ | ⟨a, _ | ⟨b, added⟩⟩ <;> rcases added' with _ | ⟨a', _ | ⟨b', added'⟩⟩ <;>
    simp_all [holderAmong]

theorem extend_grafted (hr : s.root c = .list t members) :
    (extend c t members new).Gives s (Grafted s c new) := by
  let added := (Expr.mintAll (s.layout.domain c) s.nextRef new.members).1
  let adopted := (Expr.adoptAll (some t.id) s.registry added).1
  have hg : (extend c t members new).Gives s fun holder s' =>
      s'.root c = .list t (members ++ adopted) ∧ holderAmong added t = holder := by
    refine ⟨_, _, rfl, ?_, rfl⟩
    rw [root_of_roots_eq (s := s) rfl, hr]
    exact Expr.put_of_ref_eq rfl
  refine hg.imp fun holder s' ⟨hs, hh⟩ => .joined ?_ hs ?_ ?_ ?_ ?_
  · rw [Restricted, hr]
    rfl
  · rw [hr]
    rfl
  · exact ((Expr.adoptAll_shapes ..).trans <| Expr.mintAll_shapes ..).trans <| Expr.map_shape _
  · exact fun _ => by rw [hr]; rfl
  · exact (holderAmong_congr rfl <| Expr.refs_adoptAll ..).trans hh

theorem enlist_grafted (h : s.Sound) (hk : (s.root c).kind ≠ .list) (hany : s.Restricted c) :
    (enlist c (s.root c) new).Gives s (Grafted s c new) := by
  let d := s.layout.domain c
  let added := (Expr.mintAll d (s.nextRef + 1) new.members).1
  let r := s.registry.enroll (some c.id) (.blank s.nextRef d)
  let adopted := Expr.adoptAll (some r.1.id) r.2 (s.root c :: added)
  have hg : (enlist c (s.root c) new).Gives s fun holder s' =>
      s'.root c = .list r.1 adopted.1 ∧ holderAmong added (.blank s.nextRef d) = holder := by
    refine ⟨_, _, rfl, ?_, rfl⟩
    dsimp only
    rw [root_join, if_pos rfl, Expr.adopt_list]
  -- The root joins below the list, where it remains, as the registry has known it.
  have hroot : r.2.Knows ([s.root c].flatMap Expr.keys) := by
    rw [List.flatMap_singleton]
    refine (h.coherent.knows (fun k hk => ?_) (h.proper c).numbered).enroll _ _
    exact (keys_perm s c).mem_iff.mpr <| List.mem_append_left _ hk
  have hnil : r.2.Knows (([] : List Part).flatMap Expr.keys) := nofun
  obtain ⟨old, right, he, hold, hright⟩ := Expr.adoptAll_between (some r.1.id) added hroot hnil
  cases List.map_eq_nil_iff.mp hright
  rw [List.append_nil, List.append_nil] at he
  refine hg.imp fun holder s' ⟨hs, hh⟩ => .joined hany (hs.trans <| congrArg _ he) ?_ ?_ ?_ ?_
  · rw [hold, Expr.members_of_kind_ne hk]
  · exact ((Expr.adoptAll_shapes ..).trans <| Expr.mintAll_shapes ..).trans <| Expr.map_shape _
  · exact fun hl => absurd hl hk
  · exact (holderAmong_congr (Expr.ref_enroll ..) <| Expr.refs_adoptAll ..).trans hh

theorem graft_grafted (h : s.Sound) : (graft c (s.root c) new).Gives s (Grafted s c new) := by
  rcases graft_cases c (s.root c) new with ⟨hany, hg⟩ | ⟨t, members, hr, hg⟩ | ⟨hany, hk, hg⟩
  all_goals rw [hg]
  · refine (replant_shape s c (s.root c) new).imp fun holder s' ⟨hs, hh, _⟩ => ?_
    exact .taken (Bool.eq_false_iff.not_left.mpr hany) (hs.trans <| Expr.shape_shape new) hh
  · exact extend_grafted hr
  · exact enlist_grafted h hk hany

-- What a number stands for after something was added to a column, and what the column matches then.
structure Added (s : Schedule) (c : Column) (new : Shape) (holder : Int) (s' : Schedule) :
    Prop where
  taken  : ¬s.Restricted c → (s'.root c).shape = new
  -- The members that were there, and the root itself if it was no list, remain in front.
  joined : s.Restricted c → ∃ k added,
    (s'.root c).outline = .list k ((s.root c).members.map Expr.outline ++ added) ∧
      added.map Expr.shape = new.members ∧ ((s.root c).kind = .list → k = (s.root c).label.key)
  union  : ∀ v, ∃ b, (s'.root c).matches? (s.layout.domain c) v = some b ∧
    (b ↔ s.Restricted c ∧ (s.root c).matches? (s.layout.domain c) v = some true ∨
      new.matches? (s.layout.domain c) v = some true)
  others : ∀ d ≠ c, s'.root d = s.root d
  holder : ∃ q, s'.part holder = .ok q ∧ q ∈ (s'.root c).preorder ∧
    (q.shape = new ∨ new.kind = .list ∧ q = s'.root c ∧ new.members <:+ q.shape.members)
  sooner : s.Restricted c → ∀ r, ∃ found found', s.next? r = .ok found ∧ s'.next? r = .ok found' ∧
    ∀ t, found = some t → ∃ t', found' = some t' ∧ t'.ticks ≤ t.ticks ∧ t'.offset = t.offset

namespace Grafted

variable {d : Domain}

theorem joined_members (hs : s'.root c = .list t (old ++ added))
    (hold : old.map Expr.outline = (s.root c).members.map Expr.outline)
    (hadd : added.map Expr.shape = new.members) :
    (s'.root c).members.map Expr.shape = (s.root c).members.map Expr.shape ++ new.members := by
  rw [hs, Expr.members, List.map_append, Expr.shapes_eq_of_outlines_eq hold, hadd]

theorem holds_iff (hg : Grafted s c new holder s') :
    (s'.root c).Holds d v ↔ s.Restricted c ∧ (s.root c).Holds d v ∨ new.Holds d v := by
  cases hg
  case taken hany hs _ =>
    rw [← Expr.holds_shape_iff, hs]
    simp [hany]
  case joined hany hs hold hadd _ _ =>
    have hnew : new.Holds d v ↔ ∃ m ∈ new.members, m.Holds d v := by
      rw [Expr.holds_iff_members, Expr.map_shape]
    rw [Expr.holds_iff_members, joined_members hs hold hadd, hnew,
      Expr.holds_iff_members (e := s.root c)]
    simp only [hany, true_and, List.mem_append, or_and_right, exists_or]

theorem exists_holder (hg : Grafted s c new holder s') (hf : new.Fits s.layout c .root) :
    ∃ q ∈ (s'.root c).preorder, q.label.ref = holder ∧
      (q.shape = new ∨ new.kind = .list ∧ q = s'.root c ∧ new.members <:+ q.shape.members) := by
  cases hg
  case taken hs hh _ => exact ⟨_, Expr.mem_preorder_self _, ‹_›, .inl ‹_›⟩
  case joined t old added _ hs hold hadd _ hh =>
    by_cases hk : new.kind = .list
    case pos =>
      -- Several members have been added, which the list holds.
      have hlen : 2 ≤ added.length := by
        rw [← List.length_map Expr.shape, hadd]
        cases new <;> cases hk
        exact hf.two_le_members
      refine ⟨s'.root c, Expr.mem_preorder_self _, ?_, .inr ⟨hk, rfl, ?_⟩⟩
      · rw [hs, ← hh]
        rcases added with _ | ⟨a, _ | ⟨b, added⟩⟩
        · cases hlen
        · simp at hlen
        · rfl
      · rw [Expr.shape, Expr.members_map]
        exact joined_members hs hold hadd ▸ List.suffix_append ..
    case neg =>
      rw [Expr.members_of_kind_ne hk] at hadd
      obtain ⟨m, rfl, hm⟩ := List.map_eq_singleton_iff.mp hadd
      have hmem : m ∈ (s'.root c).children := by simp [hs, Expr.children]
      exact ⟨m, Expr.mem_preorder_iff.mpr <| .inr ⟨m, hmem, Expr.mem_preorder_self m⟩, hh, .inl hm⟩

theorem sooner (hg : Grafted s c new holder s') (hc : Confined s c s')
    (hw : s.layout.WellFormed s.roots) (hw' : s'.layout.WellFormed s'.roots)
    (hany : s.Restricted c) (r : Instant) :
    ∃ found found', s.next? r = .ok found ∧ s'.next? r = .ok found' ∧
      ∀ t, found = some t → ∃ t', found' = some t' ∧ t'.ticks ≤ t.ticks ∧ t'.offset = t.offset := by
  obtain ⟨o, ho, hf⟩ := Layout.search_finds hw r
  obtain ⟨o', ho', hf'⟩ := Layout.search_finds hw' r
  refine ⟨o.instant?, o'.instant?, ?_, ?_, fun t ht => ?_⟩
  · rw [next?, search, ho]
    rfl
  · rw [next?, search, ho']
    rfl
  rw [hc.turn.evolves.layout] at hf'
  refine hf.mono hf' (fun u hu e => ?_) ht
  by_cases he : e = c
  case pos =>
    subst he
    exact hg.holds_iff.mpr <| .inl ⟨hany, hu e⟩
  case neg =>
    rw [show s'.roots.get e = s.roots.get e from hc.others e he]
    exact hu e

end Grafted

theorem add_eq_ok (h : s.Sound) (he : (add id text) s = .ok receipt s') :
    ∃ c part new holder, s.Addresses id c part ∧ s.readEdit c text = .ok new ∧
      graft c (s.root c) new s = .ok holder s' ∧ receipt.holder = s'.numberOf holder := by
  obtain ⟨⟨c, part⟩, ha, he⟩ := ask_bind_eq_ok_iff.mp he
  obtain ⟨new, hn, he⟩ := ask_bind_eq_ok_iff.mp he
  obtain ⟨root, hroot, he⟩ := ask_bind_eq_ok_iff.mp he
  cases hroot
  obtain ⟨-, -, he⟩ := ask_bind_eq_ok_iff.mp he
  obtain ⟨holder, s₁, hm, he⟩ := bind_eq_ok_iff.mp he
  obtain ⟨shown, -, he⟩ := ask_bind_eq_ok_iff.mp he
  obtain ⟨number, hnumber, he⟩ := ask_bind_eq_ok_iff.mp he
  cases hnumber
  cases he
  exact ⟨c, part, new, holder, h.resolve_eq_ok_iff.mp ha, hn, hm, rfl⟩

end Schedule

-- Whatever number is given, of a column or of a part at any depth, what is added goes to the column
-- in which it stands.
theorem adding_is_union (h : Reachable s) (he : (Edit.add id text).run s = .ok receipt s') :
    ∃ c part new, s.Addresses id c part ∧ s.readEdit c text = .ok new ∧
      s.Added c new receipt.holder s' := by
  obtain ⟨c, part, new, holder, ha, hn, hm, hh⟩ := add_eq_ok h.sound he
  have hf := readEdit_fits hn
  obtain ⟨hc, -⟩ := (graft_confined h.sound hf).of_eq hm
  have hg := (graft_grafted h.sound).of_eq hm
  have h' : Reachable s' := after_of_ok he ▸ h.edited _
  have hw := h.sound.wellFormed h.one_le_firstYear
  refine ⟨c, part, new, ha, hn, ?_⟩
  constructor
  case taken =>
    intro hany
    cases hg
    case taken hs _           => exact hs
    case joined hr _ _ _ _ _  => exact absurd hr hany
  case joined =>
    intro hany
    cases hg
    case taken hr _ _ => exact absurd hany hr
    case joined t old added _ hs hold hadd hk _ =>
      refine ⟨t.key, added.map Expr.outline, ?_, ?_, hk⟩
      · rw [hs, Expr.outline_list, List.map_append, hold]
      · simpa [List.map_map, Function.comp_def] using hadd
  case union =>
    intro v
    have hf' : (s'.root c).Fits s.layout c .root :=
      hc.turn.evolves.layout ▸ (h'.sound.proper c).fits
    obtain ⟨b, hb, hv⟩ := hf'.selects (hw.lower c) v
    refine ⟨b, hb, ?_⟩
    rw [hv, hg.holds_iff, ((h.sound.proper c).fits.selects <| hw.lower c).matches?_eq_true_iff,
      (hf.selects <| hw.lower c).matches?_eq_true_iff]
  case others => exact hc.others
  case holder =>
    obtain ⟨q, hq, hr, hnew⟩ := hg.exists_holder hf
    exact ⟨q, hh ▸ hr ▸ h'.sound.part_numberOf hq, hq, hnew⟩
  case sooner => exact hg.sooner hc hw <| h'.sound.wellFormed h'.one_le_firstYear

theorem adding_is_union_at_width :
    let s := (unrestricted ⟨.unix, 2024, 100, 900⟩).after (.add 1 "10-20/5")
    ∃ receipt s', (Edit.add 17 "7,50-5").run s = .ok receipt s' ∧
      ∃ c part new, s.Addresses 17 c part ∧ s.readEdit c "7,50-5" = .ok new ∧
        s.Added c new receipt.holder s' := by
  intro s
  have h : Reachable s :=
    (Reachable.unrestricted (l := ⟨.unix, 2024, 100, 900⟩) (by decide)).edited _
  obtain ⟨part, hr⟩ : ∃ part, s.resolve 17 = .ok (.minute, part) := ⟨_, rfl⟩
  obtain ⟨new, hn⟩ : ∃ new, s.readEdit .minute "7,50-5" = .ok new := ⟨_, rfl⟩
  obtain ⟨_, s', -, hd⟩ := (Change.graft (h.sound.resolve_eq_ok_iff.mp hr) hn).decided h.sound
  obtain ⟨receipt, he⟩ := hd.made <| by cases (s'.root .minute).isAny <;> rfl
  exact ⟨receipt, s', he, adding_is_union h he⟩

end Cron
