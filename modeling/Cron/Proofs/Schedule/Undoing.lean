import Cron.Proofs.Schedule.Adding
import Cron.Proofs.Schedule.Erasure
import Cron.Proofs.Schedule.Removing

-- Taking back what was added. Removing the part that an addition tells of leaves every column as it
-- was before: a column that took the part is unrestricted again, and what had to make room for a
-- list, or had a member added, stands where it stood, with its numbers.

namespace Cron

open Schedule EditM

variable {s s' : Schedule} {c : Column} {part m : Part} {members old : List Part} {t : Tag}
variable {id : Int} {text : Codes} {new : Shape} {holder : Nat} {receipt : Receipt}
variable {parent : Option Int}

theorem Tag.eq_of_key_eq {t t' : Tag} (hk : t.key = t'.key) (hp : t.parent = t'.parent)
    (hd : t.domain = t'.domain) : t = t' := by
  obtain ⟨hid, href⟩ := Prod.mk.inj hk
  cases t
  cases t'
  exact Tag.mk.injEq .. |>.mpr ⟨href, hid, hp, hd⟩

namespace Expr

variable {e e' : Part}

-- The outline of a tree, what holds it, and what it ranges over, tell every part of the tree.
theorem eq_of_outline_eq {d : Domain} (h : e.outline = e'.outline) (hl : e.Linked parent)
    (hl' : e'.Linked parent) (hr : e.RangesOver d) (hr' : e'.RangesOver d) : e = e' := by
  induction e using children_induction generalizing parent e'
  case h e hi =>
    obtain ⟨hp, hc⟩ := linked_iff.mp hl
    obtain ⟨hp', hc'⟩ := linked_iff.mp hl'
    obtain ⟨hd, hrc⟩ := rangesOver_iff.mp hr
    obtain ⟨hd', hrc'⟩ := rangesOver_iff.mp hr'
    have hkey : e.label.key = e'.label.key := by simpa only [label_map] using congrArg label h
    have hlabel : e.label = e'.label :=
      Tag.eq_of_key_eq hkey (hp.trans hp'.symm) (hd.trans hd'.symm)
    have hkids : e.children.map outline = e'.children.map outline := by
      simpa only [children_map] using congrArg children h
    have hlen : e.children.length = e'.children.length := by
      simpa using congrArg List.length hkids
    refine eq_of_children_eq ?_ hlabel ?_ (List.ext_getElem hlen fun i h₁ h₂ => ?_)
    · simpa only [kind_map] using congrArg kind h
    · simpa only [literal_map] using congrArg literal h
    · have houtline := List.getElem_of_eq hkids <| (List.length_map ..).symm ▸ h₁
      rw [List.getElem_map, List.getElem_map] at houtline
      have hm := List.getElem_mem h₁
      have hm' := List.getElem_mem h₂
      exact hi _ hm houtline (hc _ hm) (hlabel ▸ hc' _ hm') (hrc _ hm) (hrc' _ hm')

theorem shape_of_isAny (h : e.isAny) : e.shape = .any () := by
  cases e <;> cases h
  rfl

theorem nodup_children (hn : (e.keys.map Prod.snd).Nodup) : e.children.Nodup := by
  rw [keys_eq, List.map_cons, List.map_flatMap, List.nodup_cons, List.nodup_flatMap] at hn
  refine hn.2.2.imp fun {m m'} hdisjoint he => ?_
  subst he
  have hm : m.label.ref ∈ m.keys.map Prod.snd :=
    List.mem_map_of_mem <| key_mem_keys <| mem_preorder_self m
  exact hdisjoint hm hm

-- A column is told by its members, and by the number of its list if it is one.

theorem outline_list_eq (hold : old.map outline = e.members.map outline) (hlong : 2 ≤ old.length)
    (hkey : e.kind = .list → t.key = e.label.key) : (list t old).outline = e.outline := by
  have hlen : old.length = e.members.length := by simpa using congrArg List.length hold
  by_cases hlist : e.kind = .list
  case pos =>
    obtain ⟨t', ms, rfl⟩ := eq_list_of_kind hlist
    rw [outline_list, outline_list, hkey rfl, hold]
    rfl
  case neg =>
    rw [members_of_kind_ne hlist, List.length_singleton] at hlen
    omega

theorem outline_single_eq {l : Layout} {only : Part} (hf : e.Fits l c .root)
    (hold : [only].map outline = e.members.map outline) : only.outline = e.outline := by
  by_cases hlist : e.kind = .list
  case pos =>
    obtain ⟨t', ms, rfl⟩ := eq_list_of_kind hlist
    have hlong := hf.two_le_members
    have hlen : 1 = ms.length := by simpa [members] using congrArg List.length hold
    omega
  case neg =>
    rw [members_of_kind_ne hlist] at hold
    exact List.singleton_inj.mp hold

end Expr

namespace Schedule

-- A root that is no list is removed when its number is given.
theorem remove_root (h : s.Sound) (hk : (s.root c).kind ≠ .list) :
    (remove (s.root c).label.id).Gives s fun _ s' => Removal s c (s.root c) s' := by
  obtain ⟨q, hq, hg⟩ := remove_removal h <| .inr ⟨Expr.mem_preorder_self (s.root c), rfl⟩
  cases hq
  case root          => exact hg
  case member hl _ _ => exact absurd hl hk

theorem remove_member (h : s.Sound) (hr : s.root c = .list t members) (hm : m ∈ members) :
    (remove m.label.id).Gives s fun _ s' => Removal s c m s' := by
  have hc : m ∈ (s.root c).children := hr ▸ hm
  have ha : s.Addresses m.label.id c m :=
    .inr ⟨Expr.mem_preorder_of_mem_children hc <| Expr.mem_preorder_self _, rfl⟩
  exact Gives.ask rfl <| removeWithin_member h ha hr hm

-- Without the last of its members, a list is as it was before, or gives way to the only one left.
theorem Removed.of_last (h : s.Sound) (hr : s.root c = .list t (old ++ [m]))
    (hd : Removed s c m s') :
    2 ≤ old.length ∧ s'.root c = .list t old ∨
      ∃ only, old = [only] ∧ (s'.root c).outline = only.outline := by
  have hn := Expr.nodup_children <| h.nodup_keys_root c
  have hcut {t' : Tag} {left right : List Part} (he : s.root c = .list t' (left ++ m :: right)) :
      t' = t ∧ left ++ right = old := by
    rw [he] at hn
    have hn := List.nodup_middle.mp hn
    obtain ⟨rfl, he⟩ := Expr.list.inj <| he.symm.trans hr
    obtain ⟨hl, hr⟩ := not_or.mp <| List.mem_append.not.mp (List.nodup_cons.mp hn).1
    obtain ⟨rfl, -, rfl⟩ := (List.append_cons_inj_of_notMem hl hr).mp he
    exact ⟨rfl, List.append_nil _⟩
  cases hd
  case opened hm _ _ =>
    have hf := (h.proper c).fits
    rw [hr, Expr.fits_list_iff] at hf
    have hk := (hf.2.2 m <| by simp).kind_ne_list (by simp)
    rw [hm, hr] at hk
    exact absurd rfl hk
  case deleted t' left right hr' hlen hs _ =>
    obtain ⟨rfl, rfl⟩ := hcut hr'
    exact .inl ⟨hlen, hs⟩
  case collapsed t' left right only hr' hone hs _ =>
    obtain ⟨rfl, rfl⟩ := hcut hr'
    exact .inr ⟨only, hone, hs⟩

-- What has been added to a column as one part can be removed, and then the column is as it was; but
-- what stood in an unrestricted column has left for good, and another part stands there.
theorem Grafted.undone (h : s.Sound) (h' : s'.Sound) (hl : s'.layout = s.layout)
    (hg : Grafted s c new holder s') (hk : new.kind ≠ .list) :
    ∃ p ∈ (s'.root c).preorder, p.label.ref = holder ∧
      (remove p.label.id).Gives s' fun _ s'' => Confined s' c s'' ∧
        (s''.root c).shape = (s.root c).shape ∧ (s.Restricted c → s''.root c = s.root c) := by
  cases hg
  case taken hany hs hh =>
    have hkr : (s'.root c).kind ≠ .list := by rwa [← Expr.kind_shape, hs]
    refine ⟨_, Expr.mem_preorder_self _, hh, (remove_root h' hkr).imp fun _ s'' hr => ?_⟩
    refine ⟨(hr.confined h').1, ?_, fun hr => absurd hr hany⟩
    have hopen : (s.root c).shape = .any () :=
      Expr.shape_of_isAny <| Bool.eq_false_iff.not_left.mp hany
    cases hr.removed h'
    case opened _ hs'' _    => exact hs''.trans hopen.symm
    case deleted hr _ _ _   => exact absurd (congrArg Expr.kind hr) hkr
    case collapsed hr _ _ _ => exact absurd (congrArg Expr.kind hr) hkr
  case joined t old added hany hs hold hadd hkey hh =>
    rw [Expr.members_of_kind_ne hk] at hadd
    obtain ⟨m, rfl, -⟩ := List.map_eq_singleton_iff.mp hadd
    have hm : m ∈ old ++ [m] := List.mem_append_right _ <| List.mem_singleton_self m
    have hc : m ∈ (s'.root c).children := hs ▸ hm
    refine ⟨m, Expr.mem_preorder_of_mem_children hc <| Expr.mem_preorder_self _, hh,
      (remove_member h' hs hm).imp fun _ s'' hr => ?_⟩
    have hconfined := (hr.confined h').1
    have houtline : (s''.root c).outline = (s.root c).outline := by
      rcases (hr.removed h').of_last h' hs with ⟨hlong, hs''⟩ | ⟨only, rfl, hs''⟩
      · exact hs'' ▸ Expr.outline_list_eq hold hlong hkey
      · exact hs''.trans <| Expr.outline_single_eq (h.proper c).fits hold
    have hp := h.proper c
    have hp'' := hconfined.turn.proper c
    have hranges := hp''.ranges
    rw [hconfined.turn.evolves.layout, hl] at hranges
    have heq : s''.root c = s.root c :=
      Expr.eq_of_outline_eq houtline hp''.linked hp.linked hranges hp.ranges
    exact ⟨hconfined, congrArg Expr.shape heq, fun _ => heq⟩

end Schedule

-- Whatever number was given when a single part was added, and wherever the part went: it can be
-- removed by the number that the answer tells. Then all columns read as before, and every part that
-- stood in a restricted column stands where it stood, with its number.
theorem removing_undoes_adding (h : Reachable s) (he : (Edit.add id text).run s = .ok receipt s')
    (ha : s.Addresses id c part) (hn : s.readEdit c text = .ok new) (hk : new.kind ≠ .list) :
    ∃ receipt' s'', (Edit.remove receipt.holder).run s' = .ok receipt' s'' ∧
      s''.shapes = s.shapes ∧ (∀ d, s''.columnText d = s.columnText d) ∧
      ∀ d, d ≠ c ∨ s.Restricted d → s''.root d = s.root d ∧
        ∀ p ∈ (s.root d).preorder, s''.part p.label.id = .ok p := by
  obtain ⟨c', part', new', holder, ha', hn', hm, hh⟩ := add_eq_ok h.sound he
  have hresolve := h.sound.resolve_eq_ok_iff.mpr ha
  cases hresolve.symm.trans <| h.sound.resolve_eq_ok_iff.mpr ha'
  cases hn.symm.trans hn'
  have h' : Reachable s' := after_of_ok he ▸ h.edited _
  obtain ⟨hc, -⟩ := (graft_confined h.sound <| readEdit_fits hn).of_eq hm
  have hg := (graft_grafted h.sound).of_eq hm
  obtain ⟨p, hp, href, receipt', s'', hrun, hc', hshape, hroot⟩ :=
    hg.undone h.sound h'.sound hc.turn.evolves.layout hk
  have hnumber : receipt.holder = p.label.id := by
    rw [hh, ← href]
    exact h'.sound.numberOf_eq <| mem_live_iff.mpr ⟨c, hp⟩
  have hothers (d : Column) (hd : d ≠ c) : s''.root d = s.root d :=
    (hc'.others d hd).trans <| hc.others d hd
  have hshapes : s''.shapes = s.shapes := by
    refine congrArg Columns.of <| funext fun d => ?_
    by_cases hd : d = c
    case pos => exact hd ▸ hshape
    case neg => rw [hothers d hd]
  have hlayout : s''.layout = s.layout :=
    hc'.turn.evolves.layout.trans hc.turn.evolves.layout
  refine ⟨receipt', s'', hnumber ▸ hrun, hshapes, fun d => columnText_congr (hlayout ▸ rfl) hshapes,
    fun d hd => ?_⟩
  have hsame : s''.root d = s.root d := by
    by_cases hdc : d = c
    case pos =>
      subst hdc
      exact hroot <| hd.resolve_left <| not_not.mpr rfl
    case neg => exact hothers d hdc
  refine ⟨hsame, fun q hq => hc'.turn.sound.part_eq_ok_iff.mpr ⟨?_, rfl⟩⟩
  exact mem_live_iff.mpr ⟨d, hsame ▸ hq⟩

-- A step is added beside an hour, where a list is made for both, and is removed again.
theorem removing_undoes_adding_beside_hour :
    let s := (unrestricted ⟨.unix, 2024, 100, 900⟩).after (.add 2 "9-17")
    ∃ part new receipt s', s.Addresses 2 .hour part ∧ s.readEdit .hour "*/6" = .ok new ∧
      new.kind ≠ .list ∧ (Edit.add 2 "*/6").run s = .ok receipt s' ∧
      ∃ receipt' s'', (Edit.remove receipt.holder).run s' = .ok receipt' s'' ∧
        s''.shapes = s.shapes ∧ (∀ d, s''.columnText d = s.columnText d) ∧
        ∀ d, d ≠ .hour ∨ s.Restricted d → s''.root d = s.root d ∧
          ∀ p ∈ (s.root d).preorder, s''.part p.label.id = .ok p := by
  intro s
  have h : Reachable s :=
    (Reachable.unrestricted (l := ⟨.unix, 2024, 100, 900⟩) (by decide)).edited _
  obtain ⟨part, hr⟩ : ∃ part, s.resolve 2 = .ok (.hour, part) := ⟨_, rfl⟩
  have ha := h.sound.resolve_eq_ok_iff.mp hr
  let new : Shape := .step () (.any ()) (.value () 6)
  have hn : s.readEdit .hour "*/6" = .ok new := rfl
  have hk : new.kind ≠ .list := by decide
  obtain ⟨_, s', -, hd⟩ := (Change.graft ha hn).decided h.sound
  obtain ⟨receipt, he⟩ := hd.made <| by cases (s'.root .hour).isAny <;> rfl
  exact ⟨part, new, receipt, s', ha, hn, hk, he, removing_undoes_adding h he ha hn hk⟩

end Cron
