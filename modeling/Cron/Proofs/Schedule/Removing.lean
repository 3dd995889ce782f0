import Cron.Proofs.Schedule.Identity

-- Removing a part takes what cannot do without it, and nothing else. A root leaves its column
-- unrestricted, a member leaves its list, and a list that would keep a single member gives way to
-- this member.

namespace Cron

open Schedule EditM

variable {s s' : Schedule} {c : Column} {p q m part : Part} {left right : List Part} {t : Tag}
variable {id : Int}

namespace Schedule

inductive Removed (s : Schedule) (c : Column) (p : Part) (s' : Schedule) : Prop
  | opened :
    p = s.root c → (s'.root c).shape = .any () → Departs s s' p.preorder → Removed s c p s'
  | deleted {t : Tag} {left right : List Part} :
    s.root c = .list t (left ++ p :: right) → 2 ≤ (left ++ right).length →
    s'.root c = .list t (left ++ right) → Departs s s' p.preorder → Removed s c p s'
  -- The list leaves as well, but not the member that takes its place.
  | collapsed {t : Tag} {left right : List Part} {m : Part} :
    s.root c = .list t (left ++ p :: right) → left ++ right = [m] →
    (s'.root c).outline = m.outline → Departs s s' (p.preorder ++ [s.root c]) → Removed s c p s'

theorem mem_live_of_mem_members {ms : List Part} (hr : s.root c = .list t ms) (hp : p ∈ ms)
    (hq : q ∈ p.preorder) : q ∈ s.live := by
  refine mem_live_iff.mpr ⟨c, Expr.mem_preorder_iff.mpr <| .inr ⟨p, ?_, hq⟩⟩
  rw [hr]
  exact hp

theorem outline_root_collapsed (h : s.Sound) (hr : s.root c = .list t (left ++ p :: right))
    (hm : left ++ right = [m]) :
    ((((s.cut p (.list t [m])).leave (.list t [])).join c m).root c).outline = m.outline := by
  have e := evolves_collapsed h hr hm
  have hmem : m ∈ left ++ p :: right := mem_cut <| by simp [hm]
  rw [root_join, if_pos rfl]
  refine Expr.outline_adopt <| e.coherent.knows (List.subset_append_left ..) fun k hk => ?_
  obtain ⟨q, hq, rfl⟩ := List.mem_map.mp hk
  exact h.numbered _ <| key_mem <| mem_live_of_mem_members hr hmem hq

-- The list leaves without its members.
theorem gone_collapsed (hr : s.root c = .list t (left ++ p :: right)) :
    (((s.cut p (.list t [m])).leave (.list t [])).join c m).gone =
      s.gone ++ (p.preorder ++ [s.root c]).map fun q => { q.label with parent := none } := by
  have hcut : (s.cut p (.list t [m])).gone =
      s.gone ++ p.preorder.map fun q => { q.label with parent := none } := gone_leave _ p
  have hleave := gone_leave (s.cut p (.list t [m])) (.list t [])
  rw [hcut, List.append_assoc] at hleave
  rw [List.map_append, hr]
  exact hleave

theorem Removal.removed (h : s.Sound) (hr : Removal s c p s') : Removed s c p s' := by
  have ht := (hr.confined h).1.turn
  cases hr
  case root hm =>
    obtain ⟨hs, -, hg⟩ := (replant_shape s c (s.root c) (.any ())).of_eq hm
    exact .opened rfl hs <| ht.departs h (fun q hq => mem_live_iff.mpr ⟨c, hq⟩) hg
  case member hp =>
    cases hp
    case kept t left right hr hlen hs =>
      subst hs
      have hroot : (s.cut p (.list t (left ++ right))).root c = .list t (left ++ right) := by
        rw [root_cut, hr]
        exact Expr.put_of_ref_eq rfl
      refine .deleted hr hlen hroot <| ht.departs h (fun q hq => ?_) (gone_leave _ p)
      exact mem_live_of_mem_members hr (by simp) hq
    case collapsed t left right m hr hm hs =>
      subst hs
      refine .collapsed hr hm (outline_root_collapsed h hr hm) <| ht.departs h (fun q hq => ?_) ?_
      · rcases List.mem_append.mp hq with hq | hq
        · exact mem_live_of_mem_members hr (by simp) hq
        · cases List.mem_singleton.mp hq
          exact mem_live_iff.mpr ⟨c, Expr.mem_preorder_self _⟩
      · exact gone_collapsed hr

end Schedule

-- Removing never fails. Whatever number is given, of a column or of a part at any depth, exactly
-- what cannot do without it leaves.
theorem removing_takes_carrier (h : Reachable s) (ha : s.Addresses id c part) :
    ∃ p receipt s', (s.root c).Carries p part ∧ (Edit.remove id).run s = .ok receipt s' ∧
      s.Removed c p s' ∧ ∀ d ≠ c, s'.root d = s.root d := by
  obtain ⟨p, hp, receipt, s', he, hr⟩ := remove_removal h.sound ha
  exact ⟨p, receipt, s', hp, he, hr.removed h.sound, (hr.confined h.sound).1.others⟩

theorem removing_takes_carrier_of_endpoint :
    let s := (unrestricted ⟨.unix, 2024, 100, 900⟩).after (.add 1 "5,10-20/5")
    ∃ part, s.Addresses 17 .minute part ∧
      ∃ p receipt s', (s.root .minute).Carries p part ∧
        (Edit.remove 17).run s = .ok receipt s' ∧ s.Removed .minute p s' ∧
          ∀ d ≠ .minute, s'.root d = s.root d := by
  intro s
  have h : Reachable s :=
    (Reachable.unrestricted (l := ⟨.unix, 2024, 100, 900⟩) (by decide)).edited _
  obtain ⟨part, hr⟩ : ∃ part, s.resolve 17 = .ok (.minute, part) := ⟨_, rfl⟩
  have ha := h.sound.resolve_eq_ok_iff.mp hr
  exact ⟨part, ha, removing_takes_carrier h ha⟩

end Cron
