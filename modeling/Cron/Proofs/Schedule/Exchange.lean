import Cron.Proofs.Expr.Places
import Cron.Proofs.Schedule.Joining
import Cron.Schedule.Edit

namespace Cron.Expr

variable {whole part new changed : Part} {e : Part} {left right : List Part}
variable {l : Layout} {c : Column} {pos : Position} {text : Codes}

theorem keys_members (e : Part) :
    e.keys = e.members.flatMap keys ∨ e.keys = e.label.key :: e.members.flatMap keys := by
  cases e
  case list => exact .inr <| keys_eq _
  all_goals exact .inl <| by simp [members]

theorem keys_entries (whole new : Part) :
    new.keys = (entries whole new).flatMap keys ∨
    new.keys = new.label.key :: (entries whole new).flatMap keys := by
  rw [entries]
  split
  · exact keys_members new
  · exact .inl <| by simp

section Position

theorem position?_eq (hc : whole.children = left ++ part :: right)
    (hl : part.label.ref ∉ (left.flatMap keys).map Prod.snd) :
    whole.position? part = some left.length := by
  rw [position?, hc, List.findIdx?_append, List.findIdx?_eq_none_iff.mpr ?_]
  · simp [List.findIdx?_cons]
  · intro p hp
    simp only [beq_eq_false_iff_ne]
    intro he
    refine hl <| List.mem_map.mpr ⟨p.label.key, ?_, he⟩
    exact List.mem_flatMap.mpr ⟨p, hp, key_mem_keys <| mem_preorder_self p⟩

-- A part that stands directly below another one, in a tree that holds every part once, is found.

theorem position?_of_nodup (hn : (whole.keys.map Prod.snd).Nodup)
    (hc : whole.children = left ++ part :: right) : whole.position? part = some left.length := by
  refine position?_eq hc fun hl => ?_
  rw [keys_eq, hc, List.flatMap_append, List.flatMap_cons, List.map_cons, List.map_append,
    List.map_append, List.nodup_cons, List.nodup_append] at hn
  refine hn.2.2.2 _ hl _ (List.mem_append_left _ ?_) rfl
  exact List.mem_map_of_mem <| key_mem_keys <| mem_preorder_self part

theorem position?_of_mem (hn : (whole.keys.map Prod.snd).Nodup) (hm : part ∈ whole.children) :
    ∃ left right, whole.children = left ++ part :: right ∧
      whole.position? part = some left.length :=
  have ⟨left, right, hc⟩ := List.append_of_mem hm
  ⟨left, right, hc, position?_of_nodup hn hc⟩

end Position

section Replacing

theorem withdraw_eq (hn : (whole.keys.map Prod.snd).Nodup) (hm : part ∈ whole.children)
    (hk : whole.kind = .list) :
    ∃ left right, whole.children = left ++ part :: right ∧
      whole.withdraw part = .ok (.list whole.label (left ++ right)) := by
  have ⟨left, right, hc, hp⟩ := position?_of_mem hn hm
  refine ⟨left, right, hc, ?_⟩
  cases whole <;> cases hk
  simp only [children] at hc
  subst hc
  simp [withdraw, hp, eraseChild, label, List.eraseIdx_append_of_length_le]

theorem RangesOver.replaceChild {d : Domain} (h : whole.RangesOver d)
    (hc : whole.children = left ++ part :: right) (hnew : new.RangesOver d) :
    (whole.replaceChild left.length new).RangesOver d := by
  obtain ⟨hd, hms⟩ := rangesOver_iff.mp h
  obtain ⟨hch, hl, -⟩ := children_replaceChild hc new
  have hentries : ∀ m ∈ entries whole new, m.RangesOver d := by
    rw [entries]
    split
    · exact hnew.members
    · exact List.forall_mem_singleton.mpr hnew
  rw [hc, List.forall_mem_append, List.forall_mem_cons] at hms
  rw [rangesOver_iff, hl, hch, List.forall_mem_append, List.forall_mem_append]
  exact ⟨hd, ⟨hms.1, hentries⟩, hms.2.2⟩

end Replacing

section Fitting

theorem Fits.width_of_isValue {e : Shape} (h : Fits l c .root e) (hv : e.isValue)
    (hn : 0 < e.literal) : Fits l c .width e := by
  cases e <;> simp_all [isValue, kind, literal]
  omega

theorem Fits.of_kind_ne {e : Shape} (h : Fits l c .root e) (hs : e.kind ≠ .step)
    (hl : e.kind ≠ .list) : Fits l c .base e := by
  cases e <;> simp_all [kind]

-- The checks of a replacement are those of the place where it is to stand.
theorem Fits.of_checkFits {new : Shape} (h : Fits l c pos whole)
    (hc : whole.children = left ++ part :: right) (hp : whole.position? part = some left.length)
    (hok : Schedule.checkFits part whole new text = .ok ()) (hf : Fits l c .root new) {made : Part}
    (hs : made.shape = new) : Fits l c pos (whole.replaceChild left.length made) := by
  have hmade (pos) : Fits l c pos made ↔ Fits l c pos new := by rw [← hs, fits_shape_iff]
  rw [Schedule.checkFits, relationTo?, hp, Option.bind_some] at hok
  cases h
  case any    => simp [children] at hc
  case value  => simp [children] at hc
  case range hl hh hpos =>
    obtain ⟨rfl, -, rfl⟩ | ⟨rfl, -, rfl⟩ := pair_eq_append hc
    all_goals
      simp only [List.length_nil, List.length_cons, Nat.zero_add, relation?] at hok
      split at hok
    case inl.isTrue hv => exact .range hpos ((hmade _).mpr <| hf.endpoint_of_isValue hv) hh
    case inr.isTrue hv => exact .range hpos hl ((hmade _).mpr <| hf.endpoint_of_isValue hv)
    all_goals cases hok
  case step hb hw hpos =>
    obtain ⟨rfl, -, rfl⟩ | ⟨rfl, -, rfl⟩ := pair_eq_append hc
    case inl =>
      refine .step hpos ((hmade _).mpr ?_) hw
      simp only [List.length_nil, relation?] at hok
      exact hf.of_kind_ne (fun hk => by simp [hk] at hok) fun hk => by simp [hk] at hok
    case inr =>
      simp only [List.length_cons, List.length_nil, Nat.zero_add, relation?] at hok
      split at hok
      case isTrue hv =>
        rw [Bool.and_eq_true, decide_eq_true_iff] at hv
        exact .step hpos hb ((hmade _).mpr <| hf.width_of_isValue hv.1 hv.2)
      case isFalse => cases hok
  case list hl hms =>
    simp only [children] at hc
    subst hc
    have hlen := ((hmade _).mpr hf).one_le_members
    refine .list ?_ fun m hm => ?_
    · simp only [List.length_append, List.length_cons, List.take_left, List.drop_append,
        List.length_drop] at hl ⊢
      omega
    · have hm : m ∈ left ∨ m ∈ made.members ∨ m ∈ right := by simpa using hm
      rcases hm with hm | hm | hm
      · exact hms m (by simp [hm])
      · exact ((hmade _).mpr hf).members m hm
      · exact hms m (by simp [hm])

-- Only a list takes in a list.
theorem Fits.kind_eq_list_of_checkFits {new : Shape} (h : Fits l c pos whole)
    (hc : whole.children = left ++ part :: right) (hp : whole.position? part = some left.length)
    (hok : Schedule.checkFits part whole new text = .ok ()) (hf : Fits l c .root new)
    (hk : new.kind = .list) : whole.kind = .list := by
  by_contra hne
  let made := (new.mint (l.domain c) 0).1
  have hshape : made.shape = new := shape_shape new ▸ shape_mint new 0
  have hfits := h.of_checkFits hc hp hok hf hshape
  have hmem : made ∈ (whole.replaceChild left.length made).children := by
    rw [(children_replaceChild hc _).1, entries, if_neg hne]
    simp
  obtain ⟨pos, hpos, hf⟩ := hfits.of_mem_children hmem
  exact hf.kind_ne_list hpos <| (kind_mint new 0).trans hk

-- A part passes the checks of its own place.
theorem Fits.checkFits_self (h : Fits l c pos whole) (hc : whole.children = left ++ part :: right)
    (hp : whole.position? part = some left.length) :
    Schedule.checkFits part whole part.shape text = .ok () := by
  rw [Schedule.checkFits, relationTo?, hp, Option.bind_some]
  cases h
  case any    => simp [children] at hc
  case value  => simp [children] at hc
  case range hl hh _ =>
    obtain ⟨rfl, rfl, rfl⟩ | ⟨rfl, rfl, rfl⟩ := pair_eq_append hc
    · obtain ⟨t, n, rfl, -⟩ := fits_endpoint_iff.mp hl
      rfl
    · obtain ⟨t, n, rfl, -⟩ := fits_endpoint_iff.mp hh
      rfl
  case step hb hw _ =>
    obtain ⟨rfl, rfl, rfl⟩ | ⟨rfl, rfl, rfl⟩ := pair_eq_append hc
    · cases hb
      case step hpos => simp at hpos
      all_goals rfl
    · obtain ⟨t, n, rfl, -, hn⟩ := fits_width_iff.mp hw
      have hn : decide (0 < n) = true := decide_eq_true hn
      exact if_pos hn
  case list =>
    simp only [children] at hc
    simp [hc, relation?]

end Fitting

end Cron.Expr
