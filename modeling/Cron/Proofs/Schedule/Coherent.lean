import Cron.Proofs.Schedule.Joining
import Cron.Schedule.Edit

namespace Cron

variable {s s' s'' : Schedule} {ks ks' ks'' rest : List Key} {k : Key} {part : Part} {t : Tag}

-- The tags of the parts that have left, as they are since.
def Schedule.gone (s : Schedule) : List Tag := (Expr.preorderAll s.retired).map Expr.label

theorem Schedule.gone_leave (s : Schedule) (part : Part) :
    (s.leave part).gone = s.gone ++ part.preorder.map fun p => { p.label with parent := none } := by
  simp [Schedule.gone, Schedule.leave, Expr.preorderAll_eq_flatMap, Expr.retire_labels]

-- A tag that is none of those in use, and none that is still to come.
structure Gone (s : Schedule) (ks : List Key) (t : Tag) : Prop where
  parent : t.parent = none
  oldRef : t.ref < s.nextRef
  oldId  : t.id < s.registry.nextId
  ref    : t.ref ∉ ks.map Prod.snd
  id     : t.id ∉ (joined ks).map Prod.fst

-- The books of a schedule are in order while the parts with the keys `ks` are in use: those that
-- stand in a column, and those that an edit has in hand.
structure Coherent (s : Schedule) (ks : List Key) : Prop where
  registry : s.registry.Lists (joined ks)
  refs     : (ks.map Prod.snd).Nodup
  made     : ∀ k ∈ ks, k.2 < s.nextRef
  gone     : ∀ t ∈ s.gone, Gone s ks t

theorem joined_perm (h : ks.Perm ks') : (joined ks).Perm (joined ks') := h.filter _

theorem joined_cons_of_blank (h : k.Blank) : joined (k :: ks) = joined ks := by
  simp [joined, h]

theorem Gone.perm (h : Gone s ks t) (hp : ks.Perm ks') : Gone s ks' t where
  parent := h.parent
  oldRef := h.oldRef
  oldId  := h.oldId
  ref    := fun hm => h.ref <| (hp.map _).mem_iff.mpr hm
  id     := fun hm => h.id <| ((joined_perm hp).map _).mem_iff.mpr hm

namespace Coherent

theorem perm (h : Coherent s ks) (hp : ks.Perm ks') : Coherent s ks' where
  registry  := h.registry.perm <| joined_perm hp
  refs      := (hp.map _).nodup_iff.mp h.refs
  made k hk := h.made k <| hp.mem_iff.mpr hk
  gone t ht := (h.gone t ht).perm hp

-- Where a part stands in the columns is of no matter for the books.
theorem move (h : Coherent s ks) (roots : Columns Part) :
    Coherent { s with roots := roots } ks where
  registry  := h.registry
  refs      := h.refs
  made      := h.made
  gone t ht := have g := h.gone t ht; ⟨g.parent, g.oldRef, g.oldId, g.ref, g.id⟩

end Coherent

-- What a change does to the parts in use, from `ks` to `ks'`. Each of them was in use before under
-- the same key, or has a number that is new, if any; and each that had a number is still in use
-- under it or has left.
structure Evolves (s : Schedule) (ks : List Key) (s' : Schedule) (ks' : List Key) : Prop where
  coherent : Coherent s' ks'
  layout   : s'.layout = s.layout
  ids      : s.registry.nextId ≤ s'.registry.nextId
  refs     : s.nextRef ≤ s'.nextRef
  origin   : ∀ k ∈ ks', k ∈ ks ∨
    (k.Blank ∨ s.registry.nextId ≤ k.1) ∧ (s.nextRef ≤ k.2 ∨ (0, k.2) ∈ ks)
  fate     : ∀ k ∈ joined ks, k ∈ joined ks' ∨ ∃ t ∈ s'.gone, t.key = k
  gone     : ∀ t ∈ s.gone, t ∈ s'.gone

namespace Evolves

theorem refl (h : Coherent s ks) : Evolves s ks s ks where
  coherent     := h
  layout       := rfl
  ids          := Int.le_refl _
  refs         := Nat.le_refl _
  origin _ hk  := .inl hk
  fate _ hk    := .inl hk
  gone _ ht    := ht

theorem trans (h : Evolves s ks s' ks') (h' : Evolves s' ks' s'' ks'') : Evolves s ks s'' ks'' where
  coherent := h'.coherent
  layout := h'.layout.trans h.layout
  ids    := Int.le_trans h.ids h'.ids
  refs   := Nat.le_trans h.refs h'.refs
  origin k hk := by
    rcases h'.origin k hk with hk | ⟨hid, hr⟩
    · exact h.origin k hk
    · refine .inr ⟨hid.imp_right (Int.le_trans h.ids), ?_⟩
      rcases hr with hr | hb
      · exact .inl <| Nat.le_trans h.refs hr
      · exact (h.origin _ hb).elim .inr And.right
  fate k hk := by
    rcases h.fate k hk with hk | ⟨t, ht, he⟩
    · exact h'.fate k hk
    · exact .inr ⟨t, h'.gone t ht, he⟩
  gone t ht := h'.gone t (h.gone t ht)

theorem perm (h : Evolves s ks s' ks') (hp : ks'.Perm ks'') : Evolves s ks s' ks'' where
  coherent    := h.coherent.perm hp
  layout      := h.layout
  ids         := h.ids
  refs        := h.refs
  origin k hk := h.origin k (hp.mem_iff.mpr hk)
  fate k hk   := (h.fate k hk).imp_left (joined_perm hp).mem_iff.mp
  gone        := h.gone

theorem move (h : Evolves s ks s' ks') (roots : Columns Part) :
    Evolves s ks { s' with roots := roots } ks' where
  coherent := h.coherent.move roots
  layout   := h.layout
  ids      := h.ids
  refs     := h.refs
  origin   := h.origin
  fate     := h.fate
  gone     := h.gone

end Evolves

namespace Coherent

-- A part that never joined may be forgotten.
theorem forget (h : Coherent s (k :: ks)) (hb : k.Blank) : Evolves s (k :: ks) s ks := by
  have hj : joined (k :: ks) = joined ks := joined_cons_of_blank hb
  refine { Evolves.refl h with coherent := ?_, origin := ?_, fate := ?_ }
  · refine ⟨hj ▸ h.registry, (List.nodup_cons.mp h.refs).2, ?_, fun t ht => ?_⟩
    · exact fun k' hk' => h.made k' <| List.mem_cons_of_mem _ hk'
    · have g := h.gone t ht
      exact { g with ref := fun hm => g.ref <| List.mem_cons_of_mem _ hm, id := hj ▸ g.id }
  · exact fun k' hk' => .inl <| List.mem_cons_of_mem _ hk'
  · exact fun k' hk' => .inl <| hj ▸ hk'

-- Parts that are made are in hand; they have no number yet.
theorem make (h : Coherent s ks) (count : Nat) :
    Evolves s ks { s with nextRef := s.nextRef + count }
      (Expr.blankKeys s.nextRef count ++ ks) := by
  have hb (k) (hk : k ∈ Expr.blankKeys s.nextRef count) := Expr.mem_blankKeys_iff.mp hk
  have hj : joined (Expr.blankKeys s.nextRef count ++ ks) = joined ks := by
    have hn : joined (Expr.blankKeys s.nextRef count) = [] := by
      rw [joined, List.filter_eq_nil_iff]
      intro k hk
      simpa using (hb k hk).1
    rw [joined_append, hn, List.nil_append]
  constructor
  case coherent =>
    refine ⟨hj ▸ h.registry, ?_, fun k hk => ?_, fun t ht => ?_⟩
    · rw [List.map_append, List.nodup_append]
      refine ⟨Expr.nodup_blankKeys _ _, h.refs, fun r hr r' hr' he => ?_⟩
      obtain ⟨k, hk, rfl⟩ := List.mem_map.mp hr
      obtain ⟨k', hk', rfl⟩ := List.mem_map.mp hr'
      have := h.made k' hk'
      have := (hb k hk).2.1
      omega
    · show k.2 < s.nextRef + count
      rcases List.mem_append.mp hk with hk | hk
      · exact (hb k hk).2.2
      · exact Nat.lt_add_right _ (h.made k hk)
    · have g := h.gone t ht
      refine ⟨g.parent, Nat.lt_add_right _ g.oldRef, g.oldId, fun hm => ?_, hj ▸ g.id⟩
      rw [List.map_append, List.mem_append] at hm
      refine hm.elim (fun hm => ?_) g.ref
      obtain ⟨k, hk, he⟩ := List.mem_map.mp hm
      have := (hb k hk).2.1
      have := g.oldRef
      omega
  case layout => rfl
  case ids => exact Int.le_refl _
  case refs => exact Nat.le_add_right _ _
  case origin =>
    intro k hk
    rcases List.mem_append.mp hk with hk | hk
    · exact .inr ⟨.inl (hb k hk).1, .inl (hb k hk).2.1⟩
    · exact .inl hk
  case fate => exact fun k hk => .inl <| hj ▸ hk
  case gone => exact fun t ht => ht

theorem mint {ι : Type} (h : Coherent s ks) (e : Expr ι) (d : Domain) :
    Evolves s ks { s with nextRef := (e.mint d s.nextRef).2 }
      ((e.mint d s.nextRef).1.keys ++ ks) := by
  have ⟨count, hk, hn⟩ := Expr.keys_mint e d s.nextRef
  rw [hk, hn]
  exact h.make count

theorem mintAll {ι : Type} (h : Coherent s ks) (es : List (Expr ι)) (d : Domain) :
    Evolves s ks { s with nextRef := (Expr.mintAll d s.nextRef es).2 }
      ((Expr.mintAll d s.nextRef es).1.flatMap Expr.keys ++ ks) := by
  have ⟨count, hk, hn⟩ := Expr.mintAll_keys es d s.nextRef
  rw [hk, hn]
  exact h.make count

theorem lists_assign (h : Coherent s (ks ++ rest)) :
    (s.registry.assign ks).2.Lists ((s.registry.assign ks).1 ++ joined rest) ∧
    ∀ k ∈ (s.registry.assign ks).1,
      k ∈ joined ks ∨ (s.registry.nextId ≤ k.1 ∧ ∃ k' ∈ ks, k'.Blank ∧ k'.2 = k.2) := by
  have hsub : (ks ++ joined rest).Sublist (ks ++ rest) := List.filter_sublist.append_left ks
  have hreg : s.registry.Lists (joined ks ++ joined rest) := joined_append ks rest ▸ h.registry
  exact hreg.assign <| h.refs.sublist <| hsub.map _

theorem not_blank_of_mem_assign (h : Coherent s (ks ++ rest)) :
    ∀ k ∈ (s.registry.assign ks).1, ¬k.Blank :=
  fun _ hk => h.lists_assign.1.not_blank <| List.mem_append_left _ hk

-- A part that has joined keeps its number: under another one it would have joined only now.
theorem mem_assign_of_mem_joined (h : Coherent s (ks ++ rest)) {k : Key} (hk : k ∈ joined ks) :
    k ∈ (s.registry.assign ks).1 := by
  have ⟨hm, hb⟩ := mem_joined_iff.mp hk
  have hn : (ks.map Prod.snd).Nodup := h.refs.sublist <| (List.sublist_append_left _ _).map _
  have hr : k.2 ∈ (s.registry.assign ks).1.map Prod.snd := by
    rw [Registry.map_snd_assign]
    exact List.mem_map_of_mem hm
  obtain ⟨k', hk', he⟩ := List.mem_map.mp hr
  rcases h.lists_assign.2 k' hk' with hj' | ⟨-, k'', hm'', hb'', he''⟩
  · have : k' = k := List.inj_on_of_nodup_map hn (mem_joined_iff.mp hj').1 hm he
    exact this ▸ hk'
  · have : k'' = k := List.inj_on_of_nodup_map hn hm'' hm (he''.trans he)
    exact absurd (this ▸ hb'') hb

-- Parts that join get a number unless they have one.
theorem assign (h : Coherent s (ks ++ rest)) :
    Evolves s (ks ++ rest) { s with registry := (s.registry.assign ks).2 }
      ((s.registry.assign ks).1 ++ rest) := by
  have hrefs : ((s.registry.assign ks).1.map Prod.snd) = ks.map Prod.snd :=
    Registry.map_snd_assign _ _
  have ⟨hl, ho⟩ := h.lists_assign
  have hid := Registry.nextId_le_assign s.registry ks
  have hj : joined ((s.registry.assign ks).1 ++ rest) =
      (s.registry.assign ks).1 ++ joined rest := by
    rw [joined_append, joined_eq_self h.not_blank_of_mem_assign]
  constructor
  case coherent =>
    refine ⟨hj ▸ hl, ?_, fun k hk => ?_, fun t ht => ?_⟩
    · rw [List.map_append, hrefs, ← List.map_append]
      exact h.refs
    · have hk : k.2 ∈ ((s.registry.assign ks).1 ++ rest).map Prod.snd := List.mem_map_of_mem hk
      rw [List.map_append, hrefs, ← List.map_append] at hk
      obtain ⟨k', hk', he⟩ := List.mem_map.mp hk
      exact he ▸ h.made k' hk'
    · have g := h.gone t ht
      refine ⟨g.parent, g.oldRef, Int.lt_of_lt_of_le g.oldId hid, ?_, fun hm => ?_⟩
      · rw [List.map_append, hrefs, ← List.map_append]
        exact g.ref
      · rw [hj, List.map_append, List.mem_append] at hm
        rcases hm with hm | hm
        · obtain ⟨k, hk, he⟩ := List.mem_map.mp hm
          rcases ho k hk with hk | ⟨hk, -⟩
          · exact g.id <| he ▸ List.mem_map_of_mem (by simp [hk])
          · have := g.oldId
            omega
        · exact g.id <| by simp [hm]
  case layout => rfl
  case ids => exact hid
  case refs => exact Nat.le_refl _
  case origin =>
    intro k hk
    rcases List.mem_append.mp hk with hk | hk
    · rcases ho k hk with hk | ⟨hk, k', hk', hb, he⟩
      · exact .inl <| List.mem_append_left _ (mem_joined_iff.mp hk).1
      · refine .inr ⟨.inr hk, .inr <| List.mem_append_left _ ?_⟩
        have : k' = (0, k.2) := Prod.ext hb he
        exact this ▸ hk'
    · exact .inl <| List.mem_append_right _ hk
  case fate =>
    intro k hk
    rw [joined_append, List.mem_append] at hk
    rw [hj, List.mem_append]
    exact .inl <| hk.imp_left h.mem_assign_of_mem_joined
  case gone => exact fun t ht => ht

-- Parts that leave are struck off, and their tags stay behind.
theorem leave (h : Coherent s (part.keys ++ ks)) (hn : ∀ k ∈ part.keys, ¬k.Blank) :
    Evolves s (part.keys ++ ks) (s.leave part) ks := by
  have hj : joined (part.keys ++ ks) = part.keys ++ joined ks := by
    rw [joined_append, joined_eq_self hn]
  have hreg := h.registry
  rw [hj] at hreg
  have hr : (s.leave part).registry = s.registry.strike part.keys := part.retire_registry _
  have hid : (s.leave part).registry.nextId = s.registry.nextId := by
    rw [hr, Registry.nextId_strike]
  have hrefs := h.refs
  rw [List.map_append, List.nodup_append] at hrefs
  obtain ⟨-, hks, hd⟩ := hrefs
  constructor
  case coherent =>
    refine ⟨hr ▸ hreg.strike, hks, fun k hk => h.made k <| List.mem_append_right _ hk, ?_⟩
    intro t ht
    rw [Schedule.gone_leave, List.mem_append] at ht
    rcases ht with ht | ht
    · have g := h.gone t ht
      refine ⟨g.parent, g.oldRef, hid ▸ g.oldId, fun hm => g.ref ?_, fun hm => g.id ?_⟩
      · rw [List.map_append]
        exact List.mem_append_right _ hm
      · rw [hj, List.map_append]
        exact List.mem_append_right _ hm
    · obtain ⟨p, hp, rfl⟩ := List.mem_map.mp ht
      have hk : p.label.key ∈ part.keys := Expr.key_mem_keys hp
      have hids := hreg.ids
      rw [List.map_append, List.nodup_append] at hids
      refine ⟨rfl, h.made _ <| List.mem_append_left _ hk, hid ▸ ?_, fun hm => ?_, fun hm => ?_⟩
      · exact (hreg.bound _ <| List.mem_append_left _ hk).2
      · exact hd _ (List.mem_map_of_mem hk) _ hm rfl
      · exact hids.2.2 _ (List.mem_map_of_mem hk) _ hm rfl
  case layout => rfl
  case ids => exact Int.le_of_eq hid.symm
  case refs => exact Nat.le_refl _
  case origin => exact fun k hk => .inl <| List.mem_append_right _ hk
  case fate =>
    intro k hk
    rw [hj, List.mem_append] at hk
    rw [Schedule.gone_leave]
    refine hk.symm.imp_right fun hk => ?_
    obtain ⟨p, hp, rfl⟩ := List.mem_map.mp hk
    exact ⟨_, List.mem_append_right _ <| List.mem_map.mpr ⟨p, hp, rfl⟩, rfl⟩
  case gone => exact fun t ht => by simp [Schedule.gone_leave, ht]

end Coherent
end Cron
