import Cron.Proofs.Schedule.Coherent
import Cron.Proofs.Schedule.Exchange

namespace Cron

variable {ι : Type} {s s' : Schedule} {c d : Column} {cs : List Column} {ks rest : List Key}
variable {part whole x : Part}

namespace Schedule

-- The keys of the parts in some columns, each before those below it.
def keysOf (s : Schedule) (cs : List Column) : List Key := cs.flatMap fun c => (s.root c).keys

def keys (s : Schedule) : List Key := s.keysOf Column.all

theorem keysOf_congr (h : ∀ c ∈ cs, s'.root c = s.root c) : s'.keysOf cs = s.keysOf cs :=
  List.flatMap_congr fun c hc => by rw [h c hc]

theorem mem_all (c : Column) : c ∈ Column.all := by
  cases c <;> decide

theorem keys_perm (s : Schedule) (c : Column) :
    s.keys.Perm ((s.root c).keys ++ s.keysOf (Column.all.erase c)) :=
  List.Perm.flatMap_right (fun c => (s.root c).keys) <| List.perm_cons_erase <| mem_all c

theorem not_mem_erase_all (c : Column) : c ∉ Column.all.erase c := by
  cases c <;> decide

-- A column in good order: its parts are numbered, know what holds them, range over its domain, and
-- form a tree that the column can have.
structure Proper (s : Schedule) (c : Column) : Prop where
  numbered : ∀ k ∈ (s.root c).keys, ¬k.Blank
  linked   : (s.root c).Linked (some c.id)
  fits     : (s.root c).Fits s.layout c .root
  ranges   : (s.root c).RangesOver (s.layout.domain c)

theorem Proper.congr (h : s.Proper c) (hl : s'.layout = s.layout) (hr : s'.root c = s.root c) :
    s'.Proper c where
  numbered := hr ▸ h.numbered
  linked   := hr ▸ h.linked
  fits     := hr ▸ hl ▸ h.fits
  ranges   := hr ▸ hl ▸ h.ranges

-- A schedule between two edits: the parts in use are those in the columns.
structure Sound (s : Schedule) : Prop where
  coherent : Coherent s s.keys
  proper   : ∀ c, s.Proper c

-- From one sound schedule to another.
structure Turn (s s' : Schedule) : Prop where
  evolves : Evolves s s.keys s' s'.keys
  proper  : ∀ c, s'.Proper c

theorem Turn.sound (h : Turn s s') : s'.Sound := ⟨h.evolves.coherent, h.proper⟩

theorem Sound.turn (h : s.Sound) : Turn s s := ⟨.refl h.coherent, h.proper⟩

theorem Turn.trans {s'' : Schedule} (h : Turn s s') (h' : Turn s' s'') : Turn s s'' :=
  ⟨h.evolves.trans h'.evolves, h'.proper⟩

section Joining

theorem root_join (s : Schedule) (c d : Column) (part : Part) :
    (s.join c part).root d =
      if c = d then (part.adopt (some c.id) s.registry).1 else s.root d := by
  simp [root, join]

theorem join_eq (s : Schedule) (c : Column) (part : Part) :
    s.join c part =
      { s with
        roots := s.roots.set c (part.adopt (some c.id) s.registry).1
        registry := (s.registry.assign part.keys).2 } := by
  simp [join, part.keys_adopt]

theorem keysOf_join (hc : c ∉ cs) :
    (s.join c part).keysOf (c :: cs) = (s.registry.assign part.keys).1 ++ s.keysOf cs := by
  have hr (d) (hd : d ∈ cs) : (s.join c part).root d = s.root d := by
    rw [root_join, if_neg fun he : c = d => hc <| he ▸ hd]
  have hs : (s.join c part).keysOf cs = s.keysOf cs := keysOf_congr hr
  rw [keysOf, List.flatMap_cons, root_join, if_pos rfl, (part.keys_adopt _ _).1]
  exact congrArg _ hs

theorem evolves_join (h : Coherent s (part.keys ++ s.keysOf cs)) (hc : c ∉ cs) :
    Evolves s (part.keys ++ s.keysOf cs) (s.join c part) ((s.join c part).keysOf (c :: cs)) := by
  rw [keysOf_join hc, join_eq]
  exact h.assign.move _

theorem proper_join (h : Coherent s (part.keys ++ rest)) (hf : part.Fits s.layout c .root)
    (hd : part.RangesOver (s.layout.domain c)) : (s.join c part).Proper c where
  numbered := by
    rw [root_join, if_pos rfl, (part.keys_adopt _ _).1]
    exact h.not_blank_of_mem_assign
  linked := by
    rw [root_join, if_pos rfl]
    exact part.linked_adopt _ _
  fits := by
    rw [root_join, if_pos rfl]
    exact Expr.fits_adopt_iff.mpr hf
  ranges := by
    rw [root_join, if_pos rfl]
    exact hd.adopt _ _

-- A part that joins at the root of a column, the other columns being in good order, ends an edit.
theorem Turn.of_join {s₀ : Schedule}
    (h : Evolves s₀ s₀.keys s (part.keys ++ s.keysOf (Column.all.erase c)))
    (hp : ∀ d ≠ c, s.Proper d) (hf : part.Fits s.layout c .root)
    (hr : part.RangesOver (s.layout.domain c)) : Turn s₀ (s.join c part) where
  evolves :=
    have hj := evolves_join h.coherent (not_mem_erase_all c)
    (h.trans hj).perm (keys_perm _ c).symm
  proper d := by
    by_cases hd : d = c
    · subst hd
      exact proper_join h.coherent hf hr
    · refine (hp d hd).congr rfl ?_
      rw [root_join, if_neg (Ne.symm hd)]

end Joining

namespace Sound

theorem ranges_of_mem (h : s.Sound) (hp : part ∈ (s.root c).preorder) :
    part.RangesOver (s.layout.domain c) :=
  (h.proper c).ranges.of_mem hp

theorem numbered (h : s.Sound) : ∀ k ∈ s.keys, ¬k.Blank := by
  intro k hk
  obtain ⟨c, -, hk⟩ := List.mem_flatMap.mp hk
  exact (h.proper c).numbered k hk

theorem evolves_erase (h : s.Sound) (c : Column) :
    Evolves s s.keys s ((s.root c).keys ++ s.keysOf (Column.all.erase c)) :=
  (Evolves.refl h.coherent).perm <| keys_perm s c

theorem nodup_keys_root (h : s.Sound) (c : Column) : ((s.root c).keys.map Prod.snd).Nodup := by
  have hn := (h.evolves_erase c).coherent.refs
  rw [List.map_append] at hn
  exact (List.nodup_append.mp hn).1

theorem nodup_keys_of_mem (h : s.Sound) (hw : whole ∈ (s.root c).preorder) :
    (whole.keys.map Prod.snd).Nodup := by
  obtain ⟨before, after, hk, -⟩ := Expr.keys_put (h.nodup_keys_root c) hw
  have hn := h.nodup_keys_root c
  rw [hk, List.map_append, List.map_append] at hn
  exact (List.nodup_append.mp (List.nodup_append.mp hn).1).2.1

theorem put_root_of_ne (h : s.Sound) (hw : whole ∈ (s.root c).preorder)
    (hr : x.label.ref = whole.label.ref) (hd : d ≠ c) : Expr.put x (s.root d) = s.root d := by
  refine Expr.put_of_not_mem fun hm => ?_
  have hn := (h.evolves_erase c).coherent.refs
  rw [List.map_append, List.nodup_append] at hn
  refine hn.2.2 _ (List.mem_map_of_mem <| Expr.key_mem_keys hw) _ ?_ hr.symm
  have hd : d ∈ Column.all.erase c := (List.mem_erase_of_ne hd).mpr <| mem_all d
  obtain ⟨k, hk, he⟩ := List.mem_map.mp hm
  exact List.mem_map.mpr ⟨k, List.mem_flatMap.mpr ⟨d, hd, hk⟩, he⟩

-- Changing one part where it stands changes only its own keys.
theorem keys_put (h : s.Sound) (hw : whole ∈ (s.root c).preorder) :
    ∃ rest, s.keys.Perm (whole.keys ++ rest) ∧ ∀ x (s' : Schedule),
      x.label.ref = whole.label.ref → s'.roots = s.roots.map (Expr.put x) →
      s'.keys.Perm (x.keys ++ rest) := by
  have ⟨before, after, hk, hput⟩ := Expr.keys_put (h.nodup_keys_root c) hw
  have hperm (ks : List Key) : (before ++ ks ++ after ++ s.keysOf (Column.all.erase c)).Perm
      (ks ++ (before ++ after ++ s.keysOf (Column.all.erase c))) := by
    simpa using List.perm_append_comm_assoc before ks _
  refine ⟨before ++ after ++ s.keysOf (Column.all.erase c), ?_, fun x s' hr hs => ?_⟩
  · exact (keys_perm s c).trans <| hk ▸ hperm _
  · have hroot (d) : s'.root d = Expr.put x (s.root d) := by rw [root, hs, Columns.get_map]; rfl
    have he : s'.keysOf (Column.all.erase c) = s.keysOf (Column.all.erase c) := by
      refine keysOf_congr fun d hd => ?_
      rw [hroot, h.put_root_of_ne hw hr fun he : d = c => not_mem_erase_all c <| he ▸ hd]
    refine (keys_perm s' c).trans ?_
    rw [he, hroot, hput x hr]
    exact hperm _

-- Whatever takes the place of a part must be numbered, know what holds it, fit, and range over the
-- domain of the column.
theorem proper_put (h : s.Sound) (hw : whole ∈ (s.root c).preorder)
    (hr : x.label.ref = whole.label.ref) (hs : s'.roots = s.roots.map (Expr.put x))
    (hl : s'.layout = s.layout) (hx : ∀ k ∈ x.keys, ¬k.Blank) (hlx : x.Linked whole.label.parent)
    (hf : ∀ pos, whole.Fits s.layout c pos → x.Fits s.layout c pos)
    (hd : x.RangesOver (s.layout.domain c)) (d : Column) : s'.Proper d := by
  have hroot (d) : s'.root d = Expr.put x (s.root d) := by rw [root, hs, Columns.get_map]; rfl
  by_cases he : d = c
  case neg => exact (h.proper d).congr hl <| (hroot d).trans <| h.put_root_of_ne hw hr he
  subst he
  have hn := h.nodup_keys_root d
  have heq (q) (hq : q ∈ (s.root d).preorder) (he : q.label.ref = x.label.ref) : q = whole :=
    Expr.eq_of_ref_eq hn hq hw (he.trans hr)
  have hp := h.proper d
  constructor
  case numbered =>
    have ⟨before, after, hk, hput⟩ := Expr.keys_put hn hw
    rw [hroot, hput x hr]
    intro k hm
    simp only [List.mem_append] at hm
    rcases hm with (hm | hm) | hm
    · exact hp.numbered k <| by simp [hk, hm]
    · exact hx k hm
    · exact hp.numbered k <| by simp [hk, hm]
  case linked =>
    rw [hroot]
    exact Expr.put_linked hp.linked fun q hq he => heq q hq he ▸ hlx
  case fits =>
    rw [hroot, hl]
    exact hp.fits.put fun q hq he pos => heq q hq he ▸ hf pos
  case ranges =>
    rw [hroot, hl]
    exact hp.ranges.put hd

end Sound
end Schedule
end Cron
