import Cron.Proofs.Expr.Reading
import Cron.Proofs.Schedule.Sound

namespace Cron

variable {ι : Type} {s : Schedule} {l : Layout} {c d : Column} {cs done : List Column}

namespace Layout

variable {e : Shape} {shapes : List Shape} {texts : List Codes} {text : Codes}

-- Every text is read for the column at its place.
theorem readFrom_fits {i : Nat} (h : l.readFrom cs texts = .ok shapes) (he : shapes[i]? = some e) :
    ∃ c, cs[i]? = some c ∧ e.Fits l c .root := by
  induction cs generalizing texts shapes i
  case nil =>
    cases h
    simp at he
  case cons c cs hi =>
    cases texts
    case nil =>
      cases h
      simp at he
    case cons text texts =>
      obtain ⟨e', he', h⟩ := Except.bind_eq_ok_iff.mp h
      obtain ⟨shapes', hs, h⟩ := Except.bind_eq_ok_iff.mp h
      cases h
      cases i
      case zero =>
        rw [List.getElem?_cons_zero, Option.some_inj] at he
        exact ⟨c, rfl, he ▸ read_fits he'⟩
      case succ i => exact hi hs he

theorem readColumns_fits {columns : Columns Shape} (h : l.readColumns text = .ok columns)
    (c : Column) :
    (columns.get c).Fits l c .root := by
  obtain ⟨texts, -, h⟩ := Except.bind_eq_ok_iff.mp h
  obtain ⟨shapes, hs, h⟩ := Except.bind_eq_ok_iff.mp h
  cases h
  rw [Columns.get_of, List.getD_eq_getElem?_getD]
  cases he : shapes[c.index]?
  case none => simp
  case some e =>
    obtain ⟨d, hd, hf⟩ := readFrom_fits hs he
    have : Column.all[c.index]? = some c := by cases c <;> rfl
    cases this.symm.trans hd
    exact hf

end Layout

namespace Schedule

-- Some columns have been planted in this order, and nothing else has joined.
structure Planted (s : Schedule) (cs : List Column) : Prop where
  coherent : Coherent s (s.keysOf cs)
  proper   : ∀ c ∈ cs, s.Proper c
  numbers  : (s.keysOf cs).map Prod.fst =
    (List.range (s.keysOf cs).length).map fun n : Nat => firstPartId + n
  next     : s.registry.nextId = firstPartId + (s.keysOf cs).length

theorem planted_bare (l : Layout) : (bare l).Planted [] where
  coherent := ⟨Registry.lists_empty, .nil, nofun, nofun⟩
  proper   := nofun
  numbers  := rfl
  next     := rfl

theorem Planted.numbered (h : s.Planted cs) : ∀ k ∈ s.keysOf cs, ¬k.Blank := by
  intro k hk
  obtain ⟨c, hc, hk⟩ := List.mem_flatMap.mp hk
  exact (h.proper c hc).numbered k hk

theorem Planted.plant {e : Expr ι} (h : s.Planted cs) (hc : c ∉ cs) (hf : e.Fits s.layout c .root) :
    (s.plant c e).Planted (cs ++ [c]) := by
  let made := (e.mint (s.layout.domain c) s.nextRef).1
  let s₁ : Schedule := { s with nextRef := (e.mint (s.layout.domain c) s.nextRef).2 }
  have hm : Coherent s₁ (made.keys ++ s₁.keysOf cs) := (h.coherent.mint e _).coherent
  have hroot (d) (hd : d ∈ cs) : (s.plant c e).root d = s.root d := by
    rw [Schedule.plant, root_join, if_neg fun he : c = d => hc <| he ▸ hd]
    rfl
  have hk : (s.plant c e).keysOf (cs ++ [c]) =
      s.keysOf cs ++ (s.registry.assign made.keys).1 := by
    rw [keysOf, List.flatMap_append, List.flatMap_singleton]
    refine congrArg₂ _ (keysOf_congr hroot) ?_
    rw [Schedule.plant, root_join, if_pos rfl, (Expr.keys_adopt _ _ _).1]
  obtain ⟨count, hmk, -⟩ := Expr.keys_mint e (s.layout.domain c) s.nextRef
  have hl : s.registry.Lists (s.keysOf cs) := joined_eq_self h.numbered ▸ h.coherent.registry
  obtain ⟨hids, hnext⟩ := Registry.map_fst_assign_of_blank hl
    (fun k hk => (Expr.mem_blankKeys_iff.mp (hmk ▸ hk)).1) hm.refs
  have hlen : (s.registry.assign made.keys).1.length = made.keys.length := by
    simpa using congrArg List.length (Registry.map_snd_assign s.registry made.keys)
  constructor
  case coherent =>
    have hp : (s₁.join c made).keysOf (c :: cs) = (s.registry.assign made.keys).1 ++ s.keysOf cs :=
      keysOf_join hc
    rw [hk]
    exact (hp ▸ (evolves_join hm hc).coherent).perm List.perm_append_comm
  case proper =>
    intro d hd
    rcases List.mem_append.mp hd with hd | hd
    · exact (h.proper d hd).congr rfl (hroot d hd)
    · cases List.mem_singleton.mp hd
      exact proper_join hm (Expr.fits_mint_iff.mpr hf) <| e.rangesOver_mint _ _
  case numbers =>
    rw [hk, List.map_append, h.numbers, hids, h.next, List.length_append, hlen, List.range_add,
      List.map_append, List.map_map]
    refine congrArg _ <| List.map_congr_left fun n _ => ?_
    simp [Int.add_assoc]
  case next =>
    rw [hk, List.length_append, hlen]
    show (made.adopt (some c.id) s.registry).2.nextId = _
    rw [(Expr.keys_adopt _ _ _).2, hnext, h.next]
    push_cast
    omega

theorem layout_foldl_plant (es : Column → Expr ι) (cs : List Column) (s : Schedule) :
    (cs.foldl (fun s c => s.plant c (es c)) s).layout = s.layout := by
  induction cs generalizing s
  case nil        => rfl
  case cons c _ hi => exact hi _

theorem Planted.foldl {es : Column → Expr ι} (h : s.Planted done) (hn : (done ++ cs).Nodup)
    (hf : ∀ c ∈ cs, (es c).Fits s.layout c .root) :
    (cs.foldl (fun s c => s.plant c (es c)) s).Planted (done ++ cs) := by
  induction cs generalizing s done
  case nil => simpa using h
  case cons c cs hi =>
    have hc : c ∉ done := fun hd =>
      (List.nodup_append.mp hn).2.2 c hd c List.mem_cons_self rfl
    have hp := h.plant hc (hf c List.mem_cons_self)
    rw [List.append_cons] at hn ⊢
    exact hi hp hn fun d hd => hf d <| List.mem_cons_of_mem _ hd

theorem planted_ofShapes {shapes : Columns Shape} (hf : ∀ c, (shapes.get c).Fits l c .root) :
    (ofShapes l shapes).Planted Column.all :=
  (planted_bare l).foldl (by decide) fun c _ => hf c

theorem layout_ofShapes (l : Layout) (shapes : Columns Shape) : (ofShapes l shapes).layout = l :=
  layout_foldl_plant (fun c => shapes.get c) _ _

-- The schedule that is read from a text, or from none.
theorem planted_of_read? {text : Option Codes} (h : read? l text = .ok s) :
    s.Planted Column.all ∧ s.layout = l := by
  cases text
  case none =>
    cases h
    exact ⟨planted_ofShapes fun c => by simp, layout_ofShapes _ _⟩
  case some text =>
    obtain ⟨shapes, hs, rfl⟩ := Except.map_eq_ok_iff.mp h
    exact ⟨planted_ofShapes <| Layout.readColumns_fits hs, layout_ofShapes _ _⟩

theorem Planted.sound (h : s.Planted Column.all) : s.Sound :=
  ⟨h.coherent, fun c => h.proper c <| mem_all c⟩

end Schedule
end Cron
