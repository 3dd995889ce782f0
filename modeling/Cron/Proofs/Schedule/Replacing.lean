import Cron.Proofs.Expr.Printing
import Cron.Proofs.Schedule.Erasure
import Cron.Proofs.Schedule.Identity

-- Replacing a part puts a new expression in the place of the part, and nowhere else. A part that is
-- replaced by what its own text writes leaves no trace, unless both days are restricted.

namespace Cron

open Schedule EditM

variable {s s' : Schedule} {c : Column} {part whole : Part} {left right : List Part} {r : Registry}
variable {id : Int} {text : Codes} {new : Shape} {path : List Nat} {receipt : Receipt}
variable {m : EditM Nat}

namespace Expr

theorem keys_subset (hw : whole ∈ part.preorder) : whole.keys ⊆ part.keys := by
  intro k hk
  obtain ⟨p, hp, rfl⟩ := List.mem_map.mp hk
  exact key_mem_keys <| mem_preorder_trans hp hw

section Exchanged

variable (hc : whole.children = left ++ part :: right) (made : Part) (parent : Option Int)
variable (hk : r.Knows [whole.label.key]) (hl : r.Knows (left.flatMap keys))
variable (hr : r.Knows (right.flatMap keys))

include hc hk hl hr

-- A registered part joins again after one of its children gave way to something new.
theorem children_adopt_replaceChild :
    ∃ left' right', ((whole.replaceChild left.length made).adopt parent r).1.children =
        left' ++ (adoptAll (some whole.label.id) r (entries whole made)).1 ++ right' ∧
      left'.map outline = left.map outline ∧ right'.map outline = right.map outline := by
  obtain ⟨hch, hlabel, -⟩ := children_replaceChild hc made
  rw [children_adopt, label_adopt, hlabel, hk.enroll_eq, hch]
  exact adoptAll_between _ _ hl hr

theorem outline_adopt_replaceChild :
    ∃ new : Expr Key, new.shape = made.shape ∧
      ((whole.replaceChild left.length made).adopt parent r).1.outline =
        whole.outline.replaceChild left.length new := by
  obtain ⟨left', right', hx, hl', hr'⟩ := children_adopt_replaceChild hc made parent hk hl hr
  obtain ⟨-, hlabel, hkind⟩ := children_replaceChild hc made
  have hc' : whole.outline.children =
      left.map outline ++ part.outline :: right.map outline := by
    rw [children_map, hc, List.map_append, List.map_cons]
  have hentries :
      ((adoptAll (some whole.label.id) r (entries whole made)).1.map outline).map shape =
        (entries whole made).map shape := by
    rw [← adoptAll_shapes (entries whole made) (some whole.label.id) r, List.map_map]
    exact List.map_congr_left fun m _ => shape_map _ m
  obtain ⟨new, hs, hnew⟩ := exists_entries hentries
  obtain ⟨hcn, hln, hkn⟩ := children_replaceChild hc' new
  have hnn := literal_replaceChild hc' new
  rw [List.length_map] at hcn hln hkn hnn
  refine ⟨new, hs, eq_of_children_eq ?_ ?_ ?_ ?_⟩
  · rw [kind_map, kind_adopt, hkind, hkn, kind_map]
  · rw [label_map, label_adopt, hlabel, hk.enroll_eq, hln, label_map]
    rfl
  · rw [literal_map, literal_adopt, literal_replaceChild hc, hnn, literal_map]
  · rw [children_map, hx, hcn, hnew _ <| kind_map ..]
    simp only [List.map_append, hl', hr']

variable {l : Layout} {pos : Position} {e : Part} (hf : e.Fits l c pos)
variable (hn : (e.keys.map Prod.snd).Nodup) (hpath : e.get? path = some whole)

include hf hn hpath

omit hk hl hr in
theorem put_adopt_replaceChild :
    Expr.put ((whole.replaceChild left.length made).adopt parent r).1 e =
      e.replaceAt ((whole.replaceChild left.length made).adopt parent r).1 path := by
  obtain ⟨-, hlabel, hkind⟩ := children_replaceChild hc made
  refine hf.put_eq_replaceAt hn hpath ?_ ?_
  · rw [ref_adopt, hlabel]
  · rw [kind_adopt, hkind]

-- The tree has changed at the place of the child, ...
theorem outline_put_replaceChild :
    ∃ new : Expr Key, new.shape = made.shape ∧
      (Expr.put ((whole.replaceChild left.length made).adopt parent r).1 e).outline =
        e.outline.replaceAt new (path ++ [left.length]) := by
  obtain ⟨new, hs, hx⟩ := outline_adopt_replaceChild hc made parent hk hl hr
  have hpath' : e.outline.get? path = some whole.outline := by
    rw [get?_map, hpath]
    rfl
  have hi : whole.outline.children[left.length]? = some part.outline := by
    simp [children_map, hc]
  refine ⟨new, hs, ?_⟩
  rw [put_adopt_replaceChild hc made parent hf hn hpath]
  calc (e.replaceAt ((whole.replaceChild left.length made).adopt parent r).1 path).outline
    _ = e.outline.replaceAt ((whole.replaceChild left.length made).adopt parent r).1.outline path :=
      map_replaceAt _ hpath
    _ = e.outline.replaceAt (whole.outline.replaceChild left.length new) path := by rw [hx]
    _ = e.outline.replaceAt new (path ++ [left.length]) := replaceAt_replaceChild hpath' hi

-- ... where the new part stands, unless it has given way to its members.
theorem get?_put_replaceChild (hm : made.kind ≠ .list) :
    ∃ q, (Expr.put ((whole.replaceChild left.length made).adopt parent r).1 e).get?
      (path ++ [left.length]) = some q ∧ q.label.ref = made.label.ref ∧ q.shape = made.shape := by
  obtain ⟨left', right', hx, hl', -⟩ := children_adopt_replaceChild hc made parent hk hl hr
  have hlen : left'.length = left.length := by simpa using congrArg List.length hl'
  rw [entries_of_kind_ne hm, ← hlen] at hx
  rw [put_adopt_replaceChild hc made parent hf hn hpath, ← hlen]
  have hkind : ((whole.replaceChild left'.length made).adopt parent r).1.kind ≠ .list ∨
      path = [] := by
    rw [kind_adopt, hlen, (children_replaceChild hc made).2.2]
    exact (em _).symm.imp_right fun hk => hf.eq_nil_of_get? hpath hk
  have hi : ((whole.replaceChild left'.length made).adopt parent r).1.children[left'.length]? =
      some (made.adopt (some whole.label.id) r).1 := by
    simp [hx, adoptAll]
  refine ⟨(made.adopt (some whole.label.id) r).1, ?_, ref_adopt made, shape_adopt ..⟩
  rw [get?_append <| hf.get?_replaceAt hpath hkind]
  exact get?_cons hi

end Exchanged

end Expr

namespace Schedule

-- What stands in a column after `new` has been put in the place of a part. `holder` is what the
-- answer tells of: the new part, or the list that has taken in its members.
structure Placed (s : Schedule) (c : Column) (part : Part) (path : List Nat) (new : Shape)
    (holder : Nat) (s' : Schedule) : Prop where
  place   : (s.root c).get? path = some part
  outline : ∃ made : Expr Key, made.shape = new ∧
    (s'.root c).outline = (s.root c).outline.replaceAt made path
  gone    : s'.gone = s.gone ++ part.preorder.map fun p => { p.label with parent := none }
  spliced : new.kind = .list → path ≠ [] → (s.root c).kind = .list ∧ path.length = 1
  holder  : ∃ q ∈ (s'.root c).preorder, q.label.ref = holder ∧
    if new.kind = .list ∧ path ≠ [] then q = s'.root c
    else (s'.root c).get? path = some q ∧ q.shape = new

theorem replant_placed (s : Schedule) (c : Column) (new : Shape) :
    (replant c (s.root c) new).Gives s (Placed s c (s.root c) [] new) := by
  refine (replant_shape s c (s.root c) new).imp fun holder s' ⟨hs, hh, hg⟩ => ?_
  rw [Expr.shape_shape] at hs
  refine ⟨rfl, ⟨(s'.root c).outline, (Expr.shape_map ..).trans hs, rfl⟩, hg, ?_, ?_⟩
  · exact fun _ h => absurd rfl h
  · refine ⟨_, Expr.mem_preorder_self _, hh, ?_⟩
    rw [if_neg fun h => h.2 rfl]
    exact ⟨rfl, hs⟩

-- What holds the part and what stands beside it are still registered when they join again.
theorem exchanged_knows (h : s.Sound) (hw : whole ∈ (s.root c).preorder)
    (hc : whole.children = left ++ part :: right) (new : Shape) (d : Domain)
    (ks : List Key) (hs : ∀ k ∈ ks, k = whole.label.key ∨ k ∈ (left ++ right).flatMap Expr.keys) :
    (s.exchanged part (whole.replaceChild left.length (new.mint d s.nextRef).1)
      (new.mint d s.nextRef).2).registry.Knows ks := by
  obtain ⟨rest, e, -⟩ := evolves_exchanged h hw hc new d
  obtain ⟨hch, hlabel, -⟩ := Expr.children_replaceChild hc (new.mint d s.nextRef).1
  refine e.coherent.knows (fun k hk => List.mem_append_left _ ?_) fun k hk =>
    (h.proper c).numbered k <| Expr.keys_subset hw ?_
  · rw [Expr.keys_eq, hch, hlabel]
    have hs := hs k hk
    simp only [List.flatMap_append, List.mem_cons, List.mem_append] at hs ⊢
    tauto
  · rw [Expr.keys_eq, hc]
    have hs := hs k hk
    simp only [List.flatMap_append, List.flatMap_cons, List.mem_cons, List.mem_append] at hs ⊢
    tauto

theorem substitute_placed (h : s.Sound) (hpath : (s.root c).get? path = some whole)
    (hm : part ∈ whole.children) (hok : checkFits part whole new text = .ok ())
    (hf : new.Fits s.layout c .root) :
    ∃ i, (substitute c part whole new).Gives s (Placed s c part (path ++ [i]) new) := by
  have hw : whole ∈ (s.root c).preorder := Expr.mem_preorder_of_get? hpath
  have hfits := (h.proper c).fits
  have hn := h.nodup_keys_root c
  obtain ⟨left, right, hc, hpos⟩ := Expr.position?_of_mem (h.nodup_keys_of_mem hw) hm
  let d := s.layout.domain c
  have hk := exchanged_knows h hw hc new d [whole.label.key] (by simp)
  have hl := exchanged_knows h hw hc new d (left.flatMap Expr.keys) fun k hk => .inr <| by simp [hk]
  have hr := exchanged_knows h hw hc new d (right.flatMap Expr.keys) fun k hk =>
    .inr <| by simp [hk]
  have hmade : (new.mint d s.nextRef).1.shape = new := by rw [Expr.shape_mint, Expr.shape_shape]
  refine ⟨left.length, (substitute_rejoins hpos c new).imp fun holder s' ⟨hj, hh⟩ => ?_⟩
  have hroot := (rejoin_roots (s := s) rfl).of_eq hj c
  have hlist (hnew : new.kind = .list) : whole = s.root c ∧ whole.kind = .list ∧ path = [] := by
    obtain ⟨pos, hfw⟩ := hfits.exists_of_mem hw
    have hk := hfw.kind_eq_list_of_checkFits hc hpos hok hf hnew
    exact ⟨hfits.eq_of_kind_eq_list hw hk, hk, hfits.eq_nil_of_get? hpath hk⟩
  constructor
  case place =>
    have hi : whole.children[left.length]? = some part := by simp [hc]
    exact (Expr.get?_append hpath).trans <| Expr.get?_cons hi
  case outline =>
    obtain ⟨made, hs, ho⟩ := Expr.outline_put_replaceChild hc _ _ hk hl hr hfits hn hpath
    exact ⟨made, hs.trans hmade, hroot ▸ ho⟩
  case gone =>
    cases hj
    exact gone_leave _ part
  case spliced =>
    intro hnew _
    obtain ⟨rfl, hk, rfl⟩ := hlist hnew
    exact ⟨hk, rfl⟩
  case holder =>
    by_cases hnew : new.kind = .list
    case pos =>
      obtain ⟨he, hk, rfl⟩ := hlist hnew
      refine ⟨_, Expr.mem_preorder_self _, ?_, ?_⟩
      · rw [hh, if_pos ⟨hnew, hk⟩, hroot, Expr.ref_put, he]
      · simp [hnew]
    case neg =>
      have hne : (new.mint d s.nextRef).1.kind ≠ .list := (Expr.kind_mint ..).trans_ne hnew
      have hget : ∃ q, (s'.root c).get? (path ++ [left.length]) = some q ∧
          q.label.ref = (new.mint d s.nextRef).1.label.ref ∧
          q.shape = (new.mint d s.nextRef).1.shape := by
        rw [hroot]
        exact Expr.get?_put_replaceChild hc _ _ hk hl hr hfits hn hpath hne
      obtain ⟨q, hq, href, hs⟩ := hget
      refine ⟨q, Expr.mem_preorder_of_get? hq, ?_, ?_⟩
      · rw [href, hh, if_neg fun h => hnew h.1]
      · rw [if_neg fun h => hnew h.1]
        exact ⟨hq, hs.trans hmade⟩

-- The schedule after a part has been replaced.
structure Replaced (s : Schedule) (c : Column) (part : Part) (path : List Nat) (new : Shape)
    (holder : Int) (s' : Schedule) : Prop where
  place   : (s.root c).get? path = some part
  shape   : (s'.root c).shape = (s.root c).shape.replaceAt new path
  -- Around the place every part remains where it was.
  outline : ∃ made : Expr Key, made.shape = new ∧
    (s'.root c).outline = (s.root c).outline.replaceAt made path
  -- A list among the members of a list gives way to its members.
  spliced : new.kind = .list → path ≠ [] → ∃ t left right made,
    s.root c = .list t (left ++ part :: right) ∧ made.map Expr.shape = new.members ∧
      (s'.root c).outline =
        .list t.key (left.map Expr.outline ++ made ++ right.map Expr.outline)
  others  : ∀ d ≠ c, s'.root d = s.root d
  departs : Departs s s' part.preorder
  holder  : ∃ q, s'.part holder = .ok q ∧
    if new.kind = .list ∧ path ≠ [] then q = s'.root c
    else (s'.root c).get? path = some q ∧ q.shape = new

theorem Placed.exists_spliced {holder : Nat} (hp : Placed s c part path new holder s')
    (hnew : new.kind = .list) (hpath : path ≠ []) :
    ∃ t left right made, s.root c = .list t (left ++ part :: right) ∧
      made.map Expr.shape = new.members ∧ (s'.root c).outline =
        .list t.key (left.map Expr.outline ++ made ++ right.map Expr.outline) := by
  obtain ⟨hk, hlen⟩ := hp.spliced hnew hpath
  obtain ⟨i, rfl⟩ := List.length_eq_one_iff.mp hlen
  obtain ⟨made, hs, ho⟩ := hp.outline
  obtain ⟨q, hi, hq⟩ := Expr.get?_cons_eq_some hp.place
  cases hq
  obtain ⟨left, right, hc, rfl⟩ := Expr.exists_children_eq hi
  obtain ⟨t, ms, hr⟩ := Expr.eq_list_of_kind hk
  rw [hr, Expr.children] at hc
  subst hc
  refine ⟨t, left, right, made.members, hr, ?_, ?_⟩
  · rw [← hs]
    exact (Expr.members_map _ made).symm
  · have hi : (s.root c).outline.children[left.length]? = some part.outline := by
      simp [hr, Expr.children]
    rw [ho, Expr.replaceAt_cons hi, hr]
    simp [Expr.replaceAt, Expr.replaceChild, List.drop_append]

theorem Placed.replaced {holder : Nat} (h : s.Sound) (hp : Placed s c part path new holder s')
    (hc : Confined s c s') : Replaced s c part path new (s'.numberOf holder) s' where
  place   := hp.place
  shape   := by
    obtain ⟨made, rfl, ho⟩ := hp.outline
    have hs := congrArg Expr.shape ho
    have hget : (s.root c).outline.get? path = some part.outline := by
      rw [Expr.get?_map, hp.place]
      rfl
    rwa [Expr.shape_map, Expr.shape_replaceAt hget, Expr.shape_map] at hs
  outline := hp.outline
  spliced := hp.exists_spliced
  others  := hc.others
  departs := hc.turn.departs h (fun q hq => mem_live_iff.mpr
    ⟨c, Expr.mem_preorder_trans hq <| Expr.mem_preorder_of_get? hp.place⟩) hp.gone
  holder  := by
    obtain ⟨q, hq, rfl, hh⟩ := hp.holder
    exact ⟨q, hc.turn.sound.part_numberOf hq, hh⟩

theorem Change.placed (h : s.Sound) (hc : Change s c (.replace id text) m) :
    ∃ part new path, s.Addresses id c part ∧ s.readEdit c text = .ok new ∧
      m.Gives s (Placed s c part path new) := by
  cases hc
  case replant ha hn => exact ⟨_, _, [], ha, hn, replant_placed s c _⟩
  case substitute hw hm ha hn hok =>
    obtain ⟨path, hpath⟩ := Expr.exists_get? hw
    obtain ⟨i, hp⟩ := substitute_placed h hpath hm hok <| readEdit_fits hn
    exact ⟨_, _, path ++ [i], ha, hn, hp⟩

theorem replace_eq_ok (h : s.Sound) (he : (replace id text) s = .ok receipt s') :
    ∃ c m holder, Change s c (.replace id text) m ∧ m s = .ok holder s' ∧
      receipt.holder = s'.numberOf holder := by
  obtain ⟨⟨c, part⟩, ha, he⟩ := ask_bind_eq_ok_iff.mp he
  obtain ⟨new, hn, he⟩ := ask_bind_eq_ok_iff.mp he
  obtain ⟨parent, hh, he⟩ := ask_bind_eq_ok_iff.mp he
  obtain ⟨holder, s₁, hm, he⟩ := bind_eq_ok_iff.mp he
  obtain ⟨shown, -, he⟩ := ask_bind_eq_ok_iff.mp he
  obtain ⟨number, hnumber, he⟩ := ask_bind_eq_ok_iff.mp he
  cases hnumber
  cases he
  have ha := h.resolve_eq_ok_iff.mp ha
  rcases h.holderOf_eq ha.mem with ⟨rfl, hr⟩ | ⟨whole, hw, hp, hr⟩
  · cases hh.symm.trans hr
    obtain ⟨-, -, hm⟩ := ask_bind_eq_ok_iff.mp hm
    exact ⟨c, _, holder, .replant ha hn, hm, rfl⟩
  · cases hh.symm.trans hr
    obtain ⟨_, hok, hm⟩ := ask_bind_eq_ok_iff.mp hm
    obtain ⟨-, -, hm⟩ := ask_bind_eq_ok_iff.mp hm
    exact ⟨c, _, holder, .substitute ha hw hp hn hok, hm, rfl⟩

section OwnText

theorem readEdit_cron (h : s.Sound) (hp : part ∈ (s.root c).preorder) :
    s.readEdit c (.ofChars part.cron) = .ok part.shape := by
  obtain ⟨pos, hf⟩ := (h.proper c).fits.exists_of_mem hp
  rw [readEdit, Layout.read_cron hf.alone]
  rfl

-- Nothing but the other day keeps a part from being replaced by what its own text writes.
theorem exists_change_cron (h : s.Sound) (ha : s.Addresses id c part) :
    ∃ m, Change s c (.replace id (.ofChars part.cron)) m := by
  have hn := readEdit_cron h ha.mem
  rcases Expr.eq_or_mem_children_of_mem_preorder ha.mem with rfl | ⟨whole, hw, hm⟩
  · exact ⟨_, .replant ha hn⟩
  · obtain ⟨left, right, hc, hpos⟩ := Expr.position?_of_mem (h.nodup_keys_of_mem hw) hm
    obtain ⟨pos, hf⟩ := (h.proper c).fits.exists_of_mem hw
    exact ⟨_, .substitute ha hw hm hn <| hf.checkFits_self hc hpos⟩

theorem Placed.shapes_eq {holder : Nat} (h : s.Sound)
    (hp : Placed s c part path part.shape holder s') (hc : Confined s c s') :
    s'.shapes = s.shapes := by
  refine congrArg Columns.of <| funext fun d => ?_
  by_cases hd : d = c
  case neg => rw [hc.others d hd]
  case pos =>
    subst hd
    have hget : (s.root d).shape.get? path = some part.shape := by
      rw [Expr.shape, Expr.get?_map, hp.place]
      rfl
    rw [(hp.replaced h hc).shape]
    exact (Expr.fits_shape_iff.mpr (h.proper d).fits).replaceAt_self hget

end OwnText

end Schedule

-- A replacement that is made puts what the text writes in the place of what is addressed. Of all
-- other parts, none moves or gets another number; the replaced ones are no longer known. A part is
-- always replaced by what its own text writes, which changes no expression, but for days that are
-- both restricted.
theorem replacing_in_place :
    (∀ s, Reachable s → ∀ id text receipt s', (Edit.replace id text).run s = .ok receipt s' →
      ∃ c part new path, s.Addresses id c part ∧ s.readEdit c text = .ok new ∧
        s.Replaced c part path new receipt.holder s') ∧
    ∀ s, Reachable s → ∀ id c part, s.Addresses id c part →
      (s.BothDays ∧ ∃ d, (Edit.replace id (.ofChars part.cron)).run s = .error (.exclusive c d) s) ∨
      ∃ receipt s', (Edit.replace id (.ofChars part.cron)).run s = .ok receipt s' ∧
        s'.shapes = s.shapes := by
  constructor
  · intro s h id text receipt s' he
    obtain ⟨c, m, holder, hc, hm, hh⟩ := replace_eq_ok h.sound he
    obtain ⟨part, new, path, ha, hn, hp⟩ := hc.placed h.sound
    have hconf := ((hc.decided h.sound).of_eq hm).confined
    exact ⟨c, part, new, path, ha, hn, hh ▸ (hp.of_eq hm).replaced h.sound hconf⟩
  · intro s h id c part ha
    obtain ⟨m, hc⟩ := exists_change_cron h.sound ha
    obtain ⟨part', new, path, ha', hn, hp⟩ := hc.placed h.sound
    cases (h.sound.resolve_eq_ok_iff.mpr ha).symm.trans <| h.sound.resolve_eq_ok_iff.mpr ha'
    cases (readEdit_cron h.sound ha.mem).symm.trans hn
    obtain ⟨holder, s', hm, hd⟩ := hc.decided h.sound
    have hs := (hp.of_eq hm).shapes_eq h.sound hd.confined
    by_cases hx : (Edit.replace id (.ofChars part.cron)).Excluded s
    case neg =>
      obtain ⟨receipt, he⟩ := hd.exists_receipt hx
      exact .inr ⟨receipt, s', he, hs⟩
    case pos =>
      obtain ⟨d, hday, hrival, hr, he⟩ := hd.eq_exclusive hx
      have hk : (s'.root c).kind = (s.root c).kind := Expr.kind_congr <| shape_congr hs c
      rw [Restricted, Expr.isAny, hk] at hr
      exact .inl ⟨bothDays_of_rivals hday hr hrival, d, he⟩

theorem replacing_in_place_of_member :
    let s := (unrestricted ⟨.unix, 2024, 100, 900⟩).after (.add 1 "5,10-20/5")
    (∃ receipt s', (Edit.replace 14 "7,8").run s = .ok receipt s' ∧
      ∃ c part new path, s.Addresses 14 c part ∧ s.readEdit c "7,8" = .ok new ∧
        s.Replaced c part path new receipt.holder s') ∧
    ∃ c part, s.Addresses 18 c part ∧
      ((s.BothDays ∧
        ∃ d, (Edit.replace 18 (.ofChars part.cron)).run s = .error (.exclusive c d) s) ∨
      ∃ receipt s', (Edit.replace 18 (.ofChars part.cron)).run s = .ok receipt s' ∧
        s'.shapes = s.shapes) := by
  intro s
  have h : Reachable s :=
    (Reachable.unrestricted (l := ⟨.unix, 2024, 100, 900⟩) (by decide)).edited _
  constructor
  · obtain ⟨part, hr, hi⟩ : ∃ part, s.resolve 14 = .ok (.minute, part) ∧
        (s.root .minute).children[0]? = some part := ⟨_, rfl, rfl⟩
    obtain ⟨new, hn⟩ : ∃ new, s.readEdit .minute "7,8" = .ok new := ⟨_, rfl⟩
    have hok : checkFits part (s.root .minute) new "7,8" = .ok () := by
      cases hr
      rfl
    have ha := h.sound.resolve_eq_ok_iff.mp hr
    have hc : Change s .minute (.replace 14 "7,8") _ :=
      .substitute ha (Expr.mem_preorder_self _) (List.mem_of_getElem? hi) hn hok
    obtain ⟨_, s', -, hd⟩ := hc.decided h.sound
    obtain ⟨receipt, he⟩ := hd.made <| by cases (s'.root .minute).isAny <;> rfl
    exact ⟨receipt, s', he, replacing_in_place.1 s h _ _ _ _ he⟩
  · obtain ⟨part, hr⟩ : ∃ part, s.resolve 18 = .ok (.minute, part) := ⟨_, rfl⟩
    have ha := h.sound.resolve_eq_ok_iff.mp hr
    exact ⟨_, part, ha, replacing_in_place.2 s h _ _ _ ha⟩

end Cron
