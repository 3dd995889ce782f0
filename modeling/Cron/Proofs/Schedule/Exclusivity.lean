import Cron.Proofs.Schedule.Confined
import Cron.Proofs.Schedule.Reachable

namespace Cron

open Schedule EditM

variable {s s' : Schedule} {c d : Column} {e : Edit} {m : EditM Nat} {part whole : Part}
variable {id : Int} {text : Codes} {new : Shape} {err : EditError}

-- The day of the month and the weekday, in either order.
def Column.Rivals (c d : Column) : Prop :=
  c = .dayOfMonth ∧ d = .dayOfWeek ∨ c = .dayOfWeek ∧ d = .dayOfMonth

theorem Column.rival?_eq_some_iff : c.rival? = some d ↔ c.Rivals d := by
  cases c <;> cases d <;> simp [rival?, Rivals]

theorem Column.Rivals.ne (h : c.Rivals d) : d ≠ c := by
  rcases h with ⟨rfl, rfl⟩ | ⟨rfl, rfl⟩ <;> decide

-- The edit was refused because both days would be restricted by it.
def Edit.Excluded (e : Edit) (s : Schedule) : Prop :=
  ∃ c d s', e.run s = .error (.exclusive c d) s'

namespace Schedule

def Restricted (s : Schedule) (c : Column) : Prop := (s.root c).isAny = false

def BothDays (s : Schedule) : Prop := s.Restricted .dayOfMonth ∧ s.Restricted .dayOfWeek

theorem bothDays_of_rivals (h : c.Rivals d) (hc : s.Restricted c) (hd : s.Restricted d) :
    s.BothDays := by
  rcases h with ⟨rfl, rfl⟩ | ⟨rfl, rfl⟩
  · exact ⟨hc, hd⟩
  · exact ⟨hd, hc⟩

-- The change of a column that an edit is about. What is addressed is live, the text can be read,
-- and what it writes may stand in its place; whether both days may be restricted is left open.
inductive Change (s : Schedule) (c : Column) : Edit → EditM Nat → Prop
  | graft {id : Int} {text : Codes} {part : Part} {new : Shape} :
    s.Addresses id c part → s.readEdit c text = .ok new →
    Change s c (.add id text) (Schedule.graft c (s.root c) new)
  | replant {id : Int} {text : Codes} {new : Shape} :
    s.Addresses id c (s.root c) → s.readEdit c text = .ok new →
    Change s c (.replace id text) (Schedule.replant c (s.root c) new)
  | substitute {id : Int} {text : Codes} {part whole : Part} {new : Shape} :
    s.Addresses id c part → whole ∈ (s.root c).preorder → part ∈ whole.children →
    s.readEdit c text = .ok new → checkFits part whole new text = .ok () →
    Change s c (.replace id text) (Schedule.substitute c part whole new)

section Checks

theorem blockedBy?_eq_some_iff : s.blockedBy? c = some d ↔ c.Rivals d ∧ s.Restricted d := by
  simp [blockedBy?, Option.filter_eq_some_iff, Column.rival?_eq_some_iff, Restricted]

theorem checkExclusive_eq_error_iff {b : Bool} :
    s.checkExclusive c b = .error err ↔
      b = false ∧ ∃ d, s.blockedBy? c = some d ∧ err = .exclusive c d := by
  rw [checkExclusive]
  cases b <;> cases s.blockedBy? c <;> simp [eq_comm]

theorem readEdit_eq_error (h : s.readEdit c text = .error err) : ∃ r, err = .refused r := by
  rw [readEdit] at h
  cases hr : s.layout.read c text (-1) <;> rw [hr] at h <;> cases h
  exact ⟨_, rfl⟩

theorem checkFits_eq_error (h : checkFits part whole new text = .error err) :
    ∃ r, err = .refused r := by
  simp only [checkFits] at h
  split at h
  case h_5 => cases h
  all_goals split at h <;> cases h <;> exact ⟨_, rfl⟩

-- A number that stands for nothing is refused as such.
theorem Sound.resolve_eq_error (h : s.Sound) (hn : ∀ c p, ¬s.Addresses id c p) :
    s.resolve id = .error (.unknownPart id) := by
  have hid : Column.ofId? id = none := Option.eq_none_iff_forall_ne_some.mpr fun c hc =>
    hn c _ <| .inl ⟨(Column.id_of_ofId? hc).symm, rfl⟩
  rw [resolve, hid]
  cases hp : s.part id
  case error =>
    rw [part] at hp
    split at hp <;> cases hp
    rfl
  case ok p =>
    obtain ⟨hl, he⟩ := h.part_eq_ok_iff.mp hp
    obtain ⟨c, hc⟩ := mem_live_iff.mp hl
    exact absurd (.inr ⟨hc, he⟩) (hn c p)

end Checks

-- What comes of an edit that is about a change from `s` to `s'`: the check for both days decides.
structure Decided (s : Schedule) (c : Column) (e : Edit) (s' : Schedule) : Prop where
  confined : Confined s c s'
  refused  : ∀ err, s.checkExclusive c (s'.root c).isAny = .error err → e.run s = .error err s
  made     : s.checkExclusive c (s'.root c).isAny = .ok () → ∃ receipt, e.run s = .ok receipt s'

theorem add_decided (h : s.Sound) (ha : s.Addresses id c part) (hn : s.readEdit c text = .ok new) :
    (graft c (s.root c) new).Gives s fun _ s' => Decided s c (.add id text) s' := by
  have ⟨holder, s', hm, hc, hany⟩ := graft_confined h (readEdit_fits hn)
  have hr := h.resolve_eq_ok_iff.mpr ha
  refine ⟨holder, s', hm, hc, fun err hx => ?_, fun hx => ?_⟩
  all_goals rw [hany] at hx
  · show (Schedule.add id text).Fails s err
    exact Fails.next hr <| Fails.next hn <| Fails.next rfl <| Fails.ask hx
  · have hg : (Schedule.add id text).Gives s fun _ t => t = s' :=
      Gives.ask hr <| Gives.ask hn <| Gives.ask rfl <| Gives.ask hx <| Gives.next hm <|
        Gives.ask (written_eq hc.turn.sound c) <| Gives.ask rfl <| Gives.pure rfl
    obtain ⟨receipt, _, hg, rfl⟩ := hg
    exact ⟨receipt, hg⟩

-- A replacement is decided by what decides about the part that is exchanged.
theorem replace_decided {holder : Holder} (h : s.Sound) (ha : s.Addresses id c part)
    (hn : s.readEdit c text = .ok new) (hh : s.holderOf part = .ok holder) (hc : Confined s c s')
    (hfail : ∀ err, s.checkExclusive c (s'.root c).isAny = .error err →
      (replaceBelow c part new text holder).Fails s err)
    (hgive : s.checkExclusive c (s'.root c).isAny = .ok () →
      (replaceBelow c part new text holder).Gives s fun _ t => t = s') :
    Decided s c (.replace id text) s' := by
  have hr := h.resolve_eq_ok_iff.mpr ha
  refine ⟨hc, fun err hx => ?_, fun hx => ?_⟩
  · show (Schedule.replace id text).Fails s err
    exact Fails.next hr <| Fails.next hn <| Fails.next hh <| (hfail err hx).bind
  · have hg : (Schedule.replace id text).Gives s fun _ t => t = s' := by
      refine Gives.ask hr <| Gives.ask hn <| Gives.ask hh <| (hgive hx).bind fun _ t ht => ?_
      subst ht
      exact Gives.ask (written_eq hc.turn.sound c) <| Gives.ask rfl <| Gives.pure rfl
    obtain ⟨receipt, _, hg, rfl⟩ := hg
    exact ⟨receipt, hg⟩

theorem Change.decided (h : s.Sound) (hc : Change s c e m) :
    m.Gives s fun _ s' => Decided s c e s' := by
  cases hc
  case graft ha hn => exact add_decided h ha hn
  case replant ha hn =>
    have ⟨holder, s', hm, hc, hany⟩ := replant_confined h (readEdit_fits hn)
    refine ⟨holder, s', hm, replace_decided h ha hn (h.holderOf_root c) hc ?_ ?_⟩
    all_goals rw [hany]
    · exact fun err hx => Fails.ask hx
    · exact fun hx => Gives.ask hx ⟨holder, s', hm, rfl⟩
  case substitute ha hw hp hn hok =>
    have ⟨holder, s', hm, hc, hany⟩ := substitute_confined h hw hp hok (readEdit_fits hn)
    have hh := h.holderOf_of_mem_children hw hp
    refine ⟨holder, s', hm, replace_decided h ha hn hh hc ?_ ?_⟩
    all_goals rw [hany]
    · exact fun err hx => Fails.next hok <| Fails.ask hx
    · exact fun hx => Gives.ask hok <| Gives.ask hx ⟨holder, s', hm, rfl⟩

theorem Decided.excluded_iff (hd : Decided s c e s') :
    e.Excluded s ↔ (∃ d, s.blockedBy? c = some d) ∧ s'.Restricted c := by
  constructor
  · rintro ⟨c', d, t, he⟩
    cases hx : s.checkExclusive c (s'.root c).isAny
    case error =>
      obtain ⟨hany, d, hb, -⟩ := checkExclusive_eq_error_iff.mp hx
      exact ⟨⟨d, hb⟩, hany⟩
    case ok =>
      have ⟨receipt, hr⟩ := hd.made hx
      cases hr.symm.trans he
  · rintro ⟨⟨d, hb⟩, hany⟩
    exact ⟨c, d, s, hd.refused _ <| checkExclusive_eq_error_iff.mpr ⟨hany, d, hb, rfl⟩⟩

-- An edit that is refused for the sake of the other day says so.
theorem Decided.eq_exclusive (hd : Decided s c e s') (hx : e.Excluded s) :
    ∃ d, c.Rivals d ∧ s.Restricted d ∧ s'.Restricted c ∧ e.run s = .error (.exclusive c d) s := by
  obtain ⟨⟨d, hb⟩, hany⟩ := hd.excluded_iff.mp hx
  obtain ⟨hday, hd'⟩ := blockedBy?_eq_some_iff.mp hb
  exact ⟨d, hday, hd', hany,
    hd.refused _ <| checkExclusive_eq_error_iff.mpr ⟨hany, d, hb, rfl⟩⟩

theorem Decided.exists_receipt (hd : Decided s c e s') (hn : ¬e.Excluded s) :
    ∃ receipt, e.run s = .ok receipt s' := by
  refine hd.made ?_
  cases hx : s.checkExclusive c (s'.root c).isAny
  case ok => rfl
  case error =>
    obtain ⟨hany, d, hb, -⟩ := checkExclusive_eq_error_iff.mp hx
    exact absurd (hd.excluded_iff.mpr ⟨⟨d, hb⟩, hany⟩) hn

-- Where something is to be written, the place is found and the text is read, or either is refused.
theorem Sound.exists_read (h : s.Sound) (id : Int) (text : Codes) :
    (∃ c p new, s.Addresses id c p ∧ s.readEdit c text = .ok new) ∨
    s.resolve id = .error (.unknownPart id) ∨
    ∃ c p r, s.resolve id = .ok (c, p) ∧ s.readEdit c text = .error (.refused r) := by
  by_cases ha : ∃ c p, s.Addresses id c p
  case neg => exact .inr <| .inl <| h.resolve_eq_error fun c p hp => ha ⟨c, p, hp⟩
  obtain ⟨c, p, ha⟩ := ha
  cases hn : s.readEdit c text
  case ok new => exact .inl ⟨c, p, new, ha, hn⟩
  case error =>
    obtain ⟨r, rfl⟩ := readEdit_eq_error hn
    exact .inr <| .inr ⟨c, p, r, h.resolve_eq_ok_iff.mpr ha, hn⟩

-- An edit that is about no change fails, though not for the sake of the other day, or removes.
theorem Sound.exists_change (h : s.Sound) (e : Edit) :
    (∃ c m, Change s c e m) ∨ (∃ err, e.run s = .error err s ∧ ∀ c d, err ≠ .exclusive c d) ∨
      ∃ id, e = .remove id := by
  cases e
  case remove id => exact .inr <| .inr ⟨id, rfl⟩
  case add id text =>
    rcases h.exists_read id text with ⟨c, p, new, ha, hn⟩ | hr | ⟨c, p, r, hr, hn⟩
    · exact .inl ⟨c, _, .graft ha hn⟩
    · exact .inr <| .inl ⟨_, Fails.ask hr, nofun⟩
    · exact .inr <| .inl ⟨_, Fails.next hr <| Fails.ask hn, nofun⟩
  case replace id text =>
    rcases h.exists_read id text with ⟨c, p, new, ha, hn⟩ | hr | ⟨c, p, r, hr, hn⟩
    · rcases Expr.eq_or_mem_children_of_mem_preorder ha.mem with rfl | ⟨whole, hw, hm⟩
      · exact .inl ⟨c, _, .replant ha hn⟩
      · cases hok : checkFits p whole new text
        case ok => exact .inl ⟨c, _, .substitute ha hw hm hn hok⟩
        case error =>
          obtain ⟨r, rfl⟩ := checkFits_eq_error hok
          have hf : (replaceBelow c p new text (.part whole)).Fails s (.refused r) := Fails.ask hok
          exact .inr <| .inl ⟨_, Fails.next (h.resolve_eq_ok_iff.mpr ha) <| Fails.next hn <|
            Fails.next (h.holderOf_of_mem_children hw hm) hf.bind, nofun⟩
    · exact .inr <| .inl ⟨_, Fails.ask hr, nofun⟩
    · exact .inr <| .inl ⟨_, Fails.next hr <| Fails.ask hn, nofun⟩

theorem remove_fails (hr : s.resolve id = .error err) : (remove id).Fails s err := by
  refine Fails.next rfl ?_
  cases s.registry.rows.length <;> exact removeWithin.eq_def .. ▸ Fails.ask hr

theorem Sound.remove_outcome (h : s.Sound) (id : Int) :
    (remove id).Fails s (.unknownPart id) ∨ ∃ c, (remove id).Gives s fun _ s' =>
      Confined s c s' ∧ ((s.root c).isAny → (s'.root c).isAny) := by
  by_cases ha : ∃ c p, s.Addresses id c p
  case pos =>
    obtain ⟨c, p, ha⟩ := ha
    exact .inr ⟨c, remove_gives h ha⟩
  case neg =>
    exact .inl <| remove_fails <| h.resolve_eq_error fun c p hp => ha ⟨c, p, hp⟩

theorem Sound.not_excluded_remove (h : s.Sound) (id : Int) : ¬(Edit.remove id).Excluded s := by
  rintro ⟨c, d, s', he⟩
  rcases h.remove_outcome id with hf | ⟨c, receipt, s', hg, -⟩
  · cases hf.symm.trans he
  · cases hg.symm.trans he

section BothDays

theorem Confined.bothDays (hc : Confined s c s') (hm : s'.Restricted c → s.Restricted c)
    (hb : s'.BothDays) : s.BothDays := by
  have hback (d) (hd : s'.Restricted d) : s.Restricted d := by
    by_cases he : d = c
    case pos => exact he ▸ hm (he ▸ hd)
    case neg => rwa [Restricted, ← hc.others d he]
  exact ⟨hback _ hb.1, hback _ hb.2⟩

-- A change that is made restricts no day while the other one is restricted.
theorem Decided.bothDays (hd : Decided s c e s') (hn : ¬e.Excluded s) (hb : s'.BothDays) :
    s.BothDays := by
  have hback (d) (hne : d ≠ c) (hr : s'.Restricted d) : s.Restricted d := by
    rwa [Restricted, ← hd.confined.others d hne]
  by_cases hday : ∃ d, c.Rivals d
  case pos =>
    obtain ⟨d, hday⟩ := hday
    have hcd : s'.Restricted c ∧ s'.Restricted d := by
      rcases hday with ⟨rfl, rfl⟩ | ⟨rfl, rfl⟩
      · exact hb
      · exact hb.symm
    have hblock := blockedBy?_eq_some_iff.mpr ⟨hday, hback d hday.ne hcd.2⟩
    exact absurd (hd.excluded_iff.mpr ⟨⟨d, hblock⟩, hcd.1⟩) hn
  case neg =>
    have hm : Column.dayOfMonth ≠ c := fun he => hday ⟨.dayOfWeek, .inl ⟨he.symm, rfl⟩⟩
    have hw : Column.dayOfWeek ≠ c := fun he => hday ⟨.dayOfMonth, .inr ⟨he.symm, rfl⟩⟩
    exact ⟨hback _ hm hb.1, hback _ hw hb.2⟩

theorem after_of_error (he : e.run s = .error err s') : s.after e = s' := by rw [after, he]

theorem after_of_ok {receipt : Receipt} (he : e.run s = .ok receipt s') : s.after e = s' := by
  rw [after, he]

-- No edit restricts both days.
theorem Sound.bothDays_of_after (h : s.Sound) (e : Edit) (hb : (s.after e).BothDays) :
    s.BothDays := by
  rcases h.exists_change e with ⟨c, m, hc⟩ | ⟨err, he, -⟩ | ⟨id, rfl⟩
  · obtain ⟨_, s', -, hd⟩ := hc.decided h
    by_cases hx : e.Excluded s
    case pos =>
      obtain ⟨d, -, -, -, he⟩ := hd.eq_exclusive hx
      exact after_of_error he ▸ hb
    case neg =>
      obtain ⟨receipt, he⟩ := hd.exists_receipt hx
      exact hd.bothDays hx (after_of_ok he ▸ hb)
  · exact after_of_error he ▸ hb
  · rcases h.remove_outcome id with hf | ⟨c, receipt, s', hg, hc, hany⟩
    · exact after_of_error (e := .remove id) hf ▸ hb
    · refine hc.bothDays (fun hr => ?_) (after_of_ok (e := .remove id) hg ▸ hb)
      exact Bool.eq_false_iff.mpr fun ha => Bool.eq_false_iff.mp hr (hany ha)

end BothDays

end Schedule

-- An edit that could be made is refused for the sake of the other day if and only if it would
-- restrict a day while the other one is restricted, which is what the hint for its column says.
-- Nothing is ever refused for this reason when it is removed. Both days are restricted at the same
-- time only in a schedule that began that way.
theorem day_exclusivity :
    (∀ s, Reachable s → ∀ c e m, Change s c e m → m.Gives s fun _ s' =>
      (e.Excluded s ↔ ∃ d, c.Rivals d ∧ s'.Restricted c ∧ s.Restricted d) ∧
      (e.Excluded s ↔ (∃ d, s.blockedBy? c = some d) ∧ s'.Restricted c) ∧
      (¬e.Excluded s → ∃ receipt, e.run s = .ok receipt s')) ∧
    (∀ s, Reachable s → ∀ id, ¬(Edit.remove id).Excluded s) ∧
    ∀ s, Reachable s → ¬s.BothDays → ∀ edits : List Edit,
      ¬(edits.foldl Schedule.after s).BothDays := by
  refine ⟨fun s h c e m hc => ?_, fun s h id => h.sound.not_excluded_remove id, ?_⟩
  · refine (hc.decided h.sound).imp fun _ s' hd => ⟨?_, hd.excluded_iff, hd.exists_receipt⟩
    rw [hd.excluded_iff]
    simp only [blockedBy?_eq_some_iff]
    constructor
    · rintro ⟨⟨d, hday, hd⟩, hr⟩
      exact ⟨d, hday, hr, hd⟩
    · rintro ⟨d, hday, hr, hd⟩
      exact ⟨⟨d, hday, hd⟩, hr⟩
  · intro s h hn edits
    induction edits generalizing s
    case nil => exact hn
    case cons e edits hi =>
      exact hi _ (h.edited e) fun hb => hn <| h.sound.bothDays_of_after e hb

theorem day_exclusivity_beside_day :
    let s := (unrestricted ⟨.unix, 2024, 100, 900⟩).after (.add 3 "5")
    (Edit.replace 5 "1").Excluded s ∧ ¬s.BothDays ∧ ¬(s.after <| .replace 5 "1").BothDays := by
  intro s
  have h : Reachable s :=
    (Reachable.unrestricted (l := ⟨.unix, 2024, 100, 900⟩) (by decide)).edited _
  have hn : s.readEdit .dayOfWeek "1" = .ok (.value () 1) := rfl
  have hc : Change s .dayOfWeek (.replace 5 "1") _ := .replant (.inl ⟨rfl, rfl⟩) hn
  obtain ⟨holder, s', hm, hx, -⟩ := day_exclusivity.1 s h _ _ _ hc
  cases hm
  have hfree : ¬s.BothDays := fun hb => nomatch hb.2
  refine ⟨hx.mpr ⟨.dayOfMonth, .inr ⟨rfl, rfl⟩, rfl, rfl⟩, hfree, ?_⟩
  exact day_exclusivity.2.2 s h hfree [.replace 5 "1"]

end Cron
