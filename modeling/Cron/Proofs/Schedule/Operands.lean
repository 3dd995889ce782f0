import Cron.Proofs.Expr.Margins
import Cron.Proofs.Schedule.Replacing

-- Replacing an end of a range or an operand of a step: the text of the column with the new text in
-- the place of the old one is read as what stands there afterwards. Widths are the exception: a
-- replaced one is read as any value is, with white space, names and bounds, whereas the width of a
-- text is a positive numeral. What is taken as a width without being one makes the text malformed.

namespace Cron

open Schedule EditM

variable {l : Layout} {s s' : Schedule} {c : Column} {part whole : Part} {r : Relation}
variable {text : Codes} {new : Shape} {path : List Nat} {left right : List Part} {n : Int}

namespace Layout

theorem WritesInteger.admits (h : l.WritesInteger c text n) (pos : Position) : pos.Admits text := by
  have hm : ∀ x ∈ ['-', '/', ','], x ∈ marks := by simp [marks]
  exact fun x hx _ => h.not_mem <| hm x hx

theorem WritesBase.admits (h : l.WritesBase c text new) : Position.base.Admits text := by
  intro x hx hp
  refine h.not_mem ?_
  simp only [List.mem_cons, List.not_mem_nil, or_false] at hx
  rcases hx with rfl | hx
  · exact absurd (by decide) hp
  · exact hx

theorem Writes.of_kind_ne (h : l.Writes c text new) (hs : new.kind ≠ .step)
    (hl : new.kind ≠ .list) : l.WritesBase c text new := by
  rcases h with (h | _) | _
  · exact h
  · exact absurd rfl hs
  · exact absurd rfl hl

theorem Writes.of_isValue (h : l.Writes c text new) (hv : new.isValue) :
    ∃ n, l.WritesInteger c text n ∧ new = .value () (l.bound c n) := by
  have hk : new.kind = .value := beq_iff_eq.mp hv
  exact (h.of_kind_ne (by simp [hk]) (by simp [hk])).of_isValue hv

-- The text of a width is also the text of the same value.
theorem WritesWidth.writes (h : l.WritesWidth c text new) : l.Writes c text new := by
  obtain @⟨s, ht, hd, -⟩ := h
  have hdigits := (Text.isNumeral_iff.mp hd).2
  have hcapital := Text.map_capital_of_isAsciiDigit hdigits
  have htrim : text.trim = .ofChars s := by
    rw [ht, Codes.trim_ofChars, Text.trim_of_isAsciiDigit hdigits]
  have hi : l.WritesInteger c text (Text.digitsValue (s.map capital)) :=
    .numeral htrim <| hcapital.symm ▸ hd
  rw [hcapital] at hi
  exact .token <| .base <| .single <| .value hi

end Layout

-- Members stand in lists only.
theorem Expr.kind_of_member {ι : Type} {e : Expr ι} {i : Nat} (h : e.relation? i = some .member) :
    e.kind = .list := by
  cases e
  case list => rfl
  all_goals rcases i with _ | _ | i <;> cases h

namespace Schedule

-- What the check of a replacement lets through stands in the grammar of its place, but for widths.
theorem writesAt_of_checkFits (hw : l.Writes c text new) (hr : part.relationTo? whole = some r)
    (hne : r ≠ .member) (hok : checkFits part whole new text = .ok ()) :
    r.position.Admits text ∧ (r = .step ∨ l.WritesAt c r.position text new) := by
  have hvalue (hv : new.isValue) (pos : Position) :
      pos.Admits text ∧ l.WritesAt c .endpoint text new := by
    obtain ⟨n, hn, rfl⟩ := hw.of_isValue hv
    exact ⟨hn.admits pos, hv, .value hn⟩
  rw [checkFits, hr] at hok
  cases r
  all_goals dsimp only at hok
  case member => exact absurd rfl hne
  case lower =>
    split at hok
    case isTrue hv  => exact (hvalue hv _).imp_right .inr
    case isFalse    => cases hok
  case upper =>
    split at hok
    case isTrue hv  => exact (hvalue hv _).imp_right .inr
    case isFalse    => cases hok
  case step =>
    split at hok
    case isTrue hv  => exact ⟨(hvalue (Bool.and_eq_true_iff.mp hv).1 _).1, .inl rfl⟩
    case isFalse    => cases hok
  case base =>
    have hk : new.kind ≠ .step ∧ new.kind ≠ .list := by
      constructor <;> exact fun hk => by simp [hk] at hok
    have hb := hw.of_kind_ne hk.1 hk.2
    exact ⟨hb.admits, .inr hb⟩

-- A text is put in the place of a width that it does not write.
def Misread (s : Schedule) (c : Column) (part whole : Part) (text : Codes) : Prop :=
  part.relationTo? whole = some .step ∧ ∀ w, ¬s.layout.WritesWidth c text w

theorem read_of_checkFits (h : s.Sound) (hpath : (s.root c).get? path = some whole)
    (hc : whole.children = left ++ part :: right) (hk : whole.kind = .range ∨ whole.kind = .step)
    (hn : s.readEdit c text = .ok new) (hok : checkFits part whole new text = .ok ()) :
    let written := (s.root c).cronWith text (path ++ [left.length])
    (¬s.Misread c part whole text → s.layout.read c written (-1) =
      .ok ((s.root c).shape.replaceAt new (path ++ [left.length]))) ∧
    (s.Misread c part whole text →
      ∃ err, s.layout.read c written (-1) = .error err ∧ err.isMalformed) := by
  intro written
  have hw := Expr.mem_preorder_of_get? hpath
  have hf := (h.proper c).fits
  obtain ⟨pos, hfw⟩ := hf.exists_of_mem hw
  obtain ⟨r, hr, -⟩ := hfw.exists_relation hc
  have hne : r ≠ .member := by
    rintro rfl
    rw [Expr.kind_of_member hr] at hk
    simp at hk
  have hrel : part.relationTo? whole = some r := by
    rw [Expr.relationTo?, Expr.position?_of_nodup (h.nodup_keys_of_mem hw) hc, Option.bind_some, hr]
  obtain ⟨hwrites, hshort⟩ := Layout.of_read_eq_ok <| Except.mapError_eq_ok_iff.mp hn
  obtain ⟨hadm, hat⟩ := writesAt_of_checkFits ((hwrites new).mpr rfl) hrel hne hok
  obtain ⟨hread, hmalformed⟩ := hf.read_cronWith hpath hc hr hadm hshort (-1)
  constructor
  · intro hm
    refine hread new <| hat.elim (fun he => ?_) id
    subst he
    obtain ⟨w, hww⟩ := not_forall_not.mp fun hn => hm ⟨hrel, hn⟩
    exact (hwrites w).mp hww.writes ▸ hww
  · rintro ⟨hstep, hn⟩
    cases hrel.symm.trans hstep
    exact hmalformed id hn

end Schedule

-- A replaced end of a range or operand of a step, put into the text of the column as it is written,
-- reads as what stands in the column afterwards, unless it is a width that no text has.
theorem operands_read_in_place :
    ∀ s, Reachable s → ∀ id text receipt s', (Edit.replace id text).run s = .ok receipt s' →
      ∀ c part, s.Addresses id c part → ∀ whole ∈ (s.root c).preorder, part ∈ whole.children →
        whole.kind = .range ∨ whole.kind = .step →
          ∃ path, (s.root c).get? path = some part ∧
            (s.root c).cronWith part.cronCodes path = (s.root c).cronCodes ∧
            let written := (s.root c).cronWith text path
            (¬s.Misread c part whole text →
              s.layout.read c written (-1) = .ok (s'.root c).shape) ∧
            (s.Misread c part whole text →
              ∃ err, s.layout.read c written (-1) = .error err ∧ err.isMalformed) := by
  intro s h id text receipt s' he c part ha whole hw hm hk
  obtain ⟨d, m, holder, hc, hrun, -⟩ := replace_eq_ok h.sound he
  have hconf := ((hc.decided h.sound).of_eq hrun).confined
  have hholder := h.sound.holderOf_of_mem_children hw hm
  have hr := h.sound.resolve_eq_ok_iff.mpr ha
  cases hc
  case replant ha' hn =>
    cases hr.symm.trans <| h.sound.resolve_eq_ok_iff.mpr ha'
    cases (h.sound.holderOf_root c).symm.trans hholder
  case substitute hw' hm' ha' hn hok =>
    cases hr.symm.trans <| h.sound.resolve_eq_ok_iff.mpr ha'
    cases (h.sound.holderOf_of_mem_children hw' hm').symm.trans hholder
    obtain ⟨path, hpath⟩ := Expr.exists_get? hw
    obtain ⟨i, hp⟩ := substitute_placed h.sound hpath hm hok <| readEdit_fits hn
    have hreplaced := (hp.of_eq hrun).replaced h.sound hconf
    have hplace := hreplaced.place
    rw [Expr.get?_append hpath] at hplace
    obtain ⟨_, hi, hpart⟩ := Expr.get?_cons_eq_some hplace
    cases hpart
    obtain ⟨left, right, hc, rfl⟩ := Expr.exists_children_eq hi
    refine ⟨path ++ [left.length], hreplaced.place, Expr.cronWith_cron hreplaced.place, ?_⟩
    rw [hreplaced.shape]
    exact read_of_checkFits h.sound hpath hc hk hn hok

theorem operands_read_in_place_of_month :
    let s := (unrestricted ⟨.unix, 2024, 100, 900⟩).after (.add 4 "2-6/2")
    ∃ receipt s' part whole, (Edit.replace 15 " jan ").run s = .ok receipt s' ∧
      s.Addresses 15 .month part ∧ whole ∈ (s.root .month).preorder ∧ part ∈ whole.children ∧
      whole.kind = .range ∧ ∃ path, (s.root .month).get? path = some part ∧
        (s.root .month).cronWith part.cronCodes path = (s.root .month).cronCodes ∧
        let written := (s.root .month).cronWith " jan " path
        (¬s.Misread .month part whole " jan " →
          s.layout.read .month written (-1) = .ok (s'.root .month).shape) ∧
        (s.Misread .month part whole " jan " →
          ∃ err, s.layout.read .month written (-1) = .error err ∧ err.isMalformed) := by
  intro s
  have h : Reachable s :=
    (Reachable.unrestricted (l := ⟨.unix, 2024, 100, 900⟩) (by decide)).edited _
  obtain ⟨whole, part, hi, hk, hr, hj, hok⟩ : ∃ whole part,
      (s.root .month).children[0]? = some whole ∧ whole.kind = .range ∧
        s.resolve 15 = .ok (.month, part) ∧ whole.children[0]? = some part ∧
          checkFits part whole (.value () 1) " jan " = .ok () := ⟨_, _, rfl, rfl, rfl, rfl, rfl⟩
  have hn : s.readEdit .month " jan " = .ok (.value () 1) := rfl
  have ha := h.sound.resolve_eq_ok_iff.mp hr
  have hw := Expr.mem_preorder_of_mem_children (List.mem_of_getElem? hi) <| Expr.mem_preorder_self _
  have hm := List.mem_of_getElem? hj
  obtain ⟨_, s', -, hd⟩ := (Change.substitute ha hw hm hn hok).decided h.sound
  obtain ⟨receipt, he⟩ := hd.made <| by cases (s'.root .month).isAny <;> rfl
  exact ⟨receipt, s', part, whole, he, ha, hw, hm, hk,
    operands_read_in_place s h _ _ _ _ he _ _ ha whole hw hm (.inl hk)⟩

-- A width is replaced by zero, which is raised to the first day; but no text has a width of zero.
theorem zero_taken_as_width :
    ∃ s, Reachable s ∧ Schedule.read? ⟨.unix, 2024, 100, 900⟩ (some "0 0 */2 * *") = .ok s ∧
      ∃ part receipt s', s.Addresses 11 .dayOfMonth part ∧
        part.relationTo? (s.root .dayOfMonth) = some .step ∧
        (s.root .dayOfMonth).get? [1] = some part ∧
        (Edit.replace 11 "0").run s = .ok receipt s' ∧
        (s'.root .dayOfMonth).cron = ['*', '/', '1'] ∧
        s.layout.read .dayOfMonth ((s.root .dayOfMonth).cronWith "0" [1]) (-1) =
          .error ⟨.stepOfZero 0, "*/0", -1⟩ := by
  obtain ⟨s, hs⟩ : ∃ s, Schedule.read? ⟨.unix, 2024, 100, 900⟩ (some "0 0 */2 * *") = .ok s :=
    ⟨_, rfl⟩
  have h : Reachable s := .opened (by decide) hs
  obtain ⟨part, hr, hget, hrel, hok⟩ : ∃ part, s.resolve 11 = .ok (.dayOfMonth, part) ∧
      (s.root .dayOfMonth).get? [1] = some part ∧
        part.relationTo? (s.root .dayOfMonth) = some .step ∧
          checkFits part (s.root .dayOfMonth) (.value () 1) "0" = .ok () := by
    cases hs
    exact ⟨_, rfl, rfl, rfl, rfl⟩
  have hn : s.readEdit .dayOfMonth "0" = .ok (.value () 1) := by
    cases hs
    rfl
  obtain ⟨_, hi, hp⟩ := Expr.get?_cons_eq_some hget
  cases hp
  have ha := h.sound.resolve_eq_ok_iff.mp hr
  have hc := Change.substitute ha (Expr.mem_preorder_self _) (List.mem_of_getElem? hi) hn hok
  obtain ⟨_, s', hm, hd⟩ := hc.decided h.sound
  obtain ⟨receipt, he⟩ := hd.made <| by
    cases hs
    cases (s'.root .dayOfMonth).isAny <;> rfl
  refine ⟨s, h, hs, part, receipt, s', ha, hrel, hget, he, ?_, ?_⟩
  · cases hs
    cases hr
    cases hm
    rfl
  · cases hs
    rfl

end Cron
