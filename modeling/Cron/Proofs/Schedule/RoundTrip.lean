import Cron.Proofs.Expr.Printing
import Cron.Proofs.Schedule.Erasure
import Cron.Proofs.Schedule.Reachable
import Cron.Proofs.Text.Lower

namespace Cron

open Schedule

variable {s s' : Schedule} {l l' : Layout} {c : Column} {cs : List Column} {x : Char}

section Columns

-- The characters beside digits in the text of a column.
def columnMarks : List Char := ['*', '-', '/', ',', '?']

theorem mem_columnText (h : (s.root c).Fits l c .root) (hx : x ∈ s.columnText c) :
    Text.isAsciiDigit x ∨ x ∈ columnMarks := by
  dsimp only [columnText] at hx
  split at hx
  case isTrue =>
    rw [List.mem_singleton] at hx
    exact .inr <| by simp [hx, columnMarks]
  case isFalse =>
    exact (h.mem_cron hx).imp_right fun hx => (by decide : Position.root.marks ⊆ columnMarks) hx

theorem columnText_ne_nil (h : (s.root c).Fits l c .root) : s.columnText c ≠ [] := by
  dsimp only [columnText]
  split
  case isTrue   => exact List.cons_ne_nil _ _
  case isFalse  => exact h.cron_ne_nil

-- The text of a column reads back, be it that the column is left open.
theorem readShape_columnText (h : (s.root c).Fits l c .root) :
    l.readShape c (.ofChars (s.columnText c)) = .ok (s.root c).shape := by
  dsimp only [columnText]
  split
  case isTrue ha =>
    rw [Bool.and_eq_true, Bool.and_eq_true] at ha
    have ⟨t, ht⟩ : ∃ t, s.root c = .any t := by
      have hk : (s.root c).kind = .any := by simpa [Expr.isAny] using ha.1.1
      cases he : s.root c <;> simp_all [Expr.kind]
    rw [ht]
    rfl
  case isFalse => exact Layout.readShape_cron h

end Columns

section Lines

theorem isBlank_of_mark (h : Text.isAsciiDigit x ∨ x ∈ columnMarks) : Text.isBlank x = false := by
  rcases h with h | h
  · exact Text.isBlank_eq_false h
  · have hm : ∀ x ∈ columnMarks, Text.isBlank x = false := by simp [columnMarks, Text.isBlank]
    exact hm x h

theorem isSmall_of_mark (h : Text.isAsciiDigit x ∨ x ∈ ' ' :: columnMarks) : Text.IsSmall x := by
  rcases h with h | h
  · have := Text.isAsciiDigit_iff.mp h
    exact .inl <| by omega
  · have hm : ∀ x ∈ ' ' :: columnMarks, Text.IsSmall x := by simp [columnMarks, Text.IsSmall]
    exact hm x h

-- All names for schedules contain a character that their texts do not.
theorem lookup_aliases_eq_none {t : List Char} (h : '@' ∉ t) :
    aliases.lookup (String.ofList t) = none := by
  have ha : ∀ p ∈ aliases, '@' ∈ p.1.toList := by decide
  rw [List.lookup_eq_none_iff]
  intro p hp
  rw [bne_iff_ne]
  intro he
  have := ha p hp
  rw [← he, String.toList_ofList] at this
  exact h this

-- The columns of a text, with an alias replaced by what it stands for.
def columnTexts (text : Codes) : List Codes :=
  ((text.word?.bind (aliases.lookup ·)).elim text Codes.ofString).words

theorem splitColumns_eq (text : Codes) :
    splitColumns text =
      if 5 ≤ (columnTexts text).length ∧ (columnTexts text).length ≤ 6 then .ok (columnTexts text)
      else .error ⟨.columnCount (columnTexts text).length, text, -1⟩ := by
  rw [columnTexts, splitColumns]
  cases text.word?.bind (aliases.lookup ·) <;> rfl

-- Columns between blanks are cut apart again.
theorem columnTexts_joinWith {ts : List (List Char)}
    (h : ∀ t ∈ ts, t ≠ [] ∧ ∀ x ∈ t, Text.isAsciiDigit x ∨ x ∈ columnMarks) :
    columnTexts (.ofChars (Text.joinWith [' '] ts)) = ts.map Codes.ofChars := by
  have hmem (x : Char) (hx : x ∈ Text.joinWith [' '] ts) :
      Text.isAsciiDigit x ∨ x ∈ ' ' :: columnMarks := by
    rcases Text.mem_joinWith hx with hx | ⟨t, ht, hx⟩
    · exact .inr <| by simp_all
    · exact ((h t ht).2 x hx).imp_right <| List.mem_cons_of_mem _
  have hat : '@' ∉ Text.trim (Text.joinWith [' '] ts) := fun hx => by
    have hm : ¬(Text.isAsciiDigit '@' ∨ '@' ∈ ' ' :: columnMarks) := by decide
    exact hm <| hmem _ <| Text.mem_of_mem_trimWhile hx
  rw [columnTexts, Codes.word?_ofChars fun x hx => isSmall_of_mark (hmem x hx), Option.bind_some,
    lookup_aliases_eq_none hat, Option.elim_none, Codes.words_ofChars,
    Text.runs_joinWith (by decide)]
  exact fun t ht => ⟨(h t ht).1, fun x hx => isBlank_of_mark <| (h t ht).2 x hx⟩

theorem cron_toList (s : Schedule) :
    s.cron.toList = Text.joinWith [' '] (Column.all.map s.columnText) := by
  simp [cron]

theorem columnTexts_cron (h : ∀ c, (s.root c).Fits l c .root) :
    columnTexts (.ofString s.cron) = Column.all.map fun c => .ofChars (s.columnText c) := by
  rw [Codes.ofString, cron_toList, columnTexts_joinWith, List.map_map]
  · rfl
  · intro t ht
    obtain ⟨c, -, rfl⟩ := List.mem_map.mp ht
    exact ⟨columnText_ne_nil (h c), fun x hx => mem_columnText (h c) hx⟩

theorem splitColumns_cron (h : ∀ c, (s.root c).Fits l c .root) :
    splitColumns (.ofString s.cron) = .ok (Column.all.map fun c => .ofChars (s.columnText c)) := by
  rw [splitColumns_eq, columnTexts_cron h]
  rfl

theorem readFrom_map {texts : Column → Codes} {shapes : Column → Shape}
    (h : ∀ c, l.readShape c (texts c) = .ok (shapes c)) :
    l.readFrom cs (cs.map texts) = .ok (cs.map shapes) := by
  induction cs
  case nil => rfl
  case cons c cs hi =>
    rw [List.map_cons, Layout.readFrom, Layout.read, h c, hi]
    rfl

-- The text of a schedule reads back as its columns, whatever years it is read for.
theorem readColumns_cron (h : ∀ c, (s.root c).Fits l c .root) :
    l.readColumns (.ofString s.cron) = .ok s.shapes := by
  have hr : l.readFrom Column.all (Column.all.map fun c => .ofChars (s.columnText c)) =
      .ok (Column.all.map fun c => (s.root c).shape) :=
    readFrom_map fun c => readShape_columnText (h c)
  rw [Layout.readColumns, splitColumns_cron h]
  simp only [bind, Except.bind, hr]
  refine congrArg Except.ok <| congrArg Columns.of <| funext fun c => ?_
  cases c <;> rfl

end Lines

section Layouts

theorem Layout.Takes.of_dialect_eq {n : Int} (hd : l.dialect = l'.dialect) (h : l.Takes c n) :
    l'.Takes c n := by
  have hs : l.sunday = l'.sunday := by rw [sunday, hd, sunday]
  cases c
  case dayOfWeek =>
    have h : l.sunday ≤ n ∧ n ≤ 6 + l.sunday := h
    rwa [hs] at h
  all_goals exact h

-- Which trees a column can have depends on the dialect alone.
theorem Expr.Fits.of_dialect_eq {ι : Type} {e : Expr ι} {pos : Position}
    (hd : l.dialect = l'.dialect) (h : e.Fits l c pos) : e.Fits l' c pos :=
  h.of_takes fun _ => .of_dialect_eq hd

end Layouts

namespace Schedule

-- The text of a schedule reads back as a schedule of the same structure and text, which says the
-- same about every instant. So, in one dialect, schedules with the same text have one structure.
theorem cron_round_trip :
    (∀ s, Reachable s → ∃ s', read s.layout (.ofString s.cron) = .ok s' ∧
      s'.shapes = s.shapes ∧ s'.cron = s.cron ∧
      ∀ t, s'.next? t = s.next? t ∧ s'.matches? t = s.matches? t) ∧
    ∀ s s', Reachable s → Reachable s' → s.layout.dialect = s'.layout.dialect →
      s.cron = s'.cron → s.shapes = s'.shapes := by
  constructor
  · intro s h
    have hl := layout_ofShapes s.layout s.shapes
    have hs := shapes_ofShapes s.layout s.shapes
    refine ⟨ofShapes s.layout s.shapes, ?_, hs, cron_congr (congrArg _ hl) hs, fun t => ?_⟩
    · rw [read, readColumns_cron fun c => (h.sound.proper c).fits]
      rfl
    · exact ⟨next?_congr hl hs, matches?_congr hl hs⟩
  · intro s s' h h' hd hc
    have hr : s'.layout.readColumns (.ofString s.cron) = .ok s.shapes :=
      readColumns_cron fun c => (h.sound.proper c).fits.of_dialect_eq hd
    have hr' : s'.layout.readColumns (.ofString s'.cron) = .ok s'.shapes :=
      readColumns_cron fun c => (h'.sound.proper c).fits
    rw [← hc] at hr'
    exact Except.ok.inj <| hr.symm.trans hr'

theorem cron_round_trip_of_open_day :
    let s := (unrestricted ⟨.quartz, 2024, 100, 900⟩).after (.add 5 "MON-FRI,7")
    let s' := (unrestricted ⟨.quartz, 1999, 5, 900⟩).after (.replace 5 "mon-fri,SAT")
    (∃ s'', read s.layout (.ofString "* * ? * 2-6,7 *") = .ok s'' ∧ s''.shapes = s.shapes ∧
      s''.cron = "* * ? * 2-6,7 *" ∧
      ∀ t, s''.next? t = s.next? t ∧ s''.matches? t = s.matches? t) ∧ s.shapes = s'.shapes := by
  intro s s'
  have h : Reachable s := .edited _ <| .unrestricted (by decide)
  have h' : Reachable s' := .edited _ <| .unrestricted (by decide)
  have hc : s.cron = "* * ? * 2-6,7 *" := rfl
  have hc' : s'.cron = "* * ? * 2-6,7 *" := rfl
  have hr := cron_round_trip.1 s h
  rw [hc] at hr
  exact ⟨hr, cron_round_trip.2 s s' h h' rfl (hc.trans hc'.symm)⟩

end Schedule

end Cron
