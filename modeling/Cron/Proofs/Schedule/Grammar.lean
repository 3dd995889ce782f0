import Cron.Proofs.Expr.Recognition
import Cron.Proofs.Schedule.RoundTrip

-- The texts of whole schedules: five or six columns, each read on its own. The first column that no
-- expression is written by is the one that is reported.

namespace Cron

variable {l : Layout} {c : Column} {text t : Codes} {texts : List Codes} {err : ReadError}
variable {s : Schedule}

-- The text of a column writes none of its expressions.
structure Layout.Rejects (l : Layout) (texts : List Codes) (c : Column) (text : Codes) : Prop where
  stands : texts[c.index]? = some text
  unwritten : ∀ e, ¬l.Writes c text e

section Columns

-- A run of digits in a column that is too long for a number comes from the text itself.
theorem mem_digitRuns_of_mem_columnTexts {run : List Code} (ht : t ∈ columnTexts text)
    (hr : run ∈ t.digitRuns) (hl : Text.maxDigits < run.length) : run ∈ text.digitRuns := by
  have ha : ∀ p ∈ aliases, (Codes.ofString p.2).ShortRuns := by decide +kernel
  rw [columnTexts] at ht
  cases hn : text.word?.bind (aliases.lookup ·) <;> rw [hn] at ht
  case none =>
    rw [Codes.digitRuns_words]
    exact List.mem_flatMap.mpr ⟨t, ht, hr⟩
  case some columns =>
    obtain ⟨name, -, hlookup⟩ := Option.bind_eq_some_iff.mp hn
    obtain ⟨before, after, he, -⟩ := List.lookup_eq_some_iff.mp hlookup
    have hm : (name, columns) ∈ aliases := he ▸ List.mem_append_right _ List.mem_cons_self
    have hshort := (ha _ hm).of_mem_words ht run hr
    omega

theorem shortRuns_of_mem_columnTexts (h : text.ShortRuns) (ht : t ∈ columnTexts text) :
    t.ShortRuns := by
  intro run hr
  by_contra hl
  have := h run <| mem_digitRuns_of_mem_columnTexts ht hr (by omega)
  omega

theorem getElem?_all {i : Nat} : Column.all[i]? = some c ↔ i = c.index where
  mp h := by
    obtain ⟨hi, rfl⟩ := List.getElem?_eq_some_iff.mp h
    have hi : i < 6 := hi
    interval_cases i <;> rfl
  mpr h := by
    subst h
    cases c <;> rfl

theorem readFrom_eq_mapM (l : Layout) (cs : List Column) (texts : List Codes) :
    l.readFrom cs texts = (cs.zip texts).mapM fun p => l.read p.1 p.2 p.1.index := by
  induction cs generalizing texts
  case nil => rfl
  case cons c cs hi =>
    cases texts
    case nil => rfl
    case cons t texts =>
      rw [Layout.readFrom, hi, List.zip_cons_cons, List.mapM_cons]
      rfl

theorem getElem?_zip_all {i : Nat} {p : Column × Codes} :
    (Column.all.zip texts)[i]? = some p ↔ i = p.1.index ∧ texts[p.1.index]? = some p.2 := by
  rw [List.getElem?_zip_eq_some, getElem?_all]
  exact and_congr_right fun h => by rw [h]

-- The first column that is not read is the one that is reported.
theorem readFrom_eq_error_iff :
    l.readFrom Column.all texts = .error err ↔
      ∃ c t, texts[c.index]? = some t ∧ l.read c t c.index = .error err ∧
        ∀ d u, d.index < c.index → texts[d.index]? = some u → ∃ e, l.read d u d.index = .ok e := by
  rw [readFrom_eq_mapM, Except.mapM_eq_error_iff]
  simp only [getElem?_zip_all, Prod.exists, Prod.forall]
  constructor
  · rintro ⟨_, c, t, ⟨rfl, ht⟩, he, hok⟩
    exact ⟨c, t, ht, he, fun d u hd hu => hok _ hd d u ⟨rfl, hu⟩⟩
  · rintro ⟨c, t, ht, he, hok⟩
    refine ⟨c.index, c, t, ⟨rfl, ht⟩, he, fun j hj d u hu => ?_⟩
    obtain ⟨rfl, hu⟩ := hu
    exact hok d u hj hu

theorem getD_of_readFrom_eq_ok {shapes : List Shape} (h : l.readFrom Column.all texts = .ok shapes)
    (ht : texts[c.index]? = some t) (e : Shape) :
    l.read c t c.index = .ok (shapes.getD c.index e) := by
  rw [readFrom_eq_mapM, Except.mapM_eq_ok_iff] at h
  have hz : (Column.all.zip texts)[c.index]? = some (c, t) := getElem?_zip_all.mpr ⟨rfl, ht⟩
  obtain ⟨hi, hz⟩ := List.getElem?_eq_some_iff.mp hz
  have hs : c.index < shapes.length := h.length_eq ▸ hi
  have hr := h.get hi hs
  simp only [List.get_eq_getElem, hz] at hr
  simpa [hs] using hr

end Columns

namespace Schedule

theorem read_eq_error_iff (hn : 5 ≤ (columnTexts text).length ∧ (columnTexts text).length ≤ 6) :
    read l text = .error err ↔ l.readFrom Column.all (columnTexts text) = .error err := by
  rw [read, Except.map_eq_error_iff, Layout.readColumns, splitColumns_eq, if_pos hn,
    Except.ok_bind, Except.bind_eq_error_iff]
  simp

-- Each column of a schedule is what is read from its text.
theorem read_column (h : read l text = .ok s) (ht : (columnTexts text)[c.index]? = some t) :
    l.read c t c.index = .ok (s.root c).shape := by
  rw [read, Except.map_eq_ok_iff] at h
  obtain ⟨columns, hc, rfl⟩ := h
  simp only [Layout.readColumns, splitColumns_eq, Except.bind_eq_ok_iff] at hc
  obtain ⟨texts, htexts, shapes, hs, hc⟩ := hc
  split at htexts
  case isFalse => cases htexts
  case isTrue =>
    cases htexts
    rw [← get_shapes, shapes_ofShapes, ← Except.ok.inj hc, Columns.get_of]
    exact getD_of_readFrom_eq_ok hs ht _

theorem writes_of_read (h : read l text = .ok s) (ht : (columnTexts text)[c.index]? = some t) :
    l.Writes c t (s.root c).shape :=
  (Layout.of_read_eq_ok <| read_column h ht).1 _ |>.mpr rfl

-- What is reported is the first column that is rejected.
theorem rejects_of_read_eq_error (hs : text.ShortRuns)
    (hn : 5 ≤ (columnTexts text).length ∧ (columnTexts text).length ≤ 6)
    (h : read l text = .error err) :
    ∃ c, l.Rejects (columnTexts text) c err.expression ∧ err.position = c.index ∧
      (err.isMalformed ↔ ¬l.Nests c err.expression) ∧
      (err.reason = .tooDeep ↔ l.Nests c err.expression) ∧
      ∀ d u, l.Rejects (columnTexts text) d u → c.index ≤ d.index := by
  have hshort {i : Nat} {t : Codes} (ht : (columnTexts text)[i]? = some t) : t.ShortRuns :=
    shortRuns_of_mem_columnTexts hs <| List.mem_of_getElem? ht
  obtain ⟨c, t, ht, he, hbefore⟩ := readFrom_eq_error_iff.mp <| (read_eq_error_iff hn).mp h
  obtain ⟨rfl, hp, hw, hm, hd⟩ := Layout.of_read_eq_error_of_shortRuns (hshort ht) he
  refine ⟨c, ⟨ht, hw⟩, hp, hm, hd, fun d u hr => ?_⟩
  by_contra hlt
  obtain ⟨e, he⟩ := hbefore d u (by omega) hr.stands
  exact hr.unwritten e <| (Layout.read_eq_ok_iff <| hshort hr.stands).mp he

-- The text of a column is read if and only if it is in the grammar of columns, and then as the
-- expression that it writes. Any other is malformed, unless it has so many dashes that the reader
-- has no room for it. A text of five or six columns is read if and only if each of them is;
-- otherwise the first that is not is reported, as malformed unless there was no room for it.
theorem reading_decides_grammar (l : Layout) :
    (∀ c (text : Codes), text.points.count (.char '-') ≤ l.room + 1 → ¬l.Nests c text) ∧
    (∀ c (text : Codes) position, text.ShortRuns →
      (∀ e, l.read c text position = .ok e ↔ l.Writes c text e) ∧
      ((∀ e, ¬l.Writes c text e) → ∃ err, l.read c text position = .error err ∧
        err.expression = text ∧ err.position = position ∧
        (err.isMalformed ↔ ¬l.Nests c text) ∧ (err.reason = .tooDeep ↔ l.Nests c text))) ∧
    ∀ text : Codes, text.ShortRuns →
      5 ≤ (columnTexts text).length ∧ (columnTexts text).length ≤ 6 →
      ((∃ err, read l text = .error err) ↔ ∃ c t, l.Rejects (columnTexts text) c t) ∧
      (∀ err, read l text = .error err →
        ∃ c, l.Rejects (columnTexts text) c err.expression ∧ err.position = c.index ∧
          (err.isMalformed ↔ ¬l.Nests c err.expression) ∧
          (err.reason = .tooDeep ↔ l.Nests c err.expression) ∧
          ∀ d u, l.Rejects (columnTexts text) d u → c.index ≤ d.index) ∧
      ∀ s, read l text = .ok s →
        ∀ c t, (columnTexts text)[c.index]? = some t → l.Writes c t (s.root c).shape := by
  refine ⟨fun c text => Layout.not_nests_of_count_le,
    fun c text position hs => ⟨fun e => Layout.read_eq_ok_iff hs, fun hw => ?_⟩,
    fun text hs hn => ?_⟩
  · cases hr : l.read c text position
    case ok e => exact absurd ((Layout.read_eq_ok_iff hs).mp hr) (hw e)
    case error err =>
      obtain ⟨he, hp, -, hm, hd⟩ := Layout.of_read_eq_error_of_shortRuns hs hr
      exact ⟨err, rfl, he, hp, hm, hd⟩
  · have hfirst (err : ReadError) (hr : read l text = .error err) :=
      rejects_of_read_eq_error hs hn hr
    refine ⟨⟨?_, ?_⟩, hfirst, fun s hr c t => writes_of_read hr⟩
    · rintro ⟨err, hr⟩
      obtain ⟨c, hc, -⟩ := hfirst err hr
      exact ⟨c, _, hc⟩
    · rintro ⟨c, t, hc⟩
      cases hr : read l text
      case error err  => exact ⟨err, rfl⟩
      case ok s       => exact absurd (writes_of_read hr hc.stands) <| hc.unwritten _

theorem reading_decides_grammar_beside_mistakes :
    let l : Layout := ⟨.unix, 2024, 100, 900⟩
    let text : Codes := "0 9 x * MON/x"
    l.Writes .dayOfWeek "MON-FRI/2"
      (.step () (.range () (.value () 1) (.value () 5)) (.value () 2)) ∧
    ∃ err, read l text = .error err ∧ err.isMalformed ∧
      ∃ c, l.Rejects (columnTexts text) c err.expression ∧ err.position = c.index ∧
        ∀ d u, l.Rejects (columnTexts text) d u → c.index ≤ d.index := by
  intro l text
  obtain ⟨hroom, hcolumn, htext⟩ := reading_decides_grammar l
  refine ⟨((hcolumn .dayOfWeek "MON-FRI/2" 4 (by decide +kernel)).1 _).mp rfl, ?_⟩
  obtain ⟨-, hfirst, -⟩ := htext text (by decide +kernel) (by decide +kernel)
  have hr : (read l text).toOption.isNone := by decide +kernel
  cases he : read l text
  case ok => simp [he, Except.toOption] at hr
  case error err =>
    obtain ⟨c, hc, hp, hm, -, hleft⟩ := hfirst err he
    have hcount : ∀ t ∈ columnTexts text, t.points.count (.char '-') ≤ l.room + 1 := by
      decide +kernel
    have ht := hcount _ <| List.mem_of_getElem? hc.stands
    exact ⟨err, rfl, hm.mpr <| hroom c _ ht, c, hc, hp, hleft⟩

-- A thousand dashes between ones write nothing, and are not reported as malformed.
theorem reading_gives_up_on_dashes :
    let l : Layout := ⟨.unix, 2024, 100, 900⟩
    let text : Codes := .join (.ofChars ['-']) (List.replicate 1001 (.ofChars ['1']))
    text.ShortRuns ∧ (∀ e, ¬l.Writes .minute text e) ∧
      ∃ err, l.read .minute text (-1) = .error err ∧ err.reason = .tooDeep ∧
        err.isMalformed = false := by
  intro l text
  have hone : l.WritesSingle .minute (.ofChars ['1']) (.value () 1) :=
    .value (n := 1) <| .numeral (s := ['1']) (by decide) (by decide)
  have hshort : text.ShortRuns := by
    refine (Codes.shortRuns_join_iff (by decide)).mpr fun t ht => ?_
    rw [List.eq_of_mem_replicate ht]
    decide
  have hnests : l.Nests .minute text := by
    refine Layout.nests_join ?_ fun t ht => ⟨_, List.eq_of_mem_replicate ht ▸ hone⟩
    rw [List.length_replicate]
    decide
  have hnone (e) : ¬l.Writes .minute text e := fun hw => hw.not_nests hnests
  refine ⟨hshort, hnone, ?_⟩
  cases hr : l.read .minute text (-1)
  case ok e => exact absurd ((Layout.read_eq_ok_iff hshort).mp hr) (hnone e)
  case error err =>
    obtain ⟨-, -, -, hm, hd⟩ := Layout.of_read_eq_error_of_shortRuns hshort hr
    exact ⟨err, rfl, hd.mpr hnests, by simpa [hnests] using hm⟩

end Schedule

end Cron
