import Cron.Proofs.Schedule.Grammar

-- The validators report what reading says, unless a number is too long to be converted, or there is
-- no room to read a column.

namespace Cron

-- How a text fares. In the last two cases it is not judged: a run of its digits is too long, or a
-- column has too many dashes.
inductive Verdict (l : Layout) (text : Codes) : Prop
  | valid {s} (hr : Schedule.read l text = .ok s) (hc : Schedule.complaints l text = .ok [])
    (hv : Schedule.isValid l text = .ok true)
  | malformed {e} (hr : Schedule.read l text = .error e) (hm : e.isMalformed)
    (hc : Schedule.complaints l text = .ok [e.message]) (hv : Schedule.isValid l text = .ok false)
  | overlong {e run} (hr : Schedule.read l text = .error e) (hm : run ∈ text.digitRuns)
    (hl : Text.maxDigits < run.length) (he : e.reason = .tooLong run.length)
    (hc : Schedule.complaints l text = .error e) (hv : Schedule.isValid l text = .error e)
  | nested {e c t} (hr : Schedule.read l text = .error e)
    (ht : (columnTexts text)[c.index]? = some t) (hn : l.Nests c t) (he : e.reason = .tooDeep)
    (hc : Schedule.complaints l text = .error e) (hv : Schedule.isValid l text = .error e)

namespace Schedule

variable {l : Layout} {c : Column} {text t : Codes} {err : ReadError}

theorem of_read_eq_error (h : read l text = .error err) :
    err.isMalformed ∨
      (∃ run ∈ text.digitRuns, Text.maxDigits < run.length ∧ err.reason = .tooLong run.length) ∨
      ∃ c t, (columnTexts text)[c.index]? = some t ∧ l.Nests c t ∧ err.reason = .tooDeep := by
  by_cases hn : 5 ≤ (columnTexts text).length ∧ (columnTexts text).length ≤ 6
  case pos =>
    obtain ⟨c, t, ht, he, -⟩ := readFrom_eq_error_iff.mp <| (read_eq_error_iff hn).mp h
    obtain ⟨-, -, ⟨run, hm, hl, hlong⟩ | ⟨hr, hd⟩ | ⟨hm, -⟩⟩ := Layout.of_read_eq_error he
    · have hmem := List.mem_of_getElem? ht
      exact .inr <| .inl ⟨run, mem_digitRuns_of_mem_columnTexts hmem hm hl, hl, hlong⟩
    · exact .inr <| .inr ⟨c, t, ht, hd, hr⟩
    · exact .inl hm
  case neg =>
    rw [read, Except.map_eq_error_iff, Layout.readColumns, splitColumns_eq, if_neg hn] at h
    cases h
    exact .inl rfl

theorem isMalformed_eq_false_of_tooLong {n : Nat} (h : err.reason = .tooLong n) :
    err.isMalformed = false := by
  rw [ReadError.isMalformed, h, Refusal.isMalformed]

theorem isMalformed_eq_false_of_tooDeep (h : err.reason = .tooDeep) :
    err.isMalformed = false := by
  rw [ReadError.isMalformed, h, Refusal.isMalformed]

theorem complaints_eq_error (hr : read l text = .error err) (hm : err.isMalformed = false) :
    complaints l text = .error err := by
  simp [complaints, hr, hm]

theorem isValid_eq_error (hr : read l text = .error err) (hm : err.isMalformed = false) :
    isValid l text = .error err := by
  simp [isValid, hr, hm]

theorem verdict (l : Layout) (text : Codes) : Verdict l text := by
  cases hr : read l text
  case ok s => exact .valid hr (by rw [complaints, hr]) (by rw [isValid, hr])
  case error err =>
    rcases of_read_eq_error hr with hm | ⟨run, hm, hl, he⟩ | ⟨c, t, ht, hn, he⟩
    · exact .malformed hr hm (by simp [complaints, hr, hm]) (by simp [isValid, hr, hm])
    · have hf := isMalformed_eq_false_of_tooLong he
      exact .overlong hr hm hl he (complaints_eq_error hr hf) (isValid_eq_error hr hf)
    · have hf := isMalformed_eq_false_of_tooDeep he
      exact .nested hr ht hn he (complaints_eq_error hr hf) (isValid_eq_error hr hf)

-- Where the grammar has nothing against a text, a run of digits that is too long is met.
theorem not_isMalformed_of_long
    (hn : 5 ≤ (columnTexts text).length ∧ (columnTexts text).length ≤ 6)
    (hw : ∀ c t, ¬l.Rejects (columnTexts text) c t)
    (hl : ∃ t ∈ columnTexts text, ¬t.ShortRuns) :
    ∃ err, read l text = .error err ∧ err.isMalformed = false := by
  cases hr : read l text
  case ok s =>
    obtain ⟨t, ht, hlong⟩ := hl
    obtain ⟨i, hi, rfl⟩ := List.getElem_of_mem ht
    have hi6 : i < Column.all.length := Nat.lt_of_lt_of_le hi hn.2
    have hc : i = Column.all[i].index := getElem?_all.mp <| List.getElem?_eq_getElem hi6
    have ht : (columnTexts text)[Column.all[i].index]? = some (columnTexts text)[i] := by
      rw [← hc]
      exact List.getElem?_eq_getElem hi
    exact absurd (Layout.of_read_eq_ok <| read_column hr ht).2 hlong
  case error err =>
    refine ⟨err, rfl, ?_⟩
    obtain ⟨c, t, ht, he, -⟩ := readFrom_eq_error_iff.mp <| (read_eq_error_iff hn).mp hr
    obtain ⟨-, -, ⟨run, -, -, hlong⟩ | ⟨hdeep, -⟩ | ⟨-, -, hnone⟩⟩ := Layout.of_read_eq_error he
    · exact isMalformed_eq_false_of_tooLong hlong
    · exact isMalformed_eq_false_of_tooDeep hdeep
    · exact absurd ⟨ht, hnone⟩ (hw c t)

-- Where the first column that the grammar has something against has too many dashes, they are met.
theorem not_isMalformed_of_nests (hs : text.ShortRuns)
    (hn : 5 ≤ (columnTexts text).length ∧ (columnTexts text).length ≤ 6)
    (hc : l.Rejects (columnTexts text) c t)
    (hfirst : ∀ d u, l.Rejects (columnTexts text) d u → c.index ≤ d.index) (hd : l.Nests c t) :
    ∃ err, read l text = .error err ∧ err.isMalformed = false := by
  cases hr : read l text
  case ok s => exact absurd (writes_of_read hr hc.stands) <| hc.unwritten _
  case error err =>
    refine ⟨err, rfl, ?_⟩
    obtain ⟨d, hrejects, -, -, hdeep, hleft⟩ := rejects_of_read_eq_error hs hn hr
    have hi : d.index = c.index := Nat.le_antisymm (hleft c t hc) (hfirst d _ hrejects)
    obtain rfl : c = d :=
      Option.some_inj.mp <| (getElem?_all.mpr hi).symm.trans <| getElem?_all.mpr rfl
    obtain rfl : t = err.expression :=
      Option.some_inj.mp <| hc.stands.symm.trans hrejects.stands
    exact isMalformed_eq_false_of_tooDeep <| hdeep.mpr hd

-- The validators agree with each other and with reading, and both answer on every text without an
-- overlong run of digits and without too many dashes in a column. A text with such a run is left
-- unjudged, unless the grammar has something against it; so is one where the first column that the
-- grammar has something against has too many dashes.
theorem validators_agree (l : Layout) (text : Codes) :
    Verdict l text ∧
    ((complaints l text = .ok [] ↔ isValid l text = .ok true) ∧
      (isValid l text = .ok true ↔ ∃ s, read l text = .ok s)) ∧
    (text.ShortRuns → (∀ c t, (columnTexts text)[c.index]? = some t → ¬l.Nests c t) →
      ((∃ s, read l text = .ok s) ∨ ∃ err, read l text = .error err ∧ err.isMalformed) ∧
      (∃ found, complaints l text = .ok found) ∧ ∃ b, isValid l text = .ok b) ∧
    (5 ≤ (columnTexts text).length ∧ (columnTexts text).length ≤ 6 →
      ((∀ c t, ¬l.Rejects (columnTexts text) c t) → (∃ t ∈ columnTexts text, ¬t.ShortRuns) →
        ∃ err, complaints l text = .error err ∧ isValid l text = .error err) ∧
      (text.ShortRuns → ∀ c t, l.Rejects (columnTexts text) c t →
        (∀ d u, l.Rejects (columnTexts text) d u → c.index ≤ d.index) → l.Nests c t →
        ∃ err, complaints l text = .error err ∧ isValid l text = .error err)) := by
  have hverdict := verdict l text
  refine ⟨hverdict, ?_, fun hs hroom => ?_, fun hn =>
    ⟨fun hw hl => ?_, fun hs c t hc hfirst hd => ?_⟩⟩
  · cases hverdict
    case valid hr hc hv             => simp [hr, hc, hv]
    case malformed hr hm hc hv      => simp [hr, hc, hv]
    case overlong hr _ _ _ hc hv    => simp [hr, hc, hv]
    case nested hr _ _ _ hc hv      => simp [hr, hc, hv]
  · cases hverdict
    case valid s hr hc hv           => exact ⟨.inl ⟨s, hr⟩, ⟨_, hc⟩, _, hv⟩
    case malformed err hr hm hc hv  => exact ⟨.inr ⟨err, hr, hm⟩, ⟨_, hc⟩, _, hv⟩
    case overlong run _ hm hl _ _ _ => exact absurd (hs run hm) (by omega)
    case nested c t _ ht hn _ _ _   => exact absurd hn (hroom c t ht)
  · obtain ⟨err, hr, hm⟩ := not_isMalformed_of_long hn hw hl
    exact ⟨err, complaints_eq_error hr hm, isValid_eq_error hr hm⟩
  · obtain ⟨err, hr, hm⟩ := not_isMalformed_of_nests hs hn hc hfirst hd
    exact ⟨err, complaints_eq_error hr hm, isValid_eq_error hr hm⟩

theorem validators_agree_beside_mistake :
    let l : Layout := ⟨.quartz, 2024, 100, 900⟩
    (∃ found, complaints l "0 ninety ? * MON-FRI" = .ok found) ∧
      ∃ b, isValid l "0 ninety ? * MON-FRI" = .ok b := by
  intro l
  have hcount : ∀ t ∈ columnTexts "0 ninety ? * MON-FRI",
      t.points.count (.char '-') ≤ l.room + 1 := by
    decide +kernel
  refine ((validators_agree l "0 ninety ? * MON-FRI").2.2.1 (by decide +kernel) ?_).2
  exact fun c t ht => Layout.not_nests_of_count_le <| hcount t <| List.mem_of_getElem? ht

section LongMinute

variable {s : List Char}

-- An expression that restricts nothing but the minute, to a number.
def minuteColumns (s : List Char) : List (List Char) := s :: List.replicate 4 ['*']

theorem columnTexts_minuteColumns (hs : Text.isNumeral s) :
    columnTexts (.ofChars (Text.joinWith [' '] (minuteColumns s))) =
      (minuteColumns s).map Codes.ofChars := by
  refine columnTexts_joinWith fun t ht => ?_
  rcases List.mem_cons.mp ht with rfl | ht
  · have ⟨hne, hd⟩ := Text.isNumeral_iff.mp hs
    exact ⟨hne, fun x hx => .inl <| hd x hx⟩
  · rw [List.eq_of_mem_replicate ht]
    exact ⟨List.cons_ne_nil _ _, by simp [columnMarks]⟩

theorem exists_writes_of_isNumeral (hs : Text.isNumeral s) (c : Column) :
    ∃ e, l.Writes c (.ofChars s) e := by
  have hd := (Text.isNumeral_iff.mp hs).2
  have ht : (Codes.ofChars s).trim = .ofChars s := by
    rw [Codes.trim_ofChars, Text.trim_of_isAsciiDigit hd]
  have hc : Text.isNumeral (s.map capital) := by rwa [Text.map_capital_of_isAsciiDigit hd]
  exact ⟨_, .token <| .base <| .single <| .value <| .numeral ht hc⟩

-- The text is in the grammar, but it is not read, and the validators do not answer.
theorem isMalformed_eq_false_of_long_minute (l : Layout) (hs : Text.isNumeral s)
    (hl : Text.maxDigits < s.length) :
    ∃ err, read l (.ofChars (Text.joinWith [' '] (minuteColumns s))) = .error err ∧
      err.isMalformed = false := by
  have ht := columnTexts_minuteColumns hs
  refine not_isMalformed_of_long ?_ ?_ ?_
  · rw [ht, List.length_map]
    exact ⟨Nat.le_refl 5, Nat.le_succ 5⟩
  · rw [ht]
    intro c t hc
    obtain ⟨u, hu, rfl⟩ := List.mem_map.mp <| List.mem_of_getElem? hc.stands
    have hw : ∃ e, l.Writes c (.ofChars u) e := by
      rcases List.mem_cons.mp hu with rfl | hu
      · exact exists_writes_of_isNumeral hs c
      · rw [List.eq_of_mem_replicate hu]
        exact ⟨_, .token <| .base <| .single <| .any <| .inl rfl⟩
    obtain ⟨e, he⟩ := hw
    exact hc.unwritten e he
  · rw [ht]
    refine ⟨_, List.mem_cons_self, fun hshort => ?_⟩
    rw [Codes.ShortRuns, Codes.digitRuns_of_isNumeral hs] at hshort
    have := hshort _ List.mem_cons_self
    rw [List.length_map] at this
    omega

theorem validators_fail_on_long_minute :
    let l : Layout := ⟨.unix, 2024, 100, 900⟩
    let text : Codes := .ofChars (Text.joinWith [' '] (minuteColumns (List.replicate 4301 '1')))
    ∃ err, read l text = .error err ∧ err.isMalformed = false ∧
      complaints l text = .error err ∧ isValid l text = .error err := by
  intro l text
  have hs : Text.isNumeral (List.replicate 4301 '1') := by
    rw [Text.isNumeral, List.all_replicate, List.isEmpty_replicate]
    decide
  have hl : Text.maxDigits < (List.replicate 4301 '1').length := by
    rw [List.length_replicate]
    decide
  obtain ⟨err, hr, hm⟩ := isMalformed_eq_false_of_long_minute l hs hl
  exact ⟨err, hr, hm, complaints_eq_error hr hm, isValid_eq_error hr hm⟩

end LongMinute

end Schedule

end Cron
