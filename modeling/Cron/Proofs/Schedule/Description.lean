import Cron.Proofs.Expr.Phrases
import Cron.Proofs.Schedule.Adding
import Cron.Proofs.Schedule.RoundTrip

-- What the words for a column tell of its values. The parts that a description speaks of are read
-- back from it; what it keeps silent about is a `*` outside the minutes.

namespace Cron

open Text Schedule

variable {s s' : Schedule} {l l' : Layout} {c : Column} {m e e' q : Shape} {ms : List Shape}
variable {n : Int}

namespace Expr

-- The expression, or one of its members, is a `*` that the description says nothing of.
def Silent {ι : Type} (c : Column) (e : Expr ι) : Prop := c ≠ .minute ∧ ∃ m ∈ e.members, m.isAny

instance {ι : Type} (c : Column) (e : Expr ι) : Decidable (e.Silent c) :=
  inferInstanceAs <| Decidable (c ≠ .minute ∧ ∃ m ∈ e.members, m.isAny)

theorem members_shape {ι : Type} (e : Expr ι) : e.shape.members = e.members.map shape := by
  cases e
  case list => rw [shape_list, members, members]
  all_goals rfl

@[simp]
theorem silent_shape_iff {ι : Type} {e : Expr ι} : e.shape.Silent c ↔ e.Silent c := by
  simp only [Silent, members_shape, List.mem_map, exists_exists_and_eq_and, isAny, kind_shape]

end Expr

namespace Layout

def everyMinute : Shape := .step () (.any ()) (.value () 1)

-- The parts that the phrase for a part speaks of. Of the minutes, `*` is described as `*/1` is.
def spoken (c : Column) (m : Shape) : List Shape :=
  if !m.isAny then [m] else if c = .minute then [everyMinute] else []

theorem phrased_everyMinute (l : Layout) : l.Phrased .minute everyMinute := by
  have hone : l.Takes .minute 1 := ⟨Int.zero_le_ofNat 1, show (1 : Int) ≤ 59 by decide⟩
  exact ⟨.step (.inr rfl) (.any <| .inr <| .inr rfl) (.value hone fun _ => Int.le_refl _), rfl⟩

theorem phrased_of_mem_spoken (h : m.Fits l c .member) (hq : q ∈ spoken c m) : l.Phrased c q := by
  rw [spoken] at hq
  split_ifs at hq with hm hc
  case pos =>
    obtain rfl := List.mem_singleton.mp hq
    exact ⟨h, by simpa using hm⟩
  case pos =>
    obtain rfl := List.mem_singleton.mp hq
    exact hc ▸ phrased_everyMinute l
  case neg => cases hq

theorem phrases_spoken (h : m.Fits l c .member) :
    (spoken c m).map (l.describe c) = [l.describe c m].filter (!·.isEmpty) := by
  cases hm : m.isAny
  case false =>
    have hne : l.describe c m ≠ "" := fun he => toList_describe_ne_nil ⟨h, hm⟩ (he ▸ rfl)
    simp [spoken, hm, hne]
  case true =>
    cases m
    case any =>
      cases c <;> simp [spoken, hm, everyMinute, describe, stepPhrase, everyPhrase, Expr.literal,
        Column.wording, toString_text]
    all_goals cases hm

theorem phrases_spoken_members (h : ∀ m ∈ ms, m.Fits l c .member) :
    (ms.flatMap (spoken c)).map (l.describe c) = (l.describeAll c ms).filter (!·.isEmpty) := by
  induction ms
  case nil => rfl
  case cons m ms hi =>
    obtain ⟨hm, hms⟩ := List.forall_mem_cons.mp h
    rw [List.flatMap_cons, List.map_append, phrases_spoken hm, hi hms, ← List.filter_append]
    rfl

theorem joinPhrases_singleton (phrase : String) :
    joinPhrases ([phrase].filter (!·.isEmpty)) = phrase := by
  by_cases hp : phrase = ""
  case pos => exact hp ▸ rfl
  case neg => simp [joinPhrases, hp]

theorem joinPhrases_members (l : Layout) (c : Column) (e : Shape) :
    joinPhrases ((l.describeAll c e.members).filter (!·.isEmpty)) = l.describe c e := by
  cases e
  case list => rfl
  all_goals exact joinPhrases_singleton _

-- The parts that the description of a column speaks of.
def told (c : Column) (e : Shape) : List Shape := e.members.flatMap (spoken c)

theorem phrased_of_mem_told (h : e.Fits l c .root) (hq : q ∈ told c e) : l.Phrased c q := by
  obtain ⟨m, hm, hq⟩ := List.mem_flatMap.mp hq
  exact phrased_of_mem_spoken (h.members m hm) hq

-- The description is a sentence about these parts.
theorem toList_describe (h : e.Fits l c .root) :
    (l.describe c e).toList = sentence ((told c e).map fun q => (l.describe c q).toList) := by
  rw [← joinPhrases_members, ← phrases_spoken_members h.members, toList_joinPhrases, List.map_map]
  rfl

theorem told_eq_of_describe_eq (h : e.Fits l c .root) (h' : e'.Fits l c .root)
    (ht : l.describe c e = l.describe c e') : told c e = told c e' := by
  refine sentence_inj (l.readable_describe c) (fun q => toList_describe_ne_nil)
    (fun q => phrased_of_mem_told h) (fun q => phrased_of_mem_told h') ?_
  rw [← toList_describe h, ht, toList_describe h']

theorem holds_everyMinute (hn : n ∈ l.domain .minute) : everyMinute.Holds (l.domain .minute) n := by
  obtain ⟨h, h'⟩ := hn
  refine Expr.holds_step_iff.mpr <| .inr ⟨n.toNat, _, rfl, ?_, h'⟩
  show n = 0 + n.toNat * 1
  simp only [domain] at h
  omega

-- A part means what the parts mean that its phrase speaks of, if the phrase speaks of it at all.
theorem holds_iff_spoken (hn : n ∈ l.domain c) :
    m.Holds (l.domain c) n ↔
      (c ≠ .minute ∧ m.isAny) ∨ ∃ q ∈ spoken c m, q.Holds (l.domain c) n := by
  rw [spoken]
  cases hm : m.isAny
  case false => simp
  case true =>
    cases m
    case any =>
      by_cases hc : c = .minute
      · subst hc
        simp [holds_everyMinute hn]
      · simp [hc]
    all_goals cases hm

theorem holds_iff_told (hn : n ∈ l.domain c) :
    e.Holds (l.domain c) n ↔ e.Silent c ∨ ∃ q ∈ told c e, q.Holds (l.domain c) n := by
  rw [Expr.holds_iff_members, Expr.map_shape, Expr.Silent]
  refine (exists_congr fun m => and_congr_right fun _ => holds_iff_spoken hn).trans ?_
  simp only [told, List.mem_flatMap]
  constructor
  · rintro ⟨m, hm, ⟨hc, ha⟩ | ⟨q, hq, hv⟩⟩
    · exact .inl ⟨hc, m, hm, ha⟩
    · exact .inr ⟨q, ⟨m, hm, hq⟩, hv⟩
  · rintro (⟨hc, m, hm, ha⟩ | ⟨q, ⟨m, hm, hq⟩, hv⟩)
    · exact ⟨m, hm, .inl ⟨hc, ha⟩⟩
    · exact ⟨m, hm, .inr ⟨q, hq, hv⟩⟩

-- The words for a column depend on the dialect alone.
theorem describe_of_dialect_eq {ι : Type} (hd : l.dialect = l'.dialect) (e : Expr ι) :
    l.describe c e = l'.describe c e := by
  obtain ⟨d, _, _⟩ := l
  obtain ⟨d', _, _⟩ := l'
  obtain rfl : d = d' := hd
  induction e
  case any    => rfl
  case value  => cases c <;> rfl
  case range  => cases c <;> rfl
  case step t base width hb _ =>
    rw [describe, hb, describe]
    cases base <;> cases c <;> rfl
  case list hi =>
    rw [describe, describeAll_eq_map, List.map_congr_left hi, describe, describeAll_eq_map]

end Layout

-- A description hides nothing but a `*`. Take two trees that a column of one dialect can have in
-- reachable schedules. If they are described alike, they match the same values; only, outside the
-- minutes, a tree with `*` as its root or as a member may match more than one without.
theorem description_determines_matches (h : Reachable s) (h' : Reachable s') (c : Column)
    (hl : s.layout.dialect = s'.layout.dialect) (hd : s.layout.domain c = s'.layout.domain c)
    (ht : s.layout.describe c (s.root c) = s'.layout.describe c (s'.root c)) :
    ∀ n ∈ s.layout.domain c, ∃ b b', (s.root c).matches? (s.layout.domain c) n = some b ∧
      (s'.root c).matches? (s'.layout.domain c) n = some b' ∧
      (b = b' ∨ b ∧ (s.root c).Silent c ∧ ¬(s'.root c).Silent c ∨
        b' ∧ (s'.root c).Silent c ∧ ¬(s.root c).Silent c) := by
  intro n hn
  have hw := h.sound.wellFormed h.one_le_firstYear
  have hw' := h'.sound.wellFormed h'.one_le_firstYear
  have hf := (h.sound.proper c).fits
  have hf' := (h'.sound.proper c).fits
  obtain ⟨b, hb, hm⟩ := hf.matches?_eq (hw.lower c) n
  obtain ⟨b', hb', hm'⟩ := hf'.matches?_eq (hw'.lower c) n
  refine ⟨b, b', hb, hb', ?_⟩
  have htold : Layout.told c (s.root c).shape = Layout.told c (s'.root c).shape := by
    refine Layout.told_eq_of_describe_eq (Expr.fits_shape_iff.mpr hf)
      (Expr.fits_shape_iff.mpr <| hf'.of_dialect_eq hl.symm) ?_
    rw [Expr.describe_shape, Expr.describe_shape, ht, Layout.describe_of_dialect_eq hl]
  rw [← Expr.holds_shape_iff, Layout.holds_iff_told hn, Expr.silent_shape_iff, htold] at hm
  rw [← hd, ← Expr.holds_shape_iff, Layout.holds_iff_told hn, Expr.silent_shape_iff] at hm'
  by_cases hs : (s.root c).Silent c <;> by_cases hs' : (s'.root c).Silent c
  · exact .inl <| (hm.mpr <| .inl hs).trans (hm'.mpr <| .inl hs').symm
  · exact .inr <| .inl ⟨hm.mpr <| .inl hs, hs, hs'⟩
  · exact .inr <| .inr ⟨hm'.mpr <| .inl hs', hs', hs⟩
  · -- Without a `*`, a column matches what its description tells of.
    refine .inl <| Bool.eq_iff_iff.mpr ?_
    rw [hm, hm', or_iff_right hs, or_iff_right hs']

theorem description_determines_matches_of_star_first_or_last :
    let s := (unrestricted ⟨.unix, 2024, 100, 900⟩).after (.add 2 "*,5-7/2")
    let s' := (unrestricted ⟨.unix, 1999, 5, 900⟩).after (.add 2 "5-7/2,*")
    s.layout.describe .hour (s.root .hour) = "every 2nd hour between 5am and 7am" ∧
      ∀ n ∈ s.layout.domain .hour, ∃ b,
        (s.root .hour).matches? (s.layout.domain .hour) n = some b ∧
          (s'.root .hour).matches? (s'.layout.domain .hour) n = some b := by
  intro s s'
  have h : Reachable s := .edited _ <| .unrestricted (by decide)
  have h' : Reachable s' := .edited _ <| .unrestricted (by decide)
  have ht : s.layout.describe .hour (s.root .hour) = "every 2nd hour between 5am and 7am" := rfl
  have ht' : s'.layout.describe .hour (s'.root .hour) = "every 2nd hour between 5am and 7am" := rfl
  have hs : (s.root .hour).Silent .hour := by decide
  have hs' : (s'.root .hour).Silent .hour := by decide
  refine ⟨ht, fun n hn => ?_⟩
  obtain ⟨b, b', hb, hb', rfl | ⟨-, -, hns'⟩ | ⟨-, -, hns⟩⟩ :=
    description_determines_matches h h' .hour rfl rfl (ht.trans ht'.symm) n hn
  · exact ⟨b, hb, hb'⟩
  · exact absurd hs' hns'
  · exact absurd hs hns

-- A `*` in a list is not spoken of, yet it matches everything.
theorem description_hides_star :
    let s := (unrestricted ⟨.unix, 2024, 100, 900⟩).after (.add 2 "5")
    let s' := (unrestricted ⟨.unix, 2024, 100, 900⟩).after (.add 2 "*,5")
    Reachable s ∧ Reachable s' ∧ s.layout = s'.layout ∧
      s.layout.describe .hour (s.root .hour) = "at 5am" ∧
      s'.layout.describe .hour (s'.root .hour) = "at 5am" ∧ 6 ∈ s.layout.domain .hour ∧
      (s.root .hour).matches? (s.layout.domain .hour) 6 = some false ∧
      (s'.root .hour).matches? (s'.layout.domain .hour) 6 = some true := by
  intro s s'
  have h : Reachable s := .edited _ <| .unrestricted (by decide)
  have h' : Reachable s' := .edited _ <| .unrestricted (by decide)
  exact ⟨h, h', rfl, rfl, rfl, by decide, by decide +kernel, by decide +kernel⟩

end Cron
