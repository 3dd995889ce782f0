import Cron.Proofs.Expr.Erasure
import Cron.Proofs.Expr.Stepping
import Cron.Proofs.Text.Readable

-- What the phrase for a part tells. Every phrase can be read back: a value from its name, a range
-- from the names of its ends, and a step from its width and the phrase of its base.

namespace Cron

open Text

variable {l : Layout} {c : Column} {m n : Int} {u v r s : List Char}

section Numbers

theorem toList_toString (h : 0 ≤ n) : (toString n).toList = natDigits n.toNat := by
  obtain ⟨k, rfl⟩ := Int.eq_ofNat_of_zero_le h
  show (Nat.repr k).toList = _
  rw [Nat.repr, String.toList_ofList]
  rfl

-- Only small letters, which is what follows a number as in `3rd` and `3am`.
def Letters (u : List Char) : Prop := ∀ x ∈ u, 97 ≤ x.toNat

theorem Letters.not_isAsciiDigit (h : Letters u) :
    ∀ x, u.head? = some x → isAsciiDigit x = false := by
  intro x hx
  have hx := h x <| List.mem_of_mem_head? hx
  refine Bool.eq_false_iff.mpr fun hd => ?_
  have := isAsciiDigit_iff.mp hd
  omega

theorem Letters.word (h : Letters u) (k : Nat) : ∀ x ∈ natDigits k ++ u, x ≠ ' ' ∧ x ≠ ',' := by
  intro x hx
  have hx : 48 ≤ x.toNat := by
    rcases List.mem_append.mp hx with hx | hx
    · exact (isAsciiDigit_iff.mp <| isAsciiDigit_of_mem_natDigits hx).1
    · exact Nat.le_trans (by decide) (h x hx)
  constructor
  all_goals
    rintro rfl
    revert hx
    decide

theorem exists_letters_ordinal (h : 0 ≤ n) :
    ∃ u, Letters u ∧ (ordinalText n).toList = natDigits n.toNat ++ u := by
  refine ⟨_, ?_, (String.toList_append).trans <| congrArg (· ++ _) <| toList_toString h⟩
  show Letters (if _ then "th" else if _ then "st" else if _ then "nd" else if _ then "rd"
    else "th").toList
  split_ifs <;> simp [Letters]

theorem readable_of_numbers {P : Int → Prop} {f : Int → List Char} (k : Int → Nat)
    (h : ∀ n, P n → ∃ u, Letters u ∧ f n = natDigits (k n) ++ u)
    (hi : ∀ m n, P m → P n → k m = k n → f m = f n → m = n) : Readable EndsWord P f := by
  refine .word (fun n hn => ?_) fun m n hm hn he => ?_
  · obtain ⟨u, hu, hf⟩ := h n hn
    exact hf ▸ hu.word _
  · obtain ⟨u, hu, hf⟩ := h m hm
    obtain ⟨v, hv, hg⟩ := h n hn
    have hk := natDigits_append_inj hu.not_isAsciiDigit hv.not_isAsciiDigit <| hf ▸ hg ▸ he
    exact hi m n hm hn hk.1 he

theorem readable_ordinal : Readable EndsWord (0 ≤ ·) fun n => (ordinalText n).toList :=
  readable_of_numbers Int.toNat (fun _ => exists_letters_ordinal) fun m n hm hn hk _ => by
    have hm : 0 ≤ m := hm
    have hn : 0 ≤ n := hn
    omega

end Numbers

section Names

-- The words of a list are told apart if they are different.
theorem readable_getD {ws : List String} {P : Int → Prop} (k : Int → Nat) (hn : ws.Nodup)
    (hw : ∀ w ∈ ws, ∀ x ∈ w.toList, x ≠ ' ' ∧ x ≠ ',') (hk : ∀ n, P n → k n < ws.length)
    (hi : ∀ m n, P m → P n → k m = k n → m = n) :
    Readable EndsWord P fun n => (ws.getD (k n) "").toList := by
  refine .word (fun n hp => ?_) fun m n hpm hpn he => ?_
  · rw [List.getD_eq_getElem _ _ (hk n hp)]
    exact hw _ <| List.getElem_mem _
  · rw [String.toList_inj, List.getD_eq_getElem _ _ (hk m hpm),
      List.getD_eq_getElem _ _ (hk n hpn)] at he
    exact hi m n hpm hpn <| hn.getElem_inj_iff.mp he

namespace Layout

theorem toList_hourName (h : 0 ≤ n) (h' : n ≤ 23) :
    (l.valueName .hour n).toList =
      natDigits ((n + 11) % 12 + 1).toNat ++ (if n < 12 then "am" else "pm").toList := by
  have happ (m : Int) (hm : 0 ≤ m) (w : String) :
      (toString m ++ w).toList = natDigits m.toNat ++ w.toList := by
    rw [String.toList_append, toList_toString hm]
  rw [valueName]
  split
  case isTrue hz =>
    subst hz
    rfl
  split
  case isTrue =>
    rw [show ((n + 11) % 12 + 1).toNat = n.toNat by omega]
    exact happ n h "am"
  split
  case isTrue hz =>
    subst hz
    rfl
  case isFalse =>
    rw [show ((n + 11) % 12 + 1).toNat = (n - 12).toNat by omega]
    exact happ (n - 12) (by omega) "pm"

-- A value is told from its name.
theorem readable_valueName (l : Layout) (c : Column) :
    Readable EndsWord (l.Takes c) fun n => (l.valueName c n).toList := by
  have hs := l.sunday_mem
  cases c
  case minute =>
    refine readable_of_numbers (fun n => (n + 1).toNat) ?_ ?_
    · rintro n ⟨h, -⟩
      exact exists_letters_ordinal (by simp only [domain] at h; omega)
    · simp only [Takes, Domain.mem_def, domain]
      omega
  case hour =>
    refine readable_of_numbers (fun n => ((n + 11) % 12 + 1).toNat) ?_ ?_
    · rintro n ⟨h, h'⟩
      refine ⟨_, ?_, toList_hourName h h'⟩
      split_ifs <;> simp [Letters]
    · rintro m n ⟨hm, hm'⟩ ⟨hn, hn'⟩ hk he
      rw [toList_hourName hm hm', toList_hourName hn hn', hk, List.append_cancel_left_eq] at he
      have hhalf : m < 12 ↔ n < 12 := by
        by_cases h : m < 12 <;> by_cases h' : n < 12 <;> simp [h, h'] at he ⊢
      simp only [domain] at hm hm' hn hn'
      omega
  case dayOfMonth =>
    refine readable_of_numbers Int.toNat ?_ ?_
    · rintro n ⟨h, -⟩
      exact exists_letters_ordinal (by simp only [domain] at h; omega)
    · simp only [Takes, Domain.mem_def, domain]
      omega
  case month =>
    refine readable_getD (fun n => (max 0 (n - 1) % 12).toNat) (by decide) ?_ ?_ ?_
    case refine_1 => simp [monthNames]
    all_goals simp only [Takes, Domain.mem_def, domain]
    · intro n hn
      show _ < 12
      omega
    · omega
  case dayOfWeek =>
    refine readable_getD (fun n => ((n - l.sunday) % 7).toNat) (by decide) ?_ ?_ ?_
    case refine_1 => simp [weekdayNames]
    all_goals simp only [Takes, Domain.mem_def, domain]
    · intro n hn
      show _ < 7
      omega
    · omega
  case year =>
    refine readable_of_numbers Int.toNat ?_ ?_
    · rintro n ⟨h, -⟩
      exact ⟨[], List.forall_mem_nil _, (toList_toString h).trans (List.append_nil _).symm⟩
    · simp only [Takes]
      omega

end Layout
end Names

section Forms

namespace Column

-- What stands before the name of a single value, and behind it.
def opening (c : Column) : List Char := (c.wording.before ++ c.wording.article).toList

def closing (c : Column) : List Char :=
  if c.ending.isEmpty then [] else ' ' :: c.ending.toList

-- What stands before the name of the first value of a range, and between the two names.
def spanOpening : Column → List Char
  | .dayOfWeek => "from ".toList
  | c => ("between " ++ c.wording.article).toList

def spanLink : Column → List Char
  | .dayOfWeek => " to ".toList
  | _ => " and ".toList

theorem endsWord_closing (h : EndsPhrase r) : EndsWord (c.closing ++ r) := by
  rw [closing]
  split
  · exact h.endsWord
  · exact endsWord_cons (.inl rfl)

theorem endsWord_spanLink : EndsWord (c.spanLink ++ r) := by
  cases c <;> exact endsWord_cons (.inl rfl)

end Column

namespace Layout

theorem toString_text (w : String) : toString w = w := rfl

theorem toList_withEnding (phrase : String) :
    (withEnding c phrase).toList = phrase.toList ++ c.closing := by
  rw [withEnding, Column.closing]
  split
  · rw [List.append_nil]
  · simp [toString_text]

theorem toList_valuePhrase :
    (l.valuePhrase c n).toList = c.opening ++ (l.valueName c n).toList ++ c.closing := by
  rw [valuePhrase, toList_withEnding]
  simp [Column.opening, toString_text]

theorem toList_between :
    (l.between c m n).toList = c.spanOpening ++ (l.valueName c m).toList ++
      (c.spanLink ++ (l.valueName c n).toList ++ c.closing) := by
  cases c
  case dayOfWeek =>
    simp [between, Column.spanOpening, Column.spanLink, Column.closing, Column.ending,
      toString_text]
  all_goals
    refine (toList_withEnding _).trans ?_
    simp [Column.spanOpening, Column.spanLink, toString_text]

theorem readable_valuePhrase (l : Layout) (c : Column) :
    Readable EndsPhrase (l.Takes c) fun n => (l.valuePhrase c n).toList := by
  simp only [toList_valuePhrase]
  exact ((l.readable_valueName c).behind _).before fun _ => Column.endsWord_closing

theorem readable_between (l : Layout) (c : Column) :
    Readable EndsPhrase (fun x : Int × Int => l.Takes c x.1 ∧ l.Takes c x.2)
      fun x => (l.between c x.1 x.2).toList := by
  have hlow := (l.readable_valueName c).behind c.spanOpening
  have hhigh : Readable EndsPhrase (l.Takes c)
      fun n => c.spanLink ++ (l.valueName c n).toList ++ c.closing :=
    ((l.readable_valueName c).behind _).before fun _ => Column.endsWord_closing
  simp only [toList_between]
  refine hlow.pair hhigh fun n r _ _ => ?_
  rw [List.append_assoc, List.append_assoc]
  exact Column.endsWord_spanLink

theorem toList_everyPhrase (hn : n ≠ 1) :
    (everyPhrase c n).toList =
      "every ".toList ++ ((ordinalText n).toList ++ ' ' :: c.wording.unit.toList) := by
  rw [everyPhrase, if_neg hn]
  simp [toString_text]

-- Behind `every` stands a number, unless the width is 1.
def isNumbered (t : List Char) : Bool := (t.drop 6).head?.any isAsciiDigit

theorem isNumbered_everyPhrase (hn : 1 ≤ n) :
    isNumbered ((everyPhrase c n).toList ++ r) = decide (n ≠ 1) := by
  rw [isNumbered]
  by_cases h : n = 1
  case pos =>
    subst h
    cases c <;> simp [everyPhrase, toString_text, Column.wording, isAsciiDigit]
  case neg =>
    obtain ⟨u, -, hu⟩ := exists_letters_ordinal (n := n) (by omega)
    obtain ⟨x, ds, hds⟩ := List.exists_cons_of_ne_nil (natDigits_ne_nil n.toNat)
    have hx := isAsciiDigit_of_mem_natDigits (hds ▸ List.mem_cons_self)
    rw [toList_everyPhrase h, hu, hds]
    simp [hx, h]

theorem readable_everyPhrase (c : Column) :
    Readable EndsWord (1 ≤ ·) fun n => (everyPhrase c n).toList := by
  refine .of_kind (fun n => decide (n ≠ 1)) isNumbered
    (fun n r hn _ => isNumbered_everyPhrase hn) fun k => ?_
  cases k
  case false =>
    rintro m n ⟨-, hm⟩ ⟨-, hn⟩ r s - - he
    obtain rfl : m = 1 := by simpa using hm
    obtain rfl : n = 1 := by simpa using hn
    exact ⟨rfl, List.append_cancel_left he⟩
  case true =>
    have ho : Readable EndsWord (0 ≤ ·)
        fun n => (ordinalText n).toList ++ ' ' :: c.wording.unit.toList :=
      readable_ordinal.before fun r _ => endsWord_cons (.inl rfl)
    refine (ho.behind "every ".toList).of_made id fun n ⟨hn, h⟩ => ?_
    exact ⟨n, Int.le_trans (by decide) hn, rfl, toList_everyPhrase (by simpa using h)⟩

end Layout
end Forms

section Phrases

variable {m b : Shape} {pos : Position}

namespace Expr

theorem Fits.exists_value (h : m.Fits l c pos) (hk : m.kind = .value) :
    ∃ n, l.Takes c n ∧ .value () n = m := by
  cases h
  case value ht _ => exact ⟨_, ht, rfl⟩
  all_goals cases hk

theorem Fits.exists_range (h : m.Fits l c pos) (hk : m.kind = .range) :
    ∃ x : Int × Int, (l.Takes c x.1 ∧ l.Takes c x.2) ∧ interval x.1 x.2 = m := by
  cases h
  case range hl hh _ =>
    obtain ⟨⟨⟩, lo, rfl, hlo⟩ := fits_endpoint_iff.mp hl
    obtain ⟨⟨⟩, hi, rfl, hhi⟩ := fits_endpoint_iff.mp hh
    exact ⟨(lo, hi), ⟨hlo, hhi⟩, rfl⟩
  all_goals cases hk

theorem Fits.exists_step (h : m.Fits l c pos) (hk : m.kind = .step) :
    ∃ x : Int × Shape, (1 ≤ x.1 ∧ x.2.Fits l c .base) ∧ .step () x.2 (.value () x.1) = m := by
  cases h
  case step base _ hb hw _ =>
    obtain ⟨⟨⟩, n, rfl, -, hn⟩ := fits_width_iff.mp hw
    exact ⟨(n, base), ⟨hn, hb⟩, rfl⟩
  all_goals cases hk

end Expr

namespace Layout

-- What follows the width of a step, to say from where or within what it is taken.
def originPhrase (l : Layout) (c : Column) : Shape → String
  | .any _ => ""
  | .value _ n => " starting " ++ l.valuePhrase c n
  | base => " " ++ l.describe c base

theorem describe_step :
    l.describe c (.step () b (.value () n)) = everyPhrase c n ++ l.originPhrase c b := by
  cases b <;>
    simp [describe, stepPhrase, originPhrase, toString_text, Expr.literal, String.append_assoc]

-- The kind of the base of a step, from the words that follow the width.
def baseKind : List Char → Kind
  | ' ' :: 's' :: _ => .value
  | ' ' :: 'b' :: _ => .range
  | ' ' :: 'f' :: _ => .range
  | _ => .any

theorem baseKind_originPhrase (h : b.Fits l c .base) (hr : EndsPhrase r) :
    baseKind ((l.originPhrase c b).toList ++ r) = b.kind := by
  cases h
  case any    => cases hr <;> rfl
  case value  => simp [originPhrase, baseKind, Expr.kind]
  case step h => simp_all
  case range  =>
    simp only [originPhrase, describe, String.toList_append, toList_between]
    cases c <;> simp [Column.spanOpening, baseKind, Expr.kind]

theorem readable_originPhrase (l : Layout) (c : Column) :
    Readable EndsPhrase (fun b : Shape => b.Fits l c .base)
      fun b => (l.originPhrase c b).toList := by
  refine .of_kind Expr.kind baseKind (fun b r => baseKind_originPhrase) fun k => ?_
  cases k
  case any =>
    refine (Readable.nil EndsPhrase).of_made (.any ·) fun b ⟨h, hk⟩ => ?_
    cases b
    case any => exact ⟨(), trivial, rfl, rfl⟩
    all_goals cases hk
  case value =>
    refine ((l.readable_valuePhrase c).behind " starting ".toList).of_made (.value ()) ?_
    rintro b ⟨h, hk⟩
    obtain ⟨n, hn, rfl⟩ := h.exists_value hk
    exact ⟨n, hn, rfl, String.toList_append⟩
  case range =>
    refine ((l.readable_between c).behind " ".toList).of_made (fun x => .interval x.1 x.2) ?_
    rintro b ⟨h, hk⟩
    obtain ⟨x, hx, rfl⟩ := h.exists_range hk
    exact ⟨x, hx, rfl, String.toList_append⟩
  all_goals
    rintro b _ ⟨h, hk⟩
    cases h <;> simp_all [Expr.kind]

theorem endsWord_originPhrase (h : b.Fits l c .base) (hr : EndsPhrase r) :
    EndsWord ((l.originPhrase c b).toList ++ r) := by
  cases b
  case any => exact hr.endsWord
  all_goals
    simp only [originPhrase, String.toList_append]
    exact endsWord_cons (.inl rfl)

-- A part that has a phrase, wherever it stands: everything but a `*`.
def Phrased (l : Layout) (c : Column) (m : Shape) : Prop := m.Fits l c .member ∧ m.isAny = false

-- The kind of a part, from the first letter of its phrase.
def leadKind : List Char → Kind
  | 'e' :: _ => .step
  | 'b' :: _ => .range
  | 'f' :: _ => .range
  | _ => .value

theorem leadKind_describe (h : l.Phrased c m) :
    leadKind ((l.describe c m).toList ++ r) = m.kind := by
  obtain ⟨h, hn⟩ := h
  cases hk : m.kind
  case value =>
    obtain ⟨n, -, rfl⟩ := h.exists_value hk
    simp only [describe, toList_valuePhrase]
    cases c <;> simp [Column.opening, Column.wording, leadKind]
  case range =>
    obtain ⟨x, -, rfl⟩ := h.exists_range hk
    simp only [Expr.interval, describe, toList_between]
    cases c <;> simp [Column.spanOpening, leadKind]
  case step =>
    obtain ⟨x, -, rfl⟩ := h.exists_step hk
    rw [describe_step, everyPhrase]
    split_ifs <;> simp [toString_text, leadKind]
  case any  => simp [Expr.isAny, hk] at hn
  case list => cases h <;> cases hk

theorem toList_describe_ne_nil (h : l.Phrased c m) : (l.describe c m).toList ≠ [] := by
  -- The kind is told, whatever follows the phrase.
  intro hn
  have he := leadKind_describe (r := ['e']) h
  have hb := leadKind_describe (r := ['b']) h
  rw [hn] at he hb
  cases he.trans hb.symm

-- What a part stands for is told from its phrase, whatever other phrases follow.
theorem readable_describe (l : Layout) (c : Column) :
    Readable EndsPhrase (l.Phrased c) fun m => (l.describe c m).toList := by
  refine .of_kind Expr.kind leadKind (fun m r h _ => leadKind_describe h) fun k => ?_
  cases k
  case value =>
    refine (l.readable_valuePhrase c).of_made (.value ()) fun m ⟨h, hk⟩ => ?_
    obtain ⟨n, hn, rfl⟩ := h.1.exists_value hk
    exact ⟨n, hn, rfl, rfl⟩
  case range =>
    refine (l.readable_between c).of_made (fun x => .interval x.1 x.2) fun m ⟨h, hk⟩ => ?_
    obtain ⟨x, hx, rfl⟩ := h.1.exists_range hk
    exact ⟨x, hx, rfl, rfl⟩
  case step =>
    refine ((readable_everyPhrase c).pair (l.readable_originPhrase c) ?_).of_made
      (fun x => .step () x.2 (.value () x.1)) fun m ⟨h, hk⟩ => ?_
    · exact fun b r => endsWord_originPhrase
    · obtain ⟨x, hx, rfl⟩ := h.1.exists_step hk
      exact ⟨x, hx, rfl, describe_step ▸ String.toList_append⟩
  all_goals
    rintro m _ ⟨⟨h, hn⟩, hk⟩
    cases h <;> simp_all [Expr.kind, Expr.isAny]

end Layout
end Phrases

end Cron
