import Cron.Proofs.Text.Cutting
import Cron.Proofs.Text.Numeral

-- The runs of digits in a text. They stay the same when the text is cut at other characters.

namespace Cron

namespace Text

variable {α : Type} {p q : α → Bool} {sep x : α} {s t : List α}

theorem pieces_append_sep (s t : List α) (hs : p sep) :
    pieces p (s ++ sep :: t) = pieces p s ++ pieces p t := by
  rw [pieces_eq_splitOnP, pieces_eq_splitOnP, pieces_eq_splitOnP, List.splitOnP_append_cons s t hs]

theorem runs_append_sep (s t : List α) (hs : p sep) :
    runs p (s ++ sep :: t) = runs p s ++ runs p t := by
  rw [runs, pieces_append_sep s t hs, List.filter_append]
  rfl

theorem runs_cons (s : List α) (hx : p x) : runs p (x :: s) = runs p s :=
  runs_append_sep [] s hx

theorem runs_of_all (h : ∀ x ∈ s, p x) : runs p s = [] := by
  induction s
  case nil => rfl
  case cons x s hi =>
    have ⟨hx, hs⟩ := List.forall_mem_cons.mp h
    rw [runs_cons s hx, hi hs]

theorem runs_of_none (hne : s ≠ []) (h : ∀ x ∈ s, p x = false) : runs p s = [s] := by
  rw [runs, pieces_of_none h, List.filter_eq_self]
  simpa using hne

theorem runs_append_of_all (s : List α) (h : ∀ x ∈ t, p x) : runs p (s ++ t) = runs p s := by
  cases t
  case nil => rw [List.append_nil]
  case cons x t =>
    have ⟨hx, ht⟩ := List.forall_mem_cons.mp h
    rw [runs_append_sep s t hx, runs_of_all ht, List.append_nil]

theorem runs_dropWhile (h : ∀ x, q x → p x) (s : List α) : runs p (s.dropWhile q) = runs p s := by
  induction s
  case nil => rfl
  case cons x s hi =>
    rw [List.dropWhile_cons]
    split
    case isTrue hx  => rw [hi, runs_cons s (h x hx)]
    case isFalse    => rfl

-- What is trimmed away are separators.
theorem runs_trimWhile (h : ∀ x, q x → p x) (s : List α) : runs p (trimWhile q s) = runs p s := by
  let u := (s.dropWhile q).reverse
  have hu : s.dropWhile q = (u.dropWhile q).reverse ++ (u.takeWhile q).reverse := by
    rw [← List.reverse_append, List.takeWhile_append_dropWhile, List.reverse_reverse]
  have hend : ∀ x ∈ (u.takeWhile q).reverse, p x := fun x hx =>
    h x <| List.mem_takeWhile_imp <| List.mem_reverse.mp hx
  rw [← runs_dropWhile h s, hu, runs_append_of_all _ hend]
  rfl

-- By induction on the length: the first separator ends the first piece.
theorem runs_eq_flatMap_pieces (h : ∀ x, q x → p x) (s : List α) :
    runs p s = (pieces q s).flatMap (runs p) := by
  rcases hs : s.dropWhile (!q ·) with _ | ⟨sep, rest⟩
  case nil =>
    have hn : ∀ x ∈ s, q x = false := by simpa using List.dropWhile_eq_nil_iff.mp hs
    rw [pieces_of_none hn, List.flatMap_singleton]
  case cons =>
    have he : s = s.takeWhile (!q ·) ++ sep :: rest := by
      rw [← hs, List.takeWhile_append_dropWhile]
    have hsep : q sep := by
      have hhead := List.head_dropWhile_not (!q ·) (l := s) (by simp [hs])
      simpa [hs] using hhead
    have hfirst : ∀ x ∈ s.takeWhile (!q ·), q x = false := fun x hx => by
      simpa using List.mem_takeWhile_imp hx
    have hlen : rest.length < s.length := by
      rw [he, List.length_append, List.length_cons]
      omega
    rw [he, pieces_append_cons hfirst hsep, List.flatMap_cons, runs_append_sep _ _ (h sep hsep),
      runs_eq_flatMap_pieces h rest]
termination_by s.length

-- The empty pieces have no runs.
theorem runs_eq_flatMap_runs (h : ∀ x, q x → p x) (s : List α) :
    runs p s = (runs q s).flatMap (runs p) := by
  rw [runs_eq_flatMap_pieces h, runs.eq_def q]
  induction pieces q s
  case nil => rfl
  case cons piece more hi =>
    cases piece
    case nil  => exact hi
    case cons => rw [List.filter_cons_of_pos rfl, List.flatMap_cons, List.flatMap_cons, hi]

end Text

-- A code point that is in no run of digits.
def Code.endsRun (x : Code) : Bool := !x.passes Text.isAsciiDigit

namespace Codes

variable {c : Char} {s : List Char} {t u : Codes}

-- The longest stretches of ASCII digits in a text.
def digitRuns (t : Codes) : List (List Code) := Text.runs Code.endsRun t.points

-- Every run of digits is short enough to be converted to a number.
def ShortRuns (t : Codes) : Prop := ∀ run ∈ t.digitRuns, run.length ≤ Text.maxDigits

instance (t : Codes) : Decidable t.ShortRuns := inferInstanceAs (Decidable (∀ _ ∈ _, _))

theorem endsRun_char (h : Text.isAsciiDigit c = false) : (Code.char c).endsRun := by
  simp [Code.endsRun, Code.passes, Code.char?, h]

theorem endsRun_of_isBlank (x : Code) (h : x.passes Text.isBlank) : x.endsRun := by
  cases x
  case half => rfl
  case char c =>
    refine endsRun_char <| Bool.eq_false_iff.mpr fun hd => ?_
    have hb : Text.isBlank c = true := by simpa [Code.passes, Code.char?] using h
    rw [Text.isBlank_eq_false hd] at hb
    cases hb

theorem digitRuns_append (h : Text.isAsciiDigit c = false) (t u : Codes) :
    (t ++ .ofChars [c] ++ u).digitRuns = t.digitRuns ++ u.digitRuns := by
  rw [digitRuns, points_append, Text.runs_append_sep _ _ <| endsRun_char h]
  rfl

theorem digitRuns_trim (t : Codes) : t.trim.digitRuns = t.digitRuns :=
  Text.runs_trimWhile endsRun_of_isBlank t.points

theorem digitRuns_pieces (h : Text.isAsciiDigit c = false) (t : Codes) :
    t.digitRuns = (t.pieces c).flatMap digitRuns := by
  have hc (x : Code) (hx : x == .char c) : x.endsRun := by
    rw [beq_iff_eq.mp hx]
    exact endsRun_char h
  rw [digitRuns, Text.runs_eq_flatMap_pieces hc, pieces, List.flatMap_map]
  rfl

theorem digitRuns_words (t : Codes) : t.digitRuns = t.words.flatMap digitRuns := by
  rw [digitRuns, Text.runs_eq_flatMap_runs endsRun_of_isBlank, words, List.flatMap_map]
  rfl

theorem digitRuns_of_isNumeral (h : Text.isNumeral s) :
    (ofChars s).digitRuns = [s.map Code.char] := by
  rw [Text.isNumeral_iff] at h
  refine Text.runs_of_none (List.map_eq_nil_iff.not.mpr h.1) fun x hx => ?_
  obtain ⟨c, hc, rfl⟩ := List.mem_map.mp hx
  simp [Code.endsRun, Code.passes, Code.char?, h.2 c hc]

theorem digitRuns_of_none (h : ∀ c ∈ s, Text.isAsciiDigit c = false) :
    (ofChars s).digitRuns = [] := by
  refine Text.runs_of_all fun x hx => ?_
  obtain ⟨c, hc, rfl⟩ := List.mem_map.mp hx
  exact endsRun_char <| h c hc

theorem shortRuns_join_iff (h : Text.isAsciiDigit c = false) {ts : List Codes} :
    (join (ofChars [c]) ts).ShortRuns ↔ ∀ t ∈ ts, t.ShortRuns := by
  have hr : (join (ofChars [c]) ts).digitRuns = ts.flatMap digitRuns := by
    induction ts
    case nil => rfl
    case cons t ts hi =>
      cases ts
      case nil        => exact (List.append_nil _).symm
      case cons u ts  => exact (digitRuns_append h t _).trans <| congrArg _ hi
  rw [ShortRuns, hr]
  simp only [List.mem_flatMap, forall_exists_index, and_imp]
  exact ⟨fun h t ht run hm => h run t ht hm, fun h run t ht hm => h t ht run hm⟩

theorem ShortRuns.of_mem_words (h : t.ShortRuns) (hu : u ∈ t.words) : u.ShortRuns :=
  fun run hr => h run <| digitRuns_words t ▸ List.mem_flatMap.mpr ⟨u, hu, hr⟩

end Codes

end Cron
