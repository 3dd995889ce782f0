import Mathlib
import Cron.Text.Codes

namespace Cron

namespace Text

variable {α β : Type} {p : α → Bool} {sep x : α} {s t : List α} {ts : List (List α)}

section Pieces

theorem pieces_eq_splitOnP (p : α → Bool) (s : List α) : pieces p s = s.splitOnP p := by
  induction s
  case nil => simp [pieces]
  case cons x s hi =>
    rw [pieces, hi, List.splitOnP_cons_eq_if_modifyHead]
    obtain ⟨piece, more, he⟩ := List.exists_cons_of_ne_nil (List.splitOnP_ne_nil p s)
    rw [he]
    rfl

theorem pieces_of_none (h : ∀ x ∈ s, p x = false) : pieces p s = [s] := by
  rw [pieces_eq_splitOnP, List.splitOnP_eq_singleton h]

theorem pieces_append_cons (h : ∀ x ∈ s, p x = false) (hs : p sep) :
    pieces p (s ++ sep :: t) = s :: pieces p t := by
  rw [pieces_eq_splitOnP, pieces_eq_splitOnP, List.splitOnP_append_cons_of_forall_mem h sep hs]

theorem length_pieces (p : α → Bool) (s : List α) : (pieces p s).length = s.countP p + 1 := by
  induction s
  case nil => rfl
  case cons x s hi =>
    rw [pieces]
    split
    case isTrue hx => rw [List.length_cons, hi, List.countP_cons_of_pos hx]
    case isFalse hx =>
      obtain ⟨piece, more, he⟩ := List.exists_cons_of_ne_nil (pieces_ne_nil p s)
      rw [List.countP_cons_of_neg hx, ← hi, he]
      rfl

theorem joinWith_cons_cons (j t u : List α) :
    joinWith j (t :: u :: ts) = t ++ j ++ joinWith j (u :: ts) := rfl

theorem joinWith_append_cons (j : List α) (ts : List (List α)) (t : List α) (us : List (List α)) :
    joinWith j (ts ++ t :: us) = ts.flatMap (· ++ j) ++ t ++ us.flatMap (j ++ ·) := by
  have hcons (t : List α) : joinWith j (t :: us) = t ++ us.flatMap (j ++ ·) := by
    induction us generalizing t
    case nil            => simp [joinWith]
    case cons u us hi   => simp [joinWith_cons_cons, hi]
  induction ts
  case nil => simpa using hcons t
  case cons u ts hi =>
    obtain ⟨v, vs, hv⟩ := List.exists_cons_of_ne_nil (l := ts ++ t :: us) (by simp)
    rw [List.cons_append, hv, joinWith_cons_cons, ← hv, hi, List.flatMap_cons]
    simp

theorem joinWith_map (f : β → α) (j : List β) (ts : List (List β)) :
    (joinWith j ts).map f = joinWith (j.map f) (ts.map (List.map f)) := by
  induction ts
  case nil => rfl
  case cons t ts hi =>
    cases ts
    case nil => rfl
    case cons u ts =>
      rw [joinWith_cons_cons, List.map_append, List.map_append, hi]
      rfl

-- Cutting undoes joining, unless a piece has a separator inside.
theorem pieces_joinWith (hne : ts ≠ []) (hs : p sep) (h : ∀ t ∈ ts, ∀ x ∈ t, p x = false) :
    pieces p (joinWith [sep] ts) = ts := by
  induction ts
  case nil => exact absurd rfl hne
  case cons t ts hi =>
    have ⟨ht, hts⟩ := List.forall_mem_cons.mp h
    cases ts
    case nil => exact pieces_of_none ht
    case cons =>
      rw [joinWith_cons_cons, List.append_assoc, List.singleton_append, pieces_append_cons ht hs,
        hi (List.cons_ne_nil _ _) hts]

-- Joining undoes cutting.
theorem joinWith_pieces (h : ∀ x, p x → x = sep) (s : List α) :
    joinWith [sep] (pieces p s) = s := by
  induction s
  case nil => rfl
  case cons x s hi =>
    obtain ⟨piece, more, he⟩ := List.exists_cons_of_ne_nil (pieces_ne_nil p s)
    rw [he] at hi
    rw [pieces, he]
    split
    case isTrue hx => rw [joinWith_cons_cons, hi, h x hx, List.nil_append, List.singleton_append]
    case isFalse =>
      cases more
      case nil  => exact congrArg _ hi
      case cons => exact congrArg (x :: ·) hi

theorem runs_joinWith (hs : p sep) (h : ∀ t ∈ ts, t ≠ [] ∧ ∀ x ∈ t, p x = false) :
    runs p (joinWith [sep] ts) = ts := by
  by_cases hne : ts = []
  case pos =>
    subst hne
    rfl
  case neg =>
    rw [runs, pieces_joinWith hne hs fun t ht => (h t ht).2, List.filter_eq_self]
    exact fun t ht => by simpa using (h t ht).1

theorem pieces_map (f : β → α) (p : α → Bool) (s : List β) :
    pieces p (s.map f) = (pieces (p ∘ f) s).map (List.map f) := by
  induction s
  case nil => rfl
  case cons x s hi =>
    rw [List.map_cons, pieces, pieces, hi]
    cases hp : p (f x)
    case true => simp [hp]
    case false =>
      obtain ⟨piece, more, he⟩ := List.exists_cons_of_ne_nil (pieces_ne_nil (p ∘ f) s)
      simp [hp, he]

theorem runs_map (f : β → α) (p : α → Bool) (s : List β) :
    runs p (s.map f) = (runs (p ∘ f) s).map (List.map f) := by
  rw [runs, runs, pieces_map, List.filter_map]
  congr 2
  funext t
  simp

theorem mem_joinWith {j : List α} (h : x ∈ joinWith j ts) : x ∈ j ∨ ∃ t ∈ ts, x ∈ t := by
  induction ts
  case nil => cases h
  case cons t ts hi =>
    cases ts
    case nil => exact .inr ⟨t, List.mem_cons_self, h⟩
    case cons =>
      rw [joinWith_cons_cons, List.mem_append, List.mem_append] at h
      rcases h with (h | h) | h
      · exact .inr ⟨t, List.mem_cons_self, h⟩
      · exact .inl h
      · exact (hi h).imp_right fun ⟨t, ht, hx⟩ => ⟨t, List.mem_cons_of_mem _ ht, hx⟩

end Pieces

section Ends

theorem trimWhile_of_none (h : ∀ x ∈ s, p x = false) : trimWhile p s = s := by
  have hd {s : List α} (h : ∀ x ∈ s, p x = false) : s.dropWhile p = s :=
    List.dropWhile_eq_self_iff.mpr fun _ => by simp [h]
  rw [trimWhile, hd h, hd fun x hx => h x <| List.mem_reverse.mp hx, List.reverse_reverse]

theorem mem_of_mem_trimWhile (h : x ∈ trimWhile p s) : x ∈ s := by
  have h := (List.dropWhile_subset p) <| List.mem_reverse.mp h
  exact (List.dropWhile_subset p) <| List.mem_reverse.mp h

theorem mem_dropWhile (h : x ∈ s) (hx : p x = false) : x ∈ s.dropWhile p := by
  rw [← s.takeWhile_append_dropWhile, List.mem_append] at h
  exact h.resolve_left fun h => by simp [List.mem_takeWhile_imp h] at hx

theorem mem_trimWhile (h : x ∈ s) (hx : p x = false) : x ∈ trimWhile p s :=
  List.mem_reverse.mpr <| mem_dropWhile (List.mem_reverse.mpr <| mem_dropWhile h hx) hx

theorem trimWhile_map (f : β → α) (p : α → Bool) (s : List β) :
    trimWhile p (s.map f) = (trimWhile (p ∘ f) s).map f := by
  rw [trimWhile, trimWhile, List.dropWhile_map, ← List.map_reverse, List.dropWhile_map,
    ← List.map_reverse]

variable [DecidableEq α]

theorem cutAt?_append_cons (h : sep ∉ s) : cutAt? sep (s ++ sep :: t) = some (s, t) := by
  induction s
  case nil => simp [cutAt?]
  case cons x s hi =>
    rw [List.mem_cons, not_or] at h
    rw [List.cons_append, cutAt?, if_neg (Ne.symm h.1), hi h.2]
    rfl

theorem cutAt?_of_not_mem (h : sep ∉ s) : cutAt? sep s = none := by
  induction s
  case nil => rfl
  case cons x s hi =>
    rw [List.mem_cons, not_or] at h
    rw [cutAt?, if_neg (Ne.symm h.1), hi h.2]
    rfl

end Ends

end Text

namespace Codes

variable {c : Char} {s t : List Char}

theorem ofChars_inj : ofChars s = ofChars t ↔ s = t where
  mp h  := Option.some.inj <| by rw [← chars?_ofChars s, h, chars?_ofChars]
  mpr h := h ▸ rfl

theorem chars?_eq_some_iff {t : Codes} : t.chars? = some s ↔ t = ofChars s where
  mp h := by
    obtain ⟨points⟩ := t
    rw [chars?] at h
    induction points generalizing s
    case nil =>
      cases h
      rfl
    case cons c points hi =>
      rw [List.mapM_cons] at h
      obtain ⟨a, ha, h⟩ := Option.bind_eq_some_iff.mp h
      obtain ⟨as, has, h⟩ := Option.bind_eq_some_iff.mp h
      cases h
      have hc : c = .char a := by
        cases c <;> cases ha
        rfl
      rw [hc, ofChars, List.map_cons]
      exact congrArg (fun t : Codes => (⟨.char a :: t.points⟩ : Codes)) (hi has)
  mpr h := h ▸ chars?_ofChars s

-- On texts of characters, all the ways to cut are those of the characters.
theorem pieces_ofChars (sep : Char) (s : List Char) :
    (ofChars s).pieces sep = (Text.pieces (· == sep) s).map ofChars := by
  have hp : ((· == Code.char sep) ∘ Code.char) = (· == sep) := by
    funext c
    simp
  rw [pieces, ofChars, Text.pieces_map, hp, List.map_map]
  rfl

theorem beq_eq_false_of_not_mem {α : Type} [DecidableEq α] {a : α} {s : List α} (h : a ∉ s) :
    ∀ x ∈ s, (x == a) = false :=
  fun _ hx => beq_eq_false_iff_ne.mpr fun he => h <| he ▸ hx

theorem pieces_of_not_mem (h : c ∉ s) : (ofChars s).pieces c = [ofChars s] := by
  rw [pieces_ofChars, Text.pieces_of_none <| beq_eq_false_of_not_mem h]
  rfl

theorem pieces_append_cons (h : c ∉ s) :
    (ofChars (s ++ c :: t)).pieces c = ofChars s :: (ofChars t).pieces c := by
  rw [pieces_ofChars, pieces_ofChars,
    Text.pieces_append_cons (beq_eq_false_of_not_mem h) (beq_self_eq_true c)]
  rfl

theorem pieces_joinWith {ts : List (List Char)} (hne : ts ≠ []) (h : ∀ t ∈ ts, c ∉ t) :
    (ofChars (Text.joinWith [c] ts)).pieces c = ts.map ofChars := by
  rw [pieces_ofChars, Text.pieces_joinWith (p := (· == c)) hne (beq_self_eq_true c)]
  exact fun t ht => beq_eq_false_of_not_mem <| h t ht

theorem words_ofChars (s : List Char) :
    (ofChars s).words = (Text.runs Text.isBlank s).map ofChars := by
  rw [words, ofChars, Text.runs_map, List.map_map]
  rfl

theorem trim_ofChars (s : List Char) : (ofChars s).trim = ofChars (Text.trim s) := by
  rw [trim, ofChars, Text.trimWhile_map]
  rfl

theorem not_mem_points (h : c ∉ s) : Code.char c ∉ (ofChars s).points := by
  rw [ofChars, List.mem_map_of_injective fun _ _ => Code.char.inj]
  exact h

theorem mem_trim {t : Codes} (hb : Text.isBlank c = false) (h : .char c ∈ t.points) :
    .char c ∈ t.trim.points :=
  Text.mem_trimWhile h hb

theorem cutAt?_ofChars (h : c ∉ s) :
    (ofChars (s ++ c :: t)).cutAt? c = some (ofChars s, ofChars t) := by
  have hp : (ofChars (s ++ c :: t)).points = (ofChars s).points ++ .char c :: (ofChars t).points :=
    List.map_append
  rw [cutAt?, hp, Text.cutAt?_append_cons (not_mem_points h)]
  rfl

theorem cutAt?_ofChars_eq_none (h : c ∉ s) : (ofChars s).cutAt? c = none := by
  rw [cutAt?, Text.cutAt?_of_not_mem (not_mem_points h)]
  rfl

section Joining

theorem append_assoc (t u v : Codes) : t ++ u ++ v = t ++ (u ++ v) :=
  congrArg Codes.mk <| List.append_assoc ..

theorem ofChars_append (s t : List Char) : ofChars (s ++ t) = ofChars s ++ ofChars t :=
  congrArg Codes.mk List.map_append

theorem map_points_ofChars (ts : List (List Char)) :
    (ts.map ofChars).map points = ts.map (List.map Code.char) :=
  List.map_map ..

theorem ofChars_joinWith (j : List Char) (ts : List (List Char)) :
    ofChars (Text.joinWith j ts) = join (ofChars j) (ts.map ofChars) := by
  rw [ofChars, Text.joinWith_map, join, map_points_ofChars]
  rfl

theorem join_append_cons (j : List Char) (ts us : List (List Char)) (text : Codes) :
    join (ofChars j) (ts.map ofChars ++ text :: us.map ofChars) =
      ofChars (ts.flatMap (· ++ j)) ++ text ++ ofChars (us.flatMap (j ++ ·)) := by
  rw [join, List.map_append, List.map_cons, Text.joinWith_append_cons,
    map_points_ofChars, map_points_ofChars]
  refine congrArg Codes.mk ?_
  simp only [ofChars, List.flatMap_map, List.map_flatMap, List.map_append]
  rfl

end Joining

section Separators

variable {text before after before' after' : Codes} {sep : Char}

theorem points_append (before after : Codes) (c : Char) :
    (before ++ ofChars [c] ++ after).points = before.points ++ .char c :: after.points :=
  List.append_assoc ..

theorem not_mem_append (hb : Code.char c ∉ before.points) (hs : c ≠ sep)
    (ha : .char c ∉ after.points) : .char c ∉ (before ++ ofChars [sep] ++ after).points := by
  simp [points_append, hb, hs, ha]

theorem exists_append (h : .char c ∈ text.points) :
    ∃ before after : Codes, text = before ++ ofChars [c] ++ after ∧ .char c ∉ before.points := by
  obtain ⟨before, after, he, hb⟩ := List.eq_append_cons_of_mem h
  refine ⟨⟨before⟩, ⟨after⟩, congrArg Codes.mk (he.trans ?_), hb⟩
  exact List.append_cons ..

theorem pieces_ne_nil (c : Char) (text : Codes) : text.pieces c ≠ [] := by
  rw [pieces, Ne, List.map_eq_nil_iff]
  exact Text.pieces_ne_nil _ _

-- A text is cut into more than one piece if and only if it has the separator.

theorem pieces_eq_singleton (h : .char c ∉ text.points) : text.pieces c = [text] := by
  rw [pieces, Text.pieces_of_none <| beq_eq_false_of_not_mem h]
  rfl

theorem pieces_append (h : .char c ∉ before.points) :
    (before ++ ofChars [c] ++ after).pieces c = before :: after.pieces c := by
  rw [pieces, points_append,
    Text.pieces_append_cons (beq_eq_false_of_not_mem h) (beq_self_eq_true _)]
  rfl

theorem two_le_length_pieces (h : .char c ∈ text.points) : 2 ≤ (text.pieces c).length := by
  obtain ⟨before, after, rfl, hb⟩ := exists_append h
  rw [pieces_append hb, List.length_cons]
  have := List.length_pos_iff.mpr <| pieces_ne_nil c after
  omega

theorem cutAt?_append_append (after : Codes) (h : .char c ∉ before.points) :
    (before ++ ofChars [c] ++ after).cutAt? c = some (before, after) := by
  rw [cutAt?, points_append, Text.cutAt?_append_cons h]
  rfl

theorem exists_cutAt? (h : .char c ∈ text.points) :
    ∃ before after, text.cutAt? c = some (before, after) := by
  obtain ⟨before, after, rfl, hb⟩ := exists_append h
  exact ⟨before, after, cutAt?_append_append after hb⟩

-- There is one way to cut a text at the first separator.
theorem append_inj (hb : .char c ∉ before.points) (hb' : .char c ∉ before'.points)
    (h : before ++ ofChars [c] ++ after = before' ++ ofChars [c] ++ after') :
    before = before' ∧ after = after' := by
  have he := cutAt?_append_append after hb
  rw [h, cutAt?_append_append after' hb'] at he
  simpa [eq_comm] using he

theorem cutAt?_append (h : .char c ∉ text.points) :
    (text ++ ofChars (c :: t)).cutAt? c = some (text, ofChars t) := by
  have he : text ++ ofChars (c :: t) = text ++ ofChars [c] ++ ofChars t :=
    congrArg Codes.mk <| List.append_cons ..
  rw [he, cutAt?_append_append _ h]

theorem join_pieces (c : Char) (text : Codes) : join (ofChars [c]) (text.pieces c) = text := by
  have hp : ((text.pieces c).map points) = Text.pieces (· == .char c) text.points := by
    rw [pieces, List.map_map]
    exact List.map_id _
  rw [join, hp]
  exact congrArg Codes.mk <| Text.joinWith_pieces (fun _ => beq_iff_eq.mp) text.points

theorem length_pieces (c : Char) (text : Codes) :
    (text.pieces c).length = text.points.count (.char c) + 1 := by
  rw [pieces, List.length_map, Text.length_pieces]
  rfl

theorem sublist_of_mem_pieces (h : before ∈ text.pieces c) : before.points.Sublist text.points := by
  obtain ⟨left, right, he⟩ := List.append_of_mem h
  have hj := congrArg points (join_pieces c text)
  rw [he, join, List.map_append, List.map_cons, Text.joinWith_append_cons] at hj
  rw [← hj]
  exact (List.sublist_append_right _ _).trans (List.sublist_append_left _ _)

theorem pieces_join {ts : List Codes} (hne : ts ≠ []) (h : ∀ t ∈ ts, .char c ∉ t.points) :
    (join (ofChars [c]) ts).pieces c = ts := by
  have hp : Text.pieces (· == .char c) (Text.joinWith [.char c] (ts.map points)) =
      ts.map points :=
    Text.pieces_joinWith (by simpa using hne) (beq_self_eq_true _) <|
      List.forall_mem_map.mpr fun t ht => beq_eq_false_of_not_mem <| h t ht
  refine (congrArg (List.map Codes.mk) hp).trans ?_
  rw [List.map_map]
  exact List.map_id _

theorem not_mem_join {ts : List Codes} (h : ∀ t ∈ ts, .char c ∉ t.points) (hs : c ≠ sep) :
    .char c ∉ (join (ofChars [sep]) ts).points := by
  intro hm
  rcases Text.mem_joinWith hm with hm | ⟨points, ht, hm⟩
  · exact hs <| Code.char.inj <| List.mem_singleton.mp hm
  · obtain ⟨t, hmem, rfl⟩ := List.mem_map.mp ht
    exact h t hmem hm

theorem cutAt?_eq_none (h : .char c ∉ text.points) : text.cutAt? c = none := by
  rw [cutAt?, Text.cutAt?_of_not_mem h]
  rfl

end Separators

end Codes

end Cron
