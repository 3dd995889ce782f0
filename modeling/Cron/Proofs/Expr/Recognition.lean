import Cron.Proofs.Expr.Nesting

-- Reading decides the grammar: a text that writes an expression reads as it, any other is refused.
-- Only runs of digits that are too long for a number get in the way, and texts that there is no
-- room for.

namespace Cron

variable {l : Layout} {c : Column} {text : Codes} {e : Shape} {n : Int}

-- What reading may give for a text that writes the values `W`, has the runs of digits `runs`, and
-- leaves no room for the next call if `D` holds.
inductive Reading {α : Type} (W : α → Prop) (D : Prop) (runs : List (List Code)) :
    Except Refusal α → Prop
  | ok {a} (h : ∀ b, W b ↔ b = a) (hd : ¬D) (hs : ∀ run ∈ runs, run.length ≤ Text.maxDigits) :
    Reading W D runs (.ok a)
  | long {run} (hm : run ∈ runs) (hl : Text.maxDigits < run.length) :
    Reading W D runs (.error (.tooLong run.length))
  | deep (hd : D) : Reading W D runs (.error .tooDeep)
  | refused {reason} (hr : reason.isMalformed) (hd : ¬D) (h : ∀ a, ¬W a) :
    Reading W D runs (.error reason)

namespace Reading

variable {α β : Type} {W : α → Prop} {V : α → β → Prop} {D D' : Prop}
variable {runs runs' : List (List Code)} {x : Except Refusal α}

theorem of_iff {W' : α → Prop} (h : Reading W D runs x) (hw : ∀ a, W' a ↔ W a) (hd : D' ↔ D) :
    Reading W' D' runs x := by
  obtain rfl : W' = W := funext fun a => propext (hw a)
  obtain rfl : D' = D := propext hd
  exact h

theorem of_ok {a : α} (h : Reading W D runs (.ok a)) :
    (∀ b, W b ↔ b = a) ∧ ¬D ∧ ∀ run ∈ runs, run.length ≤ Text.maxDigits := by
  cases h
  case ok hd hs h => exact ⟨h, hd, hs⟩

theorem iff_of_eq_ok {a : α} (h : Reading W D runs x) (hx : x = .ok a) (b : α) : W b ↔ b = a :=
  (hx ▸ h).of_ok.1 b

theorem of_error {reason : Refusal} (h : Reading W D runs (.error reason)) :
    (∃ run ∈ runs, Text.maxDigits < run.length ∧ reason = .tooLong run.length) ∨
      reason = .tooDeep ∧ D ∨ reason.isMalformed ∧ ¬D ∧ ∀ a, ¬W a := by
  cases h
  case long run hm hl   => exact .inl ⟨run, hm, hl, rfl⟩
  case deep hd          => exact .inr <| .inl ⟨rfl, hd⟩
  case refused hd h hr  => exact .inr <| .inr ⟨hr, hd, h⟩

theorem pure (a : α) : Reading (· = a) False [] (.ok a) := .ok (fun _ => Iff.rfl) id nofun

-- What was read before has short runs of digits, and left room.
theorem append_left (hs : ∀ run ∈ runs', run.length ≤ Text.maxDigits) (h : Reading W D runs x) :
    Reading W D (runs' ++ runs) x := by
  cases h
  case ok a ha hd hs'  => exact .ok ha hd <| List.forall_mem_append.mpr ⟨hs, hs'⟩
  case long hm hl      => exact .long (List.mem_append_right _ hm) hl
  case deep hd         => exact .deep hd
  case refused hr hd h => exact .refused hr hd h

-- Readings one after the other. The second has the runs that are left, and is made only if the
-- first gives a value.
theorem bind {f : α → Except Refusal β} (h : Reading W D runs x)
    (hf : ∀ a, W a → Reading (V a) D' runs' (f a)) :
    Reading (fun b => ∃ a, W a ∧ V a b) (D ∨ (∃ a, W a) ∧ D') (runs ++ runs') (x >>= f) := by
  cases h
  case long hm hl => exact .long (List.mem_append_left _ hm) hl
  case deep hd    => exact .deep (.inl hd)
  case refused hr hd h =>
    refine .refused hr (by simp [hd, h]) ?_
    rintro b ⟨a, ha, -⟩
    exact h a ha
  case ok a h hd hs =>
    exact (hf a <| (h a).mpr rfl).append_left hs |>.of_iff (fun b => by simp [h]) (by simp [hd, h])

theorem map (f : α → β) (h : Reading W D runs x) :
    Reading (fun b => ∃ a, W a ∧ b = f a) D runs (x.map f) := by
  have hb := h.bind (f := fun a => .ok (f a)) fun a _ => pure (f a)
  rw [List.append_nil] at hb
  have hd : D ↔ D ∨ (∃ a, W a) ∧ False := by simp
  have hb := hb.of_iff (fun _ => Iff.rfl) hd
  cases x <;> exact hb

-- The items of a list, one after the other.
theorem mapM {f : α → Except Refusal β} {run : α → List (List Code)} {P : α → Prop} (as : List α)
    (h : ∀ a ∈ as, Reading (V a) (P a) (run a) (f a)) :
    Reading (List.Forall₂ V as) (∃ before a after, as = before ++ a :: after ∧
      (∀ x ∈ before, ∃ b, V x b) ∧ P a) (as.flatMap run) (as.mapM f) := by
  induction as
  case nil => exact (pure []).of_iff (fun bs => by simp) (by simp)
  case cons a as hi =>
    obtain ⟨ha, has⟩ := List.forall_mem_cons.mp h
    rw [List.mapM_cons, List.flatMap_cons]
    have hb := ha.bind fun b _ => (hi has).map (b :: ·)
    refine hb.of_iff (fun bs => by simp [List.forall₂_cons_left_iff]) ?_
    exact Layout.exists_append_cons_iff

end Reading

namespace Layout

variable {s : List Char}

section Integers

theorem reading_numeral (s : List Char) :
    Reading (· = Text.digitsValue s) False [s.map Code.char] (readNumeral s) := by
  rw [readNumeral]
  split
  case isTrue hl  => exact .ok (fun _ => Iff.rfl) id <| List.forall_mem_singleton.mpr <| by simpa
  case isFalse hl =>
    have hr : Reading (· = Text.digitsValue s) False [s.map Code.char] (.error (.tooLong _)) :=
      .long List.mem_cons_self (by simpa using hl)
    rwa [List.length_map] at hr

theorem digitRuns_of_mem_names (h : (s.map capital, n) ∈ l.names c) :
    (Codes.ofChars s).digitRuns = [] := by
  refine Codes.digitRuns_of_none fun x hx => Bool.eq_false_iff.mpr fun hd => ?_
  exact not_mem_of_mem_names h (not_isUpper_of_isAsciiDigit hd) (Text.capital_of_isAsciiDigit hd) hx

theorem reading_integer (l : Layout) (c : Column) (token : Codes) :
    Reading (l.WritesInteger c token) False token.digitRuns (l.readInteger c token) := by
  rw [readInteger, ← Codes.digitRuns_trim]
  split
  case h_1 hn =>
    refine .refused rfl id fun n h => ?_
    cases h
    all_goals simp_all [Codes.chars?_ofChars]
  case h_2 s hs =>
    have ht := Codes.chars?_eq_some_iff.mp hs
    rw [ht]
    dsimp only
    split
    case h_1 nm n hf =>
      obtain rfl : nm = s.map capital := by simpa using List.find?_some hf
      have hm := List.mem_of_find?_eq_some hf
      exact .ok (writesInteger_iff_eq ht hm) id <| by simp [digitRuns_of_mem_names hm]
    case h_2 hf =>
      have hn (n : Int) : (s.map capital, n) ∉ l.names c := fun h => by
        simpa using List.find?_eq_none.mp hf _ h
      split
      case isTrue hd =>
        have hw := map_capital_of_isNumeral hd
        simp only [hw] at hd hn ⊢
        rw [Codes.digitRuns_of_isNumeral hd]
        refine (reading_numeral s).map Int.ofNat |>.of_iff (fun n => ?_) Iff.rfl
        simp [writesInteger_iff ht, hn, hw, hd]
      case isFalse hd =>
        refine .refused rfl id fun n h => ?_
        exact ((writesInteger_iff ht).mp h).elim (hn n) fun h => hd h.1

end Integers

section Tokens

theorem reading_single (l : Layout) (c : Column) (token : Codes) :
    Reading (l.WritesSingle c token) False token.digitRuns (l.readSingle c token) := by
  rw [readSingle]
  split
  case isTrue h =>
    obtain ⟨x, rfl, hx, hd⟩ : ∃ x, token = .ofChars [x] ∧ x ∈ marks ∧
        Text.isAsciiDigit x = false := by
      rcases h with rfl | rfl
      · exact ⟨'*', rfl, by decide, by decide⟩
      · exact ⟨'?', rfl, by decide, by decide⟩
    rw [Codes.digitRuns_of_none <| List.forall_mem_singleton.mpr hd]
    refine .ok (fun e => ⟨fun he => ?_, fun he => he ▸ .any h⟩) id (by simp)
    cases he
    case any      => rfl
    case value hn => exact absurd List.mem_cons_self <| hn.not_mem hx
  case isFalse h =>
    refine (reading_integer l c token).map _ |>.of_iff (fun e => ⟨fun he => ?_, ?_⟩) Iff.rfl
    · cases he
      case any h'   => exact absurd h' h
      case value hn => exact ⟨_, hn, rfl⟩
    · rintro ⟨n, hn, rfl⟩
      exact .value hn

-- The ends of a range are single values.
theorem reading_ends (low high : Shape) (tokens : List Codes) :
    Reading (fun e => (low.isValue ∧ high.isValue) ∧ e = Expr.range () low high) False []
      (if low.isValue && high.isValue then .ok (.range () low high)
        else .error (.range (.join (.ofChars ['-']) tokens))) := by
  split
  case isTrue hv =>
    rw [Bool.and_eq_true] at hv
    exact (Reading.pure _).of_iff (fun e => and_iff_right hv) Iff.rfl
  case isFalse hv => exact .refused rfl id fun e he => hv <| by simpa using he.1

-- By induction on the room: what follows the first dash is read as a base of its own.
theorem reading_span (l : Layout) (c : Column) (room : Nat) (token : Codes) :
    Reading (l.WritesBase c token) (l.Overruns c room token) token.digitRuns
      (l.readSpan c room (token.pieces '-')) := by
  by_cases h : .char '-' ∈ token.points
  case neg =>
    rw [Codes.pieces_eq_singleton h, readSpan]
    exact (reading_single l c token).of_iff (fun e => writesBase_iff_writesSingle h)
      (iff_of_false (not_overruns_of_not_mem h) id)
  case pos =>
    obtain ⟨before, after, rfl, hb⟩ := Codes.exists_append h
    have hne := Codes.pieces_ne_nil '-' after
    cases room
    case zero =>
      rw [Codes.pieces_append hb, readSpan]
      · exact .deep <| overruns_zero_append hb
      · simp
      · exact fun _ he => hne (List.cons.inj he).2
    case succ room =>
      rw [Codes.pieces_append hb, readSpan, Codes.digitRuns_append (by decide)]
      · have hr := (reading_single l c before).bind fun low _ =>
          (reading_span l c room after).bind fun high _ =>
            reading_ends low high (before :: after.pieces '-')
        rw [List.append_nil] at hr
        refine hr.of_iff (fun e => writesBase_append_iff hb) ?_
        rw [overruns_succ_append_iff hb]
        simp
      · exact hne

theorem reading_base (l : Layout) (c : Column) (token : Codes) :
    Reading (l.WritesBase c token) (l.Overruns c (l.room + 1) token) token.digitRuns
      (l.readBase c token) :=
  reading_span l c (l.room + 1) token

theorem reading_positive (l : Layout) (c : Column) (n : Nat) :
    Reading (fun e => 0 < n ∧ e = Expr.value () (l.bound c n)) False []
      (if n = 0 then .error (.stepOfZero n) else .ok (.value () (l.bound c n))) := by
  split
  case isTrue hz => exact .refused rfl id fun e he => by omega
  case isFalse hz =>
    have hp := Nat.pos_of_ne_zero hz
    exact (Reading.pure _).of_iff (fun e => and_iff_right hp) Iff.rfl

theorem reading_width (l : Layout) (c : Column) (text : Codes) :
    Reading (l.WritesWidth c text) False text.digitRuns (l.readWidth c text) := by
  rw [readWidth]
  split
  case h_1 hn =>
    refine .refused rfl id fun e he => ?_
    cases he
    simp_all [Codes.chars?_ofChars]
  case h_2 s hs =>
    obtain rfl := Codes.chars?_eq_some_iff.mp hs
    split
    case isTrue hd =>
      have hr := (reading_numeral s).bind fun n _ => reading_positive l c n
      rw [List.append_nil] at hr
      rw [Codes.digitRuns_of_isNumeral hd]
      exact hr.of_iff (fun e => by simp [writesWidth_iff, hd]) (by simp)
    case isFalse hd => exact .refused rfl id fun e he => hd (writesWidth_iff.mp he).1

theorem reading_token (l : Layout) (c : Column) (token : Codes) :
    Reading (l.WritesToken c token) (l.Overruns c (l.room + 1) (baseOf token)) token.digitRuns
      (l.readToken c token) := by
  rw [readToken]
  by_cases h : .char '/' ∈ token.points
  case neg =>
    rw [Codes.cutAt?_eq_none h, baseOf_of_not_mem h]
    exact (reading_base l c token).of_iff (fun e => writesToken_iff_writesBase h) Iff.rfl
  case pos =>
    obtain ⟨before, after, rfl, hb⟩ := Codes.exists_append h
    rw [Codes.cutAt?_append_append after hb, Codes.digitRuns_append (by decide), baseOf_append hb]
    have hr := (reading_base l c before).bind fun base _ =>
      (reading_width l c after).bind fun width _ => .pure (Expr.step () base width)
    rw [List.append_nil] at hr
    exact hr.of_iff (fun e => writesToken_append_iff hb) (by simp)

end Tokens

section Columns

theorem reading_shape (l : Layout) (c : Column) (text : Codes) :
    Reading (l.Writes c text) (l.Nests c text) text.digitRuns (l.readShape c text) := by
  by_cases h : .char ',' ∈ text.points
  case neg =>
    rw [readShape, Codes.pieces_eq_singleton h]
    exact (reading_token l c text).of_iff (fun e => writes_iff_writesToken h)
      (nests_iff_of_not_mem h)
  case pos =>
    rw [readShape_of_two_le <| Codes.two_le_length_pieces h,
      Codes.digitRuns_pieces (c := ',') (by decide)]
    have hr := Reading.mapM (text.pieces ',') fun token _ => reading_token l c token
    exact (hr.map _).of_iff (fun e => writes_iff_forall₂ h) Iff.rfl

variable {position : Int} {err : ReadError}

theorem of_read_eq_ok (h : l.read c text position = .ok e) :
    (∀ e', l.Writes c text e' ↔ e' = e) ∧ text.ShortRuns := by
  have hr := reading_shape l c text
  rw [Except.mapError_eq_ok_iff.mp h] at hr
  obtain ⟨hw, -, hs⟩ := hr.of_ok
  exact ⟨hw, hs⟩

-- A text that is not read has a run of digits that is too long, leaves no room for a call, or is
-- not in the grammar.
theorem of_read_eq_error (h : l.read c text position = .error err) :
    err.expression = text ∧ err.position = position ∧
      ((∃ run ∈ text.digitRuns, Text.maxDigits < run.length ∧ err.reason = .tooLong run.length) ∨
        err.reason = .tooDeep ∧ l.Nests c text ∨
        err.isMalformed ∧ ¬l.Nests c text ∧ ∀ e, ¬l.Writes c text e) := by
  obtain ⟨reason, hreason, rfl⟩ := Except.mapError_eq_error_iff.mp h
  have hr := reading_shape l c text
  rw [hreason] at hr
  exact ⟨rfl, rfl, hr.of_error⟩

-- Short runs of digits do not get in the way.
theorem of_read_eq_error_of_shortRuns (hs : text.ShortRuns)
    (h : l.read c text position = .error err) :
    err.expression = text ∧ err.position = position ∧ (∀ e, ¬l.Writes c text e) ∧
      (err.isMalformed ↔ ¬l.Nests c text) ∧ (err.reason = .tooDeep ↔ l.Nests c text) := by
  obtain ⟨he, hp, ⟨run, hm, hl, -⟩ | ⟨hr, hd⟩ | ⟨hm, hd, hw⟩⟩ := of_read_eq_error h
  · have := hs run hm
    omega
  · refine ⟨he, hp, fun e hw => hw.not_nests hd, ?_, iff_of_true hr hd⟩
    exact iff_of_false (by simp [ReadError.isMalformed, Refusal.isMalformed, hr]) (not_not.mpr hd)
  · refine ⟨he, hp, hw, iff_of_true hm hd, iff_of_false (fun hr => ?_) hd⟩
    simp [ReadError.isMalformed, Refusal.isMalformed, hr] at hm

theorem read_eq_ok_iff (hs : text.ShortRuns) :
    l.read c text position = .ok e ↔ l.Writes c text e where
  mp h := (of_read_eq_ok h).1 e |>.mpr rfl
  mpr hw := by
    cases hr : l.read c text position
    case ok     => rw [(of_read_eq_ok hr).1 e |>.mp hw]
    case error  => exact absurd hw <| (of_read_eq_error_of_shortRuns hs hr).2.2.1 e

end Columns

end Layout

end Cron
