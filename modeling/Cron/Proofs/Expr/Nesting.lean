import Cron.Proofs.Expr.Grammar

-- Texts that the reader has no room for. It reads a base by one nested call per dash, so that it
-- gives up on a base with more dashes than it has calls, unless it meets something else before that
-- it cannot read. No text of the grammar has more than one dash in a base.

namespace Cron.Layout

variable {l : Layout} {c : Column} {base token text before after : Codes} {e : Shape} {room : Nat}

-- What stands before the first slash of a token.
def baseOf (token : Codes) : Codes := (token.pieces '/').headD token

-- There are more dashes in a base than calls, and what stands before each of the dashes that there
-- are calls for is a single value.
def Overruns (l : Layout) (c : Column) (room : Nat) (base : Codes) : Prop :=
  room + 1 < (base.pieces '-').length ∧
    ∀ piece ∈ (base.pieces '-').take room, ∃ e, l.WritesSingle c piece e

-- The base of some token overruns the room, and the tokens before it are in the grammar.
def Nests (l : Layout) (c : Column) (text : Codes) : Prop :=
  ∃ before token after, text.pieces ',' = before ++ token :: after ∧
    (∀ t ∈ before, ∃ e, l.WritesToken c t e) ∧ l.Overruns c (l.room + 1) (baseOf token)

section Bases

theorem baseOf_of_not_mem (h : .char '/' ∉ token.points) : baseOf token = token := by
  rw [baseOf, Codes.pieces_eq_singleton h, List.headD_cons]

theorem baseOf_append (h : .char '/' ∉ before.points) :
    baseOf (before ++ .ofChars ['/'] ++ after) = before := by
  rw [baseOf, Codes.pieces_append h, List.headD_cons]

theorem sublist_baseOf (token : Codes) : (baseOf token).points.Sublist token.points := by
  obtain ⟨base, more, he⟩ := List.exists_cons_of_ne_nil (Codes.pieces_ne_nil '/' token)
  rw [baseOf, he, List.headD_cons]
  exact Codes.sublist_of_mem_pieces (c := '/') (he ▸ List.mem_cons_self)

theorem not_overruns_of_not_mem (h : .char '-' ∉ base.points) : ¬l.Overruns c room base := by
  rintro ⟨hlen, -⟩
  rw [Codes.pieces_eq_singleton h, List.length_singleton] at hlen
  omega

theorem overruns_zero_append (h : .char '-' ∉ before.points) :
    l.Overruns c 0 (before ++ .ofChars ['-'] ++ after) := by
  have hpos := List.length_pos_of_ne_nil <| Codes.pieces_ne_nil '-' after
  refine ⟨?_, by simp⟩
  rw [Codes.pieces_append h, List.length_cons]
  omega

theorem overruns_succ_append_iff (h : .char '-' ∉ before.points) :
    l.Overruns c (room + 1) (before ++ .ofChars ['-'] ++ after) ↔
      (∃ e, l.WritesSingle c before e) ∧ l.Overruns c room after := by
  rw [Overruns, Overruns, Codes.pieces_append h, List.length_cons, List.take_succ_cons,
    List.forall_mem_cons, Nat.add_lt_add_iff_right]
  exact and_left_comm

theorem not_overruns_of_range (hb : .char '-' ∉ before.points) (ha : .char '-' ∉ after.points) :
    ¬l.Overruns c (room + 1) (before ++ .ofChars ['-'] ++ after) := fun h =>
  not_overruns_of_not_mem ha ((overruns_succ_append_iff hb).mp h).2

theorem WritesBase.not_overruns (h : l.WritesBase c base e) : ¬l.Overruns c (room + 1) base := by
  cases h
  case single h => exact not_overruns_of_not_mem <| h.not_mem (by decide) (by decide) (by decide)
  case range hl hh =>
    exact not_overruns_of_range (hl.not_mem (by decide)) (hh.not_mem (by decide))

theorem WritesToken.not_overruns (h : l.WritesToken c token e) :
    ¬l.Overruns c (room + 1) (baseOf token) := by
  cases h
  case base hb =>
    rw [baseOf_of_not_mem <| hb.not_mem <| .inl rfl]
    exact hb.not_overruns
  case step hb _ =>
    rw [baseOf_append <| hb.not_mem <| .inl rfl]
    exact hb.not_overruns

end Bases

section Texts

-- What comes first in a list with one property before one with another.
theorem exists_append_cons_iff {α : Type} {P Q : α → Prop} {a : α} {as : List α} :
    (∃ before x after, a :: as = before ++ x :: after ∧ (∀ y ∈ before, P y) ∧ Q x) ↔
      Q a ∨ P a ∧ ∃ before x after, as = before ++ x :: after ∧ (∀ y ∈ before, P y) ∧ Q x := by
  constructor
  · rintro ⟨_ | ⟨b, before⟩, x, after, he, hp, hq⟩
    · cases he
      exact .inl hq
    · cases he
      obtain ⟨ha, hp⟩ := List.forall_mem_cons.mp hp
      exact .inr ⟨ha, before, x, after, rfl, hp, hq⟩
  · rintro (hq | ⟨ha, before, x, after, rfl, hp, hq⟩)
    · exact ⟨[], a, as, rfl, List.forall_mem_nil _, hq⟩
    · exact ⟨a :: before, x, after, rfl, List.forall_mem_cons.mpr ⟨ha, hp⟩, hq⟩

theorem nests_iff_of_not_mem (h : .char ',' ∉ text.points) :
    l.Nests c text ↔ l.Overruns c (l.room + 1) (baseOf text) := by
  rw [Nests, Codes.pieces_eq_singleton h, exists_append_cons_iff]
  simp

theorem not_nests_of_forall
    (h : ∀ token ∈ text.pieces ',', ¬l.Overruns c (l.room + 1) (baseOf token)) :
    ¬l.Nests c text := by
  rintro ⟨before, token, after, hp, -, ho⟩
  exact h token (by simp [hp]) ho

-- A text leaves room if it has no more dashes than there are calls.
theorem not_nests_of_count_le (h : text.points.count (.char '-') ≤ l.room + 1) :
    ¬l.Nests c text := by
  refine not_nests_of_forall fun token ht ho => ?_
  have hs := (sublist_baseOf token).trans <| Codes.sublist_of_mem_pieces ht
  have hc := hs.count_le (.char '-')
  have hlen := ho.1
  rw [Codes.length_pieces] at hlen
  omega

-- No text of the grammar is one that the reader has no room for.
theorem Writes.not_nests (h : l.Writes c text e) : ¬l.Nests c text := by
  by_cases hm : .char ',' ∈ text.points
  case neg =>
    rw [nests_iff_of_not_mem hm]
    exact ((writes_iff_writesToken hm).mp h).not_overruns
  case pos =>
    obtain ⟨es, hes, -⟩ := (writes_iff_forall₂ hm).mp h
    refine not_nests_of_forall ?_
    exact ((List.forall₂_and_left _ _).mp <| hes.imp fun _ _ ht => ⟨ht.not_overruns, ht⟩).1

-- There is no room for a text of too many single values between dashes.
theorem nests_join {texts : List Codes} (hl : l.room + 2 < texts.length)
    (hs : ∀ t ∈ texts, ∃ e, l.WritesSingle c t e) : l.Nests c (.join (.ofChars ['-']) texts) := by
  have hmark {x : Char} (hx : x ∈ marks) (ha : x ≠ '*') (hq : x ≠ '?') :
      ∀ t ∈ texts, .char x ∉ t.points := by
    intro t ht
    obtain ⟨e, he⟩ := hs t ht
    exact he.not_mem hx ha hq
  have hp : (Codes.join (.ofChars ['-']) texts).pieces '-' = texts :=
    Codes.pieces_join (List.ne_nil_of_length_pos (by omega)) <|
      hmark (by decide) (by decide) (by decide)
  have hcomma : .char ',' ∉ (Codes.join (.ofChars ['-']) texts).points :=
    Codes.not_mem_join (hmark (by decide) (by decide) (by decide)) (by decide)
  have hslash : .char '/' ∉ (Codes.join (.ofChars ['-']) texts).points :=
    Codes.not_mem_join (hmark (by decide) (by decide) (by decide)) (by decide)
  rw [nests_iff_of_not_mem hcomma, baseOf_of_not_mem hslash, Overruns, hp]
  exact ⟨hl, fun t ht => hs t <| List.mem_of_mem_take ht⟩

end Texts

end Cron.Layout
