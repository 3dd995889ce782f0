import Cron.English
import Cron.Proofs.Text.Numeral

-- Texts that can be read back. What is written one after another is told apart if each piece ends
-- where the next one begins: a word before a blank or a comma, a phrase before a comma or an `and`.

namespace Cron.Text

variable {α β : Type} {P : α → Prop} {Q : β → Prop} {f : α → List Char} {g : β → List Char}
variable {stop stop' : List Char → Prop} {p : Char → Bool} {u v r s k : List Char} {m n : Nat}

-- A way of writing that can be read back wherever something may stop.
def Readable (stop : List Char → Prop) (P : α → Prop) (f : α → List Char) : Prop :=
  ∀ a b, P a → P b → ∀ r s, stop r → stop s → f a ++ r = f b ++ s → a = b ∧ r = s

def EndsWord (r : List Char) : Prop := ∀ x, r.head? = some x → x = ' ' ∨ x = ','

-- Nothing follows, or another phrase does, behind a comma or an `and`.
inductive EndsPhrase : List Char → Prop
  | none : EndsPhrase []
  | comma {r : List Char} : EndsPhrase (',' :: r)
  | and {r : List Char} : EndsPhrase (' ' :: 'a' :: r)

theorem endsWord_cons {x : Char} (h : x = ' ' ∨ x = ',') : EndsWord (x :: r) := by
  intro y hy
  cases hy
  exact h

theorem EndsPhrase.endsWord (h : EndsPhrase r) : EndsWord r := by
  cases h
  case none   => exact nofun
  case comma  => exact endsWord_cons (.inr rfl)
  case and    => exact endsWord_cons (.inl rfl)

section Pieces

-- What is free of some characters ends where the first of them stands.
theorem append_inj_of_stop (hu : ∀ x ∈ u, p x = false) (hv : ∀ x ∈ v, p x = false)
    (hr : ∀ x, r.head? = some x → p x) (hs : ∀ x, s.head? = some x → p x)
    (h : u ++ r = v ++ s) : u = v ∧ r = s := by
  induction u generalizing v
  case nil =>
    cases v
    case nil => exact ⟨rfl, h⟩
    case cons y v =>
      have hy := hr y (by rw [show r = y :: (v ++ s) from h]; rfl)
      cases hy.symm.trans <| hv y List.mem_cons_self
  case cons x u hi =>
    cases v
    case nil =>
      have hx := hs x (by rw [← show x :: (u ++ r) = s from h]; rfl)
      cases hx.symm.trans <| hu x List.mem_cons_self
    case cons y v =>
      obtain ⟨rfl, htail⟩ := List.cons.inj h
      obtain ⟨rfl, hrs⟩ := hi (fun x hx => hu x <| List.mem_cons_of_mem _ hx)
        (fun x hx => hv x <| List.mem_cons_of_mem _ hx) htail
      exact ⟨rfl, hrs⟩

-- A number is read back if no digit follows.
theorem natDigits_append_inj (hu : ∀ x, u.head? = some x → isAsciiDigit x = false)
    (hv : ∀ x, v.head? = some x → isAsciiDigit x = false)
    (h : natDigits m ++ u = natDigits n ++ v) : m = n ∧ u = v := by
  have hd {n : Nat} : ∀ x ∈ natDigits n, (!isAsciiDigit x) = false := fun x hx => by
    rw [isAsciiDigit_of_mem_natDigits hx, Bool.not_true]
  obtain ⟨hmn, huv⟩ := append_inj_of_stop hd hd (fun x hx => by rw [hu x hx, Bool.not_false])
    (fun x hx => by rw [hv x hx, Bool.not_false]) h
  refine ⟨?_, huv⟩
  rw [← digitsValue_natDigits m, hmn, digitsValue_natDigits]

namespace Readable

theorem word (hw : ∀ a, P a → ∀ x ∈ f a, x ≠ ' ' ∧ x ≠ ',')
    (hi : ∀ a b, P a → P b → f a = f b → a = b) : Readable EndsWord P f := by
  intro a b ha hb r s hr hs h
  have hfree (a) (ha : P a) (x) (hx : x ∈ f a) : decide (x = ' ' ∨ x = ',') = false :=
    decide_eq_false fun h => h.elim (hw a ha x hx).1 (hw a ha x hx).2
  obtain ⟨hab, hrs⟩ := append_inj_of_stop (hfree a ha) (hfree b hb)
    (fun x hx => decide_eq_true <| hr x hx) (fun x hx => decide_eq_true <| hs x hx) h
  exact ⟨hi a b ha hb hab, hrs⟩

-- Pieces of several kinds are read back if each kind is, and if the text tells the kind.
theorem of_kind {κ : Type} (kind : α → κ) (mark : List Char → κ)
    (hm : ∀ a r, P a → stop r → mark (f a ++ r) = kind a)
    (h : ∀ k, Readable stop (fun a => P a ∧ kind a = k) f) : Readable stop P f := by
  intro a b ha hb r s hr hs he
  have hk : kind b = kind a := by rw [← hm b s hb hs, ← he, hm a r ha hr]
  exact h (kind a) a b ⟨ha, rfl⟩ ⟨hb, hk⟩ r s hr hs he

-- What is made of pieces is read back if the pieces are.
theorem of_made (h : Readable stop Q g) (make : β → α)
    (hm : ∀ a, P a → ∃ b, Q b ∧ make b = a ∧ f a = g b) : Readable stop P f := by
  intro a b ha hb r s hr hs he
  obtain ⟨x, hx, rfl, hfx⟩ := hm a ha
  obtain ⟨y, hy, rfl, hfy⟩ := hm b hb
  rw [hfx, hfy] at he
  obtain ⟨rfl, hrs⟩ := h x y hx hy r s hr hs he
  exact ⟨rfl, hrs⟩

theorem nil (stop : List Char → Prop) : Readable stop (fun _ : Unit => True) fun _ => [] :=
  fun _ _ _ _ _ _ _ _ he => ⟨rfl, he⟩

theorem behind (h : Readable stop P f) (k : List Char) : Readable stop P fun a => k ++ f a := by
  intro a b ha hb r s hr hs he
  rw [List.append_assoc, List.append_assoc, List.append_right_inj] at he
  exact h a b ha hb r s hr hs he

theorem before (h : Readable stop' P f) (hk : ∀ r, stop r → stop' (k ++ r)) :
    Readable stop P fun a => f a ++ k := by
  intro a b ha hb r s hr hs he
  rw [List.append_assoc, List.append_assoc] at he
  obtain ⟨hab, hrs⟩ := h a b ha hb _ _ (hk r hr) (hk s hs) he
  exact ⟨hab, List.append_cancel_left hrs⟩

-- One piece after another.
theorem pair (hf : Readable stop' P f) (hg : Readable stop Q g)
    (hk : ∀ b r, Q b → stop r → stop' (g b ++ r)) :
    Readable stop (fun x : α × β => P x.1 ∧ Q x.2) fun x => f x.1 ++ g x.2 := by
  rintro ⟨a, b⟩ ⟨a', b'⟩ ⟨ha, hb⟩ ⟨ha', hb'⟩ r s hr hs he
  rw [List.append_assoc, List.append_assoc] at he
  obtain ⟨rfl, hrest⟩ := hf a a' ha ha' _ _ (hk b r hb hr) (hk b' s hb' hs) he
  obtain ⟨rfl, hrs⟩ := hg b b' hb hb' r s hr hs hrest
  exact ⟨rfl, hrs⟩

end Readable
end Pieces

section Sentences

-- What follows a phrase that has others behind it.
def following : List (List Char) → List Char
  | [] => []
  | [q] => " and ".toList ++ q
  | q :: r :: rest => ", ".toList ++ q ++ following (r :: rest)

def sentence : List (List Char) → List Char
  | [] => []
  | q :: rest => q ++ following rest

theorem endsPhrase_following (ts : List (List Char)) : EndsPhrase (following ts) := by
  cases ts
  case nil => exact .none
  case cons q rest =>
    cases rest
    case nil  => exact .and
    case cons => exact .comma

theorem following_inj (hf : Readable EndsPhrase P f) {as bs : List α} (ha : ∀ a ∈ as, P a)
    (hb : ∀ b ∈ bs, P b) (h : following (as.map f) = following (bs.map f)) : as = bs := by
  induction as generalizing bs
  case nil =>
    cases bs
    case nil  => rfl
    case cons b bs => cases bs <;> cases h
  case cons a as hi =>
    obtain ⟨hpa, has⟩ := List.forall_mem_cons.mp ha
    cases bs
    case nil => cases as <;> cases h
    case cons b bs =>
      obtain ⟨hpb, hbs⟩ := List.forall_mem_cons.mp hb
      cases as <;> cases bs
      case nil.nil =>
        have h : f a ++ [] = f b ++ [] := by simpa [following] using h
        obtain ⟨rfl, -⟩ := hf a b hpa hpb [] [] .none .none h
        rfl
      case nil.cons => cases h
      case cons.nil => cases h
      case cons.cons a' as b' bs =>
        have h : f a ++ following ((a' :: as).map f) = f b ++ following ((b' :: bs).map f) := by
          simpa [following] using h
        obtain ⟨rfl, hrest⟩ :=
          hf a b hpa hpb _ _ (endsPhrase_following _) (endsPhrase_following _) h
        rw [hi has hbs hrest]

-- A sentence tells of what it is made.
theorem sentence_inj (hf : Readable EndsPhrase P f) (hne : ∀ a, P a → f a ≠ []) {as bs : List α}
    (ha : ∀ a ∈ as, P a) (hb : ∀ b ∈ bs, P b)
    (h : sentence (as.map f) = sentence (bs.map f)) : as = bs := by
  cases as <;> cases bs
  case nil.nil => rfl
  case nil.cons b bs =>
    have h := (List.append_eq_nil_iff.mp h.symm).1
    exact absurd h <| hne b <| hb b List.mem_cons_self
  case cons.nil a as =>
    have h := (List.append_eq_nil_iff.mp h).1
    exact absurd h <| hne a <| ha a List.mem_cons_self
  case cons.cons a as b bs =>
    obtain ⟨hpa, has⟩ := List.forall_mem_cons.mp ha
    obtain ⟨hpb, hbs⟩ := List.forall_mem_cons.mp hb
    obtain ⟨rfl, hrest⟩ := hf a b hpa hpb _ _ (endsPhrase_following _) (endsPhrase_following _) h
    rw [following_inj hf has hbs hrest]

theorem toList_joinPhrases (ps : List String) :
    (Layout.joinPhrases ps).toList = sentence (ps.map String.toList) := by
  cases ps
  case nil => rfl
  case cons q rest =>
    cases rest
    case nil => simp [Layout.joinPhrases, sentence, following]
    case cons r rest =>
      induction rest generalizing q r
      case nil              => simp [Layout.joinPhrases, sentence, following]
      case cons r' rest hi  => simpa [Layout.joinPhrases, sentence, following] using hi r r'

end Sentences

end Cron.Text
