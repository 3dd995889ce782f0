import Cron.Expr.Next
import Cron.Proofs.Expr.Fits

namespace Cron.Expr

variable {ι : Type} {d : Domain} {e : Expr ι} {l : Layout} {c : Column} {pos : Position}
variable {start n r : Int}

-- The integers that an expression stands for. A range whose ends are the wrong way round stands for
-- everything but what lies between them.
inductive Holds (d : Domain) : Expr ι → Int → Prop
  | any {t n} : Holds d (any t) n
  | value {t n} : Holds d (value t n) n
  | within {t low high n} :
    low.literal ≤ n → n ≤ high.literal → Holds d (range t low high) n
  | outside {t low high n} :
    high.literal < low.literal → n ≤ high.literal ∨ low.literal ≤ n → Holds d (range t low high) n
  | first {t base width} : Holds d (step t base width) (base.floor d)
  | next {t base width} {top : Int} {k : Nat} :
    base.ceiling? d = some top → base.floor d + k * width.literal ≤ top →
    Holds d (step t base width) (base.floor d + k * width.literal)
  | member {t ms m n} : m ∈ ms → Holds d m n → Holds d (list t ms) n

@[simp]
theorem holds_any {t : ι} : Holds d (.any t) n := .any

@[simp]
theorem holds_value_iff {t : ι} {m : Int} : Holds d (.value t m) n ↔ n = m where
  mp  := fun | .value => rfl
  mpr := fun h => h ▸ .value

@[simp]
theorem holds_range_iff {t : ι} {low high : Expr ι} :
    Holds d (.range t low high) n ↔ low.literal ≤ n ∧ n ≤ high.literal ∨
      high.literal < low.literal ∧ (n ≤ high.literal ∨ low.literal ≤ n) where
  mp  := fun | .within hl hh => .inl ⟨hl, hh⟩ | .outside hw h => .inr ⟨hw, h⟩
  mpr := fun | .inl ⟨hl, hh⟩ => .within hl hh | .inr ⟨hw, h⟩ => .outside hw h

theorem holds_step_iff {t : ι} {base width : Expr ι} :
    Holds d (.step t base width) n ↔ n = base.floor d ∨
      ∃ (k : Nat) (top : Int), base.ceiling? d = some top ∧
        n = base.floor d + k * width.literal ∧ n ≤ top where
  mp  := fun | .first => .inl rfl | .next ht hk => .inr ⟨_, _, ht, rfl, hk⟩
  mpr := fun | .inl h => h ▸ .first | .inr ⟨_, _, ht, he, hk⟩ => he ▸ .next ht (he ▸ hk)

@[simp]
theorem holds_list_iff {t : ι} {ms : List (Expr ι)} :
    Holds d (.list t ms) n ↔ ∃ m ∈ ms, Holds d m n where
  mp  := fun | .member hm h => ⟨_, hm, h⟩
  mpr := fun ⟨_, hm, h⟩ => .member hm h

-- What an integer says as an answer: it is the least value from `start` on, or its absolute value
-- is the least value of all, and none is left.
inductive Answers (d : Domain) (e : Expr ι) (start : Int) : Int → Prop
  | hit {r : Int} : IsLeast {n | Holds d e n ∧ start ≤ n} r → Answers d e start r
  | past {r : Int} :
    (∀ n, Holds d e n → n < start) → IsLeast {n | Holds d e n} r → 0 ≤ r → Answers d e start (-r)

section Steps

theorem Fits.floor_nonneg (h : Fits l c .base e) (hd : 0 ≤ (l.domain c).lower) :
    0 ≤ e.floor (l.domain c) := by
  cases h
  case any => exact hd
  case value ht _ => exact ht.length_le.1
  case range hl _ _ =>
    obtain ⟨t, n, rfl, ht⟩ := fits_endpoint_iff.mp hl
    exact ht.length_le.1
  case step => simp_all

theorem Fits.floor_mem (h : Fits l c .base e) (hc : c ≠ .year) :
    e.floor (l.domain c) ∈ l.domain c := by
  have hd := Layout.lower_le_upper (l := l) hc
  cases h
  case any => exact ⟨Int.le_refl _, hd⟩
  case value ht _ => exact (Layout.takes_iff hc).mp ht
  case range hl _ _ =>
    obtain ⟨t, n, rfl, ht⟩ := fits_endpoint_iff.mp hl
    exact (Layout.takes_iff hc).mp ht
  case step => simp_all

theorem Fits.ceiling?_mem {top : Int} (h : Fits l c .base e) (hc : c ≠ .year)
    (ht : e.ceiling? (l.domain c) = some top) : top ∈ l.domain c := by
  have hd := Layout.lower_le_upper (l := l) hc
  cases h
  case any =>
    cases ht
    exact ⟨hd, Int.le_refl _⟩
  case value ht' _ =>
    cases ht
    exact (Layout.takes_iff hc).mp ht'
  case range hl hh _ =>
    obtain ⟨t, n, rfl, hn⟩ := fits_endpoint_iff.mp hh
    cases ht
    split
    · exact ⟨hd, Int.le_refl _⟩
    · exact (Layout.takes_iff hc).mp hn
  case step => simp_all

theorem lastStep?_eq_some {first width top : Int} (hw : 1 ≤ width) :
    ∃ last, lastStep? first width top = some last :=
  ⟨_, by rw [lastStep?, if_neg (by omega)]⟩

theorem ceilingAll?_eq_some {ms : List (Expr ι)} (h : ∀ m ∈ ms, ∃ top, m.ceiling? d = some top) :
    ∃ tops, ceilingAll? d ms = some tops := by
  induction ms
  case nil => exact ⟨[], rfl⟩
  case cons m ms hi =>
    have ⟨top, ht⟩ := h m List.mem_cons_self
    have ⟨tops, hts⟩ := hi fun m hm => h m <| List.mem_cons_of_mem _ hm
    exact ⟨top :: tops, by simp [ceilingAll?, ht, hts]⟩

theorem Fits.ceiling?_eq_some (h : Fits l c pos e) (d : Domain) :
    ∃ top, e.ceiling? d = some top := by
  induction e generalizing pos
  case any    => exact ⟨_, rfl⟩
  case value  => exact ⟨_, rfl⟩
  case range hi =>
    have ⟨top, ht⟩ := hi (fits_range_iff.mp h).2.2
    exact ⟨_, by rw [ceiling?, ht]⟩
  case step t base width hi _ =>
    obtain ⟨-, hb, hw⟩ := fits_step_iff.mp h
    obtain ⟨t, n, rfl, -, hn⟩ := fits_width_iff.mp hw
    have ⟨top, ht⟩ := hi hb
    rw [ceiling?, ht]
    exact lastStep?_eq_some hn
  case list ms hi =>
    obtain ⟨-, -, hms⟩ := fits_list_iff.mp h
    have ⟨tops, ht⟩ := ceilingAll?_eq_some fun m hm => hi m hm (hms m hm)
    exact ⟨_, by rw [ceiling?, ht]; rfl⟩

-- The least of `first`, `first + width`, … that is not below `start`.
theorem stepFrom?_eq {first width : Int} (hw : 1 ≤ width) (hs : first < start) :
    ∃ k : Nat, stepFrom? first width start = some (first + k * width) ∧
      start ≤ first + k * width ∧ ∀ j : Nat, j < k → first + j * width < start := by
  let q := -(start - first) / width
  have hq : (-(start - first)).fdiv width = q := Int.fdiv_eq_ediv_of_nonneg _ (by omega)
  have hle : q * width ≤ -(start - first) := Int.ediv_mul_le _ (by omega)
  have hlt : -(start - first) < (q + 1) * width := Int.lt_ediv_add_one_mul_self _ (by omega)
  have hneg : q < 0 := Int.ediv_neg_of_neg_of_pos (by omega) (by omega)
  obtain ⟨k, hk⟩ := Int.eq_ofNat_of_zero_le (by omega : 0 ≤ -q)
  refine ⟨k, ?_, ?_, fun j hj => ?_⟩
  · rw [stepFrom?, if_neg (by omega), hq, hk]
  · have : (k : Int) * width = -(q * width) := by rw [← hk, Int.neg_mul]
    omega
  · have hj : (j : Int) * width ≤ (-q - 1) * width :=
      Int.mul_le_mul_of_nonneg_right (by omega) (by omega)
    have : (-q - 1) * width = -((q + 1) * width) := by ring
    omega

end Steps

section Answers

variable {ms : List (Expr ι)} {rs : List Int}

theorem rangeNext_answers {t : ι} {low high : Expr ι} (hl : 0 ≤ low.literal) :
    Answers d (.range t low high) start (rangeNext low.literal high.literal start) := by
  rw [rangeNext]
  split
  case isTrue hw =>
    split
    · exact .hit ⟨by simp; omega, fun n hn => hn.2⟩
    · refine .hit ⟨by simp; omega, fun n hn => ?_⟩
      simp at hn
      omega
  case isFalse =>
    split
    · refine .hit ⟨by simp; omega, fun n hn => ?_⟩
      simp at hn
      omega
    · split
      · refine .past (fun n hn => ?_) ⟨by simp; omega, fun n hn => ?_⟩ hl
        · simp at hn
          omega
        · simp at hn
          omega
      · exact .hit ⟨by simp; omega, fun n hn => hn.2⟩

theorem stepNext_answers {t : ι} {base width : Expr ι} (hb : base.Fits l c .base)
    (hw : 1 ≤ width.literal) (hd : 0 ≤ (l.domain c).lower) :
    ∃ r, (Expr.step t base width).next? (l.domain c) start = some r ∧
      Answers (l.domain c) (.step t base width) start r := by
  have hfirst := hb.floor_nonneg hd
  have ⟨top, htop⟩ := hb.ceiling?_eq_some (l.domain c)
  have hmono (k : Nat) : 0 ≤ (k : Int) * width.literal := Int.mul_nonneg (by omega) (by omega)
  rw [next?]
  split
  case isTrue hs =>
    refine ⟨_, rfl, .hit ⟨⟨.first, hs⟩, fun n hn => ?_⟩⟩
    rcases holds_step_iff.mp hn.1 with rfl | ⟨k, -, -, rfl, -⟩
    · exact Int.le_refl _
    · have := hmono k
      omega
  case isFalse hs =>
    have ⟨k, hk, hle, hlt⟩ := stepFrom?_eq hw (Int.lt_of_not_ge hs)
    simp only [hk, htop]
    refine ⟨_, rfl, ?_⟩
    split
    case isTrue hpast =>
      refine .past (fun n hn => ?_) ⟨.first, fun n hn => ?_⟩ hfirst
      · rcases holds_step_iff.mp hn with rfl | ⟨j, top', ht, rfl, hj⟩
        · omega
        · cases htop.symm.trans ht
          refine hlt j (Nat.lt_of_not_ge fun hkj => ?_)
          have : (k : Int) * width.literal ≤ j * width.literal :=
            Int.mul_le_mul_of_nonneg_right (by omega) (by omega)
          omega
      · rcases holds_step_iff.mp hn with rfl | ⟨j, -, -, rfl, -⟩
        · exact Int.le_refl _
        · have := hmono j
          omega
    case isFalse hin =>
      refine .hit ⟨⟨.next htop (by omega), hle⟩, fun n hn => ?_⟩
      obtain ⟨hn, hsn⟩ := hn
      rcases holds_step_iff.mp hn with rfl | ⟨j, top', ht, rfl, hj⟩
      · omega
      · have hkj : k ≤ j := Nat.le_of_not_lt fun hjk => by
          have := hlt j hjk
          omega
        have : (k : Int) * width.literal ≤ j * width.literal :=
          Int.mul_le_mul_of_nonneg_right (by omega) (by omega)
        omega

theorem Answers.of_le (h : Answers d e start r) (hr : start ≤ r) :
    IsLeast {n | Holds d e n ∧ start ≤ n} r := by
  cases h
  case hit hl         => exact hl
  case past r hn hl h =>
    have := hn r hl.1
    omega

theorem Answers.of_lt (h : Answers d e start r) (hr : r < start) :
    (∀ n, Holds d e n → n < start) ∧ IsLeast {n | Holds d e n} (-r) ∧ r ≤ 0 := by
  cases h
  case hit hl         => exact absurd hl.1.2 (Int.not_le.mpr hr)
  case past r hn hl h => exact ⟨hn, by simpa using hl, by omega⟩

-- The answers of the members of a list, each by one member.
theorem nextAll?_answers
    (h : ∀ m ∈ ms, ∃ r, m.next? d start = some r ∧ Answers d m start r) :
    ∃ rs, nextAll? d start ms = some rs ∧ (∀ m ∈ ms, ∃ r ∈ rs, Answers d m start r) ∧
      ∀ r ∈ rs, ∃ m ∈ ms, Answers d m start r := by
  induction ms
  case nil => exact ⟨[], rfl, nofun, nofun⟩
  case cons m ms hi =>
    have ⟨r, hr, ha⟩ := h m List.mem_cons_self
    have ⟨rs, hrs, hm, hm'⟩ := hi fun m hm => h m <| List.mem_cons_of_mem _ hm
    refine ⟨r :: rs, by simp [nextAll?, hr, hrs], fun m' hm'' => ?_, fun r' hr' => ?_⟩
    · rcases List.mem_cons.mp hm'' with rfl | hm''
      · exact ⟨r, List.mem_cons_self, ha⟩
      · have ⟨r', hr', ha'⟩ := hm m' hm''
        exact ⟨r', List.mem_cons_of_mem _ hr', ha'⟩
    · rcases List.mem_cons.mp hr' with rfl | hr'
      · exact ⟨m, List.mem_cons_self, ha⟩
      · have ⟨m', hm'', ha'⟩ := hm' r' hr'
        exact ⟨m', List.mem_cons_of_mem _ hm'', ha'⟩

theorem unionNext_answers {t : ι} (hne : rs ≠ []) (hm : ∀ m ∈ ms, ∃ r ∈ rs, Answers d m start r)
    (hr : ∀ r ∈ rs, ∃ m ∈ ms, Answers d m start r) :
    Answers d (.list t ms) start (unionNext start rs) := by
  obtain ⟨first, rest, rfl⟩ := List.exists_cons_of_ne_nil hne
  rw [unionNext]
  split
  case h_1 hit hmin =>
    rw [List.min?_eq_some_iff] at hmin
    have ⟨hmem, hleast⟩ := hmin
    simp only [List.mem_filter, decide_eq_true_eq] at hmem hleast
    have ⟨m, hmm, ha⟩ := hr hit hmem.1
    refine .hit ⟨⟨.member hmm (ha.of_le hmem.2).1.1, hmem.2⟩, fun n ⟨hn, hsn⟩ => ?_⟩
    have ⟨m', hmm', hn⟩ := holds_list_iff.mp hn
    have ⟨r', hr', ha'⟩ := hm m' hmm'
    rcases Int.lt_or_le r' start with hlt | hle
    · have := (ha'.of_lt hlt).1 n hn
      omega
    · exact Int.le_trans (hleast r' ⟨hr', hle⟩) <| (ha'.of_le hle).2 ⟨hn, hsn⟩
  case h_2 hmin =>
    have hlt (r) (hr : r ∈ first :: rest) : r < start := by
      rw [List.min?_eq_none_iff, List.filter_eq_nil_iff] at hmin
      simpa using hmin r hr
    obtain ⟨least, hl⟩ : ∃ least,
        ((first :: rest).map fun r => (r.natAbs : Int)).min? = some least :=
      Option.isSome_iff_exists.mp <| by simp
    rw [leastOr, hl, Option.getD_some]
    have ⟨hmem, hleast⟩ := List.min?_eq_some_iff.mp hl
    obtain ⟨r, hrs, rfl⟩ := List.mem_map.mp hmem
    have ⟨m, hmm, ha⟩ := hr r hrs
    have ⟨_, hlm, hneg⟩ := ha.of_lt (hlt r hrs)
    have habs : ((r.natAbs : Nat) : Int) = -r := by omega
    refine .past (fun n hn => ?_) ⟨.member hmm (habs ▸ hlm.1), fun n hn => ?_⟩ (by omega)
    · have ⟨m', hmm', hn⟩ := holds_list_iff.mp hn
      have ⟨r', hr', ha'⟩ := hm m' hmm'
      exact (ha'.of_lt (hlt r' hr')).1 n hn
    · have ⟨m', hmm', hn⟩ := holds_list_iff.mp hn
      have ⟨r', hr', ha'⟩ := hm m' hmm'
      have ⟨_, hlm', hneg'⟩ := ha'.of_lt (hlt r' hr')
      have hle := hleast _ <| List.mem_map_of_mem hr'
      have := hlm'.2 hn
      omega

-- The answer of a well-formed expression is right, whatever the start.
theorem Fits.next?_answers (h : Fits l c pos e) (hd : 0 ≤ (l.domain c).lower) (start : Int) :
    ∃ r, e.next? (l.domain c) start = some r ∧ Answers (l.domain c) e start r := by
  induction e generalizing pos
  case any => exact ⟨_, rfl, .hit ⟨⟨.any, Int.le_refl _⟩, fun n hn => hn.2⟩⟩
  case value n =>
    refine ⟨_, rfl, ?_⟩
    split
    · refine .hit ⟨⟨.value, ‹_›⟩, fun m hm => ?_⟩
      exact Int.le_of_eq (holds_value_iff.mp hm.1).symm
    · have hn := (fits_value_iff.mp h).1.length_le.1
      refine .past (fun m hm => ?_) ⟨.value, fun m hm => ?_⟩ hn
      · have := holds_value_iff.mp hm
        omega
      · exact Int.le_of_eq (holds_value_iff.mp hm).symm
  case range t low high _ _ =>
    obtain ⟨-, hl, hh⟩ := fits_range_iff.mp h
    obtain ⟨t, n, rfl, hn⟩ := fits_endpoint_iff.mp hl
    obtain ⟨t', n', rfl, -⟩ := fits_endpoint_iff.mp hh
    exact ⟨_, rfl, rangeNext_answers hn.length_le.1⟩
  case step t base width _ _ =>
    obtain ⟨-, hb, hw⟩ := fits_step_iff.mp h
    obtain ⟨t', n, rfl, -, hn⟩ := fits_width_iff.mp hw
    exact stepNext_answers hb hn hd
  case list t ms hi =>
    obtain ⟨-, hlen, hms⟩ := fits_list_iff.mp h
    have ⟨rs, hrs, hm, hr⟩ := nextAll?_answers fun m hm => hi m hm (hms m hm)
    refine ⟨unionNext start rs, by simp [next?, hrs], unionNext_answers ?_ hm hr⟩
    have ⟨m, hmm⟩ := List.exists_mem_of_length_pos (Nat.lt_of_lt_of_le Nat.zero_lt_two hlen)
    obtain ⟨r, hr, -⟩ := hm m hmm
    exact List.ne_nil_of_mem hr

-- An integer is its own answer if and only if the expression stands for it.
theorem Answers.eq_iff (h : Answers d e n r) : r = n ↔ Holds d e n := by
  constructor
  · rintro rfl
    exact (h.of_le (Int.le_refl _)).1.1
  · intro hn
    rcases Int.lt_or_le r n with hlt | hle
    · exact absurd ((h.of_lt hlt).1 n hn) (Int.lt_irrefl n)
    · exact Int.le_antisymm ((h.of_le hle).2 ⟨hn, Int.le_refl _⟩) hle

-- Where values begin, they lie in the domain; only years may lie elsewhere.
theorem Fits.mem_of_edge (h : Fits l c pos e) (hd : 0 ≤ (l.domain c).lower)
    (hn : Holds (l.domain c) e n) (hp : ¬Holds (l.domain c) e (n - 1)) :
    0 ≤ n ∧ (c ≠ .year → n ∈ l.domain c) := by
  induction e generalizing pos
  case any => exact absurd .any hp
  case value =>
    have ht := (fits_value_iff.mp h).1
    rw [holds_value_iff] at hn
    subst hn
    exact ⟨ht.length_le.1, fun hc => (Layout.takes_iff hc).mp ht⟩
  case range t low high _ _ =>
    obtain ⟨-, hl, -⟩ := fits_range_iff.mp h
    obtain ⟨t, m, rfl, ht⟩ := fits_endpoint_iff.mp hl
    -- Below the lower end there is a gap.
    have he : n = m := by
      rw [holds_range_iff] at hn hp
      simp only [literal] at hn hp
      omega
    exact he ▸ ⟨ht.length_le.1, fun hc => (Layout.takes_iff hc).mp ht⟩
  case step t base width _ _ =>
    obtain ⟨-, hb, hw⟩ := fits_step_iff.mp h
    obtain ⟨t', w, rfl, -, hw⟩ := fits_width_iff.mp hw
    have hfirst := hb.floor_nonneg hd
    rcases holds_step_iff.mp hn with rfl | ⟨k, top, ht, rfl, hle⟩
    · exact ⟨hfirst, hb.floor_mem⟩
    · have hk : 0 ≤ (k : Int) * w := Int.mul_nonneg (by omega) (by omega)
      rw [literal] at hle ⊢
      exact ⟨by omega, fun hc => ⟨Int.le_trans (hb.floor_mem hc).1 (by omega),
        Int.le_trans hle (hb.ceiling?_mem hc ht).2⟩⟩
  case list t ms hi =>
    obtain ⟨-, -, hms⟩ := fits_list_iff.mp h
    obtain ⟨m, hm, hn⟩ := holds_list_iff.mp hn
    exact hi m hm (hms m hm) hn fun hp' => hp <| .member hm hp'

end Answers

end Cron.Expr
