import Cron.English
import Cron.Proofs.Expr.Printing
import Cron.Proofs.Expr.Values

-- Which integers an expression matches, and what a step selects from its base: from the first
-- integer of the base on, every multiple of the width up to the last.

namespace Cron

variable {ι : Type} {d : Domain} {e : Expr ι} {l : Layout} {c : Column} {pos : Position}
variable {start n r lo hi : Int}

-- How far a value lies ahead of another, counted upward, from the end of the domain on to its
-- beginning.
def Domain.ahead (d : Domain) (n m : Int) : Int := (m - n) % d.span

theorem Domain.ahead_of_le {m : Int} (hn : n ∈ d) (hm : m ∈ d) (h : n ≤ m) :
    d.ahead n m = m - n := by
  rw [mem_def] at hn hm
  exact Int.emod_eq_of_lt (by omega) (by rw [span]; omega)

namespace Layout

theorem lower_nonneg (hc : c ≠ .year) : 0 ≤ (l.domain c).lower := by
  have hs := l.sunday_mem
  cases c
  case year      => exact absurd rfl hc
  case dayOfWeek => exact hs.1
  all_goals simp [domain]

theorem lower_le_one (hc : c ≠ .year) : (l.domain c).lower ≤ 1 := by
  have hs := l.sunday_mem
  cases c
  case year      => exact absurd rfl hc
  case dayOfWeek => exact hs.2
  all_goals simp [domain]

end Layout

namespace Expr

-- An answer is from `start` on if and only if there is a value from `start` on.
theorem Answers.le_iff (h : Answers d e start r) : start ≤ r ↔ ∃ n, Holds d e n ∧ start ≤ n where
  mp hr := ⟨r, (h.of_le hr).1⟩
  mpr := by
    rintro ⟨n, hn, hs⟩
    by_contra hr
    exact absurd hs <| Int.not_le.mpr <| (h.of_lt <| Int.not_le.mp hr).1 n hn

theorem Fits.matches?_eq (h : Fits l c pos e) (hd : 0 ≤ (l.domain c).lower) (n : Int) :
    ∃ b, e.matches? (l.domain c) n = some b ∧ (b ↔ Holds (l.domain c) e n) := by
  obtain ⟨r, hr, ha⟩ := h.next?_answers hd n
  refine ⟨r == n, by rw [matches?, hr, Option.map_some], ?_⟩
  rw [beq_iff_eq]
  exact ha.eq_iff

theorem holds_step_iff_dvd {t : ι} {base width : Expr ι} {top : Int} (hw : 1 ≤ width.literal)
    (ht : base.ceiling? d = some top) (hle : base.floor d ≤ top) :
    Holds d (.step t base width) n ↔
      base.floor d ≤ n ∧ n ≤ top ∧ width.literal ∣ n - base.floor d := by
  rw [holds_step_iff]
  constructor
  · rintro (rfl | ⟨k, top', ht', rfl, hk⟩)
    · exact ⟨Int.le_refl _, hle, by simp⟩
    · cases ht.symm.trans ht'
      have hpos : 0 ≤ (k : Int) * width.literal := Int.mul_nonneg (by omega) (by omega)
      exact ⟨by omega, hk, k, by ring⟩
  · rintro ⟨hfirst, htop, k, hk⟩
    have hpos : 0 ≤ k := by
      by_contra hneg
      have := Int.mul_le_mul_of_nonneg_left (show k ≤ -1 by omega) (show 0 ≤ width.literal by omega)
      omega
    obtain ⟨k, rfl⟩ := Int.eq_ofNat_of_zero_le hpos
    exact .inr ⟨k, top, ht, by rw [Int.mul_comm]; omega, htop⟩

-- A range between two integers, and a step over it.
def interval (lo hi : Int) : Shape := .range () (.value () lo) (.value () hi)
def stride (lo hi n : Int) : Shape := .step () (interval lo hi) (.value () n)

section Wrapping

variable (hc : c ≠ .year) (hlo : lo ∈ l.domain c) (hhi : hi ∈ l.domain c)

include hc hlo hhi

theorem fits_interval (hp : pos = .root ∨ pos = .member ∨ pos = .base) :
    (interval lo hi).Fits l c pos :=
  .range hp (.value ((Layout.takes_iff hc).mpr hlo) nofun)
    (.value ((Layout.takes_iff hc).mpr hhi) nofun)

theorem fits_stride (hn : 1 ≤ n ∧ n ≤ (l.domain c).upper) : (stride lo hi n).Fits l c .root := by
  have hmem : n ∈ l.domain c := Domain.mem_def.mpr ⟨(Layout.lower_le_one hc).trans hn.1, hn.2⟩
  exact .step (.inl rfl) (fits_interval hc hlo hhi <| .inr <| .inr rfl)
    (.value ((Layout.takes_iff hc).mpr hmem) fun _ => hn.1)

end Wrapping

theorem holds_interval_iff (hw : hi < lo) : Holds d (interval lo hi) n ↔ lo ≤ n ∨ n ≤ hi := by
  simp only [interval, holds_range_iff, literal]
  omega

-- The last integer of a range that wraps is the end of the domain.
theorem holds_stride_iff {width : Int} (hw : hi < lo) (hlo : lo ∈ d) (hn : 1 ≤ width) :
    Holds d (stride lo hi width) n ↔ lo ≤ n ∧ n ≤ d.upper ∧ width ∣ n - lo := by
  have htop : (interval lo hi).ceiling? d = some d.upper := congrArg some <| if_pos hw
  exact holds_step_iff_dvd hn htop hlo.2

-- A step over a range that wraps counts up to the end of the domain: of the values that lie a
-- multiple of its width ahead of the lower end of the range, it matches those from there on. What
-- the range matches at the beginning of the domain, the step leaves out.
theorem stepping_over_wrapping_range (hc : c ≠ .year) (hlo : lo ∈ l.domain c)
    (hhi : hi ∈ l.domain c) (hw : hi < lo) (hn : 1 ≤ n ∧ n ≤ (l.domain c).upper) :
    ∃ stepped plain : Shape,
      l.readShape c (.ofChars (Text.intDigits lo ++ '-' :: Text.intDigits hi ++
        '/' :: Text.intDigits n)) = .ok stepped ∧
      l.readShape c (.ofChars (Text.intDigits lo ++ '-' :: Text.intDigits hi)) = .ok plain ∧
      ∀ v ∈ l.domain c, ∃ b b₀,
        stepped.matches? (l.domain c) v = some b ∧ plain.matches? (l.domain c) v = some b₀ ∧
        (b ↔ lo ≤ v ∧ n ∣ (l.domain c).ahead lo v) ∧ (b₀ ↔ lo ≤ v ∨ v ≤ hi) := by
  have hd := Layout.lower_nonneg (l := l) hc
  have hs := fits_stride hc hlo hhi hn
  have hp : (interval lo hi).Fits l c .root := fits_interval hc hlo hhi <| .inl rfl
  refine ⟨stride lo hi n, interval lo hi, Layout.readShape_cron hs, Layout.readShape_cron hp,
    fun v hv => ?_⟩
  obtain ⟨b, hb, hbv⟩ := hs.matches?_eq hd v
  obtain ⟨b₀, hb₀, hbv₀⟩ := hp.matches?_eq hd v
  refine ⟨b, b₀, hb, hb₀, hbv.trans ?_, hbv₀.trans <| holds_interval_iff hw⟩
  rw [holds_stride_iff hw hlo hn.1]
  constructor
  · rintro ⟨hle, -, hdvd⟩
    exact ⟨hle, Domain.ahead_of_le hlo hv hle ▸ hdvd⟩
  · rintro ⟨hle, hdvd⟩
    exact ⟨hle, hv.2, Domain.ahead_of_le hlo hv hle ▸ hdvd⟩

theorem stepping_over_wrapping_range_through_midnight :
    let l : Layout := ⟨.unix, 2024, 100, 900⟩
    ∃ stepped plain : Shape,
      l.readShape .hour "22-4/2" = .ok stepped ∧ l.readShape .hour "22-4" = .ok plain ∧
      ∀ v ∈ l.domain .hour, ∃ b b₀,
        stepped.matches? (l.domain .hour) v = some b ∧ plain.matches? (l.domain .hour) v = some b₀ ∧
        (b ↔ 22 ≤ v ∧ 2 ∣ (l.domain .hour).ahead 22 v) ∧ (b₀ ↔ 22 ≤ v ∨ v ≤ 4) := by
  intro l
  have hlo : 22 ∈ l.domain .hour := by decide
  have hhi : 4 ∈ l.domain .hour := by decide
  exact stepping_over_wrapping_range (c := .hour) (n := 2) nofun hlo hhi (by decide) (by decide)

-- A step of one from Friday to Monday is described as every day of these, and leaves Sunday out.
theorem stepping_leaves_out_wrapped_values :
    let l : Layout := ⟨.unix, 2024, 100, 900⟩
    let d := l.domain .dayOfWeek
    ∃ stepped plain : Shape,
      l.readShape .dayOfWeek "5-1/1" = .ok stepped ∧ l.readShape .dayOfWeek "5-1" = .ok plain ∧
      0 ∈ d ∧ 1 ∣ d.ahead 5 0 ∧
      plain.matches? d 0 = some true ∧ stepped.matches? d 0 = some false ∧
      l.describe .dayOfWeek plain = "from Friday to Monday" ∧
      l.describe .dayOfWeek stepped = "every day from Friday to Monday" :=
  ⟨stride 5 1 1, interval 5 1, rfl, rfl, by decide, by decide, by decide, by decide,
    by decide +kernel, by decide +kernel⟩

end Expr

end Cron
