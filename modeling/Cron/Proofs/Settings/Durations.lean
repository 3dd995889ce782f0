import Mathlib.Data.Rat.Cast.Order
import Mathlib.Tactic.Linarith
import Mathlib.Tactic.Ring
import Cron.Proofs.Settings.Reading

-- Which settings can be used. A duration may be set to anything that is not negative, but only a
-- finite number of seconds is a duration, and only one below a thousand million days.

namespace Cron

open Text

variable {s : Settings} {entries : Entries} {setting : Setting} {v : Value}
variable {d : Double} {negative : Bool} {num den mantissa : Nat} {e exponent : Int}

theorem roundHalfEven_le (num den : Nat) : roundHalfEven num den ≤ num / den + 1 := by
  simp only [roundHalfEven]
  split
  · exact Nat.le_refl _
  · exact Nat.le_succ _

-- Rounding at most doubles a quotient.
theorem mul_roundHalfEven_le (num den : Nat) : den * roundHalfEven num den ≤ 2 * num := by
  have h : 2 * den * roundHalfEven num den ≤ 2 * num + den := two_mul_roundHalfEven_le num
  rcases Nat.eq_zero_or_pos (roundHalfEven num den) with hz | hpos
  · rw [hz]
    exact Nat.zero_le _
  · have hle : den * 1 ≤ den * roundHalfEven num den := Nat.mul_le_mul_left _ hpos
    rw [Nat.mul_assoc] at h
    omega

namespace Double

section Format

theorem cast_twoTo (n : Nat) : (twoTo n : ℚ) = 2 ^ n := Nat.cast_pow 2 n

theorem zpow_eq_div (e : Int) : (2 : ℚ) ^ e = twoTo e.toNat / twoTo (-e).toNat := by
  rw [cast_twoTo, cast_twoTo, ← zpow_natCast, ← zpow_natCast, ← zpow_sub₀ (by norm_num)]
  congr 1
  omega

theorem scaled_eq (num den : Nat) (e : Int) :
    scaled num den e = (num * twoTo (-e).toNat, den * twoTo e.toNat) := by
  rw [scaled]
  split
  case isTrue h => rw [show (-e).toNat = 0 by omega]; simp [twoTo]
  case isFalse h => rw [show e.toNat = 0 by omega]; simp [twoTo]

theorem ratio_eq (mantissa : Nat) (exponent : Int) :
    ratio mantissa exponent = (mantissa * twoTo exponent.toNat, twoTo (-exponent).toNat) := by
  rw [ratio]
  split
  case isTrue h => rw [show (-exponent).toNat = 0 by omega]; rfl
  case isFalse h => rw [show exponent.toNat = 0 by omega]; simp [twoTo]

theorem div_scaled_lt_iff (hd : 0 < den) (k : Nat) :
    (scaled num den e).1 / (scaled num den e).2 < k ↔ (num : ℚ) / den < k * 2 ^ e := by
  have hden : (0 : ℚ) < den := Nat.cast_pos.mpr hd
  have hpos (n : Nat) : (0 : ℚ) < twoTo n := Nat.cast_pos.mpr (twoTo_pos n)
  rw [scaled_eq, Nat.div_lt_iff_lt_mul (Nat.mul_pos hd <| twoTo_pos _), zpow_eq_div,
    ← Nat.cast_lt (α := ℚ), div_lt_iff₀ hden, mul_div_assoc', div_mul_eq_mul_div,
    lt_div_iff₀ (hpos _)]
  push_cast
  rw [mul_comm (den : ℚ), mul_assoc (k : ℚ)]

-- The exponent is great enough for a mantissa of 53 bits.
theorem div_lt_exponentOf (hd : 0 < den) :
    (num : ℚ) / den < (twoTo 53 : Nat) * 2 ^ exponentOf num den := by
  let e : Int := (num.log2 : Int) - den.log2 - 53
  have hnum : (num : ℚ) < 2 ^ (num.log2 + 1) := by exact_mod_cast Nat.lt_log2_self
  have hden : (2 : ℚ) ^ den.log2 ≤ den := by exact_mod_cast Nat.log2_self_le hd.ne'
  have hlog : (num : ℚ) / den < (twoTo 53 : Nat) * 2 ^ (e + 1) := by
    calc
      (num : ℚ) / den < 2 ^ (num.log2 + 1) / 2 ^ den.log2 := by gcongr
      _ = 2 ^ ((53 : Int) + (e + 1))                      := by
        rw [← zpow_natCast, ← zpow_natCast, ← zpow_sub₀ two_ne_zero]
        congr 1
        omega
      _ = (twoTo 53 : Nat) * 2 ^ (e + 1)                  := by
        rw [zpow_add₀ two_ne_zero, cast_twoTo, ← zpow_natCast]
        rfl
  have hmono {j : Int} (hj : j ≤ exponentOf num den)
      (hlt : (num : ℚ) / den < (twoTo 53 : Nat) * 2 ^ j) :
      (num : ℚ) / den < (twoTo 53 : Nat) * 2 ^ exponentOf num den :=
    hlt.trans_le <| mul_le_mul_of_nonneg_left (zpow_le_zpow_right₀ one_le_two hj) <|
      Nat.cast_nonneg _
  have he : exponentOf num den = max minExponent
      (if twoTo 53 ≤ (scaled num den e).1 / (scaled num den e).2 then e + 1 else e) := rfl
  by_cases hle : twoTo 53 ≤ (scaled num den e).1 / (scaled num den e).2
  case pos =>
    rw [if_pos hle] at he
    exact hmono (he ▸ le_max_right _ _) hlog
  case neg =>
    rw [if_neg hle] at he
    exact hmono (he ▸ le_max_right _ _) <| (div_scaled_lt_iff hd _).mp <| Nat.not_le.mp hle

theorem mul_zpow_le (hd : 0 < den) (e : Int) {m k : Nat}
    (h : (scaled num den e).2 * m ≤ k * (scaled num den e).1) :
    (m : ℚ) * 2 ^ e ≤ k * (num / den) := by
  have hden : (0 : ℚ) < den := Nat.cast_pos.mpr hd
  have hpos : (0 : ℚ) < twoTo (-e).toNat := Nat.cast_pos.mpr <| twoTo_pos _
  rw [scaled_eq] at h
  have h : ((den * twoTo e.toNat * m : Nat) : ℚ) ≤ (k * (num * twoTo (-e).toNat) : Nat) := by
    exact_mod_cast h
  push_cast at h
  rw [zpow_eq_div, mul_div_assoc', mul_div_assoc', div_le_div_iff₀ hpos hden]
  linarith

-- What comes of rounding to a number of the format.
inductive Rounded (num den : Nat) : Double → Prop
  | zero {negative : Bool} : num = 0 → Rounded num den (finite negative 0 minExponent)
  | finite {negative : Bool} {mantissa : Nat} {exponent : Int} :
    mantissa < twoTo 53 → exponent ≤ maxExponent →
    (mantissa : ℚ) * 2 ^ exponent ≤ (2 : Nat) * (num / den) →
    Rounded num den (finite negative mantissa exponent)
  | infinite {negative : Bool} : Rounded num den (infinite negative)

theorem rounded_ofRatio (negative : Bool) (num : Nat) (hd : 0 < den) :
    Rounded num den (ofRatio negative num den) := by
  by_cases hz : num = 0
  case pos =>
    rw [ofRatio, if_pos hz]
    exact .zero hz
  let e := exponentOf num den
  let m := roundHalfEven (scaled num den e).1 (scaled num den e).2
  have ho : ofRatio negative num den =
      let carried := if m = twoTo 53 then (twoTo 52, e + 1) else (m, e)
      if maxExponent < carried.2 then Double.infinite negative
      else Double.finite negative carried.1 carried.2 := by
    rw [ofRatio, if_neg hz]
  have hm : m ≤ twoTo 53 :=
    (roundHalfEven_le ..).trans <| (div_scaled_lt_iff hd _).mpr <| div_lt_exponentOf hd
  have hv : (m : ℚ) * 2 ^ e ≤ (2 : Nat) * (num / den) := mul_zpow_le hd e <| mul_roundHalfEven_le ..
  rw [ho]
  by_cases hc : m = twoTo 53
  case pos =>
    -- The mantissa has become one bit longer.
    have hv : (twoTo 52 : ℚ) * 2 ^ (e + 1) ≤ (2 : Nat) * (num / den) := by
      refine Eq.trans_le ?_ hv
      rw [hc, cast_twoTo, cast_twoTo, zpow_add_one₀ two_ne_zero]
      ring
    rw [if_pos hc]
    dsimp only
    split
    case isTrue     => exact .infinite
    case isFalse he => exact .finite (by decide +kernel) (Int.not_lt.mp he) hv
  case neg =>
    rw [if_neg hc]
    dsimp only
    split
    case isTrue     => exact .infinite
    case isFalse he => exact .finite (Nat.lt_of_le_of_ne hm hc) (Int.not_lt.mp he) hv

theorem inFormat_ofRatio (negative : Bool) (num : Nat) (hd : 0 < den) :
    (ofRatio negative num den).InFormat := by
  have hr := rounded_ofRatio negative num hd
  generalize ofRatio negative num den = d at hr
  cases hr
  case zero           => exact ⟨twoTo_pos 53, by decide⟩
  case finite hm he _ => exact ⟨hm, he⟩
  case infinite       => trivial

end Format

section Reading

theorem inFormat_ofInt (n : Int) : (ofInt n).InFormat := inFormat_ofRatio _ _ Nat.one_pos

theorem inFormat_ofDecimal (negative : Bool) (digits : List Char) (exponent : Int) :
    (ofDecimal negative digits exponent).InFormat := by
  rw [ofDecimal]
  split
  case isTrue => exact ⟨twoTo_pos 53, by decide⟩
  split
  case isTrue => trivial
  split
  case isTrue  => exact inFormat_ofRatio _ _ Nat.one_pos
  case isFalse => exact inFormat_ofRatio _ _ (tenTo_pos _)

theorem inFormat_of_readDecimal? {cs : List Char} (h : readDecimal? negative cs = some d) :
    d.InFormat := by
  have hfinish {power : Int} {ds : List Char} (hp : ofDecimal negative ds power = d) :
      d.InFormat := hp ▸ inFormat_ofDecimal ..
  simp only [readDecimal?] at h
  -- The digits behind a point are told apart first, be there a point or not.
  split at h
  all_goals
    split at h
    case isTrue => cases h
    split at h
    case h_1 => exact hfinish <| Option.some.inj h
    split at h
    case isTrue =>
      obtain ⟨power, -, hp⟩ := Option.map_eq_some_iff.mp h
      exact hfinish hp
    case isFalse => cases h

theorem inFormat_of_readDouble? {cs : List Char} (h : readDouble? cs = some d) : d.InFormat := by
  obtain ⟨text, -, h⟩ := Option.bind_eq_some_iff.mp h
  dsimp only at h
  split at h
  case isTrue =>
    cases h
    trivial
  split at h
  case isTrue =>
    cases h
    trivial
  exact inFormat_of_readDecimal? h

-- A value is taken as a number of the format, if it is one itself where it is a number.
theorem inFormat_of_toDouble (hv : ∀ d, v = .float d → d.InFormat) (h : v.toDouble = .ok d) :
    d.InFormat := by
  cases v
  case integer n =>
    rw [Value.toDouble] at h
    split at h
    case h_1 => cases h
    case h_2 =>
      cases h
      exact inFormat_ofInt n
  case float d =>
    cases h
    exact hv d rfl
  case text t =>
    rw [Value.toDouble] at h
    split at h
    case h_1 hd =>
      cases h
      obtain ⟨cs, -, hd⟩ := Option.bind_eq_some_iff.mp hd
      exact inFormat_of_readDouble? hd
    case h_2 => cases h
  all_goals cases h

end Reading

section Microseconds

-- The microseconds of a fraction of a second.
def fractionMicros (num den : Nat) : Nat :=
  match ofRatio false (1000000 * num) den with
  | finite _ m e => roundHalfEven (ratio m e).1 (ratio m e).2
  | _ => 0

theorem micros_eq (mantissa : Nat) (exponent : Int) :
    micros mantissa exponent =
      1000000 * ((ratio mantissa exponent).1 / (ratio mantissa exponent).2) +
        fractionMicros ((ratio mantissa exponent).1 % (ratio mantissa exponent).2)
          (ratio mantissa exponent).2 := by
  simp only [micros, fractionMicros]
  cases ofRatio false _ _ <;> rfl

theorem roundHalfEven_le_of_le {k : Nat} (hd : 0 < den) (h : num ≤ k * den) :
    roundHalfEven num den ≤ k := by
  have hr : 2 * den * roundHalfEven num den ≤ 2 * num + den := two_mul_roundHalfEven_le num
  by_contra hlt
  have hle : den * (k + 1) ≤ den * roundHalfEven num den :=
    Nat.mul_le_mul_left _ <| Nat.not_le.mp hlt
  rw [Nat.mul_assoc] at hr
  rw [Nat.mul_succ, Nat.mul_comm den k] at hle
  omega

theorem ratio_snd_pos (mantissa : Nat) (exponent : Int) : 0 < (ratio mantissa exponent).2 := by
  rw [ratio_eq]
  exact twoTo_pos _

theorem ratio_le_of_mul_zpow_le {k : Nat} (h : (mantissa : ℚ) * 2 ^ exponent ≤ k) :
    (ratio mantissa exponent).1 ≤ k * (ratio mantissa exponent).2 := by
  have hpos : (0 : ℚ) < twoTo (-exponent).toNat := Nat.cast_pos.mpr <| twoTo_pos _
  rw [zpow_eq_div, mul_div_assoc', div_le_iff₀ hpos] at h
  rw [ratio_eq]
  exact_mod_cast h

-- A fraction comes to two seconds at the very most.
theorem fractionMicros_le (h : num < den) : fractionMicros num den ≤ 2000000 := by
  have hd : 0 < den := Nat.zero_lt_of_lt h
  have hr := rounded_ofRatio false (1000000 * num) hd
  rw [fractionMicros]
  generalize ofRatio false (1000000 * num) den = d at hr
  cases hr
  case zero     => simp [ratio_eq, roundHalfEven_zero]
  case infinite => exact Nat.zero_le _
  case finite m e _ _ hv =>
    refine roundHalfEven_le_of_le (ratio_snd_pos m e) <| ratio_le_of_mul_zpow_le <| hv.trans ?_
    have hone : (num : ℚ) / den ≤ 1 := div_le_one_of_le₀ (Nat.cast_le.mpr h.le) (Nat.cast_nonneg _)
    push_cast
    rw [mul_div_assoc]
    linarith

-- Where numbers are 1/64 apart, or more, a fraction is less than a second.
theorem fractionMicros_of_coarse :
    ∀ k ≤ 6, ∀ r < twoTo k, fractionMicros r (twoTo k) < 1000000 := by
  decide +kernel

theorem coarse_of_le (hm : mantissa < twoTo 53)
    (h : twoTo 46 * (ratio mantissa exponent).2 ≤ (ratio mantissa exponent).1) :
    ∃ k ≤ 6, (ratio mantissa exponent).2 = twoTo k := by
  rw [ratio_eq] at h ⊢
  refine ⟨(-exponent).toNat, ?_, rfl⟩
  by_contra hk
  have he : exponent.toNat = 0 := by omega
  have hle : twoTo 7 ≤ twoTo (-exponent).toNat := twoTo_mono (by omega)
  simp only [he, twoTo, Nat.pow_eq] at *
  omega

-- The microseconds in the greatest number of days that can be counted, and one more.
theorem micros_lt_iff (hm : mantissa < twoTo 53) :
    micros mantissa exponent < 86400000000000000000 ↔
      (ratio mantissa exponent).1 < 86400000000000 * (ratio mantissa exponent).2 := by
  have hpos := ratio_snd_pos mantissa exponent
  have hcoarse : _ → ∃ k ≤ 6, (ratio mantissa exponent).2 = twoTo k := coarse_of_le hm
  rw [micros_eq, ← Nat.div_lt_iff_lt_mul hpos]
  generalize (ratio mantissa exponent).1 = num, (ratio mantissa exponent).2 = den at *
  have hle := fractionMicros_le (Nat.mod_lt num hpos)
  constructor
  · intro h
    omega
  · intro h
    by_cases hbig : twoTo 46 ≤ num / den
    case pos =>
      obtain ⟨k, hk, rfl⟩ := hcoarse <| (Nat.le_div_iff_mul_le hpos).mp hbig
      have hlt := fractionMicros_of_coarse k hk _ <| Nat.mod_lt num hpos
      omega
    case neg =>
      have : twoTo 46 = 70368744177664 := by decide +kernel
      omega

theorem checkDuration_eq_ok_iff {size : Int} (h : 0 ≤ size) :
    (∃ n, checkDuration size = .ok n) ↔ size < 86400000000000000000 := by
  have hmax : maxDays = 999999999 := rfl
  simp only [checkDuration]
  constructor
  · rintro ⟨n, hn⟩
    split at hn
    case isTrue => cases hn
    split at hn
    case isTrue => cases hn
    omega
  · intro hlt
    rw [if_neg (by omega), if_neg (by omega)]
    exact ⟨_, rfl⟩

-- A finite number of seconds that is below a thousand million days.
def IsShort : Double → Prop
  | finite _ mantissa exponent =>
    (ratio mantissa exponent).1 < 86400000000000 * (ratio mantissa exponent).2
  | _ => False

theorem toDuration_eq_ok_iff (hf : d.InFormat) (hn : d.isNegative = false) :
    (∃ n, d.toDuration = .ok n) ↔ d.IsShort := by
  cases d
  case nan      => simp [toDuration, IsShort]
  case infinite => simp [toDuration, IsShort]
  case finite negative mantissa exponent =>
    have hsize : (if negative then -(micros mantissa exponent : Int)
        else micros mantissa exponent) = micros mantissa exponent := by
      cases negative
      case false => rfl
      case true =>
        have hm : mantissa = 0 := by simpa [isNegative] using hn
        rw [hm, micros_zero]
        rfl
    simp only [toDuration]
    rw [hsize, checkDuration_eq_ok_iff (Int.natCast_nonneg _), IsShort, ← micros_lt_iff hf.1]
    omega

end Microseconds

end Double

namespace Settings

theorem inFormat_of_ofEntries (h : ofEntries entries = .ok s)
    (hf : ∀ e ∈ entries, ∀ d, e.2 = .float d → d.InFormat) (hd : s.seconds? setting = some d) :
    d.InFormat := by
  obtain ⟨faults, hc⟩ := change_of_ofEntries h
  rcases seconds?_of_change hc hd with hs | ⟨e, he, -, ht⟩
  case inr => exact Double.inFormat_of_toDouble (hf e he) ht
  case inl =>
    cases setting <;> cases hs
    exacts [Double.inFormat_ofInt 7200, Double.inFormat_ofInt 60, Double.inFormat_ofInt 3600,
      Double.inFormat_ofInt 60]

theorem timing_eq_ok_iff : (∃ t, s.timing = .ok t) ↔
    ∀ setting d, s.seconds? setting = some d → ∃ n, d.toDuration = .ok n := by
  constructor
  · rintro ⟨t, ht⟩ setting d hd
    obtain ⟨m, hm, ht⟩ := Except.bind_eq_ok_iff.mp ht
    obtain ⟨i, hi, ht⟩ := Except.bind_eq_ok_iff.mp ht
    obtain ⟨p, hp, ht⟩ := Except.bind_eq_ok_iff.mp ht
    obtain ⟨w, hw, ht⟩ := Except.bind_eq_ok_iff.mp ht
    cases setting <;> cases hd
    exacts [⟨m, hm⟩, ⟨i, hi⟩, ⟨p, hp⟩, ⟨w, hw⟩]
  · intro h
    obtain ⟨m, hm⟩ := h .missedWindow _ rfl
    obtain ⟨i, hi⟩ := h .smallestInterval _ rfl
    obtain ⟨p, hp⟩ := h .pollInterval _ rfl
    obtain ⟨w, hw⟩ := h .startDelay _ rfl
    rw [timing, hm, Except.ok_bind, hi, Except.ok_bind, hp, Except.ok_bind, hw]
    exact ⟨_, rfl⟩

theorem exists_of_timing_error {err : DurationFault} (h : s.timing = .error err) :
    ∃ setting d, s.seconds? setting = some d ∧ d.toDuration = .error err := by
  rcases Except.bind_eq_error_iff.mp h with h | ⟨m, hm, h⟩
  · exact ⟨.missedWindow, _, rfl, h⟩
  rcases Except.bind_eq_error_iff.mp h with h | ⟨i, hi, h⟩
  · exact ⟨.smallestInterval, _, rfl, h⟩
  rcases Except.bind_eq_error_iff.mp h with h | ⟨p, hp, h⟩
  · exact ⟨.pollInterval, _, rfl, h⟩
  rcases Except.bind_eq_error_iff.mp h with h | ⟨w, hw, h⟩
  · exact ⟨.startDelay, _, rfl, h⟩
  · cases h

-- Settings that are accepted can be used if and only if each duration is a finite number of seconds
-- below a thousand million days. They then give four durations, none of them negative. Otherwise
-- the error is that of a duration that is too long or no number.
theorem accepted_usable_iff_short (h : ofEntries entries = .ok s)
    (hf : ∀ e ∈ entries, ∀ d, e.2 = .float d → d.InFormat) :
    ((∃ t, s.timing = .ok t) ↔ ∀ setting d, s.seconds? setting = some d → d.IsShort) ∧
    (∀ t, s.timing = .ok t →
      0 ≤ t.missedWindow ∧ 0 ≤ t.smallestInterval ∧ 0 ≤ t.pollInterval ∧ 0 ≤ t.startDelay) ∧
    ∀ err, s.timing = .error err →
      ∃ setting d, s.seconds? setting = some d ∧ ¬d.IsShort ∧ d.toDuration = .error err := by
  have hshort (setting) (d) (hd : s.seconds? setting = some d) :
      (∃ n, d.toDuration = .ok n) ↔ d.IsShort :=
    Double.toDuration_eq_ok_iff (inFormat_of_ofEntries h hf hd) ((accepted h).durations _ _ hd)
  refine ⟨timing_eq_ok_iff.trans ?_, fun t ht => (accepted h).timing_nonneg ht, fun err he => ?_⟩
  · exact forall₃_congr hshort
  · obtain ⟨setting, d, hd, herr⟩ := exists_of_timing_error he
    refine ⟨setting, d, hd, fun hs => ?_, herr⟩
    obtain ⟨n, hn⟩ := (hshort _ _ hd).mpr hs
    cases herr.symm.trans hn

-- The last hundredth of a second that can be waited.
theorem accepted_usable_iff_short_of_text :
    ∃ s t, ofEntries [("poll_interval_seconds", "86399999999999.99")] = .ok s ∧
      s.timing = .ok t ∧ t.pollInterval = 86399999999999984375 ∧ 0 ≤ t.pollInterval := by
  have hx : (ofEntries [("poll_interval_seconds", "86399999999999.99")]).toOption.map
      (fun s => s.timing.toOption.map (·.pollInterval)) = some (some 86399999999999984375) := by
    decide +kernel
  obtain ⟨s, hs, hx⟩ := Option.map_eq_some_iff.mp hx
  obtain ⟨t, ht, hp⟩ := Option.map_eq_some_iff.mp hx
  have hs := Except.toOption_eq_some_iff.mp hs
  have ht := Except.toOption_eq_some_iff.mp ht
  obtain ⟨-, hn, -⟩ := accepted_usable_iff_short hs (by simp)
  exact ⟨s, t, hs, ht, hp, (hn t ht).2.2.1⟩

-- What is accepted need not be a duration.
theorem accepted_not_usable :
    (∃ s, ofEntries [("missed_window_seconds", .float (.infinite false))] = .ok s ∧
      s.timing = .error .infinite) ∧
    (∃ s, ofEntries [("missed_window_seconds", .float .nan)] = .ok s ∧
      s.timing = .error .notANumber) ∧
    ∃ s, ofEntries [("poll_interval_seconds", .integer 86400000000000)] = .ok s ∧
      s.timing = .error (.tooLong 1000000000) := by
  have hgo {entries : Entries} {err : DurationFault}
      (h : (ofEntries entries).toOption.map (fun s => match s.timing with
        | .ok _ => none
        | .error err => some err) = some (some err)) :
      ∃ s, ofEntries entries = .ok s ∧ s.timing = .error err := by
    obtain ⟨s, hs, hx⟩ := Option.map_eq_some_iff.mp h
    refine ⟨s, Except.toOption_eq_some_iff.mp hs, ?_⟩
    cases ht : s.timing <;> rw [ht] at hx <;> cases hx
    rfl
  refine ⟨hgo ?_, hgo ?_, hgo ?_⟩
  · decide +kernel
  · decide +kernel
  · decide +kernel

end Settings
end Cron
