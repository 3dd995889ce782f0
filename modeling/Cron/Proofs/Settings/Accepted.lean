import Cron.Proofs.Except
import Cron.Settings.Basic

namespace Cron

variable {s : Settings} {entries : Entries} {t : Timing} {d : Double} {n size : Int}

namespace Double

theorem roundHalfEven_zero (den : Nat) : roundHalfEven 0 den = 0 := by
  simp [roundHalfEven]

theorem micros_zero (e : Int) : micros 0 e = 0 := by
  have hz (e : Int) : (ratio 0 e).1 = 0 := by
    rw [ratio]
    split <;> simp
  have hr : ofRatio false 0 (ratio 0 e).2 = .finite false 0 minExponent := rfl
  simp only [micros, hz, Nat.zero_div, Nat.zero_mod, Nat.mul_zero, hr, roundHalfEven_zero]

theorem checkDuration_eq_ok (h : checkDuration size = .ok n) : n = size := by
  simp only [checkDuration] at h
  split at h
  · cases h
  · split at h <;> cases h
    rfl

theorem toDuration_nonneg (hd : d.isNegative = false) (h : d.toDuration = .ok n) : 0 ≤ n := by
  cases d
  case nan      => cases h
  case infinite => cases h
  case finite negative mantissa exponent =>
    have hn := checkDuration_eq_ok h
    cases negative
    case false =>
      simp only [Bool.false_eq_true, if_false] at hn
      omega
    case true =>
      have hm : mantissa = 0 := by simpa [isNegative] using hd
      subst hm
      rw [if_pos rfl, micros_zero] at hn
      omega

end Double

namespace Settings

-- What is checked of settings before they are accepted.
structure Accepted (s : Settings) : Prop where
  dialect   : (Dialect.ofName? s.dialect).isSome
  horizon   : 1 ≤ s.yearHorizon
  durations : ∀ setting d, s.seconds? setting = some d → d.isNegative = false
  level     : isLogLevel s.logLevel

theorem report_eq_ok {faults shown : List SettingFault} (h : report faults = .ok shown) :
    shown = faults := by
  rw [report] at h
  split at h <;> cases h
  rfl

theorem faults_eq_nil (h : ofEntries entries = .ok s) : s.faults = [] := by
  obtain ⟨unknown, -, h⟩ := Except.bind_eq_ok_iff.mp h
  obtain ⟨⟨s', unfit⟩, -, h⟩ := Except.bind_eq_ok_iff.mp h
  dsimp only at h
  split at h
  case isTrue => cases h
  case isFalse =>
    obtain ⟨faults, hf, h⟩ := Except.bind_eq_ok_iff.mp h
    split at h <;> cases h
    rw [← report_eq_ok hf]
    exact List.isEmpty_iff.mp ‹_›

theorem mem_all (setting : Setting) : setting ∈ Setting.all := by
  cases setting <;> decide

theorem accepted (h : ofEntries entries = .ok s) : s.Accepted := by
  have hf := faults_eq_nil h
  simp only [faults, List.append_eq_nil_iff] at hf
  obtain ⟨⟨⟨hd, hy⟩, hn⟩, hl⟩ := hf
  constructor
  case dialect => simpa [Option.isSome_iff_ne_none] using hd
  case horizon =>
    have : ¬s.yearHorizon < 1 := fun hlt => by simp [hlt] at hy
    omega
  case durations =>
    intro setting d hs
    rw [List.map_eq_nil_iff, List.filter_eq_nil_iff] at hn
    have := hn setting (mem_all setting)
    simpa [hs] using this
  case level =>
    by_contra hb
    simp [hb] at hl

theorem Accepted.timing_nonneg (h : s.Accepted) (ht : s.timing = .ok t) :
    0 ≤ t.missedWindow ∧ 0 ≤ t.smallestInterval ∧ 0 ≤ t.pollInterval ∧ 0 ≤ t.startDelay := by
  obtain ⟨m, hm, ht⟩ := Except.bind_eq_ok_iff.mp ht
  obtain ⟨i, hi, ht⟩ := Except.bind_eq_ok_iff.mp ht
  obtain ⟨p, hp, ht⟩ := Except.bind_eq_ok_iff.mp ht
  obtain ⟨w, hw, ht⟩ := Except.bind_eq_ok_iff.mp ht
  cases ht
  exact ⟨Double.toDuration_nonneg (h.durations .missedWindow _ rfl) hm,
    Double.toDuration_nonneg (h.durations .smallestInterval _ rfl) hi,
    Double.toDuration_nonneg (h.durations .pollInterval _ rfl) hp,
    Double.toDuration_nonneg (h.durations .startDelay _ rfl) hw⟩

end Settings

end Cron
