import Cron.Proofs.Settings.Accepted
import Cron.Proofs.Text.Numeral

-- What comes of reading settings. Settings that are read are in range; otherwise the faults of the
-- entries are reported, unless one of the values is too large to be converted or shown.

namespace Cron

open Text

variable {s s' : Settings} {entries : Entries} {e : Value × Value} {setting : Setting} {v : Value}
variable {d : Double} {n : Int}

section Powers

variable {j k : Nat}

theorem twoTo_mono (h : j ≤ k) : twoTo j ≤ twoTo k := Nat.pow_le_pow_right (by decide) h

theorem twoTo_mul (j k : Nat) : twoTo j * twoTo k = twoTo (j + k) := (Nat.pow_add 2 j k).symm

theorem twoTo_le (k : Nat) : twoTo k ≤ 10 ^ k := Nat.pow_le_pow_left (by decide) k

end Powers

namespace Double

-- A number of the format, if it is finite: its mantissa and its exponent are not too large.
def InFormat : Double → Prop
  | finite _ mantissa exponent => mantissa < twoTo 53 ∧ exponent ≤ maxExponent
  | _ => True

theorem natAbs_toInt? {negative : Bool} {mantissa : Nat} {exponent : Int}
    (h : (finite negative mantissa exponent).toInt? = some n) :
    n.natAbs = (ratio mantissa exponent).1 / (ratio mantissa exponent).2 := by
  simp only [toInt?] at h
  split at h
  · cases h
    cases negative
    · exact Int.natAbs_natCast _
    · exact (Int.natAbs_neg _).trans (Int.natAbs_natCast _)
  · cases h

theorem toInt?_lt (h : d.InFormat) (hn : d.toInt? = some n) :
    n.natAbs < twoTo 53 * twoTo maxExponent.toNat := by
  cases d
  case nan      => cases hn
  case infinite => cases hn
  case finite negative mantissa exponent =>
    obtain ⟨hm, he⟩ := h
    have hratio : (ratio mantissa exponent).1 ≤ mantissa * twoTo exponent.toNat := by
      rw [ratio]
      split
      · exact Nat.le_refl _
      · exact Nat.le_mul_of_pos_right _ (twoTo_pos _)
    have hpow : twoTo exponent.toNat ≤ twoTo maxExponent.toNat :=
      twoTo_mono <| Int.toNat_le_toNat he
    calc
      n.natAbs ≤ (ratio mantissa exponent).1         := natAbs_toInt? hn ▸ Nat.div_le_self _ _
      _ ≤ mantissa * twoTo exponent.toNat            := hratio
      _ ≤ mantissa * twoTo maxExponent.toNat         := Nat.mul_le_mul_left _ hpow
      _ < twoTo 53 * twoTo maxExponent.toNat         := Nat.mul_lt_mul_of_pos_right hm (twoTo_pos _)

end Double

namespace Value

theorem isShowable_integer : (integer n).isShowable ↔ (natDigits n.natAbs).length ≤ maxDigits := by
  rw [isShowable, decide_eq_true_iff]

theorem isShowable_of_toInt? (h : d.InFormat) (hn : d.toInt? = some n) :
    (integer n).isShowable := by
  refine isShowable_integer.mpr <| length_natDigits_le (by decide) ?_
  have hlt := Double.toInt?_lt h hn
  rw [twoTo_mul] at hlt
  exact hlt.trans_le <| (twoTo_le _).trans <|
    Nat.pow_le_pow_right (by decide) (by decide)

theorem isShowable_of_readInt {cs : List Char} (h : readInt maxDigits cs = .integer n) :
    (integer n).isShowable := by
  simp only [readInt] at h
  split at h
  case h_2 => cases h
  case h_1 digits _ =>
    split at h
    case isTrue => cases h
    case isFalse hnum =>
      split at h
      case isTrue => cases h
      case isFalse hlen =>
        have hnum : isNumeral digits := by simpa using hnum
        rw [isNumeral_iff] at hnum
        have habs : n.natAbs = digitsValue digits := by
          cases h
          split
          · exact (Int.natAbs_neg _).trans (Int.natAbs_natCast _)
          · exact Int.natAbs_natCast _
        rw [isShowable_integer, habs]
        exact (length_natDigits_digitsValue_le hnum.1 hnum.2).trans (Nat.not_lt.mp hlen)

theorem isShowable_of_toInteger (hf : ∀ d, v = .float d → d.InFormat) (hv : ∀ m, v ≠ .integer m)
    (h : v.toInteger = .ok n) : (integer n).isShowable := by
  cases v
  case integer m => exact absurd rfl (hv m)
  case float d =>
    cases hd : d.toInt?
    case none =>
      rw [toInteger, hd] at h
      cases h
    case some m =>
      rw [toInteger, hd] at h
      cases h
      exact isShowable_of_toInt? (hf d rfl) hd
  case text s =>
    rw [toInteger] at h
    split at h
    case h_1 m hm =>
      cases h
      obtain ⟨cs, -, hm⟩ := Option.map_eq_some_iff.mp hm
      exact isShowable_of_readInt hm
    case h_2 => cases h
  all_goals cases h

theorem toText_cases (v : Value) :
    (∃ t, v.toText = .ok t) ∧ v.isShowable ∨ v.toText = .error .form := by
  cases v
  case text t => exact .inl ⟨⟨t, rfl⟩, rfl⟩
  all_goals exact .inr rfl

theorem toInteger_cases (hv : ∀ n, v ≠ .integer n) :
    (∃ n, v.toInteger = .ok n) ∧ v.isShowable ∨ v.toInteger = .error .form := by
  cases v
  case integer n => exact absurd rfl (hv n)
  case float d =>
    rw [toInteger]
    split
    · exact .inl ⟨⟨_, rfl⟩, rfl⟩
    · exact .inr rfl
  case text t =>
    rw [toInteger]
    split
    · exact .inl ⟨⟨_, rfl⟩, rfl⟩
    · exact .inr rfl
  all_goals exact .inr rfl

theorem toDouble_cases (hv : ∀ n, v ≠ .integer n) :
    (∃ d, v.toDouble = .ok d) ∧ v.isShowable ∨ v.toDouble = .error .form := by
  cases v
  case integer n => exact absurd rfl (hv n)
  case float d   => exact .inl ⟨⟨d, rfl⟩, rfl⟩
  case text t =>
    rw [toDouble]
    split
    · exact .inl ⟨⟨_, rfl⟩, rfl⟩
    · exact .inr rfl
  all_goals exact .inr rfl

end Value

namespace Setting

def isDuration : Setting → Bool
  | missedWindow | smallestInterval | pollInterval | startDelay => true
  | dialect | yearHorizon | logLevel => false

-- Whether a value is of a size that a setting can do with. An integer has to be among the
-- floating-point numbers where a duration is wanted. Otherwise a value has to be short enough to be
-- shown, unless it is a number of years that is accepted.
def bears (setting : Setting) : Value → Bool
  | .integer n =>
    if setting.isDuration then
      match Double.ofInt n with
      | .infinite _ => false
      | _ => true
    else setting == .yearHorizon && 1 ≤ n || (Value.integer n).isShowable
  | v => v.isShowable

theorem bears_eq_isShowable (hv : ∀ n, v ≠ .integer n) : setting.bears v = v.isShowable := by
  cases v
  case integer n => exact absurd rfl (hv n)
  all_goals rfl

theorem bears_duration (hs : setting.isDuration) (n : Int) :
    (∃ d, (Value.integer n).toDouble = .ok d) ∧ setting.bears (.integer n) ∨
      (Value.integer n).toDouble = .error .tooLarge ∧ setting.bears (.integer n) = false := by
  simp only [Value.toDouble, bears, hs, if_true]
  cases Double.ofInt n
  case infinite => exact .inr ⟨rfl, rfl⟩
  all_goals exact .inl ⟨⟨_, rfl⟩, rfl⟩

-- What a setting becomes by a value.
inductive Takes (v : Value) : Setting → Value → Prop
  | text {setting : Setting} {t : Codes} :
    setting = .dialect ∨ setting = .logLevel → v.toText = .ok t → Takes v setting (.text t)
  | years {n : Int} : v.toInteger = .ok n → Takes v .yearHorizon (.integer n)
  | duration {setting : Setting} {d : Double} :
    setting.isDuration → v.toDouble = .ok d → Takes v setting (.float d)

end Setting

namespace Settings

variable {s₁ : Settings} {rest : Entries} {faults : List SettingFault}

theorem takes_of_set (h : s.set v setting = .ok s') : setting.Takes v (s'.get setting) := by
  cases setting <;> obtain ⟨x, hx, rfl⟩ := Except.map_eq_ok_iff.mp h
  case dialect     => exact .text (.inl rfl) hx
  case yearHorizon => exact .years hx
  case logLevel    => exact .text (.inr rfl) hx
  all_goals exact .duration rfl hx

theorem get_of_set {other : Setting} (h : s.set v setting = .ok s') (ho : other ≠ setting) :
    s'.get other = s.get other := by
  cases setting <;> obtain ⟨x, -, rfl⟩ := Except.map_eq_ok_iff.mp h <;>
    cases other <;> first | rfl | exact absurd rfl ho

theorem set_of_not_integer (s : Settings) (setting : Setting) (hv : ∀ n, v ≠ .integer n) :
    (∃ s', s.set v setting = .ok s') ∧ v.isShowable ∨ s.set v setting = .error .form := by
  have hmap {α : Type} {x : Except Unfit α} (f : α → Settings)
      (hx : (∃ a, x = .ok a) ∧ v.isShowable ∨ x = .error .form) :
      (∃ s', x.map f = .ok s') ∧ v.isShowable ∨ x.map f = .error .form := by
    rcases hx with ⟨⟨a, rfl⟩, hs⟩ | rfl
    · exact .inl ⟨⟨f a, rfl⟩, hs⟩
    · exact .inr rfl
  cases setting
  case dialect | logLevel => exact hmap _ v.toText_cases
  case yearHorizon        => exact hmap _ (Value.toInteger_cases hv)
  all_goals exact hmap _ (Value.toDouble_cases hv)

-- A value is taken, does not fit, or is too large.
theorem set_cases (s : Settings) (setting : Setting) (v : Value) :
    ((∃ s', s.set v setting = .ok s') ∧ (setting ≠ .yearHorizon → setting.bears v)) ∨
    (s.set v setting = .error .form ∧ setting.bears v = v.isShowable) ∨
    (s.set v setting = .error .tooLarge ∧ setting.bears v = false) := by
  by_cases hv : ∀ n, v ≠ .integer n
  case pos =>
    have hb : setting.bears v = v.isShowable := Setting.bears_eq_isShowable hv
    rcases set_of_not_integer s setting hv with ⟨hs, hshow⟩ | hs
    · exact .inl ⟨hs, fun _ => hb.trans hshow⟩
    · exact .inr <| .inl ⟨hs, hb⟩
  case neg =>
    obtain ⟨n, hn⟩ := not_forall.mp hv
    obtain rfl := not_not.mp hn
    have hmap (f : Double → Settings) (hd : setting.isDuration) :
        ((∃ s', (Value.integer n).toDouble.map f = .ok s') ∧
          (setting ≠ .yearHorizon → setting.bears (.integer n))) ∨
        ((Value.integer n).toDouble.map f = .error .form ∧
          setting.bears (.integer n) = (Value.integer n).isShowable) ∨
        ((Value.integer n).toDouble.map f = .error .tooLarge ∧
          setting.bears (.integer n) = false) := by
      rcases Setting.bears_duration hd n with ⟨⟨d, hd⟩, hb⟩ | ⟨hd, hb⟩
      · rw [hd]
        exact .inl ⟨⟨_, rfl⟩, fun _ => hb⟩
      · rw [hd]
        exact .inr <| .inr ⟨rfl, hb⟩
    cases setting
    case dialect | logLevel => exact .inr <| .inl ⟨rfl, rfl⟩
    case yearHorizon        => exact .inl ⟨⟨_, rfl⟩, fun hy => absurd rfl hy⟩
    all_goals exact hmap _ rfl

theorem bears_of_set (h : s.set v setting = .ok s') (hy : setting ≠ .yearHorizon) :
    setting.bears v := by
  rcases set_cases s setting v with ⟨-, hb⟩ | ⟨hs, -⟩ | ⟨hs, -⟩
  · exact hb hy
  · cases h.symm.trans hs
  · cases h.symm.trans hs

theorem bears_of_form (h : s.set v setting = .error .form) : setting.bears v = v.isShowable := by
  rcases set_cases s setting v with ⟨⟨s', hs⟩, -⟩ | ⟨-, hb⟩ | ⟨hs, -⟩
  · cases h.symm.trans hs
  · exact hb
  · cases h.symm.trans hs

theorem bears_of_tooLarge (h : s.set v setting = .error .tooLarge) : setting.bears v = false := by
  rcases set_cases s setting v with ⟨⟨s', hs⟩, -⟩ | ⟨hs, -⟩ | ⟨-, hb⟩
  · cases h.symm.trans hs
  · cases h.symm.trans hs
  · exact hb

-- What comes of one more entry in front of others.
inductive Entered (s : Settings) (e : Value × Value) (rest : Entries) :
    Except SettingsError (Settings × List SettingFault) → Prop
  | skipped :
    (∀ setting, Setting.ofKey? e.1 = some setting → e.2 = .null) → Entered s e rest (s.change rest)
  | taken {setting : Setting} {s₁ : Settings} :
    Setting.ofKey? e.1 = some setting → s.set e.2 setting = .ok s₁ →
    Entered s e rest (s₁.change rest)
  | tooLarge {setting : Setting} :
    Setting.ofKey? e.1 = some setting → s.set e.2 setting = .error .tooLarge →
    Entered s e rest (.error (.fault .hugeInteger))
  | unfit {setting : Setting} :
    Setting.ofKey? e.1 = some setting → s.set e.2 setting = .error .form →
    Entered s e rest (do
      let faults ← report [.unfit setting e.2]
      let (s, more) ← s.change rest
      return (s, faults ++ more))

theorem entered_change (s : Settings) (e : Value × Value) (rest : Entries) :
    Entered s e rest (s.change (e :: rest)) := by
  rw [change.eq_def]
  dsimp only
  split
  case h_1 hk    => exact .skipped (by simp [hk])
  case h_2 _ hnull => exact .skipped fun _ _ => hnull
  case h_3 setting hk _ =>
    split
    case h_1 hs => exact .taken hk hs
    case h_2 hs => exact .tooLarge hk hs
    case h_3 hs => exact .unfit hk hs

-- Every setting is as it was, or it was taken from one of the entries.
theorem get_of_change (h : s.change entries = .ok (s', faults)) (setting : Setting) :
    s'.get setting = s.get setting ∨
      ∃ e ∈ entries, Setting.ofKey? e.1 = some setting ∧ setting.Takes e.2 (s'.get setting) := by
  induction entries generalizing s faults
  case nil =>
    cases h
    exact .inl rfl
  case cons e rest hi =>
    have hlater {s₁ : Settings} {more : List SettingFault} (h : s₁.change rest = .ok (s', more)) :
        s'.get setting = s₁.get setting ∨
          ∃ e' ∈ e :: rest, Setting.ofKey? e'.1 = some setting ∧
            setting.Takes e'.2 (s'.get setting) :=
      (hi h).imp_right fun ⟨e', he, ht⟩ => ⟨e', List.mem_cons_of_mem _ he, ht⟩
    have hc := entered_change s e rest
    rw [h] at hc
    generalize hx : (Except.ok (s', faults) : Except SettingsError _) = x at hc
    cases hc
    case skipped _   => exact hlater hx.symm
    case tooLarge    => cases hx
    case unfit =>
      obtain ⟨_, -, hx⟩ := Except.bind_eq_ok_iff.mp hx.symm
      obtain ⟨⟨s₁, more⟩, hr, hx⟩ := Except.bind_eq_ok_iff.mp hx
      cases hx
      exact hlater hr
    case taken k s₁ hk hs =>
      rcases hlater hx.symm with heq | hlast
      · by_cases hks : setting = k
        · subst hks
          exact .inr ⟨e, List.mem_cons_self, hk, heq ▸ takes_of_set hs⟩
        · exact .inl <| heq.trans <| get_of_set hs hks
      · exact .inr hlast

theorem report_of_isShowable (h : ∀ f ∈ faults, f.isShowable) : report faults = .ok faults :=
  if_pos <| List.all_eq_true.mpr h

theorem isShowable_of_report {shown : List SettingFault} (h : report faults = .ok shown) :
    ∀ f ∈ faults, f.isShowable := by
  rw [report] at h
  split at h
  case isTrue hall => exact List.all_eq_true.mp hall
  case isFalse     => cases h

theorem report_error {e : SettingsError} (h : report faults = .error e) : ∃ f, e = .fault f := by
  rw [report] at h
  split at h <;> cases h
  exact ⟨_, rfl⟩

-- Entries of which each is borne are read to their end, whatever else they are.
theorem exists_change (h : ∀ e ∈ entries, ∀ setting, Setting.ofKey? e.1 = some setting →
    setting.bears e.2) (s : Settings) : ∃ x, s.change entries = .ok x := by
  induction entries generalizing s
  case nil => exact ⟨_, rfl⟩
  case cons e rest hi =>
    have hrest := fun e' (he : e' ∈ rest) => h e' (List.mem_cons_of_mem _ he)
    have hc := entered_change s e rest
    generalize s.change (e :: rest) = x at hc
    cases hc
    case skipped           => exact hi hrest s
    case taken s₁ _ _      => exact hi hrest s₁
    case tooLarge setting hk hs =>
      cases (bears_of_tooLarge hs).symm.trans <| h e List.mem_cons_self setting hk
    case unfit setting hk hs =>
      have hshow : (SettingFault.unfit setting e.2).isShowable :=
        (bears_of_form hs).symm.trans <| h e List.mem_cons_self setting hk
      rw [report_of_isShowable <| List.forall_mem_singleton.mpr hshow]
      obtain ⟨x, hx⟩ := hi hrest s
      exact ⟨_, by rw [Except.ok_bind, hx, Except.ok_bind]; rfl⟩

-- Entries that are read to their end are borne, but for the number of years.
theorem bears_of_change {x : Settings × List SettingFault} (h : s.change entries = .ok x)
    (he : e ∈ entries) (hk : Setting.ofKey? e.1 = some setting) (hy : setting ≠ .yearHorizon) :
    setting.bears e.2 := by
  induction entries generalizing s x
  case nil => cases he
  case cons e' rest hi =>
    have hc := entered_change s e' rest
    rw [h] at hc
    generalize hx : (Except.ok x : Except SettingsError _) = y at hc
    rcases List.mem_cons.mp he with rfl | hrest
    case inl =>
      cases hc
      case skipped hnull =>
        rw [hnull setting hk]
        rfl
      case taken k s₁ hk' hs =>
        obtain rfl := Option.some.inj <| hk.symm.trans hk'
        exact bears_of_set hs hy
      case tooLarge => cases hx
      case unfit k hk' hs =>
        obtain rfl := Option.some.inj <| hk.symm.trans hk'
        obtain ⟨shown, hr, -⟩ := Except.bind_eq_ok_iff.mp hx.symm
        exact (bears_of_form hs).trans <| isShowable_of_report hr _ List.mem_cons_self
    case inr =>
      cases hc
      case skipped  => exact hi hx.symm hrest
      case taken    => exact hi hx.symm hrest
      case tooLarge => cases hx
      case unfit =>
        obtain ⟨_, -, hx⟩ := Except.bind_eq_ok_iff.mp hx.symm
        obtain ⟨_, hr, -⟩ := Except.bind_eq_ok_iff.mp hx
        exact hi hr hrest

-- Only a fault ends the reading of entries before their end.
theorem change_error {x : SettingsError} (h : s.change entries = .error x) :
    ∃ f, x = .fault f := by
  induction entries generalizing s
  case nil => cases h
  case cons e rest hi =>
    have hc := entered_change s e rest
    rw [h] at hc
    generalize hx : (Except.error x : Except SettingsError _) = y at hc
    cases hc
    case skipped  => exact hi hx.symm
    case taken    => exact hi hx.symm
    case tooLarge =>
      cases hx
      exact ⟨_, rfl⟩
    case unfit setting _ _ =>
      cases hr : report [.unfit setting e.2]
      case error f =>
        rw [hr] at hx
        cases hx
        exact report_error hr
      case ok shown =>
        cases hm : s.change rest
        case error f =>
          rw [hr, hm] at hx
          cases hx
          exact hi hm
        case ok y =>
          rw [hr, hm] at hx
          cases hx

-- An entry that is read without a fault, whatever it is set to.
structure Orderly (e : Value × Value) : Prop where
  key    : Setting.ofKey? e.1 = none → e.1.isShowable
  size   : ∀ setting, Setting.ofKey? e.1 = some setting → setting.bears e.2
  format : ∀ d, e.2 = .float d → d.InFormat

theorem orderly_text (key t : Codes) : Orderly (.text key, .text t) where
  key _    := rfl
  size _ _ := rfl
  format   := nofun

-- An entry that no reading gets past.
def Overloads (e : Value × Value) : Prop :=
  Setting.ofKey? e.1 = none ∧ e.1.isShowable = false ∨
    ∃ setting ≠ .yearHorizon, Setting.ofKey? e.1 = some setting ∧ setting.bears e.2 = false

def unknownKeys (entries : Entries) : List SettingFault :=
  ((entries.map (·.1)).filter fun key => (Setting.ofKey? key).isNone).map .unknown

theorem ofEntries_eq (entries : Entries) : ofEntries entries = (do
    let unknown ← report (unknownKeys entries)
    let (s, unfit) ← standard.change entries
    if !(unknown ++ unfit).isEmpty then .error (.invalid (unknown ++ unfit))
    else do
      let faults ← report s.faults
      if faults.isEmpty then .ok s else .error (.invalid faults)) := rfl

theorem mem_unknownKeys {f : SettingFault} : f ∈ unknownKeys entries ↔
    ∃ e ∈ entries, Setting.ofKey? e.1 = none ∧ f = .unknown e.1 := by
  simp only [unknownKeys, List.mem_map, List.mem_filter, Option.isNone_iff_eq_none]
  constructor
  · rintro ⟨key, ⟨⟨e, he, rfl⟩, hk⟩, rfl⟩
    exact ⟨e, he, hk, rfl⟩
  · rintro ⟨e, he, hk, rfl⟩
    exact ⟨e.1, ⟨⟨e, he, rfl⟩, hk⟩, rfl⟩

theorem isShowable_of_faults (hy : s.yearHorizon < 1 → (Value.integer s.yearHorizon).isShowable) :
    ∀ f ∈ s.faults, f.isShowable := by
  intro f hf
  simp only [faults, List.mem_append, List.mem_ite_nil_right, List.mem_ite_nil_left,
    List.mem_singleton, List.mem_map] at hf
  rcases hf with ((⟨-, rfl⟩ | ⟨hlt, rfl⟩) | ⟨setting, -, rfl⟩) | ⟨-, rfl⟩
  case inl.inl.inr => exact hy hlt
  all_goals rfl

-- A number of years that is refused was given so that it can be shown.
theorem isShowable_of_horizon (h : ∀ e ∈ entries, Orderly e)
    (hc : standard.change entries = .ok (s, faults)) (hlt : s.yearHorizon < 1) :
    (Value.integer s.yearHorizon).isShowable := by
  rcases get_of_change hc .yearHorizon with heq | ⟨e, he, hk, ht⟩
  case inl =>
    have hy : s.yearHorizon = defaultHorizon := Value.integer.inj heq
    rw [hy] at hlt
    exact absurd hlt (by decide)
  case inr =>
    generalize hv : e.2 = v at ht
    have hb : Setting.yearHorizon.bears v := hv ▸ (h e he).size _ hk
    cases ht
    case years hn =>
      by_cases hm : ∃ m, v = .integer m
      case neg =>
        exact Value.isShowable_of_toInteger (fun d hd => (h e he).format d (hv.trans hd))
          (fun m hm' => hm ⟨m, hm'⟩) hn
      case pos =>
        obtain ⟨m, rfl⟩ := hm
        cases hn
        simpa [Setting.bears, Setting.isDuration, Int.not_le.mpr hlt] using hb

theorem accepts_or_refuses (h : ∀ e ∈ entries, Orderly e) :
    (∃ s, ofEntries entries = .ok s) ∨
      ∃ faults, faults ≠ [] ∧ ofEntries entries = .error (.invalid faults) := by
  have hkeys : report (unknownKeys entries) = .ok (unknownKeys entries) := by
    refine report_of_isShowable fun f hf => ?_
    obtain ⟨e, he, hk, rfl⟩ := mem_unknownKeys.mp hf
    exact (h e he).key hk
  obtain ⟨⟨s, unfit⟩, hs⟩ := exists_change (fun e he => (h e he).size) standard
  rw [ofEntries_eq, hkeys, Except.ok_bind, hs, Except.ok_bind]
  dsimp only
  split
  case isTrue hne => exact .inr ⟨_, by simpa using hne, rfl⟩
  case isFalse =>
    have hfaults : report s.faults = .ok s.faults :=
      report_of_isShowable <| isShowable_of_faults <| isShowable_of_horizon h hs
    rw [hfaults, Except.ok_bind]
    split
    case isTrue      => exact .inl ⟨s, rfl⟩
    case isFalse hne => exact .inr ⟨_, by simpa using hne, rfl⟩

theorem fault_of_overloads (he : e ∈ entries) (h : Overloads e) :
    ∃ f, ofEntries entries = .error (.fault f) := by
  rw [ofEntries_eq]
  cases hr : report (unknownKeys entries)
  case error x =>
    obtain ⟨f, rfl⟩ := report_error hr
    exact ⟨f, rfl⟩
  case ok unknown =>
    rw [Except.ok_bind]
    cases hc : standard.change entries
    case error x =>
      obtain ⟨f, rfl⟩ := change_error hc
      exact ⟨f, rfl⟩
    case ok x =>
      rcases h with ⟨hk, hshow⟩ | ⟨setting, hy, hk, hb⟩
      · have := isShowable_of_report hr _ <| mem_unknownKeys.mpr ⟨e, he, hk, rfl⟩
        cases hshow.symm.trans this
      · cases hb.symm.trans <| bears_of_change hc he hk hy

theorem seconds?_of_change (hc : standard.change entries = .ok (s, faults))
    (hd : s.seconds? setting = some d) :
    standard.seconds? setting = some d ∨
      ∃ e ∈ entries, Setting.ofKey? e.1 = some setting ∧ e.2.toDouble = .ok d := by
  have hget : s.get setting = .float d := by
    rw [seconds?] at hd
    split at hd
    · exact ‹s.get setting = _›.trans <| congrArg _ <| Option.some.inj hd
    · cases hd
  rcases get_of_change hc setting with heq | ⟨e, he, hk, ht⟩
  case inl =>
    rw [hget] at heq
    exact .inl <| by rw [seconds?, ← heq]
  case inr =>
    rw [hget] at ht
    cases ht
    case duration hd => exact .inr ⟨e, he, hk, hd⟩

theorem standard_seconds?_ne_nan (setting : Setting) : standard.seconds? setting ≠ some .nan := by
  cases setting <;> decide +kernel

theorem change_of_ofEntries (h : ofEntries entries = .ok s) :
    ∃ faults, standard.change entries = .ok (s, faults) := by
  obtain ⟨unknown, -, h⟩ := Except.bind_eq_ok_iff.mp h
  obtain ⟨⟨s', unfit⟩, hc, h⟩ := Except.bind_eq_ok_iff.mp h
  dsimp only at h
  split at h
  case isTrue => cases h
  case isFalse =>
    obtain ⟨faults, -, h⟩ := Except.bind_eq_ok_iff.mp h
    split at h <;> cases h
    exact ⟨unfit, hc⟩

-- Settings that are read are in range, and a duration is no number only if it was given so. Orderly
-- entries are accepted or refused with their faults; an entry that overloads the reading ends it.
theorem reading_accepts_or_refuses (entries : Entries) :
    (∀ s, ofEntries entries = .ok s → s.Accepted ∧
      ∀ setting, s.seconds? setting = some .nan →
        ∃ e ∈ entries, Setting.ofKey? e.1 = some setting ∧ e.2.toDouble = .ok .nan) ∧
    ((∀ e ∈ entries, Orderly e) →
      (∃ s, ofEntries entries = .ok s) ∨
        ∃ faults, faults ≠ [] ∧ ofEntries entries = .error (.invalid faults)) ∧
    ((∃ e ∈ entries, Overloads e) → ∃ f, ofEntries entries = .error (.fault f)) := by
  refine ⟨fun s hs => ⟨accepted hs, fun setting hnan => ?_⟩, accepts_or_refuses,
    fun ⟨e, he, h⟩ => fault_of_overloads he h⟩
  obtain ⟨faults, hc⟩ := change_of_ofEntries hs
  rcases seconds?_of_change hc hnan with h | h
  · exact absurd h <| standard_seconds?_ne_nan setting
  · exact h

theorem reading_accepts_or_refuses_long_horizon :
    (∃ s, ofEntries [("year_horizon", .integer (10 ^ 400))] = .ok s ∧ s.Accepted) ∧
    ((∃ s, ofEntries [("start_delay_seconds", "-1e999"), ("log_level", "loud")] = .ok s) ∨
      ∃ faults, faults ≠ [] ∧
        ofEntries [("start_delay_seconds", "-1e999"), ("log_level", "loud")] =
          .error (.invalid faults)) ∧
    ∃ f, ofEntries [("start_delay_seconds", .integer (-10 ^ 400))] = .error (.fault f) := by
  refine ⟨?_, (reading_accepts_or_refuses _).2.1 ?_, (reading_accepts_or_refuses _).2.2 ?_⟩
  case refine_1 =>
    have h : (ofEntries [("year_horizon", .integer (10 ^ 400))]).toOption.isSome := by
      decide +kernel
    obtain ⟨s, hs⟩ := Except.exists_eq_ok_of_isSome h
    exact ⟨s, hs, ((reading_accepts_or_refuses _).1 s hs).1⟩
  case refine_2 =>
    intro e he
    simp only [List.mem_cons, List.not_mem_nil, or_false] at he
    rcases he with rfl | rfl <;> exact orderly_text _ _
  case refine_3 =>
    exact ⟨_, List.mem_cons_self, .inr ⟨.startDelay, nofun, by decide +kernel, by decide +kernel⟩⟩

-- An integer beyond the floating-point numbers is no setting that is refused, and no number is a
-- duration.
theorem reading_neither_accepts_nor_refuses :
    (∃ f, ofEntries [("missed_window_seconds", .integer (10 ^ 400))] = .error (.fault f)) ∧
    ∃ s, ofEntries [("missed_window_seconds", .float .nan)] = .ok s ∧
      s.seconds? .missedWindow = some .nan := by
  constructor
  case left =>
    refine fault_of_overloads List.mem_cons_self <| .inr ⟨.missedWindow, nofun, ?_, ?_⟩
    · decide +kernel
    · decide +kernel
  case right =>
    have h : (ofEntries [("missed_window_seconds", .float .nan)]).toOption.map
        (·.seconds? .missedWindow) = some (some .nan) := by decide +kernel
    obtain ⟨s, hs, hnan⟩ := Option.map_eq_some_iff.mp h
    exact ⟨s, Except.toOption_eq_some_iff.mp hs, hnan⟩

end Settings

end Cron
