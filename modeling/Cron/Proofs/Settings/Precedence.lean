import Cron.Proofs.Settings.Reading
import Cron.Proofs.Text.Cutting
import Cron.Settings.Source

-- Settings from two sources. What comes of a file and of an environment is what comes of a single
-- mapping: the one of the file, with the settings that the environment names put into it.

namespace Cron

variable {x y : Setting} {v : Value} {es : Entries} {name : Codes}

namespace Codes

variable {t : Codes}

theorem string?_eq_some_iff {s : String} : t.string? = some s ↔ t = s where
  mp h := by
    obtain ⟨cs, hcs, rfl⟩ := Option.map_eq_some_iff.mp h
    rw [chars?_eq_some_iff.mp hcs, ofString, String.toList_ofList]
  mpr h := h ▸ string?_ofString s

end Codes

namespace Setting

theorem ofName?_eq_some_iff {text : String} : ofName? text = some x ↔ text = x.name where
  mp h := by
    rw [ofName?] at h
    have hx := List.find?_some (p := fun x : Setting => x.name == text) h
    exact (beq_iff_eq.mp hx).symm
  mpr h := by cases x <;> cases h <;> rfl

theorem ofKey?_eq_some_iff : ofKey? v = some x ↔ v = .text x.name := by
  cases v
  case text t =>
    rw [ofKey?, Value.text.injEq, Option.bind_eq_some_iff]
    simp only [Codes.string?_eq_some_iff, ofName?_eq_some_iff]
    exact ⟨fun ⟨s, ht, hs⟩ => hs ▸ ht, fun h => ⟨_, h, rfl⟩⟩
  all_goals exact iff_of_false nofun nofun

theorem ofKey?_name (x : Setting) : ofKey? (.text x.name) = some x := ofKey?_eq_some_iff.mpr rfl

end Setting

namespace Value

section Put

variable {κ α : Type} [BEq κ] {k : κ} {a : α} {l : List (κ × α)}

-- What putting an entry does: its value goes to the place of the first entry of the same key, or it
-- comes last.
inductive Puts (k : κ) (a : α) : List (κ × α) → List (κ × α) → Prop
  | replaced {before after : List (κ × α)} {e : κ × α} :
    (∀ b ∈ before, (b.1 == k) = false) → e.1 == k →
    Puts k a (before ++ e :: after) (before ++ (e.1, a) :: after)
  | appended {l : List (κ × α)} : (∀ b ∈ l, (b.1 == k) = false) → Puts k a l (l ++ [(k, a)])

-- By induction on the entries.
theorem puts_put (k : κ) (a : α) (l : List (κ × α)) : Puts k a l (put k a l) := by
  induction l
  case nil => exact .appended nofun
  case cons e l hi =>
    rw [put]
    split
    case isTrue h => exact @Puts.replaced _ _ _ k a [] l e nofun h
    case isFalse h =>
      have h := Bool.eq_false_of_not_eq_true h
      generalize put k a l = l' at hi
      cases hi
      case replaced hb he => exact .replaced (List.forall_mem_cons.mpr ⟨h, hb⟩) he
      case appended hb => exact .appended (List.forall_mem_cons.mpr ⟨h, hb⟩)

end Put

theorem beq_text_iff {t : Codes} : v == .text t ↔ v = .text t := by
  change v.sameKey (.text t) ↔ _
  cases v <;> simp [sameKey, number?]

end Value

namespace Entries

-- The entries that are settings, and all others.
def settings (es : Entries) : List (Setting × Value) :=
  es.filterMap fun e => (Setting.ofKey? e.1).map (·, e.2)

def others (es : Entries) : Entries := es.filter fun e => (Setting.ofKey? e.1).isNone

-- The value that is given for a setting.
def value? (es : Entries) (x : Setting) : Option Value := es.settings.lookup x

-- No key occurs twice.
def IsMapping (es : Entries) : Prop := es.Pairwise fun e e' => (e.1 == e'.1) = false

instance (es : Entries) : Decidable es.IsMapping := inferInstanceAs (Decidable (List.Pairwise _ es))

variable {es' es'' : Entries} {e : Value × Value} {l l' : List (Setting × Value)}

theorem settings_append (es es' : Entries) : (es ++ es').settings = es.settings ++ es'.settings :=
  List.filterMap_append

theorem settings_cons_of_eq (h : Setting.ofKey? e.1 = some x) (es : Entries) :
    settings (e :: es) = (x, e.2) :: settings es := by
  rw [settings, List.filterMap_cons, h]
  rfl

theorem settings_cons_of_none (h : Setting.ofKey? e.1 = none) (es : Entries) :
    settings (e :: es) = settings es := by
  rw [settings, List.filterMap_cons, h]
  rfl

-- Where no key stands for a setting, there is no value for it.
theorem value?_eq_none (h : ∀ e ∈ es, (e.1 == .text x.name) = false) : es.value? x = none := by
  refine List.lookup_eq_none_iff.mpr fun p hp => ?_
  obtain ⟨e, he, hp⟩ := List.mem_filterMap.mp hp
  obtain ⟨y, hy, rfl⟩ := Option.map_eq_some_iff.mp hp
  refine bne_iff_ne.mpr fun hxy => ?_
  obtain rfl : x = y := hxy
  have hkey := Value.beq_text_iff.mpr <| Setting.ofKey?_eq_some_iff.mp hy
  cases (h e he).symm.trans hkey

theorem lookup_cons (p : Setting × Value) (l : List (Setting × Value)) (x : Setting) :
    (p :: l).lookup x = if x = p.1 then some p.2 else l.lookup x := by
  by_cases h : x = p.1
  · rw [if_pos h, List.lookup_cons, beq_iff_eq.mpr h]
  · rw [if_neg h, List.lookup_cons, beq_eq_false_iff_ne.mpr h]

theorem value?_append (es es' : Entries) (x : Setting) :
    value? (es ++ es') x = (value? es x).or (value? es' x) := by
  rw [value?, settings_append, List.lookup_append]
  rfl

theorem value?_cons (h : Setting.ofKey? e.1 = some y) (es : Entries) (x : Setting) :
    value? (e :: es) x = if x = y then some e.2 else value? es x := by
  rw [value?, settings_cons_of_eq h, lookup_cons]
  rfl

-- From one list of entries to another while settings are put into it, each with its value.
structure Overlaid (es : Entries) (l : List (Setting × Value)) (es' : Entries) : Prop where
  value?  : ∀ x, es'.value? x = (l.reverse.lookup x).or (es.value? x)
  others  : es'.others = es.others
  keys    : ∃ added : List Setting, es'.map Prod.fst = es.map Prod.fst ++ added.map (.text ·.name)
  mapping : es.IsMapping → es'.IsMapping

namespace Overlaid

theorem refl (es : Entries) : Overlaid es [] es where
  value? _ := rfl
  others   := rfl
  keys     := ⟨[], (List.append_nil _).symm⟩
  mapping  := id

theorem trans (h : Overlaid es l es') (h' : Overlaid es' l' es'') :
    Overlaid es (l ++ l') es'' where
  value? x := by
    rw [h'.value?, h.value?, List.reverse_append, List.lookup_append, Option.or_assoc]
  others   := h'.others.trans h.others
  keys     := by
    obtain ⟨added, ha⟩ := h.keys
    obtain ⟨added', ha'⟩ := h'.keys
    exact ⟨added ++ added', by rw [ha', ha, List.map_append, List.append_assoc]⟩
  mapping  := h'.mapping ∘ h.mapping

end Overlaid

theorem overlaid_put (es : Entries) (x : Setting) (v : Value) :
    Overlaid es [(x, v)] (Value.put (.text x.name) v es) := by
  have hput := Value.puts_put (.text x.name) v es
  generalize Value.put (.text x.name) v es = es' at hput
  have hone (y : Setting) : [(x, v)].reverse.lookup y = if y = x then some v else none :=
    lookup_cons _ _ _
  cases hput
  case replaced before after e hb he =>
    have hk : Setting.ofKey? e.1 = some x :=
      Setting.ofKey?_eq_some_iff.mpr <| Value.beq_text_iff.mp he
    constructor
    case value? =>
      intro y
      rw [hone, value?_append, value?_append, value?_cons hk, value?_cons (e := (e.1, v)) hk]
      by_cases hy : y = x
      · simp [hy, value?_eq_none hb]
      · simp [hy]
    case others => simp [others, hk]
    case keys => exact ⟨[], by simp⟩
    case mapping =>
      intro hm
      simpa [IsMapping, List.pairwise_append] using hm
  case appended hb =>
    constructor
    case value? =>
      intro y
      rw [hone, value?_append, value?_cons (Setting.ofKey?_name x)]
      by_cases hy : y = x
      · simp [hy, value?_eq_none hb]
      · simp [hy, value?, settings]
    case others => simp [others, List.filter_append, Setting.ofKey?_name]
    case keys => exact ⟨[x], by simp⟩
    case mapping =>
      intro hm
      exact List.pairwise_append.mpr ⟨hm, List.pairwise_singleton _ _, by simpa using hb⟩

-- Entries of settings.
def ofSettings (l : List (Setting × Value)) : Entries := l.map fun p => (.text p.1.name, p.2)

-- By induction on the settings.
theorem overlaid_putAll (es : Entries) (l : List (Setting × Value)) :
    Overlaid es l (Value.putAll es (ofSettings l)) := by
  induction l generalizing es
  case nil => exact .refl es
  case cons p l hi => exact (overlaid_put es p.1 p.2).trans (hi _)

theorem ofSettings_settings (h : es.others = []) : ofSettings es.settings = es := by
  have hall : ∀ e ∈ es, (Setting.ofKey? e.1).isNone ≠ true := List.filter_eq_nil_iff.mp h
  clear h
  induction es
  case nil => rfl
  case cons e es hi =>
    obtain ⟨he, hes⟩ := List.forall_mem_cons.mp hall
    obtain ⟨x, hx⟩ := Option.ne_none_iff_exists'.mp (Option.isNone_iff_eq_none.not.mp he)
    rw [settings_cons_of_eq hx]
    have hi : List.map _ _ = es := hi hes
    rw [ofSettings, List.map_cons, hi, ← Setting.ofKey?_eq_some_iff.mp hx]

section Mapping

-- What stands in front is the only entry of its key.
theorem IsMapping.value?_tail (h : IsMapping (e :: es)) (hx : Setting.ofKey? e.1 = some x) :
    es.value? x = none := by
  refine value?_eq_none fun e' he => ?_
  have hne := (List.pairwise_cons.mp h).1 e' he
  by_contra hb
  have hkey := Value.beq_text_iff.mp <| Bool.eq_true_of_not_eq_false hb
  rw [hkey, Value.beq_text_iff.mpr <| Setting.ofKey?_eq_some_iff.mp hx] at hne
  cases hne

theorem IsMapping.lookup_reverse (h : es.IsMapping) (x : Setting) :
    es.settings.reverse.lookup x = es.value? x := by
  induction es
  case nil => rfl
  case cons e es hi =>
    have hi := hi (List.pairwise_cons.mp h).2
    cases hk : Setting.ofKey? e.1
    case none => rwa [value?, settings_cons_of_none hk]
    case some y =>
      rw [value?_cons hk, settings_cons_of_eq hk, List.reverse_cons, List.lookup_append, hi,
        lookup_cons]
      by_cases hxy : x = y
      · rw [hxy, h.value?_tail hk]
        simp
      · simp [hxy]

end Mapping

end Entries

namespace Environment

variable {key : Codes} {environment : Environment}

-- A name stands for a setting: after the prefix and an underscore comes the name of the setting, in
-- capitals or not.
def Names (x : Setting) (name : Codes) : Prop :=
  ∃ rest : Codes, name = (standardPrefix : Codes) ++ "_" ++ rest ∧ rest.lower = x.name

-- The setting that a name stands for.
def setting? (name : Codes) : Option Setting :=
  (key? standardPrefix name).bind fun key => Setting.ofKey? (.text key)

theorem key?_eq_some_iff {first : Codes} : key? first name = some key ↔
    name ≠ fileVariable first ∧ ∃ rest : Codes, name = first ++ "_" ++ rest ∧ rest.lower = key := by
  simp only [key?, Option.ite_none_right_eq_some, Bool.and_eq_true, decide_eq_true_eq,
    List.isPrefixOf_iff_prefix, Option.some.injEq]
  constructor
  case mp =>
    rintro ⟨⟨⟨rest, hrest⟩, hname⟩, rfl⟩
    refine ⟨hname, ⟨rest⟩, ?_, ?_⟩
    · exact (congrArg Codes.mk hrest).symm
    · rw [← hrest, List.drop_left]
  case mpr =>
    rintro ⟨hname, rest, rfl, rfl⟩
    exact ⟨⟨⟨rest.points, rfl⟩, hname⟩, congrArg (fun l => Codes.lower ⟨l⟩) List.drop_left⟩

-- The variable that names the file is no setting.
theorem Names.ne_fileVariable (h : Names x name) : name ≠ fileVariable standardPrefix := by
  rintro rfl
  obtain ⟨⟨rest⟩, hrest, hx⟩ := h
  let first : Codes := (standardPrefix : Codes) ++ "_"
  have hfile : fileVariable standardPrefix = first ++ "CONFIG" := by decide +kernel
  have hpoints : first.points ++ ("CONFIG" : Codes).points = first.points ++ rest :=
    congrArg Codes.points (hfile.symm.trans hrest)
  rw [← List.append_cancel_left hpoints] at hx
  have hnone : Setting.ofKey? (.text ("CONFIG" : Codes).lower) = none := by decide +kernel
  cases hnone.symm.trans <| Setting.ofKey?_eq_some_iff.mpr <| congrArg Value.text hx

theorem setting?_eq_some_iff : setting? name = some x ↔ Names x name := by
  simp only [setting?, Option.bind_eq_some_iff, Setting.ofKey?_eq_some_iff, Value.text.injEq,
    key?_eq_some_iff]
  constructor
  case mp =>
    rintro ⟨key, ⟨-, rest, hname, rfl⟩, hx⟩
    exact ⟨rest, hname, hx⟩
  case mpr =>
    intro h
    have hne := h.ne_fileVariable
    obtain ⟨rest, hname, hx⟩ := h
    exact ⟨_, ⟨hne, rest, hname, rfl⟩, hx⟩

instance (x : Setting) (name : Codes) : Decidable (Names x name) :=
  decidable_of_iff _ setting?_eq_some_iff

-- The variables that stand for settings.
def relevant (environment : Environment) : Environment :=
  environment.filter fun e => (setting? e.1).isSome

-- What the last variable says that stands for a setting.
def value? (environment : Environment) (x : Setting) : Option Value :=
  (environment.reverse.find? fun e => Names x e.1).map fun e => valueOf e.2

-- The settings that variables stand for, each with what its variable says.
def settings (environment : Environment) : List (Setting × Value) :=
  environment.filterMap fun e => (setting? e.1).map (·, valueOf e.2)

theorem lookup_reverse_settings (environment : Environment) (x : Setting) :
    environment.settings.reverse.lookup x = environment.value? x := by
  rw [settings, ← List.filterMap_reverse, value?]
  induction environment.reverse
  case nil => rfl
  case cons e l hi =>
    rw [List.filterMap_cons, List.find?_cons]
    cases hx : setting? e.1
    case none =>
      have : ¬Names x e.1 := fun h => by cases hx.symm.trans (setting?_eq_some_iff.mpr h)
      simpa [this] using hi
    case some y =>
      rw [Option.map_some, Entries.lookup_cons]
      by_cases hxy : x = y
      · subst hxy
        simp [setting?_eq_some_iff.mp hx]
      · have : ¬Names x e.1 := fun h =>
          hxy <| Option.some.inj <| (setting?_eq_some_iff.mpr h).symm.trans hx
        simpa [hxy, this] using hi

end Environment

-- A mapping that is overridden by an environment: each setting that a variable stands for has the
-- value that the last one of them says. Keys that are new come last.
structure Entries.Overridden (stored : Entries) (environment : Environment) (es : Entries) :
    Prop where
  value?  : ∀ x, es.value? x = (environment.value? x).or (stored.value? x)
  others  : es.others = stored.others
  keys    : ∃ added : List Setting,
    es.map Prod.fst = stored.map Prod.fst ++ added.map (.text ·.name)
  mapping : stored.IsMapping → es.IsMapping

-- What a setting becomes by the value that is given for it, if any.
def Setting.Becomes (x : Setting) (old : Value) : Option Value → Value → Prop
  | none, new | some .null, new => new = old
  | some v, new => x.Takes v new

namespace Settings

open Entries

variable {s s' : Settings} {faults : List SettingFault}

section Sources

theorem isSome_ofKey?_text (key : Codes) :
    (Setting.ofKey? (.text key)).isSome = key.string?.any Setting.names.contains := by
  rw [Setting.ofKey?]
  cases key.string?
  case none => rfl
  case some text =>
    rw [Option.bind_some, Option.any_some, Bool.eq_iff_iff]
    simp [Setting.ofName?, Setting.names, List.find?_isSome]

theorem environmentEntries_eq (environment : Environment) :
    environmentEntries environment = Value.putAll [] (ofSettings environment.settings) := by
  rw [environmentEntries, Environment.entries, ofSettings, Environment.settings, List.map_filterMap]
  congr 1
  refine List.filterMap_congr fun ⟨name, text⟩ _ => ?_
  dsimp only
  rw [Environment.setting?]
  cases Environment.key? Environment.standardPrefix name
  case none => rfl
  case some key =>
    rw [Option.bind_some, Option.bind_some, ← isSome_ofKey?_text]
    cases hx : Setting.ofKey? (.text key)
    case none   => rfl
    case some x => rw [Setting.ofKey?_eq_some_iff.mp hx]; rfl

theorem environmentEntries_relevant (environment : Environment) :
    environmentEntries environment.relevant = environmentEntries environment := by
  rw [environmentEntries_eq, environmentEntries_eq, Environment.settings, Environment.settings,
    Environment.relevant, List.filterMap_filter]
  congr 2
  refine List.filterMap_congr fun e _ => ?_
  cases Environment.setting? e.1 <;> rfl

theorem overridden_putAll (stored : Entries) (environment : Environment) :
    stored.Overridden environment (Value.putAll stored (environmentEntries environment)) := by
  have hgiven := overlaid_putAll [] environment.settings
  rw [← environmentEntries_eq] at hgiven
  generalize environmentEntries environment = given at hgiven
  have hmapping := hgiven.mapping .nil
  have h := overlaid_putAll stored given.settings
  rw [ofSettings_settings hgiven.others] at h
  refine ⟨fun x => ?_, h.others, h.keys, h.mapping⟩
  rw [h.value?, hmapping.lookup_reverse, hgiven.value?, Environment.lookup_reverse_settings]
  exact congrArg (Option.or · _) Option.or_none

end Sources

section Reading

theorem not_takes_null {w : Value} : ¬x.Takes .null w := by
  rintro (⟨-, h⟩ | h | ⟨-, h⟩) <;> cases h

-- The entry in front of others that are read to their end.
theorem change_cons_eq_ok {e : Value × Value} (h : s.change (e :: es) = .ok (s', faults)) :
    (∀ x, Setting.ofKey? e.1 = some x → e.2 = .null) ∧ s.change es = .ok (s', faults) ∨
    (∃ x s₁, Setting.ofKey? e.1 = some x ∧ s.set e.2 x = .ok s₁ ∧
      s₁.change es = .ok (s', faults)) ∨
    ∃ x more, faults = .unfit x e.2 :: more ∧ s.change es = .ok (s', more) := by
  have hc := entered_change s e es
  generalize s.change (e :: es) = r at h hc
  cases hc
  case skipped hnull    => exact .inl ⟨hnull, h⟩
  case taken x s₁ hk hs => exact .inr <| .inl ⟨x, s₁, hk, hs, h⟩
  case tooLarge         => cases h
  case unfit x _ _ =>
    obtain ⟨shown, hr, h⟩ := Except.bind_eq_ok_iff.mp h
    obtain ⟨⟨s₁, more⟩, hm, h⟩ := Except.bind_eq_ok_iff.mp h
    cases report_eq_ok hr
    cases h
    exact .inr <| .inr ⟨x, more, rfl, hm⟩

-- Each setting becomes what is given for it. By induction on the entries.
theorem becomes_of_change (h : s.change es = .ok (s', [])) (hm : es.IsMapping) (x : Setting) :
    x.Becomes (s.get x) (es.value? x) (s'.get x) := by
  induction es generalizing s
  case nil =>
    cases h
    exact rfl
  case cons e es hi =>
    have hrest := (List.pairwise_cons.mp hm).2
    rcases change_cons_eq_ok h with ⟨hnull, h⟩ | ⟨y, s₁, hk, hs, h⟩ | ⟨_, _, hnil, -⟩
    case inl =>
      have hi := hi h hrest
      cases hk : Setting.ofKey? e.1
      case none => rwa [value?, settings_cons_of_none hk]
      case some y =>
        rw [value?_cons hk]
        by_cases hxy : x = y
        · rw [hxy, hm.value?_tail hk] at hi
          rw [if_pos hxy, hnull y hk, hxy]
          exact hi
        · rwa [if_neg hxy]
    case inr.inl =>
      have hi := hi h hrest
      rw [value?_cons hk]
      by_cases hxy : x = y
      · subst hxy
        rw [hm.value?_tail hk] at hi
        have ht := takes_of_set hs
        rw [if_pos rfl, show s'.get x = s₁.get x from hi]
        generalize e.2 = v at ht
        cases v
        case null => exact absurd ht not_takes_null
        all_goals exact ht
      · rw [if_neg hxy, ← get_of_set hs hxy]
        exact hi
    case inr.inr => cases hnil

theorem becomes_of_ofEntries (h : ofEntries es = .ok s) (hm : es.IsMapping) (x : Setting) :
    x.Becomes (standard.get x) (es.value? x) (s.get x) := by
  obtain ⟨unknown, -, h⟩ := Except.bind_eq_ok_iff.mp h
  obtain ⟨⟨s', unfit⟩, hc, h⟩ := Except.bind_eq_ok_iff.mp h
  dsimp only at h
  split at h
  case isTrue => cases h
  case isFalse hnil =>
    have hnil : unknown = [] ∧ unfit = [] := by simpa using hnil
    obtain ⟨shown, -, h⟩ := Except.bind_eq_ok_iff.mp h
    split at h <;> cases h
    exact becomes_of_change (hnil.2 ▸ hc) hm x

theorem unfit_of_change (h : s.change es = .ok (s', faults)) :
    ∀ f ∈ faults, ∃ x v, f = .unfit x v := by
  induction es generalizing s faults
  case nil =>
    cases h
    exact nofun
  case cons e es hi =>
    rcases change_cons_eq_ok h with ⟨-, hrest⟩ | ⟨_, _, -, -, hrest⟩ | ⟨x, more, rfl, hrest⟩
    · exact hi hrest
    · exact hi hrest
    · exact List.forall_mem_cons.mpr ⟨⟨x, e.2, rfl⟩, hi hrest⟩

theorem unknownKeys_eq (es : Entries) : unknownKeys es = es.others.map fun e => .unknown e.1 := by
  rw [unknownKeys, others, List.filter_map, List.map_map]
  rfl

-- Settings are refused for the entries or, if there is nothing wrong with these, for their range.
theorem ofEntries_eq_invalid (h : ofEntries es = .error (.invalid faults)) :
    ∃ s unfit, standard.change es = .ok (s, unfit) ∧
      (faults = unknownKeys es ++ unfit ∨
        unknownKeys es = [] ∧ unfit = [] ∧ faults = s.faults) := by
  rw [ofEntries_eq] at h
  rcases Except.bind_eq_error_iff.mp h with hr | ⟨unknown, hr, h⟩
  case inl =>
    obtain ⟨f, hf⟩ := report_error hr
    cases hf
  case inr =>
    cases report_eq_ok hr
    rcases Except.bind_eq_error_iff.mp h with hc | ⟨⟨s, unfit⟩, hc, h⟩
    case inl =>
      obtain ⟨f, hf⟩ := change_error hc
      cases hf
    case inr =>
      refine ⟨s, unfit, hc, ?_⟩
      dsimp only at h
      split at h
      case isTrue =>
        cases h
        exact .inl rfl
      case isFalse hnil =>
        have hnil : unknownKeys es = [] ∧ unfit = [] := by simpa using hnil
        rcases Except.bind_eq_error_iff.mp h with hr | ⟨shown, hr, h⟩
        case inl =>
          obtain ⟨f, hf⟩ := report_error hr
          cases hf
        case inr =>
          cases report_eq_ok hr
          split at h <;> cases h
          exact .inr ⟨hnil.1, hnil.2, rfl⟩

-- The keys that are reported as unknown are those of the entries that are no settings.
theorem unknown_mem_iff (h : ofEntries es = .error (.invalid faults)) (key : Value) :
    .unknown key ∈ faults ↔ key ∈ es.others.map Prod.fst := by
  have hkeys : .unknown key ∈ unknownKeys es ↔ key ∈ es.others.map Prod.fst := by
    simp [unknownKeys_eq]
  rw [← hkeys]
  obtain ⟨s, unfit, hc, rfl | ⟨hnone, -, rfl⟩⟩ := ofEntries_eq_invalid h
  case inl =>
    have hunfit : .unknown key ∉ unfit := fun hmem => by
      obtain ⟨x, v, he⟩ := unfit_of_change hc _ hmem
      cases he
    simp [hunfit]
  case inr => simp [hnone, Settings.faults]

end Reading

section Loading

variable {files : Files} {directory : FilePath} {named : Option Codes}

-- The environment as far as it is used.
def inUse (used : Bool) (environment : Environment) : Environment :=
  if used then environment else []

theorem load_of_error {used : Bool} {environment : Environment} {e : SourceError}
    (h : Source.namedEntries files directory (namedFile? named used environment) = .error e) :
    load files directory named used environment = .error (.source e) := by
  rw [load, h]
  rfl

theorem load_of_ok {used : Bool} {environment : Environment} {stored : Entries}
    (h : Source.namedEntries files directory (namedFile? named used environment) = .ok stored) :
    load files directory named used environment =
      (ofEntries <| Value.putAll stored <| environmentEntries <| inUse used environment).mapError
        .settings := by
  rw [load, h]
  cases used <;> rfl

-- Loading depends on the environment by the file that it names and by the variables that stand for
-- settings, and on neither if the environment is not used.
theorem load_congr {used : Bool} {given given' : Environment}
    (h : used → given.namedFile? = given'.namedFile? ∧ given.relevant = given'.relevant) :
    load files directory named used given = load files directory named used given' := by
  cases used
  case false => simp only [load, namedFile?, Bool.false_eq_true, if_false]
  case true =>
    obtain ⟨hfile, hsame⟩ := h rfl
    simp only [load, namedFile?, if_true, hfile]
    rw [← environmentEntries_relevant given, hsame, environmentEntries_relevant]

-- Loading reads the file that is named, and fails if that does. If there are entries in it, no key
-- of which occurs twice, the same comes of them as of the mapping that they are when the
-- environment overrides them: each setting becomes what the last variable says that stands for it,
-- or else what the file says, and the default where that is nothing. Only keys of the file can be
-- unknown. Variables that stand for no setting change nothing. If the environment is not to be
-- used, none of its variables does, the one that names a file among them, and only the file counts.
theorem environment_overrides_file (files : Files) (directory : FilePath)
    (named : Option Codes) :
    (∀ (used : Bool) (environment : Environment),
      let source := Source.namedEntries files directory (namedFile? named used environment)
      let loaded := load files directory named used environment
      let given := inUse used environment
      (∀ e, source = .error e → loaded = .error (.source e)) ∧
      ∀ stored : Entries, source = .ok stored → stored.IsMapping →
        (∃ es, stored.Overridden given es ∧ loaded = (ofEntries es).mapError .settings) ∧
        (∀ s, loaded = .ok s → ∀ x : Setting,
          x.Becomes (standard.get x) ((given.value? x).or (stored.value? x)) (s.get x)) ∧
        ∀ faults, loaded = .error (.settings (.invalid faults)) → ∀ key,
          .unknown key ∈ faults ↔ key ∈ stored.others.map Prod.fst) ∧
    (∀ given given' : Environment, given.namedFile? = given'.namedFile? →
      given.relevant = given'.relevant →
      load files directory named true given = load files directory named true given') ∧
    (∀ given given' : Environment,
      load files directory named false given = load files directory named false given') ∧
    ∀ given : Environment, load files directory named false given = (do
      let stored ← (Source.namedEntries files directory named).mapError LoadError.source
      (ofEntries stored).mapError LoadError.settings) := by
  refine ⟨fun used environment => ?_, fun given given' hf hsame => load_congr fun _ => ⟨hf, hsame⟩,
    fun given given' => load_congr (by simp), fun given => ?_⟩
  · intro source loaded given
    refine ⟨fun e => load_of_error, fun stored hs hm => ?_⟩
    have hload : loaded = (ofEntries _).mapError .settings := load_of_ok hs
    have hover := overridden_putAll stored given
    generalize Value.putAll stored (environmentEntries given) = es at hload hover
    refine ⟨⟨es, hover, hload⟩, fun s hok x => ?_, fun faults hfaults key => ?_⟩
    · rw [← hover.value?]
      exact becomes_of_ofEntries (Except.mapError_eq_ok_iff.mp <| hload.symm.trans hok)
        (hover.mapping hm) x
    · rw [← hover.others]
      refine unknown_mem_iff ?_ key
      rw [hload] at hfaults
      cases he : ofEntries es
      case ok =>
        rw [he] at hfaults
        cases hfaults
      case error e =>
        rw [he] at hfaults
        cases hfaults
        rfl
  · -- The environment is none, which names no file and overrides nothing.
    have hnone : load files directory named false given = load files directory named false [] :=
      load_congr (by simp)
    rw [hnone, load]
    cases named <;> rfl

-- The file is named by a variable. Another one takes back the dialect that the file gives; the one
-- before it does not count, nor does one that stands for no setting.
theorem environment_overrides_file_with_null :
    let directory : FilePath := .ofText "/"
    let text := "dialect = 'quartz'\npoll_interval_seconds = 5\n"
    let files : Files := fun path =>
      if path = .ofText "a.toml" then some (.file text.toUTF8.toList) else none
    let given : Environment := [("CRONPLAN_CONFIG", "a.toml"), ("CRONPLAN_dialect", "latin"),
      ("CRONPLAN_DIALECT", "null")]
    let given' : Environment := ("CRONPLAN_COLOUR", "red") :: given
    ∃ stored s, Source.namedEntries files directory (namedFile? none true given) = .ok stored ∧
      stored.settings.map Prod.fst = [.dialect, .pollInterval] ∧
      load files directory none true given = .ok s ∧
      load files directory none true given' = .ok s ∧
      s.dialect = standard.dialect ∧ s.pollInterval = Double.ofInt 5 ∧
      load files directory none false given = load files directory none false given' := by
  intro directory text files given given'
  have hfound : ((Source.namedEntries files directory (namedFile? none true given)).toOption.map
      fun stored => (decide stored.IsMapping, stored.settings.map Prod.fst)) =
        some (true, [.dialect, .pollInterval]) := by decide +kernel
  obtain ⟨stored, hs, hstored⟩ := Option.map_eq_some_iff.mp hfound
  obtain ⟨hm, hsettings⟩ := Prod.mk.inj hstored
  have hs := Except.toOption_eq_some_iff.mp hs
  have hload : ((load files directory none true given).toOption.map (·.pollInterval)) =
      some (Double.ofInt 5) := by decide +kernel
  obtain ⟨s, hok, hpoll⟩ := Option.map_eq_some_iff.mp hload
  have hok := Except.toOption_eq_some_iff.mp hok
  obtain ⟨hfile, hsame, hunused, -⟩ := environment_overrides_file files directory none
  obtain ⟨-, hread⟩ := hfile true given
  obtain ⟨-, hbecomes, -⟩ := hread stored hs (of_decide_eq_true hm)
  have hdialect : s.get .dialect = standard.get .dialect := hbecomes s hok .dialect
  have hload' := hsame given given' (by decide +kernel) (by decide +kernel)
  exact ⟨stored, s, hs, hsettings, hok, hload'.symm.trans hok, Value.text.inj hdialect, hpoll,
    hunused given given'⟩

end Loading

end Settings

end Cron
