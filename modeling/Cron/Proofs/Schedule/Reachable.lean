import Cron.Proofs.Schedule.Construction
import Cron.Proofs.Schedule.Editing

namespace Cron

open Schedule

variable {s s' : Schedule} {p : Part}

-- The schedules that an editor can come upon: one that was opened, with or without a text, and
-- whatever any number of edits made of it, be they made or refused.
inductive Reachable : Schedule → Prop
  | opened {l : Layout} {text : Option Codes} {s : Schedule} :
    1 ≤ l.firstYear → Schedule.read? l text = .ok s → Reachable s
  | edited {s : Schedule} (e : Edit) : Reachable s → Reachable (s.after e)

namespace Reachable

theorem sound (h : Reachable s) : s.Sound := by
  induction h
  case opened h       => exact (planted_of_read? h).1.sound
  case edited e _ hi  => exact (hi.after e).sound

theorem one_le_firstYear (h : Reachable s) : 1 ≤ s.layout.firstYear := by
  induction h
  case opened hy h    => exact (planted_of_read? h).2 ▸ hy
  case edited e h hi  => exact (h.sound.after e).evolves.layout ▸ hi

theorem unrestricted {l : Layout} (h : 1 ≤ l.firstYear) : Reachable (unrestricted l) :=
  .opened h (rfl : Schedule.read? l none = _)

end Reachable

namespace Schedule

-- The registry of a schedule lists exactly the parts in its columns, each once and under the number
-- it carries, and every part knows what holds it.
structure Registered (s : Schedule) : Prop where
  rows     : s.registry.rows.Perm <| s.live.map fun p => (p.label.id, p.label.ref)
  ids      : (s.live.map fun p => p.label.id).Nodup
  refs     : (s.live.map fun p => p.label.ref).Nodup
  bounds   : ∀ p ∈ s.live, firstPartId ≤ p.label.id ∧ p.label.id < s.registry.nextId
  roots    : ∀ c, (s.root c).label.parent = some c.id
  children : ∀ p ∈ s.live, ∀ m ∈ p.children, m.label.parent = some p.label.id

-- What becomes of the numbers and parts of a schedule by the time it is `s'`.
structure Inherits (s s' : Schedule) : Prop where
  counter : s.registry.nextId ≤ s'.registry.nextId
  -- A part in both carries one number, and its number belongs to no other part.
  same    : ∀ p ∈ s.live, ∀ q ∈ s'.live, p.label.id = q.label.id ↔ p.label.ref = q.label.ref
  -- A part that is no longer in a column is held by nothing.
  gone    : ∀ p ∈ s.live, (∀ q ∈ s'.live, q.label.ref ≠ p.label.ref) →
    ∃ q, s'.object? p.label.ref = some q ∧ q.label.parent = none

theorem Sound.registered (h : s.Sound) : s.Registered where
  rows := keys_eq_map_live s ▸ h.lists.rows
  ids := by simpa [keys_eq_map_live, Tag.key, Function.comp_def] using h.lists.ids
  refs := by simpa [keys_eq_map_live, Tag.key, Function.comp_def] using h.lists.refs
  bounds p hp := h.lists.bound _ <| key_mem hp
  roots c := (h.proper c).linked.1
  children p hp m hm := by
    obtain ⟨c, hp⟩ := mem_live_iff.mp hp
    exact (h.proper c).linked.2 p hp m hm

theorem Sound.parent_of_mem_retired (h : s.Sound) (hp : p ∈ Expr.preorderAll s.retired) :
    p.label.parent = none :=
  (h.coherent.gone _ <| List.mem_map_of_mem hp).parent

theorem Sound.object?_of_gone (h : s.Sound) {t : Tag} (ht : t ∈ s.gone)
    (hr : ∀ q ∈ s.live, q.label.ref ≠ t.ref) :
    ∃ q, s.object? t.ref = some q ∧ q.label.parent = none := by
  obtain ⟨p, hp, rfl⟩ := List.mem_map.mp ht
  cases ho : s.object? p.label.ref
  case none =>
    have hn := List.find?_eq_none.mp ho p <| List.mem_append_right _ hp
    simp at hn
  case some q =>
    refine ⟨q, rfl, ?_⟩
    have he : q.label.ref = p.label.ref := by simpa using List.find?_some ho
    rcases List.mem_append.mp (List.mem_of_find?_eq_some ho) with hq | hq
    · exact absurd he (hr q hq)
    · exact h.parent_of_mem_retired hq

theorem Turn.inherits (h : s.Sound) (ht : Turn s s') : Inherits s s' where
  counter := ht.evolves.ids
  same p hp q hq := by
    rcases ht.evolves.origin _ (key_mem hq) with hk | ⟨hid, hr⟩
    · -- The part was there before, under the same number.
      rw [keys_eq_map_live] at hk
      obtain ⟨p', hp', he⟩ := List.mem_map.mp hk
      obtain ⟨hid, hr⟩ := Prod.mk.inj he
      rw [← hid, ← hr]
      exact ⟨fun h' => congrArg (·.label.ref) <| h.eq_of_id_eq hp hp' h',
        fun h' => congrArg (·.label.id) <| h.eq_of_ref_eq hp hp' h'⟩
    · -- The part is new, so is its number.
      have hid : s.registry.nextId ≤ q.label.id :=
        hid.resolve_left <| ht.sound.numbered _ <| key_mem hq
      have hr : s.nextRef ≤ q.label.ref := hr.resolve_right fun hb => h.numbered _ hb rfl
      have hpid : p.label.id < s.registry.nextId := (h.lists.bound _ <| key_mem hp).2
      have hpr : p.label.ref < s.nextRef := h.coherent.made _ <| key_mem hp
      exact ⟨fun he => by omega, fun he => by omega⟩
  gone p hp hn := by
    have hk : p.label.key ∈ joined s.keys :=
      mem_joined_iff.mpr ⟨key_mem hp, h.numbered _ <| key_mem hp⟩
    rcases ht.evolves.fate _ hk with hk | ⟨t, ht', he⟩
    · have hk := (mem_joined_iff.mp hk).1
      rw [keys_eq_map_live] at hk
      obtain ⟨q, hq, he⟩ := List.mem_map.mp hk
      exact absurd (congrArg Prod.snd he) (hn q hq)
    · have hr : t.ref = p.label.ref := congrArg Prod.snd he
      exact hr ▸ ht.sound.object?_of_gone ht' (hr ▸ hn)

theorem Sound.turn_foldl (h : s.Sound) (es : List Edit) : Turn s (es.foldl Schedule.after s) := by
  induction es generalizing s
  case nil          => exact h.turn
  case cons e _ hi  => exact (h.after e).trans <| hi (h.after e).sound

end Schedule

-- The books are right in every reachable state, and they stay right about the parts of an earlier
-- one: numbers only grow, and no number is ever given to a second part. Right after opening, the
-- parts have the numbers from 7 on in the order of the columns, each before those below it.
theorem registry_invariant :
    (∀ l text s, Schedule.read? l text = .ok s →
      s.live.map (fun p => p.label.id) =
        (List.range s.live.length).map fun n : Nat => firstPartId + n) ∧
    ∀ s, Reachable s → ∀ edits : List Edit,
      (edits.foldl Schedule.after s).Registered ∧ s.Inherits (edits.foldl Schedule.after s) := by
  constructor
  · intro l text s h
    have hn := (planted_of_read? h).1.numbers
    rwa [← keys, keys_eq_map_live, List.map_map, List.length_map] at hn
  · intro s h edits
    have ht := h.sound.turn_foldl edits
    exact ⟨ht.sound.registered, ht.inherits h.sound⟩

theorem registry_invariant_of_list :
    let s := (unrestricted ⟨.quartz, 2024, 5, 900⟩).after (.add 1 "5,10-20/3")
    (s.after (.remove 9)).Registered ∧ s.Inherits (s.after (.remove 9)) := by
  have h := Reachable.unrestricted (l := ⟨.quartz, 2024, 5, 900⟩) (by decide)
  exact registry_invariant.2 _ (h.edited _) [.remove 9]

-- An edit that fails leaves everything as it was: columns, registry, parts that left before.
theorem failed_edit_changes_nothing {e : Edit} {err : EditError} (h : Reachable s)
    (he : e.run s = .error err s') : s' = s := by
  rcases e.run_keeps h.sound with ⟨err', hk⟩ | ⟨receipt, s'', hk, -⟩
  · cases hk.symm.trans he
    rfl
  · cases hk.symm.trans he

theorem failed_edit_changes_nothing_beside_day :
    let s := (unrestricted ⟨.unix, 2024, 100, 900⟩).after (.add 3 "5")
    ∃ s', (Edit.replace 5 "1").run s = .error (.exclusive .dayOfWeek .dayOfMonth) s' ∧ s' = s := by
  intro s
  have h := Reachable.unrestricted (l := ⟨.unix, 2024, 100, 900⟩) (by decide)
  have he : (Edit.replace 5 "1").run s = .error (.exclusive .dayOfWeek .dayOfMonth) s := rfl
  exact ⟨s, he, failed_edit_changes_nothing (h.edited _) he⟩

end Cron
