import Cron.Proofs.Expr.Parts

namespace Cron

-- The entry that a registered part has: its number, and which part it is.
abbrev Key := Int × Nat

def Tag.key (t : Tag) : Key := (t.id, t.ref)

-- A part that has not joined carries the number 0, which no live part ever has.
def Key.Blank (k : Key) : Prop := k.1 = 0

instance (k : Key) : Decidable k.Blank := inferInstanceAs (Decidable (_ = _))

-- The keys of those parts among `ks` that have joined.
def joined (ks : List Key) : List Key := ks.filter fun k => ¬k.Blank

@[simp]
theorem joined_append (ks ks' : List Key) : joined (ks ++ ks') = joined ks ++ joined ks' := by
  simp [joined]

theorem mem_joined_iff {k : Key} {ks : List Key} : k ∈ joined ks ↔ k ∈ ks ∧ ¬k.Blank := by
  simp [joined]

theorem joined_eq_self {ks : List Key} (h : ∀ k ∈ ks, ¬k.Blank) : joined ks = ks := by
  simpa [joined] using h

namespace Registry

variable {r : Registry} {k : Key} {ks ks' rest : List Key}

-- The registry lists exactly the given keys, each number and each part once.
structure Lists (r : Registry) (ks : List Key) : Prop where
  rows  : r.rows.Perm ks
  ids   : (ks.map Prod.fst).Nodup
  refs  : (ks.map Prod.snd).Nodup
  bound : ∀ k ∈ ks, firstPartId ≤ k.1 ∧ k.1 < r.nextId
  next  : firstPartId ≤ r.nextId

namespace Lists

theorem perm (h : r.Lists ks) (hp : ks.Perm ks') : r.Lists ks' where
  rows        := h.rows.trans hp
  ids         := (hp.map _).nodup_iff.mp h.ids
  refs        := (hp.map _).nodup_iff.mp h.refs
  bound k hk  := h.bound k (hp.mem_iff.mpr hk)
  next        := h.next

theorem not_blank (h : r.Lists ks) (hk : k ∈ ks) : ¬k.Blank := by
  have hb := h.bound k hk
  simp only [Key.Blank, firstPartId] at hb ⊢
  omega

theorem find?_eq_some_iff (h : r.Lists ks) {id : Int} {ref : Nat} :
    r.find? id = some ref ↔ (id, ref) ∈ ks := by
  rw [← h.rows.mem_iff, find?, List.lookup_eq_some_iff]
  constructor
  · rintro ⟨before, after, he, -⟩
    simp [he]
  · intro hm
    have ⟨before, after, he⟩ := List.append_of_mem hm
    refine ⟨before, after, he, fun k hk => ?_⟩
    -- An earlier row with the same number would be a second one.
    have hn := (h.rows.map Prod.fst).nodup_iff.mpr h.ids
    rw [he, List.map_append, List.map_cons, List.nodup_append] at hn
    have := hn.2.2 k.1 (List.mem_map_of_mem hk) id (by simp)
    simpa using this.symm

theorem add (h : r.Lists ks) {ref : Nat} (hr : ref ∉ ks.map Prod.snd) :
    (r.add ref).Lists ((r.nextId, ref) :: ks) where
  rows := by
    rw [Registry.add]
    exact (h.rows.append_right _).trans (List.perm_append_singleton _ _)
  ids := by
    rw [List.map_cons, List.nodup_cons]
    refine ⟨fun hm => ?_, h.ids⟩
    obtain ⟨k, hk, he⟩ := List.mem_map.mp hm
    exact absurd (h.bound k hk).2 (by simp [he])
  refs := by simpa using ⟨by simpa using hr, h.refs⟩
  bound k hk := by
    have hn := h.next
    rw [List.mem_cons] at hk
    rcases hk with rfl | hk
    · exact ⟨hn, Int.lt_add_one_of_le (Int.le_refl _)⟩
    · have ⟨hl, hu⟩ := h.bound k hk
      exact ⟨hl, Int.lt_add_one_of_le (Int.le_of_lt hu)⟩
  next := by
    have hn := h.next
    simp only [Registry.add]
    omega

theorem erase (h : r.Lists (k :: ks)) : (r.erase k.1).Lists ks where
  rows := by
    have hp := h.rows.filter (·.1 != k.1)
    have hn := h.ids
    rw [List.map_cons, List.nodup_cons] at hn
    have he : ks.filter (·.1 != k.1) = ks := by
      rw [List.filter_eq_self]
      intro k' hk'
      simp only [bne_iff_ne]
      exact fun he => hn.1 <| he ▸ List.mem_map_of_mem hk'
    simpa [Registry.erase, he] using hp
  ids         := (List.nodup_cons.mp h.ids).2
  refs        := (List.nodup_cons.mp h.refs).2
  bound k' h' := h.bound k' (List.mem_cons_of_mem _ h')
  next        := h.next

theorem eq_of_fst_eq (h : r.Lists ks) {k' : Key} (hk : k ∈ ks) (hk' : k' ∈ ks) (he : k.1 = k'.1) :
    k = k' :=
  List.inj_on_of_nodup_map h.ids hk hk' he

end Lists

theorem nextId_add (r : Registry) (ref : Nat) : (r.add ref).nextId = r.nextId + 1 := rfl

theorem lists_empty : empty.Lists [] where
  rows  := .refl _
  ids   := .nil
  refs  := .nil
  bound := nofun
  next  := Int.le_refl _

-- What joining does to the keys of parts, whatever their form: parts in the registry keep theirs.
def assign (r : Registry) : List Key → List Key × Registry
  | []      => ([], r)
  | k :: ks =>
    if r.find? k.1 = some k.2 then (k :: (r.assign ks).1, (r.assign ks).2)
    else ((r.nextId, k.2) :: ((r.add k.2).assign ks).1, ((r.add k.2).assign ks).2)

theorem assign_append (r : Registry) (ks ks' : List Key) :
    r.assign (ks ++ ks') =
      ((r.assign ks).1 ++ ((r.assign ks).2.assign ks').1, ((r.assign ks).2.assign ks').2) := by
  induction ks generalizing r
  case nil => rfl
  case cons k ks hi =>
    by_cases h : r.find? k.1 = some k.2 <;> simp [assign, h, hi]

theorem map_snd_assign (r : Registry) (ks : List Key) :
    (r.assign ks).1.map Prod.snd = ks.map Prod.snd := by
  induction ks generalizing r
  case nil => rfl
  case cons k ks hi =>
    by_cases h : r.find? k.1 = some k.2 <;> simp [assign, h, hi]

theorem nextId_le_assign (r : Registry) (ks : List Key) : r.nextId ≤ (r.assign ks).2.nextId := by
  induction ks generalizing r
  case nil => exact Int.le_refl _
  case cons k ks hi =>
    by_cases h : r.find? k.1 = some k.2 <;> simp only [assign, h, if_true, if_false]
    · exact hi r
    · exact Int.le_trans (Int.le_add_one (Int.le_refl _)) (hi (r.add k.2))

-- Joining keeps the registry complete. A part that joins either was registered under the same key
-- or gets a number that was never given before.
theorem Lists.assign (h : r.Lists (joined ks ++ rest)) (hr : ((ks ++ rest).map Prod.snd).Nodup) :
    (r.assign ks).2.Lists ((r.assign ks).1 ++ rest) ∧
    ∀ k ∈ (r.assign ks).1, k ∈ joined ks ∨ (r.nextId ≤ k.1 ∧ ∃ k' ∈ ks, k'.Blank ∧ k'.2 = k.2) := by
  induction ks generalizing r rest
  case nil => exact ⟨h, nofun⟩
  case cons k ks hi =>
    -- The key of the first part moves to the others, as it is once the part has joined.
    have hn (k' : Key) (he : k'.2 = k.2) : ((ks ++ k' :: rest).map Prod.snd).Nodup := by
      refine (List.Perm.nodup_iff ?_).mp hr
      simpa [he] using List.perm_middle.symm
    by_cases hb : k.Blank
    case pos =>
      have hj : joined (k :: ks) = joined ks := by simp [joined, hb]
      rw [hj] at h
      have hf : r.find? k.1 ≠ some k.2 := fun hf => h.not_blank (h.find?_eq_some_iff.mp hf) hb
      have hk : k.2 ∉ (joined ks ++ rest).map Prod.snd := by
        rw [List.cons_append, List.map_cons, List.nodup_cons] at hr
        refine fun hm => hr.1 ?_
        obtain ⟨k', hk', he⟩ := List.mem_map.mp hm
        refine List.mem_map.mpr ⟨k', ?_, he⟩
        rw [List.mem_append] at hk' ⊢
        exact hk'.imp_left fun hk' => (mem_joined_iff.mp hk').1
      have ⟨hl, hm⟩ := hi ((h.add hk).perm List.perm_middle.symm) (hn _ rfl)
      simp only [Registry.assign, hf, if_false]
      refine ⟨hl.perm List.perm_middle, fun k' hk' => ?_⟩
      rw [hj]
      rcases List.mem_cons.mp hk' with rfl | hk'
      · exact .inr ⟨Int.le_refl _, k, List.mem_cons_self, hb, rfl⟩
      · refine (hm k' hk').imp_right fun ⟨hle, k'', hk'', he⟩ =>
          ⟨?_, k'', List.mem_cons_of_mem _ hk'', he⟩
        exact Int.le_trans (Int.le_add_one (Int.le_refl _)) hle
    case neg =>
      have hj : joined (k :: ks) = k :: joined ks := by simp [joined, hb]
      rw [hj] at h
      have hf : r.find? k.1 = some k.2 := h.find?_eq_some_iff.mpr (by simp)
      have ⟨hl, hm⟩ := hi (h.perm List.perm_middle.symm) (hn _ rfl)
      simp only [Registry.assign, hf, if_true]
      refine ⟨hl.perm List.perm_middle, fun k' hk' => ?_⟩
      rw [hj]
      rcases List.mem_cons.mp hk' with rfl | hk'
      · exact .inl List.mem_cons_self
      · refine (hm k' hk').imp (List.mem_cons_of_mem _) fun ⟨hle, k'', hk'', he⟩ => ?_
        exact ⟨hle, k'', List.mem_cons_of_mem _ hk'', he⟩

-- Parts that are all new get the next numbers in their order.
theorem map_fst_assign_of_blank (h : r.Lists rest) (hb : ∀ k ∈ ks, k.Blank)
    (hr : ((ks ++ rest).map Prod.snd).Nodup) :
    (r.assign ks).1.map Prod.fst = (List.range ks.length).map (fun n : Nat => r.nextId + n) ∧
    (r.assign ks).2.nextId = r.nextId + ks.length := by
  induction ks generalizing r rest
  case nil => simp [Registry.assign]
  case cons k ks hi =>
    have hk := hb k List.mem_cons_self
    have hf : r.find? k.1 ≠ some k.2 := fun hf => h.not_blank (h.find?_eq_some_iff.mp hf) hk
    rw [List.cons_append, List.map_cons, List.nodup_cons] at hr
    have hk' : k.2 ∉ rest.map Prod.snd := fun hm => hr.1 (by simp [List.map_append, hm])
    have hn : ((ks ++ (r.nextId, k.2) :: rest).map Prod.snd).Nodup := by
      refine (List.Perm.nodup_iff ?_).mp (List.nodup_cons.mpr hr)
      simpa using List.perm_middle.symm
    have ⟨hm, hl⟩ := hi (h.add hk') (fun k hk => hb k (List.mem_cons_of_mem _ hk)) hn
    simp only [Registry.assign, hf, if_false, List.map_cons, hm, hl, nextId_add, List.length_cons,
      List.range_succ_eq_map, List.map_map]
    refine ⟨?_, by push_cast; omega⟩
    simp only [Nat.cast_zero, add_zero, List.cons.injEq, true_and]
    refine List.map_congr_left fun n _ => ?_
    simp only [Function.comp, Nat.succ_eq_add_one]
    push_cast
    omega

-- What leaving does to the registry, given the keys of the parts that leave.
def strike (r : Registry) : List Key → Registry
  | []      => r
  | k :: ks => (if r.find? k.1 = some k.2 then r.erase k.1 else r).strike ks

theorem strike_append (r : Registry) (ks ks' : List Key) :
    r.strike (ks ++ ks') = (r.strike ks).strike ks' := by
  induction ks generalizing r
  case nil        => rfl
  case cons k _ hi => exact hi _

theorem nextId_strike (r : Registry) (ks : List Key) : (r.strike ks).nextId = r.nextId := by
  induction ks generalizing r
  case nil => rfl
  case cons k ks hi =>
    rw [strike, hi]
    split <;> rfl

theorem Lists.strike (h : r.Lists (ks ++ rest)) : (r.strike ks).Lists rest := by
  induction ks generalizing r
  case nil => exact h
  case cons k ks hi =>
    have hf : r.find? k.1 = some k.2 := h.find?_eq_some_iff.mpr (by simp)
    rw [Registry.strike, if_pos hf]
    exact hi h.erase

end Registry
end Cron
