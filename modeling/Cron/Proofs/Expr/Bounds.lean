import Cron.Proofs.Expr.Values

-- The bounds that an expression gives of itself, and the integers of the domain that it stands for.
-- The upper bound is the greatest of these. So is the lower one the least, unless a range goes
-- around the ends of the domain: such a range is said to begin at its lower end.

namespace Cron.Expr

variable {ι : Type} {d : Domain} {e base width : Expr ι} {l : Layout} {c : Column}
variable {pos : Position} {top : Int}

-- The integers of the domain that an expression stands for reach up to `top`, and down to the
-- expression's floor unless a range in it wraps.
structure Bounded (d : Domain) (e : Expr ι) (top : Int) : Prop where
  ceiling  : e.ceiling? d = some top
  greatest : IsGreatest {n | n ∈ d ∧ Holds d e n} top
  least    : (∀ q ∈ e.preorder, q.wraps? d = some false) →
    IsLeast {n | n ∈ d ∧ Holds d e n} (e.floor d)
  le       : e.floor d ≤ top

section Steps

-- The last of `first`, `first + n`, … that is not above `top`.
theorem lastStep?_eq {first n : Int} (hn : 1 ≤ n) (hle : first ≤ top) :
    ∃ k : Nat, lastStep? first n top = some (first + k * n) ∧ first + k * n ≤ top ∧
      ∀ j : Nat, first + j * n ≤ top → j ≤ k := by
  let q := (top - first) / n
  have hq : (top - first).fdiv n = q := Int.fdiv_eq_ediv_of_nonneg _ (by omega)
  have hqle : q * n ≤ top - first := Int.ediv_mul_le _ (by omega)
  obtain ⟨k, hk⟩ : ∃ k : Nat, q = k :=
    Int.eq_ofNat_of_zero_le <| Int.ediv_nonneg (by omega) (by omega)
  refine ⟨k, ?_, ?_, fun j hj => ?_⟩
  · rw [lastStep?, if_neg (by omega), hq, hk]
  · rw [hk] at hqle
    omega
  · have hjq : (j : Int) ≤ q := Int.le_ediv_of_mul_le (by omega) (by omega)
    omega

theorem Bounded.step {t : ι} (hc : c ≠ .year) (hb : base.Fits l c .base) (hw : 1 ≤ width.literal)
    (h : Bounded (l.domain c) base top) :
    ∃ last, Bounded (l.domain c) (.step t base width) last := by
  obtain ⟨k, hlast, hle, hmost⟩ := lastStep?_eq hw h.le
  have hfirst : base.floor (l.domain c) ∈ l.domain c := hb.floor_mem hc
  have htop : top ∈ l.domain c := hb.ceiling?_mem hc h.ceiling
  have hmono {i j : Nat} (hij : i ≤ j) : (i : Int) * width.literal ≤ j * width.literal :=
    Int.mul_le_mul_of_nonneg_right (by omega) (by omega)
  have hzero := hmono k.zero_le
  have hleast : IsLeast {n | n ∈ l.domain c ∧ Holds (l.domain c) (.step t base width) n}
      (base.floor (l.domain c)) := by
    refine ⟨⟨hfirst, .first⟩, fun n ⟨_, hn⟩ => ?_⟩
    rcases holds_step_iff.mp hn with rfl | ⟨j, -, -, rfl, -⟩
    · exact Int.le_refl _
    · have := hmono j.zero_le
      omega
  refine ⟨_, ?_, ⟨⟨?_, .next h.ceiling hle⟩, fun n ⟨_, hn⟩ => ?_⟩, fun _ => hleast, ?_⟩
  · rw [ceiling?, h.ceiling]
    exact hlast
  · exact ⟨hfirst.1.trans (by omega), hle.trans htop.2⟩
  · rcases holds_step_iff.mp hn with rfl | ⟨j, top', ht, rfl, hj⟩
    · omega
    · cases h.ceiling.symm.trans ht
      have := hmono <| hmost j hj
      omega
  · rw [floor]
    omega

end Steps

section Lists

variable {t : ι} {ms : List (Expr ι)} {tops : List Int}

-- The bounds of the members of a list, each of one member.
theorem ceilingAll?_bounded (h : ∀ m ∈ ms, ∃ top, Bounded d m top) :
    ∃ tops, ceilingAll? d ms = some tops ∧ (∀ m ∈ ms, ∃ top ∈ tops, Bounded d m top) ∧
      ∀ top ∈ tops, ∃ m ∈ ms, Bounded d m top := by
  induction ms
  case nil => exact ⟨[], rfl, nofun, nofun⟩
  case cons m ms hi =>
    obtain ⟨⟨top, hb⟩, hms⟩ := List.forall_mem_cons.mp h
    obtain ⟨tops, ht, hm, hm'⟩ := hi hms
    refine ⟨top :: tops, by simp [ceilingAll?, hb.ceiling, ht], List.forall_mem_cons.mpr ⟨?_, ?_⟩,
      List.forall_mem_cons.mpr ⟨⟨m, List.mem_cons_self, hb⟩, fun top' ht' => ?_⟩⟩
    · exact ⟨top, List.mem_cons_self, hb⟩
    · exact fun m' hm'' => (hm m' hm'').imp fun _ h => ⟨List.mem_cons_of_mem _ h.1, h.2⟩
    · exact (hm' top' ht').imp fun _ h => ⟨List.mem_cons_of_mem _ h.1, h.2⟩

-- The greatest of the upper bounds bounds the list, the least of the lower ones does likewise.
theorem Bounded.list (hne : ms ≠ []) (h : ∀ m ∈ ms, ∃ top, Bounded d m top) :
    ∃ top, Bounded d (.list t ms) top := by
  obtain ⟨tops, htops, hm, hm'⟩ := ceilingAll?_bounded h
  have hne' : tops ≠ [] := by
    obtain ⟨m, hmem⟩ := List.exists_mem_of_ne_nil _ hne
    obtain ⟨top, htop, -⟩ := hm m hmem
    exact List.ne_nil_of_mem htop
  obtain ⟨most, hmost⟩ := Option.ne_none_iff_exists'.mp <| mt List.max?_eq_none_iff.mp hne'
  obtain ⟨low, hlow⟩ : ∃ low, (ms.map (·.floor d)).min? = some low :=
    Option.ne_none_iff_exists'.mp <| by simpa using hne
  have hceiling : (Expr.list t ms).ceiling? d = some most := by
    rw [ceiling?, htops, Option.map_some, greatestOr, hmost, Option.getD_some]
  have hfloor : (Expr.list t ms).floor d = low := by
    rw [floor, floorAll_eq_map, leastOr, hlow, Option.getD_some]
  obtain ⟨hmem, hgreatest⟩ := List.max?_eq_some_iff.mp hmost
  obtain ⟨hmem', hleast⟩ := List.min?_eq_some_iff.mp hlow
  obtain ⟨upper, hupper, hb⟩ := hm' most hmem
  refine ⟨most, hceiling, ⟨⟨hb.greatest.1.1, .member hupper hb.greatest.1.2⟩, ?_⟩, fun hw => ?_, ?_⟩
  · rintro n ⟨hd, hn⟩
    obtain ⟨m, hmm, hn⟩ := holds_list_iff.mp hn
    obtain ⟨top, htop, hb⟩ := hm m hmm
    exact (hb.greatest.2 ⟨hd, hn⟩).trans <| hgreatest top htop
  · have hbm (m) (hmm : m ∈ ms) : IsLeast {n | n ∈ d ∧ Holds d m n} (m.floor d) := by
      obtain ⟨top, -, hb⟩ := hm m hmm
      exact hb.least fun q hq => hw q <| mem_preorder_iff.mpr <| .inr ⟨m, hmm, hq⟩
    rw [hfloor]
    refine ⟨?_, ?_⟩
    · obtain ⟨m, hmm, rfl⟩ := List.mem_map.mp hmem'
      exact ⟨(hbm m hmm).1.1, .member hmm (hbm m hmm).1.2⟩
    · rintro n ⟨hd, hn⟩
      obtain ⟨m, hmm, hn⟩ := holds_list_iff.mp hn
      exact (hleast _ <| List.mem_map_of_mem hmm).trans <| (hbm m hmm).2 ⟨hd, hn⟩
  · rw [hfloor]
    exact (hleast _ <| List.mem_map_of_mem hupper).trans hb.le

end Lists

theorem Bounded.range {t t₁ t₂ : ι} {lo hi : Int} (hlo : lo ∈ d) (hhi : hi ∈ d) :
    ∃ top, Bounded d (.range t (.value t₁ lo) (.value t₂ hi)) top := by
  by_cases hw : hi < lo
  case pos =>
    refine ⟨d.upper, congrArg some (if_pos hw), ⟨⟨⟨hlo.1.trans hlo.2, Int.le_refl _⟩, ?_⟩, ?_⟩,
      fun hn => ?_, hlo.2⟩
    · exact .outside hw <| .inr hlo.2
    · exact fun n hn => hn.1.2
    · have hno := hn _ (mem_preorder_self _)
      rw [wraps?, ceiling?, Option.map_some, floor, decide_eq_true hw] at hno
      cases hno
  case neg =>
    have hle : lo ≤ hi := Int.not_lt.mp hw
    have hv {n : Int} (hn : Holds d (.range t (.value t₁ lo) (.value t₂ hi)) n) :
        lo ≤ n ∧ n ≤ hi :=
      (holds_range_iff.mp hn).resolve_right fun h => hw h.1
    refine ⟨hi, congrArg some (if_neg hw), ⟨⟨hhi, .within hle (Int.le_refl _)⟩, ?_⟩,
      fun _ => ⟨⟨hlo, .within (Int.le_refl _) hle⟩, ?_⟩, hle⟩
    · exact fun n hn => (hv hn.2).2
    · exact fun n hn => (hv hn.2).1

-- By induction on the tree: the bounds of a range or a list are those of its ends or members, and
-- the bounds of a step are found by counting from the lower bound of its base.
theorem Fits.bounded (h : e.Fits l c pos) (hc : c ≠ .year) : ∃ top, Bounded (l.domain c) e top := by
  have hd := Layout.lower_le_upper (l := l) hc
  induction e generalizing pos
  case any =>
    exact ⟨_, rfl, ⟨⟨⟨hd, Int.le_refl _⟩, .any⟩, fun n hn => hn.1.2⟩,
      fun _ => ⟨⟨⟨Int.le_refl _, hd⟩, .any⟩, fun n hn => hn.1.1⟩, hd⟩
  case value t n =>
    have hn : n ∈ l.domain c := (Layout.takes_iff hc).mp (fits_value_iff.mp h).1
    exact ⟨n, rfl, ⟨⟨hn, .value⟩, fun m hm => Int.le_of_eq (holds_value_iff.mp hm.2)⟩,
      fun _ => ⟨⟨hn, .value⟩, fun m hm => Int.le_of_eq (holds_value_iff.mp hm.2).symm⟩,
      Int.le_refl _⟩
  case range low high _ _ =>
    obtain ⟨-, hl, hh⟩ := fits_range_iff.mp h
    obtain ⟨_, lo, rfl, hlo⟩ := fits_endpoint_iff.mp hl
    obtain ⟨_, hi, rfl, hhi⟩ := fits_endpoint_iff.mp hh
    exact Bounded.range ((Layout.takes_iff hc).mp hlo) ((Layout.takes_iff hc).mp hhi)
  case step base width hb _ =>
    obtain ⟨-, hf, hw⟩ := fits_step_iff.mp h
    obtain ⟨_, n, rfl, -, hn⟩ := fits_width_iff.mp hw
    obtain ⟨top, hbase⟩ := hb hf
    exact hbase.step hc hf hn
  case list ms hi =>
    obtain ⟨-, hlen, hms⟩ := fits_list_iff.mp h
    exact Bounded.list (List.ne_nil_of_length_pos (by omega)) fun m hm => hi m hm (hms m hm)

end Cron.Expr
