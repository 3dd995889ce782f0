import Cron.Proofs.Expr.Erasure
import Cron.Proofs.Schedule.Construction

namespace Cron

variable {ι κ : Type}

namespace Layout

variable {l : Layout} {c : Column} {e : Expr ι} {e' : Expr κ} {n : Int} {t : Instant}
variable {roots : Columns (Expr ι)} {roots' : Columns (Expr κ)} {cs : List Column} {changed : Bool}

-- A search depends on the shapes of the columns only.

theorem nextValue_congr (h : e.shape = e'.shape) : l.nextValue c e n = l.nextValue c e' n := by
  rw [nextValue, Expr.next?_congr h, nextValue]

theorem admits_congr (h : e.shape = e'.shape) : l.admits c e t = l.admits c e' t := by
  rw [admits, nextValue_congr h, admits]

theorem advance_congr (h : e.shape = e'.shape) : l.advance c e t = l.advance c e' t := by
  cases c <;> simp only [advance, advanceWeekday, nextValue_congr h]

theorem passOver_congr (h : ∀ c, (roots.get c).shape = (roots'.get c).shape) :
    l.passOver roots cs changed t = l.passOver roots' cs changed t := by
  induction cs generalizing changed t
  case nil          => rfl
  case cons c _ hi  => simp only [passOver, advance_congr (h c), hi]

theorem searchFrom_congr {t : Instant} (h : ∀ c, (roots.get c).shape = (roots'.get c).shape)
    (limit : Int) (passes : Nat) :
    l.searchFrom roots limit passes t = l.searchFrom roots' limit passes t := by
  have hp : l.pass roots t = l.pass roots' t := passOver_congr h
  rw [searchFrom, searchFrom, hp]
  cases l.pass roots' t
  case error f => cases f <;> rfl
  case ok p =>
    dsimp only
    split
    case isTrue => rfl
    case isFalse =>
      split
      case isTrue => rfl
      case isFalse =>
        split
        case isTrue   => exact searchFrom_congr h limit (passes + 1)
        case isFalse  => rfl
termination_by t.remaining
decreasing_by exact Instant.remaining_lt ‹_›

theorem search_congr (h : ∀ c, (roots.get c).shape = (roots'.get c).shape) :
    l.search roots t = l.search roots' t := by
  simp only [search, searchFrom_congr h]

end Layout

namespace Schedule

variable {s s' : Schedule} {l : Layout} {c : Column} {cs : List Column} {t : Instant}

theorem get_shapes (s : Schedule) (c : Column) : s.shapes.get c = (s.root c).shape :=
  Columns.get_of _ c

theorem shape_congr (h : s.shapes = s'.shapes) (c : Column) :
    (s.root c).shape = (s'.root c).shape := by
  rw [← get_shapes, h, get_shapes]

-- So do the text of a schedule and everything it says about instants.

theorem columnText_congr (hl : s.layout.dialect = s'.layout.dialect) (h : s.shapes = s'.shapes) :
    s.columnText c = s'.columnText c := by
  have hs := shape_congr h
  have hany (c : Column) : (s.root c).isAny = (s'.root c).isAny := by
    rw [Expr.isAny, Expr.kind_congr (hs c), Expr.isAny]
  rw [columnText, columnText, hany, hany, hl, Expr.cron_congr (hs c)]

theorem cron_congr (hl : s.layout.dialect = s'.layout.dialect) (h : s.shapes = s'.shapes) :
    s.cron = s'.cron := by
  rw [cron, cron, List.map_congr_left fun c _ => columnText_congr hl h]

theorem next?_congr (hl : s.layout = s'.layout) (h : s.shapes = s'.shapes) :
    s.next? t = s'.next? t := by
  rw [next?, next?, Schedule.search, Schedule.search, hl, Layout.search_congr (shape_congr h)]

theorem matchesIn_congr (hl : s.layout = s'.layout) (h : s.shapes = s'.shapes) :
    s.matchesIn t cs = s'.matchesIn t cs := by
  induction cs
  case nil          => rfl
  case cons c _ hi  => rw [matchesIn, matchesIn, hl, Layout.admits_congr (shape_congr h c), hi]

theorem matches?_congr (hl : s.layout = s'.layout) (h : s.shapes = s'.shapes) :
    s.matches? t = s'.matches? t :=
  matchesIn_congr hl h

theorem shape_root_plant (s : Schedule) (c d : Column) (e : Expr ι) :
    ((s.plant c e).root d).shape = if c = d then e.shape else (s.root d).shape := by
  rw [plant, root_join]
  split
  case isTrue  => rw [Expr.shape_adopt, Expr.shape_mint]
  case isFalse => rfl

theorem shape_root_foldl_plant (es : Column → Expr ι) (s : Schedule) :
    ((cs.foldl (fun s c => s.plant c (es c)) s).root c).shape =
      if c ∈ cs then (es c).shape else (s.root c).shape := by
  induction cs generalizing s
  case nil => simp
  case cons d cs hi =>
    rw [List.foldl_cons, hi, shape_root_plant]
    by_cases hc : c ∈ cs
    · simp [hc]
    · by_cases hd : d = c
      · subst hd
        simp [hc]
      · simp [hc, hd, Ne.symm hd]

-- A schedule has the shapes it was made of.
theorem shapes_ofShapes (l : Layout) (shapes : Columns Shape) :
    (ofShapes l shapes).shapes = shapes := by
  have hget (c : Column) : (ofShapes l shapes).shapes.get c = shapes.get c := by
    rw [get_shapes, ofShapes, shape_root_foldl_plant, if_pos (mem_all c), Expr.shape_shape]
  exact Columns.ext (hget .minute) (hget .hour) (hget .dayOfMonth) (hget .month) (hget .dayOfWeek)
    (hget .year)

end Schedule

end Cron
