namespace Cron

-- The integers from `lower` to `upper`, both included; none if `upper < lower`.
structure Domain where
  lower : Int
  upper : Int
deriving DecidableEq, Repr

namespace Domain

instance : Membership Int Domain where
  mem d n := d.lower ≤ n ∧ n ≤ d.upper

theorem mem_def {d : Domain} {n : Int} : n ∈ d ↔ d.lower ≤ n ∧ n ≤ d.upper := Iff.rfl

instance (d : Domain) (n : Int) : Decidable (n ∈ d) := inferInstanceAs (Decidable (_ ∧ _))

-- The number of integers between the bounds, negative if they are the wrong way round.
def span (d : Domain) : Int := d.upper - d.lower + 1

def toList (d : Domain) : List Int := (List.range d.span.toNat).map fun k : Nat => d.lower + k

def clamp (d : Domain) (n : Int) : Int := max d.lower (min n d.upper)

theorem clamp_mem {d : Domain} (h : d.lower ≤ d.upper) (n : Int) : d.clamp n ∈ d := by
  rw [mem_def, clamp]
  omega

theorem clamp_of_mem {d : Domain} {n : Int} (h : n ∈ d) : d.clamp n = n := by
  rw [mem_def] at h
  rw [clamp]
  omega

end Domain

end Cron
