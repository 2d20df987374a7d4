/-
# Configuration and hard locations

`config.rs` and `location.rs`: the parameters of a memory with the checks
they must pass, the capacity of a location's neighbor list, the bit costs of
the MDL gate, and the hard location itself.

Key definitions: `EAMConfig`, `EAMConfig.validate`, `HardLocation`,
`SameLocation`.
-/
import HeatherDb.VecOps

namespace HeatherDb

open Scalar

/-- How vectors are stored on disk. -/
inductive Precision where
  | f64
  | f32
deriving DecidableEq, Repr

structure EAMConfig (F : Type) where
  /-- Dimension of the stored vectors. -/
  d : ℕ
  /-- Initial number of hard locations. -/
  l0 : ℕ
  /-- Number of nearest neighbors an activation takes. -/
  k : ℕ
  eta0 : F
  lambda : F
  etaMin : F
  tauSplit : F
  tauMerge : F
  gamma : F
  tauDamp : F
  tauOverload : F
  beta : F
  tMax : ℕ
  epsilon : F
  /-- 0 turns the neighbor graph off. -/
  neighborCap : ℕ
  numLandmarks : ℕ
  mdlGate : Bool
  /-- False makes every write a verbatim append. -/
  competitive : Bool
  precision : Precision

structure HardLocation (F : Type) where
  id : ℕ
  address : List F
  counter : List F
  writeCount : F
  neighbors : List ℕ
  surpriseMass : F

variable {F : Type} [Scalar F]

/-- The error of a parameter out of bounds. -/
def refuseUnless (c : Bool) (message : String) : Except HeatherError Unit :=
  if c then .ok () else .error (.invalidConfig message)

namespace EAMConfig

/-- Positive and finite. -/
def positive (x : F) : Bool := !le x (lit 0) && isFinite x

def validate (c : EAMConfig F) : Except HeatherError Unit := do
  refuseUnless (c.d != 0) "d must be > 0"
  refuseUnless (c.k != 0) "k must be > 0"
  refuseUnless (positive c.eta0) "eta_0 must be > 0 and finite"
  refuseUnless (positive c.etaMin) "eta_min must be > 0 and finite"
  refuseUnless (!lt c.eta0 c.etaMin)
    ("eta_min (" ++ display c.etaMin ++ ") must be <= eta_0 (" ++ display c.eta0 ++ ")")
  refuseUnless (!le c.lambda (lit 0) && !lt (lit 1) c.lambda && isFinite c.lambda)
    "lambda must be in (0, 1]"
  refuseUnless (!lt c.tauSplit (lit 0) && isFinite c.tauSplit) "tau_split must be >= 0 and finite"
  refuseUnless (!lt (lit 1) c.tauMerge && isFinite c.tauMerge) "tau_merge must be <= 1 and finite"
  refuseUnless (!le c.tauMerge c.tauSplit)
    ("tau_split (" ++ display c.tauSplit ++ ") must be < tau_merge (" ++ display c.tauMerge ++ ")")
  refuseUnless (!lt c.gamma (lit 0) && isFinite c.gamma) "gamma must be >= 0 and finite"
  refuseUnless (positive c.tauDamp) "tau_damp must be > 0 and finite"
  refuseUnless (positive c.tauOverload) "tau_overload must be > 0 and finite"
  refuseUnless (positive c.beta) "beta must be > 0 and finite"
  refuseUnless (c.tMax != 0) "t_max must be > 0"
  refuseUnless (positive c.epsilon) "epsilon must be > 0 and finite"
  refuseUnless (!(0 < c.neighborCap && c.numLandmarks == 0))
    "num_landmarks must be > 0 when neighbor_cap > 0"

/-- The defaults for a dimension. -/
def new (d : ℕ) : Except HeatherError (EAMConfig F) := do
  let config : EAMConfig F :=
    { d := d
      l0 := 0
      k := 20
      eta0 := lit (1 / 100)
      lambda := lit (9999 / 10000)
      etaMin := lit (1 / 1000)
      tauSplit := lit (3 / 10)
      tauMerge := lit (95 / 100)
      gamma := lit 1
      tauDamp := lit 10
      tauOverload := fmax (ofUsize d / lit 32) (lit 8)
      beta := lit 5
      tMax := 10
      epsilon := lit (1 / 1000000)
      neighborCap := max (d / 4) 20
      numLandmarks := 32
      mdlGate := false
      competitive := true
      precision := .f64 }
  config.validate
  pure config

/-- `max((k-1)·⌈ln L⌉, 2k)`, or 0 when the graph is off. -/
def adaptiveNeighborCap (c : EAMConfig F) (numLocations : ℕ) : ℕ :=
  if c.neighborCap = 0 then 0
  else max ((c.k - 1) * ceilUsize (ln (ofUsize (max numLocations 1) : F))) (2 * c.k)

end EAMConfig

/-- Bits to store one new hard location. -/
def engramBits (numLocations d : ℕ) : F :=
  log2 (ofUsize (numLocations + 1)) + log2 (fmax (ofUsize d / lit 32) (lit 2))

/-- Residual surprise, in bits, of a write that matched at cosine `sim`. -/
def surpriseBits (sim : F) : F := -log2 (clamp sim (lit (1 / 2 ^ 12)) (lit 1))

namespace HardLocation

/-- `HardLocation::new`: an address without evidence. -/
def new (id : ℕ) (address : List F) : HardLocation F where
  id := id
  address := address
  counter := List.replicate address.length (lit 0)
  writeCount := lit 0
  neighbors := []
  surpriseMass := lit 0

@[simp] theorem id_new (id : ℕ) (address : List F) : (new id address).id = id := rfl

@[simp] theorem address_new (id : ℕ) (address : List F) : (new id address).address = address := rfl

end HardLocation

/-- The same location as a reader sees it: the counter may differ where `==`
on floats does not tell. -/
structure SameLocation (a b : HardLocation F) : Prop where
  id : a.id = b.id
  address : a.address = b.address
  counter : SameVec a.counter b.counter
  writeCount : a.writeCount = b.writeCount
  neighbors : a.neighbors = b.neighbors
  surpriseMass : a.surpriseMass = b.surpriseMass

namespace SameLocation

theorem refl (a : HardLocation F) : SameLocation a a := ⟨rfl, rfl, .refl _, rfl, rfl, rfl⟩

theorem symm {a b : HardLocation F} (h : SameLocation a b) : SameLocation b a :=
  ⟨h.id.symm, h.address.symm, h.counter.symm, h.writeCount.symm, h.neighbors.symm, h.surpriseMass.symm⟩

theorem trans {a b c : HardLocation F} (h : SameLocation a b) (h' : SameLocation b c) :
    SameLocation a c :=
  ⟨h.id.trans h'.id, h.address.trans h'.address, h.counter.trans h'.counter,
    h.writeCount.trans h'.writeCount, h.neighbors.trans h'.neighbors,
    h.surpriseMass.trans h'.surpriseMass⟩

end SameLocation

end HeatherDb
