/-
# Exact arithmetic

The rationals as a number format, on which the engine's programs evaluate:
`sqrt` is exact on squares of rationals and `log2` on powers of two, and
elsewhere both are the nearest value below on a fixed grid. The narrow format
beside them is the same. A small collection to evaluate on has one dimension
and starts empty. `NanRat` adds a value that is not a number.

Key definitions: `ratSqrt`, `ratLog2`, `smallConfig`, `smallSession`, `NanRat`.
-/
import Mathlib.Data.Rat.Floor
import HeatherDb.Runs

namespace HeatherDb

/-- The square root of a square, else of the squares of numerator and
denominator below. -/
def ratSqrt (q : ℚ) : ℚ := Nat.sqrt q.num.toNat / Nat.sqrt q.den

/-- The next `n` binary digits of the logarithm of `x` in `[1, 2)`. -/
def logDigits : ℕ → ℚ → ℚ
  | 0, _ => 0
  | n + 1, x => if 2 ≤ x * x then 1 / 2 + logDigits n (x * x / 2) / 2 else logDigits n (x * x) / 2

/-- The logarithm to base 2, to four digits after the point. -/
def ratLog2 (q : ℚ) : ℚ :=
  if q ≤ 0 then 0
  else
    let k : ℤ := if 1 ≤ q then Nat.log2 (q.num.toNat / q.den) else -(Nat.log2 (q.den / q.num.toNat) + 1 : ℕ)
    k + logDigits 4 (q / (if 0 ≤ k then 2 ^ k.toNat else 1 / 2 ^ (-k).toNat))

instance : Scalar ℚ where
  lit := id
  sqrt := ratSqrt
  log2 := ratLog2
  ln x := ratLog2 x * (69 / 100)
  lt x y := decide (x < y)
  le x y := decide (x ≤ y)
  eq x y := decide (x = y)
  totalCmp x y := if x < y then .lt else if x = y then .eq else .gt
  isFinite _ := true
  aboveNegInf _ := true
  belowInf _ := true
  ceilUsize x := ⌈x⌉.toNat
  display x := toString x
  eq_symm h := decide_eq_true (of_decide_eq_true h).symm
  eq_trans h h' := decide_eq_true ((of_decide_eq_true h).trans (of_decide_eq_true h'))

instance : Narrow ℚ ℚ where
  toF32 := id
  toF64 := id

instance : SeededUniform ℚ where
  uniform i := 1 / (i + 2)

/-- One dimension, no random locations, one neighbor at a time. -/
def smallConfig (competitive : Bool) : EAMConfig ℚ where
  d := 1
  l0 := 0
  k := 1
  eta0 := 1 / 10
  lambda := 1
  etaMin := 1 / 100
  tauSplit := 3 / 10
  tauMerge := 9 / 10
  gamma := 0
  tauDamp := 1
  tauOverload := 100
  beta := 1
  tMax := 1
  epsilon := 1 / 10
  neighborCap := 0
  numLandmarks := 0
  mdlGate := false
  competitive := competitive
  precision := .f64

theorem smallConfig_valid : (smallConfig false).validate = .ok () := by decide +kernel

/-- A new collection of that configuration, alone in its store. -/
def smallSession (competitive : Bool) : Session ℚ ℚ :=
  .fresh 0 "c" (smallConfig competitive) (fun _ => 1) (.empty .f64)

/-! ### A value that is not a number -/

/-- The rationals with a value that is not a number. -/
inductive NanRat where
  | nan
  | rat (q : ℚ)
deriving DecidableEq

namespace NanRat

def map (f : ℚ → ℚ) : NanRat → NanRat
  | nan => nan
  | rat q => rat (f q)

def map₂ (f : ℚ → ℚ → ℚ) : NanRat → NanRat → NanRat
  | rat p, rat q => rat (f p q)
  | _, _ => nan

/-- A comparison, false when an operand is not a number. -/
def compares (r : ℚ → ℚ → Bool) : NanRat → NanRat → Bool
  | rat p, rat q => r p q
  | _, _ => false

/-- Numbers in order below what is not a number. -/
def total : NanRat → NanRat → Ordering
  | rat p, rat q => Scalar.totalCmp p q
  | rat _, nan => .lt
  | nan, rat _ => .gt
  | nan, nan => .eq

def isNumber : NanRat → Bool
  | nan => false
  | rat _ => true

end NanRat

instance : Scalar NanRat where
  add := NanRat.map₂ (· + ·)
  sub := NanRat.map₂ (· - ·)
  mul := NanRat.map₂ (· * ·)
  div x y := if y = .rat 0 then .nan else NanRat.map₂ (· / ·) x y
  neg := NanRat.map (- ·)
  lit := .rat
  sqrt := NanRat.map ratSqrt
  log2 := NanRat.map ratLog2
  ln := NanRat.map Scalar.ln
  lt := NanRat.compares Scalar.lt
  le := NanRat.compares Scalar.le
  eq := NanRat.compares Scalar.eq
  totalCmp := NanRat.total
  isFinite := NanRat.isNumber
  aboveNegInf := NanRat.isNumber
  belowInf := NanRat.isNumber
  ceilUsize
    | .nan => 0
    | .rat q => Scalar.ceilUsize q
  display
    | .nan => "NaN"
    | .rat q => Scalar.display q
  eq_symm {x y} h := by
    cases x <;> cases y <;> simp_all [NanRat.compares, Scalar.eq]
  eq_trans {x y z} h h' := by
    cases x <;> cases y <;> cases z <;> simp_all [NanRat.compares, Scalar.eq]

instance : Narrow NanRat NanRat where
  toF32 := id
  toF64 := id

instance : SeededUniform NanRat where
  uniform i := .rat (SeededUniform.uniform i)

/-- The same small configuration over these numbers. -/
def nanConfig : EAMConfig NanRat where
  d := 1
  l0 := 0
  k := 1
  eta0 := .rat (1 / 10)
  lambda := .rat 1
  etaMin := .rat (1 / 100)
  tauSplit := .rat (3 / 10)
  tauMerge := .rat (9 / 10)
  gamma := .rat 0
  tauDamp := .rat 1
  tauOverload := .rat 100
  beta := .rat 1
  tMax := 1
  epsilon := .rat (1 / 10)
  neighborCap := 0
  numLandmarks := 0
  mdlGate := false
  competitive := false
  precision := .f64

end HeatherDb
