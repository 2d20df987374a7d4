/-
# Role-scoped similarity

Scoring of `vec_ops.rs` against one role of a superposition: the stored vector
is unbound by the role, a circular correlation, and what is recovered is
compared with the filler. The correlation goes through a real transform whose
spectra hold the non-negative frequencies; the transform and the complex numbers
of its bins are a library's, here a parameter (`RealFft`). From spectra that are
at hand the score is computed without going back
(`roleScopedSimilaritySpectra`).

Spectra of one length are compared entry by entry; an entry the source would
read out of bounds reads as zero.

Key definitions: `Cplx`, `ComplexOps`, `RealFft`, `unbindBy`,
`roleScopedSimilarity`, `hermitianInner`, `roleScopedSimilaritySpectra`.
-/
import HeatherDb.VecOps

namespace HeatherDb

open Scalar

/-- A bin of a spectrum. -/
structure Cplx (F : Type) where
  re : F
  im : F
deriving DecidableEq

/-- The library's operations on bins; `divReal` divides by a number. -/
structure ComplexOps (F : Type) where
  add : Cplx F → Cplx F → Cplx F
  mul : Cplx F → Cplx F → Cplx F
  conj : Cplx F → Cplx F
  divReal : Cplx F → F → Cplx F
  normSqr : Cplx F → F
  powf : Cplx F → F → Cplx F
  fromPolar : F → F → Cplx F

/-- The transforms planned for a length, `none` where processing fails: from a
signal to its half spectrum and back, unnormalized. -/
structure RealFft (F : Type) extends ComplexOps F where
  forward : ℕ → List F → Option (List (Cplx F))
  inverse : ℕ → List (Cplx F) → Option (List F)

variable {F : Type} [Scalar F]

namespace Cplx

def zero : Cplx F := ⟨lit 0, lit 0⟩

/-- The imaginary part cleared. -/
def real (x : Cplx F) : Cplx F := { x with im := lit 0 }

end Cplx

/-- The DC bin and, at an even length, the Nyquist bin made real. -/
def realEnds (d : ℕ) (spec : List (Cplx F)) : List (Cplx F) :=
  let spec := spec.modify 0 .real
  if d % 2 = 0 then spec.modify (spec.length - 1) .real else spec

/-- What comes back from a spectrum, normalized; zero where the inverse fails. -/
def inverseOrZero (fft : RealFft F) (d : ℕ) (spec : List (Cplx F)) : List F :=
  match fft.inverse d spec with
  | some out => out.map (· / ofUsize d)
  | none => List.replicate d (lit 0)

/-- Circular correlation: recovers what was bound with `role`. -/
def unbindBy (fft : RealFft F) (bound role : List F) : List F :=
  let d := bound.length
  if d = 0 then []
  else
    match fft.forward d bound, fft.forward d role with
    | some specB, some specR =>
      inverseOrZero fft d (realEnds d (List.zipWith (fun x y => fft.mul x (fft.conj y)) specB specR))
    | _, _ => List.replicate d (lit 0)

/-- Cosine between the filler and what `stored` holds at `role`. -/
def roleScopedSimilarity (fft : RealFft F) (stored role filler : List F) : F :=
  cosineSimilarity (unbindBy fft stored role) filler

/-! ### From spectra -/

def rfftForward (fft : RealFft F) (v : List F) : List (Cplx F) :=
  if v.length = 0 then []
  else (fft.forward v.length v).getD (List.replicate (v.length / 2 + 1) .zero)

/-- The spectrum of `unbindBy`'s output. -/
def unbindSpectrum (ops : ComplexOps F) (bound role : List (Cplx F)) (d : ℕ) : List (Cplx F) :=
  realEnds d (List.zipWith (fun x y => ops.mul x (ops.conj y)) bound role)

def unbindBySpectra (fft : RealFft F) (bound role : List (Cplx F)) (d : ℕ) : List F :=
  if d = 0 then [] else inverseOrZero fft d (unbindSpectrum fft.toComplexOps bound role d)

/-- The inner product of two signals from their half spectra: the DC bin and,
at an even length, the Nyquist bin count once, all others twice. -/
def hermitianInner (a b : List (Cplx F)) (d : ℕ) : F :=
  if d = 0 ∨ a = [] then lit 0
  else
    let re := fun i => (a.getD i .zero).re * (b.getD i .zero).re + (a.getD i .zero).im * (b.getD i .zero).im
    let m := a.length
    let hasNyquist := d % 2 = 0 ∧ 1 < m
    let doubledEnd := if hasNyquist then m - 1 else m
    let acc := (List.range' 1 (doubledEnd - 1)).foldl (fun acc i => acc + lit 2 * re i) (re 0)
    (if hasNyquist then acc + re (m - 1) else acc) / ofUsize d

/-- `roleScopedSimilarity` from spectra, without an inverse transform. -/
def roleScopedSimilaritySpectra (ops : ComplexOps F) (bound role filler : List (Cplx F)) (fillerNorm : F) (d : ℕ) : F :=
  if d = 0 then lit 0
  else
    let prod := unbindSpectrum ops bound role d
    let recoveredNorm := sqrt (fmax (hermitianInner prod prod d) (lit 0))
    if lt recoveredNorm (lit (1 / 10 ^ 12)) || lt fillerNorm (lit (1 / 10 ^ 12)) then lit 0
    else hermitianInner prod filler d / (recoveredNorm * fillerNorm)

end HeatherDb
