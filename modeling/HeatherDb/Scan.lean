/-
# The write search

`scan.rs`: the k locations nearest a write's input, found by scoring every
location against the f32 copy of the addresses, keeping those the scores
cannot rule out, and ranking these by the f64 dot product. Where the copy
cannot be used it falls back to `activate`.

Key definitions: `Scan`, `errorBound`, `dotF32`, `nearest`.
Key theorem: `mem_nearest_lt`.
-/
import HeatherDb.Read

namespace HeatherDb

open Scalar Narrow

/-- The f32 copy of a collection's addresses and a bound on their norms. -/
structure Scan (F S : Type) where
  matrix : List S
  maxNorm : F

variable {F S : Type} [Scalar F] [Scalar S] [Narrow F S]

/-- The largest difference between an f32 dot product and its f64 value. -/
def errorBound (d : ℕ) (qNorm maxNorm : F) : F :=
  let u : F := lit (1 / 2 ^ 24)
  let rel := (ofUsize d + lit 3) * u + ofUsize d * lit (1 / 2 ^ 52)
  lit (101 / 100) * rel * qNorm * maxNorm + lit 2 * ofUsize d * lit (1 / 2 ^ 126)

/-- f32 dot product with 16 accumulators over whole chunks of 16, the rest
added to their sum. -/
def dotF32 (a b : List S) : S :=
  let chunks := min (a.length / 16) (b.length / 16)
  let acc := (List.range 16).map fun j =>
    (List.range chunks).foldl
      (fun s c => s + a.getD (16 * c + j) (lit 0) * b.getD (16 * c + j) (lit 0)) (lit 0)
  let ra := a.drop (16 * (a.length / 16))
  let rb := b.drop (16 * (b.length / 16))
  (List.zip ra rb).foldl (fun s p => s + p.1 * p.2) (sum acc)

/-- Row `i` of a matrix whose rows have `d` entries. -/
def rowAt {α : Type} (matrix : List α) (d i : ℕ) : List α := (matrix.drop (i * d)).take d

/-- f32 scores of `q` against every row. -/
def scoreRows (q matrix : List S) (d : ℕ) : List S :=
  (List.range ((matrix.length + d - 1) / d)).map fun i => dotF32 q (rowAt matrix d i)

/-- The search can use the f32 copy. -/
def Scan.usable (scan : Scan F S) (n d k : ℕ) : Bool :=
  decide (0 < k) && decide (k ≤ n) && decide (scan.matrix.length = n * d) &&
    isFinite scan.maxNorm && lt scan.maxNorm (lit (10 ^ 30))

/-- The exact k nearest locations to `query`, sorted descending. -/
def nearest (query : List F) (locations : List (HardLocation F)) (k : ℕ) (scan : Scan F S) :
    List ℕ × List F :=
  let n := locations.length
  let d := query.length
  if scan.usable n d k then
    let q := normalize query
    let approx := scoreRows (q.map toF32) scan.matrix d
    let err := errorBound d (l2Norm q) scan.maxNorm
    let kth := (sortBy (fun a b => totalCmp b a) approx).getD (k - 1) (lit 0)
    let floor := toF64 kth - lit 2 * err
    let best := (approx.zipIdx.filter fun p => le floor (toF64 p.1)).filterMap fun p =>
      locations[p.2]?.map fun loc => (p.2, dot q loc.address)
    ((sortBy (fun a b => (totalCmp b.2 a.2).then (compare a.1 b.1)) best).take k).unzip
  else activate query locations k

/-- An index the search finds is the index of a location. -/
theorem mem_nearest_lt {query : List F} {locations : List (HardLocation F)} {k i : ℕ} {scan : Scan F S}
    (h : i ∈ (nearest query locations k scan).1) : i < locations.length := by
  dsimp only [nearest] at h
  split_ifs at h
  · simp only [List.unzip_fst, List.mem_map] at h
    obtain ⟨x, hx, rfl⟩ := h
    have hx := mem_sortBy.mp (List.mem_of_mem_take hx)
    obtain ⟨p, -, hp⟩ := List.mem_filterMap.mp hx
    obtain ⟨loc, hloc, rfl⟩ := Option.map_eq_some_iff.mp hp
    exact (List.getElem?_eq_some_iff.mp hloc).1
  · exact mem_activate_lt h

end HeatherDb
