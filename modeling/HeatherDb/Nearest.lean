/-
# Nearest other locations

`nearest.rs`: each location's nearest other location by cosine similarity,
by brute force over tiles or through a k-d tree over the addresses projected
onto their principal directions.

The seeded generator that starts the subspace iteration is outside the
repository, as is the selection that finds the median of a tree's points; both
are parameters (`SeededUniform`). Sums that the
source leaves to a parallel reduction are taken in order, one of the orders
it may take. A tree node holds its points instead of a range of a shared
permutation.

What the merge above needs is that an answer names a location other than
the one asked about (`nearestNeighbors_ne`), on every path.

Key definitions: `bruteOne`, `brute`, `KdTree`, `projectedWith`, `nearestNeighbors`.
Key theorem: `nearestNeighbors_ne`.
-/
import Mathlib.Data.List.GetD
import HeatherDb.Config
import HeatherDb.Lib.Selection

namespace HeatherDb

open Scalar Selection

/-- What the projected search takes from other crates. -/
class SeededUniform (F : Type) where
  /-- The samples in `(-1, 1)` of the generator with the fixed seed. -/
  uniform : ℕ → F
  /-- `select_nth_unstable_by` on the points of a tree. -/
  selection : Selector ℕ := .sort

variable {F : Type} [Scalar F]

/-- Locations with a smaller address norm have no direction. -/
def minNorm : F := lit (1 / 10 ^ 12)

/-- Covers the rounding of similarities and projections. -/
def slack : F := lit (1 / 10 ^ 12)

def sim (locations : List (HardLocation F)) (norms : List F) (i j : ℕ) : F :=
  match locations[i]?, locations[j]? with
  | some a, some b => dot a.address b.address / (norms.getD i (lit 0) * norms.getD j (lit 0))
  | _, _ => lit 0

/-- The best candidate so far, `none` standing for similarity `-∞`, after
one more. -/
def consider (best : Option (ℕ × F)) (j : ℕ) (s : F) : Option (ℕ × F) :=
  match best with
  | none => if aboveNegInf s then some (j, s) else none
  | some b => if lt b.2 s then some (j, s) else some b

/-- The candidates among the columns `cols` for row `i`. -/
def scanColumns (locations : List (HardLocation F)) (norms : List F) (i : ℕ) (cols : List ℕ)
    (best : Option (ℕ × F)) : Option (ℕ × F) :=
  cols.foldl (fun best j =>
    if i = j || lt (norms.getD j (lit 0)) minNorm then best
    else consider best j (sim locations norms i j)) best

/-- Nearest neighbour of one location by brute force. -/
def bruteOne (locations : List (HardLocation F)) (norms : List F) (i : ℕ) : Option (ℕ × F) :=
  if lt (norms.getD i (lit 0)) minNorm then none
  else scanColumns locations norms i (List.range locations.length) none

/-- `0..n` in blocks of `size`. -/
def tiles (n size : ℕ) : List (List ℕ) :=
  (List.range ((n + size - 1) / size)).map fun t => List.range' (t * size) (min size (n - t * size))

/-- One block of rows against all columns, a tile of columns at a time. -/
def bruteBlock (locations : List (HardLocation F)) (norms : List F) (rows : List ℕ) :
    List (Option (ℕ × F)) :=
  let best := (tiles locations.length 256).foldl (fun best cols =>
    List.zipWith (fun i b =>
      if lt (norms.getD i (lit 0)) minNorm then b else scanColumns locations norms i cols b) rows best)
    (rows.map fun _ => none)
  List.zipWith (fun i b => if le minNorm (norms.getD i (lit 0)) then b else none) rows best

/-- Every pair compared, in tiles. -/
def brute (locations : List (HardLocation F)) (norms : List F) : List (Option (ℕ × F)) :=
  (tiles locations.length 32).flatMap (bruteBlock locations norms)

/-! ### The projection -/

def columnMean (points : List (List F)) (d : ℕ) : List F :=
  (points.foldl (fun acc row => addScaled acc row (lit 1)) (List.replicate d (lit 0))).map
    (· / ofUsize points.length)

/-- One pass of modified Gram–Schmidt, dropping rows that vanish. -/
def orthonormalizeOnce (rows : List (List F)) : List (List F) :=
  rows.foldl (fun out row =>
    let v := out.foldl (fun v prev => addScaled v prev (-dot v prev)) row
    let before := l2Norm row
    let norm := l2Norm v
    if lt (lit 0) before && lt (before * lit (1 / 10 ^ 8)) norm then out ++ [v.map (· / norm)] else out) []

def orthonormalize (rows : List (List F)) : List (List F) :=
  orthonormalizeOnce (orthonormalizeOnce rows)

/-- Up to `k` orthonormal directions, by six rounds of subspace iteration. -/
def principalDirections [SeededUniform F] (points : List (List F)) (d k : ℕ) : List (List F) :=
  let start := (List.range k).map fun r => (List.range d).map fun c => SeededUniform.uniform (r * d + c)
  (List.range 6).foldl (fun q _ =>
    orthonormalize (points.foldl
      (fun acc row => List.zipWith (fun b out => addScaled out row (dot row b)) q acc)
      (q.map fun _ => List.replicate d (lit 0))))
    (orthonormalize start)

/-- A k-d tree over points given by their indices. -/
inductive KdTree (F : Type) where
  | leaf (points : List ℕ)
  | split (dim : ℕ) (value : F) (left right : KdTree F)

namespace KdTree

def coord (points : List (List F)) (p dim : ℕ) : F := (points.getD p []).getD dim (lit 0)

def dist2 (points : List (List F)) (q : List F) (p : ℕ) : F :=
  sum (List.zipWith (fun a b => (a - b) * (a - b)) q (points.getD p []))

/-- The extent of the points in one dimension. -/
def spread (points : List (List F)) (order : List ℕ) (dim : ℕ) : F :=
  match order.map (coord points · dim) with
  | [] => lit 0
  | x :: xs =>
    let lohi := xs.foldl (fun b x => (fmin b.1 x, fmax b.2 x)) (x, x)
    lohi.2 - lohi.1

/-- The subtree over `order`, split at the median of its widest dimension
until at most 8 points are left. -/
def grow [SeededUniform F] (points : List (List F)) (k : ℕ) (order : List ℕ) : KdTree F :=
  if order.length ≤ 8 then .leaf order
  else
    let dim := (maxBy (fun a b => totalCmp (spread points order a) (spread points order b))
      (List.range k)).getD 0
    let mid := order.length / 2
    let part := (SeededUniform.selection F).select
      (fun a b => totalCmp (coord points a dim) (coord points b dim)) mid order
    .split dim (coord points (part.getD mid 0) dim)
      (grow points k (part.take mid)) (grow points k (part.drop mid))
termination_by order.length
decreasing_by
  · rw [List.length_take, ((SeededUniform.selection F).perm _ _ _).length_eq]; omega
  · rw [List.length_drop, ((SeededUniform.selection F).perm _ _ _).length_eq]; omega

def build [SeededUniform F] (points : List (List F)) (k : ℕ) : KdTree F := grow points k (List.range points.length)

/-- The search for the nearest point but `skip`, `none` standing for distance `∞`. -/
def nearestIn (points : List (List F)) (q : List F) (skip : ℕ) : KdTree F → Option (ℕ × F) → Option (ℕ × F)
  | .leaf ps, best => ps.foldl (fun best p =>
      if p = skip then best
      else
        let d2 := dist2 points q p
        if (match best with | none => belowInf d2 | some b => lt d2 b.2) then some (p, d2) else best) best
  | .split dim value left right, best =>
    let diff := q.getD dim (lit 0) - value
    let worth := fun best : Option (ℕ × F) =>
      match best with | none => belowInf (diff * diff) | some b => lt (diff * diff) b.2
    if lt diff (lit 0) then
      let best := nearestIn points q skip left best
      if worth best then nearestIn points q skip right best else best
    else
      let best := nearestIn points q skip right best
      if worth best then nearestIn points q skip left best else best

def nearestExcluding (points : List (List F)) (t : KdTree F) (q : List F) (skip : ℕ) : Option ℕ :=
  (nearestIn points q skip t none).map (·.1)

/-- Every point within squared distance `r2` of `q`. -/
def within (points : List (List F)) (q : List F) (r2 : F) : KdTree F → List ℕ
  | .leaf ps => ps.filter fun p => le (dist2 points q p) r2
  | .split dim value left right =>
    let diff := q.getD dim (lit 0) - value
    if lt diff (lit 0) then
      within points q r2 left ++ if le (diff * diff) r2 then within points q r2 right else []
    else
      within points q r2 right ++ if le (diff * diff) r2 then within points q r2 left else []

end KdTree

/-- The neighbour of the `a`-th usable location, found in the projection. -/
def projectedOne (locations : List (HardLocation F)) (norms : List F) (valid : List ℕ)
    (proj : List (List F)) (tree : KdTree F) (a : ℕ) : Option (ℕ × F) :=
  let i := valid.getD a 0
  let q := proj.getD a []
  match KdTree.nearestExcluding proj tree q a with
  | none => bruteOne locations norms i
  | some c =>
    let bound := sim locations norms i (valid.getD c 0)
    let radius2 := fmax (lit 2 - lit 2 * bound) (lit 0) + slack
    let candidates := (KdTree.within proj q radius2 tree).insertionSort (· ≤ ·)
    let best := candidates.foldl (fun best b =>
      if b = a then best else consider best (valid.getD b 0) (sim locations norms i (valid.getD b 0))) none
    match best with
    | none => bruteOne locations norms i
    | some b => if lt b.2 bound then bruteOne locations norms i else some b

/-- The projected search, or `none` where it does not apply. -/
def projectedWith [SeededUniform F] (locations : List (HardLocation F)) (norms : List F)
    (minCaptured : F) (minPoints : ℕ) : Option (List (Option (ℕ × F))) :=
  match locations.head? with
  | none => none
  | some first =>
    let n := locations.length
    let d := first.address.length
    let valid := (List.range n).filter fun i => le minNorm (norms.getD i (lit 0))
    let m := valid.length
    if m < max minPoints 2 || d < 32 ||
        locations.any (fun l => l.address.length != d || l.address.any fun x => !isFinite x) then none
    else
      let units := valid.map fun i =>
        (locations.getD i first).address.map (· / norms.getD i (lit 0))
      let mean := columnMean units d
      let points := units.map fun row => List.zipWith (· - ·) row mean
      let basis := principalDirections points d (min 16 d)
      let k := basis.length
      if k = 0 then none
      else
        let proj := points.map fun row => basis.map (dot row)
        let total := sum (points.flatten.map fun x => x * x)
        let kept := sum (proj.flatten.map fun x => x * x)
        if le total (lit 0) || lt (kept / total) minCaptured then none
        else
          let tree := KdTree.build proj k
          some ((List.range m).foldl (fun out a =>
            out.set (valid.getD a 0) (projectedOne locations norms valid proj tree a))
            (List.replicate n none))

def projected [SeededUniform F] (locations : List (HardLocation F)) (norms : List F) (minCaptured : F) :
    Option (List (Option (ℕ × F))) :=
  projectedWith locations norms minCaptured 3000

/-- For each location, its nearest other location and their similarity. -/
def nearestNeighbors [SeededUniform F] (locations : List (HardLocation F)) (norms : List F) :
    List (Option (ℕ × F)) :=
  match projected locations norms (lit (1 / 2)) with
  | some nn => nn
  | none => brute locations norms

/-! ### An answer names another location -/
/-- What an answer for location `i` may be. -/
def Other (locations : List (HardLocation F)) (norms : List F) (i : ℕ) (b : Option (ℕ × F)) : Prop :=
  ∀ j s, b = some (j, s) → j < locations.length ∧ j ≠ i ∧ s = sim locations norms i j

theorem other_none (locations : List (HardLocation F)) (norms : List F) (i : ℕ) : Other locations norms i none :=
  fun _ _ h => by simp at h

theorem other_consider {locations : List (HardLocation F)} {norms : List F} {i j : ℕ} {best : Option (ℕ × F)}
    (hb : Other locations norms i best) (hj : j < locations.length) (hne : j ≠ i) :
    Other locations norms i (consider best j (sim locations norms i j)) := by
  unfold consider
  intro j' s' h
  split at h
  · split_ifs at h
    simp only [Option.some.injEq, Prod.mk.injEq] at h
    obtain ⟨rfl, rfl⟩ := h
    exact ⟨hj, hne, rfl⟩
  · split_ifs at h
    · simp only [Option.some.injEq, Prod.mk.injEq] at h
      obtain ⟨rfl, rfl⟩ := h
      exact ⟨hj, hne, rfl⟩
    · exact hb j' s' h

theorem other_scanColumns {locations : List (HardLocation F)} {norms : List F} {i : ℕ} :
    ∀ {cols : List ℕ} {best : Option (ℕ × F)}, (∀ j ∈ cols, j < locations.length) → Other locations norms i best →
      Other locations norms i (scanColumns locations norms i cols best)
  | [], _, _, hb => hb
  | j :: cols, best, hc, hb => by
    simp only [scanColumns, List.foldl_cons]
    refine other_scanColumns (fun j' hj' => hc j' (by simp [hj'])) ?_
    split_ifs with h
    · exact hb
    · simp only [Bool.or_eq_true, decide_eq_true_eq, not_or] at h
      exact other_consider hb (hc j (by simp)) (Ne.symm h.1)

theorem other_bruteOne (locations : List (HardLocation F)) (norms : List F) (i : ℕ) :
    Other locations norms i (bruteOne locations norms i) := by
  unfold bruteOne
  split_ifs
  · exact other_none _ _ _
  · exact other_scanColumns (fun j hj => List.mem_range.mp hj) (other_none _ _ _)

theorem mem_tiles {n size : ℕ} {t : List ℕ} (ht : t ∈ tiles n size) {j : ℕ} (hj : j ∈ t) : j < n := by
  obtain ⟨b, -, rfl⟩ := List.mem_map.mp ht
  have := List.mem_range'_1.mp hj
  omega

theorem tiles_flatten (n : ℕ) {size : ℕ} (hs : 0 < size) : (tiles n size).flatten = List.range n := by
  have key : ∀ k, ((List.range k).map fun t =>
      List.range' (t * size) (min size (n - t * size))).flatten = List.range (min (k * size) n) := by
    intro k
    induction k with
    | zero => simp
    | succ k ih =>
      rw [List.range_succ, List.map_append, List.flatten_append, ih]
      simp only [List.map_cons, List.map_nil, List.flatten_cons, List.flatten_nil, List.append_nil]
      rw [List.range_eq_range', List.range_eq_range']
      by_cases h : k * size ≤ n
      · rw [min_eq_left h]
        have happ : List.range' 0 (k * size) ++ List.range' (0 + k * size) (min size (n - k * size)) =
            List.range' 0 (k * size + min size (n - k * size)) := List.range'_append_1
        rw [Nat.zero_add (k * size)] at happ
        rw [happ]
        congr 1
        rw [Nat.succ_mul]
        omega
      · have h1 : min size (n - k * size) = 0 := by omega
        have h2 : min (k * size) n = n := by omega
        have h3 : min ((k + 1) * size) n = n := by rw [Nat.succ_mul]; omega
        rw [h1, h2, h3]
        simp
  unfold tiles
  rw [key]
  congr 1
  have h1 := Nat.div_add_mod (n + size - 1) size
  have h2 := Nat.mod_lt (n + size - 1) hs
  have h3 : size * ((n + size - 1) / size) = (n + size - 1) / size * size := Nat.mul_comm _ _
  omega

/-- A block's answers, row by row. -/
theorem other_bruteBlock (locations : List (HardLocation F)) (norms : List F) (rows : List ℕ) :
    List.Forall₂ (fun i b => Other locations norms i b) rows (bruteBlock locations norms rows) := by
  have zip : ∀ {f : ℕ → Option (ℕ × F) → Option (ℕ × F)} (rows : List ℕ) (best : List (Option (ℕ × F))),
      List.Forall₂ (fun i b => Other locations norms i b) rows best →
      (∀ i b, Other locations norms i b → Other locations norms i (f i b)) →
      List.Forall₂ (fun i b => Other locations norms i b) rows (List.zipWith f rows best) := by
    intro f rows best h hf
    induction h with
    | nil => exact .nil
    | cons hib _ ih => exact .cons (hf _ _ hib) ih
  have start : List.Forall₂ (fun i b => Other locations norms i b) rows
      (rows.map fun _ => (none : Option (ℕ × F))) := by
    induction rows with
    | nil => exact .nil
    | cons i rows ih => exact .cons (other_none _ _ _) ih
  unfold bruteBlock
  refine zip rows _ ?_ fun i b hb => ?_
  · generalize hT : tiles locations.length 256 = T
    have hT' : ∀ t ∈ T, ∀ j ∈ t, j < locations.length := fun t ht j hj => mem_tiles (hT ▸ ht) hj
    clear hT
    generalize (rows.map fun _ => (none : Option (ℕ × F))) = best at start
    induction T generalizing best with
    | nil => exact start
    | cons t T ih =>
      rw [List.foldl_cons]
      refine ih (fun t' ht' => hT' t' (by simp [ht'])) _ (zip rows best start fun i b hb => ?_)
      split_ifs
      · exact hb
      · exact other_scanColumns (hT' t (by simp)) hb
  · split_ifs
    · exact hb
    · exact other_none _ _ _

/-- The answers of the brute search, location by location. -/
theorem other_brute (locations : List (HardLocation F)) (norms : List F) :
    List.Forall₂ (fun i b => Other locations norms i b) (List.range locations.length)
      (brute locations norms) := by
  rw [← tiles_flatten locations.length (by decide : 0 < 32)]
  unfold brute
  generalize tiles locations.length 32 = T
  induction T with
  | nil => exact .nil
  | cons t T ih =>
    rw [List.flatten_cons, List.flatMap_cons]
    exact List.rel_append (other_bruteBlock locations norms t) ih

theorem brute_getElem? {locations : List (HardLocation F)} {norms : List F} {i : ℕ} {b : Option (ℕ × F)}
    (h : (brute locations norms)[i]? = some b) : Other locations norms i b := by
  have key := other_brute locations norms
  have hlen := key.length_eq
  obtain ⟨hi, rfl⟩ := List.getElem?_eq_some_iff.mp h
  have := List.Forall₂.get key (by rw [hlen]; exact hi) hi
  simpa using this

namespace KdTree

/-- The points in the leaves. -/
def points : KdTree F → List ℕ
  | .leaf ps => ps
  | .split _ _ left right => left.points ++ right.points

theorem mem_points_grow [SeededUniform F] {pts : List (List F)} {k : ℕ} {order : List ℕ} {p : ℕ}
    (h : p ∈ (grow pts k order).points) : p ∈ order := by
  induction order using grow.induct pts k with
  | case1 order hle =>
    rw [grow, if_pos hle] at h
    exact h
  | case2 order hgt dim mid part ihl ihr =>
    have hperm : part.Perm order := (SeededUniform.selection F).perm _ _ _
    rw [grow, if_neg hgt] at h
    rcases List.mem_append.mp h with h | h
    · exact hperm.mem_iff.mp (List.mem_of_mem_take (ihl h))
    · exact hperm.mem_iff.mp (List.mem_of_mem_drop (ihr h))

theorem mem_within {pts : List (List F)} {q : List F} {r2 : F} : ∀ {t : KdTree F} {p : ℕ},
    p ∈ within pts q r2 t → p ∈ t.points
  | .leaf ps, p, h => (List.mem_filter.mp h).1
  | .split dim value left right, p, h => by
    simp only [within] at h
    simp only [points, List.mem_append]
    split_ifs at h <;> simp only [List.mem_append, List.not_mem_nil, or_false] at h
    · exact h.imp mem_within mem_within
    · exact Or.inl (mem_within h)
    · exact h.symm.imp mem_within mem_within
    · exact Or.inr (mem_within h)

end KdTree

theorem other_projectedOne {locations : List (HardLocation F)} {norms : List F} {valid : List ℕ}
    {proj : List (List F)} {tree : KdTree F} {a : ℕ} (hnd : valid.Nodup)
    (hv : ∀ i ∈ valid, i < locations.length) (ha : a < valid.length)
    (ht : ∀ p ∈ tree.points, p < valid.length) :
    Other locations norms (valid.getD a 0) (projectedOne locations norms valid proj tree a) := by
  dsimp only [projectedOne]
  split
  · exact other_bruteOne _ _ _
  · rename_i c _
    generalize fmax (lit 2 - lit 2 * sim locations norms (valid.getD a 0) (valid.getD c 0)) (lit 0) + slack = r2
    have hcand : ∀ b ∈ (KdTree.within proj (proj.getD a []) r2 tree).insertionSort (· ≤ ·), b < valid.length :=
      fun b hb => ht b (KdTree.mem_within ((List.mem_insertionSort _).mp hb))
    generalize (KdTree.within proj (proj.getD a []) r2 tree).insertionSort (· ≤ ·) = cands at hcand
    have hbest : ∀ best : Option (ℕ × F), Other locations norms (valid.getD a 0) best →
        Other locations norms (valid.getD a 0) (cands.foldl (fun best b =>
          if b = a then best
          else consider best (valid.getD b 0) (sim locations norms (valid.getD a 0) (valid.getD b 0))) best) := by
      induction cands with
      | nil => exact fun _ h => h
      | cons b cands ih =>
        intro best h
        rw [List.foldl_cons]
        refine ih (fun b' hb' => hcand b' (by simp [hb'])) _ ?_
        split_ifs with hba
        · exact h
        · have hb := hcand b (by simp)
          have hne : valid.getD b 0 ≠ valid.getD a 0 := by
            rw [List.getD_eq_getElem valid 0 hb, List.getD_eq_getElem valid 0 ha]
            exact fun he => hba (hnd.getElem_inj_iff.mp he)
          have hlt : valid.getD b 0 < locations.length := by
            rw [List.getD_eq_getElem valid 0 hb]
            exact hv _ (List.getElem_mem hb)
          exact other_consider h hlt hne
    specialize hbest none (other_none _ _ _)
    split
    · exact other_bruteOne _ _ _
    · rename_i b hb
      split_ifs
      · exact other_bruteOne _ _ _
      · exact hb ▸ hbest

theorem projectedWith_getElem? [SeededUniform F] {locations : List (HardLocation F)} {norms : List F}
    {minCaptured : F} {minPoints i : ℕ} {nn : List (Option (ℕ × F))} {b : Option (ℕ × F)}
    (hp : projectedWith locations norms minCaptured minPoints = some nn) (h : nn[i]? = some b) :
    Other locations norms i b := by
  unfold projectedWith at hp
  split at hp
  · simp at hp
  · rename_i first _
    dsimp only at hp
    split_ifs at hp with h1 h2 h3
    simp only [Option.some.injEq] at hp
    generalize hvalid : (List.range locations.length).filter (fun i => le minNorm (norms.getD i (lit 0))) = valid at hp
    have hnd : valid.Nodup := hvalid ▸ List.nodup_range.filter _
    have hv : ∀ i ∈ valid, i < locations.length := fun i hi =>
      List.mem_range.mp (List.mem_filter.mp (hvalid ▸ hi)).1
    generalize hproj : List.map _ (List.map _ (List.map _ valid)) = proj at hp
    have hlen : proj.length = valid.length := by rw [← hproj]; simp
    generalize hk : List.length (principalDirections (F := F) _ _ _) = k at hp
    subst hp
    have ht : ∀ p ∈ (KdTree.build proj k).points, p < valid.length := fun p hp =>
      hlen ▸ List.mem_range.mp (KdTree.mem_points_grow hp)
    -- every slot is empty or holds the answer of its own location
    have key : ∀ (as : List ℕ) (out : List (Option (ℕ × F))), (∀ a ∈ as, a < valid.length) →
        (∀ i b, out[i]? = some b → Other locations norms i b) →
        ∀ i b, (as.foldl (fun out a => out.set (valid.getD a 0)
          (projectedOne locations norms valid proj (KdTree.build proj k) a)) out)[i]? = some b →
          Other locations norms i b := by
      intro as
      induction as with
      | nil => exact fun out _ h => h
      | cons a as ih =>
        intro out has hout
        rw [List.foldl_cons]
        refine ih _ (fun a' ha' => has a' (by simp [ha'])) fun i b hib => ?_
        rw [List.getElem?_set] at hib
        split_ifs at hib with hi hl
        · simp only [Option.some.injEq] at hib
          rw [← hib, ← hi]
          exact other_projectedOne hnd hv (has a (by simp)) ht
        · exact hout i b hib
    refine key _ _ (fun a ha => List.mem_range.mp ha) (fun i b hib => ?_) i b h
    have := List.mem_of_getElem? hib
    rw [List.mem_replicate] at this
    exact this.2 ▸ other_none _ _ _

theorem length_nearestNeighbors [SeededUniform F] (locations : List (HardLocation F)) (norms : List F) :
    (nearestNeighbors locations norms).length = locations.length := by
  unfold nearestNeighbors
  split
  · rename_i nn hnn
    unfold projected projectedWith at hnn
    split at hnn
    · simp at hnn
    · dsimp only at hnn
      split_ifs at hnn
      rw [← Option.some.inj hnn]
      have key : ∀ (as : List ℕ) (f : ℕ → ℕ) (g : ℕ → Option (ℕ × F)) (out : List (Option (ℕ × F))),
          (as.foldl (fun out a => out.set (f a) (g a)) out).length = out.length := by
        intro as f g
        induction as with
        | nil => exact fun _ => rfl
        | cons a as ih =>
          intro out
          rw [List.foldl_cons, ih, List.length_set]
      rw [key, List.length_replicate]
  · simpa using (other_brute locations norms).length_eq.symm

/-- **A nearest neighbour is another location**, with their similarity, on the
projected path and by brute force alike. -/
theorem nearestNeighbors_ne [SeededUniform F] {locations : List (HardLocation F)} {norms : List F}
    {i j : ℕ} {s : F} (h : (nearestNeighbors locations norms)[i]? = some (some (j, s))) :
    j < locations.length ∧ j ≠ i ∧ s = sim locations norms i j := by
  unfold nearestNeighbors at h
  split at h
  · rename_i nn hnn
    exact projectedWith_getElem? hnn h j s rfl
  · exact brute_getElem? h j s rfl

end HeatherDb
