/-
# The projected search is exact

In exact arithmetic the search through the projection answers as a plain scan
over all pairs does (`projected_exact`), if it is given the norms of the
addresses: the greatest cosine similarity, of equal ones the lowest index. The
answers may differ only in how they are come to, since there is at most one
first best (`Lib.FirstBest`).

A candidate is lost only if the tree passes over a point within the radius
(`mem_within_of_le`) or if the projection moves a point out of it; but the
directions are orthonormal (`principalDirections_spec`), so that they never
lengthen a distance, and between unit vectors the squared distance is
`2 - 2 * sim` (`norm_sub_sq_of_unit`). What such directions are is no matter.

Key definitions: `addressNorms`, `IsNearest`, `KdTree.Ordered`.
Key theorems: `isNearest_bruteOne`, `brute_eq`, `mem_within_of_le`,
`principalDirections_spec`, `isNearest_projectedOne`, `projected_exact`,
`projected_other_norms`.
-/
import HeatherDb.Lib.FirstBest
import HeatherDb.Lib.GramSchmidt
import HeatherDb.Nearest
import HeatherDb.Reals
import HeatherDb.Write

namespace HeatherDb

open Scalar FirstBest GramSchmidt Selection

/-! ### The plain scan -/

section scan

variable {f : ℕ → ℝ} {S : Set ℕ} {r : Option (ℕ × ℝ)}

theorem isFirst_consider (h : IsFirst f S r) {j : ℕ} (hafter : ∀ j' ∈ S, j' ≤ j) :
    IsFirst f (insert j S) (consider r j (f j)) := by
  have hpush := push h hafter
  cases r with
  | none => exact hpush
  | some b =>
    have hsame : consider (some b) j (f j) = if b.2 < f j then some (j, f j) else some b :=
      if_congr lt_real rfl rfl
    rw [hsame]
    exact hpush

/-- A scan in ascending order that skips some. -/
theorem isFirst_foldl (g : ℕ → ℕ) (skip : ℕ → Prop) [DecidablePred skip] :
    ∀ {cs : List ℕ} {S : Set ℕ} {r : Option (ℕ × ℝ)}, IsFirst f S r → (cs.map g).Pairwise (· ≤ ·) →
      (∀ j ∈ S, ∀ c ∈ cs, j ≤ g c) →
      IsFirst f (S ∪ {j | ∃ c ∈ cs, ¬skip c ∧ g c = j})
        (cs.foldl (fun best c => if skip c then best else consider best (g c) (f (g c))) r)
  | [], S, r, h, _, _ => by simpa using h
  | c :: cs, S, r, h, hsorted, hafter => by
    rw [List.map_cons, List.pairwise_cons] at hsorted
    rw [List.foldl_cons]
    by_cases hskip : skip c
    · have ih := isFirst_foldl g skip h hsorted.2 fun j hj c' hc' => hafter j hj c' (List.mem_cons_of_mem c hc')
      have hsame : S ∪ {j | ∃ c' ∈ c :: cs, ¬skip c' ∧ g c' = j} = S ∪ {j | ∃ c' ∈ cs, ¬skip c' ∧ g c' = j} := by
        ext j
        simp [hskip]
      rw [hsame, if_pos hskip]
      exact ih
    · have hnow := isFirst_consider h fun j hj => hafter j hj c List.mem_cons_self
      have ih := isFirst_foldl g skip hnow hsorted.2 fun j hj c' hc' => by
        rcases Set.mem_insert_iff.mp hj with rfl | hj
        · exact hsorted.1 _ (List.mem_map_of_mem hc')
        · exact hafter j hj c' (List.mem_cons_of_mem c hc')
      have hsame : S ∪ {j | ∃ c' ∈ c :: cs, ¬skip c' ∧ g c' = j} =
          insert (g c) S ∪ {j | ∃ c' ∈ cs, ¬skip c' ∧ g c' = j} := by
        ext j
        simp only [Set.mem_union, Set.mem_ofPred_eq, List.exists_mem_cons_iff, hskip, not_false_eq_true, true_and,
          Set.mem_insert_iff, eq_comm (a := j)]
        tauto
      rw [hsame, if_neg hskip]
      exact ih

end scan

/-- The norms a search is given. -/
noncomputable def addressNorms (locations : List (HardLocation ℝ)) : List ℝ :=
  locations.map fun l => l2Norm l.address

variable {locations : List (HardLocation ℝ)} {norms : List ℝ} {d : ℕ}

/-- The locations with a direction, other than the one asked about. -/
def usable (locations : List (HardLocation ℝ)) (norms : List ℝ) (i : ℕ) : Set ℕ :=
  {j | j < locations.length ∧ j ≠ i ∧ tiny ≤ norms.getD j 0}

/-- What the search answers for location `i`: nothing where it has no
direction, else the first of the most similar. -/
structure IsNearest (locations : List (HardLocation ℝ)) (norms : List ℝ) (i : ℕ) (r : Option (ℕ × ℝ)) : Prop where
  undirected : norms.getD i 0 < tiny → r = none
  first : tiny ≤ norms.getD i 0 → IsFirst (sim locations norms i) (usable locations norms i) r

theorem IsNearest.unique {i : ℕ} {r r' : Option (ℕ × ℝ)} (h : IsNearest locations norms i r)
    (h' : IsNearest locations norms i r') : r = r' := by
  rcases lt_or_ge (norms.getD i 0) tiny with hlt | hge
  · rw [h.undirected hlt, h'.undirected hlt]
  · exact FirstBest.unique (h.first hge) (h'.first hge)

theorem minNorm_real : (minNorm : ℝ) = tiny := lit_tiny

theorem lt_minNorm {i : ℕ} : lt (norms.getD i (lit 0)) minNorm = true ↔ norms.getD i 0 < tiny := by
  rw [lt_real, minNorm_real, lit_real, Rat.cast_zero]

theorem le_minNorm {i : ℕ} : le minNorm (norms.getD i (lit 0)) = true ↔ tiny ≤ norms.getD i 0 := by
  rw [le_real, minNorm_real, lit_real, Rat.cast_zero]

theorem isFirst_scanColumns {i : ℕ} {cols : List ℕ} {S : Set ℕ} {r : Option (ℕ × ℝ)}
    (h : IsFirst (sim locations norms i) S r) (hsorted : cols.Pairwise (· ≤ ·))
    (hafter : ∀ j ∈ S, ∀ c ∈ cols, j ≤ c) :
    IsFirst (sim locations norms i) (S ∪ {j | j ∈ cols ∧ j ≠ i ∧ tiny ≤ norms.getD j 0})
      (scanColumns locations norms i cols r) := by
  have hscan := isFirst_foldl id (fun j => (decide (i = j) || lt (norms.getD j (lit 0)) minNorm) = true)
    h (by simpa using hsorted) hafter
  have hsame : {j | ∃ c ∈ cols, ¬(decide (i = c) || lt (norms.getD c (lit 0)) minNorm) = true ∧ id c = j} =
      {j | j ∈ cols ∧ j ≠ i ∧ tiny ≤ norms.getD j 0} := by
    ext j
    simp only [Bool.or_eq_true, decide_eq_true_eq, not_or, lt_minNorm, not_lt, id_eq, Set.mem_ofPred_eq]
    constructor
    · rintro ⟨c, hc, ⟨hne, hle⟩, rfl⟩
      exact ⟨hc, Ne.symm hne, hle⟩
    · rintro ⟨hc, hne, hle⟩
      exact ⟨j, hc, ⟨Ne.symm hne, hle⟩, rfl⟩
  rw [hsame] at hscan
  exact hscan

/-- **The plain scan** finds the nearest. -/
theorem isNearest_bruteOne (locations : List (HardLocation ℝ)) (norms : List ℝ) (i : ℕ) :
    IsNearest locations norms i (bruteOne locations norms i) := by
  unfold bruteOne
  constructor
  · intro hlt
    rw [if_pos (lt_minNorm.mpr hlt)]
  · intro hge
    have hsorted : (List.range locations.length).Pairwise (· ≤ ·) := List.pairwise_lt_range.imp fun h => h.le
    have hscan : IsFirst (sim locations norms i) _ (scanColumns locations norms i (List.range locations.length) none) :=
      isFirst_scanColumns isFirst_none hsorted (by simp)
    rw [if_neg (mt lt_minNorm.mp (not_lt.mpr hge))]
    simpa [usable] using hscan

/-! ### Tiles -/

theorem scanColumns_append (i : ℕ) (cols cols' : List ℕ) (r : Option (ℕ × ℝ)) :
    scanColumns locations norms i (cols ++ cols') r =
      scanColumns locations norms i cols' (scanColumns locations norms i cols r) := List.foldl_append

/-- A block of rows, each scanned over all columns. -/
theorem bruteBlock_eq (rows : List ℕ) : bruteBlock locations norms rows = rows.map (bruteOne locations norms) := by
  -- the tiles of columns one after another, row by row
  have htiles : ∀ (T : List (List ℕ)) (best : List (Option (ℕ × ℝ))), best.length = rows.length →
      T.foldl (fun best cols => List.zipWith (fun i b =>
        if lt (norms.getD i (lit 0)) minNorm then b else scanColumns locations norms i cols b) rows best) best =
      List.zipWith (fun i b =>
        if lt (norms.getD i (lit 0)) minNorm then b else scanColumns locations norms i T.flatten b) rows best := by
    intro T
    induction T with
    | nil =>
      intro best hlength
      refine List.ext_getElem (by simp [hlength]) fun i hi hi' => ?_
      simp [scanColumns]
    | cons cols T ih =>
      intro best hlength
      rw [List.foldl_cons, ih _ (by simp [hlength])]
      refine List.ext_getElem (by simp) fun i hi hi' => ?_
      simp only [List.getElem_zipWith, List.flatten_cons, scanColumns_append]
      split_ifs <;> rfl
  unfold bruteBlock
  rw [htiles _ _ (by simp), tiles_flatten _ (by decide)]
  refine List.ext_getElem (by simp) fun i hi hi' => ?_
  have hrow : i < rows.length := by simpa using hi'
  simp only [List.getElem_zipWith, List.getElem_map]
  unfold bruteOne
  by_cases hlt : norms.getD rows[i] 0 < tiny
  · rw [if_neg (mt le_minNorm.mp (not_le.mpr hlt)), if_pos (lt_minNorm.mpr hlt)]
  · have hnot := mt lt_minNorm.mp hlt
    rw [if_pos (le_minNorm.mpr (not_lt.mp hlt)), if_neg hnot]

/-- **The tiled search is the plain scan.** -/
theorem brute_eq (locations : List (HardLocation ℝ)) (norms : List ℝ) :
    brute locations norms = (List.range locations.length).map (bruteOne locations norms) := by
  rw [← tiles_flatten locations.length (by decide : 0 < 32), List.map_flatten]
  unfold brute
  rw [List.flatMap_def]
  congr 1
  exact List.map_congr_left fun rows _ => bruteBlock_eq rows

/-! ### The tree -/

namespace KdTree

/-- The split values separate the points of the two sides. -/
def Ordered (pts : List (List ℝ)) (k : ℕ) : KdTree ℝ → Prop
  | .leaf _ => True
  | .split dim value left right =>
    dim < k ∧ (∀ p ∈ left.points, coord pts p dim ≤ value) ∧ (∀ p ∈ right.points, value ≤ coord pts p dim) ∧
      left.Ordered pts k ∧ right.Ordered pts k

theorem totalCmp_ne_gt_real {x y : ℝ} : totalCmp x y ≠ .gt ↔ x ≤ y := by
  show (if x < y then Ordering.lt else if x = y then .eq else .gt) ≠ .gt ↔ x ≤ y
  rcases lt_trichotomy x y with h | h | h
  · simp [h, h.le]
  · simp [h]
  · simp [h.not_gt, h.ne', h]

/-- Points are compared by one coordinate. -/
theorem totalOn_coord (pts : List (List ℝ)) (dim : ℕ) (order : List ℕ) :
    TotalOn (fun a b => totalCmp (coord pts a dim) (coord pts b dim)) order where
  swap a _ b _ := by
    show (if _ then Ordering.lt else if _ then .eq else .gt) = (if _ then Ordering.lt else if _ then .eq else .gt).swap
    rcases lt_trichotomy (coord pts a dim) (coord pts b dim) with h | h | h
    · simp [h, h.not_gt, h.ne']
    · simp [h]
    · simp [h, h.not_gt, h.ne']
  trans a _ b _ c _ hab hbc :=
    totalCmp_ne_gt_real.mpr ((totalCmp_ne_gt_real.mp hab).trans (totalCmp_ne_gt_real.mp hbc))

variable [SeededUniform ℝ]

/-- The tree keeps every point. -/
theorem mem_points_grow_of_mem {pts : List (List ℝ)} {k : ℕ} {order : List ℕ} {p : ℕ} (h : p ∈ order) :
    p ∈ (grow pts k order).points := by
  induction order using grow.induct pts k with
  | case1 order hle =>
    rw [grow, if_pos hle]
    exact h
  | case2 order hgt dim mid part ihl ihr =>
    rw [grow, if_neg hgt]
    have hpart : p ∈ part.take mid ++ part.drop mid := by
      rw [List.take_append_drop]
      exact ((SeededUniform.selection ℝ).perm _ _ _).mem_iff.mpr h
    exact List.mem_append.mpr ((List.mem_append.mp hpart).imp ihl ihr)

/-- **The tree is ordered.** -/
theorem ordered_grow {pts : List (List ℝ)} {k : ℕ} (hk : 0 < k) (order : List ℕ) :
    (grow pts k order).Ordered pts k := by
  induction order using grow.induct pts k with
  | case1 order hle =>
    rw [grow, if_pos hle]
    trivial
  | case2 order hgt dim mid part ihl ihr =>
    rw [grow, if_neg hgt]
    have hmid : mid < order.length := by
      show order.length / 2 < order.length
      omega
    have hselected := (SeededUniform.selection ℝ).selects _ mid order hmid (totalOn_coord pts dim order)
    have hlt : mid < part.length := hselected.perm.length_eq ▸ hmid
    have hpivot : part[mid]? = some (part.getD mid 0) := by
      rw [List.getD_eq_getElem _ _ hlt, List.getElem?_eq_getElem hlt]
    refine ⟨?_, fun p hp => ?_, fun p hp => ?_, ihl, ihr⟩
    · show (maxBy _ (List.range k)).getD 0 < k
      cases hmax : maxBy (fun a b => totalCmp (spread pts order a) (spread pts order b)) (List.range k) with
      | none => exact hk
      | some dim => exact List.mem_range.mp (maxBy_mem hmax)
    · exact totalCmp_ne_gt_real.mp (hselected.before _ hpivot p (mem_points_grow hp))
    · have hin : p ∈ part.getD mid 0 :: part.drop (mid + 1) := by
        rw [List.getD_eq_getElem _ _ hlt, ← List.drop_eq_getElem_cons hlt]
        exact mem_points_grow hp
      rcases List.mem_cons.mp hin with rfl | hin
      · exact le_rfl
      · exact totalCmp_ne_gt_real.mp (hselected.after _ hpivot p hin)

omit [SeededUniform ℝ] in
/-- One coordinate is no further apart than the points. -/
theorem sq_le_dist2 {pts : List (List ℝ)} {k dim p : ℕ} {q : List ℝ} (hdim : dim < k) (hq : q.length = k)
    (hp : (pts.getD p []).length = k) :
    (q.getD dim 0 - coord pts p dim) ^ 2 ≤ dist2 pts q p := by
  have hzero : (lit 0 : ℝ) = 0 := by simp
  have hsum : dist2 pts q p = ∑ i : Fin k, (q.getD i 0 - (pts.getD p []).getD i 0) ^ 2 := by
    rw [dist2, sum_real, sum_zipWith_eq _ hq hp]
    exact Finset.sum_congr rfl fun i _ => (sq _).symm
  rw [hsum, coord, hzero]
  exact Finset.single_le_sum (f := fun i : Fin k => (q.getD i 0 - (pts.getD p []).getD i 0) ^ 2)
    (fun i _ => sq_nonneg _) (Finset.mem_univ (⟨dim, hdim⟩ : Fin k))

omit [SeededUniform ℝ] in
/-- **No point within the radius is passed over.** -/
theorem mem_within_of_le {pts : List (List ℝ)} {k p : ℕ} {q : List ℝ} {r2 : ℝ} (hq : q.length = k)
    (hp : (pts.getD p []).length = k) (hr : dist2 pts q p ≤ r2) :
    ∀ {t : KdTree ℝ}, t.Ordered pts k → p ∈ t.points → p ∈ within pts q r2 t
  | .leaf ps, _, hmem => List.mem_filter.mpr ⟨hmem, le_real.mpr hr⟩
  | .split dim value left right, ⟨hdim, hleft, hright, hol, hor⟩, hmem => by
    have hcoord := (sq_le_dist2 hdim hq hp).trans hr
    have hzero : (lit 0 : ℝ) = 0 := by simp
    rw [points, List.mem_append] at hmem
    rw [within, hzero]
    by_cases hneg : q.getD dim 0 - value < 0
    · rw [if_pos (lt_real.mpr hneg), List.mem_append]
      refine hmem.imp (mem_within_of_le hq hp hr hol) fun hin => ?_
      -- the far side is at least as far as the split
      have hfar : (q.getD dim 0 - value) * (q.getD dim 0 - value) ≤ r2 := by
        have hge := hright p hin
        nlinarith
      rw [if_pos (le_real.mpr hfar)]
      exact mem_within_of_le hq hp hr hor hin
    · rw [if_neg (mt lt_real.mp hneg), List.mem_append, or_comm]
      refine hmem.imp (fun hin => ?_) (mem_within_of_le hq hp hr hor)
      have hfar : (q.getD dim 0 - value) * (q.getD dim 0 - value) ≤ r2 := by
        have hle := hleft p hin
        nlinarith
      rw [if_pos (le_real.mpr hfar)]
      exact mem_within_of_le hq hp hr hol hin

end KdTree

/-! ### The directions -/

/-- Rows of `d` entries that are orthonormal. -/
structure Directions (d : ℕ) (rows : List (List ℝ)) : Prop where
  length : ∀ b ∈ rows, b.length = d
  orthonormal : Orthonormals (rows.map (vec d))

/-- A row less its parts along the rows so far. -/
theorem vec_foldl_addScaled : ∀ {out : List (List ℝ)} (row : List ℝ), (∀ b ∈ out, b.length = d) → row.length = d →
    (out.foldl (fun v prev => addScaled v prev (-dot v prev)) row).length = d ∧
      vec d (out.foldl (fun v prev => addScaled v prev (-dot v prev)) row) = deflate (out.map (vec d)) (vec d row)
  | [], _, _, hrow => ⟨hrow, rfl⟩
  | b :: out, row, hout, hrow => by
    have hb := hout b List.mem_cons_self
    have hlength : (addScaled row b (-dot row b)).length = d := (length_addScaled _ _ _).trans hrow
    obtain ⟨hlen, hvec⟩ := vec_foldl_addScaled (addScaled row b (-dot row b))
      (fun b' hb' => hout b' (List.mem_cons_of_mem b hb')) hlength
    have hdeflate : vec d (addScaled row b (-dot row b)) = vec d row - inner ℝ (vec d row) (vec d b) • vec d b := by
      rw [vec_addScaled hrow hb, dot_eq_inner hrow hb, neg_smul, sub_eq_add_neg]
    rw [List.foldl_cons]
    refine ⟨hlen, hvec.trans ?_⟩
    rw [hdeflate, List.map_cons, deflate, deflate, List.foldl_cons]

theorem directions_orthonormalizeOnce {rows : List (List ℝ)} (hrows : ∀ b ∈ rows, b.length = d) :
    Directions d (orthonormalizeOnce rows) := by
  unfold orthonormalizeOnce
  refine List.foldlRecOn (motive := Directions d) _ _ ⟨by simp, Orthonormals.nil⟩ fun out hout row hrow => ?_
  obtain ⟨hlen, hvec⟩ := vec_foldl_addScaled row hout.length (hrows row hrow)
  dsimp only
  split_ifs with hkept
  · set v := out.foldl (fun v prev => addScaled v prev (-dot v prev)) row
    rw [Bool.and_eq_true, lt_real, lt_real, l2Norm_eq_norm hlen] at hkept
    have hpos : 0 < ‖vec d v‖ := by
      refine lt_of_le_of_lt (mul_nonneg ?_ ?_) hkept.2
      · simpa using hkept.1.le
      · simp
    have hunit : vec d (v.map (· / l2Norm v)) = ‖vec d v‖⁻¹ • vec d v := by
      rw [l2Norm_eq_norm hlen]
      exact vec_map (fun x => div_eq_inv_mul x _) hlen
    refine ⟨fun b hb => ?_, ?_⟩
    · rcases List.mem_append.mp hb with hb | hb
      · exact hout.length b hb
      · rw [List.mem_singleton.mp hb, List.length_map, hlen]
    · rw [List.map_append, List.map_singleton, hunit]
      refine hout.orthonormal.snoc (norm_pos_iff.mp hpos) fun b hb => ?_
      rw [hvec]
      exact inner_deflate hout.orthonormal b hb
  · exact hout

theorem directions_orthonormalize {rows : List (List ℝ)} (hrows : ∀ b ∈ rows, b.length = d) :
    Directions d (orthonormalize rows) :=
  directions_orthonormalizeOnce (directions_orthonormalizeOnce hrows).length

/-- **The directions are orthonormal**, whatever the points and the start. -/
theorem principalDirections_spec [SeededUniform ℝ] (points : List (List ℝ)) (d k : ℕ) :
    Directions d (principalDirections points d k) := by
  unfold principalDirections
  refine List.foldlRecOn (motive := Directions d) _ _ ?_ fun q _ _ _ => ?_
  · refine directions_orthonormalize fun b hb => ?_
    obtain ⟨r, -, rfl⟩ := List.mem_map.mp hb
    simp
  · refine directions_orthonormalize (List.foldlRecOn (motive := fun acc : List (List ℝ) => ∀ b ∈ acc, b.length = d) _ _
      (fun b hb => ?_) fun acc hacc row _ b hb => ?_)
    · obtain ⟨r, -, rfl⟩ := List.mem_map.mp hb
      simp
    · rw [← List.map_uncurry_zip_eq_zipWith] at hb
      obtain ⟨⟨b', out⟩, hin, rfl⟩ := List.mem_map.mp hb
      exact (length_addScaled _ _ _).trans (hacc out (List.of_mem_zip hin).2)

/-! ### The projected search -/

/-- What a projected search relies on: the valid locations in order, and
points for them whose distances are at most those on the sphere, all in an
ordered tree. -/
structure Projected (locations : List (HardLocation ℝ)) (norms : List ℝ) (valid : List ℕ) (proj : List (List ℝ))
    (k : ℕ) (tree : KdTree ℝ) : Prop where
  sorted : valid.Pairwise (· < ·)
  mem_valid : ∀ {i}, i ∈ valid ↔ i < locations.length ∧ tiny ≤ norms.getD i 0
  length : ∀ a < valid.length, (proj.getD a []).length = k
  points : ∀ a, a ∈ tree.points ↔ a < valid.length
  ordered : tree.Ordered proj k
  closer : ∀ a < valid.length, ∀ b < valid.length,
    KdTree.dist2 proj (proj.getD a []) b ≤ 2 - 2 * sim locations norms (valid.getD a 0) (valid.getD b 0)

/-- **The projected search finds the nearest.** -/
theorem isNearest_projectedOne {valid : List ℕ} {proj : List (List ℝ)} {k : ℕ} {tree : KdTree ℝ}
    (h : Projected locations norms valid proj k tree) {a : ℕ} (ha : a < valid.length) :
    IsNearest locations norms (valid.getD a 0) (projectedOne locations norms valid proj tree a) := by
  have hget : ∀ b, (hb : b < valid.length) → valid.getD b 0 = valid[b] := fun b hb => List.getD_eq_getElem _ _ hb
  have hmono : ∀ b < valid.length, ∀ c < valid.length, b ≤ c → valid.getD b 0 ≤ valid.getD c 0 := by
    intro b hb c hc hle
    rw [hget b hb, hget c hc]
    rcases hle.lt_or_eq with hlt | rfl
    · exact (List.pairwise_iff_getElem.mp h.sorted b c hb hc hlt).le
    · exact le_rfl
  have hnodup : valid.Nodup := h.sorted.imp fun hlt => hlt.ne
  set i := valid.getD a 0 with hi
  have hplain := isNearest_bruteOne locations norms i
  dsimp only [projectedOne]
  rw [← hi]
  cases hc : KdTree.nearestExcluding proj tree (proj.getD a []) a with
  | none => exact hplain
  | some c =>
    dsimp only
    set bound := sim locations norms i (valid.getD c 0)
    set radius2 : ℝ := fmax (lit 2 - lit 2 * bound) (lit 0) + slack with hradius
    set candidates := (KdTree.within proj (proj.getD a []) radius2 tree).insertionSort (· ≤ ·)
    have hcand : ∀ b ∈ candidates, b < valid.length := fun b hb =>
      (h.points b).mp (KdTree.mem_within ((List.mem_insertionSort _).mp hb))
    have hsorted : (candidates.map fun b => valid.getD b 0).Pairwise (· ≤ ·) :=
      List.pairwise_map.mpr ((List.pairwise_insertionSort (· ≤ ·) _).imp_of_mem fun hb hc hle =>
        hmono _ (hcand _ hb) _ (hcand _ hc) hle)
    have hnone : IsFirst (sim locations norms i) ∅ none := isFirst_none
    have hfold := isFirst_foldl (fun b => valid.getD b 0) (fun b => b = a) hnone hsorted (by simp)
    rw [Set.empty_union] at hfold
    set best := candidates.foldl (fun best b =>
      if b = a then best else consider best (valid.getD b 0) (sim locations norms i (valid.getD b 0))) none
    cases hb : best with
    | none => exact hplain
    | some b =>
      obtain ⟨j, s⟩ := b
      show IsNearest locations norms i (if lt s bound then bruteOne locations norms i else some (j, s))
      rw [hb] at hfold
      by_cases hless : s < bound
      · rw [if_pos (lt_real.mpr hless)]
        exact hplain
      rw [if_neg (mt lt_real.mp hless)]
      -- a location that is no candidate is less similar than the bound
      have hmem : i ∈ valid := by rw [hi, hget a ha]; exact List.getElem_mem ha
      refine ⟨fun hlt => absurd (h.mem_valid.mp hmem).2 (not_le.mpr hlt), fun _ => extend hfold ?_ ?_⟩
      · rintro j' ⟨b, hb, hne, rfl⟩
        have hlt := hcand b hb
        have hin : valid.getD b 0 ∈ valid := by rw [hget b hlt]; exact List.getElem_mem hlt
        obtain ⟨hj, hnorm⟩ := h.mem_valid.mp hin
        refine ⟨hj, fun heq => hne ?_, hnorm⟩
        rw [hi, hget b hlt, hget a ha] at heq
        exact hnodup.getElem_inj_iff.mp heq
      · intro j' hj' hout
        obtain ⟨hlt, hne, hnorm⟩ := hj'
        obtain ⟨b, hb, hbj⟩ := List.mem_iff_getElem.mp (h.mem_valid.mpr ⟨hlt, hnorm⟩)
        have hbj : valid.getD b 0 = j' := (hget b hb).trans hbj
        refine lt_of_lt_of_le (not_le.mp fun hle => hout ⟨b, ?_, fun heq => hne ?_, hbj⟩) (not_lt.mp hless)
        · refine (List.mem_insertionSort _).mpr (KdTree.mem_within_of_le (h.length a ha) (h.length b hb) ?_ h.ordered
            ((h.points b).mpr hb))
          have hclose := h.closer a ha b hb
          rw [hbj, ← hi] at hclose
          have hslack : (0 : ℝ) ≤ slack := by
            rw [slack, lit_tiny]
            exact tiny_pos.le
          have hmax : (2 : ℝ) - 2 * bound ≤ fmax (lit 2 - lit 2 * bound) (lit 0) := by
            rw [fmax_real]
            simp
          rw [hradius]
          linarith
        · rw [← hbj, heq, hi]

/-- The squared distance of two units is what their cosine leaves to 2. -/
theorem norm_sub_sq_of_unit {E : Type} [NormedAddCommGroup E] [InnerProductSpace ℝ E] {x y : E} (hx : ‖x‖ = 1)
    (hy : ‖y‖ = 1) : ‖x - y‖ ^ 2 = 2 - 2 * inner ℝ x y := by
  rw [norm_sub_sq_real, hx, hy]
  ring

theorem getD_addressNorms {i : ℕ} (hi : i < locations.length) :
    (addressNorms locations).getD i 0 = l2Norm (locationAt locations i).address := by
  rw [addressNorms, locationAt, List.getD_eq_getElem _ _ (by simpa using hi), List.getElem_map,
    List.getD_eq_getElem _ _ hi]

/-- The direction of a location. -/
noncomputable def unit (locations : List (HardLocation ℝ)) (first : HardLocation ℝ) (i : ℕ) : List ℝ :=
  (locations.getD i first).address.map (· / (addressNorms locations).getD i (lit 0))

section build

variable (hd : ∀ loc ∈ locations, loc.address.length = d) {first : HardLocation ℝ} {i j : ℕ}

include hd

theorem length_unit (hi : i < locations.length) : (unit locations first i).length = d := by
  rw [unit, List.length_map, List.getD_eq_getElem _ _ hi]
  exact hd _ (List.getElem_mem hi)

/-- Directions are unit vectors. -/
theorem vec_unit (hi : i < locations.length) (hnorm : tiny ≤ (addressNorms locations).getD i 0) :
    vec d (unit locations first i) =
        ((addressNorms locations).getD i 0)⁻¹ • vec d (locationAt locations i).address ∧
      ‖vec d (unit locations first i)‖ = 1 := by
  have hat : locations.getD i first = locationAt locations i := by
    rw [locationAt, List.getD_eq_getElem _ _ hi, List.getD_eq_getElem _ _ hi]
  have hlen := hd _ (locationAt_mem hi)
  have hpos : 0 < (addressNorms locations).getD i 0 := tiny_pos.trans_le hnorm
  have hvec : vec d (unit locations first i) =
      ((addressNorms locations).getD i 0)⁻¹ • vec d (locationAt locations i).address := by
    rw [unit, hat]
    exact vec_map (fun x => by rw [lit_real, Rat.cast_zero]; exact div_eq_inv_mul x _) hlen
  refine ⟨hvec, ?_⟩
  rw [hvec, norm_smul, norm_inv, Real.norm_of_nonneg hpos.le, getD_addressNorms hi, ← l2Norm_eq_norm hlen]
  rw [getD_addressNorms hi] at hpos
  exact inv_mul_cancel₀ hpos.ne'

/-- The similarity of two locations is the cosine of their directions. -/
theorem sim_eq_inner (hi : i < locations.length) (hj : j < locations.length)
    (hnormi : tiny ≤ (addressNorms locations).getD i 0) (hnormj : tiny ≤ (addressNorms locations).getD j 0) :
    sim locations (addressNorms locations) i j =
      inner ℝ (vec d (unit locations first i)) (vec d (unit locations first j)) := by
  have hlooki : locations[i]? = some (locationAt locations i) := by
    rw [locationAt, List.getD_eq_getElem _ _ hi, List.getElem?_eq_getElem hi]
  have hlookj : locations[j]? = some (locationAt locations j) := by
    rw [locationAt, List.getD_eq_getElem _ _ hj, List.getElem?_eq_getElem hj]
  rw [(vec_unit hd hi hnormi).1, (vec_unit hd hj hnormj).1, real_inner_smul_left, real_inner_smul_right, sim, hlooki,
    hlookj, lit_real, Rat.cast_zero,
    ← dot_eq_inner (hd _ (locationAt_mem hi)) (hd _ (locationAt_mem hj)), ← mul_assoc, ← mul_inv]
  exact div_eq_inv_mul _ _

/-- **The points of a projected search**: directions less any mean, by their
coordinates along orthonormal vectors. -/
theorem projected_build [SeededUniform ℝ] {basis : List (List ℝ)} (hbasis : Directions d basis) (hk : 0 < basis.length)
    {mean : List ℝ} (hmean : mean.length = d) :
    let valid := (List.range locations.length).filter fun i => le minNorm ((addressNorms locations).getD i (lit 0))
    let points := (valid.map (unit locations first)).map fun row => List.zipWith (· - ·) row mean
    let proj := points.map fun row => basis.map (dot row)
    Projected locations (addressNorms locations) valid proj basis.length (KdTree.build proj basis.length) := by
  intro valid points proj
  have hvalid : ∀ {i}, i ∈ valid ↔ i < locations.length ∧ tiny ≤ (addressNorms locations).getD i 0 := by
    intro i
    rw [List.mem_filter, List.mem_range, le_minNorm]
  have hlength : proj.length = valid.length := by simp [proj, points]
  have hproj : ∀ a, (ha : a < valid.length) → proj.getD a [] =
      basis.map (dot (List.zipWith (· - ·) (unit locations first valid[a]) mean)) := by
    intro a ha
    rw [List.getD_eq_getElem _ _ (hlength ▸ ha)]
    simp [proj, points]
  have hin : ∀ a, (ha : a < valid.length) → valid[a] < locations.length ∧
      tiny ≤ (addressNorms locations).getD valid[a] 0 :=
    fun a ha => hvalid.mp (List.getElem_mem ha)
  have hpoint : ∀ a, (ha : a < valid.length) →
      (List.zipWith (· - ·) (unit locations first valid[a]) mean).length = d ∧
      vec d (List.zipWith (· - ·) (unit locations first valid[a]) mean) =
        vec d (unit locations first valid[a]) - vec d mean := by
    intro a ha
    have hunit : (unit locations first valid[a]).length = d := length_unit hd (hin a ha).1
    refine ⟨by simp [hunit, hmean], ?_⟩
    have hsub := vec_zipWith (a := 1) (b := -1) (f := fun x y => x - y) (fun x y => by ring) hunit hmean
    rw [one_smul, neg_one_smul, ← sub_eq_add_neg] at hsub
    exact hsub
  refine
    { sorted := List.pairwise_lt_range.filter _
      mem_valid := hvalid
      length := fun a ha => by rw [hproj a ha, List.length_map]
      points := fun a => ?_
      ordered := KdTree.ordered_grow hk _
      closer := fun a ha b hb => ?_ }
  · rw [← hlength]
    exact ⟨fun h => List.mem_range.mp (KdTree.mem_points_grow h),
      fun h => KdTree.mem_points_grow_of_mem (List.mem_range.mpr h)⟩
  · obtain ⟨hlena, hveca⟩ := hpoint a ha
    obtain ⟨hlenb, hvecb⟩ := hpoint b hb
    obtain ⟨hlta, hnorma⟩ := hin a ha
    obtain ⟨hltb, hnormb⟩ := hin b hb
    set x := vec d (unit locations first valid[a])
    set y := vec d (unit locations first valid[b])
    have hcoords : KdTree.dist2 proj (proj.getD a []) b =
        ((basis.map (vec d)).map fun v => inner ℝ v (x - y) ^ 2).sum := by
      rw [KdTree.dist2, sum_real, hproj a ha, hproj b hb, List.zipWith_map, List.zipWith_self, List.map_map]
      congr 1
      refine List.map_congr_left fun v hv => ?_
      have hv := hbasis.length v hv
      have hdiff : dot (List.zipWith (· - ·) (unit locations first valid[a]) mean) v -
          dot (List.zipWith (· - ·) (unit locations first valid[b]) mean) v = inner ℝ (vec d v) (x - y) := by
        rw [dot_eq_inner hlena hv, dot_eq_inner hlenb hv, hveca, hvecb, ← inner_sub_left, sub_sub_sub_cancel_right,
          real_inner_comm]
      rw [Function.comp_apply, ← hdiff]
      exact (sq _).symm
    calc KdTree.dist2 proj (proj.getD a []) b
        = ((basis.map (vec d)).map fun v => inner ℝ v (x - y) ^ 2).sum := hcoords
      _ ≤ ‖x - y‖ ^ 2 := hbasis.orthonormal.sum_sq_le (x - y)
      _ = 2 - 2 * inner ℝ x y := norm_sub_sq_of_unit (vec_unit hd hlta hnorma).2 (vec_unit hd hltb hnormb).2
      _ = 2 - 2 * sim locations (addressNorms locations) (valid.getD a 0) (valid.getD b 0) := by
        rw [List.getD_eq_getElem _ _ ha, List.getD_eq_getElem _ _ hb, sim_eq_inner hd hlta hltb hnorma hnormb]

end build

/-- A table filled in slot by slot. -/
theorem getElem?_foldl_set {α : Type} (g : ℕ → ℕ) (x : ℕ → α) : ∀ (as : List ℕ) (out : List α) (i : ℕ),
    (as.foldl (fun out a => out.set (g a) (x (g a))) out)[i]? =
      if i ∈ as.map g ∧ i < out.length then some (x i) else out[i]?
  | [], out, i => by simp
  | a :: as, out, i => by
    rw [List.foldl_cons, getElem?_foldl_set g x as, List.getElem?_set, List.length_set, List.map_cons]
    by_cases hi : i < out.length
    · by_cases hin : i ∈ as.map g
      · simp [hin, hi]
      · by_cases hga : g a = i
        · simp [hin, hi, hga]
        · simp [hin, hga, Ne.symm hga]
    · have hnone : out[i]? = none := List.getElem?_eq_none (not_lt.mp hi)
      simp [hi]
      intro hga
      omega

theorem length_columnMean {points : List (List ℝ)} : (columnMean points d).length = d := by
  unfold columnMean
  rw [List.length_map]
  exact List.foldlRecOn (motive := fun acc : List ℝ => acc.length = d) _ _ (by simp) fun acc hacc row _ => by
    rw [length_addScaled, hacc]

/-- The answers put in their places are those of the plain scan. -/
theorem foldl_projectedOne_eq {valid : List ℕ} {proj : List (List ℝ)} {k : ℕ} {tree : KdTree ℝ}
    (h : Projected locations norms valid proj k tree) :
    (List.range valid.length).foldl (fun out a =>
        out.set (valid.getD a 0) (projectedOne locations norms valid proj tree a))
        (List.replicate locations.length none) = brute locations norms := by
  have hsame : (List.range valid.length).foldl (fun out a =>
        out.set (valid.getD a 0) (projectedOne locations norms valid proj tree a))
        (List.replicate locations.length none) =
      (List.range valid.length).foldl (fun out a =>
        out.set (valid.getD a 0) (bruteOne locations norms (valid.getD a 0)))
        (List.replicate locations.length none) := by
    refine List.foldl_ext _ _ _ fun out a ha => ?_
    rw [(isNearest_projectedOne h (List.mem_range.mp ha)).unique (isNearest_bruteOne locations norms _)]
  have hvalid : (List.range valid.length).map (fun a => valid.getD a 0) = valid := by
    refine List.ext_getElem (by simp) fun i hi hi' => ?_
    rw [List.getElem_map, List.getElem_range, List.getD_eq_getElem _ _ hi']
  rw [hsame, brute_eq]
  refine List.ext_getElem? fun i => ?_
  rw [getElem?_foldl_set (fun a => valid.getD a 0) (bruteOne locations norms), hvalid, List.length_replicate]
  by_cases hi : i < locations.length
  · rw [List.getElem?_map, List.getElem?_range hi, Option.map_some]
    by_cases hin : i ∈ valid
    · rw [if_pos ⟨hin, hi⟩]
    · have hlt : norms.getD i 0 < tiny := not_le.mp fun hle => hin (h.mem_valid.mpr ⟨hi, hle⟩)
      rw [if_neg fun hc => hin hc.1, List.getElem?_replicate, if_pos hi,
        (isNearest_bruteOne locations norms i).undirected hlt]
  · rw [if_neg fun hc => hi hc.2, List.getElem?_eq_none (by simpa using hi), List.getElem?_eq_none (by simpa using hi)]

/-- **The projected search answers as brute force does.** -/
theorem projected_eq_brute [SeededUniform ℝ] {minCaptured : ℝ} {minPoints : ℕ} {nn : List (Option (ℕ × ℝ))}
    (h : projectedWith locations (addressNorms locations) minCaptured minPoints = some nn) :
    nn = brute locations (addressNorms locations) := by
  unfold projectedWith at h
  split at h
  · simp at h
  rename_i first _
  dsimp only at h
  split_ifs at h with hsmall hk hkept
  have hd : ∀ loc ∈ locations, loc.address.length = first.address.length := by
    intro loc hloc
    by_contra hne
    refine hsmall ?_
    rw [Bool.or_eq_true, List.any_eq_true]
    exact Or.inr ⟨loc, hloc, by simp [hne]⟩
  rw [← Option.some.inj h]
  exact foldl_projectedOne_eq (projected_build hd (principalDirections_spec _ _ _) (Nat.pos_of_ne_zero hk)
    length_columnMean)

/-- What the merge asks for is a plain scan, whichever way it is answered. -/
theorem nearestNeighbors_eq [SeededUniform ℝ] (locations : List (HardLocation ℝ)) :
    nearestNeighbors locations (addressNorms locations) =
      (List.range locations.length).map (bruteOne locations (addressNorms locations)) := by
  rw [← brute_eq]
  unfold nearestNeighbors
  split
  · exact projected_eq_brute ‹_›
  · rfl

/-! ### Locations on a line -/

/-- A point on the first axis. -/
def onAxis (x : ℝ) : List ℝ := x :: List.replicate 31 0

theorem dot_onAxis (x y : ℝ) : dot (onAxis x) (onAxis y) = x * y := by
  simp [dot, onAxis, sum_real]

theorem l2Norm_onAxis (x : ℝ) : l2Norm (onAxis x) = |x| := by
  rw [l2Norm, dot_onAxis, sqrt_real, Real.sqrt_mul_self_eq_abs]

theorem addScaled_onAxis (x y s : ℝ) : addScaled (onAxis x) (onAxis y) s = onAxis (x + s * y) := by
  simp [addScaled, onAxis]

theorem map_div_onAxis (x c : ℝ) : (onAxis x).map (· / c) = onAxis (x / c) := by
  simp [onAxis]

theorem zipWith_sub_onAxis (x y : ℝ) : List.zipWith (· - ·) (onAxis x) (onAxis y) = onAxis (x - y) := by
  simp [onAxis]

theorem orthonormalizeOnce_onAxis {x : ℝ} (hx : 0 < x) (n : ℕ) :
    orthonormalizeOnce (onAxis x :: List.replicate n (onAxis 0)) = [onAxis 1] := by
  have hfirst : orthonormalizeOnce [onAxis x] = [onAxis 1] := by
    have hlt : lt (lit 0 : ℝ) x = true := lt_real.mpr (by simpa using hx)
    have hlt' : lt (x * lit (1 / 10 ^ 8)) x = true := lt_real.mpr (by simp; linarith)
    simp only [orthonormalizeOnce, List.foldl_cons, List.foldl_nil, l2Norm_onAxis, abs_of_pos hx, hlt, hlt',
      Bool.and_self, if_true, map_div_onAxis, div_self hx.ne', List.nil_append]
  induction n with
  | zero => exact hfirst
  | succ n ih =>
    rw [List.replicate_succ', ← List.cons_append]
    unfold orthonormalizeOnce at ih ⊢
    rw [List.foldl_append, ih]
    have hlt : lt (0 : ℝ) 0 = false := decide_eq_false (lt_irrefl 0)
    simp [addScaled_onAxis, dot_onAxis, l2Norm_onAxis, hlt]

theorem orthonormalize_onAxis {x : ℝ} (hx : 0 < x) (n : ℕ) :
    orthonormalize (onAxis x :: List.replicate n (onAxis 0)) = [onAxis 1] := by
  rw [orthonormalize, orthonormalizeOnce_onAxis hx]
  exact orthonormalizeOnce_onAxis one_pos 0

/-- The direction of points on a line. -/
theorem principalDirections_onAxis [SeededUniform ℝ]
    (hseed : ∀ n, (SeededUniform.uniform n : ℝ) = if n = 0 then 1 / 2 else 0)
    {xs : List ℝ} (h : 0 < (xs.map fun x => x * x).sum) :
    principalDirections (xs.map onAxis) 32 16 = [onAxis 1] := by
  have hstart : ((List.range 16).map fun r => (List.range 32).map fun c =>
      (SeededUniform.uniform (r * 32 + c) : ℝ)) = onAxis (1 / 2) :: List.replicate 15 (onAxis 0) := by
    simp [hseed, onAxis, List.range_succ_eq_map, List.replicate_succ]
  have hpower : ∀ (xs : List ℝ) (s : ℝ), (xs.map onAxis).foldl
      (fun acc row => List.zipWith (fun b out => addScaled out row (dot row b)) [onAxis 1] acc) [onAxis s] =
        [onAxis (s + (xs.map fun x => x * x).sum)] := by
    intro xs
    induction xs with
    | nil => simp
    | cons x xs ih =>
      intro s
      simp only [List.map_cons, List.foldl_cons, List.zipWith_cons_cons, List.zipWith_nil_right, dot_onAxis,
        addScaled_onAxis, mul_one, List.sum_cons, ← add_assoc]
      exact ih _
  have hround : orthonormalize ((xs.map onAxis).foldl
      (fun acc row => List.zipWith (fun b out => addScaled out row (dot row b)) [onAxis 1] acc)
      ([onAxis 1].map fun _ => List.replicate 32 (lit 0))) = [onAxis 1] := by
    have hzero : ([onAxis 1].map fun _ => List.replicate 32 (lit 0 : ℝ)) = [onAxis 0] := by
      simp [onAxis, List.replicate_succ]
    rw [hzero, hpower, zero_add]
    exact orthonormalize_onAxis h 0
  unfold principalDirections
  dsimp only
  rw [hstart, orthonormalize_onAxis (by norm_num)]
  refine List.foldlRecOn (motive := fun q => q = [onAxis 1]) _ _ rfl fun q hq _ _ => ?_
  rw [hq]
  exact hround

/-- Three locations on the first axis. -/
noncomputable def axisCloud (x y z : ℝ) : List (HardLocation ℝ) :=
  [.new 0 (onAxis x), .new 1 (onAxis y), .new 2 (onAxis z)]

@[simp] theorem length_axisCloud (x y z : ℝ) : (axisCloud x y z).length = 3 := rfl

theorem sim_axisCloud (x y z : ℝ) {i j : ℕ} (hi : i < 3) (hj : j < 3) :
    sim (axisCloud x y z) [1, 1, 1] i j = [x, y, z].getD i 0 * [x, y, z].getD j 0 := by
  interval_cases i <;> interval_cases j <;> simp [sim, axisCloud, HardLocation.new, dot_onAxis]

/-- Three points on a line are searched in the projection. -/
theorem projectedWith_axisCloud [SeededUniform ℝ]
    (hseed : ∀ n, (SeededUniform.uniform n : ℝ) = if n = 0 then 1 / 2 else 0)
    (x y z : ℝ) {mean : ℝ} (hmean : (x + y + z) / 3 = mean)
    (hspread : 0 < (x - mean) * (x - mean) + (y - mean) * (y - mean) + (z - mean) * (z - mean)) :
    projectedWith (axisCloud x y z) [1, 1, 1] (1 / 2) 2 =
      some ((List.range 3).map (projectedOne (axisCloud x y z) [1, 1, 1] [0, 1, 2]
        [[x - mean], [y - mean], [z - mean]] (.leaf [0, 1, 2]))) := by
  have hvalid : (List.range 3).filter (fun i => le minNorm (([1, 1, 1] : List ℝ).getD i (lit 0))) = [0, 1, 2] := by
    have hle : le (minNorm : ℝ) 1 = true := le_real.mpr (by simp [minNorm]; norm_num)
    simp [List.range_succ_eq_map, hle]
  have happlies : ((axisCloud x y z).any fun l => l.address.length != 32 || l.address.any fun x => !isFinite x) =
      false := by
    simp [axisCloud, HardLocation.new, onAxis]
  have hunits : ([0, 1, 2] : List ℕ).map (fun i => (((axisCloud x y z).getD i (.new 0 (onAxis x))).address.map
      (· / ([1, 1, 1] : List ℝ).getD i (lit 0)))) = [onAxis x, onAxis y, onAxis z] := by
    simp [axisCloud, HardLocation.new]
  have hcolumn : columnMean [onAxis x, onAxis y, onAxis z] 32 = onAxis mean := by
    have hzero : List.replicate 32 (lit 0 : ℝ) = onAxis 0 := by simp [onAxis, List.replicate_succ]
    rw [columnMean, hzero]
    simp [addScaled_onAxis, map_div_onAxis, hmean]
  have hpoints : [onAxis x, onAxis y, onAxis z].map (fun row => List.zipWith (· - ·) row (onAxis mean)) =
      [x - mean, y - mean, z - mean].map onAxis := by
    simp [zipWith_sub_onAxis]
  have hbasis : principalDirections ([x - mean, y - mean, z - mean].map onAxis) 32 16 = [onAxis 1] :=
    principalDirections_onAxis hseed (by simpa [add_assoc] using hspread)
  have hproj : ([x - mean, y - mean, z - mean].map onAxis).map (fun row => [onAxis 1].map (dot row)) =
      [[x - mean], [y - mean], [z - mean]] := by
    simp [dot_onAxis]
  have htree : KdTree.build [[x - mean], [y - mean], [z - mean]] 1 = .leaf [0, 1, 2] := by
    rw [KdTree.build, KdTree.grow, if_pos (by simp)]
    rfl
  -- the line keeps the whole variance
  set total := (x - mean) * (x - mean) + (y - mean) * (y - mean) + (z - mean) * (z - mean) with htotal
  have hkept : sum (([[x - mean], [y - mean], [z - mean]] : List (List ℝ)).flatten.map fun x => x * x) = total := by
    simp [sum_real, add_assoc, htotal]
  have hall : sum (([x - mean, y - mean, z - mean].map onAxis).flatten.map fun x => x * x) = total := by
    simp [sum_real, onAxis, add_assoc, htotal]
  have hcaptures : (le total (lit 0) || lt (total / total) (1 / 2)) = false := by
    rw [div_self hspread.ne', Bool.or_eq_false_iff]
    refine ⟨Bool.eq_false_iff.mpr fun h => ?_, Bool.eq_false_iff.mpr fun h => ?_⟩
    · exact absurd (le_real.mp h) (not_le.mpr (by simpa using hspread))
    · exact absurd (lt_real.mp h) (by norm_num)
  have hlength : (axisCloud x y z).length = 3 := rfl
  have hd : (HardLocation.new 0 (onAxis x)).address.length = 32 := rfl
  have hk : min 16 32 = 16 := rfl
  have hhead : (axisCloud x y z).head? = some (.new 0 (onAxis x)) := rfl
  unfold projectedWith
  rw [hhead]
  dsimp only
  rw [hlength, hd, hvalid, happlies, hunits, hcolumn, hpoints, hk, hbasis, hproj, hkept, hall, hcaptures]
  simp only [List.length_cons, List.length_nil, htree]
  rfl

/-! ### The search -/

/-- **The nearest-neighbour search is exact**: what the search through the
projection finds, given the norms of the addresses, is what brute force finds.
That is a plain scan over all pairs, whatever the norms given, and finds nothing
for a location without direction or without another one that has a direction,
and else the greatest similarity at the lowest index that has it. -/
theorem projected_exact [SeededUniform ℝ] (locations : List (HardLocation ℝ)) :
    (∀ (minCaptured : ℝ) (minPoints : ℕ),
        ∀ nn ∈ projectedWith locations (addressNorms locations) minCaptured minPoints,
          nn = brute locations (addressNorms locations)) ∧
      ∀ norms : List ℝ, brute locations norms = (List.range locations.length).map (bruteOne locations norms) ∧
        ∀ i, (bruteOne locations norms i = none ↔ norms.getD i 0 < tiny ∨ usable locations norms i = ∅) ∧
          ∀ j s, bruteOne locations norms i = some (j, s) ↔
            tiny ≤ norms.getD i 0 ∧ j ∈ usable locations norms i ∧ s = sim locations norms i j ∧
              ∀ j' ∈ usable locations norms i, sim locations norms i j' < sim locations norms i j ∨
                sim locations norms i j' = sim locations norms i j ∧ j ≤ j' := by
  refine ⟨fun minCaptured minPoints nn h => projected_eq_brute h, fun norms => ⟨brute_eq locations norms, fun i => ?_⟩⟩
  have hnearest := isNearest_bruteOne locations norms i
  rcases lt_or_ge (norms.getD i 0) tiny with hlt | hge
  · rw [hnearest.undirected hlt]
    exact ⟨iff_of_true rfl (Or.inl hlt), fun j s => iff_of_false (by simp) fun h => absurd h.1 (not_le.mpr hlt)⟩
  · have hfirst := hnearest.first hge
    refine ⟨⟨fun hnone => Or.inr ?_, fun h => ?_⟩, fun j s => ⟨fun hsome => ⟨hge, ?_⟩, fun h => ?_⟩⟩
    · rw [hnone] at hfirst
      exact hfirst
    · exact FirstBest.unique hfirst (h.resolve_left (not_lt.mpr hge))
    · rw [hsome] at hfirst
      exact hfirst
    · exact FirstBest.unique hfirst h.2

/-- Two locations with one direction and one against it are found in the
projection, as by brute force. -/
theorem projected_exact_line : ∃ _ : SeededUniform ℝ, ∃ nn,
    projectedWith (axisCloud 1 1 (-1)) (addressNorms (axisCloud 1 1 (-1))) (1 / 2) 2 = some nn ∧
      nn = brute (axisCloud 1 1 (-1)) (addressNorms (axisCloud 1 1 (-1))) := by
  refine ⟨{ uniform := fun n => if n = 0 then 1 / 2 else 0 }, ?_⟩
  let _ : SeededUniform ℝ := { uniform := fun n => if n = 0 then 1 / 2 else 0 }
  have hnorms : addressNorms (axisCloud 1 1 (-1)) = [1, 1, 1] := by
    simp [addressNorms, axisCloud, HardLocation.new, l2Norm_onAxis]
  have hsome := projectedWith_axisCloud (fun _ => rfl) 1 1 (-1) (by norm_num : (1 + 1 + (-1)) / 3 = (1 / 3 : ℝ))
    (by norm_num)
  rw [← hnorms] at hsome
  exact ⟨_, hsome, (projected_exact _).1 _ _ _ hsome⟩

/-- **Under other norms than the addresses' own** the two may differ: of three
locations on a line the one taken to have a norm ten times too small is the most
similar, but not within the radius. -/
theorem projected_other_norms : ¬ ∀ (_ : SeededUniform ℝ) (locations : List (HardLocation ℝ)) (norms : List ℝ)
    (minCaptured : ℝ) (minPoints : ℕ), ∀ nn ∈ projectedWith locations norms minCaptured minPoints,
      nn = brute locations norms := by
  intro h
  let _ : SeededUniform ℝ := { uniform := fun n => if n = 0 then 1 / 2 else 0 }
  have hsome := projectedWith_axisCloud (fun _ => rfl) 1 1 10 (by norm_num : (1 + 1 + 10) / 3 = (4 : ℝ)) (by norm_num)
  have hsame := h _ _ _ _ _ _ hsome
  rw [brute_eq] at hsame
  have hfirst := congrArg (·[0]?) hsame
  have hsim : ∀ j < 3, sim (axisCloud 1 1 10) [1, 1, 1] 0 j = ([1, 1, 10] : List ℝ).getD j 0 := fun j hj => by
    rw [sim_axisCloud _ _ _ (by decide) hj]
    simp
  have hbrute : bruteOne (axisCloud 1 1 10) [1, 1, 1] 0 = some (2, 10) := by
    have hdirected : lt (1 : ℝ) minNorm = false := decide_eq_false (by norm_num [minNorm])
    have hlt : lt (1 : ℝ) 10 = true := decide_eq_true (by norm_num)
    have habove : ∀ x : ℝ, aboveNegInf x = true := fun _ => rfl
    simp [bruteOne, scanColumns, List.range_succ_eq_map, hdirected, consider, hsim, habove, hlt]
  -- in the projection the nearest is the twin at distance 0, and a radius around it leaves out the third
  obtain ⟨pts, hpts⟩ : ∃ pts : List (List ℝ), pts = [[1 - 4], [1 - 4], [10 - 4]] := ⟨_, rfl⟩
  rw [← hpts] at hfirst
  have hquery : pts.getD 0 [] = [1 - 4] := by rw [hpts]; rfl
  have hdist : ∀ p < 3, KdTree.dist2 pts [1 - 4] p = ([0, 0, 81] : List ℝ).getD p 0 := by
    intro p hp
    rw [hpts]
    interval_cases p <;> (simp [KdTree.dist2, sum_real]; try norm_num)
  have hnearest : KdTree.nearestExcluding pts (.leaf [0, 1, 2]) [1 - 4] 0 = some 1 := by
    have hbelow : belowInf (0 : ℝ) = true := rfl
    have hlt : lt (81 : ℝ) 0 = false := decide_eq_false (by norm_num)
    simp [KdTree.nearestExcluding, KdTree.nearestIn, hdist, hbelow, hlt]
  have hwithin : KdTree.within pts [1 - 4] slack (.leaf [0, 1, 2]) = [0, 1] := by
    have hnear : le (0 : ℝ) slack = true := le_real.mpr (by simp [slack])
    have hfar : le (81 : ℝ) slack = false := decide_eq_false (by norm_num [slack])
    simp [KdTree.within, hdist, hnear, hfar]
  have hprojected : projectedOne (axisCloud 1 1 10) [1, 1, 1] [0, 1, 2] pts (.leaf [0, 1, 2]) 0 = some (1, 1) := by
    have hradius : fmax (lit 2 - lit 2 * (1 : ℝ)) (lit 0) + slack = slack := by simp
    have habove : aboveNegInf (1 : ℝ) = true := rfl
    have hlt : lt (1 : ℝ) 1 = false := decide_eq_false (lt_irrefl 1)
    simp only [projectedOne, hquery, hnearest, List.getD_cons_zero, List.getD_cons_succ, hsim 1 (by decide), hradius, hwithin]
    simp [consider, hsim, habove, hlt]
  simp [List.range_succ_eq_map, hprojected, hbrute] at hfirst

end HeatherDb
