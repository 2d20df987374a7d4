/-
# Real arithmetic

The engine's programs in exact arithmetic: the reals as a number format, on
which nothing is rounded and everything is a finite number, and vectors of `d`
entries as points of Euclidean space. A dot product is the inner product there,
`l2Norm` the norm, and `addScaled` and `normalize` act as they do on points, so
that what holds of a merge or an attention read in exact arithmetic is a
statement about points.

Key definitions: the instance `Scalar ℝ`, `vec`.
Key theorems: `dot_eq_inner`, `l2Norm_eq_norm`, `vec_addScaled`, `vec_normalize`.
-/
import Mathlib.Analysis.InnerProductSpace.PiL2
import Mathlib.Analysis.SpecialFunctions.Log.Base
import Mathlib.Data.List.GetD
import HeatherDb.VecOps

namespace HeatherDb

open Scalar

/-! ### The reals as a format -/

/-- What the literal `2` carries. -/
instance atLeastTwo_two : Nat.AtLeastTwo 2 := ⟨le_rfl⟩

/-- What the literal `10` carries. -/
instance atLeastTwo_ten : Nat.AtLeastTwo 10 := ⟨by decide⟩

open Classical in
noncomputable instance : Scalar ℝ where
  lit q := (q : ℝ)
  sqrt := Real.sqrt
  log2 := Real.logb 2
  ln := Real.log
  lt x y := decide (x < y)
  le x y := decide (x ≤ y)
  eq x y := decide (x = y)
  totalCmp x y := if x < y then .lt else if x = y then .eq else .gt
  isFinite _ := true
  aboveNegInf _ := true
  belowInf _ := true
  ceilUsize x := ⌈x⌉₊
  display _ := ""
  eq_symm h := decide_eq_true (of_decide_eq_true h).symm
  eq_trans h h' := decide_eq_true ((of_decide_eq_true h).trans (of_decide_eq_true h'))

noncomputable instance : Narrow ℝ ℝ where
  toF32 := id
  toF64 := id

@[simp] theorem lit_real (q : ℚ) : (lit q : ℝ) = q := rfl

@[simp] theorem sqrt_real (x : ℝ) : sqrt x = Real.sqrt x := rfl

@[simp] theorem log2_real (x : ℝ) : log2 x = Real.logb 2 x := rfl

@[simp] theorem ln_real (x : ℝ) : ln x = Real.log x := rfl

@[simp] theorem isFinite_real (x : ℝ) : isFinite x = true := rfl

@[simp] theorem ofUsize_real (n : ℕ) : (ofUsize n : ℝ) = n := by simp [ofUsize]

theorem lt_real {x y : ℝ} : lt x y = true ↔ x < y := decide_eq_true_iff

theorem le_real {x y : ℝ} : le x y = true ↔ x ≤ y := decide_eq_true_iff

@[simp] theorem fmax_real (x y : ℝ) : fmax x y = max x y := by
  have heq : eq x x = true := decide_eq_true rfl
  unfold fmax
  rw [heq, Bool.not_true, Bool.or_false]
  by_cases h : x < y
  · rw [if_pos (lt_real.mpr h), max_eq_right h.le]
  · rw [if_neg (mt lt_real.mp h), max_eq_left (not_lt.mp h)]

@[simp] theorem fmin_real (x y : ℝ) : fmin x y = min x y := by
  have heq : eq x x = true := decide_eq_true rfl
  unfold fmin
  rw [heq, Bool.not_true, Bool.or_false]
  by_cases h : y < x
  · rw [if_pos (lt_real.mpr h), min_eq_right h.le]
  · rw [if_neg (mt lt_real.mp h), min_eq_left (not_lt.mp h)]

theorem sum_real (l : List ℝ) : sum l = l.sum := by
  have hfold : ∀ (l : List ℝ) (x : ℝ), l.foldl (· + ·) x = x + l.sum := by
    intro l
    induction l with
    | nil => simp
    | cons y l ih =>
      intro x
      rw [List.foldl_cons, ih, List.sum_cons, add_assoc]
  exact (hfold l _).trans (by simp)

/-! ### Vectors as points -/

variable {d : ℕ} {v w : List ℝ}

/-- A vector of `d` entries as a point. -/
noncomputable def vec (d : ℕ) (v : List ℝ) : EuclideanSpace ℝ (Fin d) := WithLp.toLp 2 fun i => v.getD i 0

@[simp] theorem vec_apply (d : ℕ) (v : List ℝ) (i : Fin d) : vec d v i = v.getD i 0 := rfl

theorem vec_injective (hv : v.length = d) (hw : w.length = d) (h : vec d v = vec d w) : v = w := by
  refine List.ext_getElem (hv.trans hw.symm) fun i hi hi' => ?_
  have hentry : vec d v ⟨i, hv ▸ hi⟩ = vec d w ⟨i, hv ▸ hi⟩ := by rw [h]
  rwa [vec_apply, vec_apply, List.getD_eq_getElem _ _ hi, List.getD_eq_getElem _ _ hi'] at hentry

/-- Sums over the entries. -/
theorem sum_zipWith_eq (f : ℝ → ℝ → ℝ) (hv : v.length = d) (hw : w.length = d) :
    (List.zipWith f v w).sum = ∑ i : Fin d, f (vec d v i) (vec d w i) := by
  have hlength : d = (List.zipWith f v w).length := by simp [hv, hw]
  rw [← Fin.sum_univ_getElem]
  subst hlength
  refine Finset.sum_congr rfl fun i _ => ?_
  have hi : (i : ℕ) < v.length := i.isLt.trans_eq hv.symm
  have hi' : (i : ℕ) < w.length := i.isLt.trans_eq hw.symm
  simp [hi, hi']

theorem dot_eq_inner (hv : v.length = d) (hw : w.length = d) : dot v w = inner ℝ (vec d v) (vec d w) := by
  rw [dot, sum_real, sum_zipWith_eq _ hv hw, PiLp.inner_apply]
  refine Finset.sum_congr rfl fun i _ => ?_
  rw [RCLike.inner_apply, conj_trivial]
  exact mul_comm _ _

theorem dot_comm_real (v w : List ℝ) : dot v w = dot w v := by
  unfold dot
  rw [List.zipWith_comm_of_comm]
  exact mul_comm

theorem l2Norm_eq_norm (hv : v.length = d) : l2Norm v = ‖vec d v‖ := by
  rw [l2Norm, dot_eq_inner hv hv, sqrt_real, real_inner_self_eq_norm_sq, Real.sqrt_sq (norm_nonneg _)]

theorem l2Norm_singleton {x : ℝ} (hx : 0 ≤ x) : l2Norm [x] = x := by
  have hdot : dot [x] [x] = x ^ 2 := by
    rw [dot, sum_real]
    simp [sq]
  rw [l2Norm, hdot, sqrt_real, Real.sqrt_sq hx]

theorem vec_zipWith {f : ℝ → ℝ → ℝ} {a b : ℝ} (hf : ∀ x y, f x y = a * x + b * y) (hv : v.length = d)
    (hw : w.length = d) : vec d (List.zipWith f v w) = a • vec d v + b • vec d w := by
  ext i
  have hi : (i : ℕ) < v.length := hv ▸ i.isLt
  have hi' : (i : ℕ) < w.length := hw ▸ i.isLt
  simp [hi, hi', hf]

theorem vec_map {f : ℝ → ℝ} {a : ℝ} (hf : ∀ x, f x = a * x) (hv : v.length = d) : vec d (v.map f) = a • vec d v := by
  ext i
  have hi : (i : ℕ) < v.length := hv ▸ i.isLt
  simp [hi, hf]

@[simp] theorem vec_replicate_zero (d : ℕ) : vec d (List.replicate d 0) = 0 := by
  ext i
  simp

theorem vec_addScaled (hv : v.length = d) (hw : w.length = d) (s : ℝ) :
    vec d (addScaled v w s) = vec d v + s • vec d w := by
  have hdrop : v.drop w.length = [] := List.drop_eq_nil_of_le (hv.trans hw.symm).le
  have h := vec_zipWith (a := 1) (b := s) (f := fun x y => x + s * y) (fun x y => by rw [one_mul]) hv hw
  rw [one_smul] at h
  rw [addScaled, hdrop, List.append_nil]
  exact h

/-- Vectors shorter than this are not normalized. -/
noncomputable def tiny : ℝ := 1 / 10 ^ 12

theorem tiny_pos : 0 < tiny := by unfold tiny; positivity

theorem tiny_lt_one : tiny < 1 := by
  unfold tiny
  norm_num

theorem lit_tiny : (lit (1 / 10 ^ 12) : ℝ) = tiny := by
  rw [lit_real, tiny]
  norm_num

theorem vec_normalize_of_lt (hv : v.length = d) (h : ‖vec d v‖ < tiny) : normalize v = v := by
  rw [normalize, lit_tiny, if_pos (lt_real.mpr (l2Norm_eq_norm hv ▸ h))]

theorem vec_normalize (hv : v.length = d) (h : tiny ≤ ‖vec d v‖) : vec d (normalize v) = ‖vec d v‖⁻¹ • vec d v := by
  rw [normalize, lit_tiny, if_neg (mt lt_real.mp (not_lt.mpr (l2Norm_eq_norm hv ▸ h))), ← l2Norm_eq_norm hv]
  exact vec_map (fun x => (div_eq_inv_mul x _)) hv

/-- A normalized vector is a unit vector or was tiny. -/
theorem norm_vec_normalize (hv : v.length = d) (h : tiny ≤ ‖vec d v‖) : ‖vec d (normalize v)‖ = 1 := by
  have hpos : 0 < ‖vec d v‖ := tiny_pos.trans_le h
  rw [vec_normalize hv h, norm_smul, norm_inv, norm_norm, inv_mul_cancel₀ hpos.ne']

theorem norm_vec_normalize_le (hv : v.length = d) : ‖vec d (normalize v)‖ ≤ 1 := by
  rcases lt_or_ge ‖vec d v‖ tiny with h | h
  · rw [vec_normalize_of_lt hv h]
    exact (h.trans tiny_lt_one).le
  · exact (norm_vec_normalize hv h).le

/-- A number of square 1 as a vector. -/
theorem normalize_unit {x : ℝ} (hx : x * x = 1) : normalize [x] = [x] := by
  have hnorm : l2Norm [x] = 1 := by simp [l2Norm, dot, sum_real, hx]
  rw [normalize, hnorm, if_neg, List.map_singleton, div_one]
  rw [lt_real, lit_tiny]
  exact tiny_lt_one.not_gt

theorem cosineSimilarity_unit {x y : ℝ} (hx : x * x = 1) (hy : y * y = 1) : cosineSimilarity [x] [y] = x * y := by
  have hnorm : ∀ {z : ℝ}, z * z = 1 → l2Norm [z] = 1 := fun hz => by simp [l2Norm, dot, sum_real, hz]
  have hsmall : lt (1 : ℝ) (lit (1 / 10 ^ 12)) = false := by
    rw [Bool.eq_false_iff, ne_eq, lt_real, lit_tiny]
    exact tiny_lt_one.not_gt
  rw [cosineSimilarity, hnorm hx, hnorm hy, hsmall]
  simp [dot, sum_real]

end HeatherDb
