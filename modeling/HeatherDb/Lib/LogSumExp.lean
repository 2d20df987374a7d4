/-
# The log-sum-exp potential

The logarithm of a sum of exponentials is a smooth maximum: it lies between the
greatest number and that plus `log n / β` (`le_smoothMax`, `smoothMax_le`).

A list of keys in an inner product space gives every point a potential, the
smooth maximum of its products with the keys. Its gradient is the mean of the
keys by their Gibbs weights, and it is convex: it lies above its tangents
(`potential_tangent`).

So from a unit vector the step to the mean, normalized, climbs the potential, by
the length of the mean times what the step turns away (`climbs`), and the mean
is no shorter than what the potential exceeds `log n / β` by (`le_norm_mean`).

Key definitions: `smoothMax`, `potential`, `gibbs`, `mean`.
Key theorems: `potential_tangent`, `climbs`, `le_norm_mean`, `exists_near`.
-/
import Mathlib.Algebra.BigOperators.Ring.List
import Mathlib.Algebra.Order.BigOperators.Group.List
import Mathlib.Analysis.InnerProductSpace.LinearMap
import Mathlib.Analysis.SpecialFunctions.Log.Basic

namespace LogSumExp

open Real RealInnerProductSpace

variable {E : Type*} [NormedAddCommGroup E] [InnerProductSpace ℝ E] {β : ℝ} {keys keys' : List E} {x y : E}

/-! ### The smooth maximum -/

section smoothMax

variable {xs : List ℝ} {m : ℝ}

/-- The logarithm of the sum of the exponentials. -/
noncomputable def smoothMax (β : ℝ) (xs : List ℝ) : ℝ := log (xs.map fun s => exp (s * β)).sum / β

theorem sum_exp_pos (hne : xs ≠ []) (β : ℝ) : 0 < (xs.map fun s => exp (s * β)).sum :=
  List.sum_pos _ (List.forall_mem_map.mpr fun _ _ => exp_pos _) (mt List.map_eq_nil_iff.mp hne)

theorem le_smoothMax (hβ : 0 < β) {s : ℝ} (hs : s ∈ xs) : s ≤ smoothMax β xs := by
  have hle : exp (s * β) ≤ (xs.map fun s => exp (s * β)).sum :=
    List.single_le_sum (List.forall_mem_map.mpr fun _ _ => (exp_pos _).le) _ (List.mem_map_of_mem hs)
  rw [smoothMax, le_div_iff₀ hβ, ← log_exp (s * β)]
  exact log_le_log (exp_pos _) hle

theorem smoothMax_le (hβ : 0 < β) (hne : xs ≠ []) (h : ∀ s ∈ xs, s ≤ m) : smoothMax β xs ≤ m + log xs.length / β := by
  have hlength : (0 : ℝ) < xs.length := Nat.cast_pos.mpr (List.length_pos_iff.mpr hne)
  have hle : (xs.map fun s => exp (s * β)).sum ≤ xs.length * exp (m * β) := by
    have hle := List.sum_le_card_nsmul (xs.map fun s => exp (s * β)) (exp (m * β))
      (List.forall_mem_map.mpr fun s hs => exp_le_exp.mpr (mul_le_mul_of_nonneg_right (h s hs) hβ.le))
    rwa [List.length_map, nsmul_eq_mul] at hle
  calc smoothMax β xs ≤ log (xs.length * exp (m * β)) / β :=
        div_le_div_of_nonneg_right (log_le_log (sum_exp_pos hne β) hle) hβ.le
    _ = m + log xs.length / β := by
        rw [log_mul hlength.ne' (exp_pos _).ne', log_exp, add_div, mul_div_cancel_right₀ _ hβ.ne', add_comm]

/-- A number may be taken out of all. -/
theorem smoothMax_shift (hne : xs ≠ []) (m β : ℝ) :
    (m * β + log (xs.map fun s => exp ((s - m) * β)).sum) / β = smoothMax β xs := by
  have hshift : (xs.map fun s => exp ((s - m) * β)).sum = (xs.map fun s => exp (s * β)).sum * exp (-(m * β)) := by
    rw [← List.sum_map_mul_right]
    refine congrArg List.sum (List.map_congr_left fun s _ => ?_)
    rw [← exp_add, sub_mul, sub_eq_add_neg]
  rw [hshift, log_mul (sum_exp_pos hne β).ne' (exp_pos _).ne', log_exp, smoothMax, add_neg_cancel_comm_assoc]

end smoothMax

/-! ### The potential -/

/-- The sum of the exponentials. -/
noncomputable def partition (β : ℝ) (keys : List E) (x : E) : ℝ := (keys.map fun a => exp (⟪x, a⟫ * β)).sum

/-- The smooth maximum of the products with the keys. -/
noncomputable def potential (β : ℝ) (keys : List E) (x : E) : ℝ := log (partition β keys x) / β

/-- The weight of a key. -/
noncomputable def gibbs (β : ℝ) (keys : List E) (x a : E) : ℝ := exp (⟪x, a⟫ * β) / partition β keys x

/-- The mean of the keys by their weights. -/
noncomputable def mean (β : ℝ) (keys : List E) (x : E) : E := (keys.map fun a => gibbs β keys x a • a).sum

theorem potential_eq (β : ℝ) (keys : List E) (x : E) :
    potential β keys x = smoothMax β (keys.map fun a => ⟪x, a⟫) := by
  rw [potential, partition, smoothMax, List.map_map]
  rfl

theorem partition_pos (hne : keys ≠ []) (β : ℝ) (x : E) : 0 < partition β keys x := by
  refine List.sum_pos _ (List.forall_mem_map.mpr fun _ _ => exp_pos _) ?_
  exact mt List.map_eq_nil_iff.mp hne

theorem le_potential (hβ : 0 < β) {a : E} (ha : a ∈ keys) : ⟪x, a⟫ ≤ potential β keys x := by
  rw [potential_eq]
  exact le_smoothMax hβ (List.mem_map_of_mem (f := fun a => ⟪x, a⟫) ha)

theorem potential_le (hβ : 0 < β) (hne : keys ≠ []) {m : ℝ} (h : ∀ a ∈ keys, ⟪x, a⟫ ≤ m) :
    potential β keys x ≤ m + log keys.length / β := by
  have hle := smoothMax_le hβ (mt List.map_eq_nil_iff.mp hne) (List.forall_mem_map.mpr h)
  rwa [List.length_map, ← potential_eq] at hle

/-- Some key is about as near as the potential says. -/
theorem exists_near (hβ : 0 < β) (hne : keys ≠ []) (x : E) :
    ∃ a ∈ keys, potential β keys x - log keys.length / β ≤ ⟪x, a⟫ := by
  have hlength : (0 : ℝ) < keys.length := Nat.cast_pos.mpr (List.length_pos_iff.mpr hne)
  have hZ := partition_pos hne β x
  -- one of the exponentials is at least their average
  obtain ⟨a, ha, hle⟩ := List.exists_le_of_sum_le hne (fun _ => partition β keys x / keys.length)
    (fun a => exp (⟪x, a⟫ * β)) (by
      rw [List.map_const', List.sum_replicate, nsmul_eq_mul, mul_div_cancel₀ _ hlength.ne']
      exact le_rfl)
  refine ⟨a, ha, ?_⟩
  have hlog := log_le_log (div_pos hZ hlength) hle
  rw [log_exp, log_div hZ.ne' hlength.ne'] at hlog
  rw [potential, ← sub_div, div_le_iff₀ hβ]
  exact hlog

/-- At the origin all keys are alike. -/
theorem potential_zero (β : ℝ) (keys : List E) : potential β keys 0 = log keys.length / β := by
  rw [potential, partition]
  simp

/-! ### The gradient -/

theorem sum_gibbs (hne : keys ≠ []) (β : ℝ) (x : E) : (keys.map (gibbs β keys x)).sum = 1 := by
  have hsum : (keys.map (gibbs β keys x)).sum = partition β keys x / partition β keys x := by
    rw [div_eq_mul_inv, partition, ← List.sum_map_mul_right]
    rfl
  rw [hsum, div_self (partition_pos hne β x).ne']

theorem inner_mean (β : ℝ) (keys : List E) (x y : E) :
    ⟪y, mean β keys x⟫ = (keys.map fun a => gibbs β keys x a * ⟪y, a⟫).sum := by
  rw [← innerSL_apply_apply ℝ, mean, map_list_sum, List.map_map]
  refine congrArg List.sum (List.map_congr_left fun a _ => ?_)
  rw [Function.comp_apply, innerSL_apply_apply, real_inner_smul_right]

/-- **The potential lies above its tangents.** -/
theorem potential_tangent (hβ : 0 < β) (hne : keys ≠ []) (x y : E) :
    potential β keys x + ⟪y - x, mean β keys x⟫ ≤ potential β keys y := by
  set m := ⟪y - x, mean β keys x⟫ with hm
  have hZ := partition_pos hne β x
  -- each exponential lies above the tangent of the exponential at the mean
  have hterm : ∀ a ∈ keys, exp (⟪x, a⟫ * β) * (exp (m * β) * (1 + (⟪y - x, a⟫ - m) * β)) ≤ exp (⟪y, a⟫ * β) := fun a _ => by
    have hsplit : ⟪y, a⟫ * β = ⟪x, a⟫ * β + (m * β + (⟪y - x, a⟫ - m) * β) := by
      rw [inner_sub_left]
      ring
    rw [hsplit, exp_add, exp_add]
    refine mul_le_mul_of_nonneg_left (mul_le_mul_of_nonneg_left ?_ (exp_pos _).le) (exp_pos _).le
    rw [add_comm]
    exact add_one_le_exp _
  have hsum : (keys.map fun a => exp (⟪x, a⟫ * β) * (exp (m * β) * (1 + (⟪y - x, a⟫ - m) * β))).sum =
      partition β keys x * exp (m * β) := by
    have hgibbs : ∀ a ∈ keys, exp (⟪x, a⟫ * β) * (exp (m * β) * (1 + (⟪y - x, a⟫ - m) * β)) =
        (partition β keys x * exp (m * β)) *
          (gibbs β keys x a * (1 - m * β) + gibbs β keys x a * ⟪y - x, a⟫ * β) := fun a _ => by
      rw [gibbs]
      field_simp
      ring
    rw [List.map_congr_left hgibbs, List.sum_map_mul_left, List.sum_map_add, List.sum_map_mul_right,
      List.sum_map_mul_right, sum_gibbs hne, ← inner_mean, ← hm]
    ring
  have hle : partition β keys x * exp (m * β) ≤ partition β keys y := by
    rw [← hsum]
    exact List.sum_le_sum hterm
  have hlog := log_le_log (mul_pos hZ (exp_pos _)) hle
  rw [log_mul hZ.ne' (exp_pos _).ne', log_exp] at hlog
  rw [potential, potential, le_div_iff₀ hβ, add_mul, div_mul_cancel₀ _ hβ.ne']
  exact hlog

/-- The mean is no shorter than what the potential exceeds that of the origin by. -/
theorem le_norm_mean (hβ : 0 < β) (hne : keys ≠ []) (hx : ‖x‖ = 1) :
    potential β keys x - log keys.length / β ≤ ‖mean β keys x‖ := by
  have htangent := potential_tangent hβ hne x 0
  rw [potential_zero, zero_sub, inner_neg_left] at htangent
  have hcauchy := real_inner_le_norm x (mean β keys x)
  rw [hx, one_mul] at hcauchy
  linarith

/-- **A step to the mean climbs.** -/
theorem climbs (hβ : 0 < β) (hne : keys ≠ []) (hmean : mean β keys x ≠ 0)
    (hy : y = ‖mean β keys x‖⁻¹ • mean β keys x) :
    potential β keys x + ‖mean β keys x‖ * (1 - ⟪x, y⟫) ≤ potential β keys y := by
  have hnorm : ‖mean β keys x‖ ≠ 0 := norm_ne_zero_iff.mpr hmean
  have hback : mean β keys x = ‖mean β keys x‖ • y := by
    rw [hy, smul_smul, mul_inv_cancel₀ hnorm, one_smul]
  have hunit : ‖y‖ = 1 := by
    rw [hy, norm_smul, norm_inv, norm_norm, inv_mul_cancel₀ hnorm]
  have hstep : ⟪y - x, mean β keys x⟫ = ‖mean β keys x‖ * (1 - ⟪x, y⟫) := by
    rw [hback, real_inner_smul_right, inner_sub_left, real_inner_self_eq_norm_sq, hunit, one_pow, ← hback]
  rw [← hstep]
  exact potential_tangent hβ hne x y

end LogSumExp
