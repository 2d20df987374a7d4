/-
# Gram–Schmidt on lists

Lists of orthonormal vectors of a real inner product space, grown one vector
at a time: a vector is taken less its parts along the list, one after another
(`deflate`), and what is left, if anything, is scaled to unit length and put
at the end. Coordinates along such a list never lengthen a vector.

Key definitions: `Orthonormals`, `deflate`.
Key theorems: `inner_deflate`, `Orthonormals.snoc`, `Orthonormals.sum_sq_le`.
-/
import Mathlib.Analysis.InnerProductSpace.Orthonormal

namespace GramSchmidt

open scoped InnerProductSpace

variable {E : Type} [NormedAddCommGroup E] [InnerProductSpace ℝ E]

/-- Unit vectors, each orthogonal to the others. -/
structure Orthonormals (l : List E) : Prop where
  unit : ∀ b ∈ l, ‖b‖ = 1
  orthogonal : l.Pairwise fun a b => ⟪a, b⟫_ℝ = 0

/-- A vector less its parts along the list, one after another. -/
noncomputable def deflate (l : List E) (v : E) : E := l.foldl (fun v b => v - ⟪v, b⟫_ℝ • b) v

theorem Orthonormals.nil : Orthonormals ([] : List E) := ⟨by simp, List.Pairwise.nil⟩

theorem Orthonormals.tail {b : E} {l : List E} (h : Orthonormals (b :: l)) : Orthonormals l :=
  ⟨fun b' hb' => h.unit b' (List.mem_cons_of_mem b hb'), (List.pairwise_cons.mp h.orthogonal).2⟩

/-- What is orthogonal to a vector stays so when parts orthogonal to it go. -/
theorem inner_deflate_eq {c : E} : ∀ {l : List E} {v : E}, (∀ b ∈ l, ⟪b, c⟫_ℝ = 0) →
    ⟪deflate l v, c⟫_ℝ = ⟪v, c⟫_ℝ
  | [], _, _ => rfl
  | b :: l, v, h => by
    have hb : ⟪b, c⟫_ℝ = 0 := h b List.mem_cons_self
    have ih : ⟪deflate l (v - ⟪v, b⟫_ℝ • b), c⟫_ℝ = ⟪v - ⟪v, b⟫_ℝ • b, c⟫_ℝ :=
      inner_deflate_eq fun b' hb' => h b' (List.mem_cons_of_mem b hb')
    rw [deflate, List.foldl_cons, ← deflate, ih, inner_sub_left, real_inner_smul_left, hb, mul_zero, sub_zero]

/-- **What is left is orthogonal to the list.** -/
theorem inner_deflate : ∀ {l : List E} {v : E}, Orthonormals l → ∀ b ∈ l, ⟪deflate l v, b⟫_ℝ = 0
  | b :: l, v, h, c, hc => by
    rw [deflate, List.foldl_cons, ← deflate]
    rcases List.mem_cons.mp hc with rfl | hc
    · have hother : ∀ b' ∈ l, ⟪b', c⟫_ℝ = 0 := fun b' hb' => by
        rw [real_inner_comm]
        exact (List.pairwise_cons.mp h.orthogonal).1 b' hb'
      have hself : ⟪c, c⟫_ℝ = 1 := by
        rw [real_inner_self_eq_norm_sq, h.unit c List.mem_cons_self, one_pow]
      rw [inner_deflate_eq hother, inner_sub_left, real_inner_smul_left, hself, mul_one, sub_self]
    · exact inner_deflate h.tail c hc

/-- One more vector, scaled to unit length. -/
theorem Orthonormals.snoc {l : List E} (h : Orthonormals l) {v : E} (hv : v ≠ 0)
    (horth : ∀ b ∈ l, ⟪v, b⟫_ℝ = 0) : Orthonormals (l ++ [‖v‖⁻¹ • v]) where
  unit b hb := by
    rcases List.mem_append.mp hb with hb | hb
    · exact h.unit b hb
    · rw [List.mem_singleton.mp hb]
      rw [norm_smul, norm_inv, norm_norm, inv_mul_cancel₀ (norm_ne_zero_iff.mpr hv)]
  orthogonal := by
    refine List.pairwise_append.mpr ⟨h.orthogonal, List.pairwise_singleton _ _, fun b hb c hc => ?_⟩
    rw [List.mem_singleton.mp hc, real_inner_smul_right, real_inner_comm, horth b hb, mul_zero]

/-- **Coordinates never lengthen a vector.** -/
theorem Orthonormals.sum_sq_le {l : List E} (h : Orthonormals l) (x : E) :
    (l.map fun b => ⟪b, x⟫_ℝ ^ 2).sum ≤ ‖x‖ ^ 2 := by
  have horth : Orthonormal ℝ fun i : Fin l.length => l[i] := by
    refine ⟨fun i => h.unit _ (List.getElem_mem i.isLt), fun i j hne => ?_⟩
    rcases Nat.lt_or_gt_of_ne (Fin.val_ne_of_ne hne) with hlt | hlt
    · exact List.pairwise_iff_getElem.mp h.orthogonal i j i.isLt j.isLt hlt
    · rw [real_inner_comm]
      exact List.pairwise_iff_getElem.mp h.orthogonal j i j.isLt i.isLt hlt
  have hbessel := horth.sum_inner_products_le x (s := Finset.univ)
  calc (l.map fun b => ⟪b, x⟫_ℝ ^ 2).sum
      = ∑ i : Fin l.length, ⟪l[i], x⟫_ℝ ^ 2 := (Fin.sum_univ_fun_getElem l fun b => ⟪b, x⟫_ℝ ^ 2).symm
    _ = ∑ i : Fin l.length, ‖⟪l[i], x⟫_ℝ‖ ^ 2 := Finset.sum_congr rfl fun i _ => by
        rw [Real.norm_eq_abs, sq_abs]
    _ ≤ ‖x‖ ^ 2 := hbessel

end GramSchmidt
