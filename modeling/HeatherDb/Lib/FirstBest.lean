/-
# The first of the greatest

A scan that keeps the best candidate so far, of equally good ones the first,
ends at the greatest candidate with the lowest index (`IsFirst`), whichever way
it was scanned for: there is at most one (`unique`), a candidate after the
others is kept or not by one comparison (`push`), and candidates that are worse
than the best may be left out (`extend`).

Key definition: `IsFirst`.
Key theorems: `unique`, `push`, `extend`.
-/
import Mathlib.Order.Nat
import Mathlib.Data.Set.Insert

namespace FirstBest

variable {K : Type} [LinearOrder K] {f : ℕ → K} {S T : Set ℕ}

/-- The greatest of the candidates and its value, the first of several;
`none` where there is no candidate. -/
def IsFirst (f : ℕ → K) (S : Set ℕ) : Option (ℕ × K) → Prop
  | none => S = ∅
  | some (j, s) => j ∈ S ∧ s = f j ∧ ∀ j' ∈ S, f j' < f j ∨ f j' = f j ∧ j ≤ j'

theorem isFirst_none : IsFirst f ∅ none := rfl

/-- **There is at most one.** -/
theorem unique : ∀ {r r' : Option (ℕ × K)}, IsFirst f S r → IsFirst f S r' → r = r'
  | none, none, _, _ => rfl
  | none, some (j, s), h, h' => absurd h'.1 (h ▸ Set.notMem_empty j)
  | some (j, s), none, h, h' => absurd h.1 (h' ▸ Set.notMem_empty j)
  | some (j, s), some (j', s'), ⟨hj, hs, hbest⟩, ⟨hj', hs', hbest'⟩ => by
    have hidx : j = j' := by
      rcases hbest j' hj' with hlt | ⟨heq, hle⟩
      · rcases hbest' j hj with hlt' | ⟨heq', -⟩
        · exact absurd hlt' hlt.asymm
        · exact absurd heq' hlt.ne'
      · rcases hbest' j hj with hlt' | ⟨-, hle'⟩
        · exact absurd heq hlt'.ne'
        · exact le_antisymm hle hle'
    rw [hs, hs', hidx]

/-- A candidate after the others takes the place of the best only if better. -/
theorem push {r : Option (ℕ × K)} (h : IsFirst f S r) {j : ℕ} (hafter : ∀ j' ∈ S, j' ≤ j) :
    IsFirst f (insert j S)
      (match r with
      | none => some (j, f j)
      | some b => if b.2 < f j then some (j, f j) else some b) := by
  cases r with
  | none =>
    obtain rfl : S = ∅ := h
    refine ⟨Set.mem_insert j ∅, rfl, fun j' hj' => ?_⟩
    rw [Set.mem_insert_iff, Set.mem_empty_iff_false, or_false] at hj'
    exact Or.inr ⟨hj' ▸ rfl, hj'.ge⟩
  | some b =>
    obtain ⟨i, s⟩ := b
    obtain ⟨hi, rfl, hbest⟩ := h
    dsimp only
    by_cases hlt : f i < f j
    · rw [if_pos hlt]
      refine ⟨Set.mem_insert j S, rfl, fun j' hj' => ?_⟩
      rcases Set.mem_insert_iff.mp hj' with rfl | hj'
      · exact Or.inr ⟨rfl, le_rfl⟩
      · rcases hbest j' hj' with hless | ⟨heq, -⟩
        · exact Or.inl (hless.trans hlt)
        · exact Or.inl (heq ▸ hlt)
    · rw [if_neg hlt]
      refine ⟨Set.mem_insert_of_mem j hi, rfl, fun j' hj' => ?_⟩
      rcases Set.mem_insert_iff.mp hj' with rfl | hj'
      · rcases (not_lt.mp hlt).lt_or_eq with hless | heq
        · exact Or.inl hless
        · exact Or.inr ⟨heq, hafter i hi⟩
      · exact hbest j' hj'

/-- The candidates below an index and the next one. -/
theorem below_succ {P : ℕ → Prop} {m : ℕ} (h : P m) : {i | i < m + 1 ∧ P i} = insert m {i | i < m ∧ P i} := by
  ext i
  simp only [Set.mem_ofPred_eq, Set.mem_insert_iff]
  constructor
  · rintro ⟨hi, hP⟩
    rcases Nat.lt_succ_iff_lt_or_eq.mp hi with hi | rfl
    · exact Or.inr ⟨hi, hP⟩
    · exact Or.inl rfl
  · rintro (rfl | ⟨hi, hP⟩)
    · exact ⟨Nat.lt_succ_self i, h⟩
    · exact ⟨hi.trans (Nat.lt_succ_self m), hP⟩

theorem below_succ_of_not {P : ℕ → Prop} {m : ℕ} (h : ¬P m) : {i | i < m + 1 ∧ P i} = {i | i < m ∧ P i} := by
  ext i
  simp only [Set.mem_ofPred_eq]
  constructor
  · rintro ⟨hi, hP⟩
    rcases Nat.lt_succ_iff_lt_or_eq.mp hi with hi | rfl
    · exact ⟨hi, hP⟩
    · exact absurd hP h
  · exact fun hi => ⟨hi.1.trans (Nat.lt_succ_self m), hi.2⟩

/-- Worse candidates may be left out. -/
theorem extend {j : ℕ} {s : K} (h : IsFirst f S (some (j, s))) (hsub : S ⊆ T)
    (hworse : ∀ j' ∈ T, j' ∉ S → f j' < s) : IsFirst f T (some (j, s)) := by
  obtain ⟨hj, rfl, hbest⟩ := h
  refine ⟨hsub hj, rfl, fun j' hj' => ?_⟩
  by_cases hin : j' ∈ S
  · exact hbest j' hin
  · exact Or.inl (hworse j' hj' hin)

end FirstBest
