/-
# The ladder's thresholds

A rung of the consolidation ladder reads its merge boundaries from its own
inputs (`dream.rs`): `tau_split` is cut at the largest gap among the upper
pairwise similarities of the addresses, `tau_cohere` where two classes of the
relations' similarities differ most (Otsu's threshold).

Both scans keep the best cut so far, of equally good ones the first. In exact
arithmetic the first keeps the greatest of the gaps it has seen (`gapScan`), and
the second scores with its running sum exactly the split it stands at
(`otsuScan`), so each ends at an optimal cut of the sorted values. The sorted
values are the same for every order of the list.

Key definitions: `topGapThreshold`, `otsuThreshold`, `calibrate`,
`betweenVariance`.
Key theorems: `otsuThreshold_first`, `topGapThreshold_first`, `thresholds_cut`.
-/
import HeatherDb.Lib.FirstBest
import HeatherDb.Reals

namespace HeatherDb

open Scalar FirstBest

section Source

variable {F : Type} [Scalar F]

/-- The best gap so far and its midpoint, after one more window. -/
def widerGap (mean : F) (best : F × F) (w : F × F) : F × F :=
  let gap := w.1 - w.2
  if le mean w.1 && lt best.1 gap then (gap, (w.1 + w.2) * lit (1 / 2)) else best

/-- The midpoint of the largest gap among the upper values, at least 0. -/
def topGapThreshold (vals : List F) : F :=
  if vals.length < 2 then lit 0
  else
    let vals := sortBy (fun a b => partialCmp b a) vals
    let mean := sum vals / ofUsize vals.length
    fmax ((vals.zip vals.tail).foldl (widerGap mean) (lit 0, lit 0)).2 (lit 0)

/-- The loop of `otsu_threshold`: the sum of the lower class, the best variance
and its cut. -/
structure Otsu (F : Type) where
  sumLow : F
  bestVar : F
  thresh : F

/-- The split before index `k`. -/
def otsuStep (vals : List F) (n : ℕ) (total : F) (st : Otsu F) (k : ℕ) : Otsu F :=
  let sumLow := st.sumLow + vals.getD (k - 1) (lit 0)
  let w0 := ofUsize k / ofUsize n
  let w1 := lit 1 - w0
  let mu0 := sumLow / ofUsize k
  let mu1 := (total - sumLow) / ofUsize (n - k)
  let var := w0 * w1 * ((mu0 - mu1) * (mu0 - mu1))
  if lt st.bestVar var then
    ⟨sumLow, var, (vals.getD (k - 1) (lit 0) + vals.getD k (lit 0)) * lit (1 / 2)⟩
  else { st with sumLow := sumLow }

/-- Otsu's threshold: the value that best splits the values into two classes. -/
def otsuThreshold (vals : List F) : F :=
  let n := vals.length
  if n < 2 then lit 0
  else
    let vals := sortBy partialCmp vals
    ((List.range' 1 (n - 1)).foldl (otsuStep vals n (sum vals)) ⟨lit 0, lit (-1), lit 0⟩).thresh

/-- The pairs `i < j` of indices below `n`. -/
def upperPairs (n : ℕ) : List (ℕ × ℕ) :=
  (List.range n).flatMap fun i => (List.range' (i + 1) (n - (i + 1))).map fun j => (i, j)

/-- The dot products of the pairs of these vectors. -/
def pairDots (vecs : List (List F)) (pairs : List (ℕ × ℕ)) : List F :=
  pairs.map fun p => dot (vecs.getD p.1 []) (vecs.getD p.2 [])

/-- Pairwise cosine similarities (upper triangle). -/
def pairwiseCos (vecs : List (List F)) : List F :=
  pairDots (vecs.map normalize) (upperPairs vecs.length)

/-- A rung's `tau_split` and `tau_cohere`, each calibrated unless the caller
fixed it: coherence is read from the pairs above `tau_split`, from all when
there are too few. -/
def calibrate (tauSplit tauCohere : F) (addrs rels : List (List F)) : F × F :=
  let addrs := addrs.map normalize
  let rels := rels.map normalize
  let pairs := upperPairs addrs.length
  let split := if le tauSplit (lit 0) then topGapThreshold (pairDots addrs pairs) else tauSplit
  let near := pairs.filter fun p => lt split (dot (addrs.getD p.1 []) (addrs.getD p.2 []))
  let cohs := pairDots rels near
  let cohere :=
    if le tauCohere (lit 0) then otsuThreshold (if cohs.length < 2 then pairwiseCos rels else cohs) else tauCohere
  (split, cohere)

end Source

/-! ### Sorted values -/

/-- The values from the least. -/
noncomputable def ascending (vals : List ℝ) : List ℝ := vals.insertionSort (· ≤ ·)

/-- The values from the greatest. -/
noncomputable def descending (vals : List ℝ) : List ℝ := vals.insertionSort (· ≥ ·)

theorem partialCmp_ne_gt {x y : ℝ} : partialCmp x y ≠ .gt ↔ x ≤ y := by
  unfold partialCmp
  by_cases hlt : x < y
  · simp [lt_real.mpr hlt, hlt.le]
  · have hno : lt x y = false := Bool.eq_false_iff.mpr (mt lt_real.mp hlt)
    by_cases hgt : y < x
    · simp [hno, lt_real.mpr hgt, not_le.mpr hgt]
    · simp [hno, Bool.eq_false_iff.mpr (mt lt_real.mp hgt), not_lt.mp hgt]

theorem sortBy_ascending (vals : List ℝ) : sortBy partialCmp vals = ascending vals := by
  have h := List.map_insertionSort (fun a b : ℝ => partialCmp a b ≠ .gt) (· ≤ ·) id vals fun a _ b _ =>
    partialCmp_ne_gt
  rwa [List.map_id, List.map_id] at h

theorem sortBy_descending (vals : List ℝ) : sortBy (fun a b => partialCmp b a) vals = descending vals := by
  have h := List.map_insertionSort (fun a b : ℝ => partialCmp b a ≠ .gt) (· ≥ ·) id vals fun a _ b _ =>
    partialCmp_ne_gt
  rwa [List.map_id, List.map_id] at h

theorem length_ascending (vals : List ℝ) : (ascending vals).length = vals.length := List.length_insertionSort _ vals

theorem length_descending (vals : List ℝ) : (descending vals).length = vals.length := List.length_insertionSort _ vals

theorem ascending_perm {vals vals' : List ℝ} (h : vals.Perm vals') : ascending vals = ascending vals' :=
  List.Perm.eq_of_pairwise (fun _ _ _ _ hab hba => le_antisymm hab hba) (List.pairwise_insertionSort _ vals)
    (List.pairwise_insertionSort _ vals')
    ((List.perm_insertionSort _ vals).trans (h.trans (List.perm_insertionSort _ vals').symm))

theorem descending_perm {vals vals' : List ℝ} (h : vals.Perm vals') : descending vals = descending vals' :=
  List.Perm.eq_of_pairwise (fun _ _ _ _ hab hba => le_antisymm hba hab) (List.pairwise_insertionSort _ vals)
    (List.pairwise_insertionSort _ vals')
    ((List.perm_insertionSort _ vals).trans (h.trans (List.perm_insertionSort _ vals').symm))

/-! ### Cuts -/

/-- Halfway between the values at two indices. -/
noncomputable def midway (vals : List ℝ) (i j : ℕ) : ℝ := (vals.getD i 0 + vals.getD j 0) / 2

/-- The mean of a class. -/
noncomputable def classMean (l : List ℝ) : ℝ := l.sum / l.length

/-- The variance between the classes of the first `k` values and of the others. -/
noncomputable def betweenVariance (vals : List ℝ) (k : ℕ) : ℝ :=
  k / vals.length * (1 - k / vals.length) * (classMean (vals.take k) - classMean (vals.drop k)) ^ 2

/-- The gap below the value at an index. -/
noncomputable def gapBelow (vals : List ℝ) (i : ℕ) : ℝ := vals.getD i 0 - vals.getD (i + 1) 0

/-- The indices of positive gaps below values that reach the mean. -/
def upperGaps (vals : List ℝ) : Set ℕ :=
  {i | i + 1 < vals.length ∧ classMean vals ≤ vals.getD i 0 ∧ 0 < gapBelow vals i}

theorem betweenVariance_nonneg (vals : List ℝ) {k : ℕ} (hk : k ≤ vals.length) : 0 ≤ betweenVariance vals k := by
  have hle : (k : ℝ) / vals.length ≤ 1 := div_le_one_of_le₀ (Nat.cast_le.mpr hk) (Nat.cast_nonneg _)
  have hrest : 0 ≤ 1 - (k : ℝ) / vals.length := sub_nonneg.mpr hle
  unfold betweenVariance
  positivity

/-! ### Otsu's scan -/

/-- The loop's best cut is that of the split `r`. -/
def Cut (vals : List ℝ) (bestVar thresh : ℝ) : Option (ℕ × ℝ) → Prop
  | none => bestVar = -1
  | some (k, v) => bestVar = v ∧ thresh = midway vals (k - 1) k

theorem sum_take_succ {vals : List ℝ} {k : ℕ} (hk : k < vals.length) :
    (vals.take (k + 1)).sum = (vals.take k).sum + vals.getD k 0 := by
  rw [List.take_succ_eq_append_getElem hk, List.sum_append, List.sum_singleton, List.getD_eq_getElem _ _ hk]

/-- The variance a step computes from its sum is that of its split. -/
theorem otsuStep_var {vals : List ℝ} {k : ℕ} (hle : k ≤ vals.length) :
    (k : ℝ) / vals.length * (1 - (k : ℝ) / vals.length) *
      ((vals.take k).sum / k - (vals.sum - (vals.take k).sum) / (vals.length - k : ℕ)) ^ 2 =
      betweenVariance vals k := by
  have hhigh : vals.sum - (vals.take k).sum = (vals.drop k).sum := by
    rw [← List.sum_take_add_sum_drop vals k, add_sub_cancel_left]
  rw [hhigh, betweenVariance, classMean, classMean, List.length_take_of_le hle, List.length_drop]

/-- **The scan keeps the first best split**: after the splits up to `m` the sum
is that of the first `m` values. -/
theorem otsuScan (vals : List ℝ) : ∀ m < vals.length, ∃ r,
    let st := (List.range' 1 m).foldl (otsuStep vals vals.length (sum vals)) (⟨lit 0, lit (-1), lit 0⟩ : Otsu ℝ)
    st.sumLow = (vals.take m).sum ∧ IsFirst (betweenVariance vals) (Set.Ico 1 (m + 1)) r ∧
      Cut vals st.bestVar st.thresh r
  | 0, _ => by
    refine ⟨none, by simp, ?_, by simp [Cut]⟩
    exact Set.Ico_self 1
  | m + 1, hm => by
    obtain ⟨r, hsum, hfirst, hcut⟩ := otsuScan vals m ((Nat.lt_succ_self m).trans hm)
    rw [List.range'_concat, List.foldl_append]
    set st := (List.range' 1 m).foldl (otsuStep vals vals.length (sum vals)) (⟨lit 0, lit (-1), lit 0⟩ : Otsu ℝ)
    have hmlt : m < vals.length := (Nat.lt_succ_self m).trans hm
    have hmem : Set.Ico 1 (m + 1 + 1) = insert (m + 1) (Set.Ico 1 (m + 1)) := by
      ext i
      simp only [Set.mem_Ico, Set.mem_insert_iff]
      omega
    have hpush := push hfirst (j := m + 1) fun j' hj' => hj'.2.le
    rw [← hmem] at hpush
    have hvar := otsuStep_var hm.le
    -- the step's own variance, so that its comparison is that of `push`
    have hstep : otsuStep vals vals.length (sum vals) st (1 + 1 * m) =
        if st.bestVar < betweenVariance vals (m + 1) then
          ⟨(vals.take (m + 1)).sum, betweenVariance vals (m + 1), midway vals m (m + 1)⟩
        else { st with sumLow := (vals.take (m + 1)).sum } := by
      have hidx : 1 + 1 * m = m + 1 := by omega
      rw [hidx, otsuStep]
      simp only [Nat.add_sub_cancel, ofUsize_real, lit_real, Rat.cast_zero, Rat.cast_one, hsum, sum_real, ← sq,
        ← sum_take_succ hmlt,
        hvar]
      by_cases hlt : st.bestVar < betweenVariance vals (m + 1)
      · rw [if_pos hlt, if_pos (lt_real.mpr hlt), midway]
        norm_num [div_eq_mul_inv]
      · rw [if_neg hlt, if_neg (mt lt_real.mp hlt)]
    refine ⟨_, ?_, hpush, ?_⟩
    · rw [List.foldl_cons, List.foldl_nil, hstep]
      split_ifs <;> rfl
    · rw [List.foldl_cons, List.foldl_nil, hstep]
      have hnonneg := betweenVariance_nonneg vals hm.le
      cases r with
      | none =>
        have hnone : st.bestVar = -1 := hcut
        rw [if_pos (by rw [hnone]; linarith)]
        exact ⟨rfl, rfl⟩
      | some b =>
        obtain ⟨hb, ht⟩ := hcut
        dsimp only
        rw [hb]
        by_cases hlt : b.2 < betweenVariance vals (m + 1)
        · rw [if_pos hlt, if_pos hlt]
          exact ⟨rfl, rfl⟩
        · rw [if_neg hlt, if_neg hlt]
          exact ⟨rfl, ht⟩

/-- Otsu's threshold is the midpoint of the first best split. -/
theorem otsuThreshold_first {vals : List ℝ} (hn : 2 ≤ vals.length) : ∃ k,
    IsFirst (betweenVariance (ascending vals)) (Set.Ico 1 vals.length)
      (some (k, betweenVariance (ascending vals) k)) ∧
    otsuThreshold vals = midway (ascending vals) (k - 1) k := by
  have hlen := length_ascending vals
  obtain ⟨r, -, hfirst, hcut⟩ := otsuScan (ascending vals) (vals.length - 1) (by omega)
  rw [show vals.length - 1 + 1 = vals.length by omega] at hfirst
  rw [otsuThreshold, if_neg (by omega), sortBy_ascending]
  rw [hlen] at hcut
  cases r with
  | none =>
    have hempty : Set.Ico 1 vals.length = ∅ := hfirst
    exact absurd (hempty ▸ Set.mem_Ico.mpr ⟨le_rfl, by omega⟩ : 1 ∈ (∅ : Set ℕ)) (Set.notMem_empty 1)
  | some b =>
    obtain ⟨k, v⟩ := b
    obtain rfl : v = betweenVariance (ascending vals) k := hfirst.2.1
    exact ⟨k, hfirst, hcut.2⟩

/-! ### The scan of the gaps -/

/-- The loop's best gap is that at `r`. -/
def Gap (vals : List ℝ) (best : ℝ × ℝ) : Option (ℕ × ℝ) → Prop
  | none => best = (0, 0)
  | some (i, g) => 0 < g ∧ best = (g, midway vals i (i + 1))

/-- The windows of a list, by their index. -/
theorem zip_tail_eq (vals : List ℝ) : vals.zip vals.tail =
    (List.range (vals.length - 1)).map fun i => (vals.getD i 0, vals.getD (i + 1) 0) := by
  refine List.ext_getElem (by simp) fun i hi hi' => ?_
  have hlt : i + 1 < vals.length := by
    rw [List.length_zip, List.length_tail] at hi
    omega
  have hlt' : i < vals.length := (Nat.lt_succ_self i).trans hlt
  simp [hlt, hlt']

theorem widerGap_eq (vals : List ℝ) (mean : ℝ) (best : ℝ × ℝ) (m : ℕ) :
    widerGap mean best (vals.getD m 0, vals.getD (m + 1) 0) =
      if mean ≤ vals.getD m 0 ∧ best.1 < gapBelow vals m then (gapBelow vals m, midway vals m (m + 1)) else best := by
  have hboth : (le mean (vals.getD m 0) && lt best.1 (gapBelow vals m)) = true ↔
      mean ≤ vals.getD m 0 ∧ best.1 < gapBelow vals m := by
    rw [Bool.and_eq_true, le_real, lt_real]
  rw [widerGap]
  by_cases h : mean ≤ vals.getD m 0 ∧ best.1 < gapBelow vals m
  · rw [if_pos h]
    refine (if_pos (hboth.mpr h)).trans ?_
    rw [gapBelow, midway]
    norm_num [div_eq_mul_inv]
  · rw [if_neg h]
    exact if_neg (mt hboth.mp h)

/-- **The scan keeps the first widest gap** of those whose upper end reaches the
mean. -/
theorem gapScan (vals : List ℝ) (mean : ℝ) : ∀ m : ℕ, ∃ r,
    IsFirst (gapBelow vals) {i | i < m ∧ mean ≤ vals.getD i 0 ∧ 0 < gapBelow vals i} r ∧
      Gap vals (((List.range m).map fun i => (vals.getD i 0, vals.getD (i + 1) 0)).foldl (widerGap mean)
        ((lit 0, lit 0) : ℝ × ℝ)) r
  | 0 => by
    refine ⟨none, ?_, by simp [Gap]⟩
    exact Set.eq_empty_of_forall_notMem fun i hi => absurd hi.1 (Nat.not_lt_zero i)
  | m + 1 => by
    obtain ⟨r, hfirst, hgap⟩ := gapScan vals mean m
    rw [List.range_succ, List.map_append, List.foldl_append]
    set best := ((List.range m).map fun i => (vals.getD i 0, vals.getD (i + 1) 0)).foldl (widerGap mean)
      ((lit 0, lit 0) : ℝ × ℝ)
    rw [List.map_singleton, List.foldl_cons, List.foldl_nil, widerGap_eq]
    have hleast : 0 ≤ best.1 := by
      cases r with
      | none => exact (congrArg Prod.fst hgap).ge
      | some b => exact hgap.2 ▸ hgap.1.le
    by_cases hin : mean ≤ vals.getD m 0 ∧ 0 < gapBelow vals m
    · -- one more candidate
      have hpush := push hfirst (j := m) fun j' hj' => hj'.1.le
      rw [← below_succ (P := fun i => mean ≤ vals.getD i 0 ∧ 0 < gapBelow vals i) hin] at hpush
      refine ⟨_, hpush, ?_⟩
      cases r with
      | none =>
        have hnone : best = (0, 0) := hgap
        rw [if_pos ⟨hin.1, by rw [hnone]; exact hin.2⟩]
        exact ⟨hin.2, rfl⟩
      | some b =>
        obtain ⟨hpos, hbest⟩ := hgap
        have hfst : best.1 = b.2 := congrArg Prod.fst hbest
        dsimp only
        by_cases hlt : b.2 < gapBelow vals m
        · rw [if_pos hlt, if_pos ⟨hin.1, hfst ▸ hlt⟩]
          exact ⟨hin.2, rfl⟩
        · rw [if_neg hlt, if_neg fun h => hlt (hfst ▸ h.2)]
          exact ⟨hpos, hbest⟩
    · -- no candidate
      rw [below_succ_of_not (P := fun i => mean ≤ vals.getD i 0 ∧ 0 < gapBelow vals i) hin,
        if_neg fun h => hin ⟨h.1, hleast.trans_lt h.2⟩]
      exact ⟨r, hfirst, hgap⟩

/-- The top-gap threshold is the midpoint of the first widest upper gap, at
least 0, and 0 where there is none. -/
theorem topGapThreshold_first {vals : List ℝ} (hn : 2 ≤ vals.length) :
    (upperGaps (descending vals) = ∅ ∧ topGapThreshold vals = 0) ∨
      ∃ i, IsFirst (gapBelow (descending vals)) (upperGaps (descending vals))
          (some (i, gapBelow (descending vals) i)) ∧
        topGapThreshold vals = max 0 (midway (descending vals) i (i + 1)) := by
  have hlen := length_descending vals
  obtain ⟨r, hfirst, hgap⟩ := gapScan (descending vals) (classMean (descending vals)) ((descending vals).length - 1)
  have hmem : {i | i < (descending vals).length - 1 ∧ classMean (descending vals) ≤ (descending vals).getD i 0 ∧
      0 < gapBelow (descending vals) i} = upperGaps (descending vals) := by
    ext i
    simp only [upperGaps, Set.mem_ofPred_eq, Nat.lt_sub_iff_add_lt]
  rw [hmem] at hfirst
  rw [← zip_tail_eq] at hgap
  have hvalue : topGapThreshold vals = max 0 (((descending vals).zip (descending vals).tail).foldl
      (widerGap (classMean (descending vals))) ((lit 0, lit 0) : ℝ × ℝ)).2 := by
    rw [topGapThreshold, if_neg (by omega), sortBy_descending]
    dsimp only
    rw [fmax_real, max_comm, sum_real, ofUsize_real, lit_real, Rat.cast_zero, classMean]
  rw [hvalue]
  cases r with
  | none =>
    have hnone : _ = ((0, 0) : ℝ × ℝ) := hgap
    rw [hnone]
    exact Or.inl ⟨hfirst, max_self 0⟩
  | some b =>
    obtain ⟨i, g⟩ := b
    obtain rfl : g = gapBelow (descending vals) i := hfirst.2.1
    rw [hgap.2]
    exact Or.inr ⟨i, hfirst, rfl⟩

/-- **The thresholds are optimal cuts.** Otsu's is the midpoint of the first
split of the sorted values of greatest variance between its classes, the
top-gap threshold that of the first widest gap below a value that reaches the
mean; neither depends on the order of the values. -/
theorem thresholds_cut {vals : List ℝ} (hn : 2 ≤ vals.length) :
    (∃ k, IsFirst (betweenVariance (ascending vals)) (Set.Ico 1 vals.length)
        (some (k, betweenVariance (ascending vals) k)) ∧
      otsuThreshold vals = midway (ascending vals) (k - 1) k) ∧
    ((upperGaps (descending vals) = ∅ ∧ topGapThreshold vals = 0) ∨
      ∃ i, IsFirst (gapBelow (descending vals)) (upperGaps (descending vals))
          (some (i, gapBelow (descending vals) i)) ∧
        topGapThreshold vals = max 0 (midway (descending vals) i (i + 1))) ∧
    ∀ vals', vals.Perm vals' →
      otsuThreshold vals' = otsuThreshold vals ∧ topGapThreshold vals' = topGapThreshold vals := by
  refine ⟨otsuThreshold_first hn, topGapThreshold_first hn, fun vals' hperm => ⟨?_, ?_⟩⟩
  · rw [otsuThreshold, otsuThreshold, sortBy_ascending, sortBy_ascending, ascending_perm hperm, hperm.length_eq]
  · rw [topGapThreshold, topGapThreshold, sortBy_descending, sortBy_descending, descending_perm hperm,
      hperm.length_eq]

/-- Two low values and two high ones. -/
noncomputable def lowHigh : List ℝ := [0, 1, 5, 6]

/-- Their cuts, and those of the same values the other way round. -/
theorem thresholds_cut_lowHigh :
    (∃ k, IsFirst (betweenVariance (ascending lowHigh)) (Set.Ico 1 4)
        (some (k, betweenVariance (ascending lowHigh) k)) ∧
      otsuThreshold lowHigh = midway (ascending lowHigh) (k - 1) k) ∧
    ((upperGaps (descending lowHigh) = ∅ ∧ topGapThreshold lowHigh = 0) ∨
      ∃ i, IsFirst (gapBelow (descending lowHigh)) (upperGaps (descending lowHigh))
          (some (i, gapBelow (descending lowHigh) i)) ∧
        topGapThreshold lowHigh = max 0 (midway (descending lowHigh) i (i + 1))) ∧
    otsuThreshold lowHigh.reverse = otsuThreshold lowHigh ∧
    topGapThreshold lowHigh.reverse = topGapThreshold lowHigh := by
  obtain ⟨hotsu, hgap, hperm⟩ := thresholds_cut (show 2 ≤ lowHigh.length from Nat.le_add_left 2 2)
  exact ⟨hotsu, hgap, hperm _ lowHigh.reverse_perm.symm⟩

end HeatherDb
