/-
# Rounded sums

A floating-point format in the standard model of rounding: the finite numbers
stand for reals; an operation whose exact result is in range gives it up to a
relative error of one unit, and a product or a literal also loses what falls
below the least numbers. Adding to zero is exact.

A number that came of adding up other numbers, however they were grouped, is
their sum up to as many roundings as any of them went through (`Sum`). So a
loop that adds up costs one rounding for each turn (`Sum.foldl`), and one that
starts from zero one less (`Sum.foldl_zero`).

Quantities that are not negative keep a relative error through sums and
products (`Near`).

Key definitions: `Format`, `Sum`, `Near`.
Key theorems: `growth_le`, `Sum.foldl`, `Sum.foldl_zero`, `finite_foldl`,
`Near.mul`, `Near.add`.
-/
import Mathlib.Analysis.SpecialFunctions.Pow.Real

namespace Rounding

/-- A format and its precision: the unit roundoff, what gradual underflow loses
at most, and the greatest number. -/
structure Format (α : Type) [Add α] [Mul α] where
  finite : α → Prop
  val : α → ℝ
  unit : ℝ
  lost : ℝ
  greatest : ℝ
  unit_nonneg : 0 ≤ unit
  lost_nonneg : 0 ≤ lost
  finite_add {x y : α} : finite x → finite y → |val x + val y| ≤ greatest → finite (x + y)
  add {x y : α} : finite (x + y) →
    finite x ∧ finite y ∧ |val (x + y) - (val x + val y)| ≤ unit * |val x + val y|
  finite_mul {x y : α} : finite x → finite y → |val x * val y| ≤ greatest → finite (x * y)
  mul {x y : α} : finite (x * y) →
    finite x ∧ finite y ∧ |val (x * y) - val x * val y| ≤ unit * |val x * val y| + lost
  zero_add {x y : α} : finite x → finite y → val x = 0 → finite (x + y) ∧ val (x + y) = val y

variable {α : Type} [Add α] [Mul α] {fmt : Format α}

/-- What `n` roundings can make of 1. -/
def Format.growth (fmt : Format α) (n : ℕ) : ℝ := (1 + fmt.unit) ^ n

namespace Format

theorem one_le_growth (fmt : Format α) (n : ℕ) : 1 ≤ fmt.growth n :=
  one_le_pow₀ (le_add_of_nonneg_right fmt.unit_nonneg)

theorem growth_nonneg (fmt : Format α) (n : ℕ) : 0 ≤ fmt.growth n := zero_le_one.trans (fmt.one_le_growth n)

theorem growth_mono (fmt : Format α) {n m : ℕ} (h : n ≤ m) : fmt.growth n ≤ fmt.growth m :=
  pow_le_pow_right₀ (le_add_of_nonneg_right fmt.unit_nonneg) h

theorem growth_succ (fmt : Format α) (n : ℕ) : fmt.growth (n + 1) = fmt.growth n * (1 + fmt.unit) := pow_succ _ _

end Format

/-- **What few roundings make of 1**: a unit for each, and a little more. -/
theorem growth_le {u c : ℝ} {n : ℕ} (hu : 0 ≤ u) (hc : 1 ≤ c) (hfew : c * (n * u) ≤ c - 1) :
    (1 + u) ^ n - 1 ≤ c * (n * u) := by
  have hsmall : 0 ≤ (n : ℝ) * u := mul_nonneg n.cast_nonneg hu
  have hlt : (n : ℝ) * u < 1 := by
    by_contra hge
    have hmore : c * 1 ≤ c * (n * u) := mul_le_mul_of_nonneg_left (not_lt.mp hge) (by linarith)
    linarith
  have hexp : (1 + u) ^ n ≤ Real.exp (n * u) := by
    rw [Real.exp_nat_mul]
    exact pow_le_pow_left₀ (by linarith) (by linarith [Real.add_one_le_exp u]) n
  -- the exponential is below the geometric series
  have hinv : Real.exp (n * u) * (1 - n * u) ≤ 1 := by
    have hneg := Real.add_one_le_exp (-(n * u))
    calc Real.exp (n * u) * (1 - n * u)
        ≤ Real.exp (n * u) * Real.exp (-(n * u)) :=
          mul_le_mul_of_nonneg_left (by linarith) (Real.exp_nonneg _)
      _ = 1 := by rw [← Real.exp_add, add_neg_cancel, Real.exp_zero]
  have hseries : (1 + c * (n * u)) * (1 - n * u) ≥ 1 := by nlinarith
  have hpos : 0 < 1 - n * u := by linarith
  have hle : Real.exp (n * u) ≤ 1 + c * (n * u) := by
    by_contra hmore
    have := mul_lt_mul_of_pos_right (not_le.mp hmore) hpos
    linarith
  linarith

/-- A loop that adds up has a number at its end only if it added up numbers. -/
theorem finite_of_foldl {β : Type} {f : β → α} : ∀ {l : List β} {x : α},
    fmt.finite (l.foldl (fun s b => s + f b) x) → fmt.finite x ∧ ∀ b ∈ l, fmt.finite (f b)
  | [], x, h => ⟨h, nofun⟩
  | b :: l, x, h => by
    obtain ⟨hstep, hrest⟩ := finite_of_foldl (l := l) h
    obtain ⟨hx, hb, -⟩ := fmt.add hstep
    exact ⟨hx, List.forall_mem_cons.mpr ⟨hb, hrest⟩⟩

/-- `x` came of adding up numbers that sum up to `t`, and without their signs to
`a`, none of which went through more than `n` roundings. -/
structure Sum (fmt : Format α) (n : ℕ) (t a : ℝ) (x : α) : Prop where
  near : |fmt.val x - t| ≤ (fmt.growth n - 1) * a
  total : |t| ≤ a

namespace Sum

variable {n m : ℕ} {t t' a a' : ℝ} {x y : α}

theorem single (x : α) : Sum fmt 0 (fmt.val x) |fmt.val x| x where
  near := by simp [Format.growth]
  total := le_rfl

theorem nonneg (h : Sum fmt n t a x) : 0 ≤ a := (abs_nonneg t).trans h.total

theorem mono (h : Sum fmt n t a x) (hle : n ≤ m) : Sum fmt m t a x where
  near := h.near.trans (mul_le_mul_of_nonneg_right (by linarith [fmt.growth_mono hle]) h.nonneg)
  total := h.total

/-- A sum is no greater than what its roundings make of its terms. -/
theorem abs_le (h : Sum fmt n t a x) : |fmt.val x| ≤ fmt.growth n * a := by
  have hsplit : |fmt.val x| ≤ |fmt.val x - t| + |t| := by simpa using abs_add_le (fmt.val x - t) t
  calc |fmt.val x| ≤ (fmt.growth n - 1) * a + a := hsplit.trans (add_le_add h.near h.total)
    _ = fmt.growth n * a := by ring

theorem abs_add (h : Sum fmt n t a x) (h' : Sum fmt n t' a' y) :
    |fmt.val x + fmt.val y| ≤ fmt.growth n * (a + a') := by
  calc |fmt.val x + fmt.val y| ≤ fmt.growth n * a + fmt.growth n * a' :=
        (abs_add_le _ _).trans (add_le_add h.abs_le h'.abs_le)
    _ = fmt.growth n * (a + a') := by ring

/-- **Two sums added**: one more rounding for the terms of both. -/
theorem add (h : Sum fmt n t a x) (h' : Sum fmt n t' a' y) (hfinite : fmt.finite (x + y)) :
    Sum fmt (n + 1) (t + t') (a + a') (x + y) := by
  obtain ⟨-, -, hround⟩ := fmt.add hfinite
  refine ⟨?_, (abs_add_le _ _).trans (add_le_add h.total h'.total)⟩
  have hexact : |fmt.val x + fmt.val y - (t + t')| ≤ (fmt.growth n - 1) * (a + a') := by
    calc |fmt.val x + fmt.val y - (t + t')| = |(fmt.val x - t) + (fmt.val y - t')| := by ring_nf
      _ ≤ (fmt.growth n - 1) * a + (fmt.growth n - 1) * a' :=
        (abs_add_le _ _).trans (add_le_add h.near h'.near)
      _ = (fmt.growth n - 1) * (a + a') := by ring
  calc |fmt.val (x + y) - (t + t')|
      ≤ |fmt.val (x + y) - (fmt.val x + fmt.val y)| + |fmt.val x + fmt.val y - (t + t')| := by
        simpa using abs_add_le (fmt.val (x + y) - (fmt.val x + fmt.val y)) (fmt.val x + fmt.val y - (t + t'))
    _ ≤ fmt.unit * (fmt.growth n * (a + a')) + (fmt.growth n - 1) * (a + a') :=
        add_le_add (hround.trans (mul_le_mul_of_nonneg_left (h.abs_add h') fmt.unit_nonneg)) hexact
    _ = (fmt.growth (n + 1) - 1) * (a + a') := by rw [fmt.growth_succ]; ring

/-- Added to zero a sum stays what it is. -/
theorem zero_add (h : Sum fmt n t a x) (hz : fmt.finite y) (hzero : fmt.val y = 0) (hx : fmt.finite x) :
    Sum fmt n t a (y + x) := by
  obtain ⟨-, hval⟩ := fmt.zero_add hz hx hzero
  exact ⟨hval ▸ h.near, h.total⟩

/-- Nothing summed up. -/
theorem zero (n : ℕ) (hzero : fmt.val y = 0) : Sum fmt n 0 0 y where
  near := by simp [hzero]
  total := by simp

/-- A sum of nothing is zero. -/
theorem val_eq_zero (h : Sum fmt n 0 0 x) : fmt.val x = 0 := by
  have hnear := h.near
  rw [mul_zero, sub_zero] at hnear
  exact abs_eq_zero.mp (le_antisymm hnear (abs_nonneg _))

variable {β : Type} {f : β → α} (term size : β → ℝ)

/-- **A loop that adds up** costs a rounding for each turn. -/
theorem foldl : ∀ {l : List β} {n : ℕ} {t a : ℝ} {x : α}, (∀ b ∈ l, Sum fmt n (term b) (size b) (f b)) →
    Sum fmt n t a x → fmt.finite (l.foldl (fun s b => s + f b) x) →
    Sum fmt (n + l.length) (t + (l.map term).sum) (a + (l.map size).sum) (l.foldl (fun s b => s + f b) x)
  | [], n, t, a, x, _, h, _ => by simpa using h
  | b :: l, n, t, a, x, hl, h, hfinite => by
    have hstep : Sum fmt (n + 1) (t + term b) (a + size b) (x + f b) :=
      h.add (hl b List.mem_cons_self) (finite_of_foldl (l := l) hfinite).1
    have hfold := foldl (fun c hc => (hl c (List.mem_cons_of_mem b hc)).mono (Nat.le_succ n)) hstep hfinite
    have hlength : n + (l.length + 1) = n + 1 + l.length := by omega
    rw [List.length_cons, hlength, List.map_cons, List.sum_cons, List.map_cons, List.sum_cons, ← add_assoc,
      ← add_assoc, List.foldl_cons]
    exact hfold

/-- **From zero** the first turn costs nothing. -/
theorem foldl_zero {l : List β} {z : α} (hl : ∀ b ∈ l, Sum fmt n (term b) (size b) (f b)) (hzero : fmt.val z = 0)
    (hfinite : fmt.finite (l.foldl (fun s b => s + f b) z)) :
    Sum fmt (n + (l.length - 1)) (l.map term).sum (l.map size).sum (l.foldl (fun s b => s + f b) z) := by
  cases l with
  | nil => exact zero _ hzero
  | cons b l =>
    obtain ⟨hz, hall⟩ := finite_of_foldl hfinite
    rw [List.length_cons, Nat.add_sub_cancel]
    exact foldl term size (fun c hc => hl c (List.mem_cons_of_mem b hc))
      ((hl b List.mem_cons_self).zero_add hz hzero (hall b List.mem_cons_self)) hfinite

end Sum

/-- **A loop in range** ends at a number. -/
theorem finite_foldl {β : Type} {f : β → α} (term size : β → ℝ) : ∀ {l : List β} {n : ℕ} {t a : ℝ} {x : α},
    (∀ b ∈ l, fmt.finite (f b) ∧ Sum fmt n (term b) (size b) (f b)) → fmt.finite x → Sum fmt n t a x →
    fmt.growth (n + l.length) * (a + (l.map size).sum) ≤ fmt.greatest →
    fmt.finite (l.foldl (fun s b => s + f b) x)
  | [], _, _, _, _, _, hx, _, _ => hx
  | b :: l, n, t, a, x, hl, hx, h, hrange => by
    obtain ⟨hb, hsum⟩ := hl b List.mem_cons_self
    have hrest : 0 ≤ (l.map size).sum := List.sum_nonneg fun s hs => by
      obtain ⟨c, hc, rfl⟩ := List.mem_map.mp hs
      exact (hl c (List.mem_cons_of_mem b hc)).2.nonneg
    have hlength : n + (b :: l).length = n + 1 + l.length := by rw [List.length_cons]; omega
    rw [hlength, List.map_cons, List.sum_cons, ← add_assoc a] at hrange
    have hfinite : fmt.finite (x + f b) := by
      refine fmt.finite_add hx hb ((h.abs_add hsum).trans (le_trans ?_ hrange))
      exact mul_le_mul (fmt.growth_mono (by omega)) (le_add_of_nonneg_right hrest)
        (add_nonneg h.nonneg hsum.nonneg) (fmt.growth_nonneg _)
    have hall : ∀ c ∈ l, fmt.finite (f c) ∧ Sum fmt (n + 1) (term c) (size c) (f c) := fun c hc =>
      (hl c (List.mem_cons_of_mem b hc)).imp id fun hc => hc.mono (Nat.le_succ n)
    rw [List.foldl_cons]
    exact finite_foldl term size hall hfinite (h.add hsum hfinite) hrange

/-- A loop in range that starts from zero ends at the sum. -/
theorem sum_foldl_zero {β : Type} {f : β → α} (term size : β → ℝ) {l : List β} {n : ℕ} {z : α}
    (hl : ∀ b ∈ l, fmt.finite (f b) ∧ Sum fmt n (term b) (size b) (f b)) (hz : fmt.finite z) (hzero : fmt.val z = 0)
    (hrange : fmt.growth (n + l.length) * (l.map size).sum ≤ fmt.greatest) :
    fmt.finite (l.foldl (fun s b => s + f b) z) ∧
      Sum fmt (n + (l.length - 1)) (l.map term).sum (l.map size).sum (l.foldl (fun s b => s + f b) z) := by
  have hfinite := finite_foldl term size hl hz (Sum.zero n hzero) (by rwa [zero_add])
  exact ⟨hfinite, Sum.foldl_zero term size (fun b hb => (hl b hb).2) hzero hfinite⟩

/-! ### Relative errors -/

/-- `x` is the quantity `r`, which is not negative, through `k` operations that
each err by `ε` of their result at most. -/
structure Near (fmt : Format α) (ε : ℝ) (k : ℕ) (r : ℝ) (x : α) : Prop where
  finite : fmt.finite x
  nonneg : 0 ≤ r
  near : |fmt.val x - r| ≤ ((1 + ε) ^ k - 1) * r

namespace Near

variable {ε r s : ℝ} {k m : ℕ} {x y : α}

theorem exact (h : fmt.finite x) (hpos : 0 ≤ fmt.val x) : Near fmt ε 0 (fmt.val x) x := ⟨h, hpos, by simp⟩

theorem mono (h : Near fmt ε k r x) (hε : 0 ≤ ε) (hle : k ≤ m) : Near fmt ε m r x where
  finite := h.finite
  nonneg := h.nonneg
  near := h.near.trans (mul_le_mul_of_nonneg_right
    (by linarith [pow_le_pow_right₀ (le_add_of_nonneg_right hε : (1 : ℝ) ≤ 1 + ε) hle]) h.nonneg)

theorem abs_le (h : Near fmt ε k r x) : |fmt.val x| ≤ (1 + ε) ^ k * r := by
  have hsplit : |fmt.val x| ≤ |fmt.val x - r| + |r| := by simpa using abs_add_le (fmt.val x - r) r
  rw [abs_of_nonneg h.nonneg] at hsplit
  linarith [h.near]

/-- **A product** of quantities well above what underflow loses. -/
theorem mul (h : Near fmt ε k r x) (h' : Near fmt ε m s y) (hε : 2 * fmt.unit ≤ ε) (hlost : fmt.lost ≤ fmt.unit * (r * s))
    (hrange : (1 + ε) ^ (k + m) * (r * s) ≤ fmt.greatest) : Near fmt ε (k + m + 1) (r * s) (x * y) := by
  have hεpos : 0 ≤ ε := (mul_nonneg zero_le_two fmt.unit_nonneg).trans hε
  have hrs : 0 ≤ r * s := mul_nonneg h.nonneg h'.nonneg
  have hsize : |fmt.val x * fmt.val y| ≤ (1 + ε) ^ (k + m) * (r * s) := by
    calc |fmt.val x * fmt.val y| ≤ ((1 + ε) ^ k * r) * ((1 + ε) ^ m * s) := by
          rw [abs_mul]
          exact mul_le_mul h.abs_le h'.abs_le (abs_nonneg _) ((abs_nonneg _).trans h.abs_le)
      _ = (1 + ε) ^ (k + m) * (r * s) := by rw [pow_add]; ring
  have hfinite := fmt.finite_mul h.finite h'.finite (hsize.trans hrange)
  obtain ⟨-, -, hround⟩ := fmt.mul hfinite
  have hexact : |fmt.val x * fmt.val y - r * s| ≤ ((1 + ε) ^ (k + m) - 1) * (r * s) := by
    calc |fmt.val x * fmt.val y - r * s| = |(fmt.val x - r) * fmt.val y + r * (fmt.val y - s)| := by ring_nf
      _ ≤ |fmt.val x - r| * |fmt.val y| + r * |fmt.val y - s| := by
        rw [← abs_mul, ← abs_of_nonneg h.nonneg, ← abs_mul, abs_of_nonneg h.nonneg]
        exact abs_add_le _ _
      _ ≤ (((1 + ε) ^ k - 1) * r) * ((1 + ε) ^ m * s) + r * (((1 + ε) ^ m - 1) * s) :=
        add_le_add (mul_le_mul h.near h'.abs_le (abs_nonneg _) ((abs_nonneg _).trans h.near))
          (mul_le_mul_of_nonneg_left h'.near h.nonneg)
      _ = ((1 + ε) ^ (k + m) - 1) * (r * s) := by rw [pow_add]; ring
  have hone : (1 : ℝ) ≤ (1 + ε) ^ (k + m) := one_le_pow₀ (le_add_of_nonneg_right hεpos)
  refine ⟨hfinite, hrs, ?_⟩
  calc |fmt.val (x * y) - r * s|
      ≤ |fmt.val (x * y) - fmt.val x * fmt.val y| + |fmt.val x * fmt.val y - r * s| := abs_sub_le _ _ _
    _ ≤ (fmt.unit * ((1 + ε) ^ (k + m) * (r * s)) + fmt.unit * ((1 + ε) ^ (k + m) * (r * s))) +
        ((1 + ε) ^ (k + m) - 1) * (r * s) := by
      have hless := mul_le_mul_of_nonneg_left (le_mul_of_one_le_left hrs hone) fmt.unit_nonneg
      exact add_le_add (hround.trans (add_le_add (mul_le_mul_of_nonneg_left hsize fmt.unit_nonneg)
        (hlost.trans hless))) hexact
    _ ≤ ε * ((1 + ε) ^ (k + m) * (r * s)) + ((1 + ε) ^ (k + m) - 1) * (r * s) := by
      have := mul_le_mul_of_nonneg_right hε (mul_nonneg (zero_le_one.trans hone) hrs)
      linarith
    _ = ((1 + ε) ^ (k + m + 1) - 1) * (r * s) := by rw [pow_succ]; ring

/-- **A sum** of such quantities. -/
theorem add (h : Near fmt ε k r x) (h' : Near fmt ε k s y) (hε : fmt.unit ≤ ε)
    (hrange : (1 + ε) ^ k * (r + s) ≤ fmt.greatest) : Near fmt ε (k + 1) (r + s) (x + y) := by
  have hsize : |fmt.val x + fmt.val y| ≤ (1 + ε) ^ k * (r + s) := by
    calc |fmt.val x + fmt.val y| ≤ (1 + ε) ^ k * r + (1 + ε) ^ k * s :=
          (abs_add_le _ _).trans (add_le_add h.abs_le h'.abs_le)
      _ = (1 + ε) ^ k * (r + s) := by ring
  have hfinite := fmt.finite_add h.finite h'.finite (hsize.trans hrange)
  obtain ⟨-, -, hround⟩ := fmt.add hfinite
  refine ⟨hfinite, add_nonneg h.nonneg h'.nonneg, ?_⟩
  calc |fmt.val (x + y) - (r + s)|
      ≤ |fmt.val (x + y) - (fmt.val x + fmt.val y)| + |fmt.val x + fmt.val y - (r + s)| := abs_sub_le _ _ _
    _ ≤ ε * ((1 + ε) ^ k * (r + s)) + (((1 + ε) ^ k - 1) * r + ((1 + ε) ^ k - 1) * s) := by
      refine add_le_add (hround.trans (mul_le_mul hε hsize (abs_nonneg _) (fmt.unit_nonneg.trans hε))) ?_
      have hsplit : fmt.val x + fmt.val y - (r + s) = (fmt.val x - r) + (fmt.val y - s) := by ring
      rw [hsplit]
      exact (abs_add_le _ _).trans (add_le_add h.near h'.near)
    _ = ((1 + ε) ^ (k + 1) - 1) * (r + s) := by rw [pow_succ]; ring

end Near

end Rounding
