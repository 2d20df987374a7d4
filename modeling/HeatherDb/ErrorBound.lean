/-
# The error bound of the f32 scan

`scan.rs` scores every location in single precision and rules out those whose
score is too far below the k-th best; how far is `error_bound`. In arithmetic
that rounds as IEEE 754 does (`Ieee`, `IeeeNarrow`) the bound is sound: the
score is a dot product of factors each rounded once, summed through 16
accumulators (`sum_dotF32`), the similarity a dot product summed in turn
(`dot_near`), and the bound itself, computed with rounding as it is, is no less
than what the two lose together (`errorBound_ge`, `gap_le`). Underflow and the
norms' own rounding are in it. What this asks of the vectors is that their norms
are numbers, that the query's is not so short that it is left as it is, and that
they have no more than some 131,000 entries.

Key definitions: `Ieee`, `IeeeNarrow`, `size`, `exactDot`.
Key theorems: `sum_dotF32`, `dotF32_near`, `normalize_near`, `errorBound_ge`, `scan_sound`.
-/
import HeatherDb.Lib.Rounding
import HeatherDb.Ungated

namespace HeatherDb

open Scalar Narrow Rounding

/-- A binary format of IEEE 754 with `p` bits of precision and exponents up to
`e`, rounding to nearest, with gradual underflow. -/
class Ieee (F : Type) [Scalar F] (p e : outParam ℕ) where
  format : Format F
  finite_iff {x : F} : format.finite x ↔ isFinite x = true
  unit_eq : format.unit = 2⁻¹ ^ p
  lost_eq : format.lost = 2⁻¹ ^ (e + p - 1)
  greatest_le : 2 ^ e ≤ format.greatest
  le_iff {x y : F} : isFinite x = true → isFinite y = true → (le x y = true ↔ format.val x ≤ format.val y)
  lt_iff {x y : F} : isFinite x = true → isFinite y = true → (lt x y = true ↔ format.val x < format.val y)
  val_zero : format.val (lit 0) = 0
  neg {x : F} : format.finite x → format.finite (-x) ∧ format.val (-x) = -format.val x
  lit {q : ℚ} : |(q : ℝ)| ≤ format.greatest →
    format.finite (lit q) ∧ |format.val (lit q) - q| ≤ format.unit * |(q : ℝ)| + format.lost
  mul_self {x : F} : format.finite (x * x) → 0 ≤ format.val (x * x)
  div {x y : F} : format.finite x → format.finite y → format.val y ≠ 0 → |format.val x / format.val y| ≤ format.greatest →
    format.finite (x / y) ∧ |format.val (x / y) - format.val x / format.val y| ≤
      format.unit * |format.val x / format.val y| + format.lost
  finite_sqrt {x : F} : format.finite x → 0 ≤ format.val x → format.finite (sqrt x)
  sqrt {x : F} : format.finite (sqrt x) →
    format.finite x ∧ |format.val (sqrt x) - Real.sqrt (format.val x)| ≤ format.unit * Real.sqrt (format.val x)

/-- The value of a number. -/
def value {F : Type} [Scalar F] {p e : ℕ} [Ieee F p e] (x : F) : ℝ := (Ieee.format : Format F).val x

section sums

variable {F : Type} [Scalar F] {p e : ℕ} [Ieee F p e]

theorem val_zero : (Ieee.format : Format F).finite (lit 0) ∧ (Ieee.format : Format F).val (lit 0) = 0 := by
  refine ⟨(Ieee.lit (q := 0) ?_).1, Ieee.val_zero⟩
  rw [Rat.cast_zero, abs_zero]
  exact (by positivity : (0 : ℝ) ≤ 2 ^ e).trans Ieee.greatest_le

/-- What a sum starts from. -/
theorem val_neg_zero : (Ieee.format : Format F).finite (-lit 0) ∧ (Ieee.format : Format F).val (-lit 0) = 0 := by
  obtain ⟨hfinite, hval⟩ := Ieee.neg (val_zero (F := F)).1
  exact ⟨hfinite, by rw [hval, val_zero.2, neg_zero]⟩

/-- Sums of close terms are close. -/
theorem sum_zipWith_close {α : Type} {f g s : α → α → ℝ} {c ε : ℝ} : ∀ {q x : List α}, q.length = x.length →
    (∀ a ∈ q.zip x, |f a.1 a.2 - g a.1 a.2| ≤ c * s a.1 a.2 + ε) →
    |(List.zipWith f q x).sum - (List.zipWith g q x).sum| ≤ c * (List.zipWith s q x).sum + q.length * ε
  | [], x, _, _ => by simp
  | a :: q, [], h, _ => by simp at h
  | a :: q, b :: x, h, hclose => by
    have hrest := sum_zipWith_close (q := q) (x := x) (by simpa using h) fun c hc =>
      hclose c (List.mem_cons_of_mem _ hc)
    have hfirst := hclose (a, b) List.mem_cons_self
    simp only [List.zipWith_cons_cons, List.sum_cons, List.length_cons]
    calc |f a b + (List.zipWith f q x).sum - (g a b + (List.zipWith g q x).sum)|
        = |(f a b - g a b) + ((List.zipWith f q x).sum - (List.zipWith g q x).sum)| := by ring_nf
      _ ≤ (c * s a b + ε) + (c * (List.zipWith s q x).sum + q.length * ε) :=
        (abs_add_le _ _).trans (add_le_add hfirst hrest)
      _ = c * (s a b + (List.zipWith s q x).sum) + ((q.length + 1 : ℕ) : ℝ) * ε := by push_cast; ring

/-- The length of a vector of numbers, without rounding. -/
noncomputable def size (v : List F) : ℝ := l2Norm (v.map value)

theorem size_nonneg (v : List F) : 0 ≤ size v := Real.sqrt_nonneg _

/-- The products of two vectors, without rounding and without their signs. -/
noncomputable def products (q x : List F) : ℝ := (List.zipWith (fun a b => |value a * value b|) q x).sum

theorem products_nonneg (q x : List F) : 0 ≤ products q x := by
  refine List.sum_nonneg fun s hs => ?_
  obtain ⟨i, hi, rfl⟩ := List.getElem_of_mem hs
  rw [List.getElem_zipWith]
  exact abs_nonneg _

theorem length_values (v : List F) : (v.map value).length = v.length := List.length_map _

theorem size_abs (v : List F) : l2Norm ((v.map value).map fun x => |x|) = size v := by
  unfold size l2Norm dot
  rw [sum_real, sum_real, List.zipWith_self, List.zipWith_self, List.map_map, List.map_map, List.map_map]
  refine congrArg Real.sqrt (congrArg List.sum (List.map_congr_left fun x _ => ?_))
  exact abs_mul_abs_self _

/-- An entry is no longer than its vector. -/
theorem abs_value_le {v : List F} {a : F} (h : a ∈ v) : |value a| ≤ size v := by
  obtain ⟨i, hi, rfl⟩ := List.getElem_of_mem h
  have hnorm := PiLp.norm_apply_le (vec v.length (v.map value)) ⟨i, hi⟩
  have hentry : vec v.length (v.map value) ⟨i, hi⟩ = value v[i] := by
    rw [vec_apply, List.getD_eq_getElem _ _ (by simpa using hi), List.getElem_map]
  rwa [hentry, Real.norm_eq_abs, ← l2Norm_eq_norm (length_values v)] at hnorm

/-- **Cauchy–Schwarz.** -/
theorem products_le {q x : List F} (h : q.length = x.length) : products q x ≤ size q * size x := by
  have hdot : products q x = dot ((q.map value).map fun x => |x|) ((x.map value).map fun x => |x|) := by
    rw [products, dot, sum_real, List.zipWith_map, List.zipWith_map]
    exact congrArg List.sum (congrArg (List.zipWith · q x) (funext fun a => funext fun b => abs_mul _ _))
  rw [hdot, dot_eq_inner (d := q.length) (by simp) (by simp [h]), ← size_abs q, ← size_abs x,
    l2Norm_eq_norm (d := q.length) (by simp), l2Norm_eq_norm (d := q.length) (by simp [h])]
  exact real_inner_le_norm _ _

/-- The dot product, without rounding. -/
noncomputable def exactDot (q x : List F) : ℝ := (List.zipWith (fun a b => value a * value b) q x).sum

theorem exactDot_self (v : List F) : exactDot v v = size v ^ 2 := by
  unfold exactDot size
  rw [l2Norm, dot, sum_real, List.zipWith_map, sqrt_real, Real.sq_sqrt]
  refine List.sum_nonneg fun s hs => ?_
  rw [List.zipWith_self, List.mem_map] at hs
  obtain ⟨a, -, rfl⟩ := hs
  exact mul_self_nonneg _

theorem products_self (v : List F) : products v v = size v ^ 2 := by
  rw [← exactDot_self, products, exactDot]
  refine congrArg List.sum ?_
  rw [List.zipWith_self, List.zipWith_self]
  exact List.map_congr_left fun x _ => abs_mul_self _

/-- A product is close to that of the values. -/
theorem mul_near {x y : F} (h : (Ieee.format : Format F).finite (x * y)) :
    |value (x * y) - value x * value y| ≤ 2⁻¹ ^ p * |value x * value y| + 2⁻¹ ^ (e + p - 1) := by
  obtain ⟨-, -, hnear⟩ := (Ieee.format : Format F).mul h
  rwa [Ieee.unit_eq, Ieee.lost_eq] at hnear

/-- **A sum of products that are close** is close to the dot product. -/
theorem near_of_sum {f : F → F → ℝ} {q x : List F} {s g c ε : ℝ} (hlength : q.length = x.length) (hg : 1 ≤ g)
    (hsum : |s - (List.zipWith f q x).sum| ≤ (g - 1) * (List.zipWith (fun a b => |f a b|) q x).sum)
    (hclose : ∀ a ∈ q.zip x, |f a.1 a.2 - value a.1 * value a.2| ≤ c * |value a.1 * value a.2| + ε) :
    |s - exactDot q x| ≤ (g * (1 + c) - 1) * products q x + g * (q.length * ε) := by
  have hterms : |(List.zipWith f q x).sum - exactDot q x| ≤ c * products q x + q.length * ε :=
    sum_zipWith_close hlength hclose
  have hsizes : |(List.zipWith (fun a b => |f a b|) q x).sum - products q x| ≤ c * products q x + q.length * ε :=
    sum_zipWith_close hlength fun a ha => (abs_abs_sub_abs_le _ _).trans (hclose a ha)
  have htotal : (List.zipWith (fun a b => |f a b|) q x).sum ≤ (1 + c) * products q x + q.length * ε := by
    linarith [(abs_le.mp hsizes).2]
  calc |s - exactDot q x|
      ≤ |s - (List.zipWith f q x).sum| + |(List.zipWith f q x).sum - exactDot q x| := abs_sub_le _ _ _
    _ ≤ (g - 1) * ((1 + c) * products q x + q.length * ε) + (c * products q x + q.length * ε) :=
        add_le_add (hsum.trans (mul_le_mul_of_nonneg_left htotal (by linarith))) hterms
    _ = (g * (1 + c) - 1) * products q x + g * (q.length * ε) := by ring

/-- A dot product that is a number came of products that are, and adds them up. -/
theorem sum_dot {q x : List F} (hlength : q.length = x.length) (h : isFinite (dot q x) = true) :
    (∀ a ∈ q.zip x, (Ieee.format : Format F).finite (a.1 * a.2)) ∧
      |value (dot q x) - (List.zipWith (fun a b => value (a * b)) q x).sum| ≤
        ((1 + 2⁻¹ ^ p) ^ (q.length - 1) - 1) * (List.zipWith (fun a b => |value (a * b)|) q x).sum := by
  have hzip : List.zipWith (· * ·) q x = (q.zip x).map fun a => a.1 * a.2 :=
    List.map_uncurry_zip_eq_zipWith.symm
  have hmany : (List.zipWith (· * ·) q x).length = q.length := by simp [hlength]
  have hfinite : (Ieee.format : Format F).finite
      ((List.zipWith (· * ·) q x).foldl (fun s b => s + id b) (-lit 0)) := Ieee.finite_iff.mpr h
  obtain ⟨-, hall⟩ := finite_of_foldl hfinite
  have hsum := Sum.foldl_zero (n := 0) value (fun b => |value b|)
    (fun b _ => Sum.single b) val_neg_zero.2 hfinite
  refine ⟨fun a ha => hall _ (hzip ▸ List.mem_map_of_mem ha), ?_⟩
  have hnear := hsum.near
  rw [hmany, Nat.zero_add, Format.growth, Ieee.unit_eq, List.map_zipWith, List.map_zipWith] at hnear
  exact hnear

/-- **The dot product, rounded.** -/
theorem dot_near {q x : List F} (hlength : q.length = x.length) (hpos : 0 < q.length)
    (h : isFinite (dot q x) = true) :
    |value (dot q x) - exactDot q x| ≤ ((1 + 2⁻¹ ^ p) ^ q.length - 1) * products q x +
      (1 + 2⁻¹ ^ p) ^ (q.length - 1) * (q.length * 2⁻¹ ^ (e + p - 1)) := by
  obtain ⟨hall, hsum⟩ := sum_dot hlength h
  have hunit : (0 : ℝ) ≤ 2⁻¹ ^ p := by positivity
  have hnear := near_of_sum hlength (one_le_pow₀ (le_add_of_nonneg_right hunit)) hsum fun a ha => mul_near (hall a ha)
  rwa [← pow_succ, Nat.sub_add_cancel hpos] at hnear

end sums

section lanes

variable {S : Type} [Scalar S] {p e : ℕ} [Ieee S p e]

/-- **The 16 accumulators add up**, each product through no more roundings than
there are other products. -/
theorem sum_dotF32 {a b : List S} (hlength : a.length = b.length) (hpos : 0 < a.length)
    (hall : ∀ c ∈ a.zip b, (Ieee.format : Format S).finite (c.1 * c.2))
    (hrange : (1 + 2⁻¹ ^ p) ^ (a.length + 16) * (List.zipWith (fun x y => |value (x * y)|) a b).sum ≤ 2 ^ e) :
    isFinite (dotF32 a b) = true ∧ |value (dotF32 a b) - (List.zipWith (fun x y => value (x * y)) a b).sum| ≤
      ((1 + 2⁻¹ ^ p) ^ (a.length - 1) - 1) * (List.zipWith (fun x y => |value (x * y)|) a b).sum := by
  set fmt : Format S := Ieee.format with hfmt
  set terms := List.zipWith (fun x y => value (x * y)) a b with hterms
  set sizes := List.zipWith (fun x y => |value (x * y)|) a b with hsizes
  have hmany : terms.length = a.length := by simp [hterms, hlength]
  have hmany' : sizes.length = a.length := by simp [hsizes, hlength]
  -- the product at an index, with its value
  have hproduct : ∀ i < a.length, fmt.finite (a.getD i (lit 0) * b.getD i (lit 0)) ∧
      Sum fmt 0 (terms.getD i 0) (sizes.getD i 0) (a.getD i (lit 0) * b.getD i (lit 0)) := by
    intro i hi
    have hi' : i < b.length := hlength ▸ hi
    have hmem : (a[i], b[i]) ∈ a.zip b := by
      refine List.mem_iff_getElem.mpr ⟨i, by simp [hi, hi'], by simp⟩
    rw [List.getD_eq_getElem _ _ hi, List.getD_eq_getElem _ _ hi', List.getD_eq_getElem _ _ (hmany.symm ▸ hi),
      List.getD_eq_getElem _ _ (hmany'.symm ▸ hi)]
    refine ⟨hall _ hmem, ?_⟩
    simp only [hterms, hsizes, List.getElem_zipWith]
    exact Sum.single _
  have hnonneg : ∀ l : List ℝ, l ⊆ sizes → 0 ≤ l.sum := by
    intro l hl
    refine List.sum_nonneg fun s hs => ?_
    obtain ⟨i, hi, rfl⟩ := List.getElem_of_mem (hl hs)
    rw [List.getElem_zipWith]
    exact abs_nonneg _
  have hgreatest : fmt.growth (a.length + 16) * sizes.sum ≤ fmt.greatest := by
    rw [Format.growth, hfmt, Ieee.unit_eq]
    exact hrange.trans Ieee.greatest_le
  set q := a.length / 16 with hq
  have hfits : 16 * q ≤ terms.length := hmany.symm ▸ Nat.mul_div_le a.length 16
  have hfits' : 16 * q ≤ sizes.length := hmany'.symm ▸ Nat.mul_div_le a.length 16
  -- whole chunks, lane by lane
  set lane := fun j => (List.range q).foldl
    (fun s c => s + a.getD (16 * c + j) (lit 0) * b.getD (16 * c + j) (lit 0)) (lit 0) with hlane
  set laneTerm := fun j => ((List.range q).map fun c => terms.getD (16 * c + j) 0).sum with hlaneTerm
  set laneSize := fun j => ((List.range q).map fun c => sizes.getD (16 * c + j) 0).sum with hlaneSize
  have hlaneTerms : ((List.range 16).map laneTerm).sum = (terms.take (16 * q)).sum := sum_lanes terms hfits
  have hlaneSizes : ((List.range 16).map laneSize).sum = (sizes.take (16 * q)).sum := sum_lanes sizes hfits'
  have htake : (sizes.take (16 * q)).sum ≤ sizes.sum := by
    rw [← List.take_append_drop (16 * q) sizes, List.sum_append, List.take_append_drop]
    exact le_add_of_nonneg_right (hnonneg _ (List.drop_subset _ _))
  have hlaneSize_nonneg : ∀ j, 0 ≤ laneSize j := fun j => List.sum_nonneg fun s hs => by
    obtain ⟨c, -, rfl⟩ := List.mem_map.mp hs
    rcases lt_or_ge (16 * c + j) sizes.length with hlt | hge
    · rw [List.getD_eq_getElem _ _ hlt]
      simp only [hsizes, List.getElem_zipWith]
      exact abs_nonneg _
    · rw [List.getD_eq_default _ _ hge]
  have hlanes : ∀ j ∈ List.range 16, fmt.finite (lane j) ∧ Sum fmt (q - 1) (laneTerm j) (laneSize j) (lane j) := by
    intro j hj
    have hj := List.mem_range.mp hj
    have hone : laneSize j ≤ sizes.sum := by
      refine le_trans ?_ (hlaneSizes.trans_le htake)
      exact List.single_le_sum (fun s hs => by
        obtain ⟨j, -, rfl⟩ := List.mem_map.mp hs
        exact hlaneSize_nonneg j) _ (List.mem_map_of_mem (List.mem_range.mpr hj))
    have hloop := sum_foldl_zero (n := 0) (l := List.range q) (z := lit 0)
      (f := fun c => a.getD (16 * c + j) (lit 0) * b.getD (16 * c + j) (lit 0))
      (fun c => terms.getD (16 * c + j) 0) (fun c => sizes.getD (16 * c + j) 0)
      (fun c hc => hproduct _ (by have := List.mem_range.mp hc; omega)) val_zero.1 val_zero.2 (by
        rw [List.length_range, Nat.zero_add]
        exact (mul_le_mul (fmt.growth_mono (by omega)) hone (hlaneSize_nonneg j) (fmt.growth_nonneg _)).trans hgreatest)
    rwa [List.length_range, Nat.zero_add] at hloop
  have hchunks : fmt.finite (sum ((List.range 16).map lane)) ∧
      Sum fmt (q - 1 + 15) (terms.take (16 * q)).sum (sizes.take (16 * q)).sum (sum ((List.range 16).map lane)) := by
    have hloop := sum_foldl_zero laneTerm laneSize hlanes val_neg_zero.1 val_neg_zero.2 (by
      rw [hlaneSizes, List.length_range]
      exact (mul_le_mul (fmt.growth_mono (by omega)) htake (hnonneg _ (List.take_subset _ _))
        (fmt.growth_nonneg _)).trans hgreatest)
    rw [hlaneTerms, hlaneSizes, List.length_range] at hloop
    rw [sum, List.foldl_map]
    exact hloop
  -- what is left over, product by product
  set rest := List.zip (a.drop (16 * q)) (b.drop (16 * q)) with hrest
  have hdropped : rest = (a.zip b).drop (16 * q) := by
    rw [hrest, List.zip_eq_zipWith, List.zip_eq_zipWith, List.drop_zipWith]
  have hmap : ∀ g : S → S → ℝ, (rest.map fun c => g c.1 c.2) = (List.zipWith g a b).drop (16 * q) := fun g => by
    rw [hdropped, List.map_drop]
    exact congrArg (List.drop (16 * q)) List.map_uncurry_zip_eq_zipWith
  have hcount : rest.length = a.length - 16 * q := by simp [hrest, hlength]
  have hmod : 16 * q + rest.length = a.length := by rw [hcount]; omega
  have hsplit : ∀ l : List ℝ, (l.take (16 * q)).sum + (l.drop (16 * q)).sum = l.sum := fun l => by
    rw [← List.sum_append, List.take_append_drop]
  have hproducts : ∀ n, ∀ c ∈ rest, fmt.finite (c.1 * c.2) ∧
      Sum fmt n (value (c.1 * c.2)) |value (c.1 * c.2)| (c.1 * c.2) := fun n c hc =>
    ⟨hall c (List.mem_of_mem_drop (hdropped ▸ hc)), (Sum.single _).mono (Nat.zero_le n)⟩
  have hdot : dotF32 a b = rest.foldl (fun s c => s + c.1 * c.2) (sum ((List.range 16).map lane)) := by
    rw [dotF32, ← hlength, Nat.min_self]
  have hend : fmt.finite (rest.foldl (fun s c => s + c.1 * c.2) (sum ((List.range 16).map lane))) := by
    refine finite_foldl (fun c => value (c.1 * c.2)) (fun c => |value (c.1 * c.2)|) (fun c hc => hproducts _ c hc) hchunks.1 hchunks.2 ?_
    rw [hmap fun x y => |value (x * y)|, hsplit]
    exact (mul_le_mul_of_nonneg_right (fmt.growth_mono (by omega)) (hnonneg _ fun _ h => h)).trans hgreatest
  have hsum : Sum fmt (a.length - 1) terms.sum sizes.sum
      (rest.foldl (fun s c => s + c.1 * c.2) (sum ((List.range 16).map lane))) := by
    rcases Nat.eq_zero_or_pos q with hfew | hchunk
    · -- no whole chunk: the loop over the rest starts from zero
      have hstart := hchunks.2
      rw [hfew, Nat.mul_zero, List.take_zero, List.take_zero, List.sum_nil] at hstart
      have hloop := Sum.foldl_zero (n := 0) (fun c => value (c.1 * c.2)) (fun c => |value (c.1 * c.2)|)
        (fun c hc => (hproducts 0 c hc).2) hstart.val_eq_zero hend
      rw [hmap fun x y => value (x * y), hmap fun x y => |value (x * y)|, hfew, Nat.mul_zero, List.drop_zero,
        List.drop_zero] at hloop
      exact hloop.mono (by omega)
    · have hloop := Sum.foldl (fun c => value (c.1 * c.2)) (fun c => |value (c.1 * c.2)|)
        (fun c hc => (hproducts _ c hc).2) hchunks.2 hend
      rw [hmap fun x y => value (x * y), hmap fun x y => |value (x * y)|, hsplit, hsplit] at hloop
      exact hloop.mono (by omega)
  have hnear := hsum.near
  rw [Format.growth, hfmt, Ieee.unit_eq] at hnear
  rw [hdot]
  exact ⟨Ieee.finite_iff.mp hend, hnear⟩

end lanes

section double

variable {F : Type} [Scalar F] [Ieee F 53 1023]

theorem unit_double : (Ieee.format : Format F).unit = 2⁻¹ ^ 53 := Ieee.unit_eq

theorem lost_double : (Ieee.format : Format F).lost = 2⁻¹ ^ 1075 := Ieee.lost_eq

/-- What underflow loses is nothing beside a rounding. -/
theorem lost_le {r : ℝ} (hr : 2⁻¹ ^ 1000 ≤ r) :
    (Ieee.format : Format F).lost ≤ (Ieee.format : Format F).unit * r := by
  rw [unit_double, lost_double]
  calc (2⁻¹ : ℝ) ^ 1075 ≤ 2⁻¹ ^ 53 * 2⁻¹ ^ 1000 := by
        rw [← pow_add]
        exact pow_le_pow_of_le_one (by norm_num) (by norm_num) (by norm_num)
    _ ≤ 2⁻¹ ^ 53 * r := mul_le_mul_of_nonneg_left hr (by positivity)

theorem least_le : (2⁻¹ : ℝ) ^ 1000 ≤ 2⁻¹ ^ 200 := pow_le_pow_of_le_one (by norm_num) (by norm_num) (by norm_num)

theorem le_most : (2 : ℝ) ^ 200 ≤ 2 ^ 1000 := pow_le_pow_right₀ one_le_two (by norm_num)

theorem le_greatest {r : ℝ} (hr : r ≤ 2 ^ 1000) : r ≤ (Ieee.format : Format F).greatest :=
  (hr.trans (pow_le_pow_right₀ one_le_two (by norm_num))).trans Ieee.greatest_le

/-- A literal. -/
theorem near_lit {q : ℚ} {r : ℝ} (hq : (q : ℝ) = r) (hlow : 2⁻¹ ^ 1000 ≤ r) (hhigh : r ≤ 2 ^ 1000) :
    Near (Ieee.format : Format F) (2⁻¹ ^ 52) 1 r (lit q) := by
  subst hq
  have hpos : (0 : ℝ) ≤ q := (by positivity : (0 : ℝ) ≤ 2⁻¹ ^ 1000).trans hlow
  have habs : |(q : ℝ)| = q := abs_of_nonneg hpos
  obtain ⟨hfinite, hnear⟩ := Ieee.lit (F := F) (q := q) (by rw [habs]; exact le_greatest hhigh)
  refine ⟨hfinite, hpos, hnear.trans ?_⟩
  rw [habs]
  calc (Ieee.format : Format F).unit * (q : ℝ) + (Ieee.format : Format F).lost
      ≤ 2⁻¹ ^ 53 * (q : ℝ) + 2⁻¹ ^ 53 * (q : ℝ) :=
        add_le_add (by rw [unit_double]) ((lost_le hlow).trans_eq (by rw [unit_double]))
    _ = ((1 + 2⁻¹ ^ 52) ^ 1 - 1) * (q : ℝ) := by ring

/-- Entries that are small enough make a vector that is short enough. -/
theorem l2Norm_map_le {α : Type} (f g : α → ℝ) {c ε : ℝ} (hc : 0 ≤ c) (hε : 0 ≤ ε) : ∀ {v : List α},
    (∀ a ∈ v, |f a| ≤ c * |g a| + ε) → l2Norm (v.map f) ≤ c * l2Norm (v.map g) + v.length * ε
  | [], _ => by simp [l2Norm, dot, sum]
  | a :: v, h => by
    have hsq : ∀ v : List ℝ, l2Norm v ^ 2 = (v.map fun x => x * x).sum := fun v => by
      rw [l2Norm, sqrt_real, dot, sum_real, List.zipWith_self, Real.sq_sqrt]
      exact List.sum_nonneg fun s hs => by
        obtain ⟨a, -, rfl⟩ := List.mem_map.mp hs
        exact mul_self_nonneg a
    have hnorm : ∀ v : List ℝ, 0 ≤ l2Norm v := fun _ => Real.sqrt_nonneg _
    -- one entry and the rest are the sides of a right triangle
    have hcons : ∀ (x : ℝ) (v : List ℝ), l2Norm (x :: v) ^ 2 = x ^ 2 + l2Norm v ^ 2 := fun x v => by
      rw [hsq, hsq, List.map_cons, List.sum_cons, sq]
    have hfirst : |f a| ≤ c * |g a| + ε := h a List.mem_cons_self
    have hrest := l2Norm_map_le f g hc hε fun b hb => h b (List.mem_cons_of_mem _ hb)
    rw [List.map_cons, List.map_cons, List.length_cons]
    have hv := hcons (g a) (v.map g)
    have hvpos := hnorm (v.map g)
    have hall := hnorm (g a :: v.map g)
    have hcount : (0 : ℝ) ≤ v.length := v.length.cast_nonneg
    have hb : |g a| ≤ l2Norm (g a :: v.map g) := abs_le_of_sq_le_sq (by rw [hv]; linarith [sq_nonneg (l2Norm (v.map g))]) hall
    have hless : l2Norm (v.map g) ≤ l2Norm (g a :: v.map g) :=
      (pow_le_pow_iff_left₀ hvpos hall two_ne_zero).mp (by rw [hv]; linarith [sq_nonneg (g a)])
    refine (pow_le_pow_iff_left₀ (hnorm _) (by positivity) two_ne_zero).mp ?_
    have ha2 : f a ^ 2 ≤ (c * |g a| + ε) ^ 2 := by
      rw [← sq_abs]
      exact pow_le_pow_left₀ (abs_nonneg _) hfirst 2
    have hw2 : l2Norm (v.map f) ^ 2 ≤ (c * l2Norm (v.map g) + v.length * ε) ^ 2 :=
      pow_le_pow_left₀ (hnorm _) hrest 2
    push_cast
    calc l2Norm (f a :: v.map f) ^ 2 ≤ (c * |g a| + ε) ^ 2 + (c * l2Norm (v.map g) + v.length * ε) ^ 2 := by
          rw [hcons]
          linarith
      _ = c ^ 2 * (g a ^ 2 + l2Norm (v.map g) ^ 2) + 2 * (c * ε) * |g a| +
          2 * (c * (v.length * ε)) * l2Norm (v.map g) + (ε ^ 2 + (v.length * ε) ^ 2) := by rw [← sq_abs (g a)]; ring
      _ ≤ c ^ 2 * l2Norm (g a :: v.map g) ^ 2 + 2 * (c * ε) * l2Norm (g a :: v.map g) +
          2 * (c * (v.length * ε)) * l2Norm (g a :: v.map g) +
          (ε ^ 2 + (v.length * ε) ^ 2 + 2 * (v.length * ε) * ε) := by
        rw [hv]
        have h1 := mul_le_mul_of_nonneg_left hb (by positivity : 0 ≤ 2 * (c * ε))
        have h2 := mul_le_mul_of_nonneg_left hless (by positivity : 0 ≤ 2 * (c * (v.length * ε)))
        have h3 : 0 ≤ 2 * (v.length * ε) * ε := by positivity
        linarith
      _ = (c * l2Norm (g a :: v.map g) + (v.length + 1) * ε) ^ 2 := by ring

theorem growth_few {n : ℕ} (hfew : n ≤ 2 ^ 17) : ((1 : ℝ) + 2⁻¹ ^ 53) ^ n - 1 ≤ 2⁻¹ ^ 35 := by
  have hn : (n : ℝ) ≤ 2 ^ 17 := by exact_mod_cast hfew
  have hle := growth_le (u := 2⁻¹ ^ 53) (c := 2) (n := n) (by positivity) one_le_two (by linarith)
  linarith

/-- What underflow loses over few terms. -/
theorem lost_few {n : ℕ} (hfew : n ≤ 2 ^ 17) :
    ((1 : ℝ) + 2⁻¹ ^ 53) ^ (n - 1) * (n * 2⁻¹ ^ (1023 + 53 - 1)) ≤ (2⁻¹ ^ 500) ^ 2 := by
  have hn : (n : ℝ) ≤ 2 ^ 17 := by exact_mod_cast hfew
  have hgrowth := growth_few (n := n - 1) (by omega)
  rw [← pow_mul]
  obtain ⟨κ, hκ⟩ : ∃ κ : ℝ, κ = 2⁻¹ ^ (500 * 2) := ⟨_, rfl⟩
  have hκpos : 0 ≤ κ := hκ ▸ by positivity
  have hlost : (2⁻¹ : ℝ) ^ (1023 + 53 - 1) = κ * 2⁻¹ ^ 75 := by rw [hκ, ← pow_add]
  rw [hlost, ← hκ]
  calc ((1 : ℝ) + 2⁻¹ ^ 53) ^ (n - 1) * (n * (κ * 2⁻¹ ^ 75)) ≤ 2 * (2 ^ 17 * (κ * 2⁻¹ ^ 75)) :=
        mul_le_mul (by linarith) (mul_le_mul_of_nonneg_right hn (by positivity)) (by positivity) zero_le_two
    _ ≤ κ := by linarith

/-- The dot product of a vector with itself is nearly the square of its length. -/
theorem dot_self_near {v : List F} (hpos : 0 < v.length) (hfew : v.length ≤ 2 ^ 17) (h : isFinite (dot v v) = true) :
    |value (dot v v) - size v ^ 2| ≤ 2⁻¹ ^ 35 * size v ^ 2 + (2⁻¹ ^ 500) ^ 2 := by
  have hnear := dot_near rfl hpos h
  rw [exactDot_self, products_self] at hnear
  exact hnear.trans (add_le_add (mul_le_mul_of_nonneg_right (growth_few hfew) (sq_nonneg _)) (lost_few hfew))

/-- **The norm, rounded,** is no shorter than the vector, but for little. -/
theorem size_le {v : List F} (hpos : 0 < v.length) (hfew : v.length ≤ 2 ^ 17) (h : isFinite (l2Norm v) = true) :
    (∀ a ∈ v, isFinite a = true) ∧ size v ≤ (1 + 2⁻¹ ^ 30) * (value (l2Norm v) + 2⁻¹ ^ 500) := by
  obtain ⟨hdot, hsqrt⟩ := Ieee.sqrt (Ieee.finite_iff.mpr h)
  have hdot := Ieee.finite_iff.mp hdot
  have hall := (sum_dot rfl hdot).1
  refine ⟨fun a ha => ?_, ?_⟩
  · obtain ⟨i, hi, rfl⟩ := List.getElem_of_mem ha
    have hmem : (v[i], v[i]) ∈ v.zip v := List.mem_iff_getElem.mpr ⟨i, by simpa using hi, by simp⟩
    exact Ieee.finite_iff.mp ((Ieee.format : Format F).mul (hall _ hmem)).1
  have hnear := (abs_le.mp (dot_self_near hpos hfew hdot)).1
  change |value (l2Norm v) - Real.sqrt (value (dot v v))| ≤ _ * Real.sqrt (value (dot v v)) at hsqrt
  rw [unit_double] at hsqrt
  generalize value (dot v v) = D at hnear hsqrt
  generalize value (l2Norm v) = N at hsqrt ⊢
  have hroot : D ≤ Real.sqrt D ^ 2 := by
    rcases le_total 0 D with hD0 | hD0
    · rw [Real.sq_sqrt hD0]
    · exact hD0.trans (sq_nonneg _)
  have hRpos : 0 ≤ Real.sqrt D := Real.sqrt_nonneg _
  generalize Real.sqrt D = R at hroot hRpos hsqrt
  have hRle : R * (1 - 2⁻¹ ^ 53) ≤ N := by linarith [(abs_le.mp hsqrt).1]
  have hNpos : 0 ≤ N := (mul_nonneg hRpos (by norm_num)).trans hRle
  have hρpos : (0 : ℝ) ≤ 2⁻¹ ^ 500 := by positivity
  generalize (2⁻¹ : ℝ) ^ 500 = ρ at hρpos hnear ⊢
  have hbound : size v ^ 2 ≤ ((1 + 2⁻¹ ^ 34) * (R + ρ)) ^ 2 := by
    have hsum : D + ρ ^ 2 ≤ (R + ρ) ^ 2 := by
      have := mul_nonneg hRpos hρpos
      linarith [add_sq R ρ]
    have hsq : size v ^ 2 * (1 - 2⁻¹ ^ 35) ≤ (R + ρ) ^ 2 := by linarith
    calc size v ^ 2 ≤ (1 + 2⁻¹ ^ 34) ^ 2 * (size v ^ 2 * (1 - 2⁻¹ ^ 35)) := by
          have hone : (1 : ℝ) ≤ (1 + 2⁻¹ ^ 34) ^ 2 * (1 - 2⁻¹ ^ 35) := by norm_num
          linarith [le_mul_of_one_le_right (sq_nonneg (size v)) hone]
      _ ≤ ((1 + 2⁻¹ ^ 34) * (R + ρ)) ^ 2 := by
        rw [mul_pow]
        exact mul_le_mul_of_nonneg_left hsq (by positivity)
  have hsize : size v ≤ (1 + 2⁻¹ ^ 34) * (R + ρ) :=
    (pow_le_pow_iff_left₀ (size_nonneg v) (by positivity) two_ne_zero).mp hbound
  have hRN : R ≤ (1 + 2⁻¹ ^ 50) * N := by linarith
  calc size v ≤ (1 + 2⁻¹ ^ 34) * ((1 + 2⁻¹ ^ 50) * N + ρ) :=
        hsize.trans (mul_le_mul_of_nonneg_left (by linarith) (by positivity))
    _ ≤ (1 + 2⁻¹ ^ 30) * (N + ρ) := by linarith

theorem l2Norm_nonneg {v : List F} (h : isFinite (l2Norm v) = true) : 0 ≤ value (l2Norm v) := by
  obtain ⟨-, hsqrt⟩ := Ieee.sqrt (Ieee.finite_iff.mpr h)
  change |value (l2Norm v) - Real.sqrt (value (dot v v))| ≤ _ * Real.sqrt (value (dot v v)) at hsqrt
  rw [unit_double] at hsqrt
  linarith [(abs_le.mp hsqrt).1, Real.sqrt_nonneg (value (dot v v))]

/-- Vectors of usual length have a dot product. -/
theorem finite_dot {q x : List F} (hlength : q.length = x.length) (hfew : q.length ≤ 2 ^ 17)
    (hq : ∀ a ∈ q, isFinite a = true) (hx : ∀ b ∈ x, isFinite b = true) (hsize : size q ≤ 2)
    (hsize' : size x ≤ 2 ^ 101) : isFinite (dot q x) = true := by
  have hspos := size_nonneg x
  have hproduct : ∀ c ∈ q.zip x, (Ieee.format : Format F).finite (c.1 * c.2) := by
    intro c hc
    obtain ⟨hc1, hc2⟩ := List.of_mem_zip hc
    have hrange : |value c.1 * value c.2| ≤ 2 * 2 ^ 101 := by
      rw [abs_mul]
      exact mul_le_mul ((abs_value_le hc1).trans hsize) ((abs_value_le hc2).trans hsize') (abs_nonneg _) zero_le_two
    exact Format.finite_mul _ (Ieee.finite_iff.mpr (hq _ hc1)) (Ieee.finite_iff.mpr (hx _ hc2))
      (le_greatest ((hrange.trans (by norm_num)).trans le_most))
  have hsizes : (List.zipWith (fun a b => |value (a * b)|) q x).sum ≤ 2 ^ 104 := by
    have hclose := sum_zipWith_close (f := fun a b => |value (a * b)|)
      (g := fun a b => |value a * value b|) (s := fun a b => |value a * value b|) hlength fun c hc =>
        (abs_abs_sub_abs_le _ _).trans (mul_near (hproduct c hc))
    have hle := (abs_le.mp hclose).2
    change _ - products q x ≤ _ * products q x + _ at hle
    have hall : products q x ≤ 2 * 2 ^ 101 := (products_le hlength).trans (mul_le_mul hsize hsize' hspos zero_le_two)
    have hn : (q.length : ℝ) ≤ 2 ^ 17 := by exact_mod_cast hfew
    have hlost : (q.length : ℝ) * 2⁻¹ ^ (1023 + 53 - 1) ≤ 2 ^ 17 * 1 :=
      mul_le_mul hn (pow_le_one₀ (by norm_num) (by norm_num)) (by positivity) (by positivity)
    generalize (q.length : ℝ) * 2⁻¹ ^ (1023 + 53 - 1) = lost at hle hlost
    linarith
  have hzip : List.zipWith (· * ·) q x = (q.zip x).map fun a => a.1 * a.2 := List.map_uncurry_zip_eq_zipWith.symm
  refine Ieee.finite_iff.mp (finite_foldl (f := id) value (fun b => |value b|) (fun b hb => ?_) val_neg_zero.1
    (Sum.zero 0 val_neg_zero.2) ?_)
  · rw [hzip] at hb
    obtain ⟨c, hc, rfl⟩ := List.mem_map.mp hb
    exact ⟨hproduct c hc, Sum.single _⟩
  · have hmany : (List.zipWith (· * ·) q x).length = q.length := by simp [hlength]
    rw [hmany, Nat.zero_add, zero_add, Format.growth, unit_double, List.map_zipWith]
    have hgrowth := growth_few hfew
    refine le_greatest (le_trans ?_ le_most)
    calc _ ≤ 2 * (2 : ℝ) ^ 104 := mul_le_mul (by linarith) hsizes (List.sum_nonneg fun s hs => by
            obtain ⟨i, hi, rfl⟩ := List.getElem_of_mem hs
            rw [List.getElem_zipWith]
            exact abs_nonneg _) zero_le_two
      _ ≤ 2 ^ 200 := by norm_num

/-- The norm of a vector that has one is no longer than it, but for little. -/
theorem l2Norm_le {v : List F} (hpos : 0 < v.length) (hfew : v.length ≤ 2 ^ 17) (hdot : isFinite (dot v v) = true) :
    isFinite (l2Norm v) = true ∧ value (l2Norm v) ≤ (1 + 2⁻¹ ^ 30) * (size v + 2⁻¹ ^ 500) := by
  have hnonneg : 0 ≤ value (dot v v) := by
    obtain ⟨hall, hsum⟩ := sum_dot rfl hdot
    have hsigns : List.zipWith (fun a b => |value (a * b)|) v v = List.zipWith (fun a b => value (a * b)) v v := by
      rw [List.zipWith_self, List.zipWith_self]
      refine List.map_congr_left fun a ha => abs_of_nonneg ?_
      obtain ⟨i, hi, rfl⟩ := List.getElem_of_mem ha
      exact Ieee.mul_self (hall (v[i], v[i]) (List.mem_iff_getElem.mpr ⟨i, by simpa using hi, by simp⟩))
    rw [hsigns] at hsum
    have hterms : 0 ≤ (List.zipWith (fun a b => value (a * b)) v v).sum := by
      rw [← hsigns]
      refine List.sum_nonneg fun s hs => ?_
      obtain ⟨i, hi, rfl⟩ := List.getElem_of_mem hs
      rw [List.getElem_zipWith]
      exact abs_nonneg _
    have hless := mul_le_mul_of_nonneg_right (growth_few (n := v.length - 1) (by omega)) hterms
    linarith [(abs_le.mp hsum).1]
  have hfinite := Ieee.finite_sqrt (Ieee.finite_iff.mpr hdot) hnonneg
  refine ⟨Ieee.finite_iff.mp hfinite, ?_⟩
  obtain ⟨-, hsqrt⟩ := Ieee.sqrt hfinite
  have hnear := (abs_le.mp (dot_self_near hpos hfew hdot)).2
  change |value (l2Norm v) - Real.sqrt (value (dot v v))| ≤ _ * Real.sqrt (value (dot v v)) at hsqrt
  rw [unit_double] at hsqrt
  have hρpos : (0 : ℝ) ≤ 2⁻¹ ^ 500 := by positivity
  generalize (2⁻¹ : ℝ) ^ 500 = ρ at hρpos hnear ⊢
  have hspos := size_nonneg v
  have hroot : Real.sqrt (value (dot v v)) ≤ (1 + 2⁻¹ ^ 34) * (size v + ρ) := by
    refine Real.sqrt_le_iff.mpr ⟨by positivity, ?_⟩
    have hexpand : (size v + ρ) ^ 2 = size v ^ 2 + 2 * size v * ρ + ρ ^ 2 := by ring
    have hcross : 0 ≤ size v * ρ := mul_nonneg hspos hρpos
    have hsq := sq_nonneg (size v)
    have hsq' := sq_nonneg ρ
    rw [mul_pow, hexpand]
    linarith
  linarith [(abs_le.mp hsqrt).2]

/-- What a division by the norm makes of the entries. -/
theorem div_near {v : List F} {n : F} {N : ℝ} (hN : value n = N) (hNpos : 0 < N) (hn : isFinite n = true)
    (hv : ∀ a ∈ v, isFinite a = true) (hsize : size v ≤ 2 * N) :
    ∀ a ∈ v, isFinite (a / n) = true ∧
      |value (a / n) - value a / N| ≤ 2⁻¹ ^ 53 * |value a / N| + 2⁻¹ ^ 1075 := by
  intro a ha
  have hrange : |value a / N| ≤ 2 := by
    rw [abs_div, abs_of_pos hNpos]
    exact (div_le_iff₀ hNpos).mpr ((abs_value_le ha).trans hsize)
  have hdiv := Ieee.div (Ieee.finite_iff.mpr (hv a ha)) (Ieee.finite_iff.mpr hn)
    (show value n ≠ 0 from hN ▸ hNpos.ne') (by
      change |value a / value n| ≤ _
      rw [hN]
      exact le_greatest ((hrange.trans (by norm_num)).trans le_most))
  obtain ⟨hfinite, hnear⟩ := hdiv
  change |value (a / n) - value a / value n| ≤ _ * |value a / value n| + _ at hnear
  rw [hN, unit_double, lost_double] at hnear
  exact ⟨Ieee.finite_iff.mp hfinite, hnear⟩

/-- **A vector divided by its norm** has length nearly 1. -/
theorem size_divided {v : List F} {n : F} {N : ℝ} (hN : value n = N) (hfew : v.length ≤ 2 ^ 17)
    (hlow : 2⁻¹ ^ 41 ≤ N) (hn : isFinite n = true) (hv : ∀ a ∈ v, isFinite a = true)
    (hupper : size v ≤ (1 + 2⁻¹ ^ 30) * (N + 2⁻¹ ^ 500)) (hlower : N ≤ (1 + 2⁻¹ ^ 30) * (size v + 2⁻¹ ^ 500)) :
    (∀ a ∈ v.map (· / n), isFinite a = true) ∧ size (v.map (· / n)) ≤ 1 + 2⁻¹ ^ 20 ∧
      1 - 2⁻¹ ^ 20 ≤ size (v.map (· / n)) := by
  have hNpos : 0 < N := lt_of_lt_of_le (by positivity) hlow
  have hρ : (2⁻¹ : ℝ) ^ 500 ≤ 2⁻¹ ^ 40 * N := by
    calc (2⁻¹ : ℝ) ^ 500 ≤ 2⁻¹ ^ 40 * 2⁻¹ ^ 41 := by
          rw [← pow_add]
          exact pow_le_pow_of_le_one (by norm_num) (by norm_num) (by norm_num)
      _ ≤ 2⁻¹ ^ 40 * N := mul_le_mul_of_nonneg_left hlow (by positivity)
  have hρpos : (0 : ℝ) ≤ 2⁻¹ ^ 500 := by positivity
  have hε : (v.length : ℝ) * 2⁻¹ ^ 1075 ≤ 2⁻¹ ^ 40 := by
    have hn : (v.length : ℝ) ≤ 2 ^ 17 := by exact_mod_cast hfew
    calc (v.length : ℝ) * 2⁻¹ ^ 1075 ≤ 2 ^ 17 * 2⁻¹ ^ 57 :=
          mul_le_mul hn (pow_le_pow_of_le_one (by norm_num) (by norm_num) (by norm_num)) (by positivity) (by positivity)
      _ = 2⁻¹ ^ 40 := by norm_num
  have hεpos : (0 : ℝ) ≤ 2⁻¹ ^ 1075 := by positivity
  generalize (2⁻¹ : ℝ) ^ 500 = ρ at hupper hlower hρ hρpos
  have hentry := div_near hN hNpos hn hv (by linarith)
  generalize (2⁻¹ : ℝ) ^ 1075 = ε at hε hεpos hentry
  refine ⟨fun x hx => ?_, ?_⟩
  · obtain ⟨a, ha, rfl⟩ := List.mem_map.mp hx
    exact (hentry a ha).1
  -- the vector divided without rounding
  set t := l2Norm (v.map fun a => value a / N) with ht
  have hw : size (v.map (· / n)) = l2Norm (v.map fun a => value (a / n)) := by rw [size, List.map_map]; rfl
  have ht1 : t ≤ N⁻¹ * size v := by
    refine (l2Norm_map_le _ value (inv_nonneg.mpr hNpos.le) le_rfl fun a _ => ?_).trans_eq (by rw [mul_zero, add_zero]; rfl)
    rw [abs_div, abs_of_pos hNpos, add_zero, div_eq_inv_mul]
  have ht2 : size v ≤ N * t := by
    refine (l2Norm_map_le value (fun a => value a / N) hNpos.le le_rfl fun a _ => ?_).trans_eq (by rw [mul_zero, add_zero])
    rw [abs_div, abs_of_pos hNpos, add_zero, mul_div_cancel₀ _ hNpos.ne']
  have hw1 : size (v.map (· / n)) ≤ (1 + 2⁻¹ ^ 53) * t + v.length * ε := by
    rw [hw]
    refine l2Norm_map_le _ _ (by positivity) hεpos fun a ha => ?_
    have hnear := (hentry a ha).2
    have hsplit := abs_add_le (value (a / n) - value a / N) (value a / N)
    rw [sub_add_cancel] at hsplit
    linarith
  have hw2 : t ≤ (1 + 2⁻¹ ^ 52) * size (v.map (· / n)) + v.length * (2 * ε) := by
    rw [hw]
    refine l2Norm_map_le _ _ (by positivity) (by positivity) fun a ha => ?_
    have hnear := (hentry a ha).2
    have hsplit := abs_sub_abs_le_abs_sub (value a / N) (value (a / n))
    rw [abs_sub_comm] at hsplit
    have hpos := abs_nonneg (value (a / n))
    linarith
  have htle : t ≤ 1 + 2⁻¹ ^ 28 := by
    refine ht1.trans ?_
    rw [inv_mul_le_iff₀ hNpos]
    linarith
  have htge : 1 - 2⁻¹ ^ 28 ≤ t := by
    by_contra hlt
    have hless : N * t ≤ N * (1 - 2⁻¹ ^ 28) := mul_le_mul_of_nonneg_left (not_le.mp hlt).le hNpos.le
    linarith
  constructor
  · linarith
  · linarith

/-- **A normalised query** has norm nearly 1. -/
theorem normalize_near {query : List F} (hpos : 0 < query.length) (hfew : query.length ≤ 2 ^ 17)
    (hfinite : isFinite (l2Norm query) = true) (hlong : lt (l2Norm query) (lit (1 / 10 ^ 12)) = false) :
    (∀ a ∈ normalize query, isFinite a = true) ∧ size (normalize query) ≤ 2 ∧
      isFinite (l2Norm (normalize query)) = true ∧ 1 / 2 ≤ value (l2Norm (normalize query)) ∧
      value (l2Norm (normalize query)) ≤ 2 := by
  obtain ⟨hall, hupper⟩ := size_le hpos hfew hfinite
  have hdot := Ieee.finite_iff.mp (Ieee.sqrt (Ieee.finite_iff.mpr hfinite)).1
  obtain ⟨-, hlower⟩ := l2Norm_le hpos hfew hdot
  have hlow : 2⁻¹ ^ 41 ≤ value (l2Norm query) := by
    have hlit : Near (Ieee.format : Format F) (2⁻¹ ^ 52) 1 (1 / 10 ^ 12) (lit (1 / 10 ^ 12)) :=
      near_lit (by push_cast; norm_num) (least_le.trans (by norm_num)) (le_trans (by norm_num) le_most)
    have hnot : ¬value (l2Norm query) < value (lit (1 / 10 ^ 12) : F) := fun hlt => by
      rw [(Ieee.lt_iff hfinite (Ieee.finite_iff.mp hlit.finite)).mpr hlt] at hlong
      exact Bool.noConfusion hlong
    refine le_trans ?_ (not_lt.mp hnot)
    have hnear := (abs_le.mp hlit.near).1
    change _ ≤ value (lit (1 / 10 ^ 12) : F) - _ at hnear
    linarith
  have hnormalize : normalize query = query.map (· / l2Norm query) := by rw [normalize, hlong]; rfl
  rw [hnormalize]
  obtain ⟨hentries, hsize, hsize'⟩ := size_divided rfl hfew hlow hfinite hall hupper hlower
  set w := query.map (· / l2Norm query) with hw
  have hwpos : 0 < w.length := by simpa [hw] using hpos
  have hwfew : w.length ≤ 2 ^ 17 := by simpa [hw] using hfew
  obtain ⟨hnorm, hle⟩ := l2Norm_le hwpos hwfew (finite_dot rfl hwfew hentries hentries (by linarith) (by linarith))
  have hge := (size_le hwpos hwfew hnorm).2
  have hρ : (2⁻¹ : ℝ) ^ 500 ≤ 2⁻¹ ^ 40 := pow_le_pow_of_le_one (by norm_num) (by norm_num) (by norm_num)
  generalize (2⁻¹ : ℝ) ^ 500 = ρ at hρ hle hge
  exact ⟨hentries, by linarith, hnorm, by linarith, by linarith⟩

section pieces

/-- Quantities of usual size keep their relative errors. -/
theorem usual_mul {r s : ℝ} {k m : ℕ} {x y : F} (hr : Near (Ieee.format : Format F) (2⁻¹ ^ 52) k r x)
    (hs : Near (Ieee.format : Format F) (2⁻¹ ^ 52) m s y) (hlow : 2⁻¹ ^ 200 ≤ r * s)
    (hhigh : (1 + 2⁻¹ ^ 52) ^ (k + m) * (r * s) ≤ 2 ^ 200) :
    Near (Ieee.format : Format F) (2⁻¹ ^ 52) (k + m + 1) (r * s) (x * y) :=
  hr.mul hs (by rw [unit_double]; norm_num) (lost_le (least_le.trans hlow)) (le_greatest (hhigh.trans le_most))

theorem usual_add {r s : ℝ} {k : ℕ} {x y : F} (hr : Near (Ieee.format : Format F) (2⁻¹ ^ 52) k r x)
    (hs : Near (Ieee.format : Format F) (2⁻¹ ^ 52) k s y) (hhigh : (1 + 2⁻¹ ^ 52) ^ k * (r + s) ≤ 2 ^ 200) :
    Near (Ieee.format : Format F) (2⁻¹ ^ 52) (k + 1) (r + s) (x + y) :=
  hr.add hs (by rw [unit_double]; norm_num) (le_greatest (hhigh.trans le_most))

theorem usual_lit {q : ℚ} {r : ℝ} (hq : (q : ℝ) = r) (hlow : 2⁻¹ ^ 200 ≤ r) (hhigh : r ≤ 2 ^ 200) :
    Near (Ieee.format : Format F) (2⁻¹ ^ 52) 1 r (lit q) :=
  near_lit hq (least_le.trans hlow) (hhigh.trans le_most)

variable {d : ℕ}

/-- The part of the bound that grows with the vectors. -/
theorem near_relative (hpos : 0 < d) (hfew : d + 3 ≤ 2 ^ 17) {qNorm : F} (hq : isFinite qNorm = true)
    (hlow : 1 / 2 ≤ value qNorm) (hhigh : value qNorm ≤ 2) :
    Near (Ieee.format : Format F) (2⁻¹ ^ 52) 8 (101 / 100 * ((d + 3) * 2⁻¹ ^ 24 + d * 2⁻¹ ^ 52) * value qNorm)
      (lit (101 / 100) * ((ofUsize d + lit 3) * lit (1 / 2 ^ 24) + ofUsize d * lit (1 / 2 ^ 52)) * qNorm) := by
  have hd1 : (1 : ℝ) ≤ d := by exact_mod_cast hpos
  have hd2 : (d : ℝ) ≤ 2 ^ 17 := by exact_mod_cast (by omega : d ≤ 2 ^ 17)
  have hcount : Near (Ieee.format : Format F) (2⁻¹ ^ 52) 1 d (ofUsize d) :=
    usual_lit (by simp) (by linarith) (by linarith)
  have hthree : Near (Ieee.format : Format F) (2⁻¹ ^ 52) 1 3 (lit 3) :=
    usual_lit (by simp) (by norm_num) (by norm_num)
  have hu : Near (Ieee.format : Format F) (2⁻¹ ^ 52) 1 (2⁻¹ ^ 24) (lit (1 / 2 ^ 24)) :=
    usual_lit (by push_cast; norm_num) (by norm_num) (by norm_num)
  have hw : Near (Ieee.format : Format F) (2⁻¹ ^ 52) 1 (2⁻¹ ^ 52) (lit (1 / 2 ^ 52)) :=
    usual_lit (by push_cast; norm_num) (by norm_num) (by norm_num)
  have hmargin : Near (Ieee.format : Format F) (2⁻¹ ^ 52) 1 (101 / 100) (lit (101 / 100)) :=
    usual_lit (by push_cast; norm_num) (by norm_num) (by norm_num)
  have hnorm : Near (Ieee.format : Format F) (2⁻¹ ^ 52) 0 (value qNorm) qNorm :=
    .exact (Ieee.finite_iff.mpr hq) (show 0 ≤ value qNorm by linarith)
  have hfirst := usual_mul (usual_add hcount hthree (by linarith)) hu (by linarith) (by linarith)
  have hsecond := usual_mul hcount hw (by linarith) (by linarith)
  have hboth := usual_add hfirst (hsecond.mono (by positivity) (by norm_num)) (by linarith)
  obtain ⟨rel, hrel⟩ : ∃ rel : ℝ, rel = (d + 3) * 2⁻¹ ^ 24 + d * 2⁻¹ ^ 52 := ⟨_, rfl⟩
  have hrel1 : 2⁻¹ ^ 24 ≤ rel := by linarith
  have hrel2 : rel ≤ 2⁻¹ ^ 6 := by linarith
  rw [← hrel] at hboth ⊢
  have hscaled := usual_mul hmargin hboth (by linarith) (by linarith)
  refine (usual_mul hscaled hnorm ?_ ?_).mono (by positivity) (by norm_num)
  · calc (2⁻¹ : ℝ) ^ 200 ≤ 2⁻¹ ^ 24 * (1 / 2) := by norm_num
      _ ≤ 101 / 100 * rel * value qNorm := mul_le_mul (by linarith) hlow (by norm_num) (by linarith)
  · have hle : 101 / 100 * rel * value qNorm ≤ 1 * 2 :=
      mul_le_mul (by linarith) hhigh (by linarith) zero_le_one
    linarith

/-- The part for what falls below the least numbers. -/
theorem near_tail (hpos : 0 < d) (hfew : d + 3 ≤ 2 ^ 17) :
    Near (Ieee.format : Format F) (2⁻¹ ^ 52) 5 (2 * d * 2⁻¹ ^ 126) (lit 2 * ofUsize d * lit (1 / 2 ^ 126)) := by
  have hd1 : (1 : ℝ) ≤ d := by exact_mod_cast hpos
  have hd2 : (d : ℝ) ≤ 2 ^ 17 := by exact_mod_cast (by omega : d ≤ 2 ^ 17)
  have htwo : Near (Ieee.format : Format F) (2⁻¹ ^ 52) 1 2 (lit 2) :=
    usual_lit (by simp) (by norm_num) (by norm_num)
  have hcount : Near (Ieee.format : Format F) (2⁻¹ ^ 52) 1 d (ofUsize d) :=
    usual_lit (by simp) (by linarith) (by linarith)
  have hleast : Near (Ieee.format : Format F) (2⁻¹ ^ 52) 1 (2⁻¹ ^ 126) (lit (1 / 2 ^ 126)) :=
    usual_lit (by push_cast; norm_num) (by norm_num) (by norm_num)
  exact usual_mul (usual_mul htwo hcount (by linarith) (by linarith)) hleast (by linarith) (by linarith)

/-- The two parts put together, each step rounded. -/
theorem parts_ge {l r t a P s M u δ κ : ℝ} (hu : u ≤ 2⁻¹ ^ 53) (hδ : δ ≤ 2⁻¹ ^ 48) (hM : 0 ≤ M)
    (hκ : 0 ≤ κ) (hr : 0 ≤ r) (ht : 0 ≤ t) (hlr : |l - r| ≤ δ * r) (hat : |a - t| ≤ δ * t)
    (hP : |P - l * M| ≤ u * |l * M| + 2⁻¹ ^ 75 * κ) (hs : |s - (P + a)| ≤ u * |P + a|) :
    (1 - 2⁻¹ ^ 44) * (r * M + t) - κ ≤ s := by
  have hl : (1 - 2⁻¹ ^ 48) * r ≤ l := by
    have := mul_le_mul_of_nonneg_right hδ hr
    linarith [(abs_le.mp hlr).1]
  have ha : (1 - 2⁻¹ ^ 48) * t ≤ a := by
    have := mul_le_mul_of_nonneg_right hδ ht
    linarith [(abs_le.mp hat).1]
  have hlM : (1 - 2⁻¹ ^ 48) * (r * M) ≤ l * M := by
    rw [← mul_assoc]
    exact mul_le_mul_of_nonneg_right hl hM
  have hrM : 0 ≤ r * M := mul_nonneg hr hM
  have hlMpos : 0 ≤ l * M := by linarith
  rw [abs_of_nonneg hlMpos] at hP
  have hPlow : (1 - 2⁻¹ ^ 53) * (l * M) - 2⁻¹ ^ 75 * κ ≤ P := by
    have := mul_le_mul_of_nonneg_right hu hlMpos
    linarith [(abs_le.mp hP).1]
  have hlow : (1 - 2⁻¹ ^ 47) * (r * M + t) - 2⁻¹ ^ 75 * κ ≤ P + a := by linarith
  rcases le_total 0 (P + a) with hpos | hneg
  · rw [abs_of_nonneg hpos] at hs
    have := mul_le_mul_of_nonneg_right hu hpos
    linarith [(abs_le.mp hs).1]
  · rw [abs_of_nonpos hneg] at hs
    have := mul_le_mul_of_nonneg_right hu (neg_nonneg.mpr hneg)
    linarith [(abs_le.mp hs).1]

end pieces

/-- **The error bound, computed**, is no less than it says, but for little. -/
theorem errorBound_ge {d : ℕ} (hpos : 0 < d) (hfew : d + 3 ≤ 2 ^ 17) {qNorm maxNorm : F}
    (hq : isFinite qNorm = true) (hm : isFinite maxNorm = true) (hlow : 1 / 2 ≤ value qNorm) (hhigh : value qNorm ≤ 2)
    (hm0 : 0 ≤ value maxNorm) (hmax : value maxNorm ≤ 2 ^ 100) :
    isFinite (errorBound d qNorm maxNorm) = true ∧
      (1 - 2⁻¹ ^ 44) * (101 / 100 * ((d + 3) * 2⁻¹ ^ 24 + d * 2⁻¹ ^ 52) * value qNorm * value maxNorm +
        2 * d * 2⁻¹ ^ 126) - 2⁻¹ ^ 1000 ≤ value (errorBound d qNorm maxNorm) := by
  obtain ⟨hLfinite, hrpos, hLnear⟩ := near_relative (F := F) hpos hfew hq hlow hhigh
  obtain ⟨hTfinite, htpos, hTnear⟩ := near_tail (F := F) hpos hfew
  have hd2 : (d : ℝ) ≤ 2 ^ 17 := by exact_mod_cast (by omega : d ≤ 2 ^ 17)
  change _ ∧ _ ≤ value (lit (101 / 100) * ((ofUsize d + lit 3) * lit (1 / 2 ^ 24) + ofUsize d * lit (1 / 2 ^ 52)) *
    qNorm * maxNorm + lit 2 * ofUsize d * lit (1 / 2 ^ 126))
  set L : F := lit (101 / 100) * ((ofUsize d + lit 3) * lit (1 / 2 ^ 24) + ofUsize d * lit (1 / 2 ^ 52)) * qNorm
    with hL
  set T : F := lit 2 * ofUsize d * lit (1 / 2 ^ 126) with hT
  change |value L - _| ≤ _ at hLnear
  change |value T - _| ≤ _ at hTnear
  have hδ : ((1 : ℝ) + 2⁻¹ ^ 52) ^ 8 - 1 ≤ 2⁻¹ ^ 48 := by norm_num
  have hδ' : ((1 : ℝ) + 2⁻¹ ^ 52) ^ 5 - 1 ≤ (1 + 2⁻¹ ^ 52) ^ 8 - 1 := by norm_num
  -- nothing overflows
  have hrle : 101 / 100 * ((d + 3) * 2⁻¹ ^ 24 + d * 2⁻¹ ^ 52) * value qNorm ≤ 1 := by
    calc 101 / 100 * (((d : ℝ) + 3) * 2⁻¹ ^ 24 + d * 2⁻¹ ^ 52) * value qNorm ≤ (1 / 2) * 2 :=
          mul_le_mul (by linarith) hhigh (by linarith) (by norm_num)
      _ = 1 := by norm_num
  have hLabs : |value L| ≤ 2 := by
    have := mul_le_mul_of_nonneg_right hδ hrpos
    rw [abs_le]
    constructor <;> linarith [(abs_le.mp hLnear).1, (abs_le.mp hLnear).2]
  have hLM : |value L * value maxNorm| ≤ 2 * 2 ^ 100 := by
    rw [abs_mul, abs_of_nonneg hm0]
    exact mul_le_mul hLabs hmax hm0 zero_le_two
  have hfinite : (Ieee.format : Format F).finite (L * maxNorm) :=
    Format.finite_mul _ hLfinite (Ieee.finite_iff.mpr hm) (le_greatest ((hLM.trans (by norm_num)).trans le_most))
  obtain ⟨-, -, hP⟩ := (Ieee.format : Format F).mul hfinite
  change |value (L * maxNorm) - value L * value maxNorm| ≤ _ * |value L * value maxNorm| + _ at hP
  rw [unit_double, lost_double] at hP
  obtain ⟨κ, hκ⟩ : ∃ κ : ℝ, κ = 2⁻¹ ^ 1000 := ⟨_, rfl⟩
  have hκpos : 0 ≤ κ := hκ ▸ by positivity
  have hκless : κ ≤ 1 := by
    rw [hκ]
    exact pow_le_one₀ (by norm_num) (by norm_num)
  have hlost : (2⁻¹ : ℝ) ^ 1075 = 2⁻¹ ^ 75 * κ := by rw [hκ, ← pow_add]
  rw [hlost] at hP
  have hTabs : |value T| ≤ 1 := by
    have := mul_le_mul_of_nonneg_right (hδ'.trans hδ) htpos
    rw [abs_le]
    constructor <;> linarith [(abs_le.mp hTnear).1, (abs_le.mp hTnear).2]
  have htotal : |value (L * maxNorm) + value T| ≤ 2 ^ 200 := by
    have hsplit := abs_add_le (value (L * maxNorm) - value L * value maxNorm) (value L * value maxNorm)
    rw [sub_add_cancel] at hsplit
    have := abs_add_le (value (L * maxNorm)) (value T)
    linarith
  have hsum : (Ieee.format : Format F).finite (L * maxNorm + T) :=
    Format.finite_add _ hfinite hTfinite (le_greatest (htotal.trans le_most))
  obtain ⟨-, -, hend⟩ := (Ieee.format : Format F).add hsum
  change |value (L * maxNorm + T) - (value (L * maxNorm) + value T)| ≤
    _ * |value (L * maxNorm) + value T| at hend
  rw [unit_double] at hend
  refine ⟨Ieee.finite_iff.mp hsum, ?_⟩
  rw [← hκ]
  exact parts_ge le_rfl hδ hm0 hκpos hrpos htpos hLnear
    (hTnear.trans (mul_le_mul_of_nonneg_right hδ' htpos)) hP hend

end double

section narrowing

/-- The conversions between two formats: to the narrow one rounded, to the wide
one exact. -/
class IeeeNarrow (F S : Type) [Scalar F] [Scalar S] [Narrow F S] (p e q f : outParam ℕ) [Ieee F p e] [Ieee S q f] :
    Prop where
  finite_toF32 {x : F} : isFinite x = true → |value x| ≤ 2 ^ f → isFinite (toF32 x : S) = true
  near_toF32 {x : F} : isFinite (toF32 x : S) = true →
    |value (toF32 x : S) - value x| ≤ 2⁻¹ ^ q * |value x| + 2⁻¹ ^ (f + q - 1)
  toF64 {s : S} : isFinite s = true → isFinite (toF64 s : F) = true ∧ value (toF64 s : F) = value s

/-- A product of rounded factors, rounded. -/
theorem abs_product_le {a b a' b' r u η A B : ℝ} (hu : 0 ≤ u) (hfew : u ≤ 1 / 4) (hη : 0 ≤ η) (hleast : η ≤ 1 / 2)
    (ha : |a' - a| ≤ u * |a| + η) (hb : |b' - b| ≤ u * |b| + η) (hr : |r - a' * b'| ≤ u * |a' * b'| + η)
    (hA : |a| ≤ A) (hB : |b| ≤ B) : |r - a * b| ≤ ((1 + u) ^ 3 - 1) * |a * b| + η * (2 * (A + B) + 2) := by
  have hapos := abs_nonneg a
  have hbpos := abs_nonneg b
  have hb' : |b'| ≤ (1 + u) * |b| + η := by
    have := abs_add_le (b' - b) b
    rw [sub_add_cancel] at this
    linarith
  have hclose : |a' * b' - a * b| ≤ ((1 + u) ^ 2 - 1) * |a * b| + η * ((1 + u) * (|a| + |b|) + η) := by
    calc |a' * b' - a * b| = |(a' - a) * b' + a * (b' - b)| := by ring_nf
      _ ≤ |a' - a| * |b'| + |a| * |b' - b| := by
        rw [← abs_mul, ← abs_mul]
        exact abs_add_le _ _
      _ ≤ (u * |a| + η) * ((1 + u) * |b| + η) + |a| * (u * |b| + η) :=
        add_le_add (mul_le_mul ha hb' (abs_nonneg _) (by positivity)) (mul_le_mul_of_nonneg_left hb hapos)
      _ = ((1 + u) ^ 2 - 1) * |a * b| + η * ((1 + u) * (|a| + |b|) + η) := by rw [abs_mul]; ring
  have hsize : |a' * b'| ≤ |a * b| + |a' * b' - a * b| := by
    have := abs_add_le (a' * b' - a * b) (a * b)
    rw [sub_add_cancel] at this
    linarith
  calc |r - a * b| ≤ |r - a' * b'| + |a' * b' - a * b| := abs_sub_le _ _ _
    _ ≤ u * (|a * b| + |a' * b' - a * b|) + η + |a' * b' - a * b| := by
      have := mul_le_mul_of_nonneg_left hsize hu
      linarith
    _ = u * |a * b| + η + (1 + u) * |a' * b' - a * b| := by ring
    _ ≤ u * |a * b| + η +
        (1 + u) * (((1 + u) ^ 2 - 1) * |a * b| + η * ((1 + u) * (|a| + |b|) + η)) := by
      have := mul_le_mul_of_nonneg_left hclose (by linarith : 0 ≤ 1 + u)
      linarith
    _ = ((1 + u) ^ 3 - 1) * |a * b| + η * ((1 + u) ^ 2 * (|a| + |b|) + ((1 + u) * η + 1)) := by ring
    _ ≤ ((1 + u) ^ 3 - 1) * |a * b| + η * (2 * (A + B) + 2) := by
      have hsquare : (1 + u) ^ 2 ≤ 2 := by nlinarith
      have hsum : (1 + u) ^ 2 * (|a| + |b|) ≤ 2 * (A + B) :=
        mul_le_mul hsquare (add_le_add hA hB) (add_nonneg hapos hbpos) zero_le_two
      have hsmall : (1 + u) * η + 1 ≤ 2 := by nlinarith
      have := mul_le_mul_of_nonneg_left (add_le_add hsum hsmall) hη
      linarith

variable {F S : Type} [Scalar F] [Scalar S] [Narrow F S] [Ieee F 53 1023] [Ieee S 24 127] [IeeeNarrow F S 53 1023 24 127]

/-- **The f32 score**, and how far it is from the dot product. -/
theorem dotF32_near {q x : List F} (hlength : q.length = x.length) (hpos : 0 < q.length)
    (hfew : q.length + 3 ≤ 2 ^ 17) (hq : ∀ a ∈ q, isFinite a = true) (hx : ∀ b ∈ x, isFinite b = true)
    (hsize : size q ≤ 4) (hsize' : size x ≤ 2 ^ 101) :
    isFinite (dotF32 (q.map toF32) (x.map toF32) : S) = true ∧
      |value (dotF32 (q.map toF32) (x.map toF32) : S) - exactDot q x| ≤
        ((1 + 2⁻¹ ^ 24) ^ (q.length + 2) - 1) * products q x +
          2 * (q.length * (2⁻¹ ^ 150 * (2 * (size q + size x) + 2))) := by
  have hgrowth : ∀ n ≤ q.length + 16, ((1 : ℝ) + 2⁻¹ ^ 24) ^ n ≤ 2 := by
    intro n hn
    have hcount : (n : ℝ) ≤ 2 ^ 18 := by exact_mod_cast (by omega : n ≤ 2 ^ 18)
    have hle := growth_le (u := 2⁻¹ ^ 24) (c := 2) (n := n) (by positivity) one_le_two (by linarith)
    linarith
  -- the factors of a product, rounded, and the product
  have hfactor : ∀ {v : List F}, (∀ a ∈ v, isFinite a = true) → size v ≤ 2 ^ 101 → ∀ a ∈ v,
      isFinite (toF32 a : S) = true ∧ |value (toF32 a : S) - value a| ≤ 2⁻¹ ^ 24 * |value a| + 2⁻¹ ^ 150 := by
    intro v hv hsmall a ha
    have hle := abs_value_le ha
    have hfinite : isFinite (toF32 a : S) = true := IeeeNarrow.finite_toF32 (hv a ha) (by linarith)
    exact ⟨hfinite, IeeeNarrow.near_toF32 hfinite⟩
  have hproduct : ∀ c ∈ q.zip x, (Ieee.format : Format S).finite (toF32 c.1 * toF32 c.2) ∧
      |value (toF32 c.1 * toF32 c.2 : S) - value c.1 * value c.2| ≤
        ((1 + 2⁻¹ ^ 24) ^ 3 - 1) * |value c.1 * value c.2| + 2⁻¹ ^ 150 * (2 * (size q + size x) + 2) := by
    intro c hc
    obtain ⟨hc1, hc2⟩ := List.of_mem_zip hc
    obtain ⟨hfinite1, hnear1⟩ := hfactor hq (by linarith) c.1 hc1
    obtain ⟨hfinite2, hnear2⟩ := hfactor hx hsize' c.2 hc2
    have hle1 := abs_value_le hc1
    have hle2 := abs_value_le hc2
    have hrange : |value (toF32 c.1 : S) * value (toF32 c.2 : S)| ≤ 2 ^ 127 := by
      have h1 := abs_sub_abs_le_abs_sub (value (toF32 c.1 : S)) (value c.1)
      have h2 := abs_sub_abs_le_abs_sub (value (toF32 c.2 : S)) (value c.2)
      rw [abs_mul]
      refine (mul_le_mul (by linarith : |value (toF32 c.1 : S)| ≤ 2 ^ 4)
        (by linarith : |value (toF32 c.2 : S)| ≤ 2 ^ 102) (abs_nonneg _) (by positivity)).trans (by norm_num)
    have hfinite := (Ieee.format : Format S).finite_mul (Ieee.finite_iff.mpr hfinite1) (Ieee.finite_iff.mpr hfinite2)
      (hrange.trans Ieee.greatest_le)
    exact ⟨hfinite, abs_product_le (by positivity) (by norm_num) (by positivity) (by norm_num) hnear1 hnear2
      (mul_near hfinite) hle1 hle2⟩
  set ε : ℝ := 2⁻¹ ^ 150 * (2 * (size q + size x) + 2) with hε
  have hnonneg := size_nonneg q
  have hnonneg' := size_nonneg x
  have hεpos : 0 ≤ ε := by positivity
  have hεsmall : ε ≤ 1 := by
    have hlarge : 2 * (size q + size x) + 2 ≤ 2 ^ 103 := by linarith
    calc ε ≤ 2⁻¹ ^ 150 * 2 ^ 103 := mul_le_mul_of_nonneg_left hlarge (by positivity)
      _ ≤ 1 := by norm_num
  have hmany : ((q.map toF32 : List S)).length = q.length := List.length_map _
  have hcount : (q.length : ℝ) ≤ 2 ^ 17 := by exact_mod_cast (by omega : q.length ≤ 2 ^ 17)
  -- all products together are in range
  have hproducts : products q x ≤ 2 ^ 103 := by
    calc products q x ≤ size q * size x := products_le hlength
      _ ≤ 4 * 2 ^ 101 := mul_le_mul hsize hsize' hnonneg' (by norm_num)
      _ = 2 ^ 103 := by norm_num
  have hsizes : (List.zipWith (fun a b : F => |value (toF32 a * toF32 b : S)|) q x).sum ≤ 2 ^ 105 := by
    have hclose := sum_zipWith_close (f := fun a b : F => |value (toF32 a * toF32 b : S)|)
      (g := fun a b => |value a * value b|) (s := fun a b => |value a * value b|) hlength fun c hc =>
        (abs_abs_sub_abs_le _ _).trans (hproduct c hc).2
    have hle := (abs_le.mp hclose).2
    change _ - products q x ≤ _ * products q x + _ at hle
    have hthree : ((1 : ℝ) + 2⁻¹ ^ 24) ^ 3 - 1 ≤ 1 := by norm_num
    have := mul_le_mul_of_nonneg_right hthree (products_nonneg q x)
    have := mul_le_mul hcount hεsmall hεpos (by positivity)
    linarith
  have hzip : ∀ c ∈ (q.map toF32 : List S).zip (x.map toF32), (Ieee.format : Format S).finite (c.1 * c.2) := by
    intro c hc
    rw [List.zip_map] at hc
    obtain ⟨c', hc', rfl⟩ := List.mem_map.mp hc
    exact (hproduct c' hc').1
  obtain ⟨hfinite, hsum⟩ := sum_dotF32 (p := 24) (e := 127) (a := (q.map toF32 : List S)) (b := x.map toF32)
    (by simp [hlength]) (by simpa using hpos) hzip (by
      rw [hmany, List.zipWith_map]
      have hsizesPos : 0 ≤ (List.zipWith (fun a b : F => |value (toF32 a * toF32 b : S)|) q x).sum := by
        refine List.sum_nonneg fun s hs => ?_
        obtain ⟨i, hi, rfl⟩ := List.getElem_of_mem hs
        rw [List.getElem_zipWith]
        exact abs_nonneg _
      calc _ ≤ 2 * 2 ^ 105 := mul_le_mul (hgrowth _ le_rfl) hsizes hsizesPos zero_le_two
        _ ≤ 2 ^ 127 := by norm_num)
  refine ⟨hfinite, ?_⟩
  rw [hmany, List.zipWith_map, List.zipWith_map] at hsum
  have hone : (1 : ℝ) ≤ (1 + 2⁻¹ ^ 24) ^ (q.length - 1) := one_le_pow₀ (by norm_num)
  have hnear := near_of_sum hlength hone hsum fun c hc => (hproduct c hc).2
  have hpower : ((1 : ℝ) + 2⁻¹ ^ 24) ^ (q.length - 1) * (1 + ((1 + 2⁻¹ ^ 24) ^ 3 - 1)) =
      (1 + 2⁻¹ ^ 24) ^ (q.length + 2) := by
    rw [add_sub_cancel, ← pow_add]
    congr 1
    omega
  rw [hpower] at hnear
  refine hnear.trans (add_le_add le_rfl ?_)
  exact mul_le_mul_of_nonneg_right (hgrowth _ (by omega)) (by positivity)

/-- What the score and the similarity lose together is within the bound. -/
theorem gap_le {d : ℕ} {P Sq Sx N M ρ κ : ℝ} (hpos : 0 < d) (hfew : d + 3 ≤ 2 ^ 17) (hP0 : 0 ≤ P) (hP : P ≤ Sq * Sx)
    (hSq : Sq ≤ (1 + 2⁻¹ ^ 30) * (N + ρ)) (hSx : Sx ≤ (1 + 2⁻¹ ^ 30) * (M + ρ)) (hSq2 : Sq ≤ 2) (hSx0 : 0 ≤ Sx)
    (hN : 1 / 2 ≤ N) (hN2 : N ≤ 2) (hM : 0 ≤ M) (hM2 : M ≤ 2 ^ 100) (hρ0 : 0 ≤ ρ) (hρ : ρ ≤ 2⁻¹ ^ 256)
    (hκ : κ ≤ 2⁻¹ ^ 200) :
    ((1 + 2⁻¹ ^ 24) ^ (d + 2) - 1) * P + 2 * (d * (2⁻¹ ^ 150 * (2 * (Sq + Sx) + 2))) +
        (((1 + 2⁻¹ ^ 53) ^ d - 1) * P + ρ ^ 2) ≤
      (1 - 2⁻¹ ^ 44) * (101 / 100 * ((d + 3) * 2⁻¹ ^ 24 + d * 2⁻¹ ^ 52) * N * M + 2 * d * 2⁻¹ ^ 126) - κ := by
  have hd1 : (1 : ℝ) ≤ d := by exact_mod_cast hpos
  have hd2 : (d : ℝ) + 3 ≤ 2 ^ 17 := by exact_mod_cast hfew
  have hfirst : (1 + 2⁻¹ ^ 24) ^ (d + 2) - 1 ≤ 1008 / 1000 * (((d : ℝ) + 2) * 2⁻¹ ^ 24) := by
    have hle := growth_le (u := 2⁻¹ ^ 24) (c := 1008 / 1000) (n := d + 2) (by positivity) (by norm_num)
      (by push_cast; linarith)
    push_cast at hle
    exact hle
  have hsecond : (1 + 2⁻¹ ^ 53) ^ d - 1 ≤ 1008 / 1000 * ((d : ℝ) * 2⁻¹ ^ 53) :=
    growth_le (by positivity) (by norm_num) (by linarith)
  generalize ((1 : ℝ) + 2⁻¹ ^ 24) ^ (d + 2) - 1 = g at hfirst
  generalize ((1 : ℝ) + 2⁻¹ ^ 53) ^ d - 1 = h at hsecond
  set Y := N * M with hY
  have hY0 : 0 ≤ Y := mul_nonneg (by linarith) hM
  have hYM : M ≤ 2 * Y := by
    have := mul_le_mul_of_nonneg_right hN hM
    linarith
  -- the products are nearly the product of the norms
  have hPY : P ≤ (1 + 2⁻¹ ^ 28) * (Y + 2 ^ 102 * ρ) := by
    have hbig : 0 ≤ (1 + 2⁻¹ ^ 30) * (N + ρ) := by linarith
    calc P ≤ (1 + 2⁻¹ ^ 30) * (N + ρ) * ((1 + 2⁻¹ ^ 30) * (M + ρ)) := hP.trans (mul_le_mul hSq hSx hSx0 hbig)
      _ = (1 + 2⁻¹ ^ 30) ^ 2 * (Y + ρ * (N + M + ρ)) := by rw [hY]; ring
      _ ≤ (1 + 2⁻¹ ^ 28) * (Y + 2 ^ 102 * ρ) := by
        have hrest : ρ * (N + M + ρ) ≤ ρ * 2 ^ 102 := mul_le_mul_of_nonneg_left (by linarith) hρ0
        have hrest0 : 0 ≤ ρ * (N + M + ρ) := mul_nonneg hρ0 (by linarith)
        exact mul_le_mul (by norm_num) (by linarith) (by linarith) (by norm_num)
  set x := ((d : ℝ) + 2) * 2⁻¹ ^ 24 + d * 2⁻¹ ^ 53 with hx
  have hx0 : 0 ≤ x := by linarith
  have hx1 : x ≤ 2⁻¹ ^ 6 := by linarith
  have hrelative : (g + h) * P ≤ 1009 / 1000 * (x * Y) + 2 ^ 100 * ρ := by
    calc (g + h) * P ≤ (1008 / 1000 * x) * P := mul_le_mul_of_nonneg_right (by linarith) hP0
      _ ≤ (1008 / 1000 * x) * ((1 + 2⁻¹ ^ 28) * (Y + 2 ^ 102 * ρ)) := mul_le_mul_of_nonneg_left hPY (by linarith)
      _ = 1008 / 1000 * (1 + 2⁻¹ ^ 28) * (x * Y) + 1008 / 1000 * (1 + 2⁻¹ ^ 28) * 2 ^ 102 * (x * ρ) := by ring
      _ ≤ 1009 / 1000 * (x * Y) + 2 ^ 100 * ρ := by
        have hxY := mul_nonneg hx0 hY0
        have hxρ := mul_le_mul_of_nonneg_right hx1 hρ0
        linarith
  have hunder : 2 * (d * (2⁻¹ ^ 150 * (2 * (Sq + Sx) + 2))) ≤ d * 2⁻¹ ^ 140 + 2⁻¹ ^ 129 * Y + ρ := by
    have hdSx : (d : ℝ) * Sx ≤ 2 ^ 17 * Sx := mul_le_mul_of_nonneg_right (by linarith) hSx0
    have hdSq : (d : ℝ) * Sq ≤ d * 2 := mul_le_mul_of_nonneg_left hSq2 (by linarith)
    linarith
  have hrel : (x + 2⁻¹ ^ 24) * Y ≤ ((d + 3) * 2⁻¹ ^ 24 + d * 2⁻¹ ^ 52) * Y :=
    mul_le_mul_of_nonneg_right (by linarith) hY0
  have hxY := mul_nonneg hx0 hY0
  have hsq : ρ ^ 2 ≤ ρ := by
    rw [sq]
    exact mul_le_of_le_one_left hρ0 (hρ.trans (by norm_num))
  calc g * P + 2 * (d * (2⁻¹ ^ 150 * (2 * (Sq + Sx) + 2))) + (h * P + ρ ^ 2)
      = (g + h) * P + 2 * (d * (2⁻¹ ^ 150 * (2 * (Sq + Sx) + 2))) + ρ ^ 2 := by ring
    _ ≤ 1009 / 1000 * (x * Y) + 2 ^ 100 * ρ + (d * 2⁻¹ ^ 140 + 2⁻¹ ^ 129 * Y + ρ) + ρ :=
      add_le_add (add_le_add hrelative hunder) hsq
    _ ≤ (1 - 2⁻¹ ^ 44) * (101 / 100 * (((d + 3) * 2⁻¹ ^ 24 + d * 2⁻¹ ^ 52) * Y) + 2 * d * 2⁻¹ ^ 126) - κ := by
      linarith
    _ = _ := by rw [hY]; ring

/-- **The bound of the scan is sound**: no score is further from its similarity. -/
theorem scan_sound {scan : Scan F S} {query : List F} {locations : List (HardLocation F)} {k : ℕ}
    (hpos : 0 < query.length) (hfew : query.length + 3 ≤ 2 ^ 17) (hquery : isFinite (l2Norm query) = true)
    (hlong : lt (l2Norm query) (lit (1 / 10 ^ 12)) = false)
    (husable : scan.usable locations.length query.length k = true)
    (hmatrix : scan.matrix = locations.flatMap fun loc => loc.address.map toF32)
    (haddress : ∀ loc ∈ locations, loc.address.length = query.length ∧ isFinite (l2Norm loc.address) = true ∧
      le (l2Norm loc.address) scan.maxNorm = true) :
    ∀ i < locations.length, isFinite (scan.score query i) = true ∧ isFinite (similarity query locations i) = true ∧
      isFinite (scan.bound query) = true ∧
      |value (scan.score query i) - value (similarity query locations i)| ≤ value (scan.bound query) := by
  intro i hi
  obtain ⟨hq, hqsize, hqnorm, hqlow, hqhigh⟩ := normalize_near hpos (by omega) hquery hlong
  obtain ⟨hlength, hxnorm, hxle⟩ := haddress _ (locationAt_mem hi)
  set q := normalize query with hqdef
  set x := (locationAt locations i).address with hxdef
  have hqlength : q.length = query.length := length_normalize query
  have hsame : q.length = x.length := hqlength.trans hlength.symm
  have hqpos : 0 < q.length := hqlength ▸ hpos
  have hqfew : q.length + 3 ≤ 2 ^ 17 := hqlength ▸ hfew
  simp only [Scan.usable, Bool.and_eq_true, decide_eq_true_eq] at husable
  obtain ⟨⟨⟨-, hrows⟩, hfinite⟩, hlt⟩ := husable
  have hmax : value scan.maxNorm ≤ 2 ^ 100 := by
    have hlit : Near (Ieee.format : Format F) (2⁻¹ ^ 52) 1 (10 ^ 30) (lit (10 ^ 30)) :=
      near_lit (by push_cast; norm_num) (least_le.trans (by norm_num)) (le_trans (by norm_num) le_most)
    have hless : value scan.maxNorm < value (lit (10 ^ 30) : F) :=
      (Ieee.lt_iff hfinite (Ieee.finite_iff.mp hlit.finite)).mp hlt
    have hnear := (abs_le.mp hlit.near).2
    change value (lit (10 ^ 30) : F) - _ ≤ _ at hnear
    generalize value (lit (10 ^ 30) : F) = bound at hless hnear
    norm_num at hnear ⊢
    linarith
  have hxmax : value (l2Norm x) ≤ value scan.maxNorm := (Ieee.le_iff hxnorm hfinite).mp hxle
  have hm0 := (l2Norm_nonneg hxnorm).trans hxmax
  obtain ⟨hx, hxsize⟩ := size_le (hsame ▸ hqpos) (by omega) hxnorm
  obtain ⟨-, hqsize'⟩ := size_le hqpos (by omega) hqnorm
  have hρ : (2⁻¹ : ℝ) ^ 500 ≤ 2⁻¹ ^ 256 := pow_le_pow_of_le_one (by norm_num) (by norm_num) (by norm_num)
  have hρ0 : (0 : ℝ) ≤ 2⁻¹ ^ 500 := by positivity
  have hlost := lost_few (n := q.length) (by omega)
  obtain ⟨ρ, hρdef⟩ : ∃ ρ : ℝ, ρ = 2⁻¹ ^ 500 := ⟨_, rfl⟩
  rw [← hρdef] at hxsize hqsize' hρ hρ0 hlost
  have hxmore : size x ≤ (1 + 2⁻¹ ^ 30) * (value scan.maxNorm + ρ) := by linarith
  have hxsize' : size x ≤ 2 ^ 101 := by linarith
  obtain ⟨hscore, hscorenear⟩ := dotF32_near (S := S) hsame hqpos hqfew hq hx (by linarith) hxsize'
  have hdot := finite_dot hsame (by omega) hq hx hqsize hxsize'
  have hdotnear := (dot_near hsame hqpos hdot).trans (add_le_add le_rfl hlost)
  obtain ⟨hbound, hboundge⟩ := errorBound_ge hqpos hqfew hqnorm hfinite hqlow hqhigh hm0 hmax
  obtain ⟨hwide, hwideval⟩ := IeeeNarrow.toF64 (F := F) hscore
  have hscoreeq : scan.score query i = toF64 (dotF32 (q.map toF32) (x.map toF32) : S) := by
    have hlt : i < (scan.scores query).length := by rwa [length_scores hpos hrows]
    have hrow : rowAt scan.matrix query.length i = x.map toF32 := by
      rw [hmatrix]
      refine row_flatMap (fun loc hloc => by rw [List.length_map, (haddress loc hloc).1]) ?_
      rw [locationAt, List.getD_eq_getElem _ _ hi, List.getElem?_eq_getElem hi]
    show toF64 ((scan.scores query).getD i (lit 0)) = _
    rw [List.getD_eq_getElem _ _ hlt]
    simp only [Scan.scores, scoreRows, List.getElem_map, List.getElem_range]
    rw [hrow]
  have hboundeq : scan.bound query = errorBound q.length (l2Norm q) scan.maxNorm := by rw [hqlength]; rfl
  rw [hscoreeq, hboundeq]
  refine ⟨hwide, hdot, hbound, ?_⟩
  rw [hwideval]
  have hgap := gap_le (κ := 2⁻¹ ^ 1000) hqpos hqfew (products_nonneg q x) (products_le hsame) hqsize' hxmore hqsize
    (size_nonneg x) hqlow hqhigh hm0 hmax hρ0 hρ least_le
  refine le_trans ?_ (hgap.trans hboundge)
  have htriangle := abs_sub_le (value (dotF32 (q.map toF32) (x.map toF32) : S)) (exactDot q x) (value (dot q x))
  rw [abs_sub_comm (exactDot q x)] at htriangle
  exact htriangle.trans (add_le_add hscorenear hdotnear)

end narrowing

section exact

theorem near_self (x : ℝ) {u l : ℝ} (hu : 0 ≤ u) (hl : 0 ≤ l) : |x - x| ≤ u * |x| + l := by
  rw [sub_self, abs_zero]
  exact add_nonneg (mul_nonneg hu (abs_nonneg x)) hl

theorem near_exact (x : ℝ) {u : ℝ} (hu : 0 ≤ u) : |x - x| ≤ u * |x| := by
  have h := near_self x hu le_rfl
  rwa [add_zero] at h

theorem pow_half_nonneg (p : ℕ) : (0 : ℝ) ≤ 2⁻¹ ^ p := by positivity

/-- The reals, whatever precision is asked for. -/
noncomputable def exactFormat (p e : ℕ) : Format ℝ where
  finite _ := True
  val := id
  unit := 2⁻¹ ^ p
  lost := 2⁻¹ ^ (e + p - 1)
  greatest := 2 ^ e
  unit_nonneg := pow_half_nonneg _
  lost_nonneg := pow_half_nonneg _
  finite_add _ _ _ := trivial
  add _ := ⟨trivial, trivial, near_exact _ (pow_half_nonneg _)⟩
  finite_mul _ _ _ := trivial
  mul _ := ⟨trivial, trivial, near_self _ (pow_half_nonneg _) (pow_half_nonneg _)⟩
  zero_add _ _ h := ⟨trivial, add_eq_right.mpr h⟩

/-- Arithmetic that never rounds meets any precision. -/
@[reducible] noncomputable def exactIeee (p e : ℕ) : Ieee ℝ p e where
  format := exactFormat p e
  finite_iff := iff_of_true trivial rfl
  unit_eq := rfl
  lost_eq := rfl
  greatest_le := le_rfl
  le_iff _ _ := le_real
  lt_iff _ _ := lt_real
  val_zero := Rat.cast_zero
  neg _ := ⟨trivial, rfl⟩
  lit _ := ⟨trivial, near_self _ (pow_half_nonneg _) (pow_half_nonneg _)⟩
  mul_self _ := mul_self_nonneg _
  div _ _ _ _ := ⟨trivial, near_self _ (pow_half_nonneg _) (pow_half_nonneg _)⟩
  finite_sqrt _ _ := trivial
  sqrt {x} _ := ⟨trivial, (near_exact (Real.sqrt x) (pow_half_nonneg p)).trans_eq
    (congrArg _ (abs_of_nonneg (Real.sqrt_nonneg x)))⟩

/-- So do its conversions. -/
theorem exactNarrow (p e q f : ℕ) : @IeeeNarrow ℝ ℝ _ _ _ p e q f (exactIeee p e) (exactIeee q f) :=
  @IeeeNarrow.mk ℝ ℝ _ _ _ p e q f (exactIeee p e) (exactIeee q f) (fun _ _ => rfl)
    (fun _ => near_self _ (pow_half_nonneg _) (pow_half_nonneg _)) fun _ => ⟨rfl, rfl⟩

/-- Two places across each other. -/
noncomputable def acrossPlaces : List (HardLocation ℝ) := [.new 0 [1, 0], .new 1 [0, 1]]

/-- Their f32 copies. -/
noncomputable def acrossScan : Scan ℝ ℝ := ⟨[1, 0, 0, 1], 1⟩

/-- A query between them, of length 5. -/
theorem scan_sound_across :
    |acrossScan.score [3, 4] 0 - similarity [3, 4] acrossPlaces 0| ≤ acrossScan.bound [3, 4] ∧
      |acrossScan.score [3, 4] 1 - similarity [3, 4] acrossPlaces 1| ≤ acrossScan.bound [3, 4] := by
  have hnorm : ∀ x y : ℝ, l2Norm [x, y] = Real.sqrt (x * x + y * y) := fun x y => by simp [l2Norm, dot, sum_real]
  have hfive : l2Norm [(3 : ℝ), 4] = 5 := by
    rw [hnorm, show (3 * 3 + 4 * 4 : ℝ) = 5 ^ 2 by norm_num, Real.sqrt_sq (by norm_num)]
  have hsound := @scan_sound ℝ ℝ _ _ _ (exactIeee 53 1023) (exactIeee 24 127) (exactNarrow 53 1023 24 127) acrossScan
    [3, 4] acrossPlaces 1 two_pos (by decide) rfl
    (by rw [hfive]; exact decide_eq_false (by norm_num))
    (by norm_num [Scan.usable, acrossScan, acrossPlaces, lt_real]) rfl
    (fun loc hloc => by
      rcases List.mem_pair.mp hloc with rfl | rfl
      · exact ⟨rfl, rfl, le_real.mpr (by rw [HardLocation.new, hnorm]; norm_num [acrossScan])⟩
      · exact ⟨rfl, rfl, le_real.mpr (by rw [HardLocation.new, hnorm]; norm_num [acrossScan])⟩)
  exact ⟨(hsound 0 two_pos).2.2.2, (hsound 1 one_lt_two).2.2.2⟩

end exact

end HeatherDb
