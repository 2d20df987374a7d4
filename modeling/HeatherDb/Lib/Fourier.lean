/-
# The Fourier transform of real signals

Signals of `N` real samples, cyclic, and their spectra. The spectrum of a real
signal is its own mirror image conjugated (`Hermitian`), and every such spectrum
is one of a real signal: to show two signals equal it is enough to compare
spectra, where a convolution is a product, a correlation a product with a
conjugate, and a shift a rotation of every bin.

A half spectrum holds the bins `0` to `N / 2`. The others are recovered from
their mirrors (`extend`), and a sum over all bins counts the first once, at an
even length the middle one once, and all others twice (`sum_eq_half`).

A shift by `t` samples turns the bin `i` of a half by `-2 π i t / N`, which makes
sense for every real `t` (`turn`). At odd lengths that is a group of isometries; at
even ones the middle bin, which has to stay real, is an exception.

Key definitions: `spectrum`, `signal`, `Hermitian`, `conv`, `corr`, `extend`, `turn`.
Key theorems: `spectrum_signal`, `spectrum_conv`, `spectrum_corr`, `parseval`,
`sum_eq_half`, `Hermitian.ext_half`, `turn_int`, `turn_turn`, `sum_turn_mul`.
-/
import Mathlib.Analysis.Fourier.ZMod

namespace Fourier

open ZMod AddChar
open scoped ComplexConjugate

variable {N : ℕ} [NeZero N] {x y z : ZMod N → ℝ} {f g : ZMod N → ℂ}

/-- The bins of a real signal. -/
noncomputable def spectrum (x : ZMod N → ℝ) : ZMod N → ℂ := 𝓕 fun j => (x j : ℂ)

theorem spectrum_apply (x : ZMod N → ℝ) (k : ZMod N) : spectrum x k = ∑ j, stdAddChar (-(j * k)) * (x j : ℂ) := by
  simp only [spectrum, dft_apply, smul_eq_mul]

/-- The bins on both sides of zero mirror each other. -/
def Hermitian (f : ZMod N → ℂ) : Prop := ∀ k, f (-k) = conj (f k)

/-- The real signal of a spectrum. -/
noncomputable def signal (f : ZMod N → ℂ) : ZMod N → ℝ := fun j => (𝓕⁻ f j).re

theorem hermitian_spectrum (x : ZMod N → ℝ) : Hermitian (spectrum x) := by
  intro k
  rw [spectrum_apply, spectrum_apply, map_sum]
  refine Finset.sum_congr rfl fun j _ => ?_
  rw [map_mul, Complex.conj_ofReal, ← map_neg_eq_conj, mul_neg]

omit [NeZero N] in
theorem Hermitian.im_zero (h : Hermitian f) {k : ZMod N} (hk : -k = k) : (f k).im = 0 := by
  have hself := h k
  rw [hk] at hself
  exact Complex.conj_eq_iff_im.mp hself.symm

omit [NeZero N] in
theorem Hermitian.mul (hf : Hermitian f) (hg : Hermitian g) : Hermitian fun k => f k * g k := fun k =>
  (congrArg₂ _ (hf k) (hg k)).trans (map_mul _ _ _).symm

omit [NeZero N] in
theorem Hermitian.conj (hf : Hermitian f) : Hermitian fun k => conj (f k) := fun k => congrArg _ (hf k)

/-- The signal of a mirrored spectrum is real. -/
theorem ofReal_signal (h : Hermitian f) (j : ZMod N) : (signal f j : ℂ) = 𝓕⁻ f j := by
  refine Complex.conj_eq_iff_re.mp ?_
  rw [invDFT_apply, smul_eq_mul, map_mul, map_inv₀, Complex.conj_natCast, map_sum]
  congr 1
  rw [← Equiv.sum_comp (Equiv.neg (ZMod N))]
  refine Finset.sum_congr rfl fun k _ => ?_
  rw [Equiv.neg_apply, smul_eq_mul, smul_eq_mul, map_mul, h k, Complex.conj_conj, neg_mul, ← map_neg_eq_conj, neg_neg]

theorem spectrum_signal (h : Hermitian f) : spectrum (signal f) = f := by
  have hreal : (fun j => (signal f j : ℂ)) = 𝓕⁻ f := funext (ofReal_signal h)
  rw [spectrum, hreal, LinearEquiv.apply_symm_apply]

theorem signal_spectrum (x : ZMod N → ℝ) : signal (spectrum x) = x := by
  funext j
  rw [signal, spectrum, LinearEquiv.symm_apply_apply, Complex.ofReal_re]

theorem spectrum_injective : Function.Injective (spectrum (N := N)) :=
  Function.LeftInverse.injective signal_spectrum

/-- A signal of a mirrored spectrum, by its bins. -/
theorem eq_signal_iff (h : Hermitian f) : x = signal f ↔ spectrum x = f := by
  refine ⟨fun hx => hx ▸ spectrum_signal h, fun hx => ?_⟩
  rw [← hx, signal_spectrum]

/-! ### Operations on signals -/

/-- Circular convolution. -/
def conv (x y : ZMod N → ℝ) : ZMod N → ℝ := fun k => ∑ i, x i * y (k - i)

/-- Circular correlation. -/
def corr (x y : ZMod N → ℝ) : ZMod N → ℝ := fun k => ∑ i, x (i + k) * y i

theorem spectrum_conv (x y : ZMod N → ℝ) (k : ZMod N) : spectrum (conv x y) k = spectrum x k * spectrum y k := by
  have hrow : ∀ i, (∑ m, stdAddChar (-(m * k)) * ((x i * y (m - i) : ℝ) : ℂ)) =
      stdAddChar (-(i * k)) * (x i : ℂ) * spectrum y k := by
    intro i
    rw [spectrum_apply, Finset.mul_sum, ← Equiv.sum_comp (Equiv.addRight i)]
    refine Finset.sum_congr rfl fun j _ => ?_
    have hsplit : -((j + i) * k) = -(i * k) + -(j * k) := by ring
    rw [Equiv.coe_addRight, add_sub_cancel_right, hsplit, map_add_eq_mul, Complex.ofReal_mul]
    ring
  calc spectrum (conv x y) k
      = ∑ m, ∑ i, stdAddChar (-(m * k)) * ((x i * y (m - i) : ℝ) : ℂ) := by
        rw [spectrum_apply]
        refine Finset.sum_congr rfl fun m _ => ?_
        rw [conv, Complex.ofReal_sum, Finset.mul_sum]
    _ = ∑ i, stdAddChar (-(i * k)) * (x i : ℂ) * spectrum y k := by
        rw [Finset.sum_comm]
        exact Finset.sum_congr rfl fun i _ => hrow i
    _ = spectrum x k * spectrum y k := by rw [← Finset.sum_mul, ← spectrum_apply]

theorem conv_signal (hf : Hermitian f) (hg : Hermitian g) :
    conv (signal f) (signal g) = signal fun k => f k * g k := by
  refine (eq_signal_iff (hf.mul hg)).mpr (funext fun k => ?_)
  rw [spectrum_conv, spectrum_signal hf, spectrum_signal hg]

/-- The reflection of a signal. -/
def reflect (x : ZMod N → ℝ) : ZMod N → ℝ := fun j => x (-j)

theorem spectrum_reflect (x : ZMod N → ℝ) (k : ZMod N) : spectrum (reflect x) k = conj (spectrum x k) := by
  rw [← hermitian_spectrum x k]
  exact congrFun (dft_comp_neg fun j => (x j : ℂ)) k

theorem corr_eq_conv (x y : ZMod N → ℝ) : corr x y = conv x (reflect y) := by
  funext k
  rw [corr, conv, ← Equiv.sum_comp (Equiv.subRight k)]
  refine Finset.sum_congr rfl fun i _ => ?_
  rw [Equiv.subRight_apply, sub_add_cancel, reflect, neg_sub]

theorem spectrum_corr (x y : ZMod N → ℝ) (k : ZMod N) :
    spectrum (corr x y) k = spectrum x k * conj (spectrum y k) := by
  rw [corr_eq_conv, spectrum_conv, spectrum_reflect]

/-- A signal moved by `s` samples. -/
def shift (s : ZMod N) (x : ZMod N → ℝ) : ZMod N → ℝ := fun j => x (j - s)

theorem spectrum_shift (s : ZMod N) (x : ZMod N → ℝ) (k : ZMod N) :
    spectrum (shift s x) k = stdAddChar (-(s * k)) * spectrum x k := by
  rw [spectrum_apply, spectrum_apply, Finset.mul_sum, ← Equiv.sum_comp (Equiv.addRight s)]
  refine Finset.sum_congr rfl fun j _ => ?_
  have hsplit : -((j + s) * k) = -(s * k) + -(j * k) := by ring
  rw [Equiv.coe_addRight, shift, add_sub_cancel_right, hsplit, map_add_eq_mul, mul_assoc]

theorem conv_comm (x y : ZMod N → ℝ) : conv x y = conv y x := by
  refine spectrum_injective (funext fun k => ?_)
  rw [spectrum_conv, spectrum_conv, mul_comm]

theorem conv_assoc (x y z : ZMod N → ℝ) : conv (conv x y) z = conv x (conv y z) := by
  refine spectrum_injective (funext fun k => ?_)
  simp only [spectrum_conv, mul_assoc]

theorem conv_add_smul (a b : ℝ) (x y z : ZMod N → ℝ) : conv (a • x + b • y) z = a • conv x z + b • conv y z := by
  funext k
  simp only [conv, Pi.add_apply, Pi.smul_apply, smul_eq_mul, Finset.mul_sum, ← Finset.sum_add_distrib]
  refine Finset.sum_congr rfl fun i _ => ?_
  ring

/-- What a bin adds to the inner product of two signals. -/
noncomputable def cross (x y : ZMod N → ℝ) (k : ZMod N) : ℝ :=
  (spectrum x k).re * (spectrum y k).re + (spectrum x k).im * (spectrum y k).im

theorem cross_eq (x y : ZMod N → ℝ) (k : ZMod N) : cross x y k = (spectrum x k * conj (spectrum y k)).re := by
  rw [cross, Complex.mul_re, Complex.conj_re, Complex.conj_im]
  ring

theorem cross_neg (x y : ZMod N → ℝ) (k : ZMod N) : cross x y (-k) = cross x y k := by
  rw [cross, hermitian_spectrum x, hermitian_spectrum y, Complex.conj_re, Complex.conj_re, Complex.conj_im,
    Complex.conj_im, neg_mul_neg, cross]

/-- The inner product of two signals, from their spectra. -/
theorem parseval (x y : ZMod N → ℝ) : ∑ j, x j * y j = (∑ k, cross x y k) / N := by
  have hzero : ∑ j, x j * y j = corr x y 0 := Finset.sum_congr rfl fun j _ => by rw [add_zero]
  have hbins : corr x y = signal fun k => spectrum x k * conj (spectrum y k) :=
    (eq_signal_iff ((hermitian_spectrum x).mul (hermitian_spectrum y).conj)).mpr (funext (spectrum_corr x y))
  simp only [cross_eq]
  rw [hzero, hbins, signal, invDFT_apply, smul_eq_mul, div_eq_inv_mul]
  simp only [mul_zero, map_zero_eq_one, one_smul]
  rw [← Complex.ofReal_natCast, ← Complex.ofReal_inv, Complex.re_ofReal_mul, Complex.re_sum]

/-! ### Half spectra -/

omit [NeZero N] in
/-- The middle bin of an even length is its own mirror. -/
theorem neg_half (h : N % 2 = 0) : -((N / 2 : ℕ) : ZMod N) = (N / 2 : ℕ) := by
  have hN : N / 2 + N / 2 = N := by omega
  have hsum : ((N / 2 : ℕ) : ZMod N) + (N / 2 : ℕ) = 0 := by
    rw [← Nat.cast_add, hN, natCast_self]
  exact neg_eq_of_add_eq_zero_left hsum

theorem sum_eq_range {M : Type} [AddCommMonoid M] (h : ZMod N → M) :
    ∑ k, h k = ∑ i ∈ Finset.range N, h (i : ℕ) := by
  refine Finset.sum_nbij' ZMod.val (fun i => (i : ZMod N)) ?_ ?_ ?_ ?_ ?_
  · exact fun k _ => Finset.mem_range.mpr k.val_lt
  · exact fun i _ => Finset.mem_univ _
  · exact fun k _ => natCast_zmod_val k
  · exact fun i hi => val_natCast_of_lt (Finset.mem_range.mp hi)
  · exact fun k _ => by rw [natCast_zmod_val]

/-- A sum over all bins, from those of a half spectrum. -/
theorem sum_eq_half {h : ZMod N → ℝ} (heven : ∀ k, h (-k) = h k) :
    ∑ k, h k = h 0 + ∑ i ∈ Finset.range ((N - 1) / 2), 2 * h (i + 1 : ℕ) +
      if N % 2 = 0 then h (N / 2 : ℕ) else 0 := by
  have hpos : 0 < N := Nat.pos_of_neZero N
  generalize hn : (N - 1) / 2 = n
  -- the upper bins, from the last one down, mirror the lower ones
  have hmirror : ∀ m, m + n = N → ∑ i ∈ Finset.range n, h (m + i : ℕ) = ∑ i ∈ Finset.range n, h (i + 1 : ℕ) := by
    intro m hm
    rw [← Finset.sum_range_reflect]
    refine Finset.sum_congr rfl fun i hi => ?_
    have hi := Finset.mem_range.mp hi
    have hsum : ((m + (n - 1 - i) : ℕ) : ZMod N) + (i + 1 : ℕ) = 0 := by
      have hN : m + (n - 1 - i) + (i + 1) = N := by omega
      rw [← Nat.cast_add, hN, natCast_self]
    rw [eq_neg_of_add_eq_zero_left hsum, heven]
  have hlower : ∑ i ∈ Finset.range (n + 1), h (i : ℕ) = h 0 + ∑ i ∈ Finset.range n, h (i + 1 : ℕ) := by
    rw [Finset.sum_range_succ', Nat.cast_zero, add_comm]
  rw [sum_eq_range, ← Finset.mul_sum]
  split_ifs with hparity
  · have hN : N = n + 1 + 1 + n := by omega
    have hhalf : N / 2 = n + 1 := by omega
    rw [show Finset.range N = Finset.range (n + 1 + 1 + n) from congrArg _ hN, Finset.sum_range_add, hmirror _ hN.symm,
      Finset.sum_range_succ, hlower, hhalf]
    ring
  · have hN : N = n + 1 + n := by omega
    rw [show Finset.range N = Finset.range (n + 1 + n) from congrArg _ hN, Finset.sum_range_add, hmirror _ hN.symm,
      hlower]
    ring

/-- A whole spectrum from a half: a bin past the middle is its mirror's conjugate. -/
noncomputable def extend (half : ℕ → ℂ) (k : ZMod N) : ℂ :=
  if k.val ≤ N / 2 then half k.val else conj (half (N - k.val))

theorem extend_natCast (half : ℕ → ℂ) {i : ℕ} (hi : i ≤ N / 2) : extend half (i : ZMod N) = half i := by
  have hlt : i < N := hi.trans_lt (Nat.div_lt_self (Nat.pos_of_neZero N) one_lt_two)
  rw [extend, val_natCast_of_lt hlt, if_pos hi]

/-- A half spectrum whose own mirrors are real. -/
structure RealEnds (N : ℕ) (half : ℕ → ℂ) : Prop where
  zero : (half 0).im = 0
  middle : N % 2 = 0 → (half (N / 2)).im = 0

/-- A half spectrum with what would not be real at its ends dropped. -/
noncomputable def projectEnds (N : ℕ) (half : ℕ → ℂ) (i : ℕ) : ℂ :=
  if i = 0 ∨ N % 2 = 0 ∧ i = N / 2 then ((half i).re : ℂ) else half i

omit [NeZero N] in
theorem realEnds_projectEnds (half : ℕ → ℂ) : RealEnds N (projectEnds N half) where
  zero := by rw [projectEnds, if_pos (.inl rfl), Complex.ofReal_im]
  middle h := by rw [projectEnds, if_pos (.inr ⟨h, rfl⟩), Complex.ofReal_im]

omit [NeZero N] in
theorem RealEnds.projectEnds {half : ℕ → ℂ} (h : RealEnds N half) (i : ℕ) : projectEnds N half i = half i := by
  unfold Fourier.projectEnds
  split_ifs with hend
  · refine Complex.conj_eq_iff_re.mp (Complex.conj_eq_iff_im.mpr ?_)
    rcases hend with rfl | ⟨hparity, rfl⟩
    · exact h.zero
    · exact h.middle hparity
  · rfl

theorem extend_congr {half half' : ℕ → ℂ} (h : ∀ i ≤ N / 2, half i = half' i) :
    extend (N := N) half = extend half' := by
  funext k
  have hlt := k.val_lt
  unfold extend
  split_ifs with hk
  · exact h _ hk
  · rw [h _ (by omega)]

theorem hermitian_extend {half : ℕ → ℂ} (h : RealEnds N half) : Hermitian (extend (N := N) half) := by
  intro k
  have hlt := k.val_lt
  unfold extend
  rw [neg_val]
  rcases eq_or_ne k 0 with rfl | hk
  · rw [if_pos rfl, val_zero, if_pos (Nat.zero_le _)]
    exact (Complex.conj_eq_iff_im.mpr h.zero).symm
  · have hpos : 0 < k.val := Nat.pos_of_ne_zero ((val_ne_zero k).mpr hk)
    rw [if_neg hk]
    rcases lt_trichotomy k.val (N - k.val) with hside | hside | hside
    · rw [if_neg (by omega), if_pos (by omega), Nat.sub_sub_self hlt.le]
    · have hmid : k.val = N / 2 := by omega
      rw [← hside, if_pos (by omega), if_pos (by omega), hmid]
      exact (Complex.conj_eq_iff_im.mpr (h.middle (by omega))).symm
    · rw [if_pos (by omega), if_neg (by omega), Complex.conj_conj]

omit [NeZero N] in
theorem Hermitian.realEnds (h : Hermitian f) : RealEnds N fun i => f (i : ℕ) where
  zero := h.im_zero (by rw [Nat.cast_zero, neg_zero])
  middle hparity := h.im_zero (neg_half hparity)

/-- Mirrored spectra that agree on a half agree. -/
theorem Hermitian.ext_half (hf : Hermitian f) (hg : Hermitian g) (h : ∀ i ≤ N / 2, f (i : ℕ) = g (i : ℕ)) : f = g := by
  funext k
  have hlt := k.val_lt
  rcases le_or_gt k.val (N / 2) with hk | hk
  · rw [← natCast_zmod_val k, h _ hk]
  · have hpos : k ≠ 0 := fun h => by simp [h] at hk
    have hneg : (-k).val ≤ N / 2 := by
      rw [neg_val, if_neg hpos]
      omega
    rw [← neg_neg k, hf, hg, ← natCast_zmod_val (-k), h _ hneg]

/-! ### Turning by a real number of samples -/

/-- What turning by `t` samples multiplies a bin with. -/
noncomputable def phase (N : ℕ) (t : ℝ) (i : ℕ) : ℂ := Complex.exp ((-2 * Real.pi * i * t / N : ℝ) * Complex.I)

/-- The spectrum of a signal turned by `t` samples: the bins of the half are
turned, and forced to be those of a real signal. -/
noncomputable def turnBins (t : ℝ) (f : ZMod N → ℂ) : ZMod N → ℂ :=
  extend (projectEnds N fun i => f (i : ℕ) * phase N t i)

/-- A signal turned by `t` samples. -/
noncomputable def turn (t : ℝ) (x : ZMod N → ℝ) : ZMod N → ℝ := signal (turnBins t (spectrum x))

theorem hermitian_turnBins (t : ℝ) (f : ZMod N → ℂ) : Hermitian (turnBins t f) :=
  hermitian_extend (realEnds_projectEnds _)

theorem spectrum_turn (t : ℝ) (x : ZMod N → ℝ) : spectrum (turn t x) = turnBins t (spectrum x) :=
  spectrum_signal (hermitian_turnBins t _)

theorem phase_int (k : ℤ) (i : ℕ) : phase N k i = stdAddChar (-((k : ZMod N) * (i : ZMod N))) := by
  have hcast : -((k : ZMod N) * (i : ZMod N)) = ((-(k * i) : ℤ) : ZMod N) := by push_cast; rfl
  rw [hcast, stdAddChar_coe, phase]
  congr 1
  push_cast
  ring

/-- **Turning by a whole number of samples** is a shift. -/
theorem turn_int (k : ℤ) (x : ZMod N → ℝ) : turn k x = shift (k : ZMod N) x := by
  have hbins : ∀ i : ℕ, spectrum x i * phase N k i = spectrum (shift (k : ZMod N) x) i := fun i => by
    rw [spectrum_shift, phase_int, mul_comm]
  refine spectrum_injective ?_
  rw [spectrum_turn]
  refine (hermitian_turnBins _ _).ext_half (hermitian_spectrum _) fun i hi => ?_
  rw [turnBins, extend_natCast _ hi]
  simp only [hbins]
  exact (hermitian_spectrum _).realEnds.projectEnds i

theorem phase_zero (N : ℕ) (t : ℝ) : phase N t 0 = 1 := by simp [phase]

omit [NeZero N] in
theorem phase_add (s t : ℝ) (i : ℕ) : phase N s i * phase N t i = phase N (s + t) i := by
  rw [phase, phase, phase, ← Complex.exp_add]
  congr 1
  push_cast
  ring

omit [NeZero N] in
theorem norm_phase (t : ℝ) (i : ℕ) : ‖phase N t i‖ = 1 := Complex.norm_exp_ofReal_mul_I _

section Odd

variable (hodd : N % 2 = 1)
include hodd

/-- Without a middle bin nothing has to be forced. -/
theorem spectrum_turn_natCast (t : ℝ) (x : ZMod N → ℝ) {i : ℕ} (hi : i ≤ N / 2) :
    spectrum (turn t x) i = spectrum x i * phase N t i := by
  have hends : RealEnds N fun i => spectrum x (i : ℕ) * phase N t i :=
    { zero := by
        rw [phase_zero, mul_one]
        exact (hermitian_spectrum x).realEnds.zero
      middle := fun heven => by omega }
  rw [spectrum_turn, turnBins, extend_natCast _ hi, hends.projectEnds]

omit hodd in
/-- A single sample stays. -/
theorem turn_single (hN : N = 1) (t : ℝ) (x : ZMod N → ℝ) : turn t x = x := by
  have hodd : N % 2 = 1 := by omega
  refine spectrum_injective ((hermitian_spectrum _).ext_half (hermitian_spectrum _) fun i hi => ?_)
  obtain rfl : i = 0 := by omega
  rw [spectrum_turn_natCast hodd t x hi, phase_zero, mul_one]

/-- **Turns add up.** -/
theorem turn_turn (s t : ℝ) (x : ZMod N → ℝ) : turn t (turn s x) = turn (s + t) x := by
  refine spectrum_injective ((hermitian_spectrum _).ext_half (hermitian_spectrum _) fun i hi => ?_)
  rw [spectrum_turn_natCast hodd t _ hi, spectrum_turn_natCast hodd s _ hi, spectrum_turn_natCast hodd _ _ hi,
    mul_assoc, phase_add]

/-- **Turning preserves inner products.** -/
theorem sum_turn_mul (t : ℝ) (x y : ZMod N → ℝ) : ∑ j, turn t x j * turn t y j = ∑ j, x j * y j := by
  have hcross : ∀ i ≤ N / 2, cross (turn t x) (turn t y) (i : ℕ) = cross x y (i : ℕ) := by
    intro i hi
    have hphase : phase N t i * conj (phase N t i) = 1 := by
      rw [Complex.mul_conj, Complex.normSq_eq_norm_sq, norm_phase]
      norm_num
    rw [cross_eq, cross_eq, spectrum_turn_natCast hodd t x hi, spectrum_turn_natCast hodd t y hi, map_mul]
    congr 1
    calc spectrum x i * phase N t i * (conj (spectrum y i) * conj (phase N t i))
        = spectrum x i * conj (spectrum y i) * (phase N t i * conj (phase N t i)) := by ring
      _ = spectrum x i * conj (spectrum y i) := by rw [hphase, mul_one]
  have hzero := hcross 0 (Nat.zero_le _)
  rw [Nat.cast_zero] at hzero
  have hmiddle : ∑ i ∈ Finset.range ((N - 1) / 2), 2 * cross (turn t x) (turn t y) (i + 1 : ℕ) =
      ∑ i ∈ Finset.range ((N - 1) / 2), 2 * cross x y (i + 1 : ℕ) := by
    refine Finset.sum_congr rfl fun i hi => ?_
    have hi := Finset.mem_range.mp hi
    rw [hcross (i + 1) (by omega)]
  rw [parseval, parseval, sum_eq_half (cross_neg _ _), sum_eq_half (cross_neg x y), hzero, hmiddle,
    if_neg (by omega), if_neg (by omega)]

end Odd

end Fourier
