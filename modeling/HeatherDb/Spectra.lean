/-
# Role scores in the frequency domain

What the transform behind `vec_ops.rs` computes is a library's affair; here it
is assumed to be the half-spectrum discrete Fourier transform and its inverse
(`RealFft.Computes`), and the library's complex numbers to be those of
mathematics (`ComplexOps.Exact`). In exact arithmetic a vector is then its spectrum, and the
programs of both crates that go through spectra are operations on cyclic
signals: unbinding is a correlation, and the inner product that a half spectrum
gives, each bin but the ends counted twice, is the one of the vectors.

So the score of a role from spectra is the one from vectors, and both are that
of the correlation written out as a double loop, for every dimension and also
where a norm vanishes.

Key definitions: `ComplexOps.Exact`, `RealFft.Computes`, `exactFft`, `samples`,
`halfSpectrum`, `circularCorrelation`.
Key theorems: `inverseOrZero_half`, `hermitianInner_half`, `role_scores_eq`.
-/
import HeatherDb.Lib.Fourier
import HeatherDb.Mixture
import HeatherDb.PlainSearch

namespace HeatherDb

open Scalar Fourier Store

variable {d : ℕ} {v w : List ℝ}

/-! ### Vectors as signals -/

/-- The entries of a vector, cyclically. -/
def samples (d : ℕ) (v : List ℝ) : ZMod d → ℝ := fun j => v.getD j.val 0

/-- The vector of a signal. -/
def ofSamples (x : ZMod d → ℝ) : List ℝ := (List.range d).map fun i : ℕ => x (i : ZMod d)

@[simp] theorem length_ofSamples (x : ZMod d → ℝ) : (ofSamples x).length = d := by
  rw [ofSamples, List.length_map, List.length_range]

theorem getD_ofSamples (x : ZMod d → ℝ) {i : ℕ} (hi : i < d) : (ofSamples x).getD i 0 = x i := by
  rw [List.getD_eq_getElem _ _ (by simpa using hi)]
  simp [ofSamples]

@[simp] theorem samples_ofSamples [NeZero d] (x : ZMod d → ℝ) : samples d (ofSamples x) = x := by
  funext j
  rw [samples, getD_ofSamples x j.val_lt, ZMod.natCast_zmod_val]

theorem samples_natCast (v : List ℝ) {i : ℕ} (hi : i < d) : samples d v i = v.getD i 0 := by
  rw [samples, ZMod.val_natCast_of_lt hi]

theorem ofSamples_samples (hv : v.length = d) : ofSamples (samples d v) = v := by
  refine List.ext_getElem (by rw [length_ofSamples, hv]) fun i hi hi' => ?_
  have hlt : i < d := hv ▸ hi'
  rw [← List.getD_eq_getElem _ 0 hi, getD_ofSamples _ hlt, samples_natCast v hlt, List.getD_eq_getElem _ _ hi']

/-- Vectors of one dimension are the same if their signals are. -/
theorem eq_of_samples (hv : v.length = d) (hw : w.length = d) (h : samples d v = samples d w) : v = w := by
  rw [← ofSamples_samples hv, h, ofSamples_samples hw]

theorem sum_ofSamples [NeZero d] (x : ZMod d → ℝ) : (ofSamples x).sum = ∑ j, x j := (sum_eq_range x).symm

/-- An operation entry by entry. -/
theorem zipWith_ofSamples (op : ℝ → ℝ → ℝ) (x y : ZMod d → ℝ) :
    List.zipWith op (ofSamples x) (ofSamples y) = ofSamples fun j => op (x j) (y j) := by
  unfold ofSamples
  rw [List.zipWith_map, List.zipWith_self]

theorem dot_ofSamples [NeZero d] (x y : ZMod d → ℝ) : dot (ofSamples x) (ofSamples y) = ∑ j, x j * y j := by
  rw [dot, zipWith_ofSamples, sum_real, sum_ofSamples]

/-- Circular correlation as a double loop. -/
def circularCorrelation {F : Type} [Scalar F] (bound role : List F) : List F :=
  (List.range bound.length).map fun k =>
    sum ((List.range bound.length).map fun i =>
      bound.getD ((i + k) % bound.length) (lit 0) * role.getD i (lit 0))

theorem circularCorrelation_eq [NeZero d] (hv : v.length = d) :
    circularCorrelation v w = ofSamples (corr (samples d v) (samples d w)) := by
  unfold circularCorrelation
  rw [hv]
  refine List.map_congr_left fun k hk => ?_
  rw [sum_real, corr, sum_eq_range]
  refine congrArg List.sum (List.map_congr_left fun i hi => ?_)
  rw [samples_natCast w (List.mem_range.mp hi), ← Nat.cast_add, samples, ZMod.val_natCast, lit_real, Rat.cast_zero]

/-! ### Spectra as lists -/

namespace Cplx

def toComplex (z : Cplx ℝ) : ℂ := ⟨z.re, z.im⟩

def ofComplex (z : ℂ) : Cplx ℝ := ⟨z.re, z.im⟩

@[simp] theorem toComplex_ofComplex (z : ℂ) : (ofComplex z).toComplex = z := rfl

@[simp] theorem re_ofComplex (z : ℂ) : (ofComplex z).re = z.re := rfl

@[simp] theorem im_ofComplex (z : ℂ) : (ofComplex z).im = z.im := rfl

end Cplx

/-- The operations on bins are those on complex numbers, powers by their
principal branch; what is divided by, and an exponent, is not zero. -/
structure ComplexOps.Exact (ops : ComplexOps ℝ) : Prop where
  add : ∀ x y : ℂ, ops.add (.ofComplex x) (.ofComplex y) = .ofComplex (x + y)
  mul : ∀ x y : ℂ, ops.mul (.ofComplex x) (.ofComplex y) = .ofComplex (x * y)
  conj : ∀ x : ℂ, ops.conj (.ofComplex x) = .ofComplex (starRingEnd ℂ x)
  divReal : ∀ (x : ℂ) {r : ℝ}, r ≠ 0 → ops.divReal (.ofComplex x) r = .ofComplex (x / (r : ℂ))
  normSqr : ∀ x : ℂ, ops.normSqr (.ofComplex x) = Complex.normSq x
  powf : ∀ (x : ℂ) {t : ℝ}, 0 < t → ops.powf (.ofComplex x) t = .ofComplex (x ^ (t : ℂ))
  fromPolar : ∀ r θ : ℝ, ops.fromPolar r θ = .ofComplex (r * Complex.exp (θ * Complex.I))

theorem ComplexOps.Exact.mul_conj {ops : ComplexOps ℝ} (h : ops.Exact) (x y : ℂ) :
    ops.mul (.ofComplex x) (ops.conj (.ofComplex y)) = .ofComplex (x * starRingEnd ℂ y) := by
  rw [h.conj, h.mul]

/-- The complex numbers themselves. -/
noncomputable def exactOps : ComplexOps ℝ where
  add x y := .ofComplex (x.toComplex + y.toComplex)
  mul x y := .ofComplex (x.toComplex * y.toComplex)
  conj x := .ofComplex (starRingEnd ℂ x.toComplex)
  divReal x r := .ofComplex (x.toComplex / (r : ℂ))
  normSqr x := Complex.normSq x.toComplex
  powf x t := .ofComplex (x.toComplex ^ (t : ℂ))
  fromPolar r θ := .ofComplex (r * Complex.exp (θ * Complex.I))

theorem exact_exactOps : exactOps.Exact where
  add _ _ := rfl
  mul _ _ := rfl
  conj _ := rfl
  divReal _ _ _ := rfl
  normSqr _ := rfl
  powf _ _ _ := rfl
  fromPolar _ _ := rfl

/-- The bins that a list holds. -/
noncomputable def bins (spec : List (Cplx ℝ)) (i : ℕ) : ℂ := (spec.getD i .zero).toComplex

/-- The non-negative frequencies of a spectrum. -/
noncomputable def halfSpectrum (f : ZMod d → ℂ) : List (Cplx ℝ) :=
  (List.range (d / 2 + 1)).map fun i : ℕ => .ofComplex (f (i : ZMod d))

/-- The transforms are the discrete Fourier transform of a vector, as its half
spectrum, and the way back, unnormalized, from half spectra with real ends; bins
are complex numbers. -/
structure RealFft.Computes (fft : RealFft ℝ) : Prop extends fft.toComplexOps.Exact where
  forward : ∀ (d : ℕ) [NeZero d] (v : List ℝ), v.length = d →
    fft.forward d v = some (halfSpectrum (spectrum (samples d v)))
  inverse : ∀ (d : ℕ) [NeZero d] (spec : List (Cplx ℝ)), spec.length = d / 2 + 1 → RealEnds d (bins spec) →
    fft.inverse d spec = some (ofSamples fun m : ZMod d => d * signal (extend (bins spec)) m)

@[simp] theorem length_halfSpectrum (f : ZMod d → ℂ) : (halfSpectrum f).length = d / 2 + 1 := by
  rw [halfSpectrum, List.length_map, List.length_range]

theorem getD_halfSpectrum (f : ZMod d → ℂ) {i : ℕ} (hi : i ≤ d / 2) :
    (halfSpectrum f).getD i .zero = .ofComplex (f (i : ZMod d)) := by
  rw [List.getD_eq_getElem _ _ (by simpa [Nat.lt_succ_iff] using hi)]
  simp [halfSpectrum]

theorem bins_halfSpectrum (f : ZMod d → ℂ) {i : ℕ} (hi : i ≤ d / 2) : bins (halfSpectrum f) i = f (i : ZMod d) := by
  rw [bins, getD_halfSpectrum f hi, Cplx.toComplex_ofComplex]

theorem realEnds_bins {f : ZMod d → ℂ} (hf : Hermitian f) : RealEnds d (bins (halfSpectrum f)) where
  zero := by
    rw [bins_halfSpectrum f (Nat.zero_le _)]
    exact hf.realEnds.zero
  middle h := by
    rw [bins_halfSpectrum f le_rfl]
    exact hf.realEnds.middle h

/-- A half spectrum extends to the spectrum it was taken from. -/
theorem extend_bins [NeZero d] {f : ZMod d → ℂ} (hf : Hermitian f) : extend (bins (halfSpectrum f)) = f :=
  (hermitian_extend (realEnds_bins hf)).ext_half hf fun i hi => by rw [extend_natCast _ hi, bins_halfSpectrum f hi]

/-- An operation bin by bin. -/
theorem zipWith_halfSpectrum {op : Cplx ℝ → Cplx ℝ → Cplx ℝ} {op' : ℂ → ℂ → ℂ}
    (hop : ∀ x y, op (.ofComplex x) (.ofComplex y) = .ofComplex (op' x y)) (f g : ZMod d → ℂ) :
    List.zipWith op (halfSpectrum f) (halfSpectrum g) = halfSpectrum fun k => op' (f k) (g k) := by
  unfold halfSpectrum
  rw [List.zipWith_map, List.zipWith_self]
  exact List.map_congr_left fun i _ => hop _ _

/-- The ends made real, bin by bin. -/
theorem bins_realEnds {spec : List (Cplx ℝ)} (hlength : spec.length = d / 2 + 1) {i : ℕ} (hi : i ≤ d / 2) :
    bins (realEnds d spec) i = projectEnds d (bins spec) i := by
  have hreal : ∀ z : Cplx ℝ, z.real.toComplex = (z.toComplex.re : ℂ) := fun z => by
    simp [Cplx.real, Cplx.toComplex, Complex.ext_iff]
  have hmodify : ∀ (l : List (Cplx ℝ)) (j : ℕ), l.length = d / 2 + 1 →
      bins (l.modify j .real) i = if j = i then ((bins l i).re : ℂ) else bins l i := by
    intro l j hl
    have hlt : i < l.length := by omega
    rw [bins, bins, List.getD_eq_getElem _ _ (by simpa using hlt), List.getD_eq_getElem _ _ hlt, List.getElem_modify]
    split_ifs
    · exact hreal _
    · rfl
  have hfirst := hmodify spec 0 hlength
  unfold realEnds projectEnds
  dsimp only
  by_cases hparity : d % 2 = 0
  · have hlast : (spec.modify 0 Cplx.real).length - 1 = d / 2 := by rw [List.length_modify, hlength, Nat.add_sub_cancel]
    rw [if_pos hparity, hlast, hmodify _ _ (by rw [List.length_modify, hlength]), hfirst]
    by_cases hi0 : i = 0
    · rw [if_pos hi0.symm, Complex.ofReal_re, ite_self, if_pos (.inl hi0)]
    · rw [if_neg (Ne.symm hi0)]
      by_cases him : i = d / 2
      · rw [if_pos him.symm, if_pos (.inr ⟨hparity, him⟩)]
      · rw [if_neg (Ne.symm him), if_neg fun h => h.elim hi0 fun h => him h.2]
  · rw [if_neg hparity, hfirst]
    by_cases hi0 : i = 0
    · rw [if_pos hi0.symm, if_pos (.inl hi0)]
    · rw [if_neg (Ne.symm hi0), if_neg fun h => h.elim hi0 fun h => hparity h.1]

theorem length_realEnds (d : ℕ) (spec : List (Cplx ℝ)) : (realEnds d spec).length = spec.length := by
  unfold realEnds
  dsimp only
  split_ifs
  · rw [List.length_modify, List.length_modify]
  · rw [List.length_modify]

/-- Half spectra with the same bins are the same. -/
theorem eq_of_bins {spec spec' : List (Cplx ℝ)} (hlength : spec.length = d / 2 + 1)
    (hlength' : spec'.length = d / 2 + 1)
    (h : ∀ i ≤ d / 2, bins spec i = bins spec' i) : spec = spec' := by
  refine List.ext_getElem (hlength.trans hlength'.symm) fun i hi hi' => ?_
  have hbin := h i (by omega)
  rw [bins, bins, List.getD_eq_getElem _ _ hi, List.getD_eq_getElem _ _ hi'] at hbin
  exact congrArg Cplx.ofComplex hbin

variable [NeZero d]

omit [NeZero d] in
/-- The ends of a real signal's spectrum are real already. -/
theorem realEnds_halfSpectrum {f : ZMod d → ℂ} (hf : Hermitian f) :
    realEnds d (halfSpectrum f) = halfSpectrum f := by
  have hlength := length_halfSpectrum f
  refine eq_of_bins ((length_realEnds d _).trans hlength) hlength fun i hi => ?_
  rw [bins_realEnds hlength hi, (realEnds_bins hf).projectEnds]

section Transform

variable {fft : RealFft ℝ}

theorem RealFft.Computes.rfftForward (h : fft.Computes) (hv : v.length = d) :
    rfftForward fft v = halfSpectrum (spectrum (samples d v)) := by
  have hpos : d ≠ 0 := NeZero.ne d
  unfold HeatherDb.rfftForward
  rw [hv, if_neg hpos, h.forward d v hv, Option.getD_some]

/-- The way back from a spectrum that mirrors itself. -/
theorem RealFft.Computes.inverse_half (h : fft.Computes) {f : ZMod d → ℂ} (hf : Hermitian f) :
    fft.inverse d (halfSpectrum f) = some (ofSamples fun m : ZMod d => d * signal f m) := by
  rw [h.inverse d _ (length_halfSpectrum f) (realEnds_bins hf), extend_bins hf]

theorem inverseOrZero_half (h : fft.Computes) {f : ZMod d → ℂ} (hf : Hermitian f) :
    inverseOrZero fft d (halfSpectrum f) = ofSamples (signal f) := by
  have hne : (d : ℝ) ≠ 0 := Nat.cast_ne_zero.mpr (NeZero.ne d)
  unfold inverseOrZero
  rw [h.inverse_half hf]
  refine (List.map_map ..).trans (List.map_congr_left fun i _ => ?_)
  rw [Function.comp_apply, ofUsize_real, mul_div_cancel_left₀ _ hne]

/-- The spectrum of an unbinding is that of the correlation. -/
theorem unbindSpectrum_half {ops : ComplexOps ℝ} (h : ops.Exact) (x y : ZMod d → ℝ) :
    unbindSpectrum ops (halfSpectrum (spectrum x)) (halfSpectrum (spectrum y)) d =
      halfSpectrum (spectrum (corr x y)) := by
  unfold unbindSpectrum
  rw [zipWith_halfSpectrum h.mul_conj, ← funext (spectrum_corr x y),
    realEnds_halfSpectrum (hermitian_spectrum _)]

theorem foldl_doubled (g : ℕ → ℝ) (n : ℕ) (a : ℝ) :
    (List.range' 1 n).foldl (fun acc i => acc + lit 2 * g i) a = a + ∑ i ∈ Finset.range n, 2 * g (i + 1) := by
  induction n with
  | zero => simp
  | succ n ih =>
    rw [List.range'_1_concat, List.foldl_append, ih, Finset.sum_range_succ, ← add_assoc, add_comm 1 n]
    simp

/-- Two ends and the bins between them, counted as the loop counts them, are
all bins. -/
theorem hermitianInner_half (x y : ZMod d → ℝ) :
    hermitianInner (halfSpectrum (spectrum x)) (halfSpectrum (spectrum y)) d = ∑ j, x j * y j := by
  have hre : ∀ i ≤ d / 2, ((halfSpectrum (spectrum x)).getD i .zero).re * ((halfSpectrum (spectrum y)).getD i .zero).re
      + ((halfSpectrum (spectrum x)).getD i .zero).im * ((halfSpectrum (spectrum y)).getD i .zero).im =
        Fourier.cross x y (i : ℕ) := fun i hi => by
    rw [getD_halfSpectrum _ hi, getD_halfSpectrum _ hi]
    rfl
  have hne : halfSpectrum (spectrum x) ≠ [] := List.ne_nil_of_length_eq_add_one (length_halfSpectrum _)
  have hpos : 0 < d := Nat.pos_of_neZero d
  have hmiddle : ∑ i ∈ Finset.range ((d - 1) / 2), 2 * Fourier.cross x y (i + 1 : ℕ) =
      ∑ i ∈ Finset.range ((d - 1) / 2), 2 * (((halfSpectrum (spectrum x)).getD (i + 1) .zero).re *
        ((halfSpectrum (spectrum y)).getD (i + 1) .zero).re + ((halfSpectrum (spectrum x)).getD (i + 1) .zero).im *
          ((halfSpectrum (spectrum y)).getD (i + 1) .zero).im) := by
    refine Finset.sum_congr rfl fun i hi => ?_
    have hi := Finset.mem_range.mp hi
    rw [hre (i + 1) (by omega)]
  rw [parseval, sum_eq_half (cross_neg x y), hmiddle, ← Nat.cast_zero, ← hre 0 (Nat.zero_le _), ← hre _ le_rfl]
  unfold hermitianInner
  rw [if_neg (not_or.mpr ⟨hpos.ne', hne⟩)]
  simp only [length_halfSpectrum, foldl_doubled, ofUsize_real, Nat.add_sub_cancel]
  by_cases hparity : d % 2 = 0
  · have hlong : 1 < d / 2 + 1 := by omega
    have hcount : d / 2 - 1 = (d - 1) / 2 := by omega
    rw [if_pos ⟨hparity, hlong⟩, if_pos ⟨hparity, hlong⟩, if_pos hparity, hcount]
  · have hcount : d / 2 = (d - 1) / 2 := by omega
    rw [if_neg fun h => hparity h.1, if_neg fun h => hparity h.1, if_neg hparity, add_zero, Nat.add_sub_cancel, hcount]

/-! ### Unbinding -/

theorem unbindBySpectra_eq (h : fft.Computes) (hv : v.length = d) (hw : w.length = d) :
    unbindBySpectra fft (rfftForward fft v) (rfftForward fft w) d = circularCorrelation v w := by
  have hpos : d ≠ 0 := NeZero.ne d
  unfold unbindBySpectra
  rw [if_neg hpos, h.rfftForward hv, h.rfftForward hw, unbindSpectrum_half h.toExact,
    inverseOrZero_half h (hermitian_spectrum _), signal_spectrum, circularCorrelation_eq hv]

/-- One transform after the other is what the spectra at hand give. -/
theorem unbindBy_eq (h : fft.Computes) (hv : v.length = d) (hw : w.length = d) :
    unbindBy fft v w = circularCorrelation v w := by
  have hpos : d ≠ 0 := NeZero.ne d
  rw [← unbindBySpectra_eq h hv hw, h.rfftForward hv, h.rfftForward hw]
  unfold unbindBy unbindBySpectra
  rw [hv, if_neg hpos, if_neg hpos, h.forward d v hv, h.forward d w hw]
  rfl

theorem roleScopedSimilaritySpectra_eq (h : fft.Computes) {u : List ℝ} (hv : v.length = d) (hw : w.length = d)
    (hu : u.length = d) :
    roleScopedSimilaritySpectra fft.toComplexOps (rfftForward fft v) (rfftForward fft w) (rfftForward fft u) (l2Norm u) d =
      cosineSimilarity (circularCorrelation v w) u := by
  have hpos : d ≠ 0 := NeZero.ne d
  have hu' : u = ofSamples (samples d u) := (ofSamples_samples hu).symm
  set c := corr (samples d v) (samples d w) with hc
  have hnonneg : 0 ≤ ∑ j, c j * c j := Finset.sum_nonneg fun j _ => mul_self_nonneg (c j)
  have hnorm : l2Norm (ofSamples c) = sqrt (∑ j, c j * c j) := by rw [l2Norm, dot_ofSamples]
  have hdot : dot (ofSamples c) u = ∑ j, c j * samples d u j := by
    conv_lhs => rw [hu']
    exact dot_ofSamples _ _
  unfold roleScopedSimilaritySpectra cosineSimilarity
  rw [if_neg hpos, h.rfftForward hv, h.rfftForward hw, h.rfftForward hu, unbindSpectrum_half h.toExact,
    circularCorrelation_eq hv, ← hc, hnorm, hdot]
  simp only [hermitianInner_half, fmax_real, lit_real, Rat.cast_zero, max_eq_left hnonneg]

end Transform

/-- The transform itself, refusing what the library refuses. -/
noncomputable def exactFft : RealFft ℝ where
  toComplexOps := exactOps
  forward d v := open Classical in
    if h : d ≠ 0 ∧ v.length = d then
      have : NeZero d := ⟨h.1⟩
      some (halfSpectrum (spectrum (samples d v)))
    else none
  inverse d spec := open Classical in
    if h : d ≠ 0 ∧ spec.length = d / 2 + 1 ∧ RealEnds d (bins spec) then
      have : NeZero d := ⟨h.1⟩
      some (ofSamples fun m : ZMod d => d * signal (extend (bins spec)) m)
    else none

theorem computes_exactFft : exactFft.Computes where
  toExact := exact_exactOps
  forward _ _ _ hv := dif_pos ⟨NeZero.ne _, hv⟩
  inverse _ _ _ hlength hends := dif_pos ⟨NeZero.ne _, hlength, hends⟩

/-! ### The scores of documents -/

section Queries

variable {fft : RealFft ℝ} {s : Session ℝ ℝ} {query : List ℝ} {n : ℕ}

/-- A role of the dimension of the vector it is asked of. -/
theorem roleScopedSimilaritySpectra_eq_of_length (h : fft.Computes) {d : ℕ} {u : List ℝ} (hv : v.length = d)
    (hw : w.length = d) (hu : u.length = d) :
    roleScopedSimilaritySpectra fft.toComplexOps (rfftForward fft v) (rfftForward fft w) (rfftForward fft u) (l2Norm u) d =
      roleScopedSimilarity fft v w u := by
  rcases Nat.eq_zero_or_pos d with rfl | hpos
  · have hnil : v = [] := List.eq_nil_of_length_eq_zero hv
    have hnorm : lt (l2Norm ([] : List ℝ)) (lit (1 / 10 ^ 12)) = true := by
      rw [lit_tiny]
      refine lt_real.mpr ?_
      simpa [l2Norm, dot, sum] using tiny_pos
    have hunbind : unbindBy fft v w = [] := by rw [hnil]; rfl
    unfold roleScopedSimilaritySpectra roleScopedSimilarity cosineSimilarity
    rw [if_pos rfl, hunbind, hnorm, Bool.true_or, if_pos rfl]
  · have : NeZero d := ⟨hpos.ne'⟩
    rw [roleScopedSimilaritySpectra_eq h hv hw hu, roleScopedSimilarity, unbindBy_eq h hv hw]

theorem checkDim_ok {d : ℕ} {v : List ℝ} (h : checkDim d v = .ok ()) : v.length = d := by
  unfold checkDim at h
  split_ifs at h with hd
  exact not_not.mp hd

/-- What passes the check has the collection's dimension. -/
theorem length_of_checkMultiRole {inner : EAMInner ℝ ℝ} {pairs : List (List ℝ × List ℝ)} {u : Unit}
    (h : checkMultiRole inner query pairs = .ok u) :
    ∀ p ∈ pairs, p.1.length = inner.config.d ∧ p.2.length = inner.config.d := by
  have hseq : ∀ {x y : Except HeatherError Unit}, (x >>= fun _ => y) = .ok u → x = .ok () ∧ y = .ok u := by
    intro x y hxy
    cases x with
    | error e => cases hxy
    | ok _ => exact ⟨rfl, hxy⟩
  intro p hp
  have hpair := forM_ok (hseq (hseq (hseq h).2).2).2 p hp
  have hdims := (hseq (hseq hpair).2).2
  exact ⟨checkDim_ok (hseq hdims).1, checkDim_ok (hseq hdims).2⟩

/-- A recalled document and its score for every pair. -/
theorem found_of_multiRole (h : fft.Computes) {arrange : List ℕ → List ℕ} {pairs : List (List ℝ × List ℝ)}
    {results : MultiRoleResults ℝ} (hresults : queryDocumentsMultiRole fft arrange s query n pairs .off = .ok results)
    {hit : MultiRoleHit ℝ} (hhit : hit ∈ results.hits) :
    ∃ doc, found s hit.docId = some doc ∧ hit.roleScores = pairs.map fun p => scopedScore fft p.2 (some p.1) doc.1 := by
  rw [queryDocumentsMultiRole_eq] at hresults
  cases hcheck : checkMultiRole s.collection.inner query pairs with
  | error e =>
    rw [hcheck] at hresults
    cases hresults
  | ok _ =>
    rw [hcheck] at hresults
    replace hresults := Except.ok.inj hresults
    split_ifs at hresults with hempty
    · rw [← hresults] at hhit
      cases hhit
    · rw [← hresults] at hhit
      have hrow := mem_sortBy.mp (List.mem_of_mem_take hhit)
      obtain ⟨docId, -, hrow⟩ := List.mem_filterMap.mp hrow
      obtain ⟨doc, hdoc, hrow⟩ := Option.bind_eq_some_iff.mp hrow
      split_ifs at hrow with hlength
      obtain rfl := Option.some.inj hrow
      refine ⟨doc, hdoc, List.map_congr_left fun p hp => ?_⟩
      obtain ⟨hrole, hfiller⟩ := length_of_checkMultiRole hcheck p hp
      exact roleScopedSimilaritySpectra_eq_of_length h (not_not.mp hlength) hrole hfiller

/-- A recalled document and its score for one role. -/
theorem found_of_scoped {arrange : List ℕ → List ℕ} {role : Option (List ℝ)} {rows : List (ℕ × ℝ × List UInt8)}
    (hrows : queryDocumentsScoped fft arrange s query n role = .ok rows) {row : ℕ × ℝ × List UInt8}
    (hrow : row ∈ rows) :
    ∃ doc, found s row.1 = some doc ∧ row.2.1 = scopedScore fft query role doc.1 := by
  rw [queryDocumentsScoped_eq] at hrows
  cases hcheck : checkScoped s.collection.inner query role with
  | error e =>
    rw [hcheck] at hrows
    cases hrows
  | ok _ =>
    rw [hcheck] at hrows
    replace hrows := Except.ok.inj hrows
    split_ifs at hrows with hempty
    · rw [← hrows] at hrow
      cases hrow
    · rw [← hrows] at hrow
      have hrow := mem_sortBy.mp (List.mem_of_mem_take hrow)
      obtain ⟨docId, -, hrow⟩ := List.mem_filterMap.mp hrow
      obtain ⟨doc, hdoc, rfl⟩ := Option.map_eq_some_iff.mp hrow
      exact ⟨doc, hdoc, rfl⟩

end Queries

/-- **A role is scored alike** from spectra and from vectors: as the correlation
written out and then the cosine. Documents that both queries recall get one
score for one role and filler. -/
theorem role_scores_eq {fft : RealFft ℝ} (hfft : fft.Computes) :
    (∀ d : ℕ, 1 ≤ d → ∀ stored role filler : List ℝ, stored.length = d → role.length = d → filler.length = d →
      unbindBy fft stored role = circularCorrelation stored role ∧
      unbindBySpectra fft (rfftForward fft stored) (rfftForward fft role) d = circularCorrelation stored role ∧
      roleScopedSimilarity fft stored role filler = cosineSimilarity (circularCorrelation stored role) filler ∧
      roleScopedSimilaritySpectra fft.toComplexOps (rfftForward fft stored) (rfftForward fft role)
        (rfftForward fft filler) (l2Norm filler) d = cosineSimilarity (circularCorrelation stored role) filler) ∧
    ∀ (s : Session ℝ ℝ) (arrange : List ℕ → List ℕ) (query : List ℝ) (n : ℕ) (pairs : List (List ℝ × List ℝ))
      (results : MultiRoleResults ℝ), queryDocumentsMultiRole fft arrange s query n pairs .off = .ok results →
      ∀ hit ∈ results.hits,
        (∃ doc, found s hit.docId = some doc ∧
          hit.roleScores = pairs.map fun p => scopedScore fft p.2 (some p.1) doc.1) ∧
        ∀ (i : ℕ) (role filler : List ℝ), pairs[i]? = some (role, filler) →
          ∀ (arrange' : List ℕ → List ℕ) (n' : ℕ) (rows : List (ℕ × ℝ × List UInt8)),
            queryDocumentsScoped fft arrange' s filler n' (some role) = .ok rows →
            ∀ row ∈ rows, row.1 = hit.docId → hit.roleScores[i]? = some row.2.1 := by
  constructor
  · intro d hd stored role filler hstored hrole hfiller
    have : NeZero d := ⟨Nat.one_le_iff_ne_zero.mp hd⟩
    have hunbind := unbindBy_eq hfft hstored hrole
    refine ⟨hunbind, unbindBySpectra_eq hfft hstored hrole, ?_,
      roleScopedSimilaritySpectra_eq hfft hstored hrole hfiller⟩
    rw [roleScopedSimilarity, hunbind]
  · intro s arrange query n pairs results hresults hit hhit
    obtain ⟨doc, hdoc, hscores⟩ := found_of_multiRole hfft hresults hhit
    refine ⟨⟨doc, hdoc, hscores⟩, fun i role filler hi arrange' n' rows hrows row hrow hid => ?_⟩
    obtain ⟨doc', hdoc', hscore⟩ := found_of_scoped hrows hrow
    obtain rfl : doc' = doc := Option.some.inj (hdoc'.symm.trans (hid ▸ hdoc))
    rw [hscores, List.getElem?_map, hi, hscore]
    rfl

/-- A new plain collection of vectors with two entries. -/
noncomputable def plainPlane : Session ℝ ℝ := .fresh 0 "c" { realConfig with d := 2 } (fun _ => 1) (.empty .f64)

/-- A document with two entries, and a role: both queries score it by the
correlation written out. -/
theorem role_scores_eq_two : ∃ (_ : SeededUniform ℝ) (s : Session ℝ ℝ) (hit : MultiRoleHit ℝ)
    (row : ℕ × ℝ × List UInt8),
    queryDocumentsMultiRole exactFft id s [1, 2] 1 [([0, 1], [3, 1])] .off = .ok ⟨none, [hit]⟩ ∧
    queryDocumentsScoped exactFft id s [3, 1] 1 (some [0, 1]) = .ok [row] ∧ hit.roleScores[0]? = some row.2.1 ∧
    row.2.1 = cosineSimilarity (circularCorrelation [1, 2] [0, 1]) [3, 1] := by
  let _ : SeededUniform ℝ := { uniform := fun _ => 0 }
  have hwrite : DocumentStep plainPlane (.writeWithMetadata [1, 2] [7], .ok (.documents [0]))
      (Call.effect plainPlane (.writeWithMetadata [1, 2] [7])) := ⟨trivial, step_of_isOk rfl⟩
  have hrun : Run DocumentStep (Session.fresh 0 "c" { realConfig with d := 2 } (fun _ => 1) (.empty .f64)) _ _ :=
    Run.single hwrite
  have hplaced := placed_run untouched_empty rfl hrun
  set s : Session ℝ ℝ := Call.effect plainPlane (.writeWithMetadata [1, 2] [7]) with hs
  have hloc : freshLocation 0 [1, 2] [1, 2] ∈ s.collection.inner.locations := List.mem_singleton_self _
  have hcandidates : ∀ query : List ℝ, candidateIds s query 1 = [0] := fun query => by
    have hactive : Activates s.collection.inner query 1 0 :=
      activates_of_room hplaced.filed.arrays hplaced.filed.shaped (by decide) hloc
    have hnodup : (candidateIds s query 1).Nodup := List.nodup_dedup _
    refine List.perm_singleton.mp ((List.perm_ext_iff_of_nodup hnodup (List.nodup_singleton 0)).mpr fun d => ?_)
    rw [hplaced.mem_candidateIds, List.mem_singleton]
    refine ⟨fun h => Nat.lt_one_iff.mp (hplaced.counted h.1), ?_⟩
    rintro rfl
    exact ⟨rfl, hactive⟩
  have hfound : found s 0 = some ([1, 2], [7]) := by
    obtain ⟨hr, hkept⟩ := kept_run rfl untouched_empty (hrun.mono fun hstep => hstep.2)
    exact hkept.found hr 0
  have hfilled : s.collection.inner.locations.isEmpty = false := rfl
  obtain ⟨hit, hhit, hrow⟩ : ∃ hit : MultiRoleHit ℝ, hit.docId = 0 ∧
      multiRoleRow exactFft s [1, 2] [([0, 1], [3, 1])] none 0 = some hit := by
    refine ⟨⟨0, cosineSimilarity [1, 2] [1, 2], [7],
      roleScores exactFft s.collection.inner [([0, 1], [3, 1])] none [1, 2]⟩, rfl, ?_⟩
    rw [multiRoleRow, hfound, Option.bind_some]
    exact if_neg (not_not.mpr rfl)
  have hmulti : queryDocumentsMultiRole exactFft id s [1, 2] 1 [([0, 1], [3, 1])] .off = .ok ⟨none, [hit]⟩ := by
    have hcheck : checkMultiRole s.collection.inner [1, 2] [([0, 1], [3, 1])] = .ok () := rfl
    rw [queryDocumentsMultiRole_eq, hcheck, hcandidates, Except.map, hfilled, if_neg Bool.false_ne_true]
    refine congrArg (fun rows : List (MultiRoleHit ℝ) =>
      Except.ok (MultiRoleResults.mk none (best (·.recallScore) 1 rows))) (?_ : _ = [hit])
    exact List.filterMap_cons_some hrow
  have hscoped : queryDocumentsScoped exactFft id s [3, 1] 1 (some [0, 1]) =
      .ok [(0, scopedScore exactFft [3, 1] (some [0, 1]) [1, 2], [7])] := by
    have hcheck : checkScoped s.collection.inner [3, 1] (some [0, 1]) = .ok () := rfl
    have hrow : scopedRow exactFft s [3, 1] (some [0, 1]) 0 =
        some (0, scopedScore exactFft [3, 1] (some [0, 1]) [1, 2], [7]) := by
      rw [scopedRow, hfound, Option.map_some]
    rw [queryDocumentsScoped_eq, hcheck, hcandidates, Except.map, hfilled, if_neg Bool.false_ne_true]
    refine congrArg (fun rows : List (ℕ × ℝ × List UInt8) => Except.ok (best (·.2.1) 1 rows)) (?_ : _ = [_])
    exact List.filterMap_cons_some hrow
  obtain ⟨hscore, hqueries⟩ := role_scores_eq computes_exactFft
  have hscores := (hqueries s id [1, 2] 1 _ _ hmulti hit (List.mem_singleton_self _)).2
  exact ⟨inferInstance, s, hit, _, hmulti, hscoped,
    hscores 0 [0, 1] [3, 1] rfl id 1 _ hscoped _ (List.mem_singleton_self _) hhit.symm,
    (hscore 2 (by decide) [1, 2] [0, 1] [3, 1] rfl rfl rfl).2.2.1⟩

end HeatherDb
