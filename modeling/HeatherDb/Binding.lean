/-
# Binding by convolution

The vector operations of `bind.rs`: circular convolution and its inverses, all
through half spectra, and spectral powers. `none` stands for the panics, of
`expect` on a transform and of an index.

In exact arithmetic all of them are operations on cyclic signals. Where the
source forces the end bins to be real nothing is lost, except in a power: the
principal power of a negative end bin is not real.

Spectral division squares `eps` and so forgets its sign: below zero, where no
bin is as small as `eps`, it removes those as small as `-eps`
(`unbindExactVec_negative`).

Key definitions: `circularConvolve`, `involve`, `unbindVec`, `powVec`,
`unbindExactVec`, `naiveConvolution`, `foldBinds`, `removed`.
Key theorems: `binding_algebra`, `unbindExactVec_negative`.
-/
import HeatherDb.Spectra

namespace HeatherDb

open Scalar Fourier

variable {F : Type} [Scalar F]

section Programs

variable (fft : RealFft F)

def fftForward (a : List F) : Option (List (Cplx F)) := fft.forward a.length a

def ifftInto (spec : List (Cplx F)) (d : ℕ) : Option (List F) := do
  let out ← fft.inverse d spec
  let scale : F := lit 1 / ofUsize d
  pure (out.map (· * scale))

def convolveViaSpec (specA specB : List (Cplx F)) (d : ℕ) : Option (List F) :=
  ifftInto fft (List.zipWith fft.mul specA specB) d

def circularConvolve (a b : List F) : Option (List F) := do
  let d := a.length
  let specA ← fftForward fft a
  let specB ← fftForward fft b
  convolveViaSpec fft specA specB d

/-- `a*[i] = a[(d - i) mod d]` -/
def involve (a : List F) : Option (List F) := do
  let d := a.length
  let first ← a[0]?
  pure (first :: (List.range' 1 (d - 1)).map fun i => a.getD (d - i) (lit 0))

/-- Circular correlation. -/
def unbindVec (c a : List F) : Option (List F) := do
  let d := a.length
  let specC ← fftForward fft c
  let specA ← fftForward fft a
  ifftInto fft (List.zipWith (fun c a => fft.mul c (fft.conj a)) specC specA) d

/-- Spectral power. -/
def powVec (a : List F) (t : F) : Option (List F) := do
  let d := a.length
  let spec ← fftForward fft a
  ifftInto fft (realEnds d (spec.map (fft.powf · t))) d

/-- Spectral division; bins too small to divide by are zeroed. -/
def unbindExactVec (c a : List F) (eps : F) : Option (List F) := do
  let d := a.length
  let specC ← fftForward fft c
  let specA ← fftForward fft a
  let eps2 := eps * eps
  let out := List.zipWith (fun zc za =>
    let m2 := fft.normSqr za
    if le m2 eps2 then .zero else fft.divReal (fft.mul zc (fft.conj za)) m2) specC specA
  ifftInto fft (realEnds d out) d

end Programs

/-- Circular convolution as a double loop. -/
def naiveConvolution (a b : List F) : List F :=
  (List.range a.length).map fun k =>
    sum ((List.range a.length).map fun i => a.getD i (lit 0) * b.getD ((k + a.length - i) % a.length) (lit 0))

/-- `n + 1` copies of a vector bound one after another. -/
def foldBinds (a : List F) : ℕ → List F
  | 0 => a
  | n + 1 => naiveConvolution (foldBinds a n) a

/-! ### Exact arithmetic -/

variable {d : ℕ} [NeZero d] {a b c : List ℝ}

/-- The sum of two multiples, entry by entry. -/
noncomputable def combine (s t : ℝ) (a b : List ℝ) : List ℝ := List.zipWith (fun x y => s * x + t * y) a b

/-- The vector with the Fourier components removed at which the key's are no
larger than `eps`. -/
noncomputable def removed (b a : List ℝ) (eps : ℝ) (d : ℕ) [NeZero d] : List ℝ :=
  ofSamples (signal fun k : ZMod d => if ‖spectrum (samples d a) k‖ ≤ eps then 0 else spectrum (samples d b) k)

theorem naiveConvolution_eq (ha : a.length = d) :
    naiveConvolution a b = ofSamples (conv (samples d a) (samples d b)) := by
  unfold naiveConvolution
  rw [ha]
  refine List.map_congr_left fun k hk => ?_
  have hk := List.mem_range.mp hk
  rw [sum_real, conv, sum_eq_range]
  refine congrArg List.sum (List.map_congr_left fun i hi => ?_)
  have hi := List.mem_range.mp hi
  have hindex : (k : ZMod d) - i = (k + d - i : ℕ) := by
    rw [Nat.cast_sub (by omega), Nat.cast_add, ZMod.natCast_self, add_zero]
  rw [samples_natCast a hi, hindex, samples, ZMod.val_natCast, lit_real, Rat.cast_zero]

@[simp] theorem samples_naiveConvolution (ha : a.length = d) :
    samples d (naiveConvolution a b) = conv (samples d a) (samples d b) := by
  rw [naiveConvolution_eq ha, samples_ofSamples]

@[simp] theorem length_naiveConvolution : (naiveConvolution a b).length = a.length := by
  rw [naiveConvolution, List.length_map, List.length_range]

section Transform

variable {fft : RealFft ℝ}

theorem fftForward_eq (h : fft.Computes) (ha : a.length = d) :
    fftForward fft a = some (halfSpectrum (spectrum (samples d a))) := by
  rw [fftForward, ha, h.forward d a ha]

/-- The way back from a half spectrum with real ends, normalized. -/
theorem ifftInto_eq (h : fft.Computes) {spec : List (Cplx ℝ)} (hlength : spec.length = d / 2 + 1)
    (hends : RealEnds d (bins spec)) :
      ifftInto fft spec d = some (ofSamples (signal (extend (N := d) (bins spec)))) := by
  have hne : (d : ℝ) ≠ 0 := Nat.cast_ne_zero.mpr (NeZero.ne d)
  unfold ifftInto
  rw [h.inverse d spec hlength hends]
  refine congrArg some ((List.map_map ..).trans (List.map_congr_left fun i _ => ?_))
  rw [Function.comp_apply, lit_real, Rat.cast_one, ofUsize_real, mul_comm, ← mul_assoc, one_div_mul_cancel hne, one_mul]

theorem ifftInto_half (h : fft.Computes) {f : ZMod d → ℂ} (hf : Hermitian f) :
    ifftInto fft (halfSpectrum f) d = some (ofSamples (signal f)) := by
  rw [ifftInto_eq h (length_halfSpectrum f) (realEnds_bins hf), extend_bins hf]

/-- The way back from a spectrum of a signal. -/
theorem ifftInto_spectrum (h : fft.Computes) (x : ZMod d → ℝ) :
    ifftInto fft (halfSpectrum (spectrum x)) d = some (ofSamples x) := by
  rw [ifftInto_half h (hermitian_spectrum x), signal_spectrum]

/-- **Convolution** through spectra is convolution. -/
theorem circularConvolve_eq (h : fft.Computes) (ha : a.length = d) (hb : b.length = d) :
    circularConvolve fft a b = some (naiveConvolution a b) := by
  unfold circularConvolve convolveViaSpec
  dsimp only
  rw [fftForward_eq h ha, fftForward_eq h hb, ha]
  show ifftInto fft (List.zipWith _ (halfSpectrum _) (halfSpectrum _)) d = _
  rw [zipWith_halfSpectrum h.mul, ← funext (spectrum_conv _ _), ifftInto_spectrum h,
    naiveConvolution_eq ha]

theorem unbindVec_eq (h : fft.Computes) (hc : c.length = d) (ha : a.length = d) :
    unbindVec fft c a = some (ofSamples (corr (samples d c) (samples d a))) := by
  unfold unbindVec
  dsimp only
  rw [fftForward_eq h hc, fftForward_eq h ha, ha]
  show ifftInto fft (List.zipWith _ (halfSpectrum _) (halfSpectrum _)) d = _
  rw [zipWith_halfSpectrum h.mul_conj, ← funext (spectrum_corr _ _), ifftInto_spectrum h]

/-- The involution reflects the signal. -/
theorem involve_eq (ha : a.length = d) : involve a = some (ofSamples (reflect (samples d a))) := by
  have hpos : 0 < d := Nat.pos_of_neZero d
  have hrange : List.range d = 0 :: List.range' 1 (d - 1) := by
    obtain ⟨m, rfl⟩ : ∃ m, d = m + 1 := ⟨d - 1, by omega⟩
    rw [List.range_eq_range', List.range'_succ, Nat.add_sub_cancel]
  have hzero : samples d a (0 : ZMod d) = a.getD 0 0 := by
    have hcast := samples_natCast a hpos
    rwa [Nat.cast_zero] at hcast
  have hfirst : a[0]? = some (reflect (samples d a) ((0 : ℕ) : ZMod d)) := by
    rw [reflect, Nat.cast_zero, neg_zero, hzero, List.getElem?_eq_getElem (ha ▸ hpos),
      List.getD_eq_getElem _ _ (ha ▸ hpos)]
  unfold involve ofSamples
  dsimp only
  rw [hfirst, hrange, List.map_cons, ha]
  refine congrArg (fun l => some (_ :: l)) (List.map_congr_left fun i hi => ?_)
  obtain ⟨hi, hlt⟩ := List.mem_range'_1.mp hi
  have hneg : -(i : ZMod d) = (d - i : ℕ) := by
    rw [Nat.cast_sub (by omega), ZMod.natCast_self, zero_sub]
  rw [reflect, hneg, samples_natCast a (by omega), lit_real, Rat.cast_zero]

/-! ### Powers -/

/-- The spectrum raised to a power, forced to be one of a real signal. -/
noncomputable def powered (f : ZMod d → ℂ) (t : ℝ) : ZMod d → ℂ :=
  extend (projectEnds d fun i => f (i : ℕ) ^ (t : ℂ))

theorem hermitian_powered (f : ZMod d → ℂ) (t : ℝ) : Hermitian (powered f t) :=
  hermitian_extend (realEnds_projectEnds _)

theorem powVec_eq (h : fft.Computes) (ha : a.length = d) {t : ℝ} (ht : 0 < t) :
    powVec fft a t = some (ofSamples (signal (powered (spectrum (samples d a)) t))) := by
  set f := spectrum (samples d a) with hf
  have hpower : (halfSpectrum f).map (fft.powf · t) = halfSpectrum fun k => f k ^ (t : ℂ) := by
    unfold halfSpectrum
    rw [List.map_map]
    exact List.map_congr_left fun i _ => h.powf _ ht
  have hlength := length_halfSpectrum fun k => f k ^ (t : ℂ)
  have hbins : ∀ i ≤ d / 2, bins (realEnds d (halfSpectrum fun k => f k ^ (t : ℂ))) i =
      projectEnds d (fun i => f (i : ℕ) ^ (t : ℂ)) i := by
    intro i hi
    rw [bins_realEnds hlength hi]
    unfold projectEnds
    rw [bins_halfSpectrum _ hi]
  have hprojected := realEnds_projectEnds (N := d) fun i => f (i : ℕ) ^ (t : ℂ)
  have hends : RealEnds d (bins (realEnds d (halfSpectrum fun k => f k ^ (t : ℂ)))) :=
    { zero := (congrArg Complex.im (hbins 0 (Nat.zero_le _))).trans hprojected.zero
      middle := fun hparity => (congrArg Complex.im (hbins _ le_rfl)).trans (hprojected.middle hparity) }
  unfold powVec
  dsimp only
  rw [fftForward_eq h ha, ha]
  show ifftInto fft (realEnds d ((halfSpectrum f).map _)) d = _
  rw [hpower, ifftInto_eq h ((length_realEnds d _).trans hlength) hends, extend_congr hbins]
  rfl

/-- Bins whose powers are real where they have to be are raised as they are. -/
theorem powered_natCast {f : ZMod d → ℂ} {t : ℝ} (h : RealEnds d fun i => f (i : ℕ) ^ (t : ℂ)) {i : ℕ}
    (hi : i ≤ d / 2) : powered f t i = f i ^ (t : ℂ) := by
  rw [powered, extend_natCast _ hi, h.projectEnds]

/-- A whole power of a real spectrum is one. -/
theorem powered_nat {f : ZMod d → ℂ} (hf : Hermitian f) (n : ℕ) : powered f n = fun k => f k ^ n := by
  have hpower : Hermitian fun k => f k ^ n := fun k => by
    show f (-k) ^ n = _
    rw [hf, map_pow]
  have hcast : ∀ z : ℂ, z ^ ((n : ℝ) : ℂ) = z ^ n := fun z => by rw [Complex.ofReal_natCast, Complex.cpow_natCast]
  refine (hermitian_powered f n).ext_half hpower fun i hi => ?_
  have hends : RealEnds d fun i => f (i : ℕ) ^ ((n : ℝ) : ℂ) := by
    simp only [hcast]
    exact hpower.realEnds
  rw [powered_natCast hends hi, hcast]

/-- **Spectral powers add up**, if the bins that have to be real are not negative. -/
theorem powered_mul {f : ZMod d → ℂ} (hf : Hermitian f) (hzero : 0 ≤ (f 0).re)
    (hmiddle : d % 2 = 0 → 0 ≤ (f (d / 2 : ℕ)).re) {s t : ℝ} (hs : 0 < s) (ht : 0 < t) :
    (fun k => powered f s k * powered f t k) = powered f (s + t) := by
  have hreal : ∀ (z : ℂ) (t : ℝ), z.im = 0 → 0 ≤ z.re → (z ^ (t : ℂ)).im = 0 := by
    intro z t him hre
    have hz : z = (z.re : ℂ) := Complex.ext rfl (by rw [him, Complex.ofReal_im])
    rw [hz, ← Complex.ofReal_cpow hre, Complex.ofReal_im]
  have hends : ∀ t : ℝ, RealEnds d fun i => f (i : ℕ) ^ (t : ℂ) := fun t =>
    { zero := hreal _ t hf.realEnds.zero (by rwa [Nat.cast_zero])
      middle := fun hparity => hreal _ t (hf.realEnds.middle hparity) (hmiddle hparity) }
  refine ((hermitian_powered f s).mul (hermitian_powered f t)).ext_half (hermitian_powered f _) fun i hi => ?_
  rw [powered_natCast (hends s) hi, powered_natCast (hends t) hi, powered_natCast (hends _) hi, Complex.ofReal_add]
  rcases eq_or_ne (f i) 0 with h0 | h0
  · have hne : ∀ {x : ℝ}, 0 < x → (x : ℂ) ≠ 0 := fun hx => Complex.ofReal_ne_zero.mpr hx.ne'
    rw [h0, Complex.zero_cpow (hne hs), zero_mul, ← Complex.ofReal_add, Complex.zero_cpow (hne (add_pos hs ht))]
  · exact (Complex.cpow_add _ _ h0).symm

/-- Binding copies of a vector multiplies its bins. -/
theorem foldBinds_eq (ha : a.length = d) (n : ℕ) : (foldBinds a n).length = d ∧
    spectrum (samples d (foldBinds a n)) = fun k => spectrum (samples d a) k ^ (n + 1) := by
  induction n with
  | zero => exact ⟨ha, funext fun k => (pow_one _).symm⟩
  | succ n ih =>
    refine ⟨by rw [foldBinds, length_naiveConvolution, ih.1], funext fun k => ?_⟩
    rw [foldBinds, samples_naiveConvolution ih.1, spectrum_conv, ih.2, pow_succ _ (n + 1)]

theorem powVec_nat (h : fft.Computes) (ha : a.length = d) (n : ℕ) :
    powVec fft a ((n + 1 : ℕ) : ℝ) = some (foldBinds a n) := by
  obtain ⟨hlength, hspectrum⟩ := foldBinds_eq ha n
  rw [powVec_eq h ha (Nat.cast_pos.mpr n.succ_pos), powered_nat (hermitian_spectrum _), ← hspectrum, signal_spectrum, ofSamples_samples hlength]

theorem powVec_add (h : fft.Computes) (ha : a.length = d) (hzero : 0 ≤ (spectrum (samples d a) 0).re)
    (hmiddle : d % 2 = 0 → 0 ≤ (spectrum (samples d a) (d / 2 : ℕ)).re) {s t : ℝ} (hs : 0 < s) (ht : 0 < t) :
    (do circularConvolve fft (← powVec fft a s) (← powVec fft a t)) = powVec fft a (s + t) := by
  rw [powVec_eq h ha hs, powVec_eq h ha ht, powVec_eq h ha (add_pos hs ht)]
  show circularConvolve fft (ofSamples _) (ofSamples _) = _
  rw [circularConvolve_eq h (length_ofSamples _) (length_ofSamples _), naiveConvolution_eq (length_ofSamples _),
    samples_ofSamples, samples_ofSamples, conv_signal (hermitian_powered _ _) (hermitian_powered _ _),
    powered_mul (hermitian_spectrum _) hzero hmiddle hs ht]

/-! ### Division -/

theorem hermitian_kept (x y : ZMod d → ℝ) (eps : ℝ) :
    Hermitian fun k => if ‖spectrum y k‖ ≤ eps then 0 else spectrum x k := fun k => by
  dsimp only
  rw [hermitian_spectrum x, hermitian_spectrum y, RCLike.norm_conj, apply_ite (starRingEnd ℂ), map_zero]

/-- **Division undoes binding** but for the bins that are no larger than `eps`
without its sign. -/
theorem unbindExactVec_eq (h : fft.Computes) (ha : a.length = d) (b : List ℝ) (eps : ℝ) :
    unbindExactVec fft (naiveConvolution a b) a eps = some (removed b a |eps| d) := by
  set A := spectrum (samples d a) with hA
  set B := spectrum (samples d b) with hB
  have hsmall : ∀ z : ℂ, le (Complex.normSq z) (eps * eps) = true ↔ ‖z‖ ≤ |eps| := fun z => by
    rw [le_real, Complex.normSq_eq_norm_sq, ← sq, sq_le_sq, abs_norm]
  have hop : ∀ x y : ℂ, (if le (fft.normSqr (.ofComplex y)) (eps * eps) then (.zero : Cplx ℝ)
      else fft.divReal (fft.mul (.ofComplex x) (fft.conj (.ofComplex y))) (fft.normSqr (.ofComplex y))) =
        .ofComplex (if ‖y‖ ≤ |eps| then 0 else x * starRingEnd ℂ y / (Complex.normSq y : ℂ)) := by
    intro x y
    rw [h.normSqr]
    by_cases hy : ‖y‖ ≤ |eps|
    · rw [if_pos ((hsmall y).mpr hy), if_pos hy]
      simp [Cplx.zero, Cplx.ofComplex]
    · have hne : y ≠ 0 := fun h0 => hy (by rw [h0, norm_zero]; exact abs_nonneg eps)
      rw [if_neg (mt (hsmall y).mp hy), if_neg hy, h.mul_conj, h.divReal _ (mt Complex.normSq_eq_zero.mp hne)]
  have hbin : (fun k : ZMod d => if ‖A k‖ ≤ |eps| then (0 : ℂ)
      else A k * B k * starRingEnd ℂ (A k) / (Complex.normSq (A k) : ℂ)) =
        fun k => if ‖A k‖ ≤ |eps| then 0 else B k := by
    funext k
    split_ifs with hk
    · rfl
    · have hne : A k ≠ 0 := fun h0 => hk (by rw [h0, norm_zero]; exact abs_nonneg eps)
      rw [mul_comm (A k), mul_assoc, Complex.mul_conj, mul_div_cancel_right₀]
      exact Complex.ofReal_ne_zero.mpr (mt Complex.normSq_eq_zero.mp hne)
  have hconv : spectrum (samples d (naiveConvolution a b)) = fun k => A k * B k := by
    rw [samples_naiveConvolution ha]
    exact funext (spectrum_conv _ _)
  unfold unbindExactVec
  dsimp only
  rw [fftForward_eq h (length_naiveConvolution.trans ha), fftForward_eq h ha, ha, hconv]
  show ifftInto fft (realEnds d (List.zipWith _ (halfSpectrum fun k => A k * B k) (halfSpectrum A))) d = _
  rw [zipWith_halfSpectrum hop, hbin, realEnds_halfSpectrum (hermitian_kept _ _ _),
    ifftInto_half h (hermitian_kept _ _ _)]
  rfl

/-- What the sign of `eps` changes. -/
theorem removed_abs_iff (a b : List ℝ) (eps : ℝ) : removed b a |eps| d = removed b a eps d ↔
    0 ≤ eps ∨ ∀ k : ZMod d, ‖spectrum (samples d a) k‖ ≤ |eps| → spectrum (samples d b) k = 0 := by
  have hinj : removed b a |eps| d = removed b a eps d ↔
      (fun k : ZMod d => if ‖spectrum (samples d a) k‖ ≤ |eps| then 0 else spectrum (samples d b) k) =
        fun k : ZMod d => if ‖spectrum (samples d a) k‖ ≤ eps then 0 else spectrum (samples d b) k := by
    refine ⟨fun h => ?_, fun h => by rw [removed, h, removed]⟩
    have hsignal := congrArg (fun v => spectrum (samples d v)) h
    simp only [removed, samples_ofSamples] at hsignal
    rwa [spectrum_signal (hermitian_kept _ _ _), spectrum_signal (hermitian_kept _ _ _)] at hsignal
  rw [hinj]
  rcases le_or_gt 0 eps with heps | heps
  · rw [abs_of_nonneg heps]
    exact iff_of_true rfl (.inl heps)
  · have hnone : ∀ k : ZMod d, ¬‖spectrum (samples d a) k‖ ≤ eps := fun k hk =>
      (heps.trans_le (norm_nonneg _)).not_ge hk
    simp only [if_neg (hnone _), or_iff_right heps.not_ge, funext_iff]
    refine forall_congr' fun k => ?_
    by_cases hk : ‖spectrum (samples d a) k‖ ≤ |eps|
    · rw [if_pos hk]
      exact ⟨fun h _ => h.symm, fun h => (h hk).symm⟩
    · rw [if_neg hk]
      exact iff_of_true rfl fun h => absurd h hk

/-! ### The algebra -/

theorem samples_combine (s t : ℝ) (ha : a.length = d) (hb : b.length = d) :
    samples d (combine s t a b) = s • samples d a + t • samples d b := by
  rw [combine, ← ofSamples_samples ha, ← ofSamples_samples hb, zipWith_ofSamples]
  simp only [samples_ofSamples]
  rfl

omit [NeZero d] in
theorem length_combine (s t : ℝ) (ha : a.length = d) (hb : b.length = d) : (combine s t a b).length = d := by
  rw [combine, List.length_zipWith, ha, hb, min_self]

theorem naiveConvolution_combine (s t : ℝ) (ha : a.length = d) (hb : b.length = d) :
    naiveConvolution (combine s t a b) c = combine s t (naiveConvolution a c) (naiveConvolution b c) := by
  refine eq_of_samples (d := d) ?_ ?_ ?_
  · rw [length_naiveConvolution, length_combine s t ha hb]
  · exact length_combine s t (length_naiveConvolution.trans ha) (length_naiveConvolution.trans hb)
  · rw [samples_naiveConvolution (length_combine s t ha hb), samples_combine s t ha hb,
      samples_combine s t (length_naiveConvolution.trans ha) (length_naiveConvolution.trans hb),
      samples_naiveConvolution ha, samples_naiveConvolution hb, conv_add_smul]

theorem naiveConvolution_comm (ha : a.length = d) (hb : b.length = d) :
    naiveConvolution a b = naiveConvolution b a := by
  rw [naiveConvolution_eq ha, naiveConvolution_eq hb, conv_comm]

theorem naiveConvolution_assoc (ha : a.length = d) (hb : b.length = d) :
    naiveConvolution (naiveConvolution a b) c = naiveConvolution a (naiveConvolution b c) := by
  rw [naiveConvolution_eq (length_naiveConvolution.trans ha), samples_naiveConvolution ha, naiveConvolution_eq ha,
    samples_naiveConvolution hb, conv_assoc]

end Transform

/-- **The algebra of binding**, of vectors of any dimension. Convolution
through spectra is the double loop, so it commutes, associates and is linear
in both vectors; correlation is convolution with the involution; whole powers
are repeated bindings, and powers add up where the end bins are not negative.
Division gives back what was bound, less the bins no larger than `eps`, exactly
if `eps` is not negative or nothing stands where the key's bins are no larger
than `-eps`. -/
theorem binding_algebra {fft : RealFft ℝ} (hfft : fft.Computes) (d : ℕ) (hd : 1 ≤ d) :
    (∀ a b : List ℝ, a.length = d → b.length = d → circularConvolve fft a b = some (naiveConvolution a b) ∧
      circularConvolve fft a b = circularConvolve fft b a) ∧
    (∀ a b c : List ℝ, a.length = d → b.length = d → c.length = d →
      (do circularConvolve fft (← circularConvolve fft a b) c) =
        (do circularConvolve fft a (← circularConvolve fft b c))) ∧
    (∀ (s t : ℝ) (a b c : List ℝ), a.length = d → b.length = d → c.length = d →
      circularConvolve fft (combine s t a b) c = some (combine s t (naiveConvolution a c) (naiveConvolution b c)) ∧
      circularConvolve fft c (combine s t a b) = some (combine s t (naiveConvolution c a) (naiveConvolution c b))) ∧
    (∀ c a : List ℝ, c.length = d → a.length = d → (unbindVec fft c a).isSome ∧
      unbindVec fft c a = (do circularConvolve fft c (← involve a))) ∧
    (∀ a : List ℝ, a.length = d → ∀ n : ℕ, powVec fft a ((n + 1 : ℕ) : ℝ) = some (foldBinds a n)) ∧
    (∀ a : List ℝ, a.length = d → have : NeZero d := ⟨Nat.one_le_iff_ne_zero.mp hd⟩
      0 ≤ (spectrum (samples d a) 0).re → (d % 2 = 0 → 0 ≤ (spectrum (samples d a) (d / 2 : ℕ)).re) →
      ∀ s t : ℝ, 0 < s → 0 < t → (powVec fft a (s + t)).isSome ∧
        (do circularConvolve fft (← powVec fft a s) (← powVec fft a t)) = powVec fft a (s + t)) ∧
    (∀ a b : List ℝ, a.length = d → b.length = d → ∀ eps : ℝ, have : NeZero d := ⟨Nat.one_le_iff_ne_zero.mp hd⟩
      ((do unbindExactVec fft (← circularConvolve fft a b) a eps) = some (removed b a eps d) ↔
        0 ≤ eps ∨ ∀ k : ZMod d, ‖spectrum (samples d a) k‖ ≤ |eps| → spectrum (samples d b) k = 0)) := by
  have : NeZero d := ⟨Nat.one_le_iff_ne_zero.mp hd⟩
  refine ⟨fun a b ha hb => ?_, fun a b c ha hb hc => ?_, fun s t a b c ha hb hc => ?_, fun c a hc ha => ?_,
    fun a ha n => powVec_nat hfft ha n, fun a ha hzero hmiddle s t hs ht => ?_, fun a b ha hb eps => ?_⟩
  · rw [circularConvolve_eq hfft ha hb, circularConvolve_eq hfft hb ha, naiveConvolution_comm ha hb]
    exact ⟨rfl, rfl⟩
  · rw [circularConvolve_eq hfft ha hb, circularConvolve_eq hfft hb hc]
    show circularConvolve fft (naiveConvolution a b) c = circularConvolve fft a (naiveConvolution b c)
    rw [circularConvolve_eq hfft (length_naiveConvolution.trans ha) hc,
      circularConvolve_eq hfft ha (length_naiveConvolution.trans hb), naiveConvolution_assoc ha hb]
  · have hlength := length_combine s t ha hb
    rw [circularConvolve_eq hfft hlength hc, circularConvolve_eq hfft hc hlength, naiveConvolution_comm hc hlength,
      naiveConvolution_combine s t ha hb, naiveConvolution_comm ha hc, naiveConvolution_comm hb hc]
    exact ⟨rfl, rfl⟩
  · rw [unbindVec_eq hfft hc ha, involve_eq ha]
    refine ⟨rfl, ?_⟩
    show _ = circularConvolve fft c (ofSamples _)
    rw [circularConvolve_eq hfft hc (length_ofSamples _), naiveConvolution_eq hc, samples_ofSamples, corr_eq_conv]
  · refine ⟨?_, powVec_add hfft ha hzero hmiddle hs ht⟩
    rw [powVec_eq hfft ha (add_pos hs ht)]
    rfl
  · rw [circularConvolve_eq hfft ha hb]
    show unbindExactVec fft (naiveConvolution a b) a eps = _ ↔ _
    rw [unbindExactVec_eq hfft ha, Option.some_inj, removed_abs_iff]

/-- Three entries, and a sum that is not negative: a product, a cube, two halves
of a power and a quotient. -/
theorem binding_algebra_three :
    circularConvolve exactFft [1, 2, 0] [1, 0, 1] = some [3, 2, 1] ∧
      powVec exactFft [1, 2, 0] 3 = some (foldBinds [1, 2, 0] 2) ∧
      (do circularConvolve exactFft (← powVec exactFft [1, 2, 0] (1 / 2)) (← powVec exactFft [1, 2, 0] (1 / 2))) =
        powVec exactFft [1, 2, 0] (1 / 2 + 1 / 2) ∧
      (do unbindExactVec exactFft (← circularConvolve exactFft [1, 2, 0] [1, 0, 1]) [1, 2, 0] (1 / 2)) =
        some (removed [1, 0, 1] [1, 2, 0] (1 / 2) 3) := by
  obtain ⟨hbind, -, -, -, hnat, hadd, hdivide⟩ := binding_algebra computes_exactFft 3 (by decide)
  have hproduct : naiveConvolution [1, 2, 0] [1, 0, 1] = ([3, 2, 1] : List ℝ) := by
    simp [naiveConvolution, sum_real, List.range_succ]
    norm_num
  have hsum : 0 ≤ (spectrum (samples 3 [1, 2, 0]) 0).re := by
    have hreal : spectrum (samples 3 [1, 2, 0]) 0 = ((∑ j, samples 3 [1, 2, 0] j : ℝ) : ℂ) := by simp [spectrum_apply]
    have hentry : ∀ n, 0 ≤ ([1, 2, 0] : List ℝ).getD n 0 := by rintro (_ | _ | _ | n) <;> simp
    rw [hreal, Complex.ofReal_re]
    exact Finset.sum_nonneg fun j _ => hentry j.val
  refine ⟨hproduct ▸ (hbind _ _ rfl rfl).1, ?_, (hadd _ rfl hsum (by decide) _ _ (by norm_num) (by norm_num)).2,
    (hdivide _ _ rfl rfl _).mpr (.inl (by norm_num))⟩
  have hcube := hnat [1, 2, 0] rfl 2
  norm_num at hcube
  exact hcube

/-! ### One dimension -/

theorem spectrum_one (x : ℝ) (k : ZMod 1) : spectrum (samples 1 [x]) k = x := by
  obtain rfl : k = 0 := Subsingleton.elim _ _
  rw [spectrum_apply, Fintype.sum_unique, mul_zero, neg_zero, AddChar.map_zero_eq_one, one_mul]
  rfl

/-- **No bin is as small as minus one**, and yet the only one is removed. -/
theorem unbindExactVec_negative : ¬∀ fft : RealFft ℝ, fft.Computes → ∀ (d : ℕ) [NeZero d] (a b : List ℝ),
    a.length = d → b.length = d → ∀ eps : ℝ,
      (do unbindExactVec fft (← circularConvolve fft a b) a eps) = some (removed b a eps d) := by
  intro hall
  have hclaimed := hall exactFft computes_exactFft 1 [1] [1] rfl rfl (-1)
  rw [circularConvolve_eq computes_exactFft (d := 1) rfl rfl] at hclaimed
  change unbindExactVec exactFft (naiveConvolution [1] [1]) [1] (-1) = _ at hclaimed
  rw [unbindExactVec_eq computes_exactFft (d := 1) rfl, Option.some_inj, removed_abs_iff] at hclaimed
  rcases hclaimed with hsign | hnull
  · norm_num at hsign
  · have hbin := hnull 0 (by rw [spectrum_one]; simp)
    rw [spectrum_one] at hbin
    norm_num at hbin

end HeatherDb
