/-
# Fractional rotation

`apply_rotate` of `permute.rs`: a permutation is a cyclic shift along each of
its cycles, and a shift by any real number of steps goes through a direct
transform of the half spectrum, in the complex numbers of a library
(`ComplexOps`). Fixed coordinates and `t = 0` are short cuts.

In exact arithmetic every cycle is turned by `t` samples (`along_applyRotate`),
short cuts included. At whole `t` that is the shift, so that the rotation is the
power; along cycles of odd length the turns add up and preserve inner products.

Key definitions: `rotateCyclicShift`, `applyRotate`, `along`.
Key theorems: `rotateCyclicShift_eq`, `along_applyRotate`, `permutation_powers`.
-/
import HeatherDb.Permutation
import HeatherDb.Spectra

namespace HeatherDb

open Scalar Fourier

/-- `f64::consts::PI` and `sin`. -/
class Trigonometric (F : Type) where
  pi : F
  sin : F → F

section Programs

variable {F : Type} [Scalar F] [Trigonometric F]

variable (ops : ComplexOps F)

open Trigonometric

/-- Bins added up one after another. -/
def ComplexOps.total (l : List (Cplx F)) : Cplx F := l.foldl ops.add .zero

/-- `Σ_m x[m] * exp(-i * 2π * m * k / l)` for `k = 0..=l / 2`. -/
def directForward (x : List F) : List (Cplx F) :=
  (List.range (x.length / 2 + 1)).map fun k =>
    let angStep : F := lit (-2) * pi * ofUsize k / ofUsize x.length
    ops.total (x.zipIdx.map fun p => ops.fromPolar p.1 (angStep * ofUsize p.2))

/-- Every bin of a half spectrum turned by `t` steps. -/
def turnHalf (spec : List (Cplx F)) (t : F) (l : ℕ) : List (Cplx F) :=
  spec.zipIdx.map fun p => ops.mul p.1 (ops.fromPolar (lit 1) (lit (-2) * pi * ofUsize p.2 * t / ofUsize l))

/-- The full spectrum: `X[l - k] = conj(X[k])`. -/
def mirrored (spec : List (Cplx F)) (l : ℕ) : List (Cplx F) :=
  (List.range l).map fun k => if k < l / 2 + 1 then spec.getD k .zero else ops.conj (spec.getD (l - k) .zero)

/-- The real part of `(1 / l) * Σ_k X[k] * exp(i * 2π * k * m / l)`. -/
def directInverse (full : List (Cplx F)) (l : ℕ) : List F :=
  (List.range l).map fun m =>
    let acc := ops.total (full.zipIdx.map fun p =>
      ops.mul p.1 (ops.fromPolar (lit 1) (lit 2 * pi * ofUsize p.2 * ofUsize m / ofUsize l)))
    acc.re / ofUsize l

/-- The cyclic shift of a cycle's values by `t` steps. -/
def rotateCyclicShift (x : List F) (t : F) : List F :=
  let l := x.length
  directInverse ops (mirrored ops (realEnds l (turnHalf ops (directForward ops x) t l)) l) l

/-- One cycle rotated and scattered back; a fixed coordinate stays. -/
def turnCycle (v : List F) (t : F) (out : List F) (cyc : List ℕ) : List F :=
  if cyc.length = 1 then out.set (cyc.getD 0 0) (v.getD (cyc.getD 0 0) (lit 0))
  else
    let y := rotateCyclicShift ops (gather v cyc) t
    cyc.zipIdx.foldl (fun out p => out.set p.1 (y.getD p.2 (lit 0))) out

/-- The power for real exponents. -/
def Permutation.applyRotate (ρ : Permutation) (v : List F) (t : F) : Except AlgebraError (List F) := do
  ρ.checkDim v.length
  if eq t (lit 0) = true then pure v
  else pure (ρ.cycles.foldl (turnCycle ops v t) (List.replicate ρ.dim (lit 0)))

end Programs

/-! ### One cycle -/

noncomputable instance : Trigonometric ℝ where
  pi := Real.pi
  sin := Real.sin

variable {ops : ComplexOps ℝ}

theorem ComplexOps.Exact.total (hops : ops.Exact) (l : List ℂ) :
    ops.total (l.map .ofComplex) = .ofComplex l.sum := by
  have hfold : ∀ (l : List ℂ) (z : ℂ),
      (l.map .ofComplex).foldl ops.add (.ofComplex z) = .ofComplex (z + l.sum) := by
    intro l
    induction l with
    | nil => simp
    | cons a l ih =>
      intro z
      rw [List.map_cons, List.foldl_cons, hops.add, ih, List.sum_cons, add_assoc]
  have hzero : (.zero : Cplx ℝ) = .ofComplex 0 := by simp [Cplx.zero, Cplx.ofComplex]
  rw [ComplexOps.total, hzero, hfold, zero_add]

/-- Bins added up over the entries of a list. -/
theorem total_zipIdx (hops : ops.Exact) {α : Type} {g : α → ℕ → Cplx ℝ} {g' : α → ℕ → ℂ}
    (hg : ∀ a m, g a m = .ofComplex (g' a m)) (l : List α) (a : α) : ops.total (l.zipIdx.map fun p => g p.1 p.2) =
      .ofComplex (∑ m ∈ Finset.range l.length, g' (l.getD m a) m) := by
  have hlist : (l.zipIdx.map fun p => g p.1 p.2) = ((List.range l.length).map fun m => g' (l.getD m a) m).map
      .ofComplex := by
    refine List.ext_getElem (by simp) fun m hm hm' => ?_
    have hlt : m < l.length := by simpa using hm
    simp [hlt, hg]
  rw [hlist, hops.total]
  rfl

section Cycle

variable {d : ℕ} [NeZero d] {x : List ℝ}

theorem stdAddChar_mul (j k : ℕ) :
    ZMod.stdAddChar ((j : ZMod d) * (k : ZMod d)) = Complex.exp ((2 * Real.pi * j * k / d : ℝ) * Complex.I) := by
  have hcast : (j : ZMod d) * (k : ZMod d) = ((j * k : ℕ) : ℤ) := by push_cast; rfl
  rw [hcast, ZMod.stdAddChar_coe]
  congr 1
  push_cast
  ring

theorem stdAddChar_neg_mul (j k : ℕ) :
    ZMod.stdAddChar (-((j : ZMod d) * (k : ZMod d))) = Complex.exp ((-2 * Real.pi * k / d * j : ℝ) * Complex.I) := by
  rw [AddChar.map_neg_eq_inv, stdAddChar_mul, ← Complex.exp_neg]
  congr 1
  push_cast
  ring

theorem directForward_eq (hops : ops.Exact) (hx : x.length = d) :
    directForward ops x = halfSpectrum (spectrum (samples d x)) := by
  unfold directForward halfSpectrum
  rw [hx]
  refine List.map_congr_left fun k _ => ?_
  have hterm : ∀ (y : ℝ) (m : ℕ), ops.fromPolar y (lit (-2) * Trigonometric.pi * ofUsize k / ofUsize d * ofUsize m) =
      .ofComplex (y * Complex.exp ((-2 * Real.pi * k / d * m : ℝ) * Complex.I)) := fun y m => by
    rw [hops.fromPolar]
    simp [Trigonometric.pi]
  dsimp only
  rw [total_zipIdx hops hterm x 0, hx, spectrum_apply, sum_eq_range]
  refine congrArg Cplx.ofComplex (Finset.sum_congr rfl fun m hm => ?_)
  rw [stdAddChar_neg_mul, samples_natCast x (Finset.mem_range.mp hm), mul_comm]

omit [NeZero d] in
theorem bins_turnHalf (hops : ops.Exact) (f : ZMod d → ℂ) (t : ℝ) {i : ℕ} (hi : i ≤ d / 2) :
    bins (turnHalf ops (halfSpectrum f) t d) i = f (i : ℕ) * phase d t i := by
  have hlt : i < (halfSpectrum f).length := by rw [length_halfSpectrum]; omega
  have hbin : (halfSpectrum f)[i] = .ofComplex (f (i : ℕ)) := by
    rw [← List.getD_eq_getElem _ .zero hlt, getD_halfSpectrum f hi]
  rw [bins, turnHalf, List.getD_eq_getElem _ _ (by simpa using hlt), List.getElem_map, List.getElem_zipIdx, hbin,
    hops.fromPolar, hops.mul, Cplx.toComplex_ofComplex, phase]
  simp [Trigonometric.pi]

theorem length_turnHalf (spec : List (Cplx ℝ)) (t : ℝ) (l : ℕ) : (turnHalf ops spec t l).length = spec.length := by
  rw [turnHalf, List.length_map, List.length_zipIdx]

omit [NeZero d] in
theorem getD_mirrored (hops : ops.Exact) {spec : List (Cplx ℝ)} {k : ℕ} (hk : k < d) :
    (mirrored ops spec d).getD k .zero = .ofComplex (extend (N := d) (bins spec) k) := by
  rw [mirrored, List.getD_eq_getElem _ _ (by simpa using hk), List.getElem_map, List.getElem_range, extend,
    ZMod.val_natCast_of_lt hk]
  by_cases hside : k ≤ d / 2
  · rw [if_pos hside, if_pos (Nat.lt_succ_of_le hside)]
    rfl
  · rw [if_neg hside, if_neg (mt Nat.le_of_lt_succ hside)]
    exact hops.conj (bins spec (d - k))

theorem directInverse_eq (hops : ops.Exact) {full : List (Cplx ℝ)} {f : ZMod d → ℂ} (hlength : full.length = d)
    (hfull : ∀ k < d, full.getD k .zero = .ofComplex (f (k : ℕ))) :
    directInverse ops full d = ofSamples (signal f) := by
  refine List.map_congr_left fun m _ => ?_
  have hterm : ∀ (z : Cplx ℝ) (k : ℕ),
      ops.mul z (ops.fromPolar (lit 1) (lit 2 * Trigonometric.pi * ofUsize k * ofUsize m / ofUsize d)) =
        .ofComplex (z.toComplex * Complex.exp ((2 * Real.pi * k * m / d : ℝ) * Complex.I)) := fun z k => by
    rw [hops.fromPolar]
    refine (hops.mul z.toComplex _).trans (congrArg Cplx.ofComplex ?_)
    simp [Trigonometric.pi]
  have hsum : ∑ k ∈ Finset.range d, (full.getD k .zero).toComplex *
      Complex.exp ((2 * Real.pi * k * m / d : ℝ) * Complex.I) = ∑ k, ZMod.stdAddChar (k * (m : ZMod d)) • f k := by
    rw [sum_eq_range]
    refine Finset.sum_congr rfl fun k hk => ?_
    rw [hfull k (Finset.mem_range.mp hk), stdAddChar_mul, Cplx.toComplex_ofComplex, smul_eq_mul, mul_comm]
  dsimp only
  rw [total_zipIdx hops hterm full .zero, hlength, hsum, signal, ZMod.invDFT_apply, smul_eq_mul, Cplx.re_ofComplex,
    ofUsize_real, div_eq_inv_mul, ← Complex.ofReal_natCast, ← Complex.ofReal_inv, Complex.re_ofReal_mul]

/-- **A shift through the half spectrum** turns the signal. -/
theorem rotateCyclicShift_eq (hops : ops.Exact) (hx : x.length = d) (t : ℝ) :
    rotateCyclicShift ops x t = ofSamples (turn t (samples d x)) := by
  have hlength : (turnHalf ops (halfSpectrum (spectrum (samples d x))) t d).length = d / 2 + 1 := by
    rw [length_turnHalf, length_halfSpectrum]
  have hbins : ∀ i ≤ d / 2, bins (realEnds d (turnHalf ops (halfSpectrum (spectrum (samples d x))) t d)) i =
      projectEnds d (fun i => spectrum (samples d x) (i : ℕ) * phase d t i) i := by
    intro i hi
    rw [bins_realEnds hlength hi]
    unfold projectEnds
    rw [bins_turnHalf hops _ t hi]
  unfold rotateCyclicShift
  dsimp only
  rw [hx, directForward_eq hops hx,
    directInverse_eq hops (f := turnBins t (spectrum (samples d x))) (by simp [mirrored])]
  · rfl
  · intro k hk
    rw [getD_mirrored hops hk, extend_congr hbins]
    rfl

end Cycle

/-! ### All cycles -/

/-- The values of a vector along a cycle. -/
noncomputable def along (d : ℕ) (v : List ℝ) (cyc : List ℕ) : ZMod d → ℝ := samples d (gather v cyc)

section Along

variable {d : ℕ} {v w : List ℝ} {cyc : List ℕ}

theorem along_natCast (v : List ℝ) (hd : cyc.length = d) {m : ℕ} (hm : m < d) :
    along d v cyc m = v.getD (cyc.getD m 0) 0 := by
  have hlt : m < cyc.length := hd ▸ hm
  rw [along, samples_natCast _ hm, List.getD_eq_getElem _ _ (by simpa [gather] using hlt),
    List.getD_eq_getElem _ _ hlt]
  simp [gather]

variable [NeZero d]

/-- Values written to the coordinates of a cycle. -/
theorem getD_scatter (y : List ℝ) (cyc : List ℕ) : ∀ (n : ℕ) (out : List ℝ), cyc.Nodup → (∀ i ∈ cyc, i < out.length) →
    ((cyc.zipIdx n).foldl (fun out p => out.set p.1 (y.getD p.2 0)) out).length = out.length ∧
    (∀ j ∉ cyc, ((cyc.zipIdx n).foldl (fun out p => out.set p.1 (y.getD p.2 0)) out).getD j 0 = out.getD j 0) ∧
    ∀ m < cyc.length, ((cyc.zipIdx n).foldl (fun out p => out.set p.1 (y.getD p.2 0)) out).getD (cyc.getD m 0) 0 =
      y.getD (n + m) 0 := by
  induction cyc with
  | nil => exact fun n out _ _ => ⟨rfl, fun _ _ => rfl, nofun⟩
  | cons i cyc ih =>
    intro n out hnodup hlt
    obtain ⟨hnew, hnodup⟩ := List.nodup_cons.mp hnodup
    have hi : i < out.length := hlt i List.mem_cons_self
    obtain ⟨hlength, hothers, hvalues⟩ := ih (n + 1) (out.set i (y.getD n 0)) hnodup fun j hj => by
      rw [List.length_set]
      exact hlt j (List.mem_cons_of_mem i hj)
    rw [List.zipIdx_cons, List.foldl_cons]
    refine ⟨hlength.trans (List.length_set ..), fun j hj => ?_, fun m hm => ?_⟩
    · rw [hothers j fun h => hj (List.mem_cons_of_mem i h), Permutation.getD_set _ _ _ _ _ hi,
        if_neg fun h : i = j => hj (h ▸ List.mem_cons_self)]
    · cases m with
      | zero =>
        rw [List.getD_cons_zero, hothers i hnew, Permutation.getD_set _ _ _ _ _ hi, if_pos rfl, Nat.add_zero]
      | succ m =>
        rw [List.getD_cons_succ, hvalues m (Nat.lt_of_succ_lt_succ hm), Nat.add_right_comm, Nat.add_assoc]

/-- **One cycle** of the loop: its values are turned, the others stay. -/
theorem getD_turnCycle (hops : ops.Exact) (v : List ℝ) (t : ℝ) (hd : cyc.length = d) (hnodup : cyc.Nodup) {out : List ℝ}
    (hlt : ∀ i ∈ cyc, i < out.length) : (turnCycle ops v t out cyc).length = out.length ∧
    (∀ j ∉ cyc, (turnCycle ops v t out cyc).getD j 0 = out.getD j 0) ∧
    ∀ m < d, (turnCycle ops v t out cyc).getD (cyc.getD m 0) 0 = turn t (along d v cyc) (m : ZMod d) := by
  unfold turnCycle
  split_ifs with hone
  · obtain ⟨c, rfl⟩ := List.length_eq_one_iff.mp hone
    have hc : c < out.length := hlt c (List.mem_singleton_self c)
    refine ⟨List.length_set .., fun j hj => ?_, fun m hm => ?_⟩
    · rw [List.getD_cons_zero, Permutation.getD_set _ _ _ _ _ hc, if_neg fun h : c = j =>
        hj (h ▸ List.mem_singleton_self c)]
    · obtain rfl : m = 0 := by omega
      rw [turn_single (hd.symm.trans hone), along_natCast v hd hm, List.getD_cons_zero,
        Permutation.getD_set _ _ _ _ _ hc, if_pos rfl, lit_real, Rat.cast_zero]
  · have hgather : (gather v cyc).length = d := by rw [Permutation.length_gather, hd]
    have hscatter := getD_scatter (rotateCyclicShift ops (gather v cyc) t) cyc 0 out hnodup hlt
    rw [lit_real, Rat.cast_zero]
    refine ⟨hscatter.1, hscatter.2.1, fun m hm => ?_⟩
    rw [hscatter.2.2 m (hd ▸ hm), Nat.zero_add, rotateCyclicShift_eq hops hgather, getD_ofSamples _ hm]
    rfl

/-- **The loop over the cycles** turns each. -/
theorem getD_foldl_turnCycle (hops : ops.Exact) (v : List ℝ) (t : ℝ) (cycles : List (List ℕ)) : ∀ out : List ℝ, cycles.flatten.Nodup →
    (∀ cyc ∈ cycles, cyc ≠ []) → (∀ i ∈ cycles.flatten, i < out.length) →
    (cycles.foldl (turnCycle ops v t) out).length = out.length ∧
    (∀ j ∉ cycles.flatten, (cycles.foldl (turnCycle ops v t) out).getD j 0 = out.getD j 0) ∧
    ∀ cyc ∈ cycles, ∀ (d : ℕ) [NeZero d], cyc.length = d → ∀ m < d,
      (cycles.foldl (turnCycle ops v t) out).getD (cyc.getD m 0) 0 = turn t (along d v cyc) (m : ZMod d) := by
  induction cycles with
  | nil => exact fun out _ _ _ => ⟨rfl, fun _ _ => rfl, nofun⟩
  | cons cyc cycles ih =>
    intro out hnodup hne hlt
    rw [List.flatten_cons] at hnodup hlt
    obtain ⟨hcyc, hrest, hdisjoint⟩ := List.nodup_append.mp hnodup
    have hpos : cyc.length ≠ 0 := fun h => hne cyc List.mem_cons_self (List.eq_nil_of_length_eq_zero h)
    have : NeZero cyc.length := ⟨hpos⟩
    obtain ⟨hlength, hothers, hvalues⟩ := getD_turnCycle hops v t rfl hcyc fun i hi => hlt i (List.mem_append_left _ hi)
    obtain ⟨hlength', hothers', hvalues'⟩ := ih (turnCycle ops v t out cyc) hrest
      (fun c hc => hne c (List.mem_cons_of_mem cyc hc)) fun i hi => hlength ▸ hlt i (List.mem_append_right _ hi)
    rw [List.foldl_cons, List.flatten_cons]
    refine ⟨hlength'.trans hlength, fun j hj => ?_, fun c hc d _ hd m hm => ?_⟩
    · rw [hothers' j fun h => hj (List.mem_append_right _ h), hothers j fun h => hj (List.mem_append_left _ h)]
    · rcases List.mem_cons.mp hc with rfl | hc
      · subst hd
        have hmem : c.getD m 0 ∈ c := by
          rw [List.getD_eq_getElem _ _ hm]
          exact List.getElem_mem hm
        rw [hothers' _ fun h => hdisjoint _ hmem _ h rfl, hvalues m hm]
      · exact hvalues' c hc d hd m hm

end Along

namespace Permutation

variable {ρ : Permutation} {v w : List ℝ}

theorem ne_nil_of_mem_cycles {cyc : List ℕ} (hcyc : cyc ∈ ρ.cycles) : cyc ≠ [] := by
  obtain ⟨start, rfl⟩ := eq_cycleFrom hcyc
  exact List.ne_nil_of_length_pos (by rw [length_cycleFrom]; exact period_pos)

/-- Vectors with the same values along all cycles are the same. -/
theorem ext_along (hv : v.length = ρ.dim) (hw : w.length = ρ.dim)
    (h : ∀ cyc ∈ ρ.cycles, ∀ (d : ℕ) [NeZero d], cyc.length = d → along d v cyc = along d w cyc) : v = w := by
  refine List.ext_getElem (hv.trans hw.symm) fun i hi hi' => ?_
  have hmem : i ∈ ρ.cycles.flatten := ρ.cycles_perm.symm.subset (List.mem_range.mpr (hv ▸ hi))
  obtain ⟨cyc, hcyc, hmem⟩ := List.mem_flatten.mp hmem
  obtain ⟨m, hm, rfl⟩ := List.getElem_of_mem hmem
  have : NeZero cyc.length := ⟨Nat.ne_of_gt (Nat.zero_lt_of_lt hm)⟩
  have hvalue := congrFun (h cyc hcyc cyc.length rfl) (m : ℕ)
  rw [along_natCast v rfl hm, along_natCast w rfl hm, List.getD_eq_getElem _ _ hm, List.getD_eq_getElem _ _ hi,
    List.getD_eq_getElem _ _ hi'] at hvalue
  exact hvalue

/-- **A rotation** turns every cycle. -/
theorem along_applyRotate (hops : ops.Exact) (hv : v.length = ρ.dim) (t : ℝ) : ∃ w, ρ.applyRotate ops v t = .ok w ∧ w.length = ρ.dim ∧
    ∀ cyc ∈ ρ.cycles, ∀ (d : ℕ) [NeZero d], cyc.length = d → along d w cyc = turn t (along d v cyc) := by
  unfold applyRotate
  rw [checkDim_ok ρ hv]
  by_cases ht : t = 0
  · refine ⟨v, if_pos (decide_eq_true (by simpa using ht)), hv, fun cyc _ d _ _ => ?_⟩
    have hshift := turn_int 0 (along d v cyc)
    rw [Int.cast_zero, Int.cast_zero] at hshift
    rw [ht, hshift]
    funext j
    rw [shift, sub_zero]
  · obtain ⟨hlength, -, hvalues⟩ := getD_foldl_turnCycle hops v t ρ.cycles (List.replicate ρ.dim 0)
      (ρ.cycles_perm.nodup_iff.mpr List.nodup_range) (fun _ => ne_nil_of_mem_cycles)
      (fun i hi => by simpa using ρ.cycles_perm.subset hi)
    have hne : ¬eq t (lit 0) = true := fun h => ht (by simpa using of_decide_eq_true h)
    refine ⟨_, if_neg hne, ?_, fun cyc hcyc d _ hd => ?_⟩
    · rw [lit_real, Rat.cast_zero, hlength, List.length_replicate]
    · funext j
      rw [← ZMod.natCast_zmod_val j, along_natCast _ hd j.val_lt, lit_real, Rat.cast_zero]
      exact hvalues cyc hcyc d hd _ j.val_lt

theorem applyRotate_error (hv : v.length ≠ ρ.dim) (t : ℝ) :
    ρ.applyRotate ops v t = .error (dimensionsDiffer ρ.dim v.length) := by
  unfold applyRotate
  rw [checkDim_error ρ hv]
  rfl

/-- **A power** shifts every cycle. -/
theorem along_applyPow (hv : v.length = ρ.dim) (k : ℤ) : ∃ w, ρ.applyPow v k = .ok w ∧ w.length = ρ.dim ∧
    ∀ cyc ∈ ρ.cycles, ∀ (d : ℕ) [NeZero d], cyc.length = d → along d w cyc = shift (k : ZMod d) (along d v cyc) := by
  refine ⟨_, applyPow_eq ρ hv k, by simp, fun cyc hcyc d _ hd => ?_⟩
  obtain ⟨start, rfl⟩ := eq_cycleFrom hcyc
  obtain rfl : d = ρ.period start := by rw [← hd, length_cycleFrom]
  funext j
  have hback : (ρ.toPerm ^ k) (ρ.orbit start j.val) = ρ.orbit start (j - (k : ZMod (ρ.period start))).val := by
    rw [zpow_orbit]
    refine orbit_congr ?_
    push_cast
    rw [ZMod.natCast_zmod_val, ZMod.natCast_zmod_val]
  have hleft := along_natCast (gather v (indices (ρ.toPerm ^ k))) hd j.val_lt
  have hright := along_natCast v hd (j - (k : ZMod (ρ.period start))).val_lt
  rw [ZMod.natCast_zmod_val] at hleft hright
  rw [shift, hleft, hright, getD_cycleFrom j.val_lt, getD_cycleFrom (ZMod.val_lt _), ← hback]
  have hgather := getD_gather v (ρ.toPerm ^ k) (ρ.orbit start j.val)
  rwa [lit_real, Rat.cast_zero] at hgather

/-- A dot product, cycle by cycle. -/
theorem dot_eq_along (hv : v.length = ρ.dim) (hw : w.length = ρ.dim) :
    dot v w = (ρ.cycles.map fun cyc => (cyc.map fun i => v.getD i 0 * w.getD i 0).sum).sum := by
  have hentries : List.zipWith (· * ·) v w = (List.range ρ.dim).map fun i => v.getD i 0 * w.getD i 0 := by
    refine List.ext_getElem (by simp [hv, hw]) fun i hi hi' => ?_
    have hlt : i < ρ.dim := by simpa using hi'
    simp [hv ▸ hlt, hw ▸ hlt]
  rw [dot, sum_real, hentries, ← (ρ.cycles_perm.map _).sum_eq, List.map_flatten, List.sum_flatten, List.map_map]
  rfl

theorem sum_along {d : ℕ} [NeZero d] {cyc : List ℕ} (hd : cyc.length = d) (v w : List ℝ) :
    (cyc.map fun i => v.getD i 0 * w.getD i 0).sum = ∑ j, along d v cyc j * along d w cyc j := by
  have hentries : (cyc.map fun i => v.getD i 0 * w.getD i 0) =
      ofSamples fun j : ZMod d => along d v cyc j * along d w cyc j := by
    refine List.ext_getElem (by simp [hd]) fun m hm hm' => ?_
    have hlt : m < d := by simpa using hm'
    have hlt' : m < cyc.length := hd ▸ hlt
    rw [List.getElem_map, ← List.getD_eq_getElem _ 0 hm', getD_ofSamples _ hlt, along_natCast v hd hlt,
      along_natCast w hd hlt, List.getD_eq_getElem _ _ hlt']
  rw [hentries, sum_ofSamples]

/-- **At whole exponents** the rotation is the power. -/
theorem applyRotate_int (hops : ops.Exact) (v : List ℝ) (k : ℤ) : ρ.applyRotate ops v (k : ℝ) = ρ.applyPow v k := by
  by_cases hv : v.length = ρ.dim
  · obtain ⟨w, hw, hlength, hturn⟩ := along_applyRotate hops hv (k : ℝ)
    obtain ⟨w', hw', hlength', hshift⟩ := along_applyPow hv k
    rw [hw, hw']
    refine congrArg Except.ok (ext_along hlength hlength' fun cyc hcyc d _ hd => ?_)
    rw [hturn cyc hcyc d hd, hshift cyc hcyc d hd, turn_int]
  · rw [applyRotate_error hv, applyPow_error ρ hv]

section Odd

variable (hodd : ∀ cyc ∈ ρ.cycles, cyc.length % 2 = 1)
include hodd

/-- **Rotations add up** along cycles of odd length. -/
theorem applyRotate_add (hops : ops.Exact) (v : List ℝ) (s t : ℝ) :
    (do ρ.applyRotate ops (← ρ.applyRotate ops v s) t) = ρ.applyRotate ops v (s + t) := by
  by_cases hv : v.length = ρ.dim
  · obtain ⟨w, hw, hlength, hturn⟩ := along_applyRotate hops hv s
    obtain ⟨w', hw', hlength', hturn'⟩ := along_applyRotate hops hlength t
    obtain ⟨u, hu, hlengthu, hturnu⟩ := along_applyRotate hops hv (s + t)
    rw [hw, hu]
    refine hw'.trans (congrArg Except.ok (ext_along hlength' hlengthu fun cyc hcyc d _ hd => ?_))
    have hd2 : d % 2 = 1 := hd ▸ hodd cyc hcyc
    rw [hturn' cyc hcyc d hd, hturn cyc hcyc d hd, hturnu cyc hcyc d hd, turn_turn hd2]
  · rw [applyRotate_error hv, applyRotate_error hv]
    rfl

/-- **Rotations preserve inner products** along cycles of odd length. -/
theorem dot_applyRotate (hops : ops.Exact) (hv : v.length = ρ.dim) (hw : w.length = ρ.dim) (t : ℝ) : ∃ v' w', ρ.applyRotate ops v t = .ok v' ∧
    ρ.applyRotate ops w t = .ok w' ∧ dot v' w' = dot v w := by
  obtain ⟨v', hv', hlengthv, hturnv⟩ := along_applyRotate hops hv t
  obtain ⟨w', hw', hlengthw, hturnw⟩ := along_applyRotate hops hw t
  refine ⟨v', w', hv', hw', ?_⟩
  rw [dot_eq_along hlengthv hlengthw, dot_eq_along hv hw]
  refine congrArg List.sum (List.map_congr_left fun cyc hcyc => ?_)
  have hpos : cyc.length ≠ 0 := fun h => ne_nil_of_mem_cycles hcyc (List.eq_nil_of_length_eq_zero h)
  have : NeZero cyc.length := ⟨hpos⟩
  rw [sum_along rfl, sum_along rfl, hturnv cyc hcyc _ rfl, hturnw cyc hcyc _ rfl, sum_turn_mul (hodd cyc hcyc)]

end Odd

end Permutation

/-- **Powers of a permutation** act on vectors: exponents add up, and a negated
one undoes. Their index maps gather to the same vectors, of a snapshot too,
and the cycles partition the coordinates in move order. In exact arithmetic the
rotation is the power at whole exponents, and along cycles of odd length rotations
add up and preserve inner products for all real ones. -/
theorem permutation_powers {F : Type} [Scalar F] (ρ : Permutation) :
    (∀ (v : List F) (j k : ℤ), (do ρ.applyPow (← ρ.applyPow v k) j) = ρ.applyPow v (j + k)) ∧
    (∀ (v : List F) (k : ℤ), v.length = ρ.dim → (do ρ.applyPow (← ρ.applyPow v k) (-k)) = .ok v) ∧
    (∀ (v : List F) (k : ℤ), v.length = ρ.dim → ρ.applyPow v k = .ok (gather v (ρ.powIndices k))) ∧
    (∀ (snap : EAMSnapshot F) (k : ℤ), snap.dim = ρ.dim →
      ∃ out, ρ.permuteSnapshot snap k = .ok out ∧ out.config = snap.config ∧
        List.Forall₂ (fun loc loc' =>
          (loc.counter.length = snap.dim → ρ.applyPow loc.counter k = .ok loc'.counter) ∧
          (loc.address.length = snap.dim → ρ.applyPow loc.address k = .ok loc'.address) ∧
          loc' = { loc with counter := loc'.counter, address := loc'.address }) snap.locations out.locations) ∧
    (ρ.cycles.flatten.Perm (List.range ρ.dim) ∧ ∀ cyc ∈ ρ.cycles, cyc ≠ [] ∧
      ∀ v w : List F, ρ.apply v = .ok w → ∀ m < cyc.length,
        w.getD (cyc.getD ((m + 1) % cyc.length) 0) (lit 0) = v.getD (cyc.getD m 0) (lit 0)) ∧
    ∀ ops : ComplexOps ℝ, ops.Exact → (∀ (v : List ℝ) (k : ℤ), ρ.applyRotate ops v (k : ℝ) = ρ.applyPow v k) ∧
      ((∀ cyc ∈ ρ.cycles, cyc.length % 2 = 1) →
        (∀ (v : List ℝ) (s t : ℝ), (do ρ.applyRotate ops (← ρ.applyRotate ops v s) t) = ρ.applyRotate ops v (s + t)) ∧
        ∀ (v w : List ℝ) (t : ℝ), v.length = ρ.dim → w.length = ρ.dim →
          ∃ v' w', ρ.applyRotate ops v t = .ok v' ∧ ρ.applyRotate ops w t = .ok w' ∧ dot v' w' = dot v w) := by
  refine ⟨fun v j k => ρ.applyPow_bind v j k, fun v k hv => ρ.applyPow_neg hv k, fun v k hv => ?_,
    fun snap k hdim => ρ.permuteSnapshot_eq snap k hdim, ⟨ρ.cycles_perm, fun cyc hcyc => ?_⟩,
    fun ops hops => ⟨fun v k => Permutation.applyRotate_int hops v k, fun hodd =>
      ⟨fun v s t => ?_, fun v w t hv hw => ?_⟩⟩⟩
  · rw [ρ.powIndices_eq, ρ.applyPow_eq hv]
  · exact ⟨Permutation.ne_nil_of_mem_cycles hcyc, fun v w happly => (Permutation.apply_move happly hcyc).2⟩
  · exact Permutation.applyRotate_add hodd hops v s t
  · exact Permutation.dot_applyRotate hodd hops hv hw t

/-- Three coordinates, moved round. -/
def roundThree : Permutation := ⟨[1, 2, 0], [2, 0, 1], rfl, by decide, by decide⟩

/-- **Half a step twice** is a step. -/
theorem permutation_powers_half :
    (do roundThree.applyRotate exactOps (← roundThree.applyRotate exactOps [1, 2, 3] (1 / 2)) (1 / 2)) =
      .ok [2, 3, 1] := by
  obtain ⟨-, -, -, -, -, hrotate⟩ := permutation_powers (F := ℝ) roundThree
  obtain ⟨hint, hodd⟩ := hrotate exactOps exact_exactOps
  have hsum : (1 / 2 + 1 / 2 : ℝ) = ((1 : ℤ) : ℝ) := by norm_num
  rw [(hodd (by decide)).1, hsum, hint]
  rfl

end HeatherDb
