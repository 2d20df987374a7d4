/-
# Arithmetic that does not overflow

A format may have numbers that are not finite, and its arithmetic makes one
of finite numbers in three ways: by overflow, by a division by zero and by
the root of a negative number. `Unbounded` leaves out the first: a finite
result is the exact one, rounded. The other two stay possible, so where the
engine divides or takes a root the proofs say why that is safe.

What a write makes of finite locations is finite (`finite_adaptiveWriteTwo`).
Its one divisor that depends on stored data is that of the winner's learning
rate, `1 + n / tau_damp`: it stays positive as write counts only grow and
halve (`Damped`).

Key definitions: `Unbounded`, `FiniteVec`, `Damped`, `FiniteLocation`, `FiniteConfig`.
Key theorems: `FiniteVec.normalize`, `Damped.add`, `Damped.half`, `finite_adaptiveWriteTwo`.
-/
import HeatherDb.TopK

namespace HeatherDb

open Scalar Narrow HeatherDb.Valued

/-- A format without overflow: what it computes of finite numbers is finite,
the rounding of the exact result, unless it divides by zero or takes the root
of a negative number. -/
class Unbounded (F : Type) [Scalar F] extends Valued F where
  rnd : ℝ → ℝ
  rnd_mono : Monotone rnd
  rnd_val {x : F} : isFinite x = true → rnd (val x) = val x
  rnd_zero : rnd 0 = 0
  rnd_one : rnd 1 = 1
  rnd_tiny : 0 < rnd (1 / 10 ^ 12)
  literal (q : ℚ) : isFinite (lit q : F) = true ∧ val (lit q : F) = rnd q
  neg {x : F} : isFinite x = true → isFinite (-x) = true ∧ val (-x) = -val x
  add {x y : F} : isFinite x = true → isFinite y = true → isFinite (x + y) = true ∧ val (x + y) = rnd (val x + val y)
  sub {x y : F} : isFinite x = true → isFinite y = true → isFinite (x - y) = true
  mul {x y : F} : isFinite x = true → isFinite y = true → isFinite (x * y) = true ∧ val (x * y) = rnd (val x * val y)
  div {x y : F} : isFinite x = true → isFinite y = true → val y ≠ 0 →
    isFinite (x / y) = true ∧ val (x / y) = rnd (val x / val y)
  sqrt {x : F} : isFinite x = true → 0 ≤ val x → isFinite (Scalar.sqrt x) = true
  le_iff {x y : F} : isFinite x = true → isFinite y = true → (le x y = true ↔ val x ≤ val y)
  eq_self {x : F} : isFinite x = true → eq x x = true

/-- Nor does single precision overflow. -/
class NarrowsFinite (F : Type) {S : Type} [Scalar F] [Narrow F S] : Prop where
  narrow : ∀ {x : F}, isFinite x = true → isFinite (toF64 (toF32 x) : F) = true

variable {F S : Type} [Scalar F] [Unbounded F]

namespace Unbounded

theorem finite_lit (q : ℚ) : isFinite (lit q : F) = true := (literal q).1

theorem val_zero : val (lit 0 : F) = 0 := by
  rw [(literal 0).2, Rat.cast_zero, rnd_zero]

theorem val_one : val (lit 1 : F) = 1 := by
  rw [(literal 1).2, Rat.cast_one, rnd_one]

theorem rnd_nonneg {r : ℝ} (h : 0 ≤ r) : 0 ≤ rnd F r := by
  have hle := rnd_mono (F := F) h
  rwa [rnd_zero] at hle

theorem val_lit_nonneg {q : ℚ} (h : 0 ≤ q) : 0 ≤ val (lit q : F) := by
  rw [(literal q).2]
  exact rnd_nonneg (by exact_mod_cast h)

theorem val_tiny : 0 < val (lit (1 / 10 ^ 12) : F) := by
  rw [(literal _).2]
  have htiny := rnd_tiny (F := F)
  push_cast
  exact htiny

/-- A count is at least 1 as a float. -/
theorem val_ofUsize {n : ℕ} (h : 0 < n) : 1 ≤ val (ofUsize n : F) := by
  have hone : (1 : ℝ) ≤ ((n : ℚ) : ℝ) := by exact_mod_cast h
  rw [ofUsize, (literal _).2, ← rnd_one (F := F)]
  exact rnd_mono hone

theorem fmax_cases {x y : F} (hx : isFinite x = true) (hy : isFinite y = true) :
    isFinite (fmax x y) = true ∧ val y ≤ val (fmax x y) := by
  unfold fmax
  rw [eq_self hx, Bool.not_true, Bool.or_false]
  by_cases hlt : lt x y = true
  · rw [if_pos hlt]
    exact ⟨hy, le_rfl⟩
  · rw [if_neg hlt]
    exact ⟨hx, not_lt.mp (mt (lt_iff hx hy).mpr hlt)⟩

end Unbounded

open Unbounded

/-! ### Vectors -/

/-- Every component is finite. -/
def FiniteVec (v : List F) : Prop := ∀ x ∈ v, isFinite x = true

omit [Unbounded F] in
theorem finiteVec_of_validate {v : List F} {u : Unit} (h : validateVector v = .ok u) : FiniteVec v := by
  intro x hx
  obtain ⟨i, hi, rfl⟩ := List.getElem_of_mem hx
  unfold validateVector at h
  cases hfind : v.zipIdx.find? fun p => !isFinite p.1 with
  | some p =>
    rw [hfind] at h
    simp at h
  | none =>
    have hall := List.find?_eq_none.mp hfind (v[i], i) (List.mk_mem_zipIdx_iff_getElem?.mpr (by simp))
    simpa using hall

namespace FiniteVec

variable {v w : List F}

omit [Unbounded F] in
theorem replicate {x : F} (hx : isFinite x = true) (n : ℕ) : FiniteVec (List.replicate n x) := fun _ hy =>
  (List.eq_of_mem_replicate hy) ▸ hx

omit [Unbounded F] in
theorem map {f : F → F} (hv : FiniteVec v) (hf : ∀ x, isFinite x = true → isFinite (f x) = true) :
    FiniteVec (v.map f) := by
  intro y hy
  obtain ⟨x, hx, rfl⟩ := List.mem_map.mp hy
  exact hf x (hv x hx)

omit [Unbounded F] in
theorem zipWith {f : F → F → F} (hv : FiniteVec v) (hw : FiniteVec w)
    (hf : ∀ x y, isFinite x = true → isFinite y = true → isFinite (f x y) = true) : FiniteVec (List.zipWith f v w) := by
  intro z hz
  rw [← List.map_uncurry_zip_eq_zipWith] at hz
  obtain ⟨⟨x, y⟩, hxy, rfl⟩ := List.mem_map.mp hz
  obtain ⟨hx, hy⟩ := List.of_mem_zip hxy
  exact hf x y (hv x hx) (hw y hy)

theorem sum (hv : FiniteVec v) : isFinite (HeatherDb.sum v) = true :=
  List.foldlRecOn (motive := fun x : F => isFinite x = true) v (· + ·) (Unbounded.neg (finite_lit 0)).1 fun _ hx y hy =>
    (Unbounded.add hx (hv y hy)).1

theorem dot (hv : FiniteVec v) (hw : FiniteVec w) : isFinite (HeatherDb.dot v w) = true :=
  FiniteVec.sum (hv.zipWith hw fun _ _ hx hy => (Unbounded.mul hx hy).1)

/-- A sum of squares is no negative number. -/
theorem dot_self_nonneg (hv : FiniteVec v) : 0 ≤ val (HeatherDb.dot v v) := by
  have hsquares : ∀ z ∈ List.zipWith (· * ·) v v, isFinite z = true ∧ 0 ≤ val z := by
    intro z hz
    rw [List.zipWith_self] at hz
    obtain ⟨x, hx, rfl⟩ := List.mem_map.mp hz
    obtain ⟨hfinite, hval⟩ := Unbounded.mul (hv x hx) (hv x hx)
    rw [hval]
    exact ⟨hfinite, rnd_nonneg (mul_self_nonneg _)⟩
  have hzero : 0 ≤ val (-lit 0 : F) := by
    rw [(Unbounded.neg (finite_lit 0)).2, val_zero, neg_zero]
  have hsum : isFinite (HeatherDb.dot v v) = true ∧ 0 ≤ val (HeatherDb.dot v v) :=
    List.foldlRecOn (motive := fun x : F => isFinite x = true ∧ 0 ≤ val x) _ (· + ·)
      ⟨(Unbounded.neg (finite_lit 0)).1, hzero⟩ fun x hx y hy => by
        obtain ⟨hy, hy0⟩ := hsquares y hy
        obtain ⟨hfinite, hval⟩ := Unbounded.add hx.1 hy
        rw [hval]
        exact ⟨hfinite, rnd_nonneg (add_nonneg hx.2 hy0)⟩
  exact hsum.2

theorem l2Norm (hv : FiniteVec v) : isFinite (HeatherDb.l2Norm v) = true :=
  Unbounded.sqrt (hv.dot hv) hv.dot_self_nonneg

/-- A vector is only divided by a norm that is not near zero. -/
theorem normalize (hv : FiniteVec v) : FiniteVec (HeatherDb.normalize v) := by
  unfold HeatherDb.normalize
  by_cases hsmall : lt (HeatherDb.l2Norm v) (lit (1 / 10 ^ 12)) = true
  · rw [if_pos hsmall]
    exact hv
  · rw [if_neg hsmall]
    have hlarge : val (lit (1 / 10 ^ 12) : F) ≤ val (HeatherDb.l2Norm v) :=
      not_lt.mp (mt (lt_iff hv.l2Norm (finite_lit _)).mpr hsmall)
    exact hv.map fun x hx => (Unbounded.div hx hv.l2Norm (val_tiny.trans_le hlarge).ne').1

theorem addScaled {scale : F} (hv : FiniteVec v) (hw : FiniteVec w) (hscale : isFinite scale = true) :
    FiniteVec (HeatherDb.addScaled v w scale) := by
  intro z hz
  rcases List.mem_append.mp hz with hz | hz
  · exact hv.zipWith hw (fun x y hx hy => (Unbounded.add hx (Unbounded.mul hscale hy).1).1) z hz
  · exact hv z (List.mem_of_mem_drop hz)

omit [Unbounded F] in
theorem atPrecision [Narrow F S] [NarrowsFinite F] (hv : FiniteVec v) (p : Precision) :
    FiniteVec (HeatherDb.atPrecision p v) := by
  cases p with
  | f64 => exact hv
  | f32 => exact hv.map fun _ hx => NarrowsFinite.narrow hx

end FiniteVec

/-- A generator of finite samples. -/
def FiniteRng (rng : Rng F) : Prop := ∀ i, isFinite (rng i) = true

theorem FiniteRng.randomUnitVector {rng : Rng F} (h : FiniteRng rng) (d : ℕ) :
    FiniteVec (randomUnitVector d rng).1 ∧ FiniteRng (randomUnitVector d rng).2 := by
  refine ⟨FiniteVec.normalize fun x hx => ?_, fun i => h (d + i)⟩
  obtain ⟨i, -, rfl⟩ := List.mem_map.mp hx
  exact h i

/-! ### Locations -/

/-- The winner's learning rate at this write count divides by a positive
number. -/
def Damped (tauDamp writeCount : F) : Prop := lt (lit 0) (lit 1 + writeCount / tauDamp) = true

/-- What of a configuration the arithmetic of a write relies on. -/
structure FiniteConfig (config : EAMConfig F) : Prop where
  k : 0 < config.k
  eta0 : isFinite config.eta0 = true
  etaMin : isFinite config.etaMin = true
  lambda : isFinite config.lambda = true
  tauDamp : isFinite config.tauDamp = true
  positive : 0 < val config.tauDamp

theorem refuseUnless_bind {c : Bool} {message : String} {rest : Except HeatherError Unit} {u : Unit}
    (h : (do refuseUnless c message; rest) = .ok u) : c = true ∧ rest = .ok u := by
  unfold refuseUnless at h
  cases c with
  | true => exact ⟨rfl, h⟩
  | false => cases h

theorem finiteConfig_of_validate {config : EAMConfig F} {u : Unit} (h : config.validate = .ok u) :
    FiniteConfig config := by
  obtain ⟨-, h⟩ := refuseUnless_bind h
  obtain ⟨hk, h⟩ := refuseUnless_bind h
  obtain ⟨heta0, h⟩ := refuseUnless_bind h
  obtain ⟨hetaMin, h⟩ := refuseUnless_bind h
  obtain ⟨-, h⟩ := refuseUnless_bind h
  obtain ⟨hlambda, h⟩ := refuseUnless_bind h
  obtain ⟨-, h⟩ := refuseUnless_bind h
  obtain ⟨-, h⟩ := refuseUnless_bind h
  obtain ⟨-, h⟩ := refuseUnless_bind h
  obtain ⟨-, h⟩ := refuseUnless_bind h
  obtain ⟨htauDamp, -⟩ := refuseUnless_bind h
  simp only [EAMConfig.positive, Bool.and_eq_true, Bool.not_eq_true',
    bne_iff_ne, ne_eq] at hk heta0 hetaMin hlambda htauDamp
  refine ⟨Nat.pos_of_ne_zero hk, heta0.2, hetaMin.2, hlambda.2, htauDamp.2, ?_⟩
  have hpos : ¬val config.tauDamp ≤ val (lit 0 : F) :=
    mt (le_iff htauDamp.2 (finite_lit 0)).mpr (by rw [htauDamp.1]; exact Bool.false_ne_true)
  rw [val_zero] at hpos
  exact not_le.mp hpos

/-- A location of finite numbers that can still be joined. -/
structure FiniteLocation (config : EAMConfig F) (loc : HardLocation F) : Prop where
  address : FiniteVec loc.address
  counter : FiniteVec loc.counter
  writeCount : isFinite loc.writeCount = true
  damped : config.competitive = true → Damped config.tauDamp loc.writeCount

section Damping

variable {config : EAMConfig F} (hconfig : FiniteConfig config)

include hconfig

/-- The divisor of the learning rate. -/
theorem finite_divisor {n : F} (hn : isFinite n = true) :
    isFinite (lit 1 + n / config.tauDamp) = true ∧
      val (lit 1 + n / config.tauDamp) = rnd F (1 + rnd F (val n / val config.tauDamp)) := by
  obtain ⟨hfinite, hval⟩ := Unbounded.div hn hconfig.tauDamp hconfig.positive.ne'
  obtain ⟨hfinite', hval'⟩ := Unbounded.add (finite_lit 1) hfinite
  exact ⟨hfinite', by rw [hval', val_one, hval]⟩

theorem damped_iff {n : F} (hn : isFinite n = true) :
    Damped config.tauDamp n ↔ 0 < val (lit 1 + n / config.tauDamp) := by
  rw [Damped, lt_iff (finite_lit 0) (finite_divisor hconfig hn).1, val_zero]

/-- More writes damp more. -/
theorem Damped.mono {n m : F} (h : Damped config.tauDamp n) (hn : isFinite n = true) (hm : isFinite m = true)
    (hle : val n ≤ val m) : Damped config.tauDamp m := by
  rw [damped_iff hconfig hn, (finite_divisor hconfig hn).2] at h
  rw [damped_iff hconfig hm, (finite_divisor hconfig hm).2]
  have hdiv : val n / val config.tauDamp ≤ val m / val config.tauDamp :=
    div_le_div_of_nonneg_right hle hconfig.positive.le
  exact h.trans_le (rnd_mono (add_le_add_right (rnd_mono hdiv) 1))

/-- No writes at all damp enough. -/
theorem damped_of_nonneg {n : F} (hn : isFinite n = true) (h : 0 ≤ val n) : Damped config.tauDamp n := by
  rw [damped_iff hconfig hn, (finite_divisor hconfig hn).2]
  have hquot : 0 ≤ rnd F (val n / val config.tauDamp) := rnd_nonneg (div_nonneg h hconfig.positive.le)
  have hone : rnd F 1 ≤ rnd F (1 + rnd F (val n / val config.tauDamp)) := rnd_mono (le_add_of_nonneg_right hquot)
  rw [rnd_one] at hone
  exact one_pos.trans_le hone

theorem Damped.add {n w : F} (h : Damped config.tauDamp n) (hn : isFinite n = true) (hw : isFinite w = true)
    (hpos : 0 ≤ val w) : Damped config.tauDamp (n + w) := by
  obtain ⟨hfinite, hval⟩ := Unbounded.add hn hw
  refine h.mono hconfig hn hfinite ?_
  rw [hval, ← rnd_val hn]
  exact rnd_mono (by linarith [rnd_val hn])

theorem Damped.half {n : F} (h : Damped config.tauDamp n) (hn : isFinite n = true) :
    Damped config.tauDamp (n * lit (1 / 2)) := by
  obtain ⟨hfinite, hval⟩ := Unbounded.mul hn (finite_lit (1 / 2))
  have hnonneg : 0 ≤ val (lit (1 / 2) : F) := val_lit_nonneg (by norm_num)
  have hone : val (lit (1 / 2) : F) ≤ 1 := by
    rw [(literal _).2, ← rnd_one (F := F)]
    exact rnd_mono (by norm_num)
  rcases le_total 0 (val n) with hpos | hneg
  · exact damped_of_nonneg hconfig hfinite (hval ▸ rnd_nonneg (mul_nonneg hpos hnonneg))
  · -- half of a negative count is above it
    refine h.mono hconfig hn hfinite ?_
    rw [hval, ← rnd_val hn]
    exact rnd_mono (by rw [rnd_val hn]; nlinarith)

end Damping

/-! ### What a write makes of finite locations -/

theorem forall_modify {α : Type} {P : α → Prop} {f : α → α} {l : List α} (h : ∀ x ∈ l, P x) (hf : ∀ x, P x → P (f x))
    (i : ℕ) : ∀ x ∈ l.modify i f, P x := by
  intro x hx
  obtain ⟨j, hj, rfl⟩ := List.getElem_of_mem hx
  rw [List.length_modify] at hj
  rw [List.getElem_modify]
  split_ifs
  · exact hf _ (h _ (List.getElem_mem hj))
  · exact h _ (List.getElem_mem hj)

/-- Every location is finite. -/
def FiniteLocations (config : EAMConfig F) (locations : List (HardLocation F)) : Prop :=
  ∀ loc ∈ locations, FiniteLocation config loc

/-- Weights are finite and no negative numbers. -/
theorem finite_activationWeights {sims : List F} (hsims : FiniteVec sims) {k : ℕ} (hk : 0 < k) :
    ∀ w ∈ activationWeights sims k, isFinite w = true ∧ 0 ≤ val w := by
  intro w hw
  unfold activationWeights at hw
  dsimp only at hw
  have hmax : isFinite (sims.headD (lit 0)) = true := by
    cases sims with
    | nil => exact finite_lit 0
    | cons s rest => exact hsims s List.mem_cons_self
  by_cases hlarge : lt (lit (1 / 10 ^ 12)) (sims.headD (lit 0)) = true
  · rw [if_pos hlarge] at hw
    obtain ⟨s, hs, rfl⟩ := List.mem_map.mp hw
    have hpos : 0 < val (sims.headD (lit 0)) := val_tiny.trans ((lt_iff (finite_lit _) hmax).mp hlarge)
    obtain ⟨hfinite, hle⟩ := fmax_cases (hsims s hs) (finite_lit 0)
    obtain ⟨hquot, hval⟩ := Unbounded.div hfinite hmax hpos.ne'
    rw [val_zero] at hle
    exact ⟨hquot, hval ▸ rnd_nonneg (div_nonneg hle hpos.le)⟩
  · rw [if_neg hlarge] at hw
    obtain rfl := List.eq_of_mem_replicate hw
    have hcount : isFinite (ofUsize k : F) = true := finite_lit _
    have hpos : 0 < val (ofUsize k : F) := one_pos.trans_le (val_ofUsize hk)
    obtain ⟨hquot, hval⟩ := Unbounded.div (finite_lit 1) hcount hpos.ne'
    exact ⟨hquot, hval ▸ rnd_nonneg (div_nonneg (val_lit_nonneg zero_le_one) hpos.le)⟩

section Write

variable {config : EAMConfig F} (hconfig : FiniteConfig config)

include hconfig

theorem finiteLocation_new {address : List F} (h : FiniteVec address) (id : ℕ) :
    FiniteLocation config (.new id address) :=
  ⟨h, .replicate (finite_lit 0) _, finite_lit 0, fun _ => damped_of_nonneg hconfig (finite_lit 0) val_zero.ge⟩

theorem finiteLocation_fresh {address counter : List F} (ha : FiniteVec address) (hc : FiniteVec counter) (id : ℕ) :
    FiniteLocation config (freshLocation id address counter) :=
  ⟨ha, hc, finite_lit 1, fun _ => damped_of_nonneg hconfig (finite_lit 1) (val_lit_nonneg zero_le_one)⟩

theorem finiteLocation_at {locations : List (HardLocation F)} (h : FiniteLocations config locations) (i : ℕ) :
    FiniteLocation config (locationAt locations i) := by
  rcases Nat.lt_or_ge i locations.length with hlt | hge
  · exact h _ (locationAt_mem hlt)
  · rw [locationAt, List.getD_eq_default _ _ hge]
    exact finiteLocation_new hconfig (fun x hx => by simp at hx) 0

/-- The learning rate of the winner. -/
theorem finite_rate (hcompetitive : config.competitive = true) {eta : F} (heta : isFinite eta = true)
    {loc : HardLocation F} (h : FiniteLocation config loc) :
    isFinite (eta / (lit 1 + loc.writeCount / config.tauDamp)) = true :=
  (Unbounded.div heta (finite_divisor hconfig h.writeCount).1
    ((damped_iff hconfig h.writeCount).mp (h.damped hcompetitive)).ne').1

theorem FiniteLocation.join {address counter : List F} (ha : FiniteVec address) (hc : FiniteVec counter) {w : F}
    (hw : isFinite w = true ∧ 0 ≤ val w) {lr : F → F} (hlr : ∀ n, isFinite (lr n) = true) {loc : HardLocation F}
    (h : FiniteLocation config loc) : FiniteLocation config (joinLocation address counter w lr loc) where
  address := (h.address.addScaled (ha.zipWith h.address fun _ _ hx hy => Unbounded.sub hx hy) (hlr _)).normalize
  counter := h.counter.addScaled hc hw.1
  writeCount := (Unbounded.add h.writeCount hw.1).1
  damped hcompetitive := (h.damped hcompetitive).add hconfig h.writeCount hw.1 hw.2

/-- Every activated location joins by the winner's rate or a tenth of it. -/
theorem finite_joinAll {address counter weights : List F} (ha : FiniteVec address) (hc : FiniteVec counter)
    (hweights : ∀ w ∈ weights, isFinite w = true ∧ 0 ≤ val w) {etaWinner : F} (heta : isFinite etaWinner = true)
    {opts : WriteOpts F} (hgate : opts.gate = false) (winner : ℕ) (indices : List ℕ) {locations : List (HardLocation F)}
    (h : FiniteLocations config locations) :
    FiniteLocations config (joinAll address counter weights winner etaWinner indices opts locations) := by
  refine List.foldlRecOn (motive := FiniteLocations config) _ _ h fun locs hlocs p hp => ?_
  simp only [hgate, Bool.false_and, Bool.false_eq_true, if_false]
  have hweight : isFinite (weights.getD p.2 (lit 0)) = true ∧ 0 ≤ val (weights.getD p.2 (lit 0)) := by
    rcases Nat.lt_or_ge p.2 weights.length with hlt | hge
    · rw [List.getD_eq_getElem _ _ hlt]
      exact hweights _ (List.getElem_mem hlt)
    · rw [List.getD_eq_default _ _ hge]
      exact ⟨finite_lit 0, val_zero.ge⟩
  refine forall_modify hlocs (fun loc hloc => hloc.join hconfig ha hc hweight fun n => ?_) p.1
  split_ifs
  · exact heta
  · exact (Unbounded.mul heta (finite_lit _)).1

theorem FiniteLocation.splitParent {loc : HardLocation F} (h : FiniteLocation config loc) (childId nbCap : ℕ) :
    FiniteLocation config (HeatherDb.splitParent childId nbCap loc) :=
  ⟨h.address, h.counter.map fun _ hx => (Unbounded.mul hx (finite_lit _)).1,
    (Unbounded.mul h.writeCount (finite_lit _)).1,
    fun hcompetitive => (h.damped hcompetitive).half hconfig h.writeCount⟩

theorem FiniteLocation.splitChild {loc : HardLocation F} (h : FiniteLocation config loc) {perturbation : List F}
    (hp : FiniteVec perturbation) (id nbCap : ℕ) :
    FiniteLocation config (HeatherDb.splitChild id nbCap perturbation loc) :=
  ⟨(h.address.addScaled hp (finite_lit _)).normalize, h.counter.map fun _ hx => (Unbounded.mul hx (finite_lit _)).1,
    (Unbounded.mul h.writeCount (finite_lit _)).1,
    fun hcompetitive => (h.damped hcompetitive).half hconfig h.writeCount⟩

end Write

/-- What a write hands back is finite. -/
structure FiniteWritten (config : EAMConfig F) (w : Written F) : Prop where
  locations : FiniteLocations config w.locations
  created : FiniteLocations config w.result.newLocations
  eta : isFinite w.result.eta = true
  rng : FiniteRng w.rng

section Write

variable [Scalar S] [Narrow F S] {config : EAMConfig F} (hconfig : FiniteConfig config) {eta : F}
  (heta : isFinite eta = true) {rng : Rng F} (hrng : FiniteRng rng) {opts : WriteOpts F} (hgate : opts.gate = false)
  {address counter : List F} (ha : FiniteVec address) (hc : FiniteVec counter) {locations : List (HardLocation F)}
  (hlocations : FiniteLocations config locations)

/-- The similarities a search returns are dot products of the write's
direction. -/
theorem finite_nearest (ha : FiniteVec address) (hlocations : FiniteLocations config locations) (k : ℕ)
    (scan : Scan F S) : FiniteVec (nearest address locations k scan).2 := by
  have hdot : ∀ loc ∈ locations, isFinite (dot (normalize address) loc.address) = true := fun loc hloc =>
    ha.normalize.dot (hlocations loc hloc).address
  intro s hs
  dsimp only [nearest] at hs
  split_ifs at hs
  · simp only [List.unzip_snd, List.mem_map] at hs
    obtain ⟨e, he, rfl⟩ := hs
    obtain ⟨p, -, hp⟩ := List.mem_filterMap.mp (mem_sortBy.mp (List.mem_of_mem_take he))
    obtain ⟨loc, hloc, rfl⟩ := Option.map_eq_some_iff.mp hp
    exact hdot loc (List.mem_of_getElem? hloc)
  · simp only [activate, List.unzip_snd, List.mem_map] at hs
    obtain ⟨e, he, rfl⟩ := hs
    obtain ⟨p, hp, rfl⟩ := List.mem_map.mp (mem_topK he)
    exact hdot _ (List.fst_mem_of_mem_zipIdx hp)

include hconfig heta hrng hgate ha hc hlocations

theorem finite_competitiveWrite (hcompetitive : config.competitive = true) (nextId : ℕ) {indices : List ℕ}
    {sims : List F} (hsims : FiniteVec sims) (hpos : 0 < locations.length) :
    FiniteWritten config (competitiveWrite address counter locations config eta nextId rng opts indices sims) := by
  have hetaNew := (fmax_cases (Unbounded.mul heta hconfig.lambda).1 hconfig.etaMin).1
  have hk : 0 < min config.k locations.length := lt_min hconfig.k hpos
  have hweights := finite_activationWeights hsims hk
  unfold competitiveWrite
  generalize selectWinner counter config locations indices sims opts = sel
  dsimp only
  generalize spawnNovelty config locations.length (sims.headD (lit 0)) sel.2 opts = spawn
  have hrate := finite_rate hconfig hcompetitive heta (finiteLocation_at hconfig hlocations (indices.getD sel.1 0))
  generalize eta / (lit 1 + (locationAt locations (indices.getD sel.1 0)).writeCount / config.tauDamp) = etaW at hrate ⊢
  -- join, surprise and links keep every location finite
  have hjoin : FiniteLocations config (if spawn then locations else
      joinAll address counter (activationWeights sims (min config.k locations.length)) sel.1 etaW indices opts
        locations) := by
    split_ifs
    · exact hlocations
    · exact finite_joinAll hconfig ha hc hweights hrate hgate _ _ hlocations
  generalize (if spawn then locations else _) = joined at hjoin ⊢
  have hsurprise : FiniteLocations config (if config.mdlGate && !spawn then
      joined.modify (indices.getD sel.1 0) fun loc =>
        { loc with surpriseMass := loc.surpriseMass + surpriseBits (sims.getD sel.1 (lit 0)) }
      else joined) := by
    split_ifs
    · refine forall_modify hjoin (fun loc h => ?_) _
      exact ⟨h.address, h.counter, h.writeCount, h.damped⟩
    · exact hjoin
  generalize (if config.mdlGate && !spawn then _ else joined) = surprised at hsurprise ⊢
  have hlink : FiniteLocations config
      (linkAll indices (config.adaptiveNeighborCap locations.length) surprised) := by
    unfold linkAll
    split_ifs
    · exact hsurprise
    · refine List.foldlRecOn (motive := FiniteLocations config) _ _ hsurprise fun ls hls i _ => ?_
      refine forall_modify hls (fun loc h => ?_) i
      exact ⟨h.address, h.counter, h.writeCount, h.damped⟩
  generalize linkAll indices (config.adaptiveNeighborCap locations.length) surprised = linked at hlink ⊢
  split_ifs with hspawn hoverloaded
  · refine ⟨hlink, fun loc hloc => ?_, hetaNew, hrng⟩
    obtain rfl := List.mem_singleton.mp hloc
    have hfresh := finiteLocation_fresh hconfig ha.normalize hc nextId
    exact ⟨hfresh.address, hfresh.counter, hfresh.writeCount, hfresh.damped⟩
  · obtain ⟨hperturbation, hrng'⟩ := hrng.randomUnitVector config.d
    have hwinner := finiteLocation_at hconfig hlink (indices.getD sel.1 0)
    refine ⟨forall_modify hlink (fun loc h => h.splitParent hconfig _ _) _, fun loc hloc => ?_, hetaNew, hrng'⟩
    obtain rfl := List.mem_singleton.mp hloc
    exact hwinner.splitChild hconfig hperturbation _ _
  · exact ⟨hlink, fun loc hloc => by simp at hloc, hetaNew, hrng⟩

/-- **A write of finite vectors** keeps finite locations finite. -/
theorem finite_adaptiveWriteTwo (nextId : ℕ) (scan : Scan F S) :
    FiniteWritten config (adaptiveWriteTwo address counter locations config eta nextId rng scan opts) := by
  unfold adaptiveWriteTwo
  by_cases hcompetitive : config.competitive = true
  swap
  · simp only [hcompetitive, Bool.not_false, if_true]
    refine ⟨hlocations, fun loc hloc => ?_, heta, hrng⟩
    obtain rfl := List.mem_singleton.mp hloc
    exact finiteLocation_fresh hconfig ha hc nextId
  simp only [hcompetitive, Bool.not_true, Bool.false_eq_true, if_false]
  have hsims := finite_nearest ha hlocations (min config.k locations.length) scan
  have hvalid : ∀ i ∈ (nearest address locations (min config.k locations.length) scan).1, i < locations.length :=
    fun i hi => mem_nearest_lt hi
  rcases hnear : nearest address locations (min config.k locations.length) scan with ⟨indices, sims⟩
  rw [hnear] at hsims hvalid
  cases indices with
  | nil =>
    refine ⟨hlocations, fun loc hloc => ?_, heta, hrng⟩
    obtain rfl := List.mem_singleton.mp hloc
    exact finiteLocation_fresh hconfig ha.normalize hc nextId
  | cons i rest =>
    exact finite_competitiveWrite hconfig heta hrng hgate ha hc hlocations hcompetitive nextId hsims
      (Nat.zero_lt_of_lt (hvalid i List.mem_cons_self))

end Write

end HeatherDb
