/-
# The iterative read descends the energy

The Hopfield read repeats one step: weigh the activated patterns by the softmax
of their similarities and normalize. Where every location stores what it is
addressed by (`SelfConsistent`), that step is the ascent of a log-sum-exp
potential over the directions of the addresses (`climb_step`): no estimate of a
read is further from the memory than the one before.

A query that is more similar to an activated location than `ln k / β` so
converges. Every iteration that goes on climbs by at least the excess times `ε`,
and the potential of a unit vector is at most `1 + ln k / β`, so there are few
(`analyzeLoop_climbs`); and what the read ends at has a location as near as the
excess (`analysis_converges`).

Key definitions: `SelfConsistent`, `directions`, `hopfieldStep`, `ascent`,
`Climbed`, `verbatimRules`.
Key theorems: `vec_hopfieldStep`, `climb_step`, `analyzeLoop_climbs`,
`analyzeIter_converges`, `analysis_converges`.
-/
import Mathlib.Analysis.Complex.ExponentialBounds
import HeatherDb.Analyze
import HeatherDb.Gated
import HeatherDb.Hybrids
import HeatherDb.Lib.LogSumExp
import HeatherDb.Unbounded
import HeatherDb.UnitSphere

namespace HeatherDb

open Scalar LogSumExp RealInnerProductSpace

/-! ### One step -/

/-- A location whose pattern has the direction of its address. -/
structure SelfConsistent (loc : HardLocation ℝ) : Prop where
  pattern : loc.unitPattern = normalize loc.address
  normable : Normable loc.address

/-- The directions of the addresses at these places. -/
noncomputable def directions (d : ℕ) (locations : List (HardLocation ℝ)) (indices : List ℕ) :
    List (EuclideanSpace ℝ (Fin d)) :=
  indices.map fun i => vec d (normalize (locationAt locations i).address)

/-- The step of the loop, before it is normalized. -/
noncomputable def hopfieldStep (beta : ℝ) (patterns addresses : List (List ℝ)) (xi : List ℝ) : List ℝ :=
  weightedSum patterns (softmax (addresses.map fun addr => cosineSimilarity xi addr) beta)

/-- An analysis that went on by one step. -/
noncomputable def goneOn (config : EAMConfig ℝ) (patterns addresses : List (List ℝ)) (a : Analysis ℝ) : Analysis ℝ where
  estimate := normalize (hopfieldStep config.beta patterns addresses a.estimate)
  converged := false
  iterations := a.iterations + 1
  weights := softmax (addresses.map fun addr => cosineSimilarity a.estimate addr) config.beta

theorem analyzeLoop_succ (config : EAMConfig ℝ) (patterns addresses : List (List ℝ)) (t : ℕ) (a : Analysis ℝ) :
    analyzeLoop config patterns addresses (t + 1) a =
      if 1 - config.epsilon < cosineSimilarity a.estimate (goneOn config patterns addresses a).estimate then
        { goneOn config patterns addresses a with converged := true }
      else analyzeLoop config patterns addresses t (goneOn config patterns addresses a) := by
  rw [analyzeLoop]
  refine if_congr ?_ rfl rfl
  rw [lt_real, lit_real, Rat.cast_one]
  rfl

variable {d : ℕ} {config : EAMConfig ℝ} {locations : List (HardLocation ℝ)} {indices : List ℕ} {xi : List ℝ}

theorem cosineSimilarity_comm (a b : List ℝ) : cosineSimilarity a b = cosineSimilarity b a := by
  unfold cosineSimilarity
  rw [Bool.or_comm, dot_comm_real, mul_comm]

/-- The cosine of unit vectors is their product. -/
theorem cosineSimilarity_units {a b : List ℝ} (ha : a.length = d) (hb : b.length = d) (haunit : ‖vec d a‖ = 1)
    (hbunit : ‖vec d b‖ = 1) : cosineSimilarity a b = ⟪vec d a, vec d b⟫ := by
  have hone : ¬(1 : ℝ) < tiny := tiny_lt_one.not_gt
  unfold cosineSimilarity
  rw [l2Norm_eq_norm ha, l2Norm_eq_norm hb, haunit, hbunit, lit_tiny,
    if_neg (by rw [Bool.or_self, lt_real]; exact hone), one_mul, div_one, dot_eq_inner ha hb]

/-- A cosine with a unit vector is the product with the direction. -/
theorem cosineSimilarity_direction {address : List ℝ} (hxi : xi.length = d) (hunit : ‖vec d xi‖ = 1)
    (haddress : address.length = d) (hnormable : Normable address) :
    cosineSimilarity xi address = ⟪vec d xi, vec d (normalize address)⟫ := by
  have hlength : (normalize address).length = d := (length_normalize _).trans haddress
  have hnorm : ‖vec d (normalize address)‖ = 1 :=
    (l2Norm_eq_norm hlength).symm.trans (l2Norm_normalize hnormable)
  rw [← cosineSimilarity_units hxi hlength hunit hnorm, cosineSimilarity_normalize xi hxi haddress]

theorem cosineSimilarity_le_one {address : List ℝ} (hxi : xi.length = d) (hunit : ‖vec d xi‖ = 1)
    (haddress : address.length = d) (hnormable : Normable address) : cosineSimilarity xi address ≤ 1 := by
  have hlength : (normalize address).length = d := (length_normalize _).trans haddress
  have hnorm : ‖vec d (normalize address)‖ = 1 :=
    (l2Norm_eq_norm hlength).symm.trans (l2Norm_normalize hnormable)
  have hle := real_inner_le_norm (vec d xi) (vec d (normalize address))
  rwa [hunit, hnorm, one_mul, ← cosineSimilarity_direction hxi hunit haddress hnormable] at hle

section step

variable (hd : ∀ i ∈ indices, (locationAt locations i).address.length = d)
  (hconsistent : ∀ i ∈ indices, SelfConsistent (locationAt locations i))

include hd hconsistent

/-- **The step is to the mean of the directions.** -/
theorem vec_hopfieldStep (beta : ℝ) (hne : indices ≠ []) (hxi : xi.length = d) (hunit : ‖vec d xi‖ = 1) :
    let step := hopfieldStep beta (indices.map fun i => (locationAt locations i).unitPattern)
      (indices.map fun i => (locationAt locations i).address) xi
    vec d step = mean beta (directions d locations indices) (vec d xi) ∧ step.length = d := by
  have hcosine : ∀ i ∈ indices, cosineSimilarity xi (locationAt locations i).address =
      ⟪vec d xi, vec d (normalize (locationAt locations i).address)⟫ := fun i hi =>
    cosineSimilarity_direction hxi hunit (hd i hi) (hconsistent i hi).normable
  have hpattern : ∀ i ∈ indices, (locationAt locations i).unitPattern.length = d := fun i hi => by
    rw [(hconsistent i hi).pattern, length_normalize, hd i hi]
  have hweights : softmax ((indices.map fun i => (locationAt locations i).address).map fun addr => cosineSimilarity xi addr)
      beta = indices.map fun i => gibbs beta (directions d locations indices) (vec d xi)
        (vec d (normalize (locationAt locations i).address)) := by
    have hpartition : partition beta (directions d locations indices) (vec d xi) =
        (indices.map fun i => Real.exp (cosineSimilarity xi (locationAt locations i).address * beta)).sum := by
      rw [LogSumExp.partition, directions, List.map_map]
      refine congrArg List.sum (List.map_congr_left fun i hi => ?_)
      rw [hcosine i hi]
      rfl
    have hsum : (((indices.map fun i => (locationAt locations i).address).map fun addr => cosineSimilarity xi addr).map
        fun s => Real.exp (s * beta)).sum = partition beta (directions d locations indices) (vec d xi) := by
      rw [hpartition, List.map_map, List.map_map]
      rfl
    rw [softmax_eq, hsum, List.map_map, List.map_map]
    refine List.map_congr_left fun i hi => ?_
    rw [gibbs, ← hcosine i hi]
    rfl
  intro step
  obtain ⟨hvec, hlength⟩ := vec_weightedSum (fun i => (locationAt locations i).unitPattern)
    (fun i => gibbs beta (directions d locations indices) (vec d xi) (vec d (normalize (locationAt locations i).address)))
    hpattern
  have hstep : step = weightedSum (indices.map fun i => (locationAt locations i).unitPattern)
      (indices.map fun i => gibbs beta (directions d locations indices) (vec d xi)
        (vec d (normalize (locationAt locations i).address))) := by
    rw [← hweights]
    rfl
  rw [hstep]
  refine ⟨?_, by rw [hlength, if_neg hne]⟩
  rw [hvec, mean, directions, List.map_map]
  refine congrArg List.sum (List.map_congr_left fun i hi => ?_)
  rw [(hconsistent i hi).pattern]
  rfl

/-- The smooth maximum of a vector's cosines with these addresses. -/
noncomputable def ascent (d : ℕ) (config : EAMConfig ℝ) (locations : List (HardLocation ℝ)) (indices : List ℕ)
    (xi : List ℝ) : ℝ := potential config.beta (directions d locations indices) (vec d xi)

end step

section climb

variable {g : ℝ} (hd : ∀ i ∈ indices, (locationAt locations i).address.length = d)
  (hconsistent : ∀ i ∈ indices, SelfConsistent (locationAt locations i)) (hne : indices ≠ [])
  (hbeta : 0 < config.beta) (hg : tiny ≤ g)

include hd hconsistent hne hbeta hg

/-- **A step climbs** by what it turns away, so many times the excess. -/
theorem climb_step (hxi : xi.length = d) (hunit : ‖vec d xi‖ = 1)
    (hhigh : g + Real.log indices.length / config.beta ≤ ascent d config locations indices xi) :
    let next := normalize (hopfieldStep config.beta (indices.map fun i => (locationAt locations i).unitPattern)
      (indices.map fun i => (locationAt locations i).address) xi)
    next.length = d ∧ ‖vec d next‖ = 1 ∧ 0 ≤ 1 - cosineSimilarity xi next ∧
      ascent d config locations indices xi + g * (1 - cosineSimilarity xi next) ≤
        ascent d config locations indices next := by
  intro next
  have hdirections : directions d locations indices ≠ [] := mt List.map_eq_nil_iff.mp hne
  obtain ⟨hvec, hlength⟩ := vec_hopfieldStep hd hconsistent config.beta hne hxi hunit
  have hmean : g ≤ ‖mean config.beta (directions d locations indices) (vec d xi)‖ := by
    have hle := le_norm_mean hbeta hdirections hunit
    rw [directions, List.length_map, ← directions] at hle
    have hhigh : g + Real.log indices.length / config.beta ≤ potential config.beta (directions d locations indices)
        (vec d xi) := hhigh
    linarith
  have hlong := hg.trans (hvec ▸ hmean)
  have hnext : next.length = d := (length_normalize _).trans hlength
  have hnorm : ‖vec d next‖ = 1 := norm_vec_normalize hlength hlong
  have hcosine := cosineSimilarity_units hxi hnext hunit hnorm
  have hturn : cosineSimilarity xi next ≤ 1 := by
    have hle := real_inner_le_norm (vec d xi) (vec d next)
    rwa [hunit, hnorm, one_mul, ← hcosine] at hle
  have hzero : mean config.beta (directions d locations indices) (vec d xi) ≠ 0 :=
    norm_pos_iff.mp (tiny_pos.trans_le (hg.trans hmean))
  have hclimbs := climbs hbeta hdirections hzero (y := vec d next) (by rw [← hvec, vec_normalize hlength hlong])
  rw [← hcosine] at hclimbs
  refine ⟨hnext, hnorm, sub_nonneg.mpr hturn, le_trans ?_ hclimbs⟩
  have hgain := mul_le_mul_of_nonneg_right hmean (sub_nonneg.mpr hturn)
  exact add_le_add_right hgain _

/-- What a loop of at most `t` steps climbed when it went on `n` times. -/
structure Climbed (d : ℕ) (config : EAMConfig ℝ) (locations : List (HardLocation ℝ)) (indices : List ℕ) (g : ℝ)
    (t n : ℕ) (a r : Analysis ℝ) : Prop where
  length : r.estimate.length = d
  unit : ‖vec d r.estimate‖ = 1
  gained : ascent d config locations indices a.estimate + n * (config.epsilon * g) ≤
    ascent d config locations indices r.estimate
  ends : r.converged = true ∧ r.iterations = a.iterations + n + 1 ∨
    r.converged = false ∧ n = t ∧ r.iterations = a.iterations + t

/-- **The loop climbs** so often as it goes on: unless it stops, each of its
steps turns away by `ε` at least. -/
theorem analyzeLoop_climbs (hepsilon : 0 < config.epsilon) : ∀ (t : ℕ) (a : Analysis ℝ), a.estimate.length = d →
    ‖vec d a.estimate‖ = 1 → a.converged = false →
    g + Real.log indices.length / config.beta ≤ ascent d config locations indices a.estimate →
    ∃ n, Climbed d config locations indices g t n a
      (analyzeLoop config (indices.map fun i => (locationAt locations i).unitPattern)
        (indices.map fun i => (locationAt locations i).address) t a)
  | 0, a, hlength, hunit, hconverged, _ => by
    refine ⟨0, hlength, hunit, ?_, Or.inr ⟨hconverged, rfl, rfl⟩⟩
    rw [Nat.cast_zero, zero_mul, add_zero, analyzeLoop]
  | t + 1, a, hlength, hunit, _, hhigh => by
    have hpos : 0 < g := tiny_pos.trans_le hg
    obtain ⟨hnext, hnorm, hturn, hclimb⟩ := climb_step hd hconsistent hne hbeta hg hlength hunit hhigh
    rw [analyzeLoop_succ]
    set patterns := indices.map fun i => (locationAt locations i).unitPattern
    set addresses := indices.map fun i => (locationAt locations i).address
    set next := goneOn config patterns addresses a with hgone
    have hestimate : next.estimate = normalize (hopfieldStep config.beta patterns addresses a.estimate) := rfl
    rw [← hestimate] at hnext hnorm hturn hclimb
    have hup : ascent d config locations indices a.estimate ≤ ascent d config locations indices next.estimate := by
      have hgain := mul_nonneg hpos.le hturn
      linarith
    split_ifs with hstop
    · -- it stops at an estimate that is no lower
      refine ⟨0, hnext, hnorm, ?_, Or.inl ⟨rfl, rfl⟩⟩
      rw [Nat.cast_zero, zero_mul, add_zero]
      exact hup
    · -- a step that went on
      obtain ⟨n, hlast⟩ := analyzeLoop_climbs hepsilon t next hnext hnorm rfl (hhigh.trans hup)
      have hcounted : next.iterations = a.iterations + 1 := rfl
      refine ⟨n + 1, hlast.length, hlast.unit, ?_, ?_⟩
      · have hfar : config.epsilon ≤ 1 - cosineSimilarity a.estimate next.estimate := by
          have hnot := not_lt.mp hstop
          linarith
        have hgain : config.epsilon * g ≤ g * (1 - cosineSimilarity a.estimate next.estimate) := by
          rw [mul_comm]
          exact mul_le_mul_of_nonneg_left hfar hpos.le
        have hrest := hlast.gained
        rw [Nat.cast_add, Nat.cast_one, add_mul, one_mul]
        linarith
      · rcases hlast.ends with ⟨hdone, hcount⟩ | ⟨hgoing, hall, hcount⟩
        · exact Or.inl ⟨hdone, hcount.trans (by omega)⟩
        · exact Or.inr ⟨hgoing, by omega, hcount.trans (by omega)⟩

end climb

/-! ### Whole reads -/

/-- A write of an address as its own counter, long enough to have a direction.
No two locations are made one. -/
def verbatimRules : Rules ℝ ℝ where
  write _ x := x.counter = x.address ∧ Normable x.address
  merge _ _ := False
  join _ _ _ := False

/-- A plain write stores what it was given. -/
theorem selfConsistent_fresh (id : ℕ) {v : List ℝ} (h : Normable v) : SelfConsistent (freshLocation id v v) where
  pattern := by
    have hone : ¬lt (fabs (lit 1 : ℝ)) (lit (1 / 10 ^ 12)) = true := by
      rw [fabs, lit_tiny, lt_real, if_neg (by rw [lt_real, lit_real, lit_real]; norm_num), lit_real, tiny]
      norm_num
    have hpattern : (freshLocation id v v).normalizedPattern = v := by
      show (if lt (fabs (lit 1)) (lit (1 / 10 ^ 12)) then _ else v.map (· / lit 1)) = v
      rw [if_neg hone, lit_real]
      simp
    rw [HardLocation.unitPattern, hpattern]
    rfl
  normable := h

/-- **Verbatim writes** to a plain collection keep every location so. -/
theorem preserves_selfConsistent {config : EAMConfig ℝ} (hplain : config.competitive = false) :
    Preserves config verbatimRules fun _ => SelfConsistent where
  mono h _ := h
  write {inner x} rng hconfig h _ hverbatim := by
    unfold EAMInner.adapt
    rw [adaptiveWriteTwo_plain x.address x.counter inner.locations (hconfig ▸ hplain)]
    refine List.forall_mem_append.mpr ⟨h.each, List.forall_mem_singleton.mpr ?_⟩
    rw [hverbatim.1]
    exact selfConsistent_fresh _ hverbatim.2
  merge _ _ hmerge := hmerge.elim
  join _ _ hjoin := hjoin.elim

/-- The parameters a read relies on. -/
structure ReadConfig (config : EAMConfig ℝ) : Prop where
  k : config.k ≠ 0
  beta : 0 < config.beta
  tMax : config.tMax ≠ 0
  epsilon : 0 < config.epsilon

theorem readConfig_of_validate {config : EAMConfig ℝ} (h : config.validate = .ok ()) : ReadConfig config := by
  have hpositive : ∀ {x : ℝ}, EAMConfig.positive x = true → 0 < x := fun {x} hx => by
    rw [EAMConfig.positive, isFinite_real, Bool.and_true, Bool.not_eq_true', ← Bool.not_eq_true, le_real, lit_real,
      Rat.cast_zero] at hx
    exact not_le.mp hx
  obtain ⟨-, h⟩ := refuseUnless_bind h
  obtain ⟨hk, h⟩ := refuseUnless_bind h
  obtain ⟨-, h⟩ := refuseUnless_bind h
  obtain ⟨-, h⟩ := refuseUnless_bind h
  obtain ⟨-, h⟩ := refuseUnless_bind h
  obtain ⟨-, h⟩ := refuseUnless_bind h
  obtain ⟨-, h⟩ := refuseUnless_bind h
  obtain ⟨-, h⟩ := refuseUnless_bind h
  obtain ⟨-, h⟩ := refuseUnless_bind h
  obtain ⟨-, h⟩ := refuseUnless_bind h
  obtain ⟨-, h⟩ := refuseUnless_bind h
  obtain ⟨-, h⟩ := refuseUnless_bind h
  obtain ⟨hbeta, h⟩ := refuseUnless_bind h
  obtain ⟨htMax, h⟩ := refuseUnless_bind h
  obtain ⟨hepsilon, -⟩ := refuseUnless_bind h
  exact ⟨bne_iff_ne.mp hk, hpositive hbeta, bne_iff_ne.mp htMax, hpositive hepsilon⟩

section trace

variable {inner : EAMInner ℝ ℝ} {query : List ℝ} {g : ℝ} {i : ℕ} (hshaped : Shaped inner.config.d inner.locations)
  (hconsistent : ∀ loc ∈ inner.locations, SelfConsistent loc) (hconfig : ReadConfig inner.config)
  (hlt : ∀ i ∈ indices, i < inner.locations.length) (hquery : query.length = inner.config.d) (hg : tiny ≤ g)
  (hi : i ∈ indices) (hnear : g + Real.log indices.length / inner.config.beta ≤
    cosineSimilarity query (locationAt inner.locations i).address)

include hshaped hconsistent hconfig hlt hquery hg hi hnear

/-- **The trace of a read** from near a location: what goes on is bounded by
the excess, and a location as near as that is reported. -/
theorem analyzeIter_converges (sims : List ℝ) (hsims : sims.length = indices.length) :
    let trace := analyzeIter query inner.locations inner.config indices sims
    (trace.iterations - 1 : ℕ) * (inner.config.epsilon * g) ≤ 1 - g ∧
      (1 - g < inner.config.tMax * (inner.config.epsilon * g) → trace.converged = true) ∧
        ∃ a ∈ trace.activatedLocations, g ≤ a.similarity := by
  have hne : indices ≠ [] := List.ne_nil_of_mem hi
  have hbeta := hconfig.beta
  have hmem : ∀ i ∈ indices, locationAt inner.locations i ∈ inner.locations := fun i hi => locationAt_mem (hlt i hi)
  have hd : ∀ i ∈ indices, (locationAt inner.locations i).address.length = inner.config.d := fun i hi =>
    (hshaped _ (hmem i hi)).1
  have hself : ∀ i ∈ indices, SelfConsistent (locationAt inner.locations i) := fun i hi => hconsistent _ (hmem i hi)
  have hdirections : directions inner.config.d inner.locations indices ≠ [] := mt List.map_eq_nil_iff.mp hne
  have hexcess : 0 ≤ Real.log indices.length / inner.config.beta :=
    div_nonneg (Real.log_natCast_nonneg _) hbeta.le
  -- the query has a direction, for its cosine is not zero
  have hlong : tiny ≤ ‖vec inner.config.d query‖ := by
    by_contra hshort
    have hzero : cosineSimilarity query (locationAt inner.locations i).address = 0 := by
      unfold cosineSimilarity
      rw [lit_tiny, l2Norm_eq_norm hquery, if_pos (by rw [Bool.or_eq_true, lt_real]; exact Or.inl (not_le.mp hshort)),
        lit_real, Rat.cast_zero]
    have hpos := tiny_pos
    linarith
  have hunit : ‖vec inner.config.d (normalize query)‖ = 1 := norm_vec_normalize hquery hlong
  have hlength : (normalize query).length = inner.config.d := (length_normalize _).trans hquery
  have hstart : cosineSimilarity query (locationAt inner.locations i).address =
      ⟪vec inner.config.d (normalize query),
        vec inner.config.d (normalize (locationAt inner.locations i).address)⟫ := by
    rw [← cosineSimilarity_direction hlength hunit (hd i hi) (hself i hi).normable, cosineSimilarity_comm,
      ← cosineSimilarity_normalize _ (hd i hi) hquery, cosineSimilarity_comm]
  have hhigh : g + Real.log indices.length / inner.config.beta ≤
      ascent inner.config.d inner.config inner.locations indices (normalize query) := by
    refine hnear.trans (hstart.trans_le (le_potential hbeta ?_))
    exact List.mem_map_of_mem (f := fun i => vec inner.config.d (normalize (locationAt inner.locations i).address)) hi
  obtain ⟨n, hclimbed⟩ := analyzeLoop_climbs hd hself hne hbeta hg hconfig.epsilon inner.config.tMax
    ⟨normalize query, false, 0, softmax sims inner.config.beta⟩ hlength hunit rfl hhigh
  intro trace
  set r := analyzeLoop inner.config (indices.map fun i => (locationAt inner.locations i).unitPattern)
    (indices.map fun i => (locationAt inner.locations i).address) inner.config.tMax
    ⟨normalize query, false, 0, softmax sims inner.config.beta⟩ with hr
  have hbounded : ascent inner.config.d inner.config inner.locations indices r.estimate ≤
      1 + Real.log indices.length / inner.config.beta := by
    have hle := potential_le (x := vec inner.config.d r.estimate) hbeta hdirections (m := 1)
      (List.forall_mem_map.mpr fun j hj => by
        rw [← cosineSimilarity_direction hclimbed.length hclimbed.unit (hd j hj) (hself j hj).normable]
        exact cosineSimilarity_le_one hclimbed.length hclimbed.unit (hd j hj) (hself j hj).normable)
    rwa [directions, List.length_map] at hle
  have hgained : n * (inner.config.epsilon * g) ≤ 1 - g := by
    have hup := hclimbed.gained
    linarith
  have hpos : 0 < inner.config.epsilon * g := mul_pos hconfig.epsilon (tiny_pos.trans_le hg)
  have hends : r.converged = true ∧ trace.iterations = n + 1 ∨
      r.converged = false ∧ n = inner.config.tMax ∧ trace.iterations = inner.config.tMax := by
    have hends := hclimbed.ends
    rwa [zero_add, zero_add] at hends
  refine ⟨?_, fun hmany => ?_, ?_⟩
  · have hfew : trace.iterations - 1 ≤ n := by
      rcases hends with ⟨-, hcount⟩ | ⟨-, hall, hcount⟩ <;> omega
    exact (mul_le_mul_of_nonneg_right (Nat.cast_le.mpr hfew) hpos.le).trans hgained
  · rcases hends with ⟨hdone, -⟩ | ⟨-, rfl, -⟩
    · exact hdone
    · exact absurd hgained (not_le.mpr hmany)
  · obtain ⟨key, hkey, hclose⟩ := exists_near hbeta hdirections (vec inner.config.d r.estimate)
    obtain ⟨j, hj, rfl⟩ := List.mem_map.mp hkey
    have hweights : r.weights.length = indices.length := by
      rw [hr, length_weights _ _ _ _ _ (by rw [length_softmax, hsims, List.length_map]), List.length_map]
    -- every index that is activated is reported
    have hzip : (indices.zip r.weights).map Prod.fst = indices := List.map_fst_zip hweights.ge
    obtain ⟨⟨j, w⟩, hw, rfl⟩ := List.mem_map.mp (hzip.symm ▸ hj : j ∈ (indices.zip r.weights).map Prod.fst)
    refine ⟨_, List.mem_map_of_mem hw, ?_⟩
    show g ≤ cosineSimilarity r.estimate (locationAt inner.locations j).address
    rw [cosineSimilarity_direction hclimbed.length hclimbed.unit (hd j hj) (hself j hj).normable]
    have hup := hclimbed.gained
    have hsteps := mul_nonneg (Nat.cast_nonneg n) hpos.le
    rw [directions, List.length_map, ← directions] at hclose
    have hlow : ascent inner.config.d inner.config inner.locations indices r.estimate -
      Real.log indices.length / inner.config.beta ≤ _ := hclose
    linarith

end trace

section runs

variable [SeededUniform ℝ]

/-- What verbatim writes leave. -/
theorem selfConsistent_run {s0 s : Session ℝ ℝ} {cs : List (Call ℝ)}
    (hplain : s0.collection.inner.config.competitive = false) (hempty : s0.collection.inner.locations = [])
    (hrecoverable : s0.Recoverable) (hrun : Run (Building verbatimRules) s0 cs s) :
    s.collection.inner.config = s0.collection.inner.config ∧ s.Recoverable ∧
      ∀ loc ∈ s.collection.inner.locations, SelfConsistent loc := by
  obtain ⟨hconfig, hbuilt⟩ := built_run (preserves_selfConsistent hplain) hempty hrun
  refine ⟨hconfig, ?_, hbuilt.each⟩
  refine hrun.invariant (P := fun s => s.Recoverable) hrecoverable fun h hstep => ?_
  obtain ⟨-, -, r, hstep⟩ := hstep
  exact recoverable_step h hstep

/-- **An iterative read converges** in a collection of verbatim writes, from a
query that exceeds a location by `ln k / β`: the fewer steps the greater the
excess `g`, and it reports a location as near as `g`. -/
theorem analysis_converges {s0 s : Session ℝ ℝ} {cs : List (Call ℝ)}
    (hplain : s0.collection.inner.config.competitive = false)
    (hvalid : s0.collection.inner.config.validate = .ok ()) (hempty : s0.collection.inner.locations = [])
    (hrecoverable : s0.Recoverable) (hrun : Run (Building verbatimRules) s0 cs s) {query : List ℝ}
    (hquery : query.length = s.collection.inner.config.d) {g : ℝ} (hg : tiny ≤ g) {i : ℕ}
    (hi : i ∈ (s.collection.inner.activated query).1)
    (hnear : g + Real.log (min s.collection.inner.config.k s.collection.inner.locations.length : ℕ) /
        s.collection.inner.config.beta ≤
      cosineSimilarity query (locationAt s.collection.inner.locations i).address) :
    ∃ trace, analyzeRead s.collection.inner query .hopfieldIter = .ok trace ∧
      readLocked s.collection.inner query .hopfieldIter = .ok trace.result ∧
      (trace.iterations - 1 : ℕ) * (s.collection.inner.config.epsilon * g) ≤ 1 - g ∧
      (1 - g < s.collection.inner.config.tMax * (s.collection.inner.config.epsilon * g) → trace.converged = true) ∧
      ∃ a ∈ trace.activatedLocations, g ≤ a.similarity := by
  obtain ⟨hconfig, hrecovered, hconsistent⟩ := selfConsistent_run hplain hempty hrecoverable hrun
  have hread : ReadConfig s.collection.inner.config := hconfig ▸ readConfig_of_validate hvalid
  set inner := s.collection.inner
  have hactivated := activated_activated hrecovered.arrays hrecovered.shaped query
  have hlt : ∀ i ∈ (inner.activated query).1, i < inner.locations.length := fun i hi =>
    List.mem_range.mp (hactivated.within i hi)
  have hcount : (inner.activated query).1.length = min inner.config.k inner.locations.length := by
    rw [hactivated.count, List.length_range]
    exact min_eq_left (min_le_right _ _)
  have hsims : (inner.activated query).2.length = (inner.activated query).1.length := by
    rw [hactivated.sims, List.length_map]
  have hne : inner.locations ≠ [] := List.ne_nil_of_length_pos (Nat.zero_lt_of_lt (hlt i hi))
  rw [← hcount] at hnear
  have hconverges := analyzeIter_converges hrecovered.shaped hconsistent hread hlt hquery hg hi hnear _ hsims
  have hexplains := explains_iterated hrecovered.arrays hrecovered.shaped hread.k hrecovered.valid hquery hne
  have hanalyze := analyzeRead_accepted hrecovered.valid hquery hne .hopfieldIter
  refine ⟨_, hanalyze, ?_, hconverges⟩
  rw [Explains, hanalyze] at hexplains
  cases hlocked : readLocked inner query .hopfieldIter with
  | ok v =>
    rw [hlocked] at hexplains
    exact congrArg Except.ok hexplains.1.symm
  | error e =>
    rw [hlocked] at hexplains
    exact hexplains.elim

end runs

/-- A plain collection whose reads may take a hundred steps. -/
noncomputable def patientLine : Session ℝ ℝ := .fresh 0 "c" { realConfig with tMax := 100 } (fun _ => 1) (.empty .f64)

theorem valid_patientLine : patientLine.collection.inner.config.validate = .ok () := by
  have hlt : ∀ x y : ℝ, lt x y = decide (x < y) := fun _ _ => rfl
  have hle : ∀ x y : ℝ, le x y = decide (x ≤ y) := fun _ _ => rfl
  show EAMConfig.validate { realConfig with tMax := 100 } = .ok ()
  unfold EAMConfig.validate
  simp only [realConfig, refuseUnless, EAMConfig.positive, hlt, hle, lit_real, isFinite_real]
  norm_num
  rfl

/-- A read at one of two opposite addresses. -/
theorem analysis_converges_opposite : ∃ (_ : SeededUniform ℝ) (s : Session ℝ ℝ) (trace : ReadTrace ℝ),
    Run (Building verbatimRules) patientLine [.write [1], .write [-1]] s ∧
      analyzeRead s.collection.inner [1] .hopfieldIter = .ok trace ∧ trace.converged = true ∧
        ∃ a ∈ trace.activatedLocations, 1 - Real.log 2 ≤ a.similarity := by
  let _ : SeededUniform ℝ := { uniform := fun _ => 0 }
  have hlog : Real.log 2 < 7 / 10 := Real.log_two_lt_d9.trans (by norm_num)
  have hsmall : tiny < 3 / 10 := by norm_num [tiny]
  have hnormable : ∀ x : ℝ, x * x = 1 → Normable [x] := fun x hx => by
    have hnorm : l2Norm [x] = 1 := by simp [l2Norm, dot, sum_real, hx]
    unfold Normable
    rw [hnorm]
    exact tiny_lt_one.le
  have hrun : Run (Building verbatimRules) patientLine ([.write [1]] ++ [.write [-1]])
      (Call.effect (Call.effect patientLine (.write [1])) (.write [-1])) :=
    (Run.single ⟨⟨⟨rfl, hnormable 1 (by norm_num)⟩, trivial⟩, trivial, _, step_of_isOk rfl⟩).snoc
      ⟨⟨⟨rfl, hnormable (-1) (by norm_num)⟩, trivial⟩, trivial, _, step_of_isOk rfl⟩
  have hrecoverable : patientLine.Recoverable := recoverable_fresh "c" _ (fun _ => 1) (fun _ => rfl) ⟨0, rfl⟩
  set s : Session ℝ ℝ := Call.effect (Call.effect patientLine (.write [1])) (.write [-1])
  obtain ⟨-, hrecovered, -⟩ := selfConsistent_run rfl rfl hrecoverable hrun
  have hactive : 0 ∈ (s.collection.inner.activated [1]).1 := by
    have hactivated := activated_activated hrecovered.arrays hrecovered.shaped [1]
    have hcount : (s.collection.inner.activated [1]).1.length = 2 := hactivated.count
    have hall : (s.collection.inner.activated [1]).1.Perm (List.range 2) :=
      (List.subperm_of_subset hactivated.distinct hactivated.within).perm_of_length_le (by rw [hcount]; rfl)
    exact hall.mem_iff.mpr (by decide)
  have hcosine : cosineSimilarity [(1 : ℝ)] [1] = 1 :=
    (cosineSimilarity_unit (one_mul 1) (one_mul 1)).trans (one_mul 1)
  have hnear : 1 - Real.log 2 + Real.log (min 3 2 : ℕ) / 1 ≤ cosineSimilarity [(1 : ℝ)] [1] := by
    rw [hcosine]
    norm_num
  have hquery : [(1 : ℝ)].length = s.collection.inner.config.d := rfl
  obtain ⟨trace, hanalyze, -, -, hconverged, hreported⟩ := analysis_converges rfl valid_patientLine rfl hrecoverable hrun
    hquery (by linarith : tiny ≤ 1 - Real.log 2) hactive hnear
  refine ⟨{ uniform := fun _ => 0 }, _, trace, hrun, hanalyze, hconverged ?_, hreported⟩
  show 1 - (1 - Real.log 2) < (100 : ℕ) * (1 / 10 * (1 - Real.log 2))
  push_cast
  linarith

end HeatherDb
