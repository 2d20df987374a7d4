/-
# Reads routed by energy

`routing.rs` of the algebra. A query is read from several memories, and what
they read is blended by how deep the energy basin is there: a memory's
confidence is the smooth maximum of the query's similarities to what it
activates.

The weights are the softmax of the confidences, and the order of the memories
does not matter (`composeRead_routes`). A confidence lies between the greatest
similarity and that plus `ln k / β`, so a memory that is nearer by more has
exponentially all of the weight.

A read climbs what the confidence measures: where the locations store what
they are addressed by, a memory is more confident of what it read than of the
query, however often it is read again (`rereading_raises_confidence`).

Key definitions: `energyConfidence`, `composeRead`, `composedRead`, `Routes`.
Key theorems: `energyConfidence_eq`, `composeRead_routes`,
`rereading_raises_confidence`.
-/
import HeatherDb.Descent
import HeatherDb.Partners
import Mathlib.Analysis.Complex.ExponentialBounds

namespace HeatherDb

open Scalar Exponential LogSumExp RealInnerProductSpace

section model

variable {F : Type} [Scalar F] [Exponential F]

/-! ### The reads -/

/-- How deep the energy basin is at the query: `ln (Σ exp (β s)) / β`. -/
def energyConfidence (query : List F) (locations : List (HardLocation F)) (config : EAMConfig F) : F :=
  let k := min config.k locations.length
  if k = 0 then lit 0
  else
    let sims := (activate query locations k).2
    if sims.isEmpty then lit 0
    else
      let maxSim := sims.headD (lit 0)
      let sumExp := sum (sims.map fun s => exp ((s - maxSim) * config.beta))
      (maxSim * config.beta + ln sumExp) / config.beta

/-- An iterative read of one parent, the query where it fails, and its energy
confidence. -/
def readParentWithConfidence (query : List F) (locations : List (HardLocation F)) (config : EAMConfig F) :
    List F × F :=
  ((hopfieldIter query locations config).toOption.getD query, energyConfidence query locations config)

/-- Result of a routed read of several memories. -/
structure ComposeReadResult (F : Type) where
  result : List F
  /-- Softmax of the confidences. -/
  weights : List F
  confidences : List F

/-- `compose_read`; none where a parent's vectors are longer than the query,
which the blend has no room for. -/
def composeRead (query : List F) (parents : List (EAMSnapshot F)) (routingSharpness : F) :
    Option (ComposeReadResult F) :=
  let reads := parents.map fun parent => readParentWithConfidence query parent.locations parent.config
  let recons := reads.map (·.1)
  let confs := reads.map (·.2)
  let maxConf := confs.foldl fmax negInf
  let exps := confs.map fun c => exp ((c - maxConf) * routingSharpness)
  let total := sum exps
  if lt total (lit (1 / 10 ^ 10)) then
    some ⟨query, List.replicate parents.length (lit 1 / ofUsize parents.length), confs⟩
  else
    let weights := exps.map (· / total)
    if recons.any fun recon => query.length < recon.length then none
    else
      let blended := (recons.zip weights).foldl (fun blended p => addScaled blended p.1 p.2)
        (List.replicate query.length (lit 0))
      some ⟨normalize blended, weights, confs⟩

/-- `ComposedEAM::read`: the same of two memories. -/
def composedRead (query : List F) (a b : EAMSnapshot F) (routingSharpness : F) : List F :=
  let readA := readParentWithConfidence query a.locations a.config
  let readB := readParentWithConfidence query b.locations b.config
  let maxConf := fmax readA.2 readB.2
  let expA := exp ((readA.2 - maxConf) * routingSharpness)
  let expB := exp ((readB.2 - maxConf) * routingSharpness)
  let total := expA + expB
  if lt total (lit (1 / 10 ^ 10)) then query
  else normalize (List.zipWith (fun x y => expA / total * x + expB / total * y) readA.1 readB.1)

end model

/-! ### Confidence -/

section confidence

variable [Exponential ℝ] (hexp : ∀ x : ℝ, Exponential.exp x = Real.exp x)

include hexp

variable {locations : List (HardLocation ℝ)} {config : EAMConfig ℝ}

/-- **Confidence** is the smooth maximum of the activated similarities. -/
theorem energyConfidence_eq (hne : locations ≠ []) (hk : config.k ≠ 0) (query : List ℝ) :
    energyConfidence query locations config = smoothMax config.beta
      ((activate query locations (min config.k locations.length)).1.map (similarity query locations)) := by
  have hactivated := activated_activate query locations (min config.k locations.length)
  have hpos : 0 < locations.length := List.length_pos_iff.mpr hne
  have hcount := hactivated.count
  rw [List.length_range] at hcount
  have hsome : (activate query locations (min config.k locations.length)).2 ≠ [] := by
    rw [hactivated.sims]
    refine mt List.map_eq_nil_iff.mp (List.ne_nil_of_length_pos ?_)
    omega
  unfold energyConfidence
  dsimp only
  rw [if_neg (by omega), if_neg (mt List.isEmpty_iff.mp hsome), ln_real, sum_real,
    List.map_congr_left fun _ _ => hexp _, smoothMax_shift hsome, hactivated.sims]

/-- A confidence is no less than any similarity, and exceeds them by `ln k / β`
at most. -/
theorem energyConfidence_bounds (hne : locations ≠ []) (hconfig : ReadConfig config) (query : List ℝ) :
    (∀ loc ∈ locations, dot (normalize query) loc.address ≤ energyConfidence query locations config) ∧
      ∀ m, (∀ loc ∈ locations, dot (normalize query) loc.address ≤ m) →
        energyConfidence query locations config ≤
          m + Real.log (min config.k locations.length : ℕ) / config.beta := by
  have hactivated := activated_activate query locations (min config.k locations.length)
  have hcount : (activate query locations (min config.k locations.length)).1.length = min config.k locations.length := by
    rw [hactivated.count, List.length_range]
    exact min_eq_left (min_le_right _ _)
  have hpos : 0 < min config.k locations.length :=
    lt_min (Nat.pos_of_ne_zero hconfig.k) (List.length_pos_iff.mpr hne)
  rw [energyConfidence_eq hexp hne hconfig.k query]
  set indices := (activate query locations (min config.k locations.length)).1
  have hindices : indices ≠ [] := List.ne_nil_of_length_pos (hcount ▸ hpos)
  constructor
  · intro loc hloc
    -- an activated location is at least as similar
    obtain ⟨i, hi, hle⟩ : ∃ i ∈ indices, dot (normalize query) loc.address ≤ similarity query locations i := by
      obtain ⟨j, hj, rfl⟩ := List.mem_iff_getElem.mp hloc
      have hat : locationAt locations j = locations[j] := List.getD_eq_getElem _ _ hj
      rw [← hat]
      by_cases hmem : j ∈ indices
      · exact ⟨j, hmem, le_rfl⟩
      · obtain ⟨i, hi⟩ := List.exists_mem_of_ne_nil _ hindices
        have hbest := hactivated.best i hi j (List.mem_range.mpr hj) hmem
        exact ⟨i, hi, not_lt.mp (mt lt_real.mpr (Bool.eq_false_iff.mp hbest))⟩
    exact hle.trans (le_smoothMax hconfig.beta (List.mem_map_of_mem hi))
  · intro m hm
    have hle := smoothMax_le hconfig.beta (mt List.map_eq_nil_iff.mp hindices) (List.forall_mem_map.mpr fun i hi =>
      hm _ (locationAt_mem (List.mem_range.mp (hactivated.within i hi))))
    rwa [List.length_map, hcount] at hle

end confidence

/-! ### Routes -/

section lengths

variable {F : Type} [Scalar F] {d : ℕ}

theorem length_weightedSum {vectors : List (List F)} (hd : ∀ v ∈ vectors, v.length = d) (hne : vectors ≠ [])
    (weights : List F) : (weightedSum vectors weights).length = d := by
  have hfold : ∀ (ps : List (List F × F)) (v : List F), v.length = d →
      (ps.foldl (fun result p => addScaled result p.1 p.2) v).length = d := fun ps v hv =>
    List.foldlRecOn (motive := fun v : List F => v.length = d) ps _ hv fun v hv p _ => (length_addScaled _ _ _).trans hv
  cases vectors with
  | nil => exact absurd rfl hne
  | cons v vectors =>
    refine hfold _ _ ?_
    rw [List.length_replicate]
    exact hd v List.mem_cons_self

theorem length_hopfieldLoop [Exponential F] {config : EAMConfig F} {patterns addresses : List (List F)}
    (hpatterns : ∀ p ∈ patterns, p.length = d) (hne : patterns ≠ []) : ∀ (t : ℕ) {xi : List F}, xi.length = d →
    (hopfieldLoop config patterns addresses t xi).length = d
  | 0, _, h => h
  | t + 1, xi, _ => by
    have hnext : (normalize (weightedSum patterns (softmax (addresses.map fun addr => cosineSimilarity xi addr)
        config.beta))).length = d := (length_normalize _).trans (length_weightedSum hpatterns hne _)
    rw [hopfieldLoop]
    split_ifs
    · exact hnext
    · exact length_hopfieldLoop hpatterns hne t hnext

end lengths

theorem foldl_fmax_spec : ∀ (xs : List ℝ) (m : ℝ),
    xs.foldl fmax m ∈ m :: xs ∧ ∀ x ∈ m :: xs, x ≤ xs.foldl fmax m
  | [], m => ⟨List.mem_singleton_self m, fun _ hx => (List.mem_singleton.mp hx).le⟩
  | y :: xs, m => by
    obtain ⟨hmem, hle⟩ := foldl_fmax_spec xs (max m y)
    rw [List.foldl_cons, fmax_real]
    have hmax := hle _ List.mem_cons_self
    refine ⟨?_, fun x hx => ?_⟩
    · rcases List.mem_cons.mp hmem with heq | hmem
      · rw [heq]
        rcases max_choice m y with h | h <;> simp [h]
      · exact List.mem_cons_of_mem m (List.mem_cons_of_mem y hmem)
    · rcases List.mem_cons.mp hx with rfl | hx
      · exact (le_max_left _ _).trans hmax
      rcases List.mem_cons.mp hx with rfl | hx
      · exact (le_max_right _ _).trans hmax
      · exact hle x (List.mem_cons_of_mem _ hx)

/-- The greatest of numbers that are not below it is one of them. -/
theorem foldl_fmax_mem {xs : List ℝ} {m : ℝ} (h : ∀ x ∈ xs, m ≤ x) (hne : xs ≠ []) : xs.foldl fmax m ∈ xs := by
  obtain ⟨hmem, hle⟩ := foldl_fmax_spec xs m
  rcases List.mem_cons.mp hmem with heq | hmem
  · obtain ⟨x, hx⟩ := List.exists_mem_of_ne_nil xs hne
    have hx' : x = m := le_antisymm ((hle x (List.mem_cons_of_mem m hx)).trans_eq heq) (h x hx)
    exact (heq.trans hx'.symm) ▸ hx
  · exact hmem

section routes

variable [Exponential ℝ] {query : List ℝ} {parents : List (EAMSnapshot ℝ)} {sharpness : ℝ}

/-- What is read of a memory. -/
noncomputable def reconOf (query : List ℝ) (p : EAMSnapshot ℝ) : List ℝ :=
  (readParentWithConfidence query p.locations p.config).1

noncomputable def confidenceOf (query : List ℝ) (p : EAMSnapshot ℝ) : ℝ := energyConfidence query p.locations p.config

/-- The part of a memory in a routed read. -/
noncomputable def shareOf (query : List ℝ) (parents : List (EAMSnapshot ℝ)) (sharpness : ℝ) (p : EAMSnapshot ℝ) : ℝ :=
  Real.exp (confidenceOf query p * sharpness) / (parents.map fun q => Real.exp (confidenceOf query q * sharpness)).sum

/-- A memory as the snapshot of a collection holds it: its configuration passes
its checks, and its vectors have its dimension. -/
structure Intact (p : EAMSnapshot ℝ) : Prop where
  valid : p.config.validate = .ok ()
  shaped : Shaped p.dim p.locations

theorem length_reconOf {p : EAMSnapshot ℝ} (hintact : Intact p) (hdim : p.dim = query.length) : (reconOf query p).length = query.length := by
  unfold reconOf readParentWithConfidence hopfieldIter
  dsimp only
  split_ifs with hempty
  · rfl
  · have hactivated := activated_activate query p.locations (min p.config.k p.locations.length)
    set indices := (activate query p.locations (min p.config.k p.locations.length)).1
    have hcount : indices.length = _ := hactivated.count
    rw [List.length_range] at hcount
    have hk : p.config.k ≠ 0 := (readConfig_of_validate hintact.valid).k
    have hpos : 0 < p.locations.length := List.length_pos_iff.mpr (mt List.isEmpty_iff.mpr hempty)
    have hindices : indices ≠ [] := List.ne_nil_of_length_pos (by omega)
    refine length_hopfieldLoop (fun v hv => ?_) (mt List.map_eq_nil_iff.mp hindices) _ (length_normalize query)
    obtain ⟨i, hi, rfl⟩ := List.mem_map.mp hv
    rw [HardLocation.unitPattern, length_normalize, length_normalizedPattern, ← hdim]
    exact (hintact.shaped _ (locationAt_mem (List.mem_range.mp (hactivated.within i hi)))).2

section

variable (hexp : ∀ x : ℝ, Exponential.exp x = Real.exp x) (hne : parents ≠ []) (hintact : ∀ p ∈ parents, Intact p)
  (hdim : ∀ p ∈ parents, p.dim = query.length) (hneg : ∀ p ∈ parents, Exponential.negInf ≤ confidenceOf query p)

include hexp hne hintact hdim hneg

/-- **A routed read** blends by the softmax of the confidences. -/
theorem composeRead_eq : composeRead query parents sharpness =
    some ⟨normalize (weightedSum (parents.map (reconOf query)) (parents.map (shareOf query parents sharpness))),
      parents.map (shareOf query parents sharpness), parents.map (confidenceOf query)⟩ := by
  have hconfs : (parents.map fun p => readParentWithConfidence query p.locations p.config).map (·.2) =
      parents.map (confidenceOf query) := by
    rw [List.map_map]
    rfl
  have hrecons : (parents.map fun p => readParentWithConfidence query p.locations p.config).map (·.1) =
      parents.map (reconOf query) := by
    rw [List.map_map]
    rfl
  unfold composeRead
  dsimp only
  rw [hconfs, hrecons]
  set m := (parents.map (confidenceOf query)).foldl fmax Exponential.negInf with hm
  have hmem : m ∈ parents.map (confidenceOf query) :=
    foldl_fmax_mem (List.forall_mem_map.mpr hneg) (mt List.map_eq_nil_iff.mp hne)
  -- the greatest confidence has the weight one before it is divided
  have htotal : sum ((parents.map (confidenceOf query)).map fun c => Exponential.exp ((c - m) * sharpness)) =
      (parents.map fun q => Real.exp (confidenceOf query q * sharpness)).sum * Real.exp (-(m * sharpness)) := by
    rw [sum_real, List.map_map, ← List.sum_map_mul_right]
    refine congrArg List.sum (List.map_congr_left fun p _ => ?_)
    rw [Function.comp_apply, hexp, ← Real.exp_add, sub_mul, sub_eq_add_neg]
  have hlarge : 1 ≤ sum ((parents.map (confidenceOf query)).map fun c => Exponential.exp ((c - m) * sharpness)) := by
    have hterm : Exponential.exp ((m - m) * sharpness) = 1 := by
      rw [hexp, sub_self, zero_mul, Real.exp_zero]
    rw [sum_real, ← hterm]
    refine List.single_le_sum (List.forall_mem_map.mpr fun c _ => ?_) _ (List.mem_map_of_mem
      (f := fun c => Exponential.exp ((c - m) * sharpness)) hmem)
    rw [hexp]
    exact (Real.exp_pos _).le
  have hnot : ¬lt (sum ((parents.map (confidenceOf query)).map fun c => Exponential.exp ((c - m) * sharpness)))
      (lit (1 / 10 ^ 10)) = true := by
    rw [lt_real, lit_real, not_lt]
    refine le_trans ?_ hlarge
    norm_num
  have hfits : ¬((parents.map (reconOf query)).any fun recon => query.length < recon.length) = true := by
    rw [List.any_map, List.any_eq_true]
    rintro ⟨p, hp, hlonger⟩
    have hlonger := of_decide_eq_true hlonger
    rw [length_reconOf (hintact p hp) (hdim p hp)] at hlonger
    exact lt_irrefl _ hlonger
  have hweights : ((parents.map (confidenceOf query)).map fun c => Exponential.exp ((c - m) * sharpness)).map
      (· / sum ((parents.map (confidenceOf query)).map fun c => Exponential.exp ((c - m) * sharpness))) =
        parents.map (shareOf query parents sharpness) := by
    rw [htotal, List.map_map, List.map_map]
    refine List.map_congr_left fun p _ => ?_
    rw [Function.comp_apply, Function.comp_apply, hexp, sub_mul, sub_eq_add_neg, Real.exp_add, shareOf]
    exact mul_div_mul_right _ _ (Real.exp_pos _).ne'
  have hblend : ∀ weights : List ℝ, ((parents.map (reconOf query)).zip weights).foldl
      (fun blended p => addScaled blended p.1 p.2) (List.replicate query.length (lit 0)) =
        weightedSum (parents.map (reconOf query)) weights := fun weights => by
    obtain ⟨p, ps, rfl⟩ := List.exists_cons_of_ne_nil hne
    rw [← length_reconOf (hintact p List.mem_cons_self) (hdim p List.mem_cons_self)]
    rfl
  rw [if_neg hnot, if_neg hfits, hweights, hblend]

omit hexp hintact hdim hneg in
theorem shares_pos : (∀ p, 0 < shareOf query parents sharpness p) ∧
    (parents.map (shareOf query parents sharpness)).sum = 1 := by
  have hpos : 0 < (parents.map fun q => Real.exp (confidenceOf query q * sharpness)).sum :=
    List.sum_pos _ (List.forall_mem_map.mpr fun _ _ => Real.exp_pos _) (mt List.map_eq_nil_iff.mp hne)
  refine ⟨fun p => div_pos (Real.exp_pos _) hpos, ?_⟩
  have hsum : (parents.map (shareOf query parents sharpness)).sum =
      (parents.map fun q => Real.exp (confidenceOf query q * sharpness)).sum *
        ((parents.map fun q => Real.exp (confidenceOf query q * sharpness)).sum)⁻¹ := by
    rw [← List.sum_map_mul_right]
    rfl
  rw [hsum, mul_inv_cancel₀ hpos.ne']

omit hne hdim hneg in
/-- **The nearer memory takes the weight**: where the locations of one are no
more similar than `m` and one of another is more similar by more than
`ln k / β`, the weight of the first is exponentially small. -/
theorem shareOf_le (hsharp : 0 ≤ sharpness) {p q : EAMSnapshot ℝ} (hp : p ∈ parents) (hqp : q ∈ parents)
    {loc : HardLocation ℝ} (hloc : loc ∈ p.locations) (hq : q.locations ≠ []) {m : ℝ}
    (hm : ∀ loc ∈ q.locations, dot (normalize query) loc.address ≤ m) :
    shareOf query parents sharpness q ≤ Real.exp (-(sharpness * (dot (normalize query) loc.address -
      (m + Real.log (min q.config.k q.locations.length : ℕ) / q.config.beta)))) := by
  obtain ⟨hnear, -⟩ := energyConfidence_bounds hexp (List.ne_nil_of_mem hloc)
    (readConfig_of_validate (hintact p hp).valid) query
  obtain ⟨-, hfar⟩ := energyConfidence_bounds hexp hq (readConfig_of_validate (hintact q hqp).valid) query
  have hgap : dot (normalize query) loc.address - (m + Real.log (min q.config.k q.locations.length : ℕ) / q.config.beta) ≤
      confidenceOf query p - confidenceOf query q := sub_le_sub (hnear loc hloc) (hfar m hm)
  have hterm : Real.exp (confidenceOf query p * sharpness) ≤
      (parents.map fun q => Real.exp (confidenceOf query q * sharpness)).sum :=
    List.single_le_sum (List.forall_mem_map.mpr fun _ _ => (Real.exp_pos _).le) _
      (List.mem_map_of_mem (f := fun q => Real.exp (confidenceOf query q * sharpness)) hp)
  calc shareOf query parents sharpness q
      ≤ Real.exp (confidenceOf query q * sharpness) / Real.exp (confidenceOf query p * sharpness) :=
        div_le_div_of_nonneg_left (Real.exp_pos _).le (Real.exp_pos _) hterm
    _ = Real.exp (-(sharpness * (confidenceOf query p - confidenceOf query q))) := by
        rw [← Real.exp_sub]
        ring_nf
    _ ≤ _ := Real.exp_le_exp.mpr (neg_le_neg (mul_le_mul_of_nonneg_left hgap hsharp))

omit hexp hneg in
/-- The blend is the weighted sum of what was read. -/
theorem vec_blend (sharpness : ℝ) : vec query.length (weightedSum (parents.map (reconOf query))
      (parents.map (shareOf query parents sharpness))) =
      (parents.map fun p => shareOf query parents sharpness p • vec query.length (reconOf query p)).sum ∧
    (weightedSum (parents.map (reconOf query)) (parents.map (shareOf query parents sharpness))).length =
      query.length := by
  obtain ⟨hvec, hlength⟩ := vec_weightedSum (reconOf query) (shareOf query parents sharpness)
    (fun p hp => length_reconOf (hintact p hp) (hdim p hp))
  exact ⟨hvec, by rw [hlength, if_neg hne]⟩

end

/-- Two memories are read alike by either function. -/
theorem composedRead_eq (hexp : ∀ x : ℝ, Exponential.exp x = Real.exp x) {a b : EAMSnapshot ℝ}
    (hintact : ∀ p ∈ [a, b], Intact p) (ha : a.dim = query.length) (hb : b.dim = query.length) : composedRead query a b sharpness =
      normalize (weightedSum ([a, b].map (reconOf query)) ([a, b].map (shareOf query [a, b] sharpness))) := by
  set m := max (confidenceOf query a) (confidenceOf query b) with hm
  have hmax : fmax (readParentWithConfidence query a.locations a.config).2
      (readParentWithConfidence query b.locations b.config).2 = m := fmax_real _ _
  have hexps : ∀ c : ℝ, Exponential.exp ((c - m) * sharpness) =
      Real.exp (c * sharpness) * Real.exp (-(m * sharpness)) := fun c => by
    rw [hexp, sub_mul, sub_eq_add_neg, Real.exp_add]
  have hscale := Real.exp_pos (-(m * sharpness))
  set total := Exponential.exp ((confidenceOf query a - m) * sharpness) +
    Exponential.exp ((confidenceOf query b - m) * sharpness) with htotal
  have hsum : total = ([a, b].map fun q => Real.exp (confidenceOf query q * sharpness)).sum *
      Real.exp (-(m * sharpness)) := by
    rw [htotal, hexps, hexps, ← add_mul]
    simp
  -- the greater of the two has the weight one before it is divided
  have hlarge : 1 ≤ total := by
    have hone : Exponential.exp ((m - m) * sharpness) = 1 := by
      rw [hexp, sub_self, zero_mul, Real.exp_zero]
    have hpos : ∀ c : ℝ, 0 ≤ Exponential.exp ((c - m) * sharpness) := fun c => by
      rw [hexp]
      exact (Real.exp_pos _).le
    rcases max_choice (confidenceOf query a) (confidenceOf query b) with h | h
    · have hterm : Exponential.exp ((confidenceOf query a - m) * sharpness) = 1 := (hm.trans h) ▸ hone
      have hother := hpos (confidenceOf query b)
      linarith
    · have hterm : Exponential.exp ((confidenceOf query b - m) * sharpness) = 1 := (hm.trans h) ▸ hone
      have hother := hpos (confidenceOf query a)
      linarith
  have hnot : ¬lt total (lit (1 / 10 ^ 10)) = true := by
    rw [lt_real, lit_real, not_lt]
    refine le_trans ?_ hlarge
    norm_num
  have hshare : ∀ p : EAMSnapshot ℝ, Exponential.exp ((confidenceOf query p - m) * sharpness) / total =
      shareOf query [a, b] sharpness p := fun p => by
    rw [hexps, hsum]
    exact mul_div_mul_right _ _ hscale.ne'
  have hread : composedRead query a b sharpness = normalize (List.zipWith
      (fun x y => shareOf query [a, b] sharpness a * x + shareOf query [a, b] sharpness b * y)
      (reconOf query a) (reconOf query b)) := by
    unfold composedRead
    dsimp only
    rw [hmax, ← hshare, ← hshare]
    exact if_neg hnot
  have hdim : ∀ p ∈ [a, b], p.dim = query.length := by
    simp [ha, hb]
  obtain ⟨hvec, hlength⟩ := vec_blend (List.cons_ne_nil a [b]) hintact hdim sharpness
  have hla := length_reconOf (hintact a List.mem_cons_self) ha
  have hlb := length_reconOf (hintact b (List.mem_cons_of_mem a (List.mem_singleton_self b))) hb
  rw [hread]
  refine congrArg normalize (vec_injective ?_ hlength ?_)
  · rw [List.length_zipWith, hla, hlb, min_self]
  · rw [hvec, vec_zipWith (fun x y => rfl) hla hlb]
    simp

/-- What a routed read is. -/
structure Routes (query : List ℝ) (parents : List (EAMSnapshot ℝ)) (sharpness : ℝ) (r : ComposeReadResult ℝ) : Prop where
  confidences : r.confidences = parents.map (confidenceOf query)
  weights : r.weights = parents.map (shareOf query parents sharpness)
  positive : ∀ w ∈ r.weights, 0 < w
  total : r.weights.sum = 1
  blends : ∃ blended : List ℝ, blended.length = query.length ∧ r.result = normalize blended ∧
    vec query.length blended =
      (parents.map fun p => shareOf query parents sharpness p • vec query.length (reconOf query p)).sum
  nearer : 0 ≤ sharpness → ∀ p ∈ parents, ∀ q ∈ parents, ∀ loc ∈ p.locations, q.locations ≠ [] → ∀ m,
    (∀ loc ∈ q.locations, dot (normalize query) loc.address ≤ m) →
      shareOf query parents sharpness q ≤ Real.exp (-(sharpness * (dot (normalize query) loc.address -
        (m + Real.log (min q.config.k q.locations.length : ℕ) / q.config.beta))))

/-- **A read of several memories** is routed by how near they are to the query,
whatever their order; of two, `ComposedEAM` reads the same. -/
theorem composeRead_routes (hexp : ∀ x : ℝ, Exponential.exp x = Real.exp x) (hne : parents ≠ [])
    (hintact : ∀ p ∈ parents, Intact p) (hdim : ∀ p ∈ parents, p.dim = query.length)
    (hneg : ∀ p ∈ parents, Exponential.negInf ≤ confidenceOf query p) (sharpness : ℝ) :
    ∃ r, composeRead query parents sharpness = some r ∧ Routes query parents sharpness r ∧
      (∀ parents', parents'.Perm parents → ∃ r', composeRead query parents' sharpness = some r' ∧
        r'.result = r.result ∧ r'.weights.Perm r.weights) ∧
      ∀ a b, parents = [a, b] → composedRead query a b sharpness = r.result := by
  obtain ⟨hvec, hlength⟩ := vec_blend hne hintact hdim sharpness
  refine ⟨_, composeRead_eq hexp hne hintact hdim hneg, ?_, fun parents' hperm => ?_, fun a b hab => ?_⟩
  · exact
      { confidences := rfl
        weights := rfl
        positive := List.forall_mem_map.mpr fun p _ => (shares_pos hne).1 p
        total := (shares_pos hne).2
        blends := ⟨_, hlength, rfl, hvec⟩
        nearer := fun hsharp p hp q hqp loc hloc hq m hm => shareOf_le hexp hintact hsharp hp hqp hloc hq hm }
  · have hne' : parents' ≠ [] := fun h => hne (List.nil_perm.mp (h ▸ hperm))
    have hintact' : ∀ p ∈ parents', Intact p := fun p hp => hintact p (hperm.subset hp)
    have hdim' : ∀ p ∈ parents', p.dim = query.length := fun p hp => hdim p (hperm.subset hp)
    have hneg' : ∀ p ∈ parents', Exponential.negInf ≤ confidenceOf query p := fun p hp => hneg p (hperm.subset hp)
    have hshare : shareOf query parents' sharpness = shareOf query parents sharpness := by
      funext p
      rw [shareOf, shareOf, (hperm.map _).sum_eq]
    obtain ⟨hvec', hlength'⟩ := vec_blend hne' hintact' hdim' sharpness
    refine ⟨_, composeRead_eq hexp hne' hintact' hdim' hneg', congrArg normalize (vec_injective hlength' hlength ?_), ?_⟩
    · rw [hvec, hvec', hshare, (hperm.map _).sum_eq]
    · rw [hshare]
      exact hperm.map _
  · subst hab
    exact composedRead_eq hexp hintact (hdim a List.mem_cons_self)
      (hdim b (List.mem_cons_of_mem a (List.mem_singleton_self b)))

end routes

/-! ### Memories on a line -/

/-- Addresses on a line, each its own stored pattern. -/
theorem intact_onLine (xs : List ℝ) : Intact (onLine realConfig xs) where
  valid := valid_realConfig
  shaped loc hloc := by
    obtain ⟨p, -, rfl⟩ := List.mem_map.mp hloc
    exact ⟨rfl, rfl⟩

theorem similarity_onLine {x : ℝ} {xs : List ℝ} {loc : HardLocation ℝ} (hloc : loc ∈ (onLine realConfig xs).locations) :
    ∃ y ∈ xs, loc = freshLocation loc.id [y] [y] ∧ dot [x] loc.address = x * y := by
  obtain ⟨p, hp, rfl⟩ := List.mem_map.mp hloc
  refine ⟨p.1, List.fst_mem_of_mem_zipIdx hp, rfl, ?_⟩
  simp [dot, sum_real, freshLocation, HardLocation.new]

theorem le_confidence_onLine {x : ℝ} {xs : List ℝ} (hx : x ∈ xs) : x ≤ confidenceOf [1] (onLine realConfig xs) := by
  obtain ⟨i, hi⟩ := List.mem_iff_getElem?.mp hx
  have hmem : freshLocation i [x] [x] ∈ (onLine realConfig xs).locations :=
    List.mem_map_of_mem (List.mk_mem_zipIdx_iff_getElem?.mpr hi)
  have hle := (energyConfidence_bounds (fun _ => rfl) (List.ne_nil_of_mem hmem)
    (readConfig_of_validate valid_realConfig) [1]).1 _ hmem
  have hsimilarity : dot (normalize [(1 : ℝ)]) (freshLocation i [x] [x]).address = x := by
    rw [normalize_unit (one_mul 1)]
    simp [dot, sum_real, freshLocation, HardLocation.new]
  exact hsimilarity.symm.trans_le hle

/-- A read of a memory at the query and one across it, in either order. -/
theorem composeRead_routes_two : ∃ r,
    composeRead [1] [onLine realConfig [1], onLine realConfig [0]] 5 = some r ∧ r.weights.sum = 1 ∧
      shareOf [1] [onLine realConfig [1], onLine realConfig [0]] 5 (onLine realConfig [0]) ≤ Real.exp (-5) ∧
      (∃ r', composeRead [1] [onLine realConfig [0], onLine realConfig [1]] 5 = some r' ∧ r'.result = r.result) ∧
      composedRead [1] (onLine realConfig [1]) (onLine realConfig [0]) 5 = r.result := by
  have hintact : ∀ p ∈ [onLine realConfig [1], onLine realConfig [0]], Intact p := by
    simpa using ⟨intact_onLine [1], intact_onLine [0]⟩
  have hdim : ∀ p ∈ [onLine realConfig [1], onLine realConfig [0]], p.dim = [(1 : ℝ)].length := by
    simp [EAMSnapshot.dim, onLine, realConfig]
  have hneg : ∀ p ∈ [onLine realConfig [1], onLine realConfig [0]], Exponential.negInf ≤ confidenceOf [1] p := by
    have hone := zero_le_one.trans (le_confidence_onLine (List.mem_singleton_self (1 : ℝ)))
    simpa using ⟨hone, le_confidence_onLine (List.mem_singleton_self (0 : ℝ))⟩
  obtain ⟨r, hread, hroutes, horder, htwo⟩ := composeRead_routes (fun _ => rfl) (List.cons_ne_nil _ _) hintact hdim hneg 5
  obtain ⟨r', hread', hresult, -⟩ := horder [onLine realConfig [0], onLine realConfig [1]] (.swap _ _ _)
  refine ⟨r, hread, hroutes.total, ?_, ⟨r', hread', hresult⟩, htwo _ _ rfl⟩
  have hgap := hroutes.nearer (by norm_num) (onLine realConfig [1]) (by simp) (onLine realConfig [0]) (by simp)
    (freshLocation 0 [1] [1]) (by simp [onLine]) (by simp [onLine]) 0 fun loc hloc => by
      obtain ⟨y, hy, -, heq⟩ := similarity_onLine hloc
      rw [normalize_unit (one_mul 1), heq, List.mem_singleton.mp hy, mul_zero]
  refine hgap.trans_eq ?_
  rw [normalize_unit (one_mul 1)]
  simp [onLine, realConfig, dot, sum_real, freshLocation, HardLocation.new]

/-! ### Rereading -/

section reread

variable {snap : EAMSnapshot ℝ} {query : List ℝ}

/-- What a memory reads when it reads again what it read. -/
noncomputable def reread (snap : EAMSnapshot ℝ) (query : List ℝ) (n : ℕ) : List ℝ :=
  (fun v => reconOf v snap)^[n] query

/-- A unit vector is its direction. -/
theorem vec_normalize_unit {d : ℕ} {v : List ℝ} (hv : v.length = d) (hunit : ‖vec d v‖ = 1) :
    vec d (normalize v) = vec d v := by
  have htiny : tiny ≤ ‖vec d v‖ := by
    rw [hunit]
    exact tiny_lt_one.le
  rw [vec_normalize hv htiny, hunit, inv_one, one_smul]

variable (hintact : Intact snap)

include hintact

/-- No other locations have a greater smooth maximum than those activated. -/
theorem smoothMax_le_energyConfidence (hne : snap.locations ≠ []) (query : List ℝ) {J : List ℕ} (hnodup : J.Nodup)
    (hsub : J ⊆ List.range snap.locations.length) (hfew : J.length ≤ min snap.config.k snap.locations.length)
    (hJ : J ≠ []) : smoothMax snap.config.beta (J.map (similarity query snap.locations)) ≤ confidenceOf query snap := by
  have hconfig := readConfig_of_validate hintact.valid
  have hactivated := activated_activate query snap.locations (min snap.config.k snap.locations.length)
  rw [confidenceOf, energyConfidence_eq (fun _ => rfl) hne hconfig.k]
  set I := (activate query snap.locations (min snap.config.k snap.locations.length)).1
  have hgreatest : Greatest (similarity query snap.locations) (min snap.config.k snap.locations.length)
      (List.range snap.locations.length) I :=
    .of_subset List.nodup_range hactivated.distinct hactivated.within hactivated.count fun j hj hnot i hi =>
      not_lt.mp (mt lt_real.mpr (Bool.eq_false_iff.mp (hactivated.best i hi j hj hnot)))
  have hcount : I.length = min snap.config.k snap.locations.length := by
    rw [hgreatest.length, List.length_range]
    exact min_eq_left (min_le_right _ _)
  have hsum := hgreatest.sum_le (List.subperm_of_subset hnodup hsub) (hfew.trans_eq hcount.symm)
    (f := fun i => Real.exp (similarity query snap.locations i * snap.config.beta))
    (fun i j hle => Real.exp_le_exp.mpr (mul_le_mul_of_nonneg_right hle hconfig.beta.le)) fun _ => (Real.exp_pos _).le
  have hpos := sum_exp_pos (mt List.map_eq_nil_iff.mp hJ : J.map (similarity query snap.locations) ≠ [])
    snap.config.beta
  rw [List.map_map] at hpos
  rw [smoothMax, smoothMax, List.map_map, List.map_map]
  exact div_le_div_of_nonneg_right (Real.log_le_log hpos hsum) hconfig.beta.le

variable (hself : ∀ loc ∈ snap.locations, SelfConsistent loc ∧ l2Norm loc.address = 1)

include hself

/-- On unit addresses the smooth maximum is the potential. -/
theorem smoothMax_eq_ascent {J : List ℕ} (hlt : ∀ i ∈ J, i < snap.locations.length) {v : List ℝ}
    (hv : v.length = snap.dim) : smoothMax snap.config.beta (J.map (similarity v snap.locations)) =
      ascent snap.dim snap.config snap.locations J (normalize v) := by
  have hsims : J.map (similarity v snap.locations) =
      (directions snap.dim snap.locations J).map fun a => ⟪vec snap.dim (normalize v), a⟫ := by
    rw [directions, List.map_map]
    refine List.map_congr_left fun i hi => ?_
    have hmem := locationAt_mem (hlt i hi)
    have hlength : (locationAt snap.locations i).address.length = snap.dim := (hintact.shaped _ hmem).1
    have hunit : ‖vec snap.dim (locationAt snap.locations i).address‖ = 1 :=
      (l2Norm_eq_norm hlength).symm.trans (hself _ hmem).2
    rw [Function.comp_apply, vec_normalize_unit hlength hunit, similarity,
      dot_eq_inner ((length_normalize v).trans hv) hlength]
  rw [hsims, ascent, potential_eq]

/-- **A read raises the confidence.** -/
theorem read_raises_confidence (hquery : query.length = snap.dim)
    (hgap : tiny + Real.log (min snap.config.k snap.locations.length : ℕ) / snap.config.beta ≤
      confidenceOf query snap) :
    hopfieldIter query snap.locations snap.config = .ok (reconOf query snap) ∧
      (reconOf query snap).length = snap.dim ∧ confidenceOf query snap ≤ confidenceOf (reconOf query snap) snap := by
  have hconfig := readConfig_of_validate hintact.valid
  have hne : snap.locations ≠ [] := fun hempty => by
    have hzero : confidenceOf query snap = 0 := by
      rw [confidenceOf, energyConfidence, hempty, List.length_nil, Nat.min_zero]
      exact lit_real 0 |>.trans Rat.cast_zero
    rw [hzero, hempty, List.length_nil, Nat.min_zero, Nat.cast_zero, Real.log_zero, zero_div, add_zero] at hgap
    exact absurd hgap (not_le.mpr tiny_pos)
  have hactivated := activated_activate query snap.locations (min snap.config.k snap.locations.length)
  set I := (activate query snap.locations (min snap.config.k snap.locations.length)).1 with hI
  have hcount : I.length = min snap.config.k snap.locations.length := by
    rw [hI, hactivated.count, List.length_range]
    exact min_eq_left (min_le_right _ _)
  have hIne : I ≠ [] :=
    List.ne_nil_of_length_pos (hcount ▸ lt_min (Nat.pos_of_ne_zero hconfig.k) (List.length_pos_iff.mpr hne))
  have hlt : ∀ i ∈ I, i < snap.locations.length := fun i hi => List.mem_range.mp (hactivated.within i hi)
  have hd : ∀ i ∈ I, (locationAt snap.locations i).address.length = snap.dim := fun i hi =>
    (hintact.shaped _ (locationAt_mem (hlt i hi))).1
  have hconsistent : ∀ i ∈ I, SelfConsistent (locationAt snap.locations i) := fun i hi =>
    (hself _ (locationAt_mem (hlt i hi))).1
  -- a shorter query is similar to nothing
  have hlong : tiny ≤ ‖vec snap.dim query‖ := by
    by_contra hshort
    have hshort := not_le.mp hshort
    have hbound := (energyConfidence_bounds (fun _ => rfl) hne hconfig query).2 ‖vec snap.dim query‖ fun loc hloc => by
      have hlength : loc.address.length = snap.dim := (hintact.shaped _ hloc).1
      have hunit : ‖vec snap.dim loc.address‖ = 1 := (l2Norm_eq_norm hlength).symm.trans (hself _ hloc).2
      rw [vec_normalize_of_lt hquery hshort, dot_eq_inner hquery hlength]
      have hle := real_inner_le_norm (vec snap.dim query) (vec snap.dim loc.address)
      rwa [hunit, mul_one] at hle
    have hgap := hgap.trans hbound
    linarith
  have hunit : ‖vec snap.dim (normalize query)‖ = 1 := norm_vec_normalize hquery hlong
  have hstart : confidenceOf query snap = ascent snap.dim snap.config snap.locations I (normalize query) := by
    rw [confidenceOf, energyConfidence_eq (fun _ => rfl) hne hconfig.k, smoothMax_eq_ascent hintact hself hlt hquery]
  have hhigh : tiny + Real.log I.length / snap.config.beta ≤
      ascent snap.dim snap.config snap.locations I (normalize query) := by
    rw [hcount, ← hstart]
    exact hgap
  obtain ⟨n, hclimbed⟩ := analyzeLoop_climbs hd hconsistent hIne hconfig.beta le_rfl hconfig.epsilon snap.config.tMax
    ⟨normalize query, false, 0, []⟩ ((length_normalize query).trans hquery) hunit rfl hhigh
  have hread : hopfieldIter query snap.locations snap.config = .ok (hopfieldLoop snap.config
      (I.map fun i => (locationAt snap.locations i).unitPattern) (I.map fun i => (locationAt snap.locations i).address)
      snap.config.tMax (normalize query)) := if_neg (mt List.isEmpty_iff.mp hne)
  have hrecon : hopfieldLoop snap.config (I.map fun i => (locationAt snap.locations i).unitPattern)
      (I.map fun i => (locationAt snap.locations i).address) snap.config.tMax (normalize query) =
        reconOf query snap := by
    rw [reconOf, readParentWithConfidence, hread]
    rfl
  have hestimate := (analyzeLoop_estimate snap.config (I.map fun i => (locationAt snap.locations i).unitPattern)
    (I.map fun i => (locationAt snap.locations i).address) snap.config.tMax ⟨normalize query, false, 0, []⟩).trans hrecon
  obtain ⟨hlength, hnorm, hgained, -⟩ := hclimbed
  rw [hestimate] at hlength hnorm hgained
  refine ⟨hread.trans (congrArg Except.ok hrecon), hlength, ?_⟩
  have hsteps : 0 ≤ n * (snap.config.epsilon * tiny) :=
    mul_nonneg (Nat.cast_nonneg n) (mul_nonneg hconfig.epsilon.le tiny_pos.le)
  calc confidenceOf query snap ≤ ascent snap.dim snap.config snap.locations I (reconOf query snap) := by
        rw [hstart]
        linarith
    _ = smoothMax snap.config.beta (I.map (similarity (reconOf query snap) snap.locations)) := by
        rw [smoothMax_eq_ascent hintact hself hlt hlength, ascent, ascent, vec_normalize_unit hlength hnorm]
    _ ≤ confidenceOf (reconOf query snap) snap :=
        smoothMax_le_energyConfidence hintact hne _ hactivated.distinct hactivated.within hcount.le hIne

/-- **However often a memory rereads**, each read is of higher confidence than
the one before. -/
theorem rereading_raises_confidence (hquery : query.length = snap.dim)
    (hgap : tiny + Real.log (min snap.config.k snap.locations.length : ℕ) / snap.config.beta ≤
      confidenceOf query snap) (n : ℕ) :
    hopfieldIter (reread snap query n) snap.locations snap.config = .ok (reread snap query (n + 1)) ∧
      confidenceOf (reread snap query n) snap ≤ confidenceOf (reread snap query (n + 1)) snap := by
  have hrun : ∀ n, (reread snap query n).length = snap.dim ∧
      tiny + Real.log (min snap.config.k snap.locations.length : ℕ) / snap.config.beta ≤
        confidenceOf (reread snap query n) snap := fun n => by
    induction n with
    | zero => exact ⟨hquery, hgap⟩
    | succ n ih =>
      obtain ⟨-, hlength, hraised⟩ := read_raises_confidence hintact hself ih.1 ih.2
      rw [reread, Function.iterate_succ_apply']
      exact ⟨hlength, ih.2.trans hraised⟩
  obtain ⟨hread, -, hraised⟩ := read_raises_confidence hintact hself (hrun n).1 (hrun n).2
  have hnext : reread snap query (n + 1) = reconOf (reread snap query n) snap := Function.iterate_succ_apply' _ _ _
  rw [hnext]
  exact ⟨hread, hraised⟩

end reread

/-- Two opposite addresses. -/
theorem rereading_raises_confidence_opposite :
    hopfieldIter (reread (onLine realConfig [1, -1]) [1] 1) (onLine realConfig [1, -1]).locations realConfig =
        .ok (reread (onLine realConfig [1, -1]) [1] 2) ∧
      confidenceOf (reread (onLine realConfig [1, -1]) [1] 1) (onLine realConfig [1, -1]) ≤
        confidenceOf (reread (onLine realConfig [1, -1]) [1] 2) (onLine realConfig [1, -1]) := by
  have hself : ∀ loc ∈ (onLine realConfig [1, -1]).locations, SelfConsistent loc ∧ l2Norm loc.address = 1 := by
    intro loc hloc
    obtain ⟨y, hy, hfresh, -⟩ := similarity_onLine (x := 0) hloc
    have hsquare : y * y = 1 := by
      rcases List.mem_pair.mp hy with rfl | rfl <;> norm_num
    have hone : l2Norm [y] = 1 := by simp [l2Norm, dot, sum_real, hsquare]
    rw [hfresh]
    exact ⟨selfConsistent_fresh _ (tiny_lt_one.le.trans_eq hone.symm), hone⟩
  have hgap : tiny + Real.log (min 3 2 : ℕ) / 1 ≤ confidenceOf [1] (onLine realConfig [1, -1]) := by
    have hconfident := le_confidence_onLine (List.mem_cons_self (a := (1 : ℝ)) (l := [-1]))
    have hlog : Real.log (min 3 2 : ℕ) / 1 ≤ 7 / 10 := by
      have hlt := Real.log_two_lt_d9
      norm_num
      linarith
    have htiny : tiny ≤ 1 / 10 := by
      rw [tiny]
      norm_num
    linarith
  exact rereading_raises_confidence (intact_onLine [1, -1]) hself rfl hgap 1

end HeatherDb
