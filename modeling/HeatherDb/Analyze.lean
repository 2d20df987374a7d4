/-
# An analysed read beside the read

`read` and `analyze_read` of `collection.rs` with `hopfield_iter_from` of
`read.rs`: two implementations of the same reads. Both activate the k most
similar locations. The iterative read runs one loop in each; the loops go
through the same estimates (`analyzeLoop_estimate`). The single-step read
weighs by cosines it computes anew, while the analysis reuses the products of
the activation, which divide by the query's norm only. In exact arithmetic the
two agree on an address that is of norm one or orthogonal to the query, and on
no other (`reuses_iff`).

Key definitions: `ReadStrategy`, `readLocked`, `analyzeRead`, `Explains`.
Key theorems: `analyzeLoop_estimate`, `reuses_iff`, `analyzeRead_explains_iff`.
-/
import HeatherDb.Evidence
import HeatherDb.Mixture
import HeatherDb.Runs

namespace HeatherDb

open Scalar Narrow Exponential

/-- How a read reconstructs: iterated to convergence, or in a single step. -/
inductive ReadStrategy where
  | hopfieldIter
  | hopfieldSS
deriving DecidableEq

/-- A location's part in an analysed read. -/
structure ActivatedLocation (F : Type) where
  id : ℕ
  similarity : F
  weight : F

/-- An analysed read. -/
structure ReadTrace (F : Type) where
  iterations : ℕ
  converged : Bool
  activatedLocations : List (ActivatedLocation F)
  result : List F

/-- The analysis of an iterative read in progress. -/
structure Analysis (F : Type) where
  estimate : List F
  converged : Bool
  iterations : ℕ
  weights : List F

variable {F S : Type} [Scalar F] [Scalar S] [Narrow F S] [Exponential F]

/-! ### The read -/

/-- The loop of `hopfield_iter_from`: at most so many iterations from an estimate. -/
def hopfieldLoop (config : EAMConfig F) (patterns addresses : List (List F)) : ℕ → List F → List F
  | 0, xi => xi
  | t + 1, xi =>
    let sims := addresses.map fun addr => cosineSimilarity xi addr
    let alpha := softmax sims config.beta
    let xiNew := normalize (weightedSum patterns alpha)
    let sim := cosineSimilarity xi xiNew
    if lt (lit 1 - config.epsilon) sim then xiNew else hopfieldLoop config patterns addresses t xiNew

/-- Hopfield iterative read from a pre-computed activation set. -/
def hopfieldIterFrom (query : List F) (locations : List (HardLocation F)) (config : EAMConfig F) (indices : List ℕ) :
    Except HeatherError (List F) :=
  if indices.isEmpty then .error .emptyMemory
  else
    let patterns := indices.map fun i => (locationAt locations i).unitPattern
    let addresses := indices.map fun i => (locationAt locations i).address
    .ok (hopfieldLoop config patterns addresses config.tMax (normalize query))

/-- What a read activates: indices and similarities. -/
def EAMInner.activated (inner : EAMInner F S) (query : List F) : List ℕ × List F :=
  activateAutoFull query inner.locations (min inner.config.k inner.locations.length) inner.addressMatrix inner.config.d

/-- `read`: reconstruct a pattern. -/
def readLocked (inner : EAMInner F S) (query : List F) (strategy : ReadStrategy) : Except HeatherError (List F) := do
  validateVector query
  checkValid inner
  checkQuery inner query
  let indices := (inner.activated query).1
  match strategy with
  | .hopfieldIter => hopfieldIterFrom query inner.locations inner.config indices
  | .hopfieldSS =>
    let sims := indices.map fun i => cosineSimilarity query (locationAt inner.locations i).address
    let alpha := softmax sims inner.config.beta
    let patterns := indices.map fun i => (locationAt inner.locations i).normalizedPattern
    .ok (normalize (weightedSum patterns alpha))

/-! ### The analysis -/

/-- The loop of `analyze_read`. -/
def analyzeLoop (config : EAMConfig F) (patterns addresses : List (List F)) : ℕ → Analysis F → Analysis F
  | 0, a => a
  | t + 1, a =>
    let stepSims := addresses.map fun addr => cosineSimilarity a.estimate addr
    let alpha := softmax stepSims config.beta
    let xiNew := normalize (weightedSum patterns alpha)
    let sim := cosineSimilarity a.estimate xiNew
    if lt (lit 1 - config.epsilon) sim then ⟨xiNew, true, a.iterations + 1, alpha⟩
    else analyzeLoop config patterns addresses t ⟨xiNew, false, a.iterations + 1, alpha⟩

/-- The trace of an iterative read. -/
def analyzeIter (query : List F) (locations : List (HardLocation F)) (config : EAMConfig F) (indices : List ℕ)
    (sims : List F) : ReadTrace F :=
  let patterns := indices.map fun i => (locationAt locations i).unitPattern
  let addresses := indices.map fun i => (locationAt locations i).address
  let a := analyzeLoop config patterns addresses config.tMax ⟨normalize query, false, 0, softmax sims config.beta⟩
  { iterations := a.iterations
    converged := a.converged
    activatedLocations := (indices.zip a.weights).map fun p =>
      ⟨p.1, cosineSimilarity a.estimate (locationAt locations p.1).address, p.2⟩
    result := a.estimate }

/-- The trace of a single-step read. -/
def analyzeSS (locations : List (HardLocation F)) (config : EAMConfig F) (indices : List ℕ) (sims : List F) :
    ReadTrace F :=
  let alpha := softmax sims config.beta
  let patterns := indices.map fun i => (locationAt locations i).normalizedPattern
  { iterations := 1
    converged := true
    activatedLocations := ((indices.zip sims).zip alpha).map fun p => ⟨p.1.1, p.1.2, p.2⟩
    result := normalize (weightedSum patterns alpha) }

/-- `analyze_read`: a traced read with full activation details. -/
def analyzeRead (inner : EAMInner F S) (query : List F) (strategy : ReadStrategy) :
    Except HeatherError (ReadTrace F) := do
  validateVector query
  checkValid inner
  checkQuery inner query
  let (indices, sims) := inner.activated query
  match strategy with
  | .hopfieldIter => .ok (analyzeIter query inner.locations inner.config indices sims)
  | .hopfieldSS => .ok (analyzeSS inner.locations inner.config indices sims)

/-- The vector whose similarities a trace reports: the estimate of an iterative
read, the query of a single step. -/
def ReadTrace.described (trace : ReadTrace F) (query : List F) : ReadStrategy → List F
  | .hopfieldIter => trace.result
  | .hopfieldSS => query

/-- The analysis and the read fail alike, or the result is the read's and the
similarities are cosines. -/
def Explains (inner : EAMInner F S) (query : List F) (strategy : ReadStrategy) : Prop :=
  match readLocked inner query strategy, analyzeRead inner query strategy with
  | .ok v, .ok trace => trace.result = v ∧ ∀ a ∈ trace.activatedLocations,
      a.similarity = cosineSimilarity (trace.described query strategy) (locationAt inner.locations a.id).address
  | .error e, .error e' => e = e'
  | _, _ => False

/-- **The two loops go through the same estimates.** -/
theorem analyzeLoop_estimate (config : EAMConfig F) (patterns addresses : List (List F)) : ∀ (t : ℕ) (a : Analysis F),
    (analyzeLoop config patterns addresses t a).estimate = hopfieldLoop config patterns addresses t a.estimate
  | 0, _ => rfl
  | t + 1, a => by
    rw [analyzeLoop, hopfieldLoop]
    split_ifs
    · rfl
    · exact analyzeLoop_estimate config patterns addresses t _

/-- There is a weight for every address. -/
theorem length_weights (config : EAMConfig F) (patterns addresses : List (List F)) : ∀ (t : ℕ) (a : Analysis F),
    a.weights.length = addresses.length → (analyzeLoop config patterns addresses t a).weights.length = addresses.length
  | 0, _, h => h
  | t + 1, a, _ => by
    have hweights : (softmax (addresses.map fun addr => cosineSimilarity a.estimate addr) config.beta).length =
        addresses.length := by rw [length_softmax, List.length_map]
    rw [analyzeLoop]
    split_ifs
    · exact hweights
    · exact length_weights config patterns addresses t _ hweights

/-! ### In exact arithmetic -/

/-- **The product of the activation is a cosine** on an address of norm one, or
one that is orthogonal to the query, and on no other. -/
theorem reuses_iff {d : ℕ} {query address : List ℝ} (hquery : query.length = d) (haddress : address.length = d) :
    dot (normalize query) address = cosineSimilarity query address ↔
      dot query address = 0 ∨ tiny ≤ l2Norm query ∧ l2Norm address = 1 := by
  have hsmall : ∀ v : List ℝ, lt (l2Norm v) (lit (1 / 10 ^ 12)) = true ↔ l2Norm v < tiny := fun v => by
    rw [lit_tiny, lt_real]
  rcases lt_or_ge (l2Norm query) tiny with hshort | hlong
  · -- a short query is not normalized and has no cosines
    have hnormalize : normalize query = query := vec_normalize_of_lt hquery ((l2Norm_eq_norm hquery) ▸ hshort)
    have hcosine : cosineSimilarity query address = 0 := by
      unfold cosineSimilarity
      rw [(hsmall query).mpr hshort, Bool.true_or, if_pos rfl]
      exact lit_real 0 |>.trans (by norm_num)
    rw [hnormalize, hcosine]
    exact (or_iff_left fun h => absurd h.1 (not_le.mpr hshort)).symm
  have hpos : 0 < l2Norm query := tiny_pos.trans_le hlong
  have hproduct : dot (normalize query) address = dot query address / l2Norm query := by
    have hnorm : l2Norm query = ‖vec d query‖ := l2Norm_eq_norm hquery
    rw [dot_eq_inner ((length_normalize query).trans hquery) haddress, vec_normalize hquery (hnorm ▸ hlong),
      real_inner_smul_left, dot_eq_inner hquery haddress, hnorm, inv_mul_eq_div]
  rw [hproduct]
  have hnotShort : lt (l2Norm query) (lit (1 / 10 ^ 12)) = false :=
    Bool.eq_false_iff.mpr (mt (hsmall query).mp (not_lt.mpr hlong))
  rcases lt_or_ge (l2Norm address) tiny with hnull | hdirected
  · have hcosine : cosineSimilarity query address = 0 := by
      unfold cosineSimilarity
      rw [(hsmall address).mpr hnull, Bool.or_true, if_pos rfl]
      exact lit_real 0 |>.trans (by norm_num)
    have hnot : l2Norm address ≠ 1 := fun hone => by
      rw [hone] at hnull
      exact tiny_lt_one.not_gt hnull
    rw [hcosine, div_eq_zero_iff, or_iff_left hpos.ne']
    exact (or_iff_left fun h => hnot h.2).symm
  · have hposAddress : 0 < l2Norm address := tiny_pos.trans_le hdirected
    have hcosine : cosineSimilarity query address = dot query address / (l2Norm query * l2Norm address) := by
      unfold cosineSimilarity
      rw [hnotShort, Bool.eq_false_iff.mpr (mt (hsmall address).mp (not_lt.mpr hdirected)), Bool.false_or,
        if_neg Bool.false_ne_true]
    rw [hcosine, div_eq_div_iff hpos.ne' (mul_pos hpos hposAddress).ne']
    constructor
    · intro heq
      by_cases hzero : dot query address = 0
      · exact Or.inl hzero
      · right
        have hscaled : l2Norm query * l2Norm address = l2Norm query := mul_left_cancel₀ hzero heq
        exact ⟨hlong, mul_left_cancel₀ hpos.ne' (hscaled.trans (mul_one _).symm)⟩
    · rintro (hzero | ⟨-, hone⟩)
      · rw [hzero, zero_mul, zero_mul]
      · rw [hone, mul_one]

/-- What a read activates. -/
theorem activated_activated {inner : EAMInner ℝ ℝ} (harrays : Indexed inner)
    (hshaped : Shaped inner.config.d inner.locations) (query : List ℝ) :
    Activated query inner.locations (List.range inner.locations.length)
      (min inner.config.k inner.locations.length) (inner.activated query) := by
  unfold EAMInner.activated
  rw [activateAutoFull_eq harrays hshaped, scored_eq_entriesOf]
  exact activated_topK (fun _ _ => rfl) (fun i hi => List.mem_range.mp hi) List.nodup_range _

theorem validateVector_real (v : List ℝ) : validateVector v = .ok () := by
  have hfind : (v.zipIdx.find? fun p => !isFinite p.1) = none := List.find?_eq_none.mpr fun p _ => by simp
  rw [validateVector, hfind]

variable {inner : EAMInner ℝ ℝ} {query : List ℝ}

/-- A read goes on where the checks pass. -/
theorem readLocked_accepted (hvalid : inner.valid = true) (hlength : query.length = inner.config.d)
    (hempty : inner.locations ≠ []) (strategy : ReadStrategy) : readLocked inner query strategy =
      match strategy with
      | .hopfieldIter => hopfieldIterFrom query inner.locations inner.config (inner.activated query).1
      | .hopfieldSS => .ok (normalize (weightedSum
          ((inner.activated query).1.map fun i => (locationAt inner.locations i).normalizedPattern)
          (softmax ((inner.activated query).1.map fun i =>
            cosineSimilarity query (locationAt inner.locations i).address)
            inner.config.beta))) := by
  have hok : checkValid inner = .ok () := if_pos hvalid
  have hquery : checkQuery inner query = .ok () := by
    rw [checkQuery, if_neg (not_not.mpr hlength), if_neg (mt List.isEmpty_iff.mp hempty)]
  unfold readLocked
  rw [validateVector_real, hok, hquery]
  cases strategy <;> rfl

/-- An analysis goes on where the checks pass. -/
theorem analyzeRead_accepted (hvalid : inner.valid = true) (hlength : query.length = inner.config.d)
    (hempty : inner.locations ≠ []) (strategy : ReadStrategy) : analyzeRead inner query strategy =
      match strategy with
      | .hopfieldIter =>
        .ok (analyzeIter query inner.locations inner.config (inner.activated query).1 (inner.activated query).2)
      | .hopfieldSS => .ok (analyzeSS inner.locations inner.config (inner.activated query).1
          (inner.activated query).2) := by
  have hok : checkValid inner = .ok () := if_pos hvalid
  have hquery : checkQuery inner query = .ok () := by
    rw [checkQuery, if_neg (not_not.mpr hlength), if_neg (mt List.isEmpty_iff.mp hempty)]
  unfold analyzeRead
  rw [validateVector_real, hok, hquery]
  cases strategy <;> rfl

/-- Where a check fails both refuse, with the same error. -/
theorem refused_alike (h : ¬(inner.valid = true ∧ query.length = inner.config.d ∧ inner.locations ≠ []))
    (strategy : ReadStrategy) :
    ∃ e, readLocked inner query strategy = .error e ∧ analyzeRead inner query strategy = .error e := by
  unfold readLocked analyzeRead
  rw [validateVector_real]
  by_cases hvalid : inner.valid = true
  swap
  · have hrefused : checkValid inner = .error recoveryFailed := if_neg hvalid
    rw [hrefused]
    exact ⟨_, rfl, rfl⟩
  have hok : checkValid inner = .ok () := if_pos hvalid
  rw [hok]
  by_cases hlength : query.length = inner.config.d
  swap
  · have hrefused : checkQuery inner query = .error (.dimensionMismatch inner.config.d query.length) := if_pos hlength
    rw [hrefused]
    exact ⟨_, rfl, rfl⟩
  have hempty : inner.locations = [] := by
    by_contra hne
    exact h ⟨hvalid, hlength, hne⟩
  have hrefused : checkQuery inner query = .error .emptyMemory := by
    rw [checkQuery, if_neg (not_not.mpr hlength), hempty]
    rfl
  rw [hrefused]
  exact ⟨_, rfl, rfl⟩

/-- What a single-step trace says of the locations it names. -/
theorem forall_activatedLocations {indices : List ℕ} {f : ℕ → ℝ} {alpha : List ℝ}
    (halpha : alpha.length = indices.length)
    {P : ℕ → ℝ → Prop} :
    (∀ a ∈ ((indices.zip (indices.map f)).zip alpha).map fun p => (⟨p.1.1, p.1.2, p.2⟩ : ActivatedLocation ℝ),
      P a.id a.similarity) ↔ ∀ i ∈ indices, P i (f i) := by
  have hpairs : ((indices.zip (indices.map f)).zip alpha).map Prod.fst = indices.map fun i => (i, f i) := by
    rw [List.map_fst_zip, List.map_prod_left_eq_zip]
    rw [List.length_zip, List.length_map, min_self, halpha]
  have hread : (∀ a ∈ ((indices.zip (indices.map f)).zip alpha).map fun p =>
      (⟨p.1.1, p.1.2, p.2⟩ : ActivatedLocation ℝ),
      P a.id a.similarity) ↔ ∀ e ∈ ((indices.zip (indices.map f)).zip alpha).map Prod.fst, P e.1 e.2 := by
    rw [List.forall_mem_map, List.forall_mem_map]
  rw [hread, hpairs, List.forall_mem_map]

/-- **A single step explains itself** where each product it reuses is a cosine. -/
theorem explains_single_iff (harrays : Indexed inner) (hshaped : Shaped inner.config.d inner.locations)
    (hvalid : inner.valid = true) (hlength : query.length = inner.config.d) (hempty : inner.locations ≠ []) :
    Explains inner query .hopfieldSS ↔ ∀ i ∈ (inner.activated query).1,
      dot query (locationAt inner.locations i).address = 0 ∨
        tiny ≤ l2Norm query ∧ l2Norm (locationAt inner.locations i).address = 1 := by
  have hactivated := activated_activated harrays hshaped query
  set indices := (inner.activated query).1
  have hsims : (inner.activated query).2 = indices.map (similarity query inner.locations) := hactivated.sims
  rw [Explains, readLocked_accepted hvalid hlength hempty, analyzeRead_accepted hvalid hlength hempty]
  set cosine := fun i => cosineSimilarity query (locationAt inner.locations i).address
  have halpha : (softmax (indices.map (similarity query inner.locations)) inner.config.beta).length =
      indices.length := by
    rw [length_softmax, List.length_map]
  have hsame : (∀ a ∈ (analyzeSS inner.locations inner.config indices (inner.activated query).2).activatedLocations,
      a.similarity = cosine a.id) ↔ ∀ i ∈ indices, similarity query inner.locations i = cosine i := by
    rw [hsims]
    exact forall_activatedLocations (P := fun i x => x = cosine i) halpha
  have hreuses : (∀ i ∈ indices, similarity query inner.locations i = cosine i) ↔ ∀ i ∈ indices,
      dot query (locationAt inner.locations i).address = 0 ∨
        tiny ≤ l2Norm query ∧ l2Norm (locationAt inner.locations i).address = 1 :=
    forall₂_congr fun i hi =>
      reuses_iff hlength (hshaped _ (locationAt_mem (List.mem_range.mp (hactivated.within i hi)))).1
  rw [← hsame] at hreuses
  constructor
  · exact fun h => hreuses.mp h.2
  · intro h
    have hcosines := hreuses.mpr h
    refine ⟨?_, hcosines⟩
    -- the same similarities weigh the same patterns
    show normalize (weightedSum _ (softmax (inner.activated query).2 _)) = normalize (weightedSum _ (softmax _ _))
    rw [hsims, List.map_congr_left (hsame.mp hcosines)]

/-- **An iterative read explains itself.** -/
theorem explains_iterated (harrays : Indexed inner) (hshaped : Shaped inner.config.d inner.locations)
    (hk : inner.config.k ≠ 0) (hvalid : inner.valid = true) (hlength : query.length = inner.config.d)
    (hempty : inner.locations ≠ []) : Explains inner query .hopfieldIter := by
  have hactivated := activated_activated harrays hshaped query
  have hsome : (inner.activated query).1 ≠ [] := by
    have hcount := hactivated.count
    rw [List.length_range] at hcount
    have hpos : 0 < inner.locations.length := List.length_pos_iff.mpr hempty
    rw [← List.length_pos_iff, hcount]
    omega
  set indices := (inner.activated query).1
  have hread : readLocked inner query .hopfieldIter = .ok (hopfieldLoop inner.config
      (indices.map fun i => (locationAt inner.locations i).unitPattern)
      (indices.map fun i => (locationAt inner.locations i).address) inner.config.tMax (normalize query)) := by
    rw [readLocked_accepted hvalid hlength hempty]
    exact if_neg (mt List.isEmpty_iff.mp hsome)
  rw [Explains, hread, analyzeRead_accepted hvalid hlength hempty]
  refine ⟨analyzeLoop_estimate _ _ _ _ _, fun a ha => ?_⟩
  obtain ⟨p, -, rfl⟩ := List.mem_map.mp ha
  rfl

/-- **An analysed read is the read** and reports cosines, but for a single step
that activates an address which is neither of norm one nor orthogonal to the
query. -/
theorem analyzeRead_explains_iff (harrays : Indexed inner) (hshaped : Shaped inner.config.d inner.locations)
    (hk : inner.config.k ≠ 0) (query : List ℝ) (strategy : ReadStrategy) : Explains inner query strategy ↔
      (strategy = .hopfieldSS → inner.valid = true → query.length = inner.config.d →
        ∀ i ∈ (inner.activated query).1, dot query (locationAt inner.locations i).address = 0 ∨
          tiny ≤ l2Norm query ∧ l2Norm (locationAt inner.locations i).address = 1) := by
  have hin : ∀ i ∈ (inner.activated query).1, i < inner.locations.length := fun i hi =>
    List.mem_range.mp ((activated_activated harrays hshaped query).within i hi)
  by_cases haccepted : inner.valid = true ∧ query.length = inner.config.d ∧ inner.locations ≠ []
  · obtain ⟨hvalid, hlength, hempty⟩ := haccepted
    cases strategy with
    | hopfieldIter =>
      exact iff_of_true (explains_iterated harrays hshaped hk hvalid hlength hempty) fun h => absurd h nofun
    | hopfieldSS =>
      rw [explains_single_iff harrays hshaped hvalid hlength hempty]
      exact ⟨fun h _ _ _ => h, fun h => h rfl hvalid hlength⟩
  · obtain ⟨e, hread, hanalyze⟩ := refused_alike haccepted strategy
    rw [Explains, hread, hanalyze]
    refine iff_of_true rfl fun _ hvalid hlength i hi => absurd ⟨hvalid, hlength, fun hempty => ?_⟩ haccepted
    have hlt := hin i hi
    rw [hempty] at hlt
    exact Nat.not_lt_zero i hlt

/-! ### A long address -/

/-- A new plain collection of the line. -/
noncomputable def plainLine : Session ℝ ℝ := .fresh 0 "c" realConfig (fun _ => 1) (.empty .f64)

/-- The memory after one write. -/
noncomputable def lineOf (x : ℝ) : EAMInner ℝ ℝ :=
  (plainLine.wrote [.single [x]] 0 (writePuts plainLine (.single [x]))).collection.inner

theorem indexed_lineOf (x : ℝ) : Indexed (lineOf x) := by
  have hopened : Indexed plainLine.collection.inner := indexed_opened realConfig [] 0 realConfig.eta0 0
  have hfresh : Indexed plainLine.collection.inner.bumpVersion := ⟨hopened.looks, hopened.matrix, hopened.matrix32⟩
  have hfit : plainLine.Fits [.single [x]] := fun p hp => by
    obtain rfl := List.mem_singleton.mp hp
    exact ⟨rfl, rfl⟩
  have harrays := hfresh.batch (fun loc hloc => absurd hloc List.not_mem_nil) hfit plainLine.rng
  exact ⟨harrays.looks, harrays.matrix, harrays.matrix32⟩

theorem shaped_lineOf (x : ℝ) : Shaped (lineOf x).config.d (lineOf x).locations := fun loc hloc => by
  obtain rfl := List.mem_singleton.mp (hloc : loc ∈ [freshLocation 0 [x] [x]])
  exact ⟨rfl, rfl⟩

/-- What is activated is the location. -/
theorem activated_lineOf {x : ℝ} {query : List ℝ} {i : ℕ} (hi : i ∈ ((lineOf x).activated query).1) :
    (locationAt (lineOf x).locations i).address = [x] := by
  have hlt : i < 1 := List.mem_range.mp ((activated_activated (indexed_lineOf x) (shaped_lineOf x) query).within i hi)
  obtain rfl : i = 0 := Nat.lt_one_iff.mp hlt
  rfl

/-- A read that finds a unit address. -/
theorem analyzeRead_explains_unit : Explains (lineOf 1) [1] .hopfieldSS :=
  (analyzeRead_explains_iff (indexed_lineOf 1) (shaped_lineOf 1) (by decide) [1] .hopfieldSS).mpr fun _ _ _ i hi => by
    right
    rw [activated_lineOf hi, l2Norm_singleton zero_le_one]
    exact ⟨tiny_lt_one.le, rfl⟩

/-- One that finds an address of norm two: the similarity it reports is 2. -/
theorem analyzeRead_misreports : ∃ (_ : SeededUniform ℝ) (s : Session ℝ ℝ), plainLine.collection.inner.locations = [] ∧
    Step plainLine (.write [2], .ok .done) s ∧ ¬Explains s.collection.inner [1] .hopfieldSS := by
  let _ : SeededUniform ℝ := { uniform := fun _ => 0 }
  refine ⟨{ uniform := fun _ => 0 }, _, rfl, step_of_isOk rfl, ?_⟩
  show ¬Explains (lineOf 2) [1] .hopfieldSS
  rw [explains_single_iff (indexed_lineOf 2) (shaped_lineOf 2) rfl rfl (List.cons_ne_nil _ _)]
  intro hall
  have hsome : 0 ∈ ((lineOf 2).activated [1]).1 := by
    have hactivated := activated_activated (indexed_lineOf 2) (shaped_lineOf 2) [1]
    have hcount : ((lineOf 2).activated [1]).1.length = 1 := hactivated.count
    obtain ⟨i, hi⟩ := List.exists_mem_of_length_pos (hcount ▸ Nat.one_pos)
    obtain rfl : i = 0 := Nat.lt_one_iff.mp (List.mem_range.mp (hactivated.within i hi))
    exact hi
  have hbad := hall 0 hsome
  rw [activated_lineOf hsome, l2Norm_singleton zero_le_two] at hbad
  have hdot : dot [(1 : ℝ)] [2] = 2 := by
    rw [dot, sum_real]
    norm_num
  rw [hdot] at hbad
  norm_num at hbad

end HeatherDb
