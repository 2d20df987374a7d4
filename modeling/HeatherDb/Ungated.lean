/-
# An ungated write

What `adaptive_write_two` changes with its gate off, in exact arithmetic. A
write that spawns leaves address, counter, write count and surprise of every
location as they were and adds one location of its own; a write that joins
adds its counter to the k nearest, at the activation weights, so that the
totals over all locations grow by the sum of the weights (`sum_joinAll`). An
overload split moves half of the winner into the child and keeps the totals
(`sum_split`). Surprise and links are bookkeeping no total sees.

The k nearest are what `nearest` finds: without the f32 copy by `activate`,
with it because its scores are the similarities (`accurate_of`).

Key definitions: `Scan.Of`, `Spawned`, `Joined`.
Key theorems: `dotF32_real`, `activated_nearest`, `sum_joinAll`, `adaptiveWriteTwo_ungated`.
-/
import HeatherDb.Evidence
import HeatherDb.Mixture

namespace HeatherDb

open Scalar Narrow HeatherDb.Valued

/-! ### The search -/

section search

variable {F S : Type} [Scalar F] [Scalar S] [Narrow F S]

/-- No f32 copy, or that of these locations' addresses with a bound on their
norms. -/
def Scan.Of (scan : Scan F S) (locations : List (HardLocation F)) : Prop :=
  scan.matrix = [] ∨ (scan.matrix = locations.flatMap fun loc => loc.address.map toF32) ∧
    ∀ loc ∈ locations, le (l2Norm loc.address) scan.maxNorm = true

variable [Rounded F] [Rounded S] [Widens F S]

/-- An exact answer is one of an activation. -/
theorem Exactly.activated {query : List F} {locations : List (HardLocation F)} {k : ℕ} {r : List ℕ × List F}
    (h : Exactly query locations k r) (hle : k ≤ locations.length) :
    Activated query locations (List.range locations.length) k r := by
  have hnotlt : ∀ {i j}, Before query locations i j →
      lt (similarity query locations i) (similarity query locations j) = false := fun {i j} hij => by
    rw [Bool.eq_false_iff, ne_eq, lt_iff (Rounded.finite _) (Rounded.finite _)]
    exact not_lt.mpr hij.le
  refine
    { count := ?_
      distinct := nodup_of_pairwise_before h.ordered
      within := fun i hi => List.mem_range.mpr (h.within i hi)
      sims := h.sims
      descending := ?_
      best := fun i hi j hj hout => hnotlt (h.best i hi j (List.mem_range.mp hj) hout) }
  · rw [h.count, List.length_range, Nat.min_eq_left hle]
  · rw [h.sims]
    exact List.pairwise_map.mpr (h.ordered.imp fun hij => hnotlt hij)

end search

/-- A loop that adds up. -/
theorem foldl_add_real {α : Type} (f : α → ℝ) :
    ∀ (l : List α) (x : ℝ), l.foldl (fun s a => s + f a) x = x + (l.map f).sum
  | [], x => by simp
  | a :: l, x => by rw [List.foldl_cons, foldl_add_real f l, List.map_cons, List.sum_cons, add_assoc]

/-- Whole chunks of 16 summed lane by lane. -/
theorem sum_lanes (p : List ℝ) : ∀ {q : ℕ}, 16 * q ≤ p.length →
    ((List.range 16).map fun j => ((List.range q).map fun c => p.getD (16 * c + j) 0).sum).sum = (p.take (16 * q)).sum
  | 0, _ => by simp
  | q + 1, h => by
    have hlast : (p.drop (16 * q)).take 16 = (List.range 16).map fun j => p.getD (16 * q + j) 0 := by
      apply List.ext_getElem
      · simp
        omega
      · intro j hj hj'
        have hin : 16 * q + j < p.length := by
          simp at hj
          omega
        simp [List.getElem?_eq_getElem hin]
    have ih := sum_lanes p (q := q) (by omega)
    have hsplit : p.take (16 * (q + 1)) = p.take (16 * q) ++ (p.drop (16 * q)).take 16 := by
      rw [Nat.mul_add, Nat.mul_one, List.take_add]
    rw [hsplit, List.sum_append, ← ih, hlast, ← List.sum_map_add]
    refine congrArg List.sum (List.map_congr_left fun j _ => ?_)
    rw [List.range_succ, List.map_append, List.sum_append, List.map_singleton, List.sum_singleton]

/-- **The 16 accumulators** give the dot product. -/
theorem dotF32_real {a b : List ℝ} (h : a.length = b.length) : dotF32 a b = dot a b := by
  set p := List.zipWith (· * ·) a b with hp
  have hlength : p.length = a.length := by simp [hp, h]
  have hentry : ∀ i, a.getD i 0 * b.getD i 0 = p.getD i 0 := by
    intro i
    by_cases hi : i < a.length
    · have hi' : i < b.length := h ▸ hi
      simp [hp, hi, hi']
    · have hi' : ¬i < b.length := h ▸ hi
      simp [hp, not_lt.mp hi, not_lt.mp hi']
  have hchunks : 16 * (a.length / 16) ≤ p.length := hlength ▸ Nat.mul_div_le _ _
  have hrest : ((List.zip (a.drop (16 * (a.length / 16))) (b.drop (16 * (a.length / 16)))).map fun x => x.1 * x.2) =
      p.drop (16 * (a.length / 16)) := by
    rw [hp, List.drop_zipWith, List.zip, List.map_zipWith]
  have hlanes : ((List.range 16).map fun j => (List.range (a.length / 16)).foldl
      (fun s c => s + a.getD (16 * c + j) (lit 0) * b.getD (16 * c + j) (lit 0)) (lit 0)) =
      (List.range 16).map fun j => ((List.range (a.length / 16)).map fun c => p.getD (16 * c + j) 0).sum := by
    refine List.map_congr_left fun j _ => ?_
    have hzero : (lit 0 : ℝ) = 0 := by simp
    rw [hzero, foldl_add_real, zero_add]
    exact congrArg List.sum (List.map_congr_left fun c _ => hentry _)
  unfold dotF32
  dsimp only
  rw [← h, Nat.min_self, hlanes, sum_real, sum_lanes p hchunks, foldl_add_real, hrest, ← List.sum_append,
    List.take_append_drop, dot, sum_real]

/-- The scores of a copy are the similarities. -/
theorem accurate_of {scan : Scan ℝ ℝ} {query : List ℝ} {locations : List (HardLocation ℝ)} {d : ℕ}
    (hd : ∀ loc ∈ locations, loc.address.length = d) (hquery : query.length = d) (hpos : 0 < d)
    (hmatrix : scan.matrix = locations.flatMap (·.address)) (hnorm : 0 ≤ scan.maxNorm) :
    scan.Accurate query locations := by
  intro i hi
  have hlength : scan.matrix.length = locations.length * query.length := by
    rw [hmatrix, hquery]
    exact length_flatMap_rows hd
  have hscores : (scan.scores query).length = locations.length := length_scores (hquery ▸ hpos) hlength
  have hloc : (locationAt locations i).address.length = d := hd _ (locationAt_mem hi)
  have hrow : rowAt scan.matrix d i = (locationAt locations i).address := by
    rw [hmatrix]
    exact row_flatMap hd (by rw [locationAt, List.getD_eq_getElem _ _ hi, List.getElem?_eq_getElem hi])
  have hscore : scan.score query i = similarity query locations i := by
    have hlt : i < (scan.scores query).length := hscores.symm ▸ hi
    have hqueryLength : ((normalize query).map toF32).length = (locationAt locations i).address.length := by
      rw [List.length_map, length_normalize, hquery, hloc]
    have hsame : (normalize query).map (toF32 : ℝ → ℝ) = normalize query := List.map_id _
    show (scan.scores query).getD i (lit 0) = _
    rw [List.getD_eq_getElem _ _ hlt]
    simp only [Scan.scores, scoreRows, List.getElem_map, List.getElem_range]
    rw [hquery, hrow, dotF32_real hqueryLength, hsame]
    rfl
  have hbound : 0 ≤ scan.bound query := by
    have hquerynorm : 0 ≤ l2Norm (normalize query) := Real.sqrt_nonneg _
    show 0 ≤ (lit (101 / 100) : ℝ) * ((ofUsize query.length + lit 3) * lit (1 / 2 ^ 24) +
      ofUsize query.length * lit (1 / 2 ^ 52)) * l2Norm (normalize query) * scan.maxNorm +
        lit 2 * ofUsize query.length * lit (1 / 2 ^ 126)
    simp only [lit_real, ofUsize_real]
    push_cast
    positivity
  rw [hscore, sub_self, abs_zero]
  exact hbound

/-- **The write search finds the k nearest.** -/
theorem activated_nearest {scan : Scan ℝ ℝ} {query : List ℝ} {locations : List (HardLocation ℝ)} {d k : ℕ}
    (hscan : scan.Of locations) (hshaped : Shaped d locations) (hquery : query.length = d) (hpos : 0 < d)
    (hne : locations ≠ []) (hle : k ≤ locations.length) :
    Activated query locations (List.range locations.length) k (nearest query locations k scan) := by
  have hd : ∀ loc ∈ locations, loc.address.length = d := fun loc hloc => (hshaped loc hloc).1
  by_cases husable : scan.usable locations.length query.length k = true
  · have hparts := husable
    simp only [Scan.usable, Bool.and_eq_true, decide_eq_true_eq] at hparts
    have hk : 0 < k := hparts.1.1.1.1
    have hmatrix : scan.matrix.length = locations.length * query.length := hparts.1.1.2
    rcases hscan with hempty | ⟨hcopy, hnorms⟩
    · -- a copy that is not there does not have the rows
      have hrows : 0 < locations.length * query.length :=
        Nat.mul_pos (List.length_pos_iff.mpr hne) (hquery ▸ hpos)
      rw [hempty, List.length_nil] at hmatrix
      omega
    · obtain ⟨loc, hloc⟩ := List.exists_mem_of_ne_nil locations hne
      have hmax : 0 ≤ scan.maxNorm := (Real.sqrt_nonneg _).trans (le_real.mp (hnorms loc hloc))
      have hsame : (locations.flatMap fun loc => loc.address.map (toF32 : ℝ → ℝ)) = locations.flatMap (·.address) :=
        List.flatMap_congr fun loc _ => List.map_id _
      have haccurate := accurate_of hd hquery hpos (hcopy.trans hsame) hmax
      exact (exactly_nearest hk hle (hquery ▸ hpos) haccurate husable).activated hle
  · have hscanned : nearest query locations k scan = activate query locations k := by
      unfold nearest
      dsimp only
      rw [if_neg husable]
    have hall : ∀ i ∈ List.range locations.length, i < locations.length := fun i hi => List.mem_range.mp hi
    rw [hscanned, activate_eq, scored_eq_entriesOf]
    exact activated_topK (fun _ _ => rfl) hall List.nodup_range k

/-! ### Totals -/

section totals

variable {M : Type} [AddCommGroup M] {μ : HardLocation ℝ → M}

/-- A total after one location was changed. -/
theorem sum_modify {f : HardLocation ℝ → HardLocation ℝ} {m : M} :
    ∀ {ls : List (HardLocation ℝ)} {i : ℕ}, i < ls.length →
    μ (f (locationAt ls i)) = μ (locationAt ls i) + m → ((ls.modify i f).map μ).sum = (ls.map μ).sum + m
  | [], i, hi, _ => by simp at hi
  | loc :: ls, 0, _, h => by
    have hloc : μ (f loc) = μ loc + m := h
    rw [List.modify_zero_cons, List.map_cons, List.sum_cons, List.map_cons, List.sum_cons, hloc]
    abel
  | loc :: ls, i + 1, hi, h => by
    have hrest : ((ls.modify i f).map μ).sum = (ls.map μ).sum + m := sum_modify (Nat.lt_of_succ_lt_succ hi) h
    rw [List.modify_succ_cons, List.map_cons, List.sum_cons, List.map_cons, List.sum_cons, hrest, add_assoc]

/-- A change that a reader does not see. -/
theorem map_modify_of_eq {α β : Type} {μ : α → β} {f : α → α} (h : ∀ a, μ (f a) = μ a) (l : List α) (i : ℕ) :
    (l.modify i f).map μ = l.map μ := by
  apply List.ext_getElem?
  intro j
  simp only [List.getElem?_map, List.getElem?_modify]
  split_ifs <;> cases l[j]? <;> simp [h]

/-- Links are not seen by what does not read them. -/
theorem map_linkAll {β : Type} {μ : HardLocation ℝ → β} (h : ∀ ids nbCap loc, μ (linkPeers ids nbCap loc) = μ loc)
    (indices : List ℕ) (nbCap : ℕ) (locations : List (HardLocation ℝ)) :
    (linkAll indices nbCap locations).map μ = locations.map μ := by
  have hfold : ∀ (ids : List ℕ) (is : List ℕ) (ls : List (HardLocation ℝ)),
      (is.foldl (fun ls i => ls.modify i (linkPeers ids nbCap)) ls).map μ = ls.map μ := by
    intro ids is
    induction is with
    | nil => exact fun ls => rfl
    | cons i is ih =>
      intro ls
      rw [List.foldl_cons, ih]
      exact map_modify_of_eq (h ids nbCap) ls i
  unfold linkAll
  split_ifs with hcap
  · rfl
  · exact hfold _ indices locations

variable [Module ℝ M] {d : ℕ} {address counter : List ℝ} {m : M}

/-- What is read of a location adds up over a write of the counter: a join at
weight `w` adds `w` times the amount written, a split halves it, surprise and
links leave it. -/
structure Tally (d : ℕ) (address counter : List ℝ) (μ : HardLocation ℝ → M) (m : M) : Prop where
  join : ∀ w lr loc, loc.counter.length = d → μ (joinLocation address counter w lr loc) = μ loc + w • m
  surprise : ∀ (loc : HardLocation ℝ) bits, μ { loc with surpriseMass := bits } = μ loc
  links : ∀ ids nbCap loc, μ (linkPeers ids nbCap loc) = μ loc
  parent : ∀ id nbCap loc, loc.counter.length = d → μ (splitParent id nbCap loc) = (2⁻¹ : ℝ) • μ loc
  child : ∀ id nbCap p loc, loc.counter.length = d → μ (splitChild id nbCap p loc) = (2⁻¹ : ℝ) • μ loc

theorem half_real : (lit (1 / 2) : ℝ) = 2⁻¹ := by
  rw [lit_real]
  norm_num

theorem tally_counter (address : List ℝ) (hcounter : counter.length = d) :
    Tally d address counter (fun loc => vec d loc.counter) (vec d counter) where
  join w _ loc hloc := vec_addScaled hloc hcounter w
  surprise _ _ := rfl
  links _ _ _ := rfl
  parent _ _ loc hloc := vec_map (fun x => by rw [half_real, mul_comm]) hloc
  child _ _ _ loc hloc := vec_map (fun x => by rw [half_real, mul_comm]) hloc

theorem tally_writeCount (d : ℕ) (address counter : List ℝ) :
    Tally d address counter (·.writeCount) (1 : ℝ) where
  join w _ loc _ := by
    show loc.writeCount + w = loc.writeCount + w • 1
    rw [smul_eq_mul, mul_one]
  surprise _ _ := rfl
  links _ _ _ := rfl
  parent _ _ loc _ := by
    show loc.writeCount * lit (1 / 2) = 2⁻¹ • loc.writeCount
    rw [half_real, smul_eq_mul, mul_comm]
  child _ _ _ loc _ := by
    show loc.writeCount * lit (1 / 2) = 2⁻¹ • loc.writeCount
    rw [half_real, smul_eq_mul, mul_comm]

/-- **Joining adds the weights**: every activated location takes its share of
what is written. -/
theorem sum_joinAll (h : Tally d address counter μ m) {opts : WriteOpts ℝ} (hgate : opts.gate = false)
    {weights : List ℝ} {indices : List ℕ}
    (hlength : weights.length = indices.length) {locations : List (HardLocation ℝ)} (hshaped : Shaped d locations)
    (hlt : ∀ i ∈ indices, i < locations.length) (winner : ℕ) (etaWinner : ℝ) :
    ((joinAll address counter weights winner etaWinner indices opts locations).map μ).sum =
      (locations.map μ).sum + weights.sum • m := by
  have hfold : ∀ (ps : List (ℕ × ℕ)) (ls : List (HardLocation ℝ)), (∀ p ∈ ps, p.1 < ls.length) → Shaped d ls →
      ((ps.foldl (fun ls p =>
        if opts.gate && p.2 != winner then ls
        else
          let w := if opts.gate then lit 1 else weights.getD p.2 (lit 0)
          let lr := fun writeCount =>
            if opts.gate then lit 1 / writeCount
            else if p.2 = winner then etaWinner else etaWinner * lit (1 / 10)
          ls.modify p.1 (joinLocation address counter w lr)) ls).map μ).sum =
        (ls.map μ).sum + (ps.map fun p => weights.getD p.2 0).sum • m := by
    intro ps
    induction ps with
    | nil => simp
    | cons p ps ih =>
      intro ls hin hls
      have hzero : (lit 0 : ℝ) = 0 := by simp
      have hp : p.1 < ls.length := hin p List.mem_cons_self
      rw [List.foldl_cons]
      simp only [hgate, Bool.false_and, Bool.false_eq_true, if_false, hzero] at ih ⊢
      set lr : ℝ → ℝ := fun _ => if p.2 = winner then etaWinner else etaWinner * lit (1 / 10) with hlr
      have hedit : Edited [p.1] ls (ls.modify p.1 (joinLocation address counter (weights.getD p.2 0) lr)) :=
        Edited.modify List.mem_cons_self ls (joinLocation_shape _ _ _ _)
      have hstep : ((ls.modify p.1 (joinLocation address counter (weights.getD p.2 0) lr)).map μ).sum =
          (ls.map μ).sum + weights.getD p.2 0 • m :=
        sum_modify hp (h.join _ _ _ (hls _ (locationAt_mem hp)).2)
      have hrest : ∀ p' ∈ ps, p'.1 < (ls.modify p.1 (joinLocation address counter (weights.getD p.2 0) lr)).length :=
        fun p' hp' => hedit.length ▸ hin p' (List.mem_cons_of_mem p hp')
      rw [ih _ hrest (hedit.shaped hls), hstep, List.map_cons, List.sum_cons, add_smul, add_assoc]
  have hweights : (indices.zipIdx.map fun p => weights.getD p.2 0) = weights := by
    apply List.ext_getElem (by simp [hlength])
    intro i hi hi'
    simp [List.getElem?_eq_getElem hi']
  have hin : ∀ p ∈ indices.zipIdx, p.1 < locations.length := fun p hp => hlt _ (List.fst_mem_of_mem_zipIdx hp)
  have htotal := hfold indices.zipIdx locations hin hshaped
  rw [hweights] at htotal
  exact htotal

/-- **A split keeps the totals**: parent and child have half each. -/
theorem sum_split (h : Tally d address counter μ m) {ls : List (HardLocation ℝ)} (hshaped : Shaped d ls) {i : ℕ}
    (hi : i < ls.length) (id nbCap : ℕ) (p : List ℝ) :
    ((ls.modify i (splitParent id nbCap) ++ [splitChild id nbCap p (locationAt ls i)]).map μ).sum = (ls.map μ).sum := by
  have hcounter := (hshaped _ (locationAt_mem hi)).2
  have hhalf : μ (splitParent id nbCap (locationAt ls i)) =
      μ (locationAt ls i) + -((2⁻¹ : ℝ) • μ (locationAt ls i)) := by
    rw [h.parent _ _ _ hcounter]
    module
  rw [List.map_append, List.sum_append, sum_modify hi hhalf, List.map_singleton, List.sum_singleton,
    h.child _ _ _ _ hcounter, neg_add_cancel_right]

end totals

/-! ### Spawning or joining -/

/-- A spawn leaves what every location stores and adds the write as a location
of its own. -/
structure Spawned (address counter : List ℝ) (locations : List (HardLocation ℝ)) (w : Written ℝ) : Prop where
  kept : (w.locations.map fun loc => (loc.id, loc.address, loc.counter, loc.writeCount, loc.surpriseMass)) =
    locations.map fun loc => (loc.id, loc.address, loc.counter, loc.writeCount, loc.surpriseMass)
  added : ∃ child, w.result.newLocations = [child] ∧ child.address = normalize address ∧ child.counter = counter ∧
    child.writeCount = 1

/-- A join adds the weights' share of the write to the totals, a possible
child of a split included. -/
structure Joined (d : ℕ) (counter weights : List ℝ) (locations : List (HardLocation ℝ)) (w : Written ℝ) : Prop where
  counters : ((w.locations ++ w.result.newLocations).map fun loc => vec d loc.counter).sum =
    (locations.map fun loc => vec d loc.counter).sum + weights.sum • vec d counter
  writeCounts : ((w.locations ++ w.result.newLocations).map (·.writeCount)).sum =
    (locations.map (·.writeCount)).sum + weights.sum
  few : w.result.newLocations.length ≤ 1

section write

variable {d : ℕ} {address counter : List ℝ} {locations : List (HardLocation ℝ)} {config : EAMConfig ℝ}
  {opts : WriteOpts ℝ} {indices : List ℕ} {sims : List ℝ}

theorem selectWinner_ungated (hgate : opts.gate = false) : selectWinner counter config locations indices sims opts =
    (conscienceWinner config locations indices sims, false) := by
  unfold selectWinner
  rw [hgate, if_neg Bool.false_ne_true]

/-- A write that spawns. -/
theorem spawned_competitiveWrite (hgate : opts.gate = false)
    (hspawn : spawnNovelty config locations.length (sims.headD (lit 0)) false opts = true) (eta : ℝ) (nextId : ℕ)
    (rng : Rng ℝ) : Spawned address counter locations
      (competitiveWrite address counter locations config eta nextId rng opts indices sims) := by
  have hone : (lit 1 : ℝ) = 1 := by simp
  unfold competitiveWrite
  rw [selectWinner_ungated hgate]
  dsimp only
  rw [hspawn, Bool.not_true, Bool.and_false, if_neg Bool.false_ne_true, if_pos rfl, if_pos rfl]
  refine ⟨?_, _, rfl, rfl, rfl, hone⟩
  exact map_linkAll (fun _ _ _ => rfl) indices _ locations

/-- What a joining write adds to a total. -/
theorem sum_competitiveWrite {M : Type} [AddCommGroup M] [Module ℝ M] {μ : HardLocation ℝ → M} {m : M}
    (h : Tally d address counter μ m) (hgate : opts.gate = false)
    (hspawn : spawnNovelty config locations.length (sims.headD (lit 0)) false opts = false)
    (hne : indices ≠ []) (hlt : ∀ i ∈ indices, i < locations.length) (hshaped : Shaped d locations)
    (hsims : sims.length = indices.length) (eta : ℝ) (nextId : ℕ) (rng : Rng ℝ) :
    (((competitiveWrite address counter locations config eta nextId rng opts indices sims).locations ++
      (competitiveWrite address counter locations config eta nextId rng opts indices sims).result.newLocations).map
        μ).sum = (locations.map μ).sum + (activationWeights sims (min config.k locations.length)).sum • m := by
  set winner := conscienceWinner config locations indices sims with hwinner
  have hwin : winner < indices.length := by
    have hlt : (selectWinner counter config locations indices sims opts).1 < indices.length := selectWinner_lt hne
    rwa [selectWinner_ungated hgate] at hlt
  have hmem : indices.getD winner 0 ∈ indices := by
    rw [List.getD_eq_getElem indices 0 hwin]
    exact List.getElem_mem hwin
  have hweights : (activationWeights sims (min config.k locations.length)).length = indices.length := by
    unfold activationWeights
    dsimp only
    split_ifs <;> simp [hsims]
  unfold competitiveWrite
  rw [selectWinner_ungated hgate]
  dsimp only
  rw [hspawn, ← hwinner, Bool.not_false, Bool.and_true, if_neg Bool.false_ne_true, if_neg Bool.false_ne_true]
  set etaWinner := eta / (lit 1 + (locationAt locations (indices.getD winner 0)).writeCount / config.tauDamp)
  set joined := joinAll address counter (activationWeights sims (min config.k locations.length)) winner etaWinner
    indices opts locations with hjoined
  have hjoinedEdit : Edited indices locations joined := joinAll_edited _ _ _ _ _ _ _ _
  have htotal : (joined.map μ).sum =
      (locations.map μ).sum + (activationWeights sims (min config.k locations.length)).sum • m :=
    sum_joinAll h hgate hweights hshaped hlt winner etaWinner
  set surprised := if config.mdlGate = true then
      joined.modify (indices.getD winner 0) fun loc =>
        { loc with surpriseMass := loc.surpriseMass + surpriseBits (sims.getD winner (lit 0)) }
    else joined with hsurprised
  have hsurprisedEdit : Edited indices locations surprised := by
    rw [hsurprised]
    split_ifs
    · exact hjoinedEdit.trans (Edited.modify hmem _ fun _ => rfl)
    · exact hjoinedEdit
  have hsurprise : surprised.map μ = joined.map μ := by
    rw [hsurprised]
    split_ifs
    · exact map_modify_of_eq (fun loc => h.surprise loc _) _ _
    · rfl
  set nbCap := config.adaptiveNeighborCap locations.length
  set linked := linkAll indices nbCap surprised
  have hedit : Edited indices locations linked := hsurprisedEdit.trans (linkAll_edited _ _ _)
  have hlinked : (linked.map μ).sum =
      (locations.map μ).sum + (activationWeights sims (min config.k locations.length)).sum • m := by
    rw [map_linkAll h.links, hsurprise, htotal]
  have hin : indices.getD winner 0 < linked.length := hedit.length ▸ hlt _ hmem
  by_cases hfull : overloaded config locations.length (locationAt linked (indices.getD winner 0)) = true
  · rw [if_pos hfull]
    exact (sum_split h (hedit.shaped hshaped) hin nextId nbCap _).trans hlinked
  · rw [if_neg hfull]
    simpa using hlinked

/-- A created location's id is the next, and the counter counts them. -/
theorem WriteFrame.ids {locations : List (HardLocation ℝ)} {nextId d : ℕ} {w : Written ℝ}
    (h : WriteFrame locations nextId d w) :
    w.result.newLocations.map (·.id) = List.range' nextId w.result.newLocations.length ∧
      w.nextId = nextId + w.result.newLocations.length := by
  rcases h.created with ⟨hnone, hid⟩ | ⟨loc, hone, hid, hnext, -⟩
  · rw [hnone]
    exact ⟨rfl, hid⟩
  · rw [hone]
    exact ⟨congrArg (fun id => [id]) hid, hnext⟩

/-- A write that joins. -/
theorem joined_ungated (hgate : opts.gate = false)
    (hspawn : spawnNovelty config locations.length (sims.headD (lit 0)) false opts = false) (hne : indices ≠ [])
    (hlt : ∀ i ∈ indices, i < locations.length) (hshaped : Shaped config.d locations)
    (hcounter : counter.length = config.d) (hsims : sims.length = indices.length) {eta : ℝ} {nextId : ℕ} {rng : Rng ℝ}
    (hframe : WriteFrame locations nextId config.d
      (competitiveWrite address counter locations config eta nextId rng opts indices sims)) :
    Joined config.d counter (activationWeights sims (min config.k locations.length)) locations
      (competitiveWrite address counter locations config eta nextId rng opts indices sims) := by
  have hcounts := sum_competitiveWrite (tally_writeCount config.d address counter) hgate hspawn hne hlt hshaped hsims
    eta nextId rng
  refine ⟨sum_competitiveWrite (tally_counter address hcounter) hgate hspawn hne hlt hshaped hsims eta nextId rng, ?_, ?_⟩
  · rw [hcounts, smul_eq_mul, mul_one]
  · rcases hframe.created with ⟨hnone, -⟩ | ⟨loc, hsome, -⟩
    · simp [hnone]
    · simp [hsome]

/-- A competitive write that nothing is activated for. -/
theorem adaptiveWriteTwo_cold (hcompetitive : config.competitive = true) {scan : Scan ℝ ℝ}
    (hcold : (nearest address locations (min config.k locations.length) scan).1 = []) (eta : ℝ) (nextId : ℕ)
    (rng : Rng ℝ) (opts : WriteOpts ℝ) : adaptiveWriteTwo address counter locations config eta nextId rng scan opts =
      ⟨⟨[], [freshLocation nextId (normalize address) counter], eta⟩, locations, nextId + 1, rng⟩ := by
  unfold adaptiveWriteTwo
  rw [hcompetitive, Bool.not_true, if_neg Bool.false_ne_true]
  dsimp only
  rw [if_pos (List.isEmpty_iff.mpr hcold)]

/-- One that something is activated for. -/
theorem adaptiveWriteTwo_warm (hcompetitive : config.competitive = true) {scan : Scan ℝ ℝ}
    (hwarm : (nearest address locations (min config.k locations.length) scan).1 ≠ []) (eta : ℝ) (nextId : ℕ)
    (rng : Rng ℝ) (opts : WriteOpts ℝ) : adaptiveWriteTwo address counter locations config eta nextId rng scan opts =
      competitiveWrite address counter locations config eta nextId rng opts
        (nearest address locations (min config.k locations.length) scan).1
        (nearest address locations (min config.k locations.length) scan).2 := by
  unfold adaptiveWriteTwo
  rw [hcompetitive, Bool.not_true, if_neg Bool.false_ne_true]
  dsimp only
  rw [if_neg (mt List.isEmpty_iff.mp hwarm)]

/-- **What an ungated write may change**: it spawns, and every location keeps
what it stores, or it joins, and the totals grow by the weights' share of the
write; only the k nearest locations change and new ids are the next. -/
theorem adaptiveWriteTwo_ungated {config : EAMConfig ℝ} (hcompetitive : config.competitive = true)
    (hpos : 0 < config.d) {locations : List (HardLocation ℝ)} (hne : locations ≠ [])
    (hshaped : Shaped config.d locations) {address counter : List ℝ} (haddress : address.length = config.d)
    (hcounter : counter.length = config.d) {scan : Scan ℝ ℝ} (hscan : scan.Of locations) {opts : WriteOpts ℝ}
    (hgate : opts.gate = false) (eta : ℝ) (nextId : ℕ) (rng : Rng ℝ) :
    let k := min config.k locations.length
    let activated := nearest address locations k scan
    let w := adaptiveWriteTwo address counter locations config eta nextId rng scan opts
    (Spawned address counter locations w ∨
        Joined config.d counter (activationWeights activated.2 k) locations w) ∧
      Activated address locations (List.range locations.length) k activated ∧
      (∀ i, i ∉ activated.1 → w.locations[i]? = locations[i]?) ∧
      w.locations.map (·.id) = locations.map (·.id) ∧
      w.result.newLocations.map (·.id) = List.range' nextId w.result.newLocations.length ∧
      w.nextId = nextId + w.result.newLocations.length := by
  intro k activated w
  have hframe : WriteFrame locations nextId config.d w :=
    adaptiveWriteTwo_frame address counter locations config eta nextId rng scan opts hshaped haddress hcounter
  have hactivated : Activated address locations (List.range locations.length) k activated :=
    activated_nearest hscan hshaped haddress hpos hne (Nat.min_le_right _ _)
  have hone : (lit 1 : ℝ) = 1 := by simp
  suffices hsplit : (Spawned address counter locations w ∨
      Joined config.d counter (activationWeights activated.2 k) locations w) ∧
      ∀ i, i ∉ activated.1 → w.locations[i]? = locations[i]? from
    ⟨hsplit.1, hactivated, hsplit.2, hframe.edited.ids, hframe.ids⟩
  by_cases hcold : activated.1 = []
  · -- nothing is activated where the config asks for no neighbor
    have hw : w = ⟨⟨[], [freshLocation nextId (normalize address) counter], eta⟩, locations, nextId + 1, rng⟩ :=
      adaptiveWriteTwo_cold hcompetitive hcold eta nextId rng opts
    rw [hw]
    exact ⟨Or.inl ⟨rfl, _, rfl, rfl, rfl, hone⟩, fun _ _ => rfl⟩
  · have hw : w = competitiveWrite address counter locations config eta nextId rng opts activated.1 activated.2 :=
      adaptiveWriteTwo_warm hcompetitive hcold eta nextId rng opts
    have hlt : ∀ i ∈ activated.1, i < locations.length := fun i hi => List.mem_range.mp (hactivated.within i hi)
    have hsims : activated.2.length = activated.1.length := by
      rw [hactivated.sims, List.length_map]
    have hmodified : w.result.modifiedIndices = activated.1 := by
      rw [hw]
      unfold competitiveWrite
      dsimp only
      split_ifs <;> rfl
    refine ⟨?_, fun i hi => hframe.edited.frame i (hmodified ▸ hi)⟩
    cases hspawn : spawnNovelty config locations.length (activated.2.headD (lit 0)) false opts with
    | true =>
      rw [hw]
      exact Or.inl (spawned_competitiveWrite hgate hspawn eta nextId rng)
    | false =>
      rw [hw] at hframe ⊢
      exact Or.inr (joined_ungated hgate hspawn hcold hlt hshaped hcounter hsims hframe)

end write

/-- A memory whose writes compete. -/
noncomputable def competing : EAMConfig ℝ := { realConfig with competitive := true }

/-- Two opposite locations. -/
noncomputable def facingPair : List (HardLocation ℝ) := [writtenOnce 0 [1] [1], writtenOnce 1 [-1] [-1]]

theorem facingPair_ne_nil : facingPair ≠ [] := List.cons_ne_nil _ _

theorem shaped_facingPair : Shaped 1 facingPair := by
  intro loc hloc
  simp only [facingPair, List.mem_cons, List.not_mem_nil, or_false] at hloc
  rcases hloc with rfl | rfl <;> exact ⟨rfl, rfl⟩

theorem similarity_facingPair : similarity [1] facingPair 0 = 1 ∧ similarity [1] facingPair 1 = -1 := by
  unfold similarity
  rw [normalize_unit (one_mul 1)]
  simp [facingPair, locationAt, writtenOnce, dot, sum_real]

/-- Both are activated, the nearer one first. -/
theorem activated_facingPair {r : List ℕ × List ℝ} (h : Activated [1] facingPair (List.range 2) 2 r) :
    r = ([0, 1], [1, -1]) := by
  obtain ⟨indices, sims⟩ := r
  obtain ⟨i, j, rfl⟩ := List.length_eq_two.mp h.count
  have hi := List.mem_range.mp (h.within i List.mem_cons_self)
  have hj := List.mem_range.mp (h.within j (List.mem_cons_of_mem _ List.mem_cons_self))
  have hij : i ≠ j := by simpa using h.distinct
  have hsims : sims = [similarity [1] facingPair i, similarity [1] facingPair j] := h.sims
  have hlt := h.descending
  obtain ⟨hzero, hone⟩ := similarity_facingPair
  rcases (by omega : i = 0 ∧ j = 1 ∨ i = 1 ∧ j = 0) with ⟨rfl, rfl⟩ | ⟨rfl, rfl⟩
  · rw [hsims, hzero, hone]
  · -- the other way round they would ascend
    rw [show (([1, 0], sims) : List ℕ × List ℝ).2 = [-1, 1] by rw [hsims, hzero, hone]] at hlt
    have hnot : lt (-1 : ℝ) 1 = false := by simpa using hlt
    rw [Bool.eq_false_iff, ne_eq, lt_real] at hnot
    exact absurd (by norm_num) hnot

/-- A write at one of two opposite locations joins both, the other at no weight. -/
theorem adaptiveWriteTwo_ungated_facing :
    let w := adaptiveWriteTwo [1] [1] facingPair competing 1 2 (fun _ => 0) (⟨[], 0⟩ : Scan ℝ ℝ) .default
    Joined 1 [1] (activationWeights [1, -1] 2) facingPair w ∧ w.locations.map (·.id) = [0, 1] ∧
      w.nextId = 2 + w.result.newLocations.length := by
  intro w
  have hcompetitive : competing.competitive = true := rfl
  have hscan : (⟨[], 0⟩ : Scan ℝ ℝ).Of facingPair := Or.inl rfl
  have h := adaptiveWriteTwo_ungated hcompetitive Nat.one_pos facingPair_ne_nil shaped_facingPair
    (rfl : [(1 : ℝ)].length = 1) (rfl : [(1 : ℝ)].length = 1) hscan (rfl : (.default : WriteOpts ℝ).gate = false) 1 2
    fun _ => 0
  have hnearest : nearest [1] facingPair (min competing.k facingPair.length) (⟨[], 0⟩ : Scan ℝ ℝ) = ([0, 1], [1, -1]) :=
    activated_facingPair h.2.1
  have hw : w = competitiveWrite [1] [1] facingPair competing 1 2 (fun _ => 0) .default [0, 1] [1, -1] := by
    have hwarm : w = _ := adaptiveWriteTwo_warm hcompetitive (by rw [hnearest]; exact List.cons_ne_nil _ _) 1 2
      (fun _ => 0) .default
    rw [hwarm, hnearest]
  have hframe : WriteFrame facingPair 2 competing.d w := adaptiveWriteTwo_frame _ _ _ _ _ _ _ _ _ shaped_facingPair rfl rfl
  have hspawn : spawnNovelty competing facingPair.length (1 : ℝ) false .default = false := by
    have htau : ¬(1 : ℝ) < 3 / 10 := by norm_num
    exact decide_eq_false htau
  refine ⟨?_, h.2.2.2.1, h.2.2.2.2.2⟩
  rw [hw] at hframe ⊢
  refine joined_ungated rfl hspawn (List.cons_ne_nil _ _) (fun i hi => ?_) shaped_facingPair rfl rfl hframe
  simp only [List.mem_cons, List.not_mem_nil, or_false] at hi
  rcases hi with rfl | rfl <;> decide

end HeatherDb
