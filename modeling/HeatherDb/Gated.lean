/-
# A gated write

What `adaptive_write_two` changes with its gate on, in exact arithmetic. The
gate looks among the k nearest locations at those of at least `tau_split`
address similarity, and of these at the one whose stored counter has the
greatest cosine with the new one (`Coheres`). If that reaches `tau_cohere` the
location alone joins, at weight one (`JoinedOne`); what a split does afterwards
it does to this location's evidence. Otherwise the write spawns as an ungated
one does.

A loop over positions that skips all but the winner changes the winner
(`joinAll_gated`); the rest of a write does not see who won.

Key definitions: `coherence`, `Coheres`, `JoinedOne`.
Key theorems: `maxBy_best`, `joinAll_gated`, `adaptiveWriteTwo_gated`.
-/
import HeatherDb.Ungated

namespace HeatherDb

open Scalar Narrow

/-! ### The winner -/

theorem partialCmp_gt_real {x y : ℝ} : partialCmp x y = .gt ↔ y < x := by
  unfold partialCmp
  by_cases hlt : x < y
  · rw [if_pos (lt_real.mpr hlt)]
    exact iff_of_false nofun hlt.not_gt
  · rw [if_neg (mt lt_real.mp hlt)]
    by_cases hgt : y < x
    · rw [if_pos (lt_real.mpr hgt)]
      exact iff_of_true rfl hgt
    · rw [if_neg (mt lt_real.mp hgt)]
      exact iff_of_false nofun hgt

/-- **A last greatest element** is a greatest. -/
theorem maxBy_best {α : Type} {f : α → ℝ} : ∀ {l : List α} {m : α},
    maxBy (fun a b => partialCmp (f a) (f b)) l = some m → ∀ x ∈ l, f x ≤ f m
  | x :: xs, m, h => by
    have hfold : ∀ (ys : List α) (b : α), ∀ y ∈ b :: ys,
        f y ≤ f (ys.foldl (fun best y => if partialCmp (f best) (f y) = .gt then best else y) b) := by
      intro ys
      induction ys with
      | nil => exact fun b y hy => (List.mem_singleton.mp hy) ▸ le_rfl
      | cons z ys ih =>
        intro b y hy
        rw [List.foldl_cons]
        by_cases hz : f z < f b
        · rw [if_pos (partialCmp_gt_real.mpr hz)]
          rcases List.mem_cons.mp hy with rfl | hy
          · exact ih y y List.mem_cons_self
          rcases List.mem_cons.mp hy with rfl | hy
          · exact hz.le.trans (ih b b List.mem_cons_self)
          · exact ih b y (List.mem_cons_of_mem b hy)
        · rw [if_neg (mt partialCmp_gt_real.mp hz)]
          rcases List.mem_cons.mp hy with rfl | hy
          · exact (not_lt.mp hz).trans (ih z z List.mem_cons_self)
          · exact ih z y hy
    intro y hy
    obtain rfl := Option.some.inj h
    exact hfold xs x y hy

theorem maxBy_eq_none {α : Type} {cmp : α → α → Ordering} {l : List α} : maxBy cmp l = none ↔ l = [] := by
  cases l with
  | nil => exact iff_of_true rfl rfl
  | cons x xs => exact iff_of_false nofun (List.cons_ne_nil _ _)

/-- A cosine does not see that a vector was normalized. -/
theorem cosineSimilarity_normalize {d : ℕ} (a : List ℝ) {b : List ℝ} (ha : a.length = d) (hb : b.length = d) :
    cosineSimilarity a (normalize b) = cosineSimilarity a b := by
  rcases lt_or_ge ‖vec d b‖ tiny with hsmall | hlarge
  · rw [vec_normalize_of_lt hb hsmall]
  · have hunit : l2Norm (normalize b) = 1 := by
      rw [l2Norm_eq_norm ((length_normalize b).trans hb), norm_vec_normalize hb hlarge]
    have hnorm : l2Norm b = ‖vec d b‖ := l2Norm_eq_norm hb
    have hpos : 0 < ‖vec d b‖ := tiny_pos.trans_le hlarge
    have hone : lt (1 : ℝ) (lit (1 / 10 ^ 12)) = false := by
      rw [lit_tiny, Bool.eq_false_iff, ne_eq, lt_real]
      exact tiny_lt_one.not_gt
    have hbig : lt ‖vec d b‖ (lit (1 / 10 ^ 12)) = false := by
      rw [lit_tiny, Bool.eq_false_iff, ne_eq, lt_real, not_lt]
      exact hlarge
    unfold cosineSimilarity
    rw [hunit, hnorm, hone, hbig]
    refine if_congr Iff.rfl rfl ?_
    rw [dot_eq_inner ha ((length_normalize b).trans hb), dot_eq_inner ha hb, vec_normalize hb hlarge, inner_smul_right]
    field_simp

/-- How the stored counter of a location coheres with a new one. -/
noncomputable def coherence (counter : List ℝ) (locations : List (HardLocation ℝ)) (i : ℕ) : ℝ :=
  cosineSimilarity (locationAt locations i).counter counter

/-- Location `i` shares the write's context, of those near that do it coheres
best, and well enough. -/
structure Coheres (address counter : List ℝ) (locations : List (HardLocation ℝ)) (opts : WriteOpts ℝ)
    (indices : List ℕ) (i : ℕ) : Prop where
  near : i ∈ indices
  close : opts.tauSplit ≤ similarity address locations i
  best : ∀ j ∈ indices, opts.tauSplit ≤ similarity address locations j →
    coherence counter locations j ≤ coherence counter locations i
  coheres : opts.tauCohere ≤ coherence counter locations i

variable {d : ℕ} {address counter : List ℝ} {locations : List (HardLocation ℝ)} {opts : WriteOpts ℝ}
  {indices : List ℕ} {sims : List ℝ}

/-- **The gated winner** coheres, or the write is to spawn and nothing does. -/
theorem gatedWinner_spec (opts : WriteOpts ℝ) (hshaped : Shaped d locations) (hcounter : counter.length = d)
    (hlt : ∀ i ∈ indices, i < locations.length) (hsims : sims = indices.map (similarity address locations)) :
    let r := gatedWinner counter locations indices sims opts
    (r.2 = false ∧ r.1 < indices.length ∧ Coheres address counter locations opts indices (indices.getD r.1 0)) ∨
      (r.2 = true ∧ ∀ i, ¬Coheres address counter locations opts indices i) := by
  have hone : ∀ li < indices.length,
      sims.getD li (lit 0) = similarity address locations (indices.getD li 0) := by
    intro li hli
    rw [hsims, List.getD_eq_getElem _ _ (by simpa using hli), List.getElem_map, List.getD_eq_getElem _ _ hli]
  have hcoherence : ∀ li < indices.length,
      cosineSimilarity (locationAt locations (indices.getD li 0)).counter (normalize counter) =
        coherence counter locations (indices.getD li 0) := by
    intro li hli
    refine cosineSimilarity_normalize _ (hshaped _ (locationAt_mem (hlt _ ?_))).2 hcounter
    rw [List.getD_eq_getElem _ _ hli]
    exact List.getElem_mem hli
  have hplace : ∀ i ∈ indices, ∃ li < indices.length, indices.getD li 0 = i := by
    intro i hi
    obtain ⟨li, hli, rfl⟩ := List.getElem_of_mem hi
    exact ⟨li, hli, List.getD_eq_getElem _ _ hli⟩
  set strong := (List.range indices.length).filter fun li => le opts.tauSplit (sims.getD li (lit 0)) with hstrong
  have hmem : ∀ li, li ∈ strong ↔
      li < indices.length ∧ opts.tauSplit ≤ similarity address locations (indices.getD li 0) := by
    intro li
    rw [hstrong, List.mem_filter, List.mem_range]
    refine and_congr_right fun hli => ?_
    rw [hone li hli, le_real]
  intro r
  have hr : r = gatedWinner counter locations indices sims opts := rfl
  rw [gatedWinner] at hr
  dsimp only at hr
  rw [← hstrong] at hr
  cases hbest : maxBy (fun a b => partialCmp
      (cosineSimilarity (locationAt locations (indices.getD a 0)).counter (normalize counter))
      (cosineSimilarity (locationAt locations (indices.getD b 0)).counter (normalize counter))) strong with
  | none =>
    rw [hbest] at hr
    refine Or.inr ⟨by rw [hr], fun i hi => ?_⟩
    obtain ⟨li, hli, rfl⟩ := hplace i hi.near
    have hin := (hmem li).mpr ⟨hli, hi.close⟩
    rw [maxBy_eq_none.mp hbest] at hin
    cases hin
  | some best =>
    rw [hbest] at hr
    dsimp only at hr
    obtain ⟨hlt', hclose⟩ := (hmem best).mp (maxBy_mem hbest)
    have hgreatest : ∀ j ∈ indices, opts.tauSplit ≤ similarity address locations j →
        coherence counter locations j ≤ coherence counter locations (indices.getD best 0) := by
      intro j hj hclose
      obtain ⟨lj, hlj, rfl⟩ := hplace j hj
      have hle := maxBy_best hbest lj ((hmem lj).mpr ⟨hlj, hclose⟩)
      rwa [hcoherence lj hlj, hcoherence best hlt'] at hle
    rw [hcoherence best hlt'] at hr
    by_cases hcohere : coherence counter locations (indices.getD best 0) < opts.tauCohere
    · refine Or.inr ⟨by rw [hr]; exact lt_real.mpr hcohere, fun i hi => ?_⟩
      exact (hi.coheres.trans (hgreatest i hi.near hi.close)).not_gt hcohere
    · refine Or.inl ⟨by rw [hr]; exact Bool.eq_false_iff.mpr (mt lt_real.mp hcohere), by rw [hr]; exact hlt', ?_⟩
      rw [hr]
      exact ⟨by rw [List.getD_eq_getElem _ _ hlt']; exact List.getElem_mem hlt', hclose, hgreatest,
        not_lt.mp hcohere⟩

/-! ### Joining one -/

/-- A loop over positions that skips all but one. -/
theorem foldl_zipIdx_one {α β : Type} {f : β → α → β} {w : ℕ} : ∀ (l : List α) (n : ℕ) (b : β) (x : α),
    n ≤ w → l[w - n]? = some x →
    (l.zipIdx n).foldl (fun b p => if (p.2 != w) = true then b else f b p.1) b = f b x
  | [], _, _, _, _, h => by simp at h
  | a :: l, n, b, x, hn, h => by
    rw [List.zipIdx_cons, List.foldl_cons]
    rcases hn.eq_or_lt with rfl | hlt
    · -- the rest comes after it
      have hrest : ∀ (l : List α) (m : ℕ) (b : β), n < m →
          (l.zipIdx m).foldl (fun b p => if (p.2 != n) = true then b else f b p.1) b = b := by
        intro l
        induction l with
        | nil => exact fun _ _ _ => rfl
        | cons c l ih =>
          intro m b hm
          rw [List.zipIdx_cons, List.foldl_cons, if_pos (by simpa using hm.ne')]
          exact ih (m + 1) b (Nat.lt_succ_of_lt hm)
      rw [Nat.sub_self, List.getElem?_cons_zero] at h
      obtain rfl := Option.some.inj h
      rw [if_neg (by simp), hrest l (n + 1) _ (Nat.lt_succ_self n)]
    · have hat : w - n = (w - (n + 1)) + 1 := by omega
      rw [hat, List.getElem?_cons_succ] at h
      rw [if_pos (by simpa using hlt.ne)]
      exact foldl_zipIdx_one l (n + 1) b x hlt h

/-- **Under the gate only the winner joins.** -/
theorem joinAll_gated (hgate : opts.gate = true) {winner : ℕ} (hwinner : winner < indices.length)
    (weights : List ℝ) (etaWinner : ℝ) : joinAll address counter weights winner etaWinner indices opts locations =
      locations.modify (indices.getD winner 0) (joinLocation address counter 1 fun writeCount => 1 / writeCount) := by
  have hone : (lit 1 : ℝ) = 1 := by simp
  have hat : indices[winner - 0]? = some (indices.getD winner 0) := by
    rw [Nat.sub_zero, List.getD_eq_getElem _ _ hwinner, List.getElem?_eq_getElem hwinner]
  unfold joinAll
  simp only [hgate, Bool.true_and, if_true, hone]
  exact foldl_zipIdx_one (f := fun ls i =>
    ls.modify i (joinLocation address counter 1 fun writeCount => 1 / writeCount))
    indices 0 locations _ (Nat.zero_le _) hat

theorem locationAt_modify_self {ls : List (HardLocation ℝ)} {i : ℕ} (hi : i < ls.length)
    (f : HardLocation ℝ → HardLocation ℝ) : locationAt (ls.modify i f) i = f (locationAt ls i) := by
  rw [locationAt, locationAt, List.getD_eq_getElem _ _ (by simpa using hi), List.getD_eq_getElem _ _ hi,
    List.getElem_modify_eq]

/-- What two lists of locations show alike they show alike at every index. -/
theorem locationAt_of_map {β : Type} {μ : HardLocation ℝ → β} {ls ls' : List (HardLocation ℝ)}
    (h : ls.map μ = ls'.map μ) {i : ℕ} (hi : i < ls.length) : μ (locationAt ls i) = μ (locationAt ls' i) := by
  have hlength : ls.length = ls'.length := by simpa using congrArg List.length h
  have hi' : i < ls'.length := hlength ▸ hi
  have hat := congrArg (·[i]?) h
  simp only [List.getElem?_map, List.getElem?_eq_getElem hi, List.getElem?_eq_getElem hi', Option.map_some,
    Option.some.injEq] at hat
  rwa [locationAt, locationAt, List.getD_eq_getElem _ _ hi, List.getD_eq_getElem _ _ hi']

/-- What a location is known by and stores. -/
def kept (loc : HardLocation ℝ) : ℕ × List ℝ × List ℝ × ℝ := (loc.id, loc.address, loc.counter, loc.writeCount)

/-- Location `i` alone takes the counter, at weight one, and moves to the mean
of its writes; a child of a split has half of its evidence. -/
structure JoinedOne (address counter : List ℝ) (locations : List (HardLocation ℝ)) (i : ℕ) (w : Written ℝ) : Prop where
  others : ∀ j, j ≠ i → (w.locations[j]?).map kept = (locations[j]?).map kept
  moved : (locationAt w.locations i).address = normalize (addScaled (locationAt locations i).address
    (List.zipWith (fun x a => x - a) address (locationAt locations i).address)
    (1 / ((locationAt locations i).writeCount + 1)))
  evidence : (w.result.newLocations = [] ∧
      (locationAt w.locations i).counter = addScaled (locationAt locations i).counter counter 1 ∧
      (locationAt w.locations i).writeCount = (locationAt locations i).writeCount + 1) ∨
    ∃ child, w.result.newLocations = [child] ∧
      List.zipWith (· + ·) (locationAt w.locations i).counter child.counter =
        addScaled (locationAt locations i).counter counter 1 ∧
      (locationAt w.locations i).writeCount + child.writeCount = (locationAt locations i).writeCount + 1 ∧
      (locationAt w.locations i).counter = child.counter ∧
      (locationAt w.locations i).writeCount = child.writeCount

variable {config : EAMConfig ℝ}

/-- A gated write that does not spawn. -/
theorem joined_competitiveWrite (hgate : opts.gate = true) (hlt : ∀ i ∈ indices, i < locations.length)
    (hjoins : (gatedWinner counter locations indices sims opts).2 = false)
    (hwinner : (gatedWinner counter locations indices sims opts).1 < indices.length) (eta : ℝ) (nextId : ℕ)
    (rng : Rng ℝ) : JoinedOne address counter locations
      (indices.getD (gatedWinner counter locations indices sims opts).1 0)
      (competitiveWrite address counter locations config eta nextId rng opts indices sims) := by
  set winner := (gatedWinner counter locations indices sims opts).1 with hwin
  set i := indices.getD winner 0 with hi
  have hmem : i ∈ indices := by
    rw [hi, List.getD_eq_getElem _ _ hwinner]
    exact List.getElem_mem hwinner
  have hin : i < locations.length := hlt i hmem
  have hselect : selectWinner counter config locations indices sims opts =
      gatedWinner counter locations indices sims opts := by
    unfold selectWinner
    rw [if_pos hgate]
  have hspawn : spawnNovelty config locations.length (sims.headD (lit 0)) false opts = false := by
    unfold spawnNovelty
    rw [if_pos hgate]
  unfold competitiveWrite
  rw [hselect]
  dsimp only
  rw [hjoins, hspawn, ← hwin, ← hi, Bool.not_false, Bool.and_true, if_neg Bool.false_ne_true,
    if_neg Bool.false_ne_true, joinAll_gated hgate hwinner, ← hi]
  set f := joinLocation address counter 1 (fun writeCount : ℝ => 1 / writeCount) with hf
  set joined := locations.modify i f with hjoined
  set surprised := if config.mdlGate = true then
      joined.modify i fun loc => { loc with surpriseMass := loc.surpriseMass + surpriseBits (sims.getD winner (lit 0)) }
    else joined with hsurprised
  set nbCap := config.adaptiveNeighborCap locations.length
  set linked := linkAll indices nbCap surprised with hlinked
  -- what the write leaves of the stored parts, before a split
  have hstored : linked.map kept = joined.map kept := by
    rw [hlinked, map_linkAll (fun _ _ _ => rfl : ∀ ids nbCap loc, kept (linkPeers ids nbCap loc) = kept loc),
      hsurprised]
    split_ifs
    · apply map_modify_of_eq
      exact fun _ => rfl
    · rfl
  have hlength : linked.length = locations.length := by
    have heq := congrArg List.length hstored
    simpa [hjoined] using heq
  have hothers : ∀ j, j ≠ i → (linked[j]?).map kept = (locations[j]?).map kept := by
    intro j hj
    rw [← List.getElem?_map, hstored, List.getElem?_map, hjoined, List.getElem?_modify_ne _ _ hj.symm]
  have hat : kept (locationAt linked i) = kept (f (locationAt locations i)) := by
    rw [locationAt_of_map hstored (hlength ▸ hin), hjoined, locationAt_modify_self hin]
  simp only [kept, Prod.mk.injEq] at hat
  obtain ⟨-, haddress, hcount, hwrites⟩ := hat
  have hhalf : (lit (1 / 2) : ℝ) = 1 / 2 := by
    rw [half_real]
    norm_num
  by_cases hfull : overloaded config locations.length (locationAt linked i) = true
  · rw [if_pos hfull]
    set child := splitChild nextId nbCap (randomUnitVector config.d rng).1 (locationAt linked i) with hchild
    have hself : locationAt (linked.modify i (splitParent nextId nbCap)) i =
        splitParent nextId nbCap (locationAt linked i) := locationAt_modify_self (hlength ▸ hin) _
    refine ⟨fun j hj => ?_, ?_, Or.inr ⟨child, rfl, ?_, ?_, ?_, ?_⟩⟩
    · rw [List.getElem?_modify_ne _ _ hj.symm]
      exact hothers j hj
    · rw [hself]
      exact haddress
    · rw [hself]
      show List.zipWith _ ((locationAt linked i).counter.map _) ((locationAt linked i).counter.map _) = _
      rw [hcount, List.zipWith_map, List.zipWith_self, hhalf]
      refine (List.map_congr_left fun c _ => ?_).trans (List.map_id _)
      show c * (1 / 2) + c * (1 / 2) = c
      ring
    · rw [hself]
      show (locationAt linked i).writeCount * lit (1 / 2) + (locationAt linked i).writeCount * lit (1 / 2) = _
      rw [hwrites, hhalf]
      show ((locationAt locations i).writeCount + 1) * (1 / 2) + ((locationAt locations i).writeCount + 1) * (1 / 2) = _
      ring
    · rw [hself]
      rfl
    · rw [hself]
      rfl
  · rw [if_neg hfull]
    exact ⟨hothers, haddress, Or.inl ⟨rfl, hcount, hwrites⟩⟩

/-- A gated write that spawns. -/
theorem spawned_gated (hgate : opts.gate = true)
    (hforced : (gatedWinner counter locations indices sims opts).2 = true) (eta : ℝ) (nextId : ℕ)
    (rng : Rng ℝ) : Spawned address counter locations
      (competitiveWrite address counter locations config eta nextId rng opts indices sims) := by
  have hone : (lit 1 : ℝ) = 1 := by simp
  have hselect : selectWinner counter config locations indices sims opts =
      gatedWinner counter locations indices sims opts := by
    unfold selectWinner
    rw [if_pos hgate]
  have hspawn : spawnNovelty config locations.length (sims.headD (lit 0)) true opts = true := by
    unfold spawnNovelty
    rw [if_pos hgate]
  unfold competitiveWrite
  rw [hselect]
  dsimp only
  rw [hforced, hspawn, Bool.not_true, Bool.and_false, if_neg Bool.false_ne_true, if_pos rfl, if_pos rfl]
  refine ⟨?_, _, rfl, rfl, rfl, hone⟩
  exact map_linkAll (fun _ _ _ => rfl) indices _ locations

/-- **A gated write keeps families pure.** It joins exactly when some of the k
nearest locations coheres, and then one of best coherence alone; otherwise it
leaves what every location stores and adds one of its own. -/
theorem adaptiveWriteTwo_gated {config : EAMConfig ℝ} (hcompetitive : config.competitive = true)
    (hpos : 0 < config.d) {locations : List (HardLocation ℝ)} (hne : locations ≠ [])
    (hshaped : Shaped config.d locations) {address counter : List ℝ} (haddress : address.length = config.d)
    (hcounter : counter.length = config.d) {scan : Scan ℝ ℝ} (hscan : scan.Of locations) {opts : WriteOpts ℝ}
    (hgate : opts.gate = true) (eta : ℝ) (nextId : ℕ) (rng : Rng ℝ) :
    let k := min config.k locations.length
    let activated := nearest address locations k scan
    let w := adaptiveWriteTwo address counter locations config eta nextId rng scan opts
    Activated address locations (List.range locations.length) k activated ∧
      ((∃ i, Coheres address counter locations opts activated.1 i) →
        ∃ i, Coheres address counter locations opts activated.1 i ∧ JoinedOne address counter locations i w) ∧
      ((¬∃ i, Coheres address counter locations opts activated.1 i) → Spawned address counter locations w) := by
  intro k activated w
  have hactivated : Activated address locations (List.range locations.length) k activated :=
    activated_nearest hscan hshaped haddress hpos hne (Nat.min_le_right _ _)
  have hone : (lit 1 : ℝ) = 1 := by simp
  refine ⟨hactivated, ?_⟩
  by_cases hcold : activated.1 = []
  · -- nothing is activated where the config asks for no neighbor
    have hw : w = ⟨⟨[], [freshLocation nextId (normalize address) counter], eta⟩, locations, nextId + 1, rng⟩ :=
      adaptiveWriteTwo_cold hcompetitive hcold eta nextId rng opts
    rw [hw, hcold]
    refine ⟨fun ⟨i, hi⟩ => ?_, fun _ => ⟨rfl, _, rfl, rfl, rfl, hone⟩⟩
    cases hi.near
  · have hw : w = competitiveWrite address counter locations config eta nextId rng opts activated.1 activated.2 := by
      show adaptiveWriteTwo address counter locations config eta nextId rng scan opts = _
      unfold adaptiveWriteTwo
      rw [hcompetitive, Bool.not_true, if_neg Bool.false_ne_true]
      have hsome : ¬(nearest address locations (min config.k locations.length) scan).1.isEmpty = true := fun h =>
        hcold (List.isEmpty_iff.mp h)
      dsimp only
      rw [if_neg hsome]
    have hlt : ∀ i ∈ activated.1, i < locations.length := fun i hi => List.mem_range.mp (hactivated.within i hi)
    rw [hw]
    rcases gatedWinner_spec opts hshaped hcounter hlt hactivated.sims with
      ⟨hjoins, hwinner, hcoheres⟩ | ⟨hforced, hnone⟩
    · refine ⟨fun _ => ⟨_, hcoheres, ?_⟩, fun hnot => absurd ⟨_, hcoheres⟩ hnot⟩
      exact joined_competitiveWrite hgate hlt hjoins hwinner eta nextId rng
    · exact ⟨fun ⟨i, hi⟩ => absurd hi (hnone i), fun _ => spawned_gated hgate hforced eta nextId rng⟩

/-- The thresholds of a consolidation, any context near enough. -/
noncomputable def gatedOpts : WriteOpts ℝ where
  gate := true
  tauCohere := 1 / 10
  tauSplit := -1

theorem coherence_facingPair : coherence [1] facingPair 0 = 1 ∧ coherence [1] facingPair 1 = -1 := by
  have hone : cosineSimilarity [(1 : ℝ)] [1] = 1 * 1 := cosineSimilarity_unit (by norm_num) (by norm_num)
  have hopposite : cosineSimilarity [(-1 : ℝ)] [1] = -1 * 1 := cosineSimilarity_unit (by norm_num) (by norm_num)
  exact ⟨hone.trans (one_mul 1), hopposite.trans (mul_one (-1))⟩

/-- A gated write at one of two opposite locations joins it alone: of the two in
its context it is the one that coheres. -/
theorem adaptiveWriteTwo_gated_facing :
    Coheres [1] [1] facingPair gatedOpts [0, 1] 0 ∧ JoinedOne [1] [1] facingPair 0
      (adaptiveWriteTwo [1] [1] facingPair competing 1 2 (fun _ => 0) (⟨[], 0⟩ : Scan ℝ ℝ) gatedOpts) := by
  have hcompetitive : competing.competitive = true := rfl
  have hscan : (⟨[], 0⟩ : Scan ℝ ℝ).Of facingPair := Or.inl rfl
  have h := adaptiveWriteTwo_gated hcompetitive Nat.one_pos facingPair_ne_nil shaped_facingPair
    (rfl : [(1 : ℝ)].length = 1) (rfl : [(1 : ℝ)].length = 1) hscan (rfl : gatedOpts.gate = true) 1 2 fun _ => 0
  have hnearest : nearest [1] facingPair (min competing.k facingPair.length) (⟨[], 0⟩ : Scan ℝ ℝ) = ([0, 1], [1, -1]) :=
    activated_facingPair h.1
  dsimp only at h
  rw [hnearest] at h
  have hcoheres : Coheres [1] [1] facingPair gatedOpts [0, 1] 0 := by
    refine ⟨List.mem_cons_self, ?_, fun j hj _ => ?_, ?_⟩
    · rw [similarity_facingPair.1]
      norm_num [gatedOpts]
    · rcases List.mem_pair.mp hj with rfl | rfl
      · exact le_rfl
      · rw [coherence_facingPair.1, coherence_facingPair.2]
        norm_num
    · rw [coherence_facingPair.1]
      norm_num [gatedOpts]
  obtain ⟨i, hi, hjoined⟩ := h.2.1 ⟨0, hcoheres⟩
  -- the opposite one does not cohere
  rcases List.mem_pair.mp hi.near with rfl | rfl
  · exact ⟨hcoheres, hjoined⟩
  · have hnot := hi.coheres
    rw [coherence_facingPair.2] at hnot
    norm_num [gatedOpts] at hnot

end HeatherDb
