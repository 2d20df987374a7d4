/-
# The ledger of evidence

What a collection has taken in over its whole life, in exact arithmetic. Each
pattern that was written counts with a share: one, where it is stored verbatim,
seeds or spawns a location, or joins behind the gate, and the sum of the
activation weights where it joins its neighbors, which is at least one and at
most `k` (`Share`). Merges and splits move evidence between locations and lose
none. Compressions keep the counters too, but floor each write count they add
up at 10⁻⁹.

So after any calls that build a collection its counters add up to what was
written, by the shares, and its write counts to the shares, up to twice 10⁻⁹
for each location there ever was.

Key definitions: `evidence`, `held`, `Share`, `Booked`.
Key theorems: `held_adapt`, `held_round`, `booked_effect`, `evidence_ledger`.
-/
import HeatherDb.Duplicates
import HeatherDb.Gated
import HeatherDb.Index
import HeatherDb.UnitSphere

namespace HeatherDb

open Scalar Narrow

instance : IEEEOrder ℝ where
  le_self _ := le_real.mpr le_rfl
  num_of_le _ := decide_eq_true rfl
  le_of_le_of_lt h h' := le_real.mpr ((le_real.mp h).trans (lt_real.mp h').le)
  le_of_not_lt _ _ h := le_real.mpr (not_lt.mp (mt lt_real.mpr (Bool.eq_false_iff.mp h)))

/-- What a location has taken in: its counter and its weight. -/
noncomputable def evidence (d : ℕ) (loc : HardLocation ℝ) : EuclideanSpace ℝ (Fin d) × ℝ :=
  (vec d loc.counter, loc.writeCount)

/-- What all locations have taken in. -/
noncomputable def held (d : ℕ) (locations : List (HardLocation ℝ)) : EuclideanSpace ℝ (Fin d) × ℝ :=
  (locations.map (evidence d)).sum

/-- The share a pattern may count with. -/
structure Share (config : EAMConfig ℝ) (x : Pattern ℝ) (share : ℝ) : Prop where
  one_le : 1 ≤ share
  le : share ≤ max 1 (config.k : ℝ)
  once : config.competitive = false ∨ x.opts.gate = true → share = 1

variable {d : ℕ}

theorem held_append (ls ls' : List (HardLocation ℝ)) : held d (ls ++ ls') = held d ls + held d ls' := by
  rw [held, List.map_append, List.sum_append, held, held]

theorem held_nil : held d [] = 0 := rfl

theorem held_fst (d : ℕ) (locations : List (HardLocation ℝ)) :
    (held d locations).1 = (locations.map fun loc => vec d loc.counter).sum := by
  rw [held, ← AddMonoidHom.coe_fst, map_list_sum, List.map_map]
  rfl

theorem held_snd (d : ℕ) (locations : List (HardLocation ℝ)) :
    (held d locations).2 = (locations.map (·.writeCount)).sum := by
  rw [held, ← AddMonoidHom.coe_snd, map_list_sum, List.map_map]
  rfl

theorem Share.of_one (config : EAMConfig ℝ) (x : Pattern ℝ) : Share config x 1 :=
  ⟨le_rfl, le_max_left _ _, fun _ => rfl⟩

/-! ### Shares -/

/-- Whoever joins its neighbors counts at least once, and at most once with each. -/
theorem sum_activationWeights {query : List ℝ} {locations : List (HardLocation ℝ)} {k : ℕ} {r : List ℕ × List ℝ}
    (h : Activated query locations (List.range locations.length) k r) (hle : k ≤ locations.length) (hk : 0 < k) :
    1 ≤ (activationWeights r.2 k).sum ∧ (activationWeights r.2 k).sum ≤ k := by
  have hlength : r.2.length = k := by
    rw [h.sims, List.length_map, h.count, List.length_range, Nat.min_eq_left hle]
  have hdescending := h.descending
  have hone : (lit 1 : ℝ) = 1 := by simp
  have hzero : (lit 0 : ℝ) = 0 := by simp
  generalize r.2 = sims at hlength hdescending
  have hkpos : (0 : ℝ) < k := Nat.cast_pos.mpr hk
  unfold activationWeights
  dsimp only
  split_ifs with hsimilar
  · -- the best location counts fully, every other one at most
    obtain ⟨best, sims, rfl⟩ := List.exists_cons_of_length_pos (hlength ▸ hk : 0 < sims.length)
    have hbest : 0 < best := by
      have hlt := lt_real.mp hsimilar
      rw [lit_real] at hlt
      exact lt_trans (by norm_num) hlt
    have hweight : ∀ s ∈ best :: sims, 0 ≤ fmax s (lit 0) / best ∧ fmax s (lit 0) / best ≤ 1 := fun s hs => by
      have hs : s ≤ best := by
        rcases List.mem_cons.mp hs with rfl | hs
        · exact le_rfl
        · exact not_lt.mp (mt lt_real.mpr (Bool.eq_false_iff.mp ((List.pairwise_cons.mp hdescending).1 s hs)))
      rw [fmax_real, hzero]
      exact ⟨div_nonneg (le_max_right _ _) hbest.le, div_le_one_of_le₀ (max_le hs hbest.le) hbest.le⟩
    have hsum : ∀ ls : List ℝ, (∀ s ∈ ls, 0 ≤ fmax s (lit 0) / best ∧ fmax s (lit 0) / best ≤ 1) →
        0 ≤ (ls.map fun s => fmax s (lit 0) / best).sum ∧ (ls.map fun s => fmax s (lit 0) / best).sum ≤ ls.length := by
      intro ls hls
      refine ⟨List.sum_nonneg (List.forall_mem_map.mpr fun s hs => (hls s hs).1), ?_⟩
      refine (List.sum_le_card_nsmul _ 1 (List.forall_mem_map.mpr fun s hs => (hls s hs).2)).trans_eq ?_
      rw [List.length_map, nsmul_eq_mul, mul_one]
    refine ⟨?_, ?_⟩
    · have hfirst : fmax best (lit 0) / best = 1 := by
        rw [fmax_real, hzero, max_eq_left hbest.le, div_self hbest.ne']
      have hrest := (hsum sims fun s hs => hweight s (List.mem_cons_of_mem _ hs)).1
      rw [List.headD_cons, List.map_cons, List.sum_cons, hfirst]
      linarith
    · exact hlength ▸ (hsum _ hweight).2
  · rw [List.sum_replicate, hlength, hone, ofUsize_real, nsmul_eq_mul, mul_one_div_cancel hkpos.ne']
    exact ⟨le_rfl, Nat.one_le_cast.mpr hk⟩

/-! ### One write -/

/-- Counter and weight of a location are read together. -/
theorem tally_evidence (address : List ℝ) {counter : List ℝ} (hcounter : counter.length = d) :
    Tally d address counter (evidence d) (vec d counter, 1) where
  join w lr loc hloc := Prod.ext ((tally_counter address hcounter).join w lr loc hloc)
    ((tally_writeCount d address counter).join w lr loc hloc)
  surprise _ _ := rfl
  links _ _ _ := rfl
  parent id nbCap loc hloc := Prod.ext ((tally_counter address hcounter).parent id nbCap loc hloc)
    ((tally_writeCount d address counter).parent id nbCap loc hloc)
  child id nbCap p loc hloc := Prod.ext ((tally_counter address hcounter).child id nbCap p loc hloc)
    ((tally_writeCount d address counter).child id nbCap p loc hloc)

theorem evidence_fresh (id : ℕ) (address counter : List ℝ) :
    evidence d (freshLocation id address counter) = (vec d counter, 1) := by
  rw [evidence, freshLocation, lit_real, Rat.cast_one]

section write

variable {address counter : List ℝ} {locations : List (HardLocation ℝ)} {config : EAMConfig ℝ} {opts : WriteOpts ℝ}
  {indices : List ℕ} {sims : List ℝ}

/-- A write that spawns adds its own evidence. -/
theorem held_spawned {w : Written ℝ} (h : Spawned address counter locations w) :
    held d (w.locations ++ w.result.newLocations) = held d locations + (vec d counter, 1) := by
  obtain ⟨child, hnew, -, hcounter, hcount⟩ := h.added
  have hkept : w.locations.map (evidence d) = locations.map (evidence d) := by
    have hmap := congrArg (List.map fun p : ℕ × List ℝ × List ℝ × ℝ × ℝ => ((vec d p.2.2.1, p.2.2.2.1) : _ × ℝ)) h.kept
    rwa [List.map_map, List.map_map] at hmap
  have hchild : held d [child] = (vec d counter, 1) := by
    rw [held, List.map_singleton, List.sum_singleton, evidence, hcounter, hcount]
  rw [held_append, hnew, hchild, held, hkept, held]

/-- A gated write that joins adds its own evidence to the winner's. -/
theorem held_joinedOne {i : ℕ} {w : Written ℝ} (h : JoinedOne address counter locations i w)
    (hi : i < locations.length) (hlength : w.locations.length = locations.length) (hcounter : counter.length = d)
    (hshaped : Shaped d locations) :
    held d (w.locations ++ w.result.newLocations) = held d locations + (vec d counter, 1) := by
  have hown : (locationAt locations i).counter.length = d := (hshaped _ (locationAt_mem hi)).2
  -- the winner and a child of it together have one write more than it had
  have hwinner : evidence d (locationAt w.locations i) + held d w.result.newLocations =
      evidence d (locationAt locations i) + (vec d counter, 1) := by
    have hadded : vec d (addScaled (locationAt locations i).counter counter 1) =
        vec d (locationAt locations i).counter + vec d counter := by
      rw [vec_addScaled hown hcounter, one_smul]
    rcases h.evidence with ⟨hnone, hcount, hwrites⟩ | ⟨child, hone, hcount, hwrites, hsame, -⟩
    · rw [hnone, held_nil, add_zero, evidence, hcount, hwrites, hadded]
      rfl
    · have hlengthOne : (locationAt w.locations i).counter.length = d := by
        have hzip := congrArg List.length hcount
        rw [hsame, List.length_zipWith, min_self, length_addScaled, hown] at hzip
        exact hsame ▸ hzip
      have hzip : vec d (locationAt w.locations i).counter + vec d child.counter =
          vec d (locationAt locations i).counter + vec d counter := by
        have hparts := vec_zipWith (a := 1) (b := 1) (fun x y => by rw [one_mul, one_mul]) hlengthOne
          (hsame ▸ hlengthOne : child.counter.length = d)
        rw [← hadded, ← hcount, hparts, one_smul, one_smul]
      rw [hone, held, List.map_singleton, List.sum_singleton]
      exact Prod.ext hzip hwrites
  have hothers : w.locations.map (evidence d) =
      (locations.modify i fun _ => locationAt w.locations i).map (evidence d) := by
    apply List.ext_getElem?
    intro j
    rw [List.getElem?_map, List.getElem?_map]
    by_cases hj : j = i
    · subst hj
      have hj' : j < w.locations.length := hlength ▸ hi
      rw [List.getElem?_modify_eq, List.getElem?_eq_getElem hi, List.getElem?_eq_getElem hj', locationAt,
        List.getD_eq_getElem _ _ hj']
      rfl
    · rw [List.getElem?_modify_ne _ _ (Ne.symm hj)]
      have hkept := congrArg (Option.map fun p : ℕ × List ℝ × List ℝ × ℝ => ((vec d p.2.2.1, p.2.2.2) : _ × ℝ))
        (h.others j hj)
      rwa [Option.map_map, Option.map_map] at hkept
  have htotal : held d w.locations = held d locations +
      (evidence d (locationAt w.locations i) - evidence d (locationAt locations i)) := by
    rw [held, hothers]
    exact sum_modify hi (add_sub_cancel _ _).symm
  rw [held_append, htotal, add_assoc, sub_add_eq_add_sub, hwinner, add_sub_cancel_left]

/-- **A write counts with its share.** -/
theorem held_adapt {inner : EAMInner ℝ ℝ} (hpos : 0 < inner.config.d) (harrays : Indexed inner) (hnorms : Measured inner)
    (hshaped : Shaped inner.config.d inner.locations) {x : Pattern ℝ}
    (hx : x.address.length = inner.config.d ∧ x.counter.length = inner.config.d) (rng : Rng ℝ) :
    ∃ share, Share inner.config x share ∧
      held inner.config.d ((inner.adapt x rng).inner.locations ++ (inner.adapt x rng).result.newLocations) =
        held inner.config.d inner.locations + share • (vec inner.config.d x.counter, 1) := by
  have hfresh : ∀ (id : ℕ) (address : List ℝ), held inner.config.d (inner.locations ++ [freshLocation id address x.counter]) =
      held inner.config.d inner.locations + (1 : ℝ) • (vec inner.config.d x.counter, 1) := fun id address => by
    rw [held_append, one_smul, held, held, List.map_singleton, List.sum_singleton, evidence_fresh]
  unfold EAMInner.adapt
  cases hcompetitive : inner.config.competitive with
  | false =>
    unfold adaptiveWriteTwo
    rw [hcompetitive, Bool.not_false, if_pos rfl]
    exact ⟨1, .of_one _ x, hfresh _ _⟩
  | true =>
    set k := min inner.config.k inner.locations.length with hk
    set near := nearest x.address inner.locations k inner.writeScan with hnear
    by_cases hcold : near.1 = []
    · rw [adaptiveWriteTwo_cold hcompetitive hcold]
      exact ⟨1, .of_one _ x, hfresh _ _⟩
    have hne : inner.locations ≠ [] := by
      rintro hnone
      obtain ⟨i, hi⟩ := List.exists_mem_of_ne_nil _ hcold
      have hlt := mem_nearest_lt hi
      rw [hnone] at hlt
      exact Nat.not_lt_zero i hlt
    have hscan : inner.writeScan.Of inner.locations :=
      Or.inr ⟨harrays.matrix32, fun loc hloc => hnorms.norms loc hloc (decide_eq_true rfl)⟩
    have hactivated : Activated x.address inner.locations (List.range inner.locations.length) k near :=
      activated_nearest hscan hshaped hx.1 hpos hne (Nat.min_le_right _ _)
    have hlt : ∀ i ∈ near.1, i < inner.locations.length := fun i hi => List.mem_range.mp (hactivated.within i hi)
    have hsims : near.2.length = near.1.length := by
      rw [hactivated.sims, List.length_map]
    have hkpos : 0 < k := by
      refine Nat.pos_of_ne_zero fun hzero => hcold (List.length_eq_zero_iff.mp ?_)
      rw [hactivated.count, hzero, Nat.zero_min]
    rw [adaptiveWriteTwo_warm hcompetitive hcold, ← hk, ← hnear]
    cases hgate : x.opts.gate with
    | true =>
      have hselect : selectWinner x.counter inner.config inner.locations near.1 near.2 x.opts =
          gatedWinner x.counter inner.locations near.1 near.2 x.opts := if_pos hgate
      refine ⟨1, .of_one _ x, ?_⟩
      rw [one_smul]
      cases hforced : (gatedWinner x.counter inner.locations near.1 near.2 x.opts).2 with
      | true => exact held_spawned (spawned_gated hgate hforced _ _ _)
      | false =>
        have hwinner : (gatedWinner x.counter inner.locations near.1 near.2 x.opts).1 < near.1.length :=
          hselect ▸ selectWinner_lt hcold
        have hin : near.1.getD (gatedWinner x.counter inner.locations near.1 near.2 x.opts).1 0 <
            inner.locations.length := by
          rw [List.getD_eq_getElem _ _ hwinner]
          exact hlt _ (List.getElem_mem hwinner)
        have hframe := competitiveWrite_frame x.address x.counter inner.locations inner.config inner.eta inner.nextId rng
          x.opts near.2 hcold hlt hshaped hx.1 hx.2
        exact held_joinedOne (joined_competitiveWrite hgate hlt hforced hwinner _ _ _) hin hframe.edited.length hx.2
          hshaped
    | false =>
      cases hspawn : spawnNovelty inner.config inner.locations.length (near.2.headD (lit 0)) false x.opts with
      | true =>
        refine ⟨1, .of_one _ x, ?_⟩
        rw [one_smul]
        exact held_spawned (spawned_competitiveWrite hgate hspawn _ _ _)
      | false =>
        obtain ⟨hone, hle⟩ := sum_activationWeights hactivated (Nat.min_le_right _ _) hkpos
        have hmany : (k : ℝ) ≤ inner.config.k := Nat.cast_le.mpr (Nat.min_le_left _ _)
        refine ⟨(activationWeights near.2 k).sum, ⟨hone, hle.trans (hmany.trans (le_max_right _ _)), ?_⟩, ?_⟩
        · rintro (hplain | hgated)
          · exact absurd (hcompetitive.symm.trans hplain) (by decide)
          · exact absurd (hgate.symm.trans hgated) (by decide)
        · exact sum_competitiveWrite (tally_evidence x.address hx.2) hgate hspawn hcold hlt hshaped hsims _ _ _

end write

/-- What joins, splits and spawns leave of write counts that are not negative. -/
theorem nonneg_competitiveWrite {address counter : List ℝ} {locations : List (HardLocation ℝ)} {config : EAMConfig ℝ}
    {opts : WriteOpts ℝ} {near : List ℕ × List ℝ} (hne : near.1 ≠ []) (hnodup : near.1.Nodup)
    (hlt : ∀ i ∈ near.1, i < locations.length) (hweights : ∀ w ∈ activationWeights near.2 (min config.k locations.length),
      0 ≤ w) (h : ∀ loc ∈ locations, 0 ≤ loc.writeCount) (eta : ℝ) (nextId : ℕ) (rng : Rng ℝ) :
    let w := competitiveWrite address counter locations config eta nextId rng opts near.1 near.2
    ∀ loc ∈ w.locations ++ w.result.newLocations, 0 ≤ loc.writeCount := by
  have hone : (0 : ℝ) ≤ lit 1 := by simp
  have hhalf : (0 : ℝ) ≤ lit (1 / 2) := by
    rw [half_real]
    norm_num
  have hweight : ∀ i, 0 ≤ (activationWeights near.2 (min config.k locations.length)).getD i (lit 0) := fun i => by
    rw [List.getD_eq_getElem?_getD]
    cases hi : (activationWeights near.2 (min config.k locations.length))[i]? with
    | none => simp
    | some w => exact hweights w (List.mem_of_getElem? hi)
  unfold competitiveWrite
  generalize hsel : selectWinner counter config locations near.1 near.2 opts = sel
  have hwin : sel.1 < near.1.length := hsel ▸ selectWinner_lt hne
  have hwinner : near.1.getD sel.1 0 < locations.length := by
    rw [List.getD_eq_getElem _ _ hwin]
    exact hlt _ (List.getElem_mem _)
  dsimp only
  generalize spawnNovelty config locations.length (near.2.headD (lit 0)) sel.2 opts = spawn
  set joined := if spawn then locations
    else joinAll address counter (activationWeights near.2 (min config.k locations.length)) sel.1
      (eta / (lit 1 + (locationAt locations (near.1.getD sel.1 0)).writeCount / config.tauDamp)) near.1 opts locations
    with hjoined
  have hnonneg : ∀ loc ∈ joined, 0 ≤ loc.writeCount := by
    intro loc hloc
    by_cases hspawn : spawn = true
    · rw [hjoined, if_pos hspawn] at hloc
      exact h loc hloc
    · rw [hjoined, if_neg hspawn] at hloc
      rcases mem_joinAll hnodup hloc with hloc | ⟨p, -, -, hin, rfl⟩
      · exact h loc hloc
      · refine add_nonneg (h _ (locationAt_mem hin)) ?_
        split_ifs
        · exact hone
        · exact hweight _
  set surprised := if config.mdlGate && !spawn then joined.modify (near.1.getD sel.1 0) fun loc =>
    { loc with surpriseMass := loc.surpriseMass + surpriseBits (near.2.getD sel.1 (lit 0)) } else joined with hsurprised
  set linked := linkAll near.1 (config.adaptiveNeighborCap locations.length) surprised with hlinked
  -- surprise and links leave write counts alone
  have hcounts : linked.map (·.writeCount) = joined.map (·.writeCount) := by
    rw [hlinked, map_linkAll (fun _ _ _ => rfl), hsurprised]
    split_ifs
    · refine map_modify_of_eq ?_ _ _
      exact fun _ => rfl
    · rfl
  have hleft : ∀ loc ∈ linked, 0 ≤ loc.writeCount := fun loc hloc => by
    obtain ⟨other, hother, hcount⟩ := List.mem_map.mp (hcounts ▸ List.mem_map_of_mem (f := HardLocation.writeCount) hloc)
    exact hcount ▸ hnonneg other hother
  split_ifs with hspawn hfull
  · exact List.forall_mem_append.mpr ⟨hleft, List.forall_mem_singleton.mpr hone⟩
  · have hlength : linked.length = locations.length := by
      have hmap := congrArg List.length hcounts
      rw [List.length_map, List.length_map] at hmap
      rw [hmap, hjoined, if_neg hspawn]
      exact (joinAll_edited ..).length
    have hat := hleft _ (locationAt_mem (hlength ▸ hwinner))
    refine List.forall_mem_append.mpr ⟨fun loc hloc => ?_, List.forall_mem_singleton.mpr (mul_nonneg hat hhalf)⟩
    rcases mem_modify hloc with hloc | ⟨hin, rfl⟩
    · exact hleft loc hloc
    · exact mul_nonneg (hleft _ (locationAt_mem hin)) hhalf
  · show ∀ loc ∈ linked ++ [], 0 ≤ loc.writeCount
    rw [List.append_nil]
    exact hleft

/-- The rules that ask nothing. -/
def noRules : Rules ℝ ℝ := ⟨fun _ _ => True, fun _ _ => True, fun _ _ _ => True⟩

/-- **Write counts are never negative.** -/
theorem preserves_nonneg (config : EAMConfig ℝ) : Preserves config noRules fun _ loc => 0 ≤ loc.writeCount where
  mono h _ := h
  write {inner x} rng hconfig h hfit _ := by
    have hone : (0 : ℝ) ≤ lit 1 := by simp
    unfold EAMInner.adapt
    cases hcompetitive : inner.config.competitive with
    | false =>
      unfold adaptiveWriteTwo
      rw [hcompetitive, Bool.not_false, if_pos rfl]
      exact List.forall_mem_append.mpr ⟨h.each, List.forall_mem_singleton.mpr hone⟩
    | true =>
      by_cases hcold : (nearest x.address inner.locations (min inner.config.k inner.locations.length)
        inner.writeScan).1 = []
      · rw [adaptiveWriteTwo_cold hcompetitive hcold]
        exact List.forall_mem_append.mpr ⟨h.each, List.forall_mem_singleton.mpr hone⟩
      · rw [adaptiveWriteTwo_warm hcompetitive hcold]
        refine nonneg_competitiveWrite hcold (nodup_nearest ..) (fun i hi => mem_nearest_lt hi) (fun w hw => ?_) h.each
          _ _ rng
        unfold activationWeights at hw
        dsimp only at hw
        split_ifs at hw with hsimilar
        · obtain ⟨s, -, rfl⟩ := List.mem_map.mp hw
          have hbest := lt_real.mp hsimilar
          rw [lit_real] at hbest
          rw [fmax_real]
          refine div_nonneg ((le_max_right _ _).trans' (by simp)) (le_trans (by norm_num) hbest.le)
        · rw [(List.mem_replicate.mp hw).2, ofUsize_real]
          exact div_nonneg hone (Nat.cast_nonneg _)
  merge ha hb _ := add_nonneg ha hb
  join _ _ _ := by
    show 0 ≤ fmax _ _ + fmax _ _
    rw [fmax_real, fmax_real]
    exact add_nonneg (leastWeight_nonneg.trans (le_max_right _ _)) (leastWeight_nonneg.trans (le_max_right _ _))

/-! ### Consolidations -/

section consolidate

variable [SeededUniform ℝ] {locations : List (HardLocation ℝ)}

/-- A merge loses nothing. -/
theorem held_knnMerge (hshaped : Shaped d locations) (config : EAMConfig ℝ) :
    held d (knnMerge locations config).2 = held d locations := by
  have hd : ∀ loc ∈ locations, loc.counter.length = d := fun loc hloc => (hshaped loc hloc).2
  have hcounters := additive_counter hd config
  have hcounts := additive_writeCount hd config
  refine (sum_knnMerge (Q := CounterLength d) (μ := evidence d) ⟨hd, fun p hp a b ha hb => ?_⟩).1
  exact ⟨(hcounters.step p hp a b ha hb).1, Prod.ext (hcounters.step p hp a b ha hb).2 (hcounts.step p hp a b ha hb).2⟩

end consolidate

theorem shape_joined {a b : HardLocation ℝ} (ha : a.address.length = d ∧ a.counter.length = d)
    (hb : b.address.length = d ∧ b.counter.length = d) :
    (joined a b).address.length = d ∧ (joined a b).counter.length = d := by
  refine ⟨?_, ?_⟩
  · show (normalize (List.zipWith _ a.address b.address)).length = d
    rw [length_normalize, List.length_zipWith, ha.1, hb.1, min_self]
  · show (List.zipWith _ a.counter b.counter ++ a.counter.drop b.counter.length).length = d
    rw [List.length_append, List.length_zipWith, List.length_drop, ha.2, hb.2]
    omega

/-- What a round of a compression may do to the evidence. -/
structure Balanced (d : ℕ) (ls ls' : List (HardLocation ℝ)) : Prop where
  counters : (held d ls').1 = (held d ls).1
  atLeast : (held d ls).2 ≤ (held d ls').2
  atMost : (held d ls').2 + 2 * leastWeight * ls'.length ≤ (held d ls).2 + 2 * leastWeight * ls.length

/-- **A round** keeps the counters, and the write counts up to the floor. -/
theorem held_round {kappa lambda w : ℝ} {ls ls' : List (HardLocation ℝ)} {p : HardLocation ℝ × HardLocation ℝ}
    (hround : Round kappa lambda w ls p ls') (hshaped : Shaped d ls) (h : ∀ loc ∈ ls, 0 ≤ loc.writeCount) :
    Balanced d ls ls' := by
  have hleast := leastWeight_nonneg
  obtain ⟨hi, hj⟩ := closestPair_lt hround.many
  have ha := h _ hround.fst_mem
  have hb := h _ hround.snd_mem
  have hcount : (joined p.1 p.2).writeCount = max p.1.writeCount leastWeight + max p.2.writeCount leastWeight := by
    show fmax _ _ + fmax _ _ = _
    rw [fmax_real, fmax_real]
  have hcounter : vec d (joined p.1 p.2).counter = vec d p.1.counter + vec d p.2.counter := by
    have hone : (1 : ℝ) / 10 ^ 9 ≤ 1 := by norm_num
    exact (joined_parts (a := { p.1 with writeCount := 1 }) (b := { p.2 with writeCount := 1 })
      (hshaped _ hround.fst_mem).2 (hshaped _ hround.snd_mem).2 hone hone).2.2
  set excess := (joined p.1 p.2).writeCount - (p.1.writeCount + p.2.writeCount) with hexcess
  have hexcess0 : 0 ≤ excess := by
    rw [hexcess, hcount, sub_nonneg]
    exact add_le_add (le_max_left _ _) (le_max_left _ _)
  have hexcess1 : excess ≤ 2 * leastWeight := by
    have h1 : max p.1.writeCount leastWeight ≤ p.1.writeCount + leastWeight := max_le (by linarith) (by linarith)
    have h2 : max p.2.writeCount leastWeight ≤ p.2.writeCount + leastWeight := max_le (by linarith) (by linarith)
    rw [hexcess, hcount]
    linarith
  -- as if the joined location had held the excess before
  set raise := fun loc : HardLocation ℝ => { loc with writeCount := loc.writeCount + excess } with hraise
  have hsame : ls' = ((ls.modify (closestPair ls).2.1 raise).set (closestPair ls).1 (joined p.1 p.2)).eraseIdx
      (closestPair ls).2.1 := by
    rw [hround.next, List.eraseIdx_set_gt hi, List.eraseIdx_set_gt hi, List.eraseIdx_modify_of_eq]
  have htotal : held d ls' = held d ls + (0, excess) := by
    have hraised : evidence d (raise (locationAt ls (closestPair ls).2.1)) =
        evidence d (locationAt ls (closestPair ls).2.1) + (0, excess) := by
      refine Prod.ext ?_ rfl
      exact (add_zero _).symm
    have hfirst : locationAt (ls.modify (closestPair ls).2.1 raise) (closestPair ls).1 = p.1 := by
      rw [hround.fst_eq, locationAt, locationAt, List.getD_eq_getElem?_getD, List.getElem?_modify_ne _ _ hi.ne',
        ← List.getD_eq_getElem?_getD]
    have hsecond : locationAt (ls.modify (closestPair ls).2.1 raise) (closestPair ls).2.1 = raise p.2 := by
      rw [hround.snd_eq]
      exact locationAt_modify_self hj raise
    rw [hsame, held, sum_join (μ := evidence d) (by simpa using hi.trans hj) (by simpa using hj) hi.ne ?_]
    · exact sum_modify hj hraised
    · rw [hfirst, hsecond]
      refine Prod.ext hcounter ?_
      show (joined p.1 p.2).writeCount = p.1.writeCount + (p.2.writeCount + excess)
      rw [hexcess]
      ring
  have hlength := hround.length
  refine ⟨?_, ?_, ?_⟩
  · rw [htotal]
    exact add_zero _
  · rw [htotal]
    exact le_add_of_nonneg_right hexcess0
  · have hcast : (ls.length : ℝ) = ls'.length + 1 := by
      rw [← hlength]
      push_cast
      ring
    rw [htotal, hcast]
    show (held d ls).2 + excess + _ ≤ _
    linarith

/-! ### Whole builds -/

/-- What patterns add with these shares. -/
noncomputable def booked (d : ℕ) (xs : List (Pattern ℝ)) (shares : List ℝ) : EuclideanSpace ℝ (Fin d) × ℝ :=
  (List.zipWith (fun x share => share • ((vec d x.counter, 1) : EuclideanSpace ℝ (Fin d) × ℝ)) xs shares).sum

theorem booked_append {xs ys : List (Pattern ℝ)} {shares shares' : List ℝ} (h : xs.length = shares.length) :
    booked d (xs ++ ys) (shares ++ shares') = booked d xs shares + booked d ys shares' := by
  rw [booked, List.zipWith_append h, List.sum_append, booked, booked]

theorem booked_snd (d : ℕ) : ∀ {xs : List (Pattern ℝ)} {shares : List ℝ}, xs.length = shares.length →
    (booked d xs shares).2 = shares.sum
  | [], [], _ => rfl
  | x :: xs, share :: shares, h => by
    have hrest := booked_snd d (Nat.succ.inj h)
    rw [List.sum_cons, ← hrest, booked, List.zipWith_cons_cons, List.sum_cons]
    show share * 1 + (booked d xs shares).2 = _
    rw [mul_one]

theorem booked_fst (xs : List (Pattern ℝ)) (shares : List ℝ) : (booked d xs shares).1 =
    (List.zipWith (fun x share => share • vec d x.counter) xs shares).sum := by
  rw [booked, ← AddMonoidHom.coe_fst, map_list_sum, List.map_zipWith]
  rfl

/-- A memory whose writes count as they should. -/
structure Counting (config : EAMConfig ℝ) (inner : EAMInner ℝ ℝ) : Prop where
  config_eq : inner.config = config
  arrays : Indexed inner
  norms : Measured inner
  built : Built config (fun _ loc => 0 ≤ loc.writeCount) inner.locations inner.nextId

/-- The ledger of a memory that was built by these patterns. -/
structure Booked (config : EAMConfig ℝ) (start : ℕ) (xs : List (Pattern ℝ)) (compressed : Prop)
    (locations : List (HardLocation ℝ)) (shares : List ℝ) : Prop where
  each : List.Forall₂ (Share config) xs shares
  counters : (held config.d locations).1 = (booked config.d xs shares).1
  atLeast : (booked config.d xs shares).2 ≤ (held config.d locations).2
  atMost : (held config.d locations).2 + 2 * leastWeight * locations.length ≤
    (booked config.d xs shares).2 + 2 * leastWeight * (start + xs.length)
  exact : ¬compressed → (held config.d locations).2 = (booked config.d xs shares).2

section runs

variable {config : EAMConfig ℝ} {start : ℕ} {xs : List (Pattern ℝ)} {compressed : Prop}
  {locations : List (HardLocation ℝ)} {shares : List ℝ}

theorem Counting.next {b : Batch ℝ ℝ} (h : Counting config b.inner) {x : Pattern ℝ}
    (hx : x.address.length = config.d ∧ x.counter.length = config.d) : Counting config (b.next x).inner := by
  obtain ⟨rfl, harrays, hnorms, hbuilt⟩ := h
  obtain ⟨hconfig, hnext⟩ := hbuilt.next (preserves_nonneg _) rfl hx trivial
  exact ⟨hconfig, harrays.settle hbuilt.shaped hx b.rng, hnorms.settle hbuilt.shaped hx b.rng, hnext⟩

/-- One write is booked. -/
theorem Booked.next (hpos : 0 < config.d) {b : Batch ℝ ℝ} (hcounting : Counting config b.inner)
    (h : Booked config start xs compressed b.inner.locations shares) {x : Pattern ℝ}
    (hx : x.address.length = config.d ∧ x.counter.length = config.d) :
    ∃ share, Booked config start (xs ++ [x]) compressed (b.next x).inner.locations (shares ++ [share]) := by
  obtain ⟨rfl, harrays, hnorms, hbuilt⟩ := hcounting
  obtain ⟨share, hshare, hheld⟩ := held_adapt hpos harrays hnorms hbuilt.shaped hx b.rng
  have hframe := adapt_frame b.inner hbuilt.shaped hx b.rng
  have hlocations : (b.next x).inner.locations =
      (b.inner.adapt x b.rng).inner.locations ++ (b.inner.adapt x b.rng).result.newLocations :=
    (sameState_settle (b.inner.adapt x b.rng).inner (b.inner.adapt x b.rng).result).locations
  have hlength : (b.next x).inner.locations.length ≤ b.inner.locations.length + 1 := by
    have hold : (b.inner.adapt x b.rng).inner.locations.length = b.inner.locations.length := hframe.edited.length
    rw [hlocations, List.length_append, hold]
    rcases hframe.created with ⟨hnone, -⟩ | ⟨loc, hone, -⟩
    · have hnone : (b.inner.adapt x b.rng).result.newLocations = [] := hnone
      rw [hnone]
      exact Nat.le_succ _
    · have hone : (b.inner.adapt x b.rng).result.newLocations = [loc] := hone
      rw [hone]
      rfl
  have hentry : booked b.inner.config.d (xs ++ [x]) (shares ++ [share]) =
      booked b.inner.config.d xs shares + share • (vec b.inner.config.d x.counter, 1) := by
    rw [booked_append h.each.length_eq, booked, booked, List.zipWith_cons_cons, List.zipWith_nil_left,
      List.sum_singleton]
  rw [← hlocations] at hheld
  have hweight : (share • ((vec b.inner.config.d x.counter, 1) : EuclideanSpace ℝ (Fin b.inner.config.d) × ℝ)).2 = share :=
    mul_one share
  have hleast := leastWeight_nonneg
  have hcast : ((b.next x).inner.locations.length : ℝ) ≤ b.inner.locations.length + 1 := by exact_mod_cast hlength
  refine ⟨share, List.rel_append h.each (.cons hshare .nil), ?_, ?_, ?_, fun hnot => ?_⟩
  · rw [hheld, hentry, Prod.fst_add, Prod.fst_add, h.counters]
  · rw [hheld, hentry, Prod.snd_add, Prod.snd_add]
    exact add_le_add_left h.atLeast _
  · rw [hheld, hentry, Prod.snd_add, Prod.snd_add, hweight, List.length_append, List.length_singleton, Nat.cast_add,
      Nat.cast_one]
    have hgrown := mul_le_mul_of_nonneg_left hcast (by linarith : 0 ≤ 2 * (leastWeight : ℝ))
    have hbefore := h.atMost
    linarith
  · rw [hheld, hentry, Prod.snd_add, Prod.snd_add, h.exact hnot]

/-- The writes of a call are booked. -/
theorem Booked.batch (hpos : 0 < config.d) : ∀ (ys : List (Pattern ℝ)) {xs : List (Pattern ℝ)} {shares : List ℝ}
    {b : Batch ℝ ℝ}, Counting config b.inner → Booked config start xs compressed b.inner.locations shares →
    (∀ x ∈ ys, x.address.length = config.d ∧ x.counter.length = config.d) →
    Counting config (ys.foldl Batch.next b).inner ∧
      ∃ more, Booked config start (xs ++ ys) compressed (ys.foldl Batch.next b).inner.locations (shares ++ more)
  | [], xs, shares, b, hcounting, h, _ => ⟨hcounting, [], by rwa [List.append_nil, List.append_nil]⟩
  | y :: ys, xs, shares, b, hcounting, h, hfit => by
    have hy := hfit y List.mem_cons_self
    obtain ⟨share, hnext⟩ := h.next hpos hcounting hy
    obtain ⟨hlast, more, hbooked⟩ := Booked.batch hpos ys (hcounting.next hy) hnext
      fun x hx => hfit x (List.mem_cons_of_mem y hx)
    rw [List.append_assoc, List.append_assoc] at hbooked
    exact ⟨hlast, share :: more, hbooked⟩

/-- A consolidation that keeps the counters, and the write counts up to what
each location it removes may add. -/
theorem Booked.consolidated {compressed' : Prop} {left : List (HardLocation ℝ)}
    (h : Booked config start xs compressed locations shares) (hbalanced : Balanced config.d locations left)
    (hexact : ¬compressed' → ¬compressed ∧ (held config.d left).2 = (held config.d locations).2) :
    Booked config start xs compressed' left shares where
  each := h.each
  counters := hbalanced.counters.trans h.counters
  atLeast := h.atLeast.trans hbalanced.atLeast
  atMost := hbalanced.atMost.trans h.atMost
  exact hnot := (hexact hnot).2.trans (h.exact (hexact hnot).1)

theorem Balanced.refl (d : ℕ) (ls : List (HardLocation ℝ)) : Balanced d ls ls := ⟨rfl, le_rfl, le_rfl⟩

theorem Balanced.trans {ls ls' ls'' : List (HardLocation ℝ)} (h : Balanced d ls ls') (h' : Balanced d ls' ls'') :
    Balanced d ls ls'' :=
  ⟨h'.counters.trans h.counters, h.atLeast.trans h'.atLeast, h'.atMost.trans h.atMost⟩

/-- **The rounds of a compression** are balanced. -/
theorem balanced_rounds {kappa lambda w : ℝ} {ls ls' : List (HardLocation ℝ)}
    {joins : List (HardLocation ℝ × HardLocation ℝ)} (hrun : Run (Round kappa lambda w) ls joins ls')
    (hshaped : Shaped d ls) (h : ∀ loc ∈ ls, 0 ≤ loc.writeCount) : Balanced d ls ls' := by
  have hleft := hrun.invariant (P := fun mid => Shaped d mid ∧ (∀ loc ∈ mid, 0 ≤ loc.writeCount) ∧ Balanced d ls mid)
    ⟨hshaped, h, .refl d ls⟩ fun {mid p next} hmid hround => by
      have hjoined : ∀ P : HardLocation ℝ → Prop, (∀ loc ∈ mid, P loc) → P (joined p.1 p.2) → ∀ loc ∈ next, P loc :=
        fun P hold hnew loc hloc => by
          rcases hround.mem hloc with hloc | rfl
          · exact hold loc hloc
          · exact hnew
      refine ⟨hjoined _ hmid.1 ?_, hjoined _ hmid.2.1 ?_, hmid.2.2.trans (held_round hround hmid.1 hmid.2.1)⟩
      · exact shape_joined (hmid.1 _ hround.fst_mem) (hmid.1 _ hround.snd_mem)
      · exact (preserves_nonneg realConfig).join (n := 0) (m := 0) (hmid.2.1 _ hround.fst_mem)
          (hmid.2.1 _ hround.snd_mem) trivial
  exact hleft.2.2

variable [SeededUniform ℝ]

theorem meets_noRules (s : Session ℝ ℝ) (c : Call ℝ) : c.Meets noRules s := by
  have hwrites : ∀ (xs : List (Pattern ℝ)) (b : Batch ℝ ℝ), EachWrite noRules.write b xs := fun xs b =>
    Along.of_forall (fun _ _ _ => trivial) b
  cases c with
  | merge => exact Along.of_forall (fun _ _ _ _ _ => trivial) _
  | compress kappa lambda => exact fun _ _ _ _ _ _ => trivial
  | write input => exact hwrites _ _
  | writeTwo address counter opts => exact hwrites _ _
  | writeBatch inputs => exact hwrites _ _
  | writeWithMetadata input metadata => exact hwrites _ _
  | writeBatchWithMetadata items => exact hwrites _ _
  | loadSnapshotChecked snapshot config expected => exact hwrites _ _
  | deleteDocument writeIndex => exact hwrites _ _

theorem counting_effect {s : Session ℝ ℝ} (hr : s.Recoverable) (h : Counting config s.collection.inner) {c : Call ℝ}
    (hbuilds : c.Builds) (hacc : c.Accepted s) : Counting config (c.effect s).collection.inner := by
  obtain ⟨hconfig, hbuilt⟩ := h.built.effect (preserves_nonneg config) h.config_eq hbuilds hacc (meets_noRules s c)
  exact ⟨hconfig, (recoverable_effect hr hacc).arrays, measured_effect h.norms hr.shaped hacc, hbuilt⟩

/-- The call is a compression. -/
def Call.Compresses : Call ℝ → Prop
  | .compress .. => True
  | _ => False

/-- **A call that builds** is booked. -/
theorem booked_effect (hpos : 0 < config.d) {s : Session ℝ ℝ} (hcounting : Counting config s.collection.inner)
    (h : Booked config start xs compressed s.collection.inner.locations shares) {c : Call ℝ} (hbuilds : c.Builds)
    (hacc : c.Accepted s) : ∃ more, Booked config start (xs ++ c.patterns) (compressed ∨ c.Compresses)
      (c.effect s).collection.inner.locations (shares ++ more) := by
  obtain ⟨hconfig, harrays, hnorms, hbuilt⟩ := hcounting
  have hwrote : ∀ {ys : List (Pattern ℝ)}, s.Fits ys → ∀ n p, ∃ more, Booked config start (xs ++ ys)
      (compressed ∨ False) (s.wrote ys n p).collection.inner.locations (shares ++ more) := fun {ys} hfit n p => by
    have hbumped : Counting config s.collection.inner.bumpVersion :=
      ⟨hconfig, ⟨harrays.looks, harrays.matrix, harrays.matrix32⟩, hnorms.congr rfl rfl rfl, hbuilt⟩
    rw [or_false]
    exact (Booked.batch hpos ys (b := ⟨s.collection.inner.bumpVersion, s.rng, []⟩) hbumped h
      fun x hx => hconfig ▸ hfit x hx).2
  have hidle : ∀ {left : List (HardLocation ℝ)} {c' : Prop}, Balanced config.d s.collection.inner.locations left →
      (¬c' → (held config.d left).2 = (held config.d s.collection.inner.locations).2) →
      ∃ more, Booked config start (xs ++ []) (compressed ∨ c') left (shares ++ more) := fun hbalanced hexact => by
    refine ⟨[], ?_⟩
    rw [List.append_nil, List.append_nil]
    exact h.consolidated hbalanced fun hnot => ⟨fun hc => hnot (Or.inl hc), hexact fun hc => hnot (Or.inr hc)⟩
  cases c with
  | write input => exact hwrote hacc 0 _
  | writeTwo address counter opts => exact hwrote hacc 0 _
  | writeBatch inputs => exact hwrote hacc 0 _
  | writeWithMetadata input metadata => exact hwrote hacc 1 _
  | writeBatchWithMetadata items =>
    by_cases hemp : items = []
    · subst hemp
      exact hidle (.refl _ _) fun _ => rfl
    · rw [Call.effect, if_neg hemp]
      exact hwrote hacc items.length _
  | merge =>
    have hlocations : s.merged.collection.inner.locations = (knnMerge s.collection.inner.locations config).2 := by
      unfold Session.merged
      dsimp only
      rw [hconfig]
      split_ifs <;> rfl
    have hheld := held_knnMerge hbuilt.shaped config
    have hfewer : (knnMerge s.collection.inner.locations config).2.length ≤ s.collection.inner.locations.length := by
      have hids := (knnMerge_consolidated s.collection.inner.locations config).1.ids hbuilt.nodup
      have hlength := (congrArg List.length hids).trans_le (List.length_filter_le _ _)
      rwa [List.length_map, List.length_map] at hlength
    have hleast := leastWeight_nonneg
    have hbalanced : Balanced config.d s.collection.inner.locations s.merged.collection.inner.locations := by
      rw [hlocations]
      refine ⟨by rw [hheld], by rw [hheld], ?_⟩
      rw [hheld]
      have hcast : ((knnMerge s.collection.inner.locations config).2.length : ℝ) ≤ s.collection.inner.locations.length :=
        Nat.cast_le.mpr hfewer
      have := mul_le_mul_of_nonneg_left hcast (by linarith : 0 ≤ 2 * (leastWeight : ℝ))
      linarith
    have hexact : (held config.d s.merged.collection.inner.locations).2 =
        (held config.d s.collection.inner.locations).2 := by
      rw [hlocations, hheld]
    exact hidle hbalanced fun _ => hexact
  | compress kappa lambda =>
    obtain ⟨joins, hrun, -⟩ := compression_run s kappa lambda
    exact hidle (balanced_rounds hrun hbuilt.shaped hbuilt.each) fun hnot => absurd trivial hnot
  | loadSnapshotChecked snapshot config expected => exact hbuilds.elim
  | deleteDocument writeIndex => exact hidle (.refl _ _) fun _ => rfl

omit [SeededUniform ℝ] in
/-- A new collection has taken nothing in. -/
theorem booked_fresh (collectionId : ℕ) (name : String) (config : EAMConfig ℝ) (rng : Rng ℝ) (store : Store ℝ) :
    let s : Session ℝ ℝ := .fresh collectionId name config rng store
    Counting config s.collection.inner ∧ Booked config config.l0 [] False s.collection.inner.locations [] := by
  obtain ⟨hids, hshaped⟩ := randomLocations_ok config rng
  have hempty : ∀ loc ∈ (randomLocations config rng).1, evidence config.d loc = 0 := by
    have hzero : (lit 0 : ℝ) = 0 := by simp
    unfold randomLocations
    refine List.foldlRecOn (motive := fun acc : List (HardLocation ℝ) × Rng ℝ => ∀ loc ∈ acc.1, evidence config.d loc = 0)
      _ _ (fun loc hloc => absurd hloc List.not_mem_nil) fun acc h i _ => ?_
    refine List.forall_mem_append.mpr ⟨h, List.forall_mem_singleton.mpr ?_⟩
    rw [evidence, HardLocation.new, length_randomUnitVector, hzero, vec_replicate_zero]
    rfl
  have hheld : held config.d (randomLocations config rng).1 = 0 :=
    List.sum_eq_zero (List.forall_mem_map.mpr hempty)
  have hlength : (randomLocations config rng).1.length = config.l0 := by
    rw [← List.length_map (f := HardLocation.id), hids, List.length_range]
  refine ⟨⟨rfl, indexed_opened _ _ _ _ _, .opened _ _ _ _ _, ⟨hshaped, ?_, fun loc hloc => ?_, fun loc hloc => ?_⟩⟩, ?_⟩
  · rw [Session.fresh, EAMInner.opened, hids]
    exact List.nodup_range
  · exact List.mem_range.mp (hids ▸ List.mem_map_of_mem hloc)
  · exact (congrArg Prod.snd (hempty loc hloc)).ge
  · refine ⟨.nil, ?_, ?_, ?_, fun _ => ?_⟩
    · exact congrArg Prod.fst hheld
    · exact (congrArg Prod.snd hheld).ge
    · show (held config.d (randomLocations config rng).1).2 + 2 * leastWeight * (randomLocations config rng).1.length ≤ _
      rw [hheld, hlength, List.length_nil, Nat.cast_zero, add_zero]
      rfl
    · exact congrArg Prod.snd hheld

/-- **The ledger of evidence.** After any calls that build a collection, every
pattern counts with a share of at least one and at most `k`, and of one in a
plain collection and behind the gate; the counters add up to the patterns'
counters by these shares, and the write counts to the shares, exactly without
a compression and else up to twice 10⁻⁹ for each location there ever was. -/
theorem evidence_ledger {collectionId : ℕ} {name : String} {config : EAMConfig ℝ} {rng : Rng ℝ} {store : Store ℝ}
    (hpos : 0 < config.d) (hnew : store.Untouched collectionId) {cs : List (Call ℝ)} {s : Session ℝ ℝ}
    (hrun : Run Succeeds (.fresh collectionId name config rng store) cs s) :
    let locations := s.collection.inner.locations
    let written := cs.flatMap Call.patterns
    ∃ shares, List.Forall₂ (Share config) written shares ∧
      (locations.map fun loc => vec config.d loc.counter).sum =
        (List.zipWith (fun x share => share • vec config.d x.counter) written shares).sum ∧
      shares.sum ≤ (locations.map (·.writeCount)).sum ∧
      (locations.map (·.writeCount)).sum ≤ shares.sum + 2 * leastWeight * (config.l0 + written.length) ∧
      ((∀ c ∈ cs, ¬c.Compresses) → (locations.map (·.writeCount)).sum = shares.sum) := by
  intro locations written
  obtain ⟨hcounting0, hbooked0⟩ := booked_fresh collectionId name config rng store
  have hrec0 : (Session.fresh (S := ℝ) collectionId name config rng store).Recoverable :=
    recoverable_fresh name config rng hnew.locations ⟨0, hnew.loadU64 _ _⟩
  obtain ⟨-, -, shares, hbooked⟩ := hrun.history (P := fun cs s => s.Recoverable ∧ Counting config s.collection.inner ∧
      ∃ shares, Booked config config.l0 (cs.flatMap Call.patterns) (∃ c ∈ cs, c.Compresses)
        s.collection.inner.locations shares)
    ⟨hrec0, hcounting0, [], hbooked0.consolidated (.refl _ _) fun _ => ⟨id, rfl⟩⟩ fun {cs s c s'} h hstep => by
      obtain ⟨hrec, hcounting, shares, hbooked⟩ := h
      obtain ⟨hacc, rfl⟩ := hstep.effect
      obtain ⟨more, hmore⟩ := booked_effect hpos hcounting hbooked hstep.1 hacc
      refine ⟨recoverable_effect hrec hacc, counting_effect hrec hcounting hstep.1 hacc, shares ++ more, ?_⟩
      rw [List.flatMap_append, List.flatMap_singleton]
      refine hmore.consolidated (.refl _ _) fun hnot => ⟨fun hcompressed => hnot ?_, rfl⟩
      rcases hcompressed with ⟨c', hc', hcompresses⟩ | hcompresses
      · exact ⟨c', List.mem_append_left _ hc', hcompresses⟩
      · exact ⟨c, List.mem_append_right _ (List.mem_singleton_self c), hcompresses⟩
  have hsnd := booked_snd config.d hbooked.each.length_eq
  have hfirst : (held config.d locations).1 = (locations.map fun loc => vec config.d loc.counter).sum :=
    held_fst config.d locations
  have hsecond : (held config.d locations).2 = (locations.map (·.writeCount)).sum := held_snd config.d locations
  have hleast : (0 : ℝ) ≤ 2 * leastWeight * locations.length :=
    mul_nonneg (mul_nonneg zero_le_two leastWeight_nonneg) (Nat.cast_nonneg _)
  refine ⟨shares, hbooked.each, ?_, ?_, ?_, fun hnone => ?_⟩
  · rw [← hfirst, ← booked_fst]
    exact hbooked.counters
  · rw [← hsecond, ← hsnd]
    exact hbooked.atLeast
  · rw [← hsecond, ← hsnd]
    exact (le_add_of_nonneg_right hleast).trans hbooked.atMost
  · rw [← hsecond, ← hsnd]
    exact hbooked.exact fun ⟨c, hc, hcompresses⟩ => hnone c hc hcompresses

end runs

/-- A new plain collection. -/
noncomputable def plainStart : Session ℝ ℝ := .fresh 0 "c" realConfig (fun _ => 1) (.empty .f64)

/-- The ledger after a write and a batch: each pattern counts once. -/
theorem evidence_ledger_three : ∃ (_ : SeededUniform ℝ) (s : Session ℝ ℝ),
    Run Succeeds plainStart [.write [1], .writeBatch [[2], [-1]]] s ∧
    (s.collection.inner.locations.map (·.writeCount)).sum = 3 ∧
    (s.collection.inner.locations.map fun loc => vec 1 loc.counter).sum = vec 1 [1] + (vec 1 [2] + vec 1 [-1]) := by
  let _ : SeededUniform ℝ := { uniform := fun _ => 0 }
  have hfirst : Succeeds plainStart (.write [1]) (Call.effect plainStart (.write [1])) :=
    ⟨trivial, _, step_of_isOk rfl⟩
  have hsecond : Succeeds (Call.effect plainStart (.write [1])) (.writeBatch [[2], [-1]])
      (Call.effect (Call.effect plainStart (.write [1])) (.writeBatch [[2], [-1]])) :=
    ⟨trivial, _, step_of_isOk rfl⟩
  have hrun := (Run.single hfirst).snoc hsecond
  have hnew : (Store.empty (F := ℝ) .f64).Untouched 0 := ⟨fun _ => rfl, fun _ => rfl, fun _ => rfl, fun _ => rfl⟩
  obtain ⟨shares, hshares, hcounters, -, -, hexact⟩ := evidence_ledger Nat.one_pos hnew hrun
  have hquiet : ∀ c ∈ [Call.write [(1 : ℝ)], .writeBatch [[2], [-1]]], ¬c.Compresses := fun c hc => by
    rcases List.mem_pair.mp hc with rfl | rfl
    · exact id
    · exact id
  -- in a plain collection every share is one
  have hshares : List.Forall₂ (Share realConfig) [.single [1], .single [2], .single [-1]] shares := hshares
  obtain rfl : shares = [1, 1, 1] := by
    rcases hshares with _ | ⟨h1, _ | ⟨h2, _ | ⟨h3, _ | _⟩⟩⟩
    rw [h1.once (Or.inl rfl), h2.once (Or.inl rfl), h3.once (Or.inl rfl)]
  refine ⟨{ uniform := fun _ => 0 }, _, hrun, (hexact hquiet).trans (by norm_num), hcounters.trans ?_⟩
  show (1 : ℝ) • vec 1 [1] + ((1 : ℝ) • vec 1 [2] + ((1 : ℝ) • vec 1 [-1] + 0)) = _
  rw [one_smul, one_smul, one_smul, add_zero]

end HeatherDb
