/-
# Addresses on the unit sphere

Every write, merge and compression of a competitive memory normalizes the
addresses it makes, and `normalize` leaves a vector shorter than 10⁻¹² as it
is. In exact arithmetic the addresses stay unit vectors where no vector that
short is normalized (`normableRules`): the input of a write that seeds or
spawns, an address that a write moves, the weighted mean of a pair. The child
of a split is never short: it is a tenth of a unit vector away from the
winner's address.

Key definitions: `Normable`, `moved`, `NormableWrite`, `normableRules`.
Key theorems: `preserves_unit`, `addresses_unit`.
-/
import HeatherDb.Evidence
import HeatherDb.Neighbors
import HeatherDb.Ungated

namespace HeatherDb

open Scalar Narrow

/-! ### What is normalized -/

/-- Long enough to be normalized. -/
def Normable (v : List ℝ) : Prop := tiny ≤ l2Norm v

section model

variable {F : Type} [Scalar F]

/-- The address a join gives a location, before it is normalized. -/
def moved (address : List F) (w : F) (lr : F → F) (loc : HardLocation F) : List F :=
  addScaled loc.address (List.zipWith (fun x a => x - a) address loc.address) (lr (loc.writeCount + w))

/-- The weighted mean that a merge gives the survivor. -/
def mergedMean (a b : HardLocation F) : List F :=
  List.zipWith (fun x y => x * (a.writeCount / (a.writeCount + b.writeCount)) +
    y * (b.writeCount / (a.writeCount + b.writeCount))) a.address b.address

/-- The weighted sum that a compression gives the survivor. -/
def joinedSum (a b : HardLocation F) : List F :=
  List.zipWith (fun ai aj => fmax a.writeCount leastWeight * ai + fmax b.writeCount leastWeight * aj)
    a.address b.address

end model

/-- What a write normalizes is long enough: its own address where it seeds or
spawns, and where it joins the address of each location it moves. -/
structure NormableWrite (inner : EAMInner ℝ ℝ) (x : Pattern ℝ) (near : List ℕ × List ℝ) (sel : ℕ × Bool) : Prop where
  spawns : near.1 = [] ∨
    spawnNovelty inner.config inner.locations.length (near.2.headD (lit 0)) sel.2 x.opts = true → Normable x.address
  joins : spawnNovelty inner.config inner.locations.length (near.2.headD (lit 0)) sel.2 x.opts = false →
    ∀ p ∈ near.1.zipIdx, (x.opts.gate && p.2 != sel.1) = false →
      let weights := activationWeights near.2 (min inner.config.k inner.locations.length)
      let etaWinner := inner.eta / (lit 1 +
        (locationAt inner.locations (near.1.getD sel.1 0)).writeCount / inner.config.tauDamp)
      let w := if x.opts.gate then lit 1 else weights.getD p.2 (lit 0)
      let lr := fun writeCount =>
        if x.opts.gate then lit 1 / writeCount
        else if p.2 = sel.1 then etaWinner else etaWinner * lit (1 / 10)
      Normable (moved x.address w lr (locationAt inner.locations p.1))

/-- What a build is asked: that it normalizes no vector that is too short. -/
def normableRules : Rules ℝ ℝ where
  write inner x :=
    let near := nearest x.address inner.locations (min inner.config.k inner.locations.length) inner.writeScan
    NormableWrite inner x near (selectWinner x.counter inner.config inner.locations near.1 near.2 x.opts)
  merge a b := tiny < a.writeCount + b.writeCount → Normable (mergedMean a b)
  join _ a b := Normable (joinedSum a b)

/-- An address of `d` entries and norm one. -/
def OnSphere (d : ℕ) (loc : HardLocation ℝ) : Prop := loc.address.length = d ∧ l2Norm loc.address = 1

variable {d : ℕ}

/-- A vector that is long enough is normalized. -/
theorem l2Norm_normalize {v : List ℝ} (h : Normable v) : l2Norm (normalize v) = 1 := by
  have hnorm : tiny ≤ ‖vec v.length v‖ := (l2Norm_eq_norm rfl) ▸ h
  rw [l2Norm_eq_norm (length_normalize v), norm_vec_normalize rfl hnorm]

/-! ### Pairs -/

theorem onSphere_absorb {config : EAMConfig ℝ} (hcompetitive : config.competitive = true) {n : ℕ} {a b : HardLocation ℝ}
    (ha : OnSphere d a) (hb : OnSphere d b)
    (hmean : tiny < a.writeCount + b.writeCount → Normable (mergedMean a b)) : OnSphere d (absorb config n a b) := by
  have haddress : (absorb config n a b).address =
      if lt (lit (1 / 10 ^ 12)) (a.writeCount + b.writeCount) then normalize (mergedMean a b) else a.address := by
    unfold absorb
    dsimp only
    rw [if_pos hcompetitive]
    rfl
  unfold OnSphere
  rw [haddress, lit_tiny]
  by_cases hweight : tiny < a.writeCount + b.writeCount
  · rw [if_pos (lt_real.mpr hweight)]
    refine ⟨?_, l2Norm_normalize (hmean hweight)⟩
    rw [length_normalize, mergedMean, List.length_zipWith, ha.1, hb.1, min_self]
  · rw [if_neg (mt lt_real.mp hweight)]
    exact ha

theorem onSphere_joined {a b : HardLocation ℝ} (ha : OnSphere d a) (hb : OnSphere d b)
    (hsum : Normable (joinedSum a b)) :
    OnSphere d (joined a b) := by
  refine ⟨?_, l2Norm_normalize hsum⟩
  show (normalize (joinedSum a b)).length = d
  rw [length_normalize, joinedSum, List.length_zipWith, ha.1, hb.1, min_self]

/-! ### Writes -/

/-- **The child of a split** stands close to the winner and is not short. -/
theorem onSphere_splitChild {winner : HardLocation ℝ} (h : OnSphere d winner) (id nbCap : ℕ) (rng : Rng ℝ) :
    OnSphere d (splitChild id nbCap (randomUnitVector d rng).1 winner) := by
  set p := (randomUnitVector d rng).1
  have hp : p.length = d := length_randomUnitVector d rng
  have hshort : ‖vec d p‖ ≤ 1 := norm_vec_normalize_le (by simp)
  have hunit : ‖vec d winner.address‖ = 1 := (l2Norm_eq_norm h.1) ▸ h.2
  have hlength : (addScaled winner.address p (lit (1 / 10))).length = d := (length_addScaled _ _ _).trans h.1
  have hnormable : Normable (addScaled winner.address p (lit (1 / 10))) := by
    unfold Normable
    rw [l2Norm_eq_norm hlength, vec_addScaled h.1 hp]
    have hstep : ‖(lit (1 / 10) : ℝ) • vec d p‖ ≤ 1 / 10 := by
      rw [norm_smul, lit_real]
      norm_num
      linarith
    have htriangle := norm_sub_norm_le (vec d winner.address) (-((lit (1 / 10) : ℝ) • vec d p))
    rw [norm_neg, sub_neg_eq_add, hunit] at htriangle
    have hsmall : tiny ≤ 9 / 10 := by
      unfold tiny
      norm_num
    linarith
  exact ⟨(length_normalize _).trans hlength, l2Norm_normalize hnormable⟩

/-- A location after joins at distinct places is as it was or joined once. -/
theorem mem_foldl_modify {α : Type} (place : α → ℕ) (skip : α → Prop) [DecidablePred skip]
    {f : α → HardLocation ℝ → HardLocation ℝ} : ∀ {ps : List α} {ls : List (HardLocation ℝ)}, (ps.map place).Nodup →
    ∀ loc ∈ ps.foldl (fun ls p => if skip p then ls else ls.modify (place p) (f p)) ls,
      loc ∈ ls ∨ ∃ p ∈ ps, ¬skip p ∧ place p < ls.length ∧ loc = f p (locationAt ls (place p))
  | [], _, _, _, hloc => Or.inl hloc
  | p :: ps, ls, hnodup, loc, hloc => by
    obtain ⟨hp, hrest⟩ := List.nodup_cons.mp hnodup
    rw [List.foldl_cons] at hloc
    by_cases hskip : skip p
    · rw [if_pos hskip] at hloc
      rcases mem_foldl_modify place skip hrest loc hloc with hloc | ⟨q, hq, h⟩
      · exact Or.inl hloc
      · exact Or.inr ⟨q, List.mem_cons_of_mem p hq, h⟩
    · rw [if_neg hskip] at hloc
      rcases mem_foldl_modify place skip hrest loc hloc with hloc | ⟨q, hq, hnot, hlt, rfl⟩
      · rcases mem_modify hloc with hloc | ⟨hlt, rfl⟩
        · exact Or.inl hloc
        · exact Or.inr ⟨p, List.mem_cons_self, hskip, hlt, rfl⟩
      · -- another place, so the location there is still as it was
        have hne : place p ≠ place q := fun heq => hp (heq ▸ List.mem_map_of_mem hq)
        have hlt : place q < ls.length := by simpa using hlt
        refine Or.inr ⟨q, List.mem_cons_of_mem p hq, hnot, hlt, ?_⟩
        have hsame : locationAt (ls.modify (place p) (f p)) (place q) = locationAt ls (place q) := by
          rw [locationAt, locationAt, List.getD_eq_getElem _ _ hlt, List.getD_eq_getElem _ _ (by simpa using hlt),
            List.getElem_modify, if_neg hne]
        rw [hsame]

/-- A location after a write's joins is as it was or was moved once. -/
theorem mem_joinAll {address counter weights : List ℝ} {winner : ℕ} {etaWinner : ℝ} {indices : List ℕ}
    (hnodup : indices.Nodup) {opts : WriteOpts ℝ} {ls : List (HardLocation ℝ)} {loc : HardLocation ℝ}
    (hloc : loc ∈ joinAll address counter weights winner etaWinner indices opts ls) : loc ∈ ls ∨
      ∃ p ∈ indices.zipIdx, (opts.gate && p.2 != winner) = false ∧ p.1 < ls.length ∧
        loc = joinLocation address counter (if opts.gate then lit 1 else weights.getD p.2 (lit 0))
          (fun writeCount => if opts.gate then lit 1 / writeCount
            else if p.2 = winner then etaWinner else etaWinner * lit (1 / 10)) (locationAt ls p.1) := by
  have hplaces : (indices.zipIdx.map Prod.fst).Nodup := by
    rwa [List.zipIdx_map_fst]
  rcases mem_foldl_modify Prod.fst (fun p : ℕ × ℕ => (opts.gate && p.2 != winner) = true)
    hplaces loc hloc with hloc | ⟨p, hp, hskip, hlt, heq⟩
  · exact Or.inl hloc
  · exact Or.inr ⟨p, hp, Bool.eq_false_iff.mpr hskip, hlt, heq⟩

/-- **A competitive write** leaves unit addresses. -/
theorem onSphere_competitiveWrite {inner : EAMInner ℝ ℝ} {x : Pattern ℝ} {near : List ℕ × List ℝ}
    (hne : near.1 ≠ []) (hnodup : near.1.Nodup) (hlt : ∀ i ∈ near.1, i < inner.locations.length)
    (hx : x.address.length = inner.config.d) (h : ∀ loc ∈ inner.locations, OnSphere inner.config.d loc)
    (hnormable : NormableWrite inner x near (selectWinner x.counter inner.config inner.locations near.1 near.2 x.opts))
    (rng : Rng ℝ) :
    let w := competitiveWrite x.address x.counter inner.locations inner.config inner.eta inner.nextId rng x.opts
      near.1 near.2
    ∀ loc ∈ w.locations ++ w.result.newLocations, OnSphere inner.config.d loc := by
  obtain ⟨indices, sims⟩ := near
  dsimp only at hne hnodup hlt hnormable ⊢
  set sel := selectWinner x.counter inner.config inner.locations indices sims x.opts with hsel
  obtain ⟨hspawns, hjoins⟩ := hnormable
  dsimp only at hspawns hjoins
  unfold competitiveWrite
  simp only [← hsel]
  have hwinner : indices.getD sel.1 0 < inner.locations.length := by
    rw [List.getD_eq_getElem indices 0 (selectWinner_lt hne)]
    exact hlt _ (List.getElem_mem _)
  generalize spawnNovelty inner.config inner.locations.length (sims.headD (lit 0)) sel.2 x.opts =
    spawn at hspawns hjoins ⊢
  set joined := if spawn then inner.locations
    else joinAll x.address x.counter (activationWeights sims (min inner.config.k inner.locations.length)) sel.1
      (inner.eta / (lit 1 + (locationAt inner.locations (indices.getD sel.1 0)).writeCount / inner.config.tauDamp))
      indices x.opts inner.locations with hjoined
  have honJoined : ∀ loc ∈ joined, OnSphere inner.config.d loc := by
    intro loc hloc
    by_cases hspawn : spawn = true
    · rw [hjoined, if_pos hspawn] at hloc
      exact h loc hloc
    · rw [hjoined, if_neg hspawn] at hloc
      rcases mem_joinAll hnodup hloc with hloc | ⟨p, hp, hskip, hin, rfl⟩
      · exact h loc hloc
      · obtain ⟨hlength, -⟩ := h _ (locationAt_mem hin)
        refine ⟨?_, l2Norm_normalize (hjoins (Bool.eq_false_iff.mpr hspawn) p hp hskip)⟩
        show (normalize (addScaled (locationAt inner.locations p.1).address _ _)).length = _
        rw [length_normalize, length_addScaled, hlength]
  set surprised := if inner.config.mdlGate && !spawn then joined.modify (indices.getD sel.1 0) fun loc =>
    { loc with surpriseMass := loc.surpriseMass + surpriseBits (sims.getD sel.1 (lit 0)) } else joined with hsurprised
  set cap := inner.config.adaptiveNeighborCap inner.locations.length
  set linked := linkAll indices cap surprised with hlinked
  -- surprise, links and the parent of a split leave addresses alone
  have haddresses : linked.map (·.address) = joined.map (·.address) := by
    rw [hlinked, map_linkAll (fun _ _ _ => rfl), hsurprised]
    split_ifs
    · refine map_modify_of_eq ?_ _ _
      exact fun _ => rfl
    · rfl
  have hsame : ∀ {ls : List (HardLocation ℝ)}, ls.map (·.address) = joined.map (·.address) →
      ∀ loc ∈ ls, OnSphere inner.config.d loc := fun heq loc hloc => by
    have hmem := heq ▸ List.mem_map_of_mem (f := HardLocation.address) hloc
    obtain ⟨other, hother, haddress⟩ := List.mem_map.mp hmem
    have hon := honJoined other hother
    exact ⟨haddress ▸ hon.1, haddress ▸ hon.2⟩
  have honLinked := hsame haddresses
  split_ifs with hspawn hfull
  · refine List.forall_mem_append.mpr ⟨honLinked, List.forall_mem_singleton.mpr ?_⟩
    exact ⟨(length_normalize _).trans hx, l2Norm_normalize (hspawns (Or.inr hspawn))⟩
  · have hlength : linked.length = inner.locations.length := by
      have hjoinedLength : joined.length = inner.locations.length := by
        rw [hjoined, if_neg hspawn]
        exact (joinAll_edited ..).length
      have hmap := congrArg List.length haddresses
      rw [List.length_map, List.length_map] at hmap
      exact hmap.trans hjoinedLength
    refine List.forall_mem_append.mpr ⟨hsame ?_, List.forall_mem_singleton.mpr ?_⟩
    · refine (map_modify_of_eq ?_ linked (indices.getD sel.1 0)).trans haddresses
      exact fun _ => rfl
    · exact onSphere_splitChild (honLinked _ (locationAt_mem (hlength ▸ hwinner))) _ _ _
  · show ∀ loc ∈ linked ++ [], OnSphere inner.config.d loc
    rw [List.append_nil]
    exact honLinked

/-- **A write** leaves unit addresses. -/
theorem onSphere_adapt {inner : EAMInner ℝ ℝ} (hcompetitive : inner.config.competitive = true) {x : Pattern ℝ}
    (hx : x.address.length = inner.config.d) (h : ∀ loc ∈ inner.locations, OnSphere inner.config.d loc)
    (hnormable : normableRules.write inner x) (rng : Rng ℝ) :
    ∀ loc ∈ (inner.adapt x rng).inner.locations ++ (inner.adapt x rng).result.newLocations,
      OnSphere inner.config.d loc := by
  unfold EAMInner.adapt
  by_cases hcold : (nearest x.address inner.locations (min inner.config.k inner.locations.length)
    inner.writeScan).1 = []
  · rw [adaptiveWriteTwo_cold hcompetitive hcold]
    refine List.forall_mem_append.mpr ⟨h, List.forall_mem_singleton.mpr ?_⟩
    exact ⟨(length_normalize _).trans hx, l2Norm_normalize (hnormable.spawns (Or.inl hcold))⟩
  · rw [adaptiveWriteTwo_warm hcompetitive hcold]
    exact onSphere_competitiveWrite hcold (nodup_nearest ..) (fun i hi => mem_nearest_lt hi) hx h hnormable rng

/-! ### Whole builds -/

/-- Every elementary operation that normalizes no short vector leaves unit
addresses. -/
theorem preserves_unit {config : EAMConfig ℝ} (hcompetitive : config.competitive = true) :
    Preserves config normableRules fun _ => OnSphere config.d where
  mono h _ := h
  write rng hconfig h hfit hnormable := by
    subst hconfig
    exact onSphere_adapt hcompetitive hfit.1 h.each hnormable rng
  merge ha hb hmean := onSphere_absorb hcompetitive ha hb hmean
  join ha hb hsum := onSphere_joined ha hb hsum

section runs

variable [SeededUniform ℝ]

/-- **Addresses stay on the unit sphere** where no vector is normalized that is
too short: in every state of a build of a competitive collection from an empty
one each address has norm one. -/
theorem addresses_unit {s0 s : Session ℝ ℝ} {cs : List (Call ℝ)}
    (hcompetitive : s0.collection.inner.config.competitive = true) (hempty : s0.collection.inner.locations = [])
    (hrun : Run (Building normableRules) s0 cs s) : ∀ loc ∈ s.collection.inner.locations, l2Norm loc.address = 1 := by
  obtain ⟨-, hbuilt⟩ := built_run (preserves_unit hcompetitive) hempty hrun
  exact fun loc hloc => (hbuilt.each loc hloc).2

end runs

/-- A new competitive collection of the line. -/
noncomputable def lineSession : Session ℝ ℝ :=
  .fresh 0 "c" { realConfig with competitive := true } (fun _ => 1) (.empty .f64)

/-- A build of one write. -/
theorem addresses_unit_one : ∃ (_ : SeededUniform ℝ) (s : Session ℝ ℝ),
    Run (Building normableRules) lineSession [.write [1]] s ∧ s.collection.inner.locations.length = 1 ∧
      ∀ loc ∈ s.collection.inner.locations, l2Norm loc.address = 1 := by
  let _ : SeededUniform ℝ := { uniform := fun _ => 0 }
  have hmeets : (Call.write [(1 : ℝ)]).Meets normableRules lineSession := by
    refine ⟨⟨fun _ => ?_, fun _ p hp => absurd hp List.not_mem_nil⟩, trivial⟩
    show tiny ≤ l2Norm [1]
    rw [l2Norm_singleton zero_le_one]
    exact tiny_lt_one.le
  have hrun : Run (Building normableRules) lineSession [.write [1]] (Call.effect lineSession (.write [1])) :=
    Run.single ⟨hmeets, trivial, _, step_of_isOk rfl⟩
  exact ⟨{ uniform := fun _ => 0 }, _, hrun, rfl, addresses_unit rfl rfl hrun⟩

/-- A first write of the zero vector seeds a location at the origin. -/
theorem addresses_not_unit : ¬∀ (_ : SeededUniform ℝ) (s0 s : Session ℝ ℝ) (cs : List (Call ℝ)),
    s0.collection.inner.config.competitive = true → s0.collection.inner.locations = [] → Run Succeeds s0 cs s →
    ∀ loc ∈ s.collection.inner.locations, l2Norm loc.address = 1 := by
  intro hall
  let _ : SeededUniform ℝ := { uniform := fun _ => 0 }
  have hrun : Run Succeeds lineSession [.write [0]] (Call.effect lineSession (.write [0])) :=
    Run.single ⟨trivial, _, step_of_isOk rfl⟩
  have hleft : (Call.effect lineSession (.write [0])).collection.inner.locations =
      [freshLocation 0 (normalize [0]) [0]] := rfl
  have hunit := hall _ _ _ _ rfl rfl hrun (freshLocation 0 (normalize [0]) [0]) (hleft ▸ List.mem_singleton_self _)
  have hzero : ‖vec 1 [(0 : ℝ)]‖ < tiny := by
    have hnorm : l2Norm [(0 : ℝ)] = ‖vec 1 [(0 : ℝ)]‖ := l2Norm_eq_norm rfl
    rw [← hnorm, l2Norm_singleton le_rfl]
    exact tiny_pos
  have hsame : (freshLocation 0 (normalize [(0 : ℝ)]) [0]).address = [0] := vec_normalize_of_lt rfl hzero
  rw [hsame, l2Norm_singleton le_rfl] at hunit
  exact zero_ne_one hunit

end HeatherDb
