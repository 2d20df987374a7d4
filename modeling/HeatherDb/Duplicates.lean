/-
# Merging duplicates and attention

Two locations with one address weigh together what they weighed apart, in any
read of all locations: masses and moments are proportional to write counts and
counters, which are added. So attention does not change where only duplicates
are put together and keep their address.

The merge of a plain collection keeps it: the mean of two equal addresses is
that address, and a plain merge does not normalize it
(`merging_duplicates_keeps_attention`). Compression normalizes the joined
address in a plain collection too, so that it keeps attention where the
addresses it joins are unit vectors (`compressing_units_keeps_attention`) and
can change it where they are not (`compressing_duplicates_loses_attention`).

Key definitions: `OnlyDuplicates`, `Duplicate`.
Key theorems: `attention_congr`, `merging_duplicates_keeps_attention`,
`compressing_units_keeps_attention`, `compressing_duplicates_loses_attention`.
-/
import HeatherDb.Consolidation
import HeatherDb.Evidence
import HeatherDb.Mixture
import HeatherDb.Rounds

namespace HeatherDb

open Scalar

variable {d : ℕ} {query : List ℝ} {scale : ℝ}

/-- Memories with the same masses and moments in sum read the same. -/
theorem attention_congr {inner inner' : EAMInner ℝ ℝ} (harrays : Indexed inner) (harrays' : Indexed inner')
    (hconfig : inner'.config = inner.config) (hshaped : Shaped inner.config.d inner.locations)
    (hshaped' : Shaped inner.config.d inner'.locations) (hk : inner.locations.length ≤ inner.config.k)
    (hk' : inner'.locations.length ≤ inner.config.k) (hcount : ∀ loc ∈ inner.locations, 1 ≤ loc.writeCount)
    (hcount' : ∀ loc ∈ inner'.locations, 1 ≤ loc.writeCount)
    (hmass : (inner'.locations.map (mass query scale)).sum = (inner.locations.map (mass query scale)).sum)
    (hmoment : (inner'.locations.map (moment inner.config.d query scale)).sum =
      (inner.locations.map (moment inner.config.d query scale)).sum) :
    (attentionLocked inner' query scale none none).result = (attentionLocked inner query scale none none).result := by
  obtain ⟨hvec, hlength⟩ := attention_eq harrays hshaped hk hcount query scale
  obtain ⟨hvec', hlength'⟩ := attention_eq harrays' (hconfig ▸ hshaped') (hconfig ▸ hk') hcount' query scale
  rw [hconfig] at hvec' hlength'
  -- a memory without locations is the only one without mass
  have hempty : ∀ {ls : List (HardLocation ℝ)}, (∀ loc ∈ ls, 1 ≤ loc.writeCount) →
      ((ls.map (mass query scale)).sum = 0 ↔ ls = []) := by
    intro ls hls
    constructor
    · intro hzero
      cases ls with
      | nil => rfl
      | cons loc ls =>
        have hrest : 0 ≤ (ls.map (mass query scale)).sum := List.sum_nonneg fun x hx => by
          obtain ⟨l, hl, rfl⟩ := List.mem_map.mp hx
          exact (mass_pos (hls l (List.mem_cons_of_mem loc hl))).le
        have hfirst : 0 < mass query scale loc := mass_pos (hls loc List.mem_cons_self)
        rw [List.map_cons, List.sum_cons] at hzero
        linarith
    · rintro rfl
      rfl
  have hboth : inner'.locations = [] ↔ inner.locations = [] := by
    rw [← hempty hcount', ← hempty hcount, hmass]
  by_cases hnil : inner.locations = []
  · rw [if_pos hnil] at hlength
    rw [if_pos (hboth.mpr hnil)] at hlength'
    rw [List.length_eq_zero_iff.mp hlength, List.length_eq_zero_iff.mp hlength']
  · rw [if_neg hnil] at hlength
    rw [if_neg (mt hboth.mp hnil)] at hlength'
    refine vec_injective hlength' hlength ?_
    rw [hvec, hvec', hmass, hmoment]

/-! ### The merge -/

/-- Locations of one address and counters of `d` entries, written at least once. -/
structure Duplicate (d : ℕ) (o loc : HardLocation ℝ) : Prop where
  address : loc.address = o.address
  length : loc.counter.length = d
  count : 1 ≤ loc.writeCount

/-- Locations are more similar than `tau_merge` only where they have one
address; those without direction have no similarity. -/
def OnlyDuplicates (config : EAMConfig ℝ) (locations : List (HardLocation ℝ)) : Prop :=
  ∀ i < locations.length, ∀ j ∈ usable locations (addressNorms locations) i,
    tiny ≤ (addressNorms locations).getD i 0 → config.tauMerge < sim locations (addressNorms locations) i j →
      (locationAt locations i).address = (locationAt locations j).address

/-- The mean of one address with itself. -/
theorem zipWith_mean_self {x y : ℝ} (h : x + y = 1) (v : List ℝ) :
    List.zipWith (fun a b => a * x + b * y) v v = v := by
  rw [List.zipWith_self]
  refine (List.map_congr_left fun a _ => ?_).trans (List.map_id v)
  rw [← mul_add, h, mul_one, id_eq]

/-- A plain merge of duplicates keeps their address. -/
theorem absorb_duplicate {config : EAMConfig ℝ} (hplain : config.competitive = false) {n : ℕ} {o a b : HardLocation ℝ}
    (ha : Duplicate d o a) (hb : Duplicate d o b) : Duplicate d o (absorb config n a b) := by
  have ha1 := ha.count
  have hb1 := hb.count
  have hpos : 0 < a.writeCount + b.writeCount := by linarith
  refine ⟨?_, (length_addScaled _ _ _).trans ha.length, ?_⟩
  · have hweights : a.writeCount / (a.writeCount + b.writeCount) + b.writeCount / (a.writeCount + b.writeCount) =
      1 := by
      rw [← add_div, div_self hpos.ne']
    unfold absorb
    dsimp only
    rw [hplain, if_neg Bool.false_ne_true, ha.address, hb.address]
    split_ifs
    · exact zipWith_mean_self hweights _
    · rfl
  · show (1 : ℝ) ≤ a.writeCount + b.writeCount
    linarith

/-- Duplicates put together weigh what they weighed apart. -/
theorem mass_add {a b x : HardLocation ℝ} (haddress : x.address = a.address) (hsame : a.address = b.address)
    (hcount : x.writeCount = a.writeCount + b.writeCount) :
    mass query scale x = mass query scale a + mass query scale b := by
  rw [mass, mass, mass, haddress, ← hsame, hcount, add_mul]

theorem moment_add {a b x : HardLocation ℝ} (haddress : x.address = a.address) (hsame : a.address = b.address)
    (hcounter : vec d x.counter = vec d a.counter + vec d b.counter) :
    moment d query scale x = moment d query scale a + moment d query scale b := by
  rw [moment, moment, moment, haddress, ← hsame, hcounter, smul_add]

section merge

variable [SeededUniform ℝ] {config : EAMConfig ℝ} {locations : List (HardLocation ℝ)}

/-- A pair of the merge has one address. -/
theorem address_eq_of_mem_mergePairs (hdup : OnlyDuplicates config locations) {p : ℕ × ℕ × ℝ}
    (hp : p ∈ mergePairs locations config) :
    (locationAt locations p.1).address = (locationAt locations p.2.1).address := by
  obtain ⟨hi, hj, -, hanswer, hgt⟩ := mem_mergePairs hp
  have hplain : bruteOne locations (addressNorms locations) p.1 = some p.2 := by
    have hget : (nearestNeighbors locations (addressNorms locations))[p.1]? = some (some p.2) := hanswer
    rwa [nearestNeighbors_eq, List.getElem?_map, List.getElem?_range hi, Option.map_some, Option.some.injEq] at hget
  have hnearest := isNearest_bruteOne locations (addressNorms locations) p.1
  rw [hplain] at hnearest
  rcases lt_or_ge ((addressNorms locations).getD p.1 0) tiny with hlt | hge
  · exact absurd (hnearest.undirected hlt) (by simp)
  · obtain ⟨husable, hs, -⟩ := hnearest.first hge
    exact hdup p.1 hi p.2.1 husable hge (hs ▸ lt_real.mp hgt)

theorem additive_duplicates {M : Type} [AddCommMonoid M] {μ : HardLocation ℝ → M} (hplain : config.competitive = false)
    (hd : ∀ loc ∈ locations, loc.counter.length = d) (hcount : ∀ loc ∈ locations, 1 ≤ loc.writeCount)
    (hdup : OnlyDuplicates config locations)
    (hμ : ∀ {a b x : HardLocation ℝ}, x.address = a.address → a.address = b.address →
      x.writeCount = a.writeCount + b.writeCount → vec d x.counter = vec d a.counter + vec d b.counter →
      μ x = μ a + μ b) : Additive config locations (Duplicate d) μ where
  refl loc hloc := ⟨rfl, hd loc hloc, hcount loc hloc⟩
  step p hp a b ha hb := by
    have hsame := address_eq_of_mem_mergePairs hdup hp
    have hb' : Duplicate d (locationAt locations p.1) b := ⟨hsame ▸ hb.address, hb.length, hb.count⟩
    have hjoin := absorb_duplicate (n := locations.length) hplain ha hb'
    refine ⟨hjoin, hμ (hjoin.address.trans ha.address.symm) (ha.address.trans hb'.address.symm) rfl ?_⟩
    show vec d (addScaled a.counter b.counter (lit 1)) = _
    rw [vec_addScaled ha.length hb.length, lit_real, Rat.cast_one, one_smul]

/-- **Merging duplicates keeps attention**: where only locations of one address
are as similar as a merge asks for, a read of all locations of a plain
collection gives the same value before and after it. -/
theorem merging_duplicates_keeps_attention {inner inner' : EAMInner ℝ ℝ} (harrays : Indexed inner)
    (harrays' : Indexed inner') (hconfig : inner'.config = inner.config)
    (hmerged : inner'.locations = (knnMerge inner.locations inner.config).2)
    (hshaped : Shaped inner.config.d inner.locations) (hplain : inner.config.competitive = false)
    (hcount : ∀ loc ∈ inner.locations, 1 ≤ loc.writeCount) (hk : inner.locations.length ≤ inner.config.k)
    (hdup : OnlyDuplicates inner.config inner.locations) (query : List ℝ) (scale : ℝ) :
    (attentionLocked inner' query scale none none).result = (attentionLocked inner query scale none none).result := by
  have hd : ∀ loc ∈ inner.locations, loc.counter.length = inner.config.d := fun loc hloc => (hshaped loc hloc).2
  have hmass := sum_knnMerge (additive_duplicates (μ := mass query scale) hplain hd hcount hdup
    fun ha hb hc _ => mass_add ha hb hc)
  have hmoment := sum_knnMerge (additive_duplicates (μ := moment inner.config.d query scale) hplain hd hcount hdup
    fun ha hb _ hv => moment_add ha hb hv)
  have hmerge := (knnMerge_consolidated inner.locations inner.config).1
  refine attention_congr harrays harrays' hconfig hshaped (hmerged ▸ hmerge.shaped _ hshaped) hk ?_ hcount
    (fun loc hloc => ?_) (hmerged ▸ hmass.1) (hmerged ▸ hmoment.1)
  · exact hmerged ▸ (knnMerge_length_le inner.locations inner.config).trans hk
  · obtain ⟨o, -, hdup⟩ := hmass.2 loc (hmerged ▸ hloc)
    exact hdup.count

end merge

/-- Two locations at `x` with a write each, and one at the origin. -/
noncomputable def twice (x : ℝ) : List (HardLocation ℝ) :=
  [writtenOnce 0 [x] [1], writtenOnce 1 [x] [1], writtenOnce 2 [0] [0]]

/-- A plain collection with these locations. -/
noncomputable def twiceSession (x : ℝ) : Session ℝ ℝ where
  store := .empty .f64
  rng _ := 0
  collection := ⟨0, "c", .opened realConfig (twice x) 3 (1 / 10) 0⟩

theorem shaped_twice (x : ℝ) : Shaped realConfig.d (twice x) := by
  intro loc hloc
  simp only [twice, List.mem_cons, List.not_mem_nil, or_false] at hloc
  rcases hloc with rfl | rfl | rfl <;> exact ⟨rfl, rfl⟩

theorem writeCount_twice {x : ℝ} {loc : HardLocation ℝ} (hloc : loc ∈ twice x) : loc.writeCount = 1 := by
  simp only [twice, List.mem_cons, List.not_mem_nil, or_false] at hloc
  rcases hloc with rfl | rfl | rfl <;> rfl

/-- Two locations at 1 and one at 0, the first two merged. -/
theorem merging_duplicates_keeps_attention_twice : ∃ _ : SeededUniform ℝ,
    (attentionLocked (EAMInner.rebuildGraphCache { (twiceSession 1).collection.inner with
        locations := (knnMerge (twice 1) realConfig).2 }) [1] 1 none none).result =
      (attentionLocked (twiceSession 1).collection.inner [1] 1 none none).result := by
  refine ⟨{ uniform := fun _ => 0 }, ?_⟩
  let _ : SeededUniform ℝ := { uniform := fun _ => 0 }
  have hdup : OnlyDuplicates realConfig (twice 1) := by
    -- the location at 0 has no direction
    have hdirected : ∀ k < (twice 1).length, tiny ≤ (addressNorms (twice 1)).getD k 0 →
        (locationAt (twice 1) k).address = [1] := by
      intro k hk hnorm
      have hlist : k = 0 ∨ k = 1 ∨ k = 2 := by
        have hthree : (twice 1).length = 3 := rfl
        omega
      rcases hlist with rfl | rfl | rfl
      · rfl
      · rfl
      · have hzero : (addressNorms (twice 1)).getD 2 0 = l2Norm [(0 : ℝ)] := rfl
        rw [hzero, l2Norm_singleton le_rfl] at hnorm
        exact absurd hnorm (not_le.mpr tiny_pos)
    intro i hi j hj hnorm _
    rw [hdirected i hi hnorm, hdirected j hj.1 hj.2.2]
  have harrays : Indexed (twiceSession 1).collection.inner := indexed_opened _ _ _ _ _
  exact merging_duplicates_keeps_attention harrays (indexed_rebuildGraphCache _) rfl rfl (shaped_twice 1) rfl
    (fun loc hloc => (writeCount_twice hloc).ge) (le_refl 3) hdup [1] 1

/-! ### Compression -/

/-- Every pair that a compression joins is as `P` says. -/
def EachJoin (kappa lambda : ℝ) (locations : List (HardLocation ℝ))
    (P : HardLocation ℝ → HardLocation ℝ → Prop) : Prop :=
  ∀ joins mid p next, Run (Round kappa lambda (totalWeight locations)) locations joins mid →
    Round kappa lambda (totalWeight locations) mid p next → P p.1 p.2

theorem leastWeight_real : (leastWeight : ℝ) = 1 / 10 ^ 9 := by
  rw [leastWeight, lit_real]
  norm_num

theorem leastWeight_nonneg : 0 ≤ (leastWeight : ℝ) := by
  rw [leastWeight_real]
  norm_num

/-- Counts that are floored at `leastWeight` are at least that anyway. -/
theorem fmax_leastWeight {x : ℝ} (h : 1 / 10 ^ 9 ≤ x) : fmax x leastWeight = x := by
  rw [fmax_real, leastWeight_real, max_eq_left h]

/-- What a join takes over of two locations. -/
theorem joined_parts {a b : HardLocation ℝ} (ha : a.counter.length = d) (hb : b.counter.length = d)
    (hca : 1 / 10 ^ 9 ≤ a.writeCount) (hcb : 1 / 10 ^ 9 ≤ b.writeCount) :
    (joined a b).writeCount = a.writeCount + b.writeCount ∧ (joined a b).counter.length = d ∧
      vec d (joined a b).counter = vec d a.counter + vec d b.counter := by
  have hdrop : a.counter.drop b.counter.length = [] := List.drop_eq_nil_of_le (ha.trans hb.symm).le
  have hcounter : (joined a b).counter = List.zipWith (fun c add => c + add) a.counter b.counter := by
    show List.zipWith _ a.counter b.counter ++ a.counter.drop b.counter.length = _
    rw [hdrop, List.append_nil]
  refine ⟨?_, ?_, ?_⟩
  · show fmax a.writeCount leastWeight + fmax b.writeCount leastWeight = _
    rw [fmax_leastWeight hca, fmax_leastWeight hcb]
  · rw [hcounter, List.length_zipWith, ha, hb, min_self]
  · have hsum := vec_zipWith (a := 1) (b := 1) (f := fun x y => x + y) (fun x y => by ring) ha hb
    rw [one_smul, one_smul] at hsum
    rw [hcounter]
    exact hsum

/-- **A join of unit vectors that are equal keeps them**, and a join of zeros. -/
theorem joined_address {a b : HardLocation ℝ} (ha : a.address.length = d) (hsame : a.address = b.address)
    (hca : 1 ≤ a.writeCount) (hcb : 1 ≤ b.writeCount) (hnorm : l2Norm a.address = 1 ∨ l2Norm a.address = 0) :
    (joined a b).address = a.address := by
  have hsmall : (1 : ℝ) / 10 ^ 9 ≤ 1 := by norm_num
  set wi := a.writeCount
  set wj := b.writeCount
  set sum := List.zipWith (fun ai aj => wi * ai + wj * aj) a.address a.address with hsumdef
  have haddress : (joined a b).address = normalize sum := by
    show normalize (List.zipWith _ a.address b.address) = _
    rw [fmax_leastWeight (hsmall.trans hca), fmax_leastWeight (hsmall.trans hcb), ← hsame]
  have hlength : sum.length = d := by simp [hsumdef, ha]
  have hvec : vec d sum = (wi + wj) • vec d a.address := by
    rw [hsumdef, vec_zipWith (fun x y => rfl) ha ha, add_smul]
  rw [haddress]
  rw [l2Norm_eq_norm ha] at hnorm
  rcases hnorm with hone | hzero
  · have hpos : 0 < wi + wj := by linarith
    have hnorm : ‖vec d sum‖ = wi + wj := by
      rw [hvec, norm_smul, hone, mul_one, Real.norm_of_nonneg hpos.le]
    have htiny : tiny ≤ ‖vec d sum‖ := by
      rw [hnorm]
      exact tiny_lt_one.le.trans (show (1 : ℝ) ≤ wi + wj by linarith)
    refine vec_injective (d := d) ((length_normalize _).trans hlength) ha ?_
    rw [vec_normalize hlength htiny, hnorm, hvec, smul_smul, inv_mul_cancel₀ hpos.ne', one_smul]
  · have hnull : vec d a.address = 0 := norm_eq_zero.mp hzero
    have hnorm : ‖vec d sum‖ < tiny := by
      rw [hvec, hnull, smul_zero, norm_zero]
      exact tiny_pos
    rw [vec_normalize_of_lt hlength hnorm]
    refine vec_injective (d := d) hlength ha ?_
    rw [hvec, hnull, smul_zero]

/-- **Compressing equal unit vectors keeps attention**: where every pair that
is joined has one address and that is of norm one, or zero, a read of all
locations gives the same value before and after. -/
theorem compressing_units_keeps_attention {s : Session ℝ ℝ} (harrays : Indexed s.collection.inner)
    (hshaped : Shaped s.collection.inner.config.d s.collection.inner.locations)
    (hcount : ∀ loc ∈ s.collection.inner.locations, 1 ≤ loc.writeCount)
    (hk : s.collection.inner.locations.length ≤ s.collection.inner.config.k) {kappa lambda : ℝ}
    (hjoins : EachJoin kappa lambda s.collection.inner.locations fun a b =>
      a.address = b.address ∧ (l2Norm a.address = 1 ∨ l2Norm a.address = 0)) :
    (∀ fs result s' fs', compress kappa lambda ⟨s, fs⟩ = (.ok result, ⟨s', fs'⟩) → s' = s.compressed kappa lambda) ∧
      ∀ query scale, (attentionLocked (s.compressed kappa lambda).collection.inner query scale none none).result =
        (attentionLocked s.collection.inner query scale none none).result := by
  refine ⟨fun fs result s' fs' h => (compress_ok h).1, fun query scale => ?_⟩
  set before := s.collection.inner.locations with hbefore
  set d := s.collection.inner.config.d with hd
  set w := totalWeight before
  have hsmall : (1 : ℝ) / 10 ^ 9 ≤ 1 := by norm_num
  obtain ⟨joins, hrun, -, -, -⟩ := compression_run s kappa lambda
  -- along the rounds: shapes, counts and the sums of masses and moments
  have hkept := hrun.history (P := fun joins mid => Run (Round kappa lambda w) before joins mid ∧
      (mid.length ≤ before.length ∧ Shaped d mid ∧ ∀ loc ∈ mid, 1 ≤ loc.writeCount) ∧
      (mid.map (mass query scale)).sum = (before.map (mass query scale)).sum ∧
      (mid.map (moment d query scale)).sum = (before.map (moment d query scale)).sum)
    ⟨.nil, ⟨le_rfl, hshaped, hcount⟩, rfl, rfl⟩ fun {joins mid p next} hmid hround => by
      obtain ⟨hreached, ⟨hlength, hshapes, hcounts⟩, hmass, hmoment⟩ := hmid
      obtain ⟨hsame, hnorm⟩ := hjoins joins mid p next hreached hround
      obtain ⟨haddr, hctr⟩ := hshapes _ hround.fst_mem
      obtain ⟨-, hctr'⟩ := hshapes _ hround.snd_mem
      have hca := hcounts _ hround.fst_mem
      have hcb := hcounts _ hround.snd_mem
      obtain ⟨hjcount, hjlength, hjcounter⟩ := joined_parts hctr hctr' (hsmall.trans hca) (hsmall.trans hcb)
      have hjaddress := joined_address haddr hsame hca hcb hnorm
      refine ⟨hreached.snoc hround, ⟨?_, fun loc hloc => ?_, fun loc hloc => ?_⟩, ?_, ?_⟩
      · have := hround.length
        omega
      · rcases hround.mem hloc with hloc | rfl
        · exact hshapes loc hloc
        · exact ⟨by rw [hjaddress]; exact haddr, hjlength⟩
      · rcases hround.mem hloc with hloc | rfl
        · exact hcounts loc hloc
        · rw [hjcount]
          linarith
      · rw [hround.sum (mass_add hjaddress hsame hjcount), hmass]
      · rw [hround.sum (moment_add hjaddress hsame hjcounter), hmoment]
  obtain ⟨-, ⟨hlength, hshapes, hcounts⟩, hmass, hmoment⟩ := hkept
  exact attention_congr harrays (indexed_compressed harrays kappa lambda) (config_compressed s kappa lambda)
    hshaped hshapes hk (hlength.trans hk) hcount hcounts hmass hmoment

theorem closestPair_twice (x : ℝ) : closestPair (twice x) = (0, 1, x * x) := by
  have hdot : ∀ a b : ℝ, dot [a] [b] = a * b := fun a b => by
    rw [dot, sum_real]
    simp
  have hfirst : lt (-2 : ℝ) (x * x) = true := by
    rw [lt_real]
    nlinarith
  have hrest : lt (x * x) 0 = false := by
    rw [Bool.eq_false_iff, ne_eq, lt_real]
    nlinarith
  have hunfold : closestPair (twice x) = closer (twice x) 1 (closer (twice x) 0 (closer (twice x) 0
      (0, 1, lit (-2)) 1) 2) 2 := rfl
  rw [hunfold]
  simp [twice, closer, locationAt, writtenOnce, hdot, hfirst, hrest]

/-- The pair is joined, and no other. -/
theorem round_twice {x w : ℝ} {joins : List (HardLocation ℝ × HardLocation ℝ)}
    {mid : List (HardLocation ℝ)}
    (hrun : Run (Round 1 0 w) (twice x) joins mid) {p : HardLocation ℝ × HardLocation ℝ} {next : List (HardLocation ℝ)}
    (hround : Round 1 0 w mid p next) : p.1 = writtenOnce 0 [x] [1] ∧ p.2 = writtenOnce 1 [x] [1] ∧
      next = [joined (writtenOnce 0 [x] [1]) (writtenOnce 1 [x] [1]), writtenOnce 2 [0] [0]] := by
  have hmid : mid = twice x ∨ mid.length ≤ 2 := hrun.invariant
      (P := fun ls => ls = twice x ∨ ls.length ≤ 2) (Or.inl rfl) fun {ls p ls'} hls hround => by
    have hmany := hround.many
    have hlength := hround.length
    rcases hls with rfl | hls
    · have hthree : (twice x).length = 3 := rfl
      omega
    · omega
  have hmany := hround.many
  obtain rfl : mid = twice x := hmid.resolve_right (not_le.mpr hmany)
  have hfst := hround.fst_eq
  have hsnd := hround.snd_eq
  have hnext := hround.next
  rw [closestPair_twice x] at hfst hsnd hnext
  have hfst : p.1 = writtenOnce 0 [x] [1] := hfst
  have hsnd : p.2 = writtenOnce 1 [x] [1] := hsnd
  rw [hfst, hsnd] at hnext
  exact ⟨hfst, hsnd, hnext⟩

/-- What is left of the collection. -/
theorem locations_twice (x : ℝ) : ((twiceSession x).compressed 1 0).collection.inner.locations =
    [joined (writtenOnce 0 [x] [1]) (writtenOnce 1 [x] [1]), writtenOnce 2 [0] [0]] := by
  obtain ⟨joins, hrun, hstop, -, -⟩ := compression_run (twiceSession x) 1 0
  generalize ((twiceSession x).compressed 1 0).collection.inner.locations = left at hrun hstop
  have hw : totalWeight (twice x) = 3 := by
    rw [totalWeight, sum_real, fmax_real]
    norm_num [twice, writtenOnce]
  cases hrun with
  | nil =>
    -- the pair is worth joining
    exfalso
    rcases hstop with hfew | hpays
    · have hthree : (twice x).length ≤ 2 := hfew
      exact absurd hthree (by simp [twice])
    · have hlog : Real.logb 2 2 < Real.logb 2 3 := Real.logb_lt_logb (by norm_num) (by norm_num) (by norm_num)
      rw [Real.logb_self_eq_one (by norm_num)] at hlog
      have hpaid : pays 1 0 (totalWeight (twice x)) (twice x) (closestPair (twice x)) = true := by
        have hn : (twice x).length = 3 := rfl
        unfold pays
        rw [hw, hn]
        simp only [Bool.not_eq_true', Bool.eq_false_iff, ne_eq, le_real, not_le, log2_real, ofUsize_real]
        rw [mul_zero]
        norm_num
        linarith
      exact Bool.false_ne_true (hpays.symm.trans hpaid)
  | snoc h hs => exact (round_twice h hs).2.2

/-- The same locations, the first two joined at the unit vector they are at. -/
theorem compressing_units_keeps_attention_twice :
    (attentionLocked ((twiceSession 1).compressed 1 0).collection.inner [1] 1 none none).result =
      (attentionLocked (twiceSession 1).collection.inner [1] 1 none none).result := by
  have hjoins : EachJoin 1 0 (twiceSession 1).collection.inner.locations fun a b =>
      a.address = b.address ∧ (l2Norm a.address = 1 ∨ l2Norm a.address = 0) := by
    intro joins mid p next hrun hround
    obtain ⟨hfst, hsnd, -⟩ := round_twice hrun hround
    rw [hfst, hsnd]
    exact ⟨rfl, Or.inl (l2Norm_singleton zero_le_one)⟩
  exact (compressing_units_keeps_attention (indexed_opened _ _ _ _ _) (shaped_twice 1)
    (fun loc hloc => (writeCount_twice hloc).ge) (le_refl 3) hjoins).2 [1] 1

/-- The join of two locations at 2 is at 1. -/
theorem joined_twice : (joined (writtenOnce 0 [2] [1]) (writtenOnce 1 [2] [1])).address = [1] ∧
    (joined (writtenOnce 0 [2] [1]) (writtenOnce 1 [2] [1])).writeCount = 2 ∧
    (joined (writtenOnce 0 [2] [1]) (writtenOnce 1 [2] [1])).counter = [2] := by
  have hone : fmax (1 : ℝ) leastWeight = 1 := fmax_leastWeight (by norm_num)
  have hnorm : l2Norm [(4 : ℝ)] = 4 := l2Norm_singleton (by norm_num)
  have hlarge : lt (4 : ℝ) (lit (1 / 10 ^ 12)) = false := by
    rw [Bool.eq_false_iff, ne_eq, lt_real, lit_real]
    norm_num
  refine ⟨?_, ?_, ?_⟩
  · have hsum : (joined (writtenOnce 0 [2] [1]) (writtenOnce 1 [2] [1])).address = normalize [(4 : ℝ)] := by
      show normalize [fmax 1 leastWeight * 2 + fmax 1 leastWeight * 2] = _
      rw [hone]
      norm_num
    rw [hsum, normalize, hnorm, hlarge, if_neg Bool.false_ne_true, List.map_singleton]
    norm_num
  · show fmax (1 : ℝ) leastWeight + fmax 1 leastWeight = 2
    rw [hone]
    norm_num
  · show [(1 : ℝ) + 1] = [2]
    norm_num

/-- **The joined address is normalized in a plain collection too**: two
locations at 2 and one at 0, of which the first two are joined at 1. -/
theorem compressing_duplicates_loses_attention : ¬∀ (s : Session ℝ ℝ) (kappa lambda : ℝ), Indexed s.collection.inner →
    Shaped s.collection.inner.config.d s.collection.inner.locations → s.collection.inner.config.competitive = false →
    (∀ loc ∈ s.collection.inner.locations, 1 ≤ loc.writeCount) →
    s.collection.inner.locations.length ≤ s.collection.inner.config.k →
    EachJoin kappa lambda s.collection.inner.locations (fun a b => a.address = b.address) →
    ∀ query scale, (attentionLocked (s.compressed kappa lambda).collection.inner query scale none none).result =
      (attentionLocked s.collection.inner query scale none none).result := by
  intro h
  have harrays : Indexed (twiceSession 2).collection.inner := indexed_opened _ _ _ _ _
  have hcount : ∀ loc ∈ (twiceSession 2).collection.inner.locations, 1 ≤ loc.writeCount := fun loc hloc =>
    (writeCount_twice hloc).ge
  have hk : (twiceSession 2).collection.inner.locations.length ≤ (twiceSession 2).collection.inner.config.k := le_refl 3
  have hsame := h (twiceSession 2) 1 0 harrays (shaped_twice 2) rfl hcount hk (fun joins mid p next hrun hround => by
    obtain ⟨hfst, hsnd, -⟩ := round_twice hrun hround
    rw [hfst, hsnd]
    rfl) [1] 1
  have hleft := locations_twice 2
  obtain ⟨haddress, hwrites, hcounter⟩ := joined_twice
  have hconfig := config_compressed (twiceSession 2) 1 0
  have hdim : (twiceSession 2).collection.inner.config.d = 1 := rfl
  obtain ⟨hbefore, -⟩ := attention_eq harrays (shaped_twice 2) hk hcount [1] 1
  obtain ⟨hafter, -⟩ := attention_eq (indexed_compressed harrays 1 0) (by
      rw [hconfig, hleft]
      intro loc hloc
      simp only [List.mem_cons, List.not_mem_nil, or_false] at hloc
      rcases hloc with rfl | rfl
      · rw [haddress, hcounter]
        exact ⟨rfl, rfl⟩
      · exact ⟨rfl, rfl⟩) (by
      rw [hconfig, hleft]
      show 2 ≤ 3
      norm_num) (by
      rw [hleft]
      intro loc hloc
      simp only [List.mem_cons, List.not_mem_nil, or_false] at hloc
      rcases hloc with rfl | rfl
      · rw [hwrites]
        norm_num
      · exact le_rfl) [1] 1
  rw [hconfig, hleft, hsame, hbefore] at hafter
  set a := joined (writtenOnce 0 [2] [1]) (writtenOnce 1 [2] [1]) with ha
  have hafter : (((twice 2).map (mass [1] 1)).sum)⁻¹ • ((twice 2).map (moment 1 [1] 1)).sum =
      (([a, writtenOnce 2 [0] [0]].map (mass [1] 1)).sum)⁻¹ • ([a, writtenOnce 2 [0] [0]].map (moment 1 [1] 1)).sum :=
    hafter
  have hentry := congrFun (congrArg WithLp.ofLp hafter) (0 : Fin 1)
  have hdot : ∀ x : ℝ, dot [1] [x] = x := fun x => by
    rw [dot, sum_real]
    simp
  have hmass : ∀ (id : ℕ) (x c : ℝ), mass [1] 1 (writtenOnce id [x] [c]) = Real.exp x := fun id x c => by
    simp [mass, writtenOnce, hdot]
  have hmoment : ∀ (id : ℕ) (x c : ℝ), moment 1 [1] 1 (writtenOnce id [x] [c]) 0 = Real.exp x * c := fun id x c => by
    simp [moment, writtenOnce, hdot]
  have hmassa : mass [1] 1 a = 2 * Real.exp 1 := by
    rw [mass, haddress, hwrites, hdot, one_mul]
  have hmomenta : moment 1 [1] 1 a 0 = Real.exp 1 * 2 := by
    simp [moment, haddress, hcounter, hdot]
  simp only [twice, List.map_cons, List.map_nil, List.sum_cons, List.sum_nil, PiLp.smul_apply, PiLp.add_apply,
    PiLp.zero_apply, smul_eq_mul, hmass, hmoment, hmassa, hmomenta, Real.exp_zero] at hentry
  have hsquare : Real.exp 2 = Real.exp 1 ^ 2 := by
    rw [← Real.exp_nat_mul]
    norm_num
  have hmore : 1 < Real.exp 1 := Real.one_lt_exp_iff.mpr one_pos
  rw [hsquare, ← div_eq_inv_mul, ← div_eq_inv_mul, div_eq_div_iff (by positivity) (by positivity)] at hentry
  nlinarith

end HeatherDb
