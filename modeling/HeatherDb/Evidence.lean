/-
# The merge conserves evidence

What a location has taken in (its counter, its write count) goes to the
survivor when it is merged away. A survivor may be merged away in turn, so the
invariant of the loop is over the original locations: an unmarked location
holds what the originals gathered under its id add up to (`Gathers`), where
`gathered` moves the originals along the pairs as the posting lists are moved.
It is stated for any quantity that one merge adds up, given what else a merge
keeps of a location.

In exact arithmetic counters and write counts are such quantities
(`knnMerge_conserves`).

Key definitions: `gathered`, `Gathers`, `Additive`.
Key theorems: `mergePair_gathers`, `sum_knnMerge`, `knnMerge_conserves`.
-/
import HeatherDb.Merge
import HeatherDb.Projection

namespace HeatherDb

open Scalar

section gathering

variable {F : Type} [Scalar F] {M : Type} [AddCommMonoid M]

/-- The originals by their ids. -/
def own (locations : List (HardLocation F)) (k : ℕ) : List (HardLocation F) := locations.filter fun loc => loc.id = k

/-- The originals that are gathered under an id. -/
def gathered (locations : List (HardLocation F)) (merges : List (ℕ × ℕ)) : ℕ → List (HardLocation F) :=
  Absorb.migrate merges (own locations)

/-- A quantity that one merge adds up, of locations that stand to their
originals as `Q` says. -/
structure Additive [SeededUniform F] (config : EAMConfig F) (locations : List (HardLocation F))
    (Q : HardLocation F → HardLocation F → Prop) (μ : HardLocation F → M) : Prop where
  refl : ∀ loc ∈ locations, Q loc loc
  step : ∀ p ∈ mergePairs locations config, ∀ a b, Q (locationAt locations p.1) a → Q (locationAt locations p.2.1) b →
    Q (locationAt locations p.1) (absorb config locations.length a b) ∧
      μ (absorb config locations.length a b) = μ a + μ b

/-- What the unmarked locations hold is what is gathered under their ids. -/
structure Gathers (locations : List (HardLocation F)) (Q : HardLocation F → HardLocation F → Prop)
    (μ : HardLocation F → M) (st : Merging F) : Prop where
  kept : ∀ i < locations.length, st.merged.getD i false = false →
    Q (locationAt locations i) (locationAt st.locations i)
  sums : ∀ i < locations.length, st.merged.getD i false = false →
    μ (locationAt st.locations i) = ((gathered locations st.result.mergeMap (locationAt locations i).id).map μ).sum

variable {locations : List (HardLocation F)} {config : EAMConfig F} {Q : HardLocation F → HardLocation F → Prop}
  {μ : HardLocation F → M}

theorem locationAt_set_self {i : ℕ} {loc : HardLocation F} (hi : i < locations.length) :
    locationAt (locations.set i loc) i = loc := by
  rw [locationAt, List.getD_eq_getElem _ _ (by simpa using hi), List.getElem_set_self]

theorem locationAt_set_ne {i k : ℕ} {loc : HardLocation F} (hne : i ≠ k) :
    locationAt (locations.set i loc) k = locationAt locations k := by
  rw [locationAt, locationAt, List.getD_eq_getElem?_getD, List.getElem?_set_ne hne, List.getD_eq_getElem?_getD]

omit [Scalar F] in
/-- An original stands alone at first. -/
theorem own_id (hn : (locations.map (·.id)).Nodup) {loc : HardLocation F} (hloc : loc ∈ locations) :
    own locations loc.id = [loc] := by
  have hsub : [loc].Sublist (own locations loc.id) :=
    List.singleton_sublist.mpr (List.mem_filter.mpr ⟨hloc, by simp⟩)
  have hall : ∀ l ∈ own locations loc.id, l = loc := fun l hl =>
    List.inj_on_of_nodup_map hn (List.mem_filter.mp hl).1 hloc (by simpa using (List.mem_filter.mp hl).2)
  have hnodup : (own locations loc.id).Nodup := (hn.of_map _).filter _
  refine (hsub.eq_of_length_le ?_).symm
  have hle := (List.subperm_of_subset hnodup fun l hl => List.mem_singleton.mpr (hall l hl)).length_le
  exact hle

variable [SeededUniform F]

/-- What a merge keeps of every location that is not merged away. -/
theorem mergePair_kept {st : Merging F} (hinv : MergeInv locations st) (hadd : Additive config locations Q μ)
    (h : ∀ i < locations.length, st.merged.getD i false = false →
      Q (locationAt locations i) (locationAt st.locations i))
    {p : ℕ × ℕ × F} (hp : p ∈ mergePairs locations config) (hi : p.1 < locations.length)
    (hj : p.2.1 < locations.length) :
    ∀ i < locations.length, (mergePair config st p).merged.getD i false = false →
      Q (locationAt locations i) (locationAt (mergePair config st p).locations i) := by
  unfold mergePair
  split_ifs with hm
  · exact h
  simp only [Bool.or_eq_true, not_or, Bool.not_eq_true] at hm
  obtain ⟨hmi, hmj⟩ := hm
  intro k hk hmk
  by_cases hki : p.1 = k
  · subst hki
    rw [locationAt_set_self (hinv.length ▸ hi), hinv.length]
    exact (hadd.step p hp _ _ (h _ hi hmi) (h _ hj hmj)).1
  · rw [locationAt_set_ne hki]
    refine h k hk ?_
    by_cases hkj : p.2.1 = k
    · subst hkj
      exact hmj
    · rwa [List.getD_eq_getElem?_getD, List.getElem?_set_ne hkj, ← List.getD_eq_getElem?_getD] at hmk

/-- **One merge moves what is gathered** under the removed id. -/
theorem mergePair_gathers (hn : (locations.map (·.id)).Nodup) {st : Merging F} (hinv : MergeInv locations st)
    (hadd : Additive config locations Q μ) (h : Gathers locations Q μ st) {p : ℕ × ℕ × F}
    (hp : p ∈ mergePairs locations config) (hi : p.1 < locations.length) (hj : p.2.1 < locations.length)
    (hne : p.2.1 ≠ p.1) : Gathers locations Q μ (mergePair config st p) := by
  refine ⟨mergePair_kept hinv hadd h.kept hp hi hj, ?_⟩
  have hsums := h.sums
  unfold mergePair
  split_ifs with hm
  · exact hsums
  simp only [Bool.or_eq_true, not_or, Bool.not_eq_true] at hm
  obtain ⟨hmi, hmj⟩ := hm
  have hsum := (hadd.step p hp _ _ (h.kept _ hi hmi) (h.kept _ hj hmj)).2
  have hidi := hinv.id_eq hi
  have hidj := hinv.id_eq hj
  have hids : (locationAt locations p.2.1).id ≠ (locationAt locations p.1).id := fun heq =>
    hne (index_of_id hn hj hi heq)
  have hlength := hinv.length
  -- an unmarked location is not the one merged away
  have hunmarked : ∀ k, (st.merged.set p.2.1 true).getD k false = false → k ≠ p.2.1 ∧
      st.merged.getD k false = false := by
    intro k hk
    by_cases hkj : p.2.1 = k
    · subst hkj
      rw [List.getD_eq_getElem?_getD, List.getElem?_set_self (hinv.marks ▸ hj)] at hk
      exact absurd hk (by simp)
    · rw [List.getD_eq_getElem?_getD, List.getElem?_set_ne hkj, ← List.getD_eq_getElem?_getD] at hk
      exact ⟨Ne.symm hkj, hk⟩
  have hmoved : ∀ k, gathered locations (st.result.mergeMap ++
        [((locationAt st.locations p.2.1).id, (locationAt st.locations p.1).id)]) k =
      Absorb.move (gathered locations st.result.mergeMap)
        ((locationAt locations p.2.1).id, (locationAt locations p.1).id) k := by
    intro k
    rw [gathered, Absorb.migrate, List.foldl_append, hidi, hidj]
    rfl
  intro k hk hmk
  obtain ⟨hkj, hmk⟩ := hunmarked k hmk
  have hidk : (locationAt locations k).id ≠ (locationAt locations p.2.1).id := fun heq => hkj (index_of_id hn hk hj heq)
  rw [hmoved, Absorb.move, Function.update_of_ne hidk]
  by_cases hki : p.1 = k
  · subst hki
    rw [locationAt_set_self (hlength ▸ hi), hlength, Function.update_self, List.map_append, List.sum_append, hsum,
      h.sums _ hi hmi, h.sums _ hj hmj]
  · have hidki : (locationAt locations k).id ≠ (locationAt locations p.1).id := fun heq =>
      hki (index_of_id hn hk hi heq).symm
    rw [locationAt_set_ne hki, Function.update_of_ne hidki, h.sums k hk hmk]

theorem mergeLoop_gathers (hn : (locations.map (·.id)).Nodup) (hadd : Additive config locations Q μ) :
    Gathers locations Q μ (mergeLoop locations config) := by
  have hstart : Gathers locations Q μ
      (⟨locations, List.replicate locations.length false, ⟨[], [], 0⟩⟩ : Merging F) := by
    refine ⟨fun i hi _ => hadd.refl _ (locationAt_mem hi), fun i hi _ => ?_⟩
    show μ (locationAt locations i) = ((own locations (locationAt locations i).id).map μ).sum
    rw [own_id hn (locationAt_mem hi), List.map_singleton, List.sum_singleton]
  refine (List.foldlRecOn (motive := fun st => MergeInv locations st ∧ Gathers locations Q μ st) _ _
    ⟨mergeInv_start locations, hstart⟩ fun st h p hp => ?_).2
  obtain ⟨hi, hj, hne, -, -⟩ := mem_mergePairs hp
  exact ⟨mergePair_inv h.1 hi hj hne, mergePair_gathers hn h.1 hadd h.2 hp hi hj hne⟩

/-- What is left stands to its original, and holds what is gathered under its
id. -/
theorem knnMerge_gathers (hn : (locations.map (·.id)).Nodup) (hadd : Additive config locations Q μ)
    {loc : HardLocation F} (hloc : loc ∈ (knnMerge locations config).2) :
    (∃ o ∈ locations, o.id = loc.id ∧ Q o loc) ∧
      μ loc = ((gathered locations (knnMerge locations config).1.mergeMap loc.id).map μ).sum := by
  unfold knnMerge at hloc ⊢
  by_cases hfew : locations.length < 2
  · rw [if_pos hfew] at hloc ⊢
    refine ⟨⟨loc, hloc, rfl, hadd.refl loc hloc⟩, ?_⟩
    show μ loc = ((own locations loc.id).map μ).sum
    rw [own_id hn hloc, List.map_singleton, List.sum_singleton]
  · rw [if_neg hfew] at hloc ⊢
    have hinv := mergeLoop_inv locations config
    have hgathers := mergeLoop_gathers hn hadd
    generalize mergeLoop locations config = st at hloc hinv hgathers ⊢
    obtain ⟨i, hi, hm⟩ := mem_remaining_iff.mp hloc
    have hlt : i < locations.length := hinv.length ▸ (List.getElem?_eq_some_iff.mp hi).1
    have hat : locationAt st.locations i = loc := by
      rw [locationAt, List.getD_eq_getElem?_getD, hi, Option.getD_some]
    have hmark : st.merged.getD i false = false := by
      rw [List.getD_eq_getElem?_getD, hm, Option.getD_some]
    have hid := hinv.id_eq hlt
    rw [hat] at hid
    rw [← hat, hat, hid]
    have hkept := hgathers.kept i hlt hmark
    have hsums := hgathers.sums i hlt hmark
    rw [hat] at hkept hsums
    exact ⟨⟨_, locationAt_mem hlt, rfl, hkept⟩, hsums⟩

/-! ### The sum over all that is left -/

/-- What stands at an index that is not marked. -/
def Merging.amountAt (μ : HardLocation F → M) (st : Merging F) (i : ℕ) : M :=
  if st.merged.getD i false then 0 else μ (locationAt st.locations i)

omit [SeededUniform F] in
/-- The remaining locations, index by index. -/
theorem sum_remaining (μ : HardLocation F → M) (st : Merging F) (hmarks : st.merged.length = st.locations.length) :
    (st.remaining.map μ).sum = ∑ i ∈ Finset.range st.locations.length, st.amountAt μ i := by
  have hzip : ∀ (ls : List (HardLocation F)) (ms : List Bool), ms.length = ls.length →
      ((((ls.zip ms).filter fun p => !p.2).map (·.1)).map μ).sum =
        ∑ i ∈ Finset.range ls.length, if ms.getD i false then 0 else μ (locationAt ls i) := by
    intro ls
    induction ls with
    | nil => simp
    | cons l ls ih =>
      intro ms hlength
      cases ms with
      | nil => simp at hlength
      | cons m ms =>
        have ih := ih ms (by simpa using hlength)
        rw [List.length_cons, Finset.sum_range_succ']
        simp only [List.getD_cons_succ, locationAt, List.getD_cons_zero] at ih ⊢
        rw [← ih, List.zip_cons_cons, List.filter_cons]
        cases m with
        | true => simp
        | false => simp [add_comm]
  exact hzip st.locations st.merged hmarks

omit [SeededUniform F] in
/-- One merge puts two amounts together. -/
theorem mergePair_amounts {st : Merging F} (hinv : MergeInv locations st) {p : ℕ × ℕ × F}
    (hi : p.1 < locations.length) (hj : p.2.1 < locations.length) (hne : p.2.1 ≠ p.1)
    (hsum : st.merged.getD p.1 false = false → st.merged.getD p.2.1 false = false →
      μ (absorb config st.locations.length (locationAt st.locations p.1) (locationAt st.locations p.2.1)) =
        μ (locationAt st.locations p.1) + μ (locationAt st.locations p.2.1)) :
    ∑ i ∈ Finset.range locations.length, (mergePair config st p).amountAt μ i =
      ∑ i ∈ Finset.range locations.length, st.amountAt μ i := by
  unfold mergePair
  split_ifs with hm
  · rfl
  simp only [Bool.or_eq_true, not_or, Bool.not_eq_true] at hm
  obtain ⟨hmi, hmj⟩ := hm
  have hsum := hsum hmi hmj
  set a := locationAt st.locations p.1
  set b := locationAt st.locations p.2.1
  set st' : Merging F := ⟨st.locations.set p.1 (absorb config st.locations.length a b), st.merged.set p.2.1 true,
    ⟨st.result.removedIds ++ [b.id], st.result.mergeMap ++ [(b.id, a.id)], st.result.mergeCount + 1⟩⟩
  have hat : st'.amountAt μ p.1 = μ a + μ b := by
    have hmark : (st.merged.set p.2.1 true).getD p.1 false = false := by
      rw [List.getD_eq_getElem?_getD, List.getElem?_set_ne hne, ← List.getD_eq_getElem?_getD, hmi]
    show (if (st.merged.set p.2.1 true).getD p.1 false then 0 else μ (locationAt (st.locations.set p.1 _) p.1)) = _
    rw [hmark, if_neg Bool.false_ne_true, locationAt_set_self (hinv.length ▸ hi), hsum]
  have hgone : st'.amountAt μ p.2.1 = 0 := by
    have hmark : (st.merged.set p.2.1 true).getD p.2.1 false = true := by
      rw [List.getD_eq_getElem?_getD, List.getElem?_set_self (hinv.marks ▸ hj), Option.getD_some]
    exact if_pos hmark
  have hrest : ∀ k, k ≠ p.1 → k ≠ p.2.1 → st'.amountAt μ k = st.amountAt μ k := by
    intro k hki hkj
    show (if (st.merged.set p.2.1 true).getD k false then 0 else μ (locationAt (st.locations.set p.1 _) k)) = _
    rw [List.getD_eq_getElem?_getD, List.getElem?_set_ne hkj.symm, ← List.getD_eq_getElem?_getD,
      locationAt_set_ne hki.symm]
    rfl
  have hin : p.2.1 ∈ (Finset.range locations.length).erase p.1 :=
    Finset.mem_erase.mpr ⟨hne, Finset.mem_range.mpr hj⟩
  have hsplit : ∀ f : ℕ → M, ∑ i ∈ Finset.range locations.length, f i =
      f p.1 + (f p.2.1 + ∑ i ∈ ((Finset.range locations.length).erase p.1).erase p.2.1, f i) := fun f => by
    rw [Finset.add_sum_erase _ f hin, Finset.add_sum_erase _ f (Finset.mem_range.mpr hi)]
  have hsame : ∑ k ∈ ((Finset.range locations.length).erase p.1).erase p.2.1, st'.amountAt μ k =
      ∑ k ∈ ((Finset.range locations.length).erase p.1).erase p.2.1, st.amountAt μ k :=
    Finset.sum_congr rfl fun k hk => by
      have hk' := Finset.mem_erase.mp hk
      exact hrest k (Finset.mem_erase.mp hk'.2).1 hk'.1
  have hbefore : st.amountAt μ p.1 = μ a ∧ st.amountAt μ p.2.1 = μ b := by
    constructor
    · exact if_neg (by rw [hmi]; exact Bool.false_ne_true)
    · exact if_neg (by rw [hmj]; exact Bool.false_ne_true)
  rw [hsplit, hsplit, hat, hgone, hsame, hbefore.1, hbefore.2, zero_add, add_assoc]

/-- **Nothing is lost**: the sum over all locations is unchanged, and what is
left stands to the originals. -/
theorem sum_knnMerge (hadd : Additive config locations Q μ) :
    ((knnMerge locations config).2.map μ).sum = (locations.map μ).sum ∧
      ∀ loc ∈ (knnMerge locations config).2, ∃ o ∈ locations, Q o loc := by
  unfold knnMerge
  by_cases hfew : locations.length < 2
  · rw [if_pos hfew]
    exact ⟨rfl, fun loc hloc => ⟨loc, hloc, hadd.refl loc hloc⟩⟩
  rw [if_neg hfew]
  have hamounts : ∀ ls : List (HardLocation F), (ls.map μ).sum =
      ∑ i ∈ Finset.range ls.length, (⟨ls, List.replicate ls.length false, ⟨[], [], 0⟩⟩ : Merging F).amountAt μ i := by
    intro ls
    refine Eq.trans ?_ (sum_remaining μ _ List.length_replicate)
    rw [remaining_start]
  obtain ⟨hinv, hkept, hsum⟩ := List.foldlRecOn (motive := fun st => MergeInv locations st ∧
      (∀ i < locations.length, st.merged.getD i false = false →
        Q (locationAt locations i) (locationAt st.locations i)) ∧
      ∑ i ∈ Finset.range locations.length, st.amountAt μ i = (locations.map μ).sum)
    (mergePairs locations config) (mergePair config)
    (b := ⟨locations, List.replicate locations.length false, ⟨[], [], 0⟩⟩)
    ⟨mergeInv_start locations, fun i hi _ => hadd.refl _ (locationAt_mem hi), (hamounts locations).symm⟩
    fun st h p hp => by
      obtain ⟨hi, hj, hne, -, -⟩ := mem_mergePairs hp
      refine ⟨mergePair_inv h.1 hi hj hne, mergePair_kept h.1 hadd h.2.1 hp hi hj, ?_⟩
      rw [mergePair_amounts h.1 hi hj hne fun hmi hmj => ?_]
      · exact h.2.2
      · rw [h.1.length]
        exact (hadd.step p hp _ _ (h.2.1 _ hi hmi) (h.2.1 _ hj hmj)).2
  change MergeInv locations (mergeLoop locations config) at hinv
  refine ⟨?_, fun loc hloc => ?_⟩
  · show ((mergeLoop locations config).remaining.map μ).sum = _
    rw [sum_remaining μ _ (hinv.marks.trans hinv.length.symm), hinv.length]
    exact hsum
  · obtain ⟨i, hi, hm⟩ := mem_remaining_iff.mp hloc
    have hlt : i < locations.length := hinv.length ▸ (List.getElem?_eq_some_iff.mp hi).1
    refine ⟨_, locationAt_mem hlt, ?_⟩
    have hat : locationAt (mergeLoop locations config).locations i = loc := by
      rw [locationAt, List.getD_eq_getElem?_getD, hi, Option.getD_some]
    rw [← hat]
    refine hkept i hlt ?_
    rw [List.getD_eq_getElem?_getD]
    exact congrArg (Option.getD · false) hm

end gathering

/-! ### Counters and write counts -/

/-- A location with a counter of `d` entries. -/
def CounterLength (d : ℕ) (_ loc : HardLocation ℝ) : Prop := loc.counter.length = d

variable [SeededUniform ℝ] {locations : List (HardLocation ℝ)} {d : ℕ}

theorem additive_counter (hd : ∀ loc ∈ locations, loc.counter.length = d) (config : EAMConfig ℝ) :
    Additive config locations (CounterLength d) fun loc => vec d loc.counter where
  refl := hd
  step p _ a b ha hb := by
    refine ⟨(length_addScaled _ _ _).trans ha, ?_⟩
    show vec d (addScaled a.counter b.counter (lit 1)) = vec d a.counter + vec d b.counter
    rw [vec_addScaled ha hb, lit_real, Rat.cast_one, one_smul]

theorem additive_writeCount (hd : ∀ loc ∈ locations, loc.counter.length = d) (config : EAMConfig ℝ) :
    Additive config locations (CounterLength d) (·.writeCount) where
  refl := hd
  step _ _ _ _ ha _ := ⟨(length_addScaled _ _ _).trans ha, rfl⟩

/-- **The merge conserves evidence**: the sums of counters and write counts are
unchanged, survivors and removed ids are the original ids, each once; a pair
removes an id into another one, and from a removed id the pairs lead to a
survivor; and a survivor's counter and write count are the sums over the
originals that lead to it. -/
theorem knnMerge_conserves (hd : ∀ loc ∈ locations, loc.counter.length = d) (hn : (locations.map (·.id)).Nodup)
    (config : EAMConfig ℝ) :
    let left := (knnMerge locations config).2
    let removed := (knnMerge locations config).1.removedIds
    let merges := (knnMerge locations config).1.mergeMap
    (left.map fun loc => vec d loc.counter).sum = (locations.map fun loc => vec d loc.counter).sum ∧
      (left.map (·.writeCount)).sum = (locations.map (·.writeCount)).sum ∧
      (left.map (·.id) ++ removed).Perm (locations.map (·.id)) ∧ removed.Nodup ∧
      merges.map (·.1) = removed ∧ (∀ e ∈ merges, e.1 ≠ e.2) ∧
      (∀ k ∈ removed, ∃ s ∈ left.map (·.id), Absorb.endOf merges k = some s) ∧
      ∀ loc ∈ left, loc.counter.length = d ∧
        vec d loc.counter =
          ((locations.filter fun o => Absorb.endOf merges o.id = some loc.id).map fun o => vec d o.counter).sum ∧
        loc.writeCount = ((locations.filter fun o =>
          Absorb.endOf merges o.id = some loc.id).map (·.writeCount)).sum := by
  intro left removed merges
  obtain ⟨hmerge, hfirsts⟩ := knnMerge_consolidated locations config
  have hremoved : removed = merges.map (·.1) := hfirsts
  have hlawful := hmerge.lawful hn
  have hids : left.map (·.id) = (locations.map (·.id)).filter fun k => decide (k ∉ merges.map (·.1)) := hmerge.ids hn
  have hcounter := additive_counter hd config
  have hcount := additive_writeCount hd config
  have hnodup : removed.Nodup := hremoved ▸ hlawful.removed_nodup
  have hmem : ∀ k ∈ removed, k ∈ locations.map (·.id) := fun k hk => by
    obtain ⟨e, he, rfl⟩ := List.mem_map.mp (hremoved ▸ hk : k ∈ merges.map (·.1))
    exact (hmerge.known e he).1
  -- what is gathered are the originals that lead there
  have hlead : ∀ k, (gathered locations merges k).Perm (locations.filter fun o =>
      Absorb.endOf merges o.id = some k) := by
    intro k
    have hfile := Absorb.migrate_filter hlawful (l := locations) (p := own locations) (f := (·.id)) (fun _ => .refl _) k
    refine hfile.trans (.of_eq (List.filter_congr fun o _ => ?_))
    rw [Absorb.endOf_eq hlawful]
    simp
  refine ⟨(sum_knnMerge hcounter).1, (sum_knnMerge hcount).1, ?_, hnodup, hremoved.symm, hlawful.irrefl,
    fun k hk => ⟨Absorb.final merges k, ?_, Absorb.endOf_eq hlawful k⟩, fun loc hloc => ?_⟩
  · have hsplit := List.filter_append_perm (fun k => decide (k ∉ merges.map (·.1))) (locations.map (·.id))
    have hout : ((locations.map (·.id)).filter fun k => !decide (k ∉ merges.map (·.1))).Perm removed := by
      refine (List.perm_ext_iff_of_nodup (hn.filter _) hnodup).mpr fun k => ?_
      simp only [List.mem_filter, Bool.not_eq_true', decide_eq_false_iff_not, not_not, ← hremoved]
      exact ⟨fun h => h.2, fun h => ⟨hmem k h, h⟩⟩
    rw [hids]
    exact (hout.symm.append_left _).trans hsplit
  · have hin : Absorb.final merges k ∈ locations.map (·.id) := by
      rcases Absorb.final_eq_or merges k with hsame | ⟨e, he, hend⟩
      · rw [hsame]
        exact hmem k hk
      · rw [hend]
        exact (hmerge.known e he).2
    show Absorb.final merges k ∈ left.map (·.id)
    rw [hids]
    exact List.mem_filter.mpr ⟨hin, decide_eq_true (Absorb.final_notMem hlawful k)⟩
  · obtain ⟨⟨o, -, -, hlength⟩, hsum⟩ := knnMerge_gathers hn hcounter hloc
    have hsum' := (knnMerge_gathers hn hcount hloc).2
    refine ⟨hlength, hsum.trans ?_, hsum'.trans ?_⟩
    · exact ((hlead loc.id).map _).sum_eq
    · exact ((hlead loc.id).map _).sum_eq

/-- The pairs of the merge are found by a plain scan. -/
theorem mergePairs_eq (locations : List (HardLocation ℝ)) (config : EAMConfig ℝ) :
    mergePairs locations config = sortBy (fun a b => partialCmp b.2.2 a.2.2)
      ((List.range locations.length).filterMap fun i =>
        ((bruteOne locations (addressNorms locations) i).filter fun nn => lt config.tauMerge nn.2).map
          fun nn => (i, nn.1, nn.2)) := by
  have hnorms : locations.map (fun l => l2Norm l.address) = addressNorms locations := rfl
  have hzip : ((List.range locations.length).map (bruteOne locations (addressNorms locations))).zipIdx =
      (List.range locations.length).map fun i => (bruteOne locations (addressNorms locations) i, i) := by
    apply List.ext_getElem (by simp)
    intro i hi hi'
    simp
  unfold mergePairs
  dsimp only
  rw [hnorms, nearestNeighbors_eq, hzip, List.filterMap_map]
  rfl

/-- A small plain configuration in exact arithmetic. -/
noncomputable def realConfig : EAMConfig ℝ where
  d := 1
  l0 := 0
  k := 3
  eta0 := 1 / 10
  lambda := 1
  etaMin := 1 / 100
  tauSplit := 3 / 10
  tauMerge := 9 / 10
  gamma := 0
  tauDamp := 1
  tauOverload := 100
  beta := 1
  tMax := 1
  epsilon := 1 / 10
  neighborCap := 0
  numLandmarks := 0
  mdlGate := false
  competitive := false
  precision := .f64

/-- A location written once. -/
noncomputable def writtenOnce (id : ℕ) (address counter : List ℝ) : HardLocation ℝ where
  id := id
  address := address
  counter := counter
  writeCount := 1
  neighbors := []
  surpriseMass := 0

/-- Three locations of one direction. -/
noncomputable def triplets : List (HardLocation ℝ) :=
  [writtenOnce 0 [1] [1], writtenOnce 1 [1] [10], writtenOnce 2 [1] [100]]

omit [SeededUniform ℝ] in
theorem sim_triplets {i j : ℕ} (hi : i < 3) (hj : j < 3) : sim triplets (addressNorms triplets) i j = 1 := by
  interval_cases i <;> interval_cases j <;> simp [sim, triplets, addressNorms, writtenOnce, dot, sum_real, l2Norm]

omit [SeededUniform ℝ] in
/-- Each is nearest to the first other one. -/
theorem bruteOne_triplets {i : ℕ} (hi : i < 3) :
    bruteOne triplets (addressNorms triplets) i = some (if i = 0 then 1 else 0, 1) := by
  have hnorms : addressNorms triplets = [1, 1, 1] := by simp [triplets, addressNorms, writtenOnce, dot, sum_real, l2Norm]
  have hnorm : ∀ {j : ℕ}, j < 3 → lt ([1, 1, 1].getD j (lit 0) : ℝ) minNorm = false := fun {j} hj => by
    rw [Bool.eq_false_iff, ne_eq, lt_real, minNorm, lit_tiny]
    interval_cases j <;> exact tiny_lt_one.not_gt
  have hless : lt (1 : ℝ) 1 = false := decide_eq_false (lt_irrefl 1)
  unfold bruteOne scanColumns
  rw [show triplets.length = 3 from rfl]
  simp only [List.range_succ, List.range_zero, List.nil_append, List.cons_append, List.foldl_cons, List.foldl_nil]
  rw [sim_triplets hi (by decide : 0 < 3), sim_triplets hi (by decide : 1 < 3), sim_triplets hi (by decide : 2 < 3),
    hnorms, hnorm hi, hnorm (by decide : 0 < 3), hnorm (by decide : 1 < 3), hnorm (by decide : 2 < 3)]
  interval_cases i <;> simp [consider, aboveNegInf, hless]

theorem mergePairs_triplets : mergePairs triplets realConfig = [(0, 1, 1), (1, 0, 1), (2, 0, 1)] := by
  have htau : lt realConfig.tauMerge (1 : ℝ) = true := lt_real.mpr (by norm_num [realConfig])
  have hless : lt (1 : ℝ) 1 = false := decide_eq_false (lt_irrefl 1)
  have hnear : ∀ {i : ℕ}, i < 3 → ((bruteOne triplets (addressNorms triplets) i).filter fun nn =>
      lt realConfig.tauMerge nn.2).map (fun nn => (i, nn.1, nn.2)) = some (i, if i = 0 then 1 else 0, 1) := fun hi => by
    rw [bruteOne_triplets hi, Option.filter_some, if_pos htau]
    rfl
  rw [mergePairs_eq, show triplets.length = 3 from rfl]
  simp only [List.range_succ, List.range_zero, List.nil_append, List.cons_append, List.filterMap_cons, List.filterMap_nil]
  rw [hnear (by decide : 0 < 3), hnear (by decide : 1 < 3), hnear (by decide : 2 < 3)]
  exact List.Pairwise.insertionSort_eq (by simp [partialCmp, hless])

omit [SeededUniform ℝ] in
/-- The second goes into the first, and then the first into the third, where
all evidence ends. -/
theorem knnMerge_conserves_chain : ∃ _ : SeededUniform ℝ,
    (knnMerge triplets realConfig).1.mergeMap = [(1, 0), (0, 2)] ∧
      ∀ loc ∈ (knnMerge triplets realConfig).2, loc.writeCount = ((triplets.filter fun o =>
        Absorb.endOf [(1, 0), (0, 2)] o.id = some loc.id).map (·.writeCount)).sum := by
  let _ : SeededUniform ℝ := { uniform := fun _ => 0 }
  have hd : ∀ loc ∈ triplets, loc.counter.length = 1 := by simp [triplets, writtenOnce]
  have hn : (triplets.map (·.id)).Nodup := by simp [triplets, writtenOnce]
  have hmap : (knnMerge triplets realConfig).1.mergeMap = [(1, 0), (0, 2)] := by
    unfold knnMerge mergeLoop
    rw [mergePairs_triplets]
    simp [triplets, mergePair, locationAt, writtenOnce, absorb]
  refine ⟨inferInstance, hmap, fun loc hloc => ?_⟩
  have h := knnMerge_conserves hd hn realConfig
  rw [← hmap]
  exact (h.2.2.2.2.2.2.2 loc hloc).2.2

end HeatherDb
