/-
# The k most similar locations

What an activation returns, where the similarities are finite numbers: as many
of its candidates as fit, with their similarities, descending, and no candidate
left out is more similar than one returned (`Activated`). The heap keeps the
greatest entries of the prefix it has seen (`bestHeap_offer`), by any key that
compares as their similarities do (`Compares`).

The three activations of `read.rs` differ in how they come to their candidates.
Among equal similarities the heap's choice depends on the order in which
candidates are offered, so a subset activation of all locations agrees with
the other two if the candidates come in ascending order, and in any order
gives the same similarities.

Key definitions: `Compares`, `BestHeap`, `Valued`, `Activated`.
Key theorems: `greatest_topK`, `activations_agree`, `activations_disagree`.
-/
import HeatherDb.Attention
import HeatherDb.Lib.Greatest
import HeatherDb.Reals

namespace HeatherDb

open Scalar BinaryHeap

/-- The finite numbers of a format stand for reals and compare as these do. -/
class Valued (F : Type) [Scalar F] where
  val : F → ℝ
  lt_iff {x y : F} : isFinite x = true → isFinite y = true → (lt x y = true ↔ val x < val y)

open HeatherDb.Valued

variable {F : Type} [Scalar F] [Valued F]

/-! ### The heap -/

section Heap

variable {κ : Type} [LinearOrder κ] {key : ℕ × F → κ}

omit [Valued F]

/-- Similarities of these entries compare as their keys do. -/
def Compares (key : ℕ × F → κ) (entries : List (ℕ × F)) : Prop :=
  ∀ a ∈ entries, ∀ b ∈ entries, (lt a.2 b.2 = true ↔ key a < key b)

theorem Compares.subset {entries entries' : List (ℕ × F)} (h : Compares key entries) (hsub : entries' ⊆ entries) :
    Compares key entries' := fun a ha b hb => h a (hsub ha) b (hsub hb)

theorem Compares.partialCmp_ne_gt {entries : List (ℕ × F)} (h : Compares key entries) {a b : ℕ × F} (ha : a ∈ entries)
    (hb : b ∈ entries) : partialCmp a.2 b.2 ≠ .gt ↔ key a ≤ key b := by
  have hab := h a ha b hb
  have hba := h b hb a ha
  unfold partialCmp
  by_cases hlt : lt a.2 b.2 = true
  · rw [if_pos hlt]
    simpa using (hab.mp hlt).le
  · rw [if_neg hlt]
    by_cases hgt : lt b.2 a.2 = true
    · rw [if_pos hgt]
      simpa using hba.mp hgt
    · rw [if_neg hgt]
      simpa using not_lt.mp fun hless => hgt (hba.mpr hless)

/-- Where the similarities compare as keys, the heap orders its entries. -/
theorem Compares.orders {entries : List (ℕ × F)} (h : Compares key entries) : Orders minEntryLe entries where
  total a ha b hb := by
    rw [minEntryLe, minEntryLe, decide_eq_true_iff, decide_eq_true_iff, h.partialCmp_ne_gt hb ha,
      h.partialCmp_ne_gt ha hb]
    exact le_total (key b) (key a)
  trans a ha b hb c hc hab hbc := by
    rw [minEntryLe, decide_eq_true_iff, h.partialCmp_ne_gt hb ha] at hab
    rw [minEntryLe, decide_eq_true_iff, h.partialCmp_ne_gt hc hb] at hbc
    rw [minEntryLe, decide_eq_true_iff, h.partialCmp_ne_gt hc ha]
    exact hbc.trans hab

/-- A heap of the greatest entries offered so far. -/
structure BestHeap (key : ℕ × F → κ) (k : ℕ) (entries heap : List (ℕ × F)) : Prop where
  greatest : Greatest key k entries heap
  isHeap : IsHeap minEntryLe heap

theorem BestHeap.nil {k : ℕ} : BestHeap key k [] [] := ⟨.nil, isHeap_nil _⟩

/-- The top of a heap is a least entry. -/
theorem BestHeap.top_le {k : ℕ} {entries rest : List (ℕ × F)} {m : ℕ × F} (h : BestHeap key k entries (m :: rest))
    (hkeys : Compares key entries) : ∀ x ∈ m :: rest, key m ≤ key x := fun x hx => by
  have hin : m :: rest ⊆ entries := fun _ hy => h.greatest.mem hy
  have htop := h.isHeap.le_top (hkeys.subset hin).orders x hx
  rwa [minEntryLe, decide_eq_true_iff, hkeys.partialCmp_ne_gt (hin List.mem_cons_self) (hin hx)] at htop

/-- **The heap keeps the greatest entries** of those offered so far. -/
theorem bestHeap_offer {k : ℕ} {entries heap : List (ℕ × F)} {e : ℕ × F} (h : BestHeap key k entries heap)
    (hkeys : Compares key (entries ++ [e])) : BestHeap key k (entries ++ [e]) (offer k heap e) := by
  have he : e ∈ entries ++ [e] := by simp
  have hin : heap ⊆ entries := fun x hx => h.greatest.mem hx
  have hold : Compares key entries := hkeys.subset (List.subset_append_left _ _)
  have hmore : heap ++ [e] ⊆ entries ++ [e] := fun x hx => by
    rcases List.mem_append.mp hx with hx | hx
    · exact List.mem_append_left _ (hin hx)
    · exact List.mem_append_right _ hx
  by_cases hroom : heap.length < k
  · rw [offer, if_pos hroom]
    exact ⟨(h.greatest.push hroom).perm (push_perm _ _ _).symm, isHeap_push h.isHeap (hkeys.subset hmore).orders⟩
  have hfull : k ≤ heap.length := Nat.le_of_not_lt hroom
  cases heap with
  | nil =>
    rw [offer, if_neg hroom]
    exact ⟨h.greatest.keep hfull (by simp), h.isHeap⟩
  | cons m rest =>
    have hleast := h.top_le hold
    have hcmp := hkeys m (List.mem_append_left _ (hin List.mem_cons_self)) e he
    rw [offer_full hfull]
    by_cases hlt : lt m.2 e.2 = true
    · rw [if_pos hlt]
      have hpop := pop_perm minEntryLe m rest
      have hsub : pop minEntryLe (m :: rest) ++ [e] ⊆ m :: rest ++ [e] := fun x hx => by
        rcases List.mem_append.mp hx with hx | hx
        · exact List.mem_append_left _ (List.mem_cons_of_mem m (hpop.subset hx))
        · exact List.mem_append_right _ hx
      have hgreatest := h.greatest.replace hfull (.refl _) hleast (hcmp.mp hlt)
      refine ⟨hgreatest.perm ((push_perm _ _ _).trans (hpop.append_right [e])).symm, ?_⟩
      exact isHeap_push (isHeap_pop h.isHeap (hold.subset hin).orders)
        (hkeys.subset fun x hx => hmore (hsub hx)).orders
    · rw [if_neg hlt]
      have hle : key e ≤ key m := not_lt.mp (mt hcmp.mpr hlt)
      exact ⟨h.greatest.keep hfull fun t ht => hle.trans (hleast t ht), h.isHeap⟩

/-- Sorted by similarity, descending. -/
theorem pairwise_sortBy {l : List (ℕ × F)} (hkeys : Compares key l) :
    (sortBy (fun a b => partialCmp b.2 a.2) l).Pairwise fun a b => key b ≤ key a := by
  have hsame : (l.insertionSort fun a b => partialCmp b.2 a.2 ≠ .gt).map id =
      (l.map id).insertionSort fun a b => key b ≤ key a :=
    List.map_insertionSort _ _ _ _ fun a ha b hb => hkeys.partialCmp_ne_gt hb ha
  have : Std.Total fun a b : ℕ × F => key b ≤ key a := ⟨fun a b => le_total (key b) (key a)⟩
  have : IsTrans (ℕ × F) fun a b => key b ≤ key a := ⟨fun _ _ _ hab hbc => hbc.trans hab⟩
  rw [List.map_id, List.map_id] at hsame
  rw [sortBy, hsame]
  exact List.pairwise_insertionSort _ l

/-- A heap that is offered one entry after another. -/
theorem bestHeap_foldl_offer {k : ℕ} : ∀ {es seen heap : List (ℕ × F)}, Compares key (seen ++ es) →
    BestHeap key k seen heap → BestHeap key k (seen ++ es) (es.foldl (offer k) heap)
  | [], seen, _, _, h => (List.append_nil seen).symm ▸ h
  | e :: es, seen, heap, hall, h => by
    have hassoc : seen ++ e :: es = seen ++ [e] ++ es := by simp
    rw [hassoc] at hall ⊢
    have hnow : Compares key (seen ++ [e]) := hall.subset (List.subset_append_left _ _)
    rw [List.foldl_cons]
    exact bestHeap_foldl_offer hall (bestHeap_offer h hnow)

/-- The entries of a heap, sorted. -/
theorem greatest_sortBy {k : ℕ} {entries heap : List (ℕ × F)} (hkeys : Compares key entries)
    (h : Greatest key k entries heap) :
    Greatest key k entries (sortBy (fun a b => partialCmp b.2 a.2) heap) ∧
      (sortBy (fun a b => partialCmp b.2 a.2) heap).Pairwise fun a b => key b ≤ key a :=
  ⟨h.perm (List.perm_insertionSort (fun a b : ℕ × F => partialCmp b.2 a.2 ≠ .gt) heap).symm,
    pairwise_sortBy (hkeys.subset fun _ he => h.mem he)⟩

/-- **The heap's entries at the end**: the greatest, descending. -/
theorem greatest_topK {entries : List (ℕ × F)} (hkeys : Compares key entries) (k : ℕ) :
    Greatest key k entries (topK k entries) ∧ (topK k entries).Pairwise fun a b => key b ≤ key a :=
  have hheap : BestHeap key k ([] ++ entries) (entries.foldl (offer k) []) := bestHeap_foldl_offer hkeys .nil
  greatest_sortBy hkeys hheap.greatest

end Heap

/-- The entries have finite similarities. -/
def Finite (entries : List (ℕ × F)) : Prop := ∀ e ∈ entries, isFinite e.2 = true

/-- What an entry is ranked by. -/
def rank (e : ℕ × F) : ℝ := val e.2

theorem Finite.compares {entries : List (ℕ × F)} (h : Finite entries) : Compares rank entries := fun a ha b hb =>
  lt_iff (h a ha) (h b hb)

/-! ### What an activation returns -/

/-- The similarity of the location at an index. -/
def similarity (query : List F) (locations : List (HardLocation F)) (i : ℕ) : F :=
  dot (normalize query) (locationAt locations i).address

/-- Indices and similarities as an activation among these candidates returns
them. -/
structure Activated (query : List F) (locations : List (HardLocation F)) (candidates : List ℕ) (k : ℕ)
    (r : List ℕ × List F) : Prop where
  count : r.1.length = min k candidates.length
  distinct : r.1.Nodup
  within : ∀ i ∈ r.1, i ∈ candidates
  sims : r.2 = r.1.map (similarity query locations)
  descending : r.2.Pairwise fun a b => lt a b = false
  best : ∀ i ∈ r.1, ∀ j ∈ candidates, j ∉ r.1 →
    lt (similarity query locations i) (similarity query locations j) = false

/-- The candidates with their similarities. -/
def entriesOf (query : List F) (locations : List (HardLocation F)) (candidates : List ℕ) : List (ℕ × F) :=
  candidates.map fun i => (i, similarity query locations i)

/-- The query's similarities to all locations are finite. -/
def FiniteSims (query : List F) (locations : List (HardLocation F)) : Prop :=
  ∀ loc ∈ locations, isFinite (dot (normalize query) loc.address) = true

omit [Valued F] in
theorem finite_entriesOf {query : List F} {locations : List (HardLocation F)} (hfin : FiniteSims query locations)
    {candidates : List ℕ} (hlt : ∀ i ∈ candidates, i < locations.length) :
    Finite (entriesOf query locations candidates) := by
  intro e he
  obtain ⟨i, hi, rfl⟩ := List.mem_map.mp he
  exact hfin _ (locationAt_mem (hlt i hi))

/-- The greatest of the candidates' entries, descending. -/
theorem activated_of_greatest {query : List F} {locations : List (HardLocation F)} (hfin : FiniteSims query locations)
    {candidates : List ℕ} (hlt : ∀ i ∈ candidates, i < locations.length) (hnodup : candidates.Nodup) {k : ℕ}
    {top : List (ℕ × F)} (hgreatest : Greatest rank k (entriesOf query locations candidates) top)
    (hsorted : top.Pairwise fun a b => rank b ≤ rank a) : Activated query locations candidates k top.unzip := by
  have hfinite := finite_entriesOf hfin hlt
  set entries := entriesOf query locations candidates with hentries
  have hfst : entries.map (·.1) = candidates := by simp [hentries, entriesOf, Function.comp_def]
  have hsim : ∀ e ∈ entries, e.2 = similarity query locations e.1 := by
    intro e he
    obtain ⟨i, -, rfl⟩ := List.mem_map.mp he
    rfl
  have hentry : ∀ i ∈ candidates, (i, similarity query locations i) ∈ entries := fun i hi =>
    List.mem_map.mpr ⟨i, hi, rfl⟩
  obtain ⟨rest, hperm, -⟩ := hgreatest.split
  have hids : candidates.Perm (top.map (·.1) ++ rest.map (·.1)) := by
    rw [← hfst, ← List.map_append]
    exact hperm.map (·.1)
  have hnotlt : ∀ a ∈ entries, ∀ b ∈ entries, rank b ≤ rank a → lt a.2 b.2 = false := fun a ha b hb hle => by
    rw [Bool.eq_false_iff, ne_eq, lt_iff (hfinite a ha) (hfinite b hb)]
    exact not_lt.mpr hle
  rw [List.unzip_eq_map]
  refine
    { count := ?_
      distinct := (hids.nodup_iff.mp hnodup).of_append_left
      within := fun i hi => hids.symm.subset (List.mem_append_left _ hi)
      sims := ?_
      descending := ?_
      best := fun i hi j hj hnot => ?_ }
  · rw [List.length_map, hgreatest.length, hentries, entriesOf, List.length_map]
  · rw [List.map_map]
    exact List.map_congr_left fun e he => hsim e (hgreatest.mem he)
  · refine List.pairwise_map.mpr (hsorted.imp_of_mem fun ha hb hle => ?_)
    exact hnotlt _ (hgreatest.mem ha) _ (hgreatest.mem hb) hle
  · obtain ⟨e, he, rfl⟩ := List.mem_map.mp hi
    have hj' := hentry j hj
    have hout : (j, similarity query locations j) ∉ top := fun hin => hnot (List.mem_map_of_mem hin)
    rw [← hsim e (hgreatest.mem he)]
    exact hnotlt e (hgreatest.mem he) _ hj' (hgreatest.le_of_not_mem hj' hout he)

/-- **The k most similar candidates.** -/
theorem activated_topK {query : List F} {locations : List (HardLocation F)} (hfin : FiniteSims query locations)
    {candidates : List ℕ} (hlt : ∀ i ∈ candidates, i < locations.length) (hnodup : candidates.Nodup) (k : ℕ) :
    Activated query locations candidates k (topK k (entriesOf query locations candidates)).unzip := by
  obtain ⟨hgreatest, hsorted⟩ := greatest_topK (finite_entriesOf hfin hlt).compares k
  exact activated_of_greatest hfin hlt hnodup hgreatest hsorted

/-! ### The three activations -/

omit [Valued F] in
theorem scored_eq_entriesOf (query : List F) (locations : List (HardLocation F)) :
    scored query locations = entriesOf query locations (List.range locations.length) := rfl

omit [Valued F] in
/-- A scan of the row-wise matrix. -/
theorem activateSoa_eq {locations : List (HardLocation F)} {d : ℕ} (hd : ∀ loc ∈ locations, loc.address.length = d)
    (hpos : 0 < d) (query : List F) (k : ℕ) :
    activateSoa query (locations.flatMap (·.address)) d k = (topK k (scored query locations)).unzip := by
  rw [activateSoa, batchDotUnit_eq hd hpos]

omit [Valued F] in
/-- A subset activation keeps the candidates there are. -/
theorem activateSubset_eq (query : List F) (locations : List (HardLocation F)) (allowed : List ℕ) (k : ℕ) :
    activateSubset query locations allowed k =
      (topK k (entriesOf query locations (allowed.filter (· < locations.length)))).unzip := rfl

/-- The same candidates in any order have the same greatest similarities. -/
theorem sims_perm {query : List F} {locations : List (HardLocation F)} (hfin : FiniteSims query locations)
    {candidates candidates' : List ℕ} (hperm : candidates.Perm candidates')
    (hlt : ∀ i ∈ candidates, i < locations.length) (k : ℕ) :
    (topK k (entriesOf query locations candidates)).map rank =
      (topK k (entriesOf query locations candidates')).map rank := by
  obtain ⟨hgreatest, hsorted⟩ := greatest_topK (finite_entriesOf hfin hlt).compares k
  obtain ⟨hgreatest', hsorted'⟩ := greatest_topK
    (finite_entriesOf hfin fun i hi => hlt i (hperm.symm.subset hi)).compares k
  rw [hgreatest.map_key hsorted, hgreatest'.map_key hsorted']
  congr 1
  refine List.Perm.eq_of_pairwise (fun a b _ _ hab hba => le_antisymm hba hab) (List.pairwise_insertionSort _ _)
    (List.pairwise_insertionSort _ _) ?_
  calc (((entriesOf query locations candidates).map rank).insertionSort (· ≥ ·)).Perm
        ((entriesOf query locations candidates).map rank) := List.perm_insertionSort _ _
    _ |>.Perm ((entriesOf query locations candidates').map rank) := (hperm.map _).map rank
    _ |>.Perm _ := (List.perm_insertionSort _ _).symm

/-- **The three activations**: each returns the k most similar of its
candidates; the matrix and the subset of all indices in ascending order give
the list the plain activation gives, and all indices in any order the same
similarities. -/
theorem activations_agree {query : List F} {locations : List (HardLocation F)} (hfin : FiniteSims query locations)
    {d : ℕ} (hd : ∀ loc ∈ locations, loc.address.length = d) (hpos : 0 < d) {allowed : List ℕ}
    (hnodup : allowed.Nodup) (k : ℕ) :
    Activated query locations (List.range locations.length) k (activate query locations k) ∧
      Activated query locations (List.range locations.length) k
        (activateSoa query (locations.flatMap (·.address)) d k) ∧
      Activated query locations (allowed.filter (· < locations.length)) k
        (activateSubset query locations allowed k) ∧
      activateSoa query (locations.flatMap (·.address)) d k = activate query locations k ∧
      activateSubset query locations (List.range locations.length) k = activate query locations k ∧
      (allowed.Perm (List.range locations.length) →
        (activateSubset query locations allowed k).2.map val = (activate query locations k).2.map val) := by
  have hall : ∀ i ∈ List.range locations.length, i < locations.length := fun i hi => List.mem_range.mp hi
  have hvalid : ∀ i ∈ allowed.filter (· < locations.length), i < locations.length := fun i hi =>
    of_decide_eq_true (List.mem_filter.mp hi).2
  have hrange : (List.range locations.length).filter (· < locations.length) = List.range locations.length :=
    List.filter_eq_self.mpr fun i hi => decide_eq_true (hall i hi)
  have hscan := activated_topK hfin hall List.nodup_range k
  rw [activate_eq, activateSoa_eq hd hpos, scored_eq_entriesOf]
  refine ⟨hscan, hscan, activated_topK hfin hvalid (hnodup.filter _) k, rfl, ?_, fun hperm => ?_⟩
  · rw [activateSubset_eq, hrange]
  · have hsame := sims_perm hfin (hrange ▸ hperm.filter (· < locations.length)) hvalid k
    rw [activateSubset_eq, List.unzip_eq_map, List.unzip_eq_map, List.map_map, List.map_map]
    exact hsame

/-! ### On two equal locations -/

instance : Valued ℚ where
  val q := q
  lt_iff _ _ := decide_eq_true_iff.trans Rat.cast_lt.symm

/-- Two locations at one address. -/
def onePlace : List (HardLocation ℚ) := [.new 0 [1], .new 1 [1]]

/-- Candidates without repetition, one of them no location. -/
theorem activations_agree_pair : [1, 7, 0].Nodup ∧ FiniteSims [1] onePlace ∧
    Activated [1] onePlace ([1, 7, 0].filter (· < onePlace.length)) 1 (activateSubset [1] onePlace [1, 7, 0] 1) :=
  ⟨by decide, fun _ _ => rfl, (activations_agree (d := 1) (fun _ _ => rfl) (by decide +kernel) (by decide)
    (by decide) 1).2.2.1⟩

/-- All locations allowed, the later one first: the subset activation keeps the
one it was offered first. -/
theorem activations_disagree : ¬∀ (query : List ℚ) (locations : List (HardLocation ℚ)) (allowed : List ℕ) (k : ℕ),
    FiniteSims query locations → allowed.Nodup → (∀ i < locations.length, i ∈ allowed) →
      activateSubset query locations allowed k = activate query locations k := by
  intro h
  have hsame := h [1] onePlace [1, 0] 1 (fun _ _ => rfl) (by decide) (by decide)
  have hne : activateSubset [1] onePlace [1, 0] 1 ≠ activate [1] onePlace 1 := by decide +kernel
  exact hne hsame

end HeatherDb
