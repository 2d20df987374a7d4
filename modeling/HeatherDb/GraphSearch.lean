/-
# Graph search

The greedy descent of `graph_activate` (`read.rs`): from the most similar
landmark along the neighbor lists, each hop to the most similar location it has
just come across, until there is none or it cannot improve the k best.

A hop visits only locations that were not visited before and marks them, so the
flags tell the locations visited (`Marks`) and every hop but the last leaves
fewer of them. What the lists name does not matter: an id the lookup does not
know, and a location visited already, are passed over. The heap has the k best
of the locations visited (`Walking`), so the answer is an activation among these
(`graph_search_valid`).

The landmark leaves the heap only when k others are as similar and one is more
similar; it may go although equally similar ones stay, since the heap pops one of
the least (`graph_search_ties`).

Key definitions: `gatherNeighbors`, `walk`, `graphActivate`, `Marks`, `Walking`.
Key theorems: `marks_gatherNeighbors`, `walk_spec`, `graph_search_valid`,
`graph_search_ties`.
-/
import HeatherDb.TopK

namespace HeatherDb

open Scalar HeatherDb.Valued BinaryHeap

variable {F : Type} [Scalar F]

/-! ### The descent -/

/-- The flags of the locations visited, the heap and the location hopped to. -/
structure Walk (F : Type) where
  visited : List Bool
  result : List (ℕ × F)
  current : ℕ

/-- One neighbor id: its location, unless there is none or it was visited. -/
def gatherNeighbor (idLookup : List (Option ℕ)) (st : List ℕ × List Bool) (id : ℕ) : List ℕ × List Bool :=
  match idLookup[id]? with
  | some (some idx) => if st.2.getD idx true then st else (st.1 ++ [idx], st.2.set idx true)
  | _ => st

/-- The unvisited locations a neighbor list names, and the flags with these
visited. -/
def gatherNeighbors (idLookup : List (Option ℕ)) (visited : List Bool) (neighbors : List ℕ) : List ℕ × List Bool :=
  neighbors.foldl (gatherNeighbor idLookup) ([], visited)

/-- The similarities of the addresses at these indices; `none` when the rows of
the buffer are of length 0. -/
def bufferSims (q : List F) (locations : List (HardLocation F)) (indices : List ℕ) (d : ℕ) : Option (List F) :=
  if d = 0 then none
  else some (batchDotUnit q (indices.flatMap fun i => (locationAt locations i).address) d)

/-- The first of the greatest. -/
def firstGreatest (entries : List (ℕ × F)) : Option (ℕ × F) :=
  entries.foldl (fun best e =>
    match best with
    | none => some e
    | some b => if lt b.2 e.2 then some e else some b) none

section Source

variable (query : List F) (locations : List (HardLocation F)) (k : ℕ) (idLookup : List (Option ℕ))

/-- The loop: the locations it visits, in order, and the heap at its end; `none`
out of fuel or on an index out of bounds. -/
def walk : ℕ → Walk F → Option (List ℕ × List (ℕ × F))
  | 0, _ => none
  | fuel + 1, st =>
    let found := gatherNeighbors idLookup st.visited (locationAt locations st.current).neighbors
    if found.1.isEmpty then some ([], st.result)
    else do
      let sims ← bufferSims (normalize query) locations found.1 query.length
      let entries ← if sims.length ≤ found.1.length then some (found.1.zip sims) else none
      let result := entries.foldl (offer k) st.result
      match firstGreatest entries with
      | none => some (found.1, result)
      | some next =>
        -- the best neighbor cannot improve the k-th best
        let stop := k ≤ result.length &&
          match result.head? with
          | some worst => lt next.2 worst.2
          | none => false
        if stop then some (found.1, result)
        else do
          let (visits, result) ← walk fuel ⟨found.2, result, next.1⟩
          some (found.1 ++ visits, result)

/-- Where the descent starts: the most similar landmark, the first of several. -/
def entryPoint (landmarks : List ℕ) : Option (ℕ × F) := do
  let sims ←
    if landmarks.all (· < locations.length) then bufferSims (normalize query) locations landmarks query.length
    else none
  let best ← firstGreatest (sims.zipIdx.map fun p => (p.2, p.1))
  let entry ← landmarks[best.1]?
  pure (entry, best.2)

/-- Only the landmark is visited. -/
def startAt (entry : ℕ × F) : Walk F :=
  ⟨(List.replicate locations.length false).set entry.1 true, [entry], entry.1⟩

/-- `graph_activate`; `none` on a panic. -/
def graphActivate (landmarks : List ℕ) : Option (List ℕ × List F) :=
  if landmarks.isEmpty || locations.length = 0 then some (activate query locations k)
  else do
    let entry ← entryPoint query locations landmarks
    let (_, result) ← walk query locations k idLookup locations.length (startAt locations entry)
    some (sortBy (fun a b => partialCmp b.2 a.2) result).unzip

end Source

/-! ### The flags -/

/-- The flags are set exactly for the locations visited, each of which was
visited once. -/
structure Marks (n : ℕ) (visited : List Bool) (seen : List ℕ) : Prop where
  length : visited.length = n
  nodup : seen.Nodup
  mem : ∀ i, i ∈ seen ↔ visited[i]? = some true

theorem Marks.lt {n : ℕ} {visited : List Bool} {seen : List ℕ} (h : Marks n visited seen) {i : ℕ} (hi : i ∈ seen) :
    i < n := h.length ▸ (List.getElem?_eq_some_iff.mp ((h.mem i).mp hi)).1

/-- There are not more visited than there are. -/
theorem Marks.length_le {n : ℕ} {visited : List Bool} {seen : List ℕ} (h : Marks n visited seen) : seen.length ≤ n := by
  have hsub : seen ⊆ List.range n := fun i hi => List.mem_range.mpr (h.lt hi)
  have hle := (List.subperm_of_subset h.nodup hsub).length_le
  rwa [List.length_range] at hle

/-- One more is visited. -/
theorem Marks.snoc {n : ℕ} {visited : List Bool} {seen : List ℕ} (h : Marks n visited seen) {i : ℕ}
    (hnew : visited.getD i true = false) : Marks n (visited.set i true) (seen ++ [i]) := by
  have hi : i < visited.length := by
    by_contra hge
    rw [List.getD_eq_default _ _ (not_lt.mp hge)] at hnew
    exact Bool.noConfusion hnew
  have hnot : i ∉ seen := by
    intro hin
    rw [List.getD_eq_getElem?_getD, (h.mem i).mp hin] at hnew
    exact Bool.noConfusion hnew
  refine ⟨(List.length_set).trans h.length, ?_, fun j => ?_⟩
  · exact List.nodup_append.mpr ⟨h.nodup, List.nodup_singleton i, fun j hj j' hj' =>
      fun heq => hnot (List.mem_singleton.mp hj' ▸ heq ▸ hj)⟩
  · rw [List.mem_append, List.mem_singleton, h.mem j]
    by_cases hij : i = j
    · subst hij
      rw [List.getElem?_set_self hi]
      simp
    · rw [List.getElem?_set_ne hij]
      simp [Ne.symm hij]

theorem marks_gatherNeighbor {n : ℕ} {idLookup : List (Option ℕ)} {seen : List ℕ} {st : List ℕ × List Bool}
    (h : Marks n st.2 (seen ++ st.1)) (id : ℕ) :
    Marks n (gatherNeighbor idLookup st id).2 (seen ++ (gatherNeighbor idLookup st id).1) := by
  unfold gatherNeighbor
  split
  · rename_i idx _
    by_cases hvisited : st.2.getD idx true = true
    · rw [if_pos hvisited]
      exact h
    · rw [if_neg hvisited, ← List.append_assoc]
      exact h.snoc (Bool.eq_false_iff.mpr hvisited)
  · exact h

/-- **A hop marks what it visits**, whatever the list names. -/
theorem marks_gatherNeighbors {n : ℕ} {visited : List Bool} {seen : List ℕ} (h : Marks n visited seen)
    (idLookup : List (Option ℕ)) (neighbors : List ℕ) :
    Marks n (gatherNeighbors idLookup visited neighbors).2 (seen ++ (gatherNeighbors idLookup visited neighbors).1) := by
  refine List.foldlRecOn (motive := fun st : List ℕ × List Bool => Marks n st.2 (seen ++ st.1)) _ _ ?_
    fun st hst id _ => marks_gatherNeighbor hst id
  rwa [List.append_nil]

/-- Only the entry is visited at first. -/
theorem marks_start {n i : ℕ} (hi : i < n) : Marks n ((List.replicate n false).set i true) [i] := by
  have hnone : Marks n (List.replicate n false) [] :=
    ⟨List.length_replicate, List.nodup_nil, fun j => by simp [List.getElem?_replicate]⟩
  exact hnone.snoc (by rw [List.getD_eq_getElem _ _ (by simpa using hi), List.getElem_replicate])

/-! ### Similarities and the best of them -/

/-- The rows of a buffer of addresses, one by one. -/
theorem bufferSims_eq {query : List F} {locations : List (HardLocation F)}
    (hd : ∀ loc ∈ locations, loc.address.length = query.length) (hpos : 0 < query.length) {indices : List ℕ}
    (hlt : ∀ i ∈ indices, i < locations.length) :
    bufferSims (normalize query) locations indices query.length = some (indices.map (similarity query locations)) := by
  have hd' : ∀ loc ∈ indices.map (locationAt locations), loc.address.length = query.length := by
    intro loc hloc
    obtain ⟨i, hi, rfl⟩ := List.mem_map.mp hloc
    exact hd _ (locationAt_mem (hlt i hi))
  have hrows := congrArg (List.map (·.2)) (batchDotUnit_eq hd' hpos query)
  have hbuffer : (indices.flatMap fun i => (locationAt locations i).address) =
      (indices.map (locationAt locations)).flatMap (·.address) := by
    rw [List.flatMap_map]
  rw [bufferSims, if_neg hpos.ne', hbuffer]
  rw [List.map_map] at hrows
  refine congrArg some ((List.zipIdx_map_fst 0 _).symm.trans (hrows.trans ?_))
  refine List.ext_getElem (by simp [scored]) fun i hi hi' => ?_
  have hi : i < indices.length := by simpa using hi'
  simp [scored, similarity, locationAt, hi]

/-- The first of the greatest is one of them, and none is greater. -/
theorem firstGreatest_spec [Valued F] {entries : List (ℕ × F)} (hfin : Finite entries) (hne : entries ≠ []) :
    ∃ e ∈ entries, firstGreatest entries = some e ∧ ∀ e' ∈ entries, lt e.2 e'.2 = false := by
  have hrun : ∀ (es : List (ℕ × F)) (b : ℕ × F), Finite (b :: es) →
      ∃ e ∈ b :: es, es.foldl (fun best e =>
        match best with
        | none => some e
        | some b => if lt b.2 e.2 then some e else some b) (some b) = some e ∧
        ∀ e' ∈ b :: es, lt e.2 e'.2 = false := by
    intro es
    induction es with
    | nil =>
      intro b hb
      have hb' := hb b List.mem_cons_self
      refine ⟨b, List.mem_cons_self, rfl, fun e' he' => ?_⟩
      obtain rfl := List.mem_singleton.mp he'
      exact Bool.eq_false_iff.mpr (mt (lt_iff hb' hb').mp (lt_irrefl _))
    | cons c es ih =>
      intro b hfin
      have hb := hfin b List.mem_cons_self
      have hc := hfin c (List.mem_cons_of_mem b List.mem_cons_self)
      rw [List.foldl_cons]
      dsimp only
      by_cases hlt : lt b.2 c.2 = true
      · rw [if_pos hlt]
        obtain ⟨e, he, hfold, hbest⟩ := ih c fun x hx => hfin x (List.mem_cons_of_mem b hx)
        refine ⟨e, List.mem_cons_of_mem b he, hfold, fun e' he' => ?_⟩
        rcases List.mem_cons.mp he' with rfl | he'
        · have hfe := hfin e (List.mem_cons_of_mem e' he)
          have hle : ¬val e.2 < val c.2 :=
            mt (lt_iff hfe hc).mpr (Bool.eq_false_iff.mp (hbest c List.mem_cons_self))
          refine Bool.eq_false_iff.mpr fun hless => hle ?_
          exact ((lt_iff hfe hb).mp hless).trans ((lt_iff hb hc).mp hlt)
        · exact hbest e' he'
      · rw [if_neg hlt]
        have hsub : ∀ x ∈ b :: es, x ∈ b :: c :: es := fun x hx => by
          rcases List.mem_cons.mp hx with rfl | hx
          · exact List.mem_cons_self
          · exact List.mem_cons_of_mem _ (List.mem_cons_of_mem _ hx)
        obtain ⟨e, he, hfold, hbest⟩ := ih b fun x hx => hfin x (hsub x hx)
        refine ⟨e, hsub e he, hfold, fun e' he' => ?_⟩
        rcases List.mem_cons.mp he' with rfl | he'
        · exact hbest e' List.mem_cons_self
        rcases List.mem_cons.mp he' with rfl | he'
        · have hfe := hfin e (hsub e he)
          have hle : ¬val b.2 < val e'.2 := mt (lt_iff hb hc).mpr hlt
          have hle' : ¬val e.2 < val b.2 :=
            mt (lt_iff hfe hb).mpr (Bool.eq_false_iff.mp (hbest b List.mem_cons_self))
          refine Bool.eq_false_iff.mpr fun hless => hle ?_
          exact (not_lt.mp hle').trans_lt ((lt_iff hfe hc).mp hless)
        · exact hbest e' (List.mem_cons_of_mem b he')
  cases entries with
  | nil => exact absurd rfl hne
  | cons b es => exact hrun es b hfin

/-! ### The heap -/

variable [Valued F] {query : List F} {locations : List (HardLocation F)} {k entry : ℕ}

/-- The landmark is in the heap, or something more similar is. -/
def Covered (e : ℕ × F) (heap : List (ℕ × F)) : Prop := e ∈ heap ∨ ∃ t ∈ heap, rank e < rank t

theorem Covered.offer {e x : ℕ × F} {heap : List (ℕ × F)} (h : Covered e heap) (hkeys : Compares rank (heap ++ [x])) :
    Covered e (offer k heap x) := by
  have hgrow : Covered e (heap ++ [x]) := by
    rcases h with h | ⟨t, ht, hlt⟩
    · exact Or.inl (List.mem_append_left _ h)
    · exact Or.inr ⟨t, List.mem_append_left _ ht, hlt⟩
  cases heap with
  | nil =>
    rcases h with h | ⟨t, ht, -⟩
    · exact absurd h List.not_mem_nil
    · exact absurd ht List.not_mem_nil
  | cons m rest =>
    by_cases hroom : (m :: rest).length < k
    · have hpush := push_perm minEntryLe (m :: rest) x
      rw [HeatherDb.offer, if_pos hroom]
      rcases hgrow with h | ⟨t, ht, hlt⟩
      · exact Or.inl (hpush.symm.subset h)
      · exact Or.inr ⟨t, hpush.symm.subset ht, hlt⟩
    rw [offer_full (Nat.not_lt.mp hroom)]
    split_ifs with hmore
    · have hpush := (push_perm minEntryLe (pop minEntryLe (m :: rest)) x).trans
        ((pop_perm minEntryLe m rest).append_right [x])
      have hx : x ∈ push minEntryLe (pop minEntryLe (m :: rest)) x := hpush.symm.subset (by simp)
      have hrest : ∀ y ∈ rest, y ∈ push minEntryLe (pop minEntryLe (m :: rest)) x := fun y hy =>
        hpush.symm.subset (List.mem_append_left _ hy)
      have hless : rank m < rank x := (hkeys m (by simp) x (by simp)).mp hmore
      -- the one that is popped gives way to something more similar
      rcases h with h | ⟨t, ht, hlt⟩
      · rcases List.mem_cons.mp h with rfl | h
        · exact Or.inr ⟨x, hx, hless⟩
        · exact Or.inl (hrest e h)
      · rcases List.mem_cons.mp ht with rfl | ht
        · exact Or.inr ⟨x, hx, hlt.trans hless⟩
        · exact Or.inr ⟨t, hrest t ht, hlt⟩
    · exact h

/-- The heap has the k best of the locations visited. -/
structure Heaped (query : List F) (locations : List (HardLocation F)) (k entry : ℕ) (seen : List ℕ)
    (heap : List (ℕ × F)) : Prop where
  kept : BestHeap rank k (entriesOf query locations seen) heap
  covered : Covered (entry, similarity query locations entry) heap

/-- More locations are visited. -/
theorem Heaped.foldl (hfin : FiniteSims query locations) : ∀ {more seen : List ℕ} {heap : List (ℕ × F)},
    Heaped query locations k entry seen heap → (∀ i ∈ seen ++ more, i < locations.length) →
    Heaped query locations k entry (seen ++ more) ((entriesOf query locations more).foldl (offer k) heap)
  | [], seen, _, h, _ => (List.append_nil seen).symm ▸ h
  | i :: more, seen, heap, h, hlt => by
    have hassoc : seen ++ i :: more = seen ++ [i] ++ more := by simp
    rw [hassoc] at hlt ⊢
    have hkeys := (finite_entriesOf hfin fun j hj => hlt j (List.mem_append_left more hj)).compares
    have hentries : entriesOf query locations (seen ++ [i]) =
        entriesOf query locations seen ++ [(i, similarity query locations i)] := List.map_append
    rw [hentries] at hkeys
    have hsub : heap ++ [(i, similarity query locations i)] ⊆
        entriesOf query locations seen ++ [(i, similarity query locations i)] := by
      intro x hx
      rcases List.mem_append.mp hx with hx | hx
      · exact List.mem_append_left _ (h.kept.greatest.mem hx)
      · exact List.mem_append_right _ hx
    exact Heaped.foldl hfin ⟨hentries ▸ bestHeap_offer h.kept hkeys, h.covered.offer (hkeys.subset hsub)⟩ hlt

/-! ### The run -/

/-- The invariant of the descent: flags and heap are those of the locations
visited. -/
structure Walking (query : List F) (locations : List (HardLocation F)) (k entry : ℕ) (seen : List ℕ) (st : Walk F) :
    Prop where
  marks : Marks locations.length st.visited seen
  heap : Heaped query locations k entry seen st.result

/-- **The descent ends**: with as much fuel as there are locations not visited,
each of which it visits at most once. -/
theorem walk_spec (hd : ∀ loc ∈ locations, loc.address.length = query.length) (hpos : 0 < query.length)
    (hfin : FiniteSims query locations) (idLookup : List (Option ℕ)) :
    ∀ (fuel : ℕ) (seen : List ℕ) (st : Walk F), Walking query locations k entry seen st →
      locations.length < seen.length + fuel →
      ∃ visits heap, walk query locations k idLookup fuel st = some (visits, heap) ∧ (seen ++ visits).Nodup ∧
        (∀ i ∈ seen ++ visits, i < locations.length) ∧ Heaped query locations k entry (seen ++ visits) heap := by
  intro fuel
  induction fuel with
  | zero =>
    intro seen st h hfuel
    exact absurd h.marks.length_le (by omega)
  | succ fuel ih =>
    intro seen st h hfuel
    have hmarks := marks_gatherNeighbors h.marks idLookup (locationAt locations st.current).neighbors
    rw [walk]
    generalize gatherNeighbors idLookup st.visited (locationAt locations st.current).neighbors = found at hmarks
    obtain ⟨indices, visited⟩ := found
    dsimp only at hmarks ⊢
    have hlt : ∀ i ∈ seen ++ indices, i < locations.length := fun i hi => hmarks.lt hi
    by_cases hempty : indices.isEmpty = true
    · rw [if_pos hempty]
      refine ⟨[], st.result, rfl, ?_, ?_, ?_⟩
      · exact (List.append_nil seen).symm ▸ h.marks.nodup
      · exact fun i hi => h.marks.lt (List.append_nil seen ▸ hi)
      · exact (List.append_nil seen).symm ▸ h.heap
    rw [if_neg hempty, bufferSims_eq hd hpos fun i hi => hlt i (List.mem_append_right seen hi)]
    have hzip : indices.zip (indices.map (similarity query locations)) = entriesOf query locations indices := by
      rw [List.zip_map_right]
      refine List.ext_getElem (by simp [entriesOf]) fun i _ _ => by simp [entriesOf]
    simp only [Option.bind_eq_bind, Option.bind_some, List.length_map, le_refl, if_true, hzip]
    have hheap := h.heap.foldl hfin hlt
    have hdone := hmarks.nodup
    have hnext : ∀ next : ℕ × F, Walking query locations k entry (seen ++ indices)
        ⟨visited, (entriesOf query locations indices).foldl (offer k) st.result, next.1⟩ := fun _ => ⟨hmarks, hheap⟩
    cases firstGreatest (entriesOf query locations indices) with
    | none => exact ⟨indices, _, rfl, hdone, hlt, hheap⟩
    | some next =>
      dsimp only
      split_ifs
      · exact ⟨indices, _, rfl, hdone, hlt, hheap⟩
      · have hmore : 0 < indices.length := List.length_pos_of_ne_nil fun hnil => hempty (List.isEmpty_iff.mpr hnil)
        obtain ⟨visits, heap, hwalk, hnodup, hlt', hheap'⟩ := ih (seen ++ indices) _ (hnext next) (by
          rw [List.length_append]
          omega)
        rw [List.append_assoc] at hnodup hlt' hheap'
        exact ⟨indices ++ visits, heap, by rw [hwalk]; rfl, hnodup, hlt', hheap'⟩

/-- The descent starts at the most similar landmark. -/
theorem entryPoint_spec (hd : ∀ loc ∈ locations, loc.address.length = query.length) (hpos : 0 < query.length)
    (hfin : FiniteSims query locations) {landmarks : List ℕ} (hlm : ∀ lm ∈ landmarks, lm < locations.length)
    (hne : landmarks ≠ []) : ∃ entry ∈ landmarks,
      entryPoint query locations landmarks = some (entry, similarity query locations entry) ∧
        ∀ lm ∈ landmarks, lt (similarity query locations entry) (similarity query locations lm) = false := by
  have hvalid : landmarks.all (· < locations.length) = true := List.all_eq_true.mpr fun lm h => decide_eq_true (hlm lm h)
  set entries := (landmarks.map (similarity query locations)).zipIdx.map fun p => (p.2, p.1) with hentries
  have hget : ∀ e ∈ entries, ∃ lm, landmarks[e.1]? = some lm ∧ e.2 = similarity query locations lm := by
    intro e he
    obtain ⟨p, hp, rfl⟩ := List.mem_map.mp he
    have hp := List.mem_zipIdx_iff_getElem?.mp hp
    rw [List.getElem?_map, Option.map_eq_some_iff] at hp
    obtain ⟨lm, hlm, heq⟩ := hp
    exact ⟨lm, hlm, heq.symm⟩
  have hfinite : Finite entries := by
    intro e he
    obtain ⟨lm, hget, heq⟩ := hget e he
    rw [heq]
    exact hfin _ (locationAt_mem (hlm lm (List.mem_of_getElem? hget)))
  have hcons : entries ≠ [] := by simpa [hentries] using hne
  obtain ⟨e, he, hfirst, hbest⟩ := firstGreatest_spec hfinite hcons
  obtain ⟨entry, hentry, heq⟩ := hget e he
  refine ⟨entry, List.mem_of_getElem? hentry, ?_, fun lm h => ?_⟩
  · rw [entryPoint, if_pos hvalid, bufferSims_eq hd hpos hlm]
    simp only [Option.bind_eq_bind, Option.bind_some, ← hentries, hfirst, hentry, Option.pure_def, heq]
  · obtain ⟨j, hj, hlmj⟩ := List.mem_iff_getElem.mp h
    have hin : (j, similarity query locations lm) ∈ entries := by
      refine List.mem_map.mpr ⟨(similarity query locations lm, j), List.mem_zipIdx_iff_getElem?.mpr ?_, rfl⟩
      rw [List.getElem?_map, List.getElem?_eq_getElem hj, hlmj]
      rfl
    exact heq ▸ hbest _ hin

/-- What leaves the answer of an activation was displaced. -/
theorem displaced {candidates : List ℕ} {heap : List (ℕ × F)} (hfin : FiniteSims query locations)
    (hlt : ∀ i ∈ entry :: candidates, i < locations.length)
    (hheap : Heaped query locations k entry (entry :: candidates) heap) {r : List ℕ × List F}
    (hr : Activated query locations (entry :: candidates) k r) (hmem : ∀ i, i ∈ r.1 ↔ i ∈ heap.map (·.1)) :
    entry ∈ r.1 ∨ r.1.length = k ∧
      (∀ i ∈ r.1, i ∈ candidates ∧
        lt (similarity query locations i) (similarity query locations entry) = false) ∧
      ∃ i ∈ r.1, lt (similarity query locations entry) (similarity query locations i) = true := by
  by_cases hin : entry ∈ r.1
  · exact Or.inl hin
  have hothers : ∀ i ∈ r.1, i ∈ candidates := fun i hi =>
    (List.mem_cons.mp (hr.within i hi)).resolve_left fun heq => hin (heq ▸ hi)
  refine Or.inr ⟨?_, fun i hi => ⟨hothers i hi, hr.best i hi entry List.mem_cons_self hin⟩, ?_⟩
  · have hle := (List.subperm_of_subset hr.distinct hothers).length_le
    have hcount := hr.count
    rw [List.length_cons] at hcount
    omega
  · rcases hheap.covered with hkept | ⟨t, ht, hmore⟩
    · exact absurd ((hmem entry).mpr (List.mem_map_of_mem hkept)) hin
    · obtain ⟨j, hj, rfl⟩ := List.mem_map.mp (hheap.kept.greatest.mem ht)
      refine ⟨j, (hmem j).mpr (List.mem_map_of_mem ht), ?_⟩
      exact (lt_iff (hfin _ (locationAt_mem (hlt entry List.mem_cons_self))) (hfin _ (locationAt_mem (hlt j hj)))).mpr
        hmore

/-- **Graph search ends with a valid answer.** The descent visits each location
at most once, whatever the neighbor lists and the lookup name; the answer has at
least one and at most k distinct indices with their similarities, descending,
and with landmarks it is an activation among the locations visited, which has the
most similar landmark unless k others displaced it. -/
theorem graph_search_valid (hne : locations ≠ []) (hd : ∀ loc ∈ locations, loc.address.length = query.length)
    (hpos : 0 < query.length) (hfin : FiniteSims query locations) (hk : 1 ≤ k) {landmarks : List ℕ}
    (hlm : ∀ lm ∈ landmarks, lm < locations.length) (idLookup : List (Option ℕ)) :
    ∃ r, graphActivate query locations k idLookup landmarks = some r ∧ 1 ≤ r.1.length ∧ r.1.length ≤ k ∧ r.1.Nodup ∧
      (∀ i ∈ r.1, i < locations.length) ∧ r.2 = r.1.map (similarity query locations) ∧
      (r.2.Pairwise fun a b => lt a b = false) ∧
      (landmarks ≠ [] → ∃ entry ∈ landmarks,
        (∀ lm ∈ landmarks, lt (similarity query locations entry) (similarity query locations lm) = false) ∧
        ∃ visits heap,
          walk query locations k idLookup locations.length
            (startAt locations (entry, similarity query locations entry)) = some (visits, heap) ∧
          (entry :: visits).Nodup ∧ (∀ i ∈ visits, i < locations.length) ∧
          Activated query locations (entry :: visits) k r ∧
          (entry ∈ r.1 ∨ r.1.length = k ∧
            (∀ i ∈ r.1, i ∈ visits ∧
              lt (similarity query locations i) (similarity query locations entry) = false) ∧
            ∃ i ∈ r.1, lt (similarity query locations entry) (similarity query locations i) = true)) := by
  have hmany : 0 < locations.length := List.length_pos_of_ne_nil hne
  by_cases hland : landmarks = []
  · subst hland
    have hr : Activated query locations (List.range locations.length) k (activate query locations k) := by
      rw [activate_eq, scored_eq_entriesOf]
      exact activated_topK hfin (fun i hi => List.mem_range.mp hi) List.nodup_range k
    have hcount := hr.count
    rw [List.length_range] at hcount
    refine ⟨_, rfl, ?_, ?_, hr.distinct, fun i hi => List.mem_range.mp (hr.within i hi), hr.sims, hr.descending,
      fun h => absurd rfl h⟩
    · omega
    · omega
  obtain ⟨entry, hentry, hpoint, hfirst⟩ := entryPoint_spec hd hpos hfin hlm hland
  have hstart : Walking query locations k entry [entry] (startAt locations (entry, similarity query locations entry)) :=
    { marks := marks_start (hlm entry hentry)
      heap := ⟨⟨Greatest.refl hk, isHeap_singleton _ _⟩, Or.inl List.mem_cons_self⟩ }
  obtain ⟨visits, heap, hwalk, hnodup, hlt, hheap⟩ := walk_spec hd hpos hfin idLookup locations.length [entry] _ hstart
    (by rw [List.length_singleton]; omega)
  rw [List.singleton_append] at hnodup hlt hheap
  obtain ⟨hgreatest, hsorted⟩ := greatest_sortBy (finite_entriesOf hfin hlt).compares hheap.kept.greatest
  have hr := activated_of_greatest hfin hlt hnodup hgreatest hsorted
  have hcount := hr.count
  rw [List.length_cons] at hcount
  have hrun : graphActivate query locations k idLookup landmarks =
      some (sortBy (fun a b => partialCmp b.2 a.2) heap).unzip := by
    have hgo : ¬(landmarks.isEmpty || decide (locations.length = 0)) = true := by
      simp [hland, hne]
    rw [graphActivate, if_neg hgo, hpoint]
    simp only [Option.bind_eq_bind, Option.bind_some, hwalk]
  refine ⟨_, hrun, by omega, by omega, hr.distinct, fun i hi => hlt i (hr.within i hi), hr.sims, hr.descending,
    fun _ => ⟨entry, hentry, hfirst, visits, heap, hwalk, hnodup, fun i hi => hlt i (List.mem_cons_of_mem _ hi), hr,
      displaced hfin hlt hheap hr fun i => ?_⟩⟩
  rw [List.unzip_fst, List.mem_map, List.mem_map]
  simp only [mem_sortBy]

/-- A location as similar as the first and one more similar, both its neighbors. -/
def tiedPlaces : List (HardLocation ℚ) :=
  [{ HardLocation.new 0 [1 / 2] with neighbors := [1, 2] }, .new 1 [1 / 2], .new 2 [1]]

/-- From the landmark the walk visits both, and the two displace it. -/
theorem graph_search_valid_tied :
    graphActivate [1] tiedPlaces 2 (buildIdLookup tiedPlaces) [0] = some ([2, 1], [1, 1 / 2]) ∧
      ∃ visits heap, walk [1] tiedPlaces 2 (buildIdLookup tiedPlaces) 3
          (startAt tiedPlaces (0, similarity [1] tiedPlaces 0)) = some (visits, heap) ∧ (0 :: visits).Nodup ∧
        Activated [1] tiedPlaces (0 :: visits) 2 ([2, 1], [1, 1 / 2]) := by
  have hd : ∀ loc ∈ tiedPlaces, loc.address.length = [(1 : ℚ)].length := by decide +kernel
  have hlm : ∀ lm ∈ [0], lm < tiedPlaces.length := by decide +kernel
  obtain ⟨r, hr, -, -, -, -, -, -, hland⟩ := graph_search_valid (by decide +kernel : tiedPlaces ≠ []) hd (by decide)
    (fun _ _ => rfl) (by decide : 1 ≤ 2) hlm (buildIdLookup tiedPlaces)
  have hresult : graphActivate [1] tiedPlaces 2 (buildIdLookup tiedPlaces) [0] = some ([2, 1], [1, 1 / 2]) := by
    decide +kernel
  obtain rfl : r = ([2, 1], [1, 1 / 2]) := Option.some.inj (hr.symm.trans hresult)
  obtain ⟨entry, hentry, -, visits, heap, hwalk, hnodup, -, hactivated, -⟩ := hland (List.cons_ne_nil _ _)
  obtain rfl := List.mem_singleton.mp hentry
  exact ⟨hresult, visits, heap, hwalk, hnodup, hactivated⟩

/-- Without locations there is no index; a location of another dimension makes
the buffer's rows run out of the landmarks; and of two equal entries the heap
pops the landmark when one more similar comes. -/
theorem graph_search_ties :
    (¬∀ (query : List ℚ) (locations : List (HardLocation ℚ)) (k : ℕ) (landmarks : List ℕ), 1 ≤ k →
      (∀ lm ∈ landmarks, lm < locations.length) → ∀ r,
        graphActivate query locations k (buildIdLookup locations) landmarks = some r → 1 ≤ r.1.length) ∧
    (¬∀ (query : List ℚ) (locations : List (HardLocation ℚ)) (k : ℕ) (landmarks : List ℕ), 1 ≤ k →
      (∀ lm ∈ landmarks, lm < locations.length) →
        (graphActivate query locations k (buildIdLookup locations) landmarks).isSome = true) ∧
    ¬∀ (query : List ℚ) (locations : List (HardLocation ℚ)) (k lm : ℕ), 1 ≤ k → lm < locations.length → ∀ r,
      graphActivate query locations k (buildIdLookup locations) [lm] = some r →
        lm ∈ r.1 ∨ ∃ better : List ℕ, better.Nodup ∧ better.length = k ∧ ∀ i ∈ better, i < locations.length ∧
          lt (similarity query locations lm) (similarity query locations i) = true := by
  refine ⟨fun h => ?_, fun h => ?_, fun h => ?_⟩
  · exact absurd (h [1] [] 1 [] le_rfl (by decide) ([], []) (by decide +kernel)) (by decide)
  · exact absurd (h [1] [.new 0 [0, 1]] 1 [0] le_rfl (by decide +kernel)) (by decide +kernel)
  · rcases h [1] tiedPlaces 2 0 (by decide) (by decide +kernel) ([2, 1], [1, 1 / 2]) (by decide +kernel) with
      hin | ⟨better, hnodup, hlength, hbetter⟩
    · exact absurd hin (by decide)
    · have honly : ∀ i ∈ better, i = 2 := by
        intro i hi
        obtain ⟨hlt, hmore⟩ := hbetter i hi
        have hcases : ∀ i < tiedPlaces.length,
            lt (similarity [1] tiedPlaces 0) (similarity [1] tiedPlaces i) = true → i = 2 := by decide +kernel
        exact hcases i hlt hmore
      have hle := (List.subperm_of_subset hnodup fun i hi => List.mem_singleton.mpr (honly i hi)).length_le
      rw [hlength] at hle
      exact absurd hle (by decide)

end HeatherDb
