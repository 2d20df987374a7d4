/-
# The neighbor graph

What the writes, merges and compressions of a collection do to its neighbor
lists. A list is well formed (`Formed`) when it names no location twice, not
its own location and only ids that were given out. A write links what it
activated and cuts the list to the capacity, a split hands the winner's list
to its child, a merge takes the union; a compression appends one list to the
other as it is, so that what it leaves is well formed where the two lists name
nothing in common and not the location that stays (`Apart`).

Key definitions: `Formed`, `Trimmed`, `Apart`, `apartRules`.
Key theorems: `nodup_nearest`, `preserves_formed`, `graph_well_formed`.
-/
import HeatherDb.Building
import HeatherDb.Exact

namespace HeatherDb

open Scalar Narrow BinaryHeap

variable {F S : Type} [Scalar F] [Scalar S] [Narrow F S]

/-! ### No location is activated twice -/

theorem offer_subperm (k : ℕ) (heap : List (ℕ × F)) (e : ℕ × F) : (offer k heap e).Subperm (heap ++ [e]) := by
  rcases offer_perm k heap e with hperm | hperm | hsame
  · exact hperm.subperm
  · exact hperm.subperm.trans ((List.subperm_append_right [e]).mpr (List.tail_sublist heap).subperm)
  · rw [hsame]
    exact (List.sublist_append_left heap [e]).subperm

theorem topK_subperm (k : ℕ) (entries : List (ℕ × F)) : (topK k entries).Subperm entries := by
  have hpass : ∀ (es heap : List (ℕ × F)), (es.foldl (offer k) heap).Subperm (heap ++ es) := by
    intro es
    induction es with
    | nil =>
      intro heap
      rw [List.append_nil]
      exact List.Subperm.refl _
    | cons e es ih =>
      intro heap
      have hmore : (offer k heap e ++ es).Subperm (heap ++ [e] ++ es) :=
        (List.subperm_append_right es).mpr (offer_subperm k heap e)
      rw [List.append_assoc] at hmore
      exact (ih _).trans hmore
  exact (List.perm_insertionSort _ _).subperm.trans (hpass entries [])

theorem length_offer {k : ℕ} {heap : List (ℕ × F)} (h : heap.length ≤ k) (e : ℕ × F) :
    (offer k heap e).length = min k (heap.length + 1) := by
  by_cases hroom : heap.length < k
  · rw [offer, if_pos hroom, length_push, Nat.min_eq_right hroom]
  have hfull : heap.length = k := by omega
  cases heap with
  | nil =>
    rw [offer, if_neg hroom, List.head?_nil, hfull]
    omega
  | cons m rest =>
    rw [offer_full (Nat.not_lt.mp hroom)]
    split_ifs
    · have hpop := (pop_perm minEntryLe m rest).length_eq
      rw [length_push, hpop, List.length_cons] at *
      omega
    · omega

/-- **A heap is filled** as far as there are entries. -/
theorem length_topK (k : ℕ) (entries : List (ℕ × F)) : (topK k entries).length = min k entries.length := by
  have hpass : ∀ (es heap : List (ℕ × F)), heap.length ≤ k →
      (es.foldl (offer k) heap).length = min k (heap.length + es.length) := by
    intro es
    induction es with
    | nil => exact fun heap h => (Nat.min_eq_right h).symm
    | cons e es ih =>
      intro heap h
      have hnext := length_offer h e
      rw [List.foldl_cons, ih _ (hnext ▸ Nat.min_le_left _ _), hnext, List.length_cons]
      omega
  rw [topK, sortBy, List.length_insertionSort, hpass entries [] (Nat.zero_le k), List.length_nil, Nat.zero_add]

/-- **No location is found twice.** -/
theorem nodup_nearest (query : List F) (locations : List (HardLocation F)) (k : ℕ) (scan : Scan F S) :
    (nearest query locations k scan).1.Nodup := by
  dsimp only [nearest]
  split_ifs
  · set q := normalize query
    set approx := scoreRows (q.map toF32) scan.matrix query.length
    set best := (approx.zipIdx.filter _).filterMap fun p : S × ℕ => locations[p.2]?.map fun loc =>
      (p.2, dot q loc.address)
    have hbest : (best.map Prod.fst).Sublist ((approx.zipIdx.filter _).map Prod.snd) :=
      filterMap_keys_sublist fun p _ r hp => by
        obtain ⟨loc, -, rfl⟩ := Option.map_eq_some_iff.mp hp
        rfl
    have hplaces := (hbest.trans (List.filter_sublist.map Prod.snd)).nodup (by
      rw [List.zipIdx_map_snd]
      exact List.nodup_range')
    rw [List.unzip_fst, List.map_take]
    exact (((List.perm_insertionSort _ best).map Prod.fst).nodup_iff.mpr hplaces).sublist (List.take_sublist _ _)
  · rw [activate, List.unzip_fst]
    obtain ⟨kept, hperm, hsub⟩ := topK_subperm k (locations.zipIdx.map fun p =>
      (p.2, dot (normalize query) p.1.address))
    refine ((hperm.map Prod.fst).nodup_iff).mp ((hsub.map Prod.fst).nodup ?_)
    rw [List.map_map]
    show (locations.zipIdx.map Prod.snd).Nodup
    rw [List.zipIdx_map_snd]
    exact List.nodup_range'

/-! ### Well-formed lists -/

/-- A list that names no location twice, not its own and none yet to come. -/
structure Formed (nextId : ℕ) (loc : HardLocation F) : Prop where
  nodup : loc.neighbors.Nodup
  other : loc.id ∉ loc.neighbors
  known : ∀ id ∈ loc.neighbors, id < nextId

omit [Scalar F] in
theorem Formed.mono {n m : ℕ} {loc : HardLocation F} (h : Formed n loc) (hle : n ≤ m) : Formed m loc :=
  ⟨h.nodup, h.other, fun id hid => (h.known id hid).trans_le hle⟩

/-- Naming further locations, each once and not `own`. -/
theorem foldl_name (own : ℕ) {nextId : ℕ} (add : List ℕ → ℕ → List ℕ)
    (hadd : ∀ ns n, add ns n = ns ∨ n ≠ own ∧ n ∉ ns ∧ add ns n = ns ++ [n]) : ∀ (more : List ℕ) {ns : List ℕ},
    (∀ n ∈ more, n < nextId) → ns.Nodup → own ∉ ns → (∀ n ∈ ns, n < nextId) →
    (more.foldl add ns).Nodup ∧ own ∉ more.foldl add ns ∧ ∀ n ∈ more.foldl add ns, n < nextId
  | [], _, _, hnodup, hother, hknown => ⟨hnodup, hother, hknown⟩
  | n :: more, ns, hmore, hnodup, hother, hknown => by
    have hlater : ∀ k ∈ more, k < nextId := fun k hk => hmore k (List.mem_cons_of_mem n hk)
    rw [List.foldl_cons]
    rcases hadd ns n with hsame | ⟨hne, hnot, happ⟩
    · rw [hsame]
      exact foldl_name own add hadd more hlater hnodup hother hknown
    · rw [happ]
      refine foldl_name own add hadd more hlater ?_ ?_ ?_
      · exact List.nodup_append'.mpr ⟨hnodup, List.nodup_singleton n, List.disjoint_singleton.mpr hnot⟩
      · rw [List.mem_append, List.mem_singleton, not_or]
        exact ⟨hother, hne.symm⟩
      · intro k hk
        rcases List.mem_append.mp hk with hk | hk
        · exact hknown k hk
        · exact (List.mem_singleton.mp hk) ▸ hmore n List.mem_cons_self

omit [Scalar F] in
/-- Linking keeps a list well formed and cuts it to the capacity. -/
theorem Formed.linkPeers {nextId : ℕ} {loc : HardLocation F} (h : Formed nextId loc) {ids : List ℕ}
    (hids : ∀ id ∈ ids, id < nextId) (cap : ℕ) : Formed nextId (HeatherDb.linkPeers ids cap loc) ∧
      (HeatherDb.linkPeers ids cap loc).neighbors.length ≤ cap := by
  obtain ⟨hnodup, hother, hknown⟩ := foldl_name loc.id
    (fun ns peer => if peer = loc.id then ns else if peer ∈ ns then ns else ns ++ [peer])
    (fun ns n => by
      split_ifs with hown hin
      · exact Or.inl rfl
      · exact Or.inl rfl
      · exact Or.inr ⟨hown, hin, rfl⟩) ids hids h.nodup h.other h.known
  refine ⟨⟨hnodup.sublist (List.drop_sublist _ _), fun hin => hother (List.mem_of_mem_drop hin),
    fun id hid => hknown id (List.mem_of_mem_drop hid)⟩, ?_⟩
  unfold HeatherDb.linkPeers
  dsimp only
  rw [List.length_drop]
  omega

/-- **A survivor takes the union**, cut to the capacity. -/
theorem Formed.absorb {n m : ℕ} {config : EAMConfig F} {a b : HardLocation F} (ha : Formed n a) (hb : Formed n b) :
    Formed n (HeatherDb.absorb config m a b) ∧ (0 < config.adaptiveNeighborCap m →
      (HeatherDb.absorb config m a b).neighbors.length ≤ config.adaptiveNeighborCap m) := by
  obtain ⟨hnodup, hother, hknown⟩ := foldl_name a.id
    (fun ns n => if n = a.id ∨ n ∈ ns then ns else ns ++ [n])
    (fun ns n => by
      split_ifs with hskip
      · exact Or.inl rfl
      · exact Or.inr ⟨fun hown => hskip (Or.inl hown), fun hin => hskip (Or.inr hin), rfl⟩)
    b.neighbors hb.known ha.nodup ha.other ha.known
  unfold HeatherDb.absorb
  dsimp only
  set union := b.neighbors.foldl (fun ns n => if n = a.id ∨ n ∈ ns then ns else ns ++ [n]) a.neighbors
  set kept := union.filter (· ≠ b.id)
  have hkept : kept.Sublist union := List.filter_sublist
  constructor
  · have hsub : (if 0 < config.adaptiveNeighborCap m ∧ config.adaptiveNeighborCap m < kept.length then
        kept.take (config.adaptiveNeighborCap m) else kept).Sublist union := by
      split_ifs
      · exact (List.take_sublist _ _).trans hkept
      · exact hkept
    exact ⟨hnodup.sublist hsub, fun hin => hother (hsub.subset hin), fun id hid => hknown id (hsub.subset hid)⟩
  · intro hon
    split_ifs with hlong
    · exact List.length_take_le _ _
    · exact not_lt.mp fun hmore => hlong ⟨hon, hmore⟩

/-- What a compression joins should be apart: the lists name nothing in common
and not the location that stays, and fit the capacity together. -/
structure Apart (cap : ℕ) (a b : HardLocation F) : Prop where
  disjoint : a.neighbors.Disjoint b.neighbors
  other : a.id ∉ b.neighbors
  fit : 0 < cap → a.neighbors.length + b.neighbors.length ≤ cap

/-- Lists that are apart are joined well. -/
theorem Formed.joined {n cap : ℕ} {a b : HardLocation F} (ha : Formed n a) (hb : Formed n b) (hapart : Apart cap a b) :
    Formed n (HeatherDb.joined a b) where
  nodup := List.nodup_append'.mpr ⟨ha.nodup, hb.nodup, hapart.disjoint⟩
  other hin := (List.mem_append.mp hin).elim ha.other hapart.other
  known id hid := (List.mem_append.mp hid).elim (ha.known id) (hb.known id)

/-! ### What a write does to the lists -/

theorem mem_modify {ls : List (HardLocation F)} {i : ℕ} {f : HardLocation F → HardLocation F} {loc : HardLocation F}
    (h : loc ∈ ls.modify i f) : loc ∈ ls ∨ i < ls.length ∧ loc = f (locationAt ls i) := by
  obtain ⟨j, hj⟩ := List.mem_iff_getElem?.mp h
  rw [List.getElem?_modify] at hj
  split_ifs at hj with heq
  · subst heq
    obtain ⟨old, hold, rfl⟩ := Option.map_eq_some_iff.mp hj
    obtain ⟨hlt, hget⟩ := List.getElem?_eq_some_iff.mp hold
    right
    rw [locationAt, List.getD_eq_getElem ls _ hlt, hget]
    exact ⟨hlt, rfl⟩
  · exact Or.inl (List.mem_of_getElem? (by simpa using hj))

/-- A list as it was in `before`, or no longer than the capacity. -/
def Within (cap : ℕ) (before : List (HardLocation F)) (loc : HardLocation F) : Prop :=
  (∃ old ∈ before, old.id = loc.id ∧ old.neighbors = loc.neighbors) ∨ loc.neighbors.length ≤ cap

/-- What every location is during a write. -/
structure Sound (nextId cap : ℕ) (before : List (HardLocation F)) (ls : List (HardLocation F)) : Prop where
  fresh : ∀ loc ∈ ls, loc.id < nextId
  formed : ∀ loc ∈ ls, Formed nextId loc
  within : ∀ loc ∈ ls, Within cap before loc

variable {nextId cap : ℕ} {before ls : List (HardLocation F)}

/-- An edit that leaves id and list alone. -/
theorem Sound.modify_same (h : Sound nextId cap before ls) (i : ℕ) {f : HardLocation F → HardLocation F}
    (hid : ∀ loc, (f loc).id = loc.id) (hlist : ∀ loc, (f loc).neighbors = loc.neighbors) :
    Sound nextId cap before (ls.modify i f) := by
  have hone : ∀ {P : HardLocation F → Prop}, (∀ loc ∈ ls, P loc) → (∀ loc, P loc → P (f loc)) →
      ∀ loc ∈ ls.modify i f, P loc := fun hall hf loc hloc => by
    rcases mem_modify hloc with hloc | ⟨hlt, rfl⟩
    · exact hall loc hloc
    · exact hf _ (hall _ (locationAt_mem hlt))
  refine ⟨hone h.fresh fun loc hloc => (hid loc).symm ▸ hloc, hone h.formed fun loc hloc => ?_,
    hone h.within fun loc hloc => ?_⟩
  · exact ⟨(hlist loc).symm ▸ hloc.nodup, by rw [hid, hlist]; exact hloc.other, (hlist loc).symm ▸ hloc.known⟩
  · unfold Within
    rw [hid, hlist]
    exact hloc

/-- Joining changes no list. -/
theorem Sound.joinAll (h : Sound nextId cap before ls) (address counter weights : List F) (winner : ℕ) (etaWinner : F)
    (indices : List ℕ) (opts : WriteOpts F) :
    Sound nextId cap before (HeatherDb.joinAll address counter weights winner etaWinner indices opts ls) := by
  unfold HeatherDb.joinAll
  refine List.foldlRecOn (motive := Sound nextId cap before) _ _ h fun mid hmid p _ => ?_
  by_cases hskip : (opts.gate && p.2 != winner) = true
  · rw [if_pos hskip]
    exact hmid
  · rw [if_neg hskip]
    exact hmid.modify_same p.1 (fun _ => rfl) (fun _ => rfl)

/-- **Linking** keeps what every location is, and the activated lists fit. -/
theorem Sound.linkAll (h : Sound nextId cap before ls) (indices : List ℕ) (hlt : ∀ i ∈ indices, i < ls.length) :
    Sound nextId cap before (HeatherDb.linkAll indices cap ls) ∧
      (0 < cap → ∀ i ∈ indices, (locationAt (HeatherDb.linkAll indices cap ls) i).neighbors.length ≤ cap) := by
  unfold HeatherDb.linkAll
  split_ifs with hoff
  · exact ⟨h, fun hon => absurd hoff hon.ne'⟩
  set ids := indices.map fun i => (locationAt ls i).id
  have hids : ∀ id ∈ ids, id < nextId := fun id hid => by
    obtain ⟨i, hi, rfl⟩ := List.mem_map.mp hid
    exact h.fresh _ (locationAt_mem (hlt i hi))
  have hone : ∀ {mid : List (HardLocation F)}, Sound nextId cap before mid → ∀ i,
      Sound nextId cap before (mid.modify i (linkPeers ids cap)) := fun {mid} hmid i => by
    refine ⟨fun loc hloc => ?_, fun loc hloc => ?_, fun loc hloc => ?_⟩ <;>
      rcases mem_modify hloc with hloc | ⟨hin, rfl⟩
    · exact hmid.fresh loc hloc
    · exact hmid.fresh (locationAt mid i) (locationAt_mem hin)
    · exact hmid.formed loc hloc
    · exact ((hmid.formed _ (locationAt_mem hin)).linkPeers hids cap).1
    · exact hmid.within loc hloc
    · exact Or.inr ((hmid.formed _ (locationAt_mem hin)).linkPeers hids cap).2
  refine ⟨List.foldlRecOn (motive := Sound nextId cap before) _ _ h fun mid hmid i _ => hone hmid i, fun _ => ?_⟩
  -- a list that was cut stays cut while others are
  have hcut : ∀ (is : List ℕ) {mid : List (HardLocation F)}, Sound nextId cap before mid →
      ∀ i < mid.length, i ∈ is ∨ (locationAt mid i).neighbors.length ≤ cap →
      (locationAt (is.foldl (fun locs i => locs.modify i (linkPeers ids cap)) mid) i).neighbors.length ≤ cap := by
    intro is
    induction is with
    | nil => exact fun _ i _ hi => hi.resolve_left List.not_mem_nil
    | cons j is ih =>
      intro mid hmid i hi hcase
      rw [List.foldl_cons]
      refine ih (hone hmid j) i (by simpa using hi) ?_
      by_cases hij : i = j
      · subst hij
        right
        rw [locationAt, List.getD_eq_getElem _ _ (by simpa using hi), List.getElem_modify, if_pos rfl]
        exact ((hmid.formed _ (List.getElem_mem hi)).linkPeers hids cap).2
      · rcases hcase with hcase | hcase
        · exact Or.inl ((List.mem_cons.mp hcase).resolve_left hij)
        · right
          rw [locationAt, List.getD_eq_getElem _ _ hi] at hcase
          rw [locationAt, List.getD_eq_getElem _ _ (by simpa using hi), List.getElem_modify, if_neg (Ne.symm hij)]
          exact hcase
  exact fun i hi => hcut indices h i (hlt i hi) (Or.inl hi)

/-- A spawned location takes the first of the ids it was activated with. -/
theorem formed_noveltyChild {nextId : ℕ} (cap : ℕ) {ids : List ℕ} (hnodup : ids.Nodup) (hids : ∀ id ∈ ids, id < nextId)
    (address counter : List F) : Formed (nextId + 1) (noveltyChild nextId address counter ids cap) ∧
      (noveltyChild nextId address counter ids cap).neighbors.length ≤ cap := by
  have hsub : (noveltyChild nextId address counter ids cap).neighbors.Sublist ids := by
    show (if cap = 0 then [] else ids.take cap).Sublist ids
    split_ifs
    · exact List.nil_sublist _
    · exact List.take_sublist _ _
  refine ⟨⟨hnodup.sublist hsub, fun hin => (hids nextId (hsub.subset hin)).false,
    fun id hid => Nat.lt_succ_of_lt (hids id (hsub.subset hid))⟩, ?_⟩
  show (if cap = 0 then [] else ids.take cap).length ≤ cap
  split_ifs
  · exact Nat.zero_le cap
  · exact List.length_take_le _ _

/-- The child of a split takes the first of the winner's list and the winner. -/
theorem formed_splitChild (cap : ℕ) {winner : HardLocation F} (h : Formed nextId winner) (hfresh : winner.id < nextId)
    (perturbation : List F) : Formed (nextId + 1) (splitChild nextId cap perturbation winner) ∧
      (splitChild nextId cap perturbation winner).neighbors.length ≤ cap := by
  set inherited := winner.neighbors ++ [winner.id] with hinherited
  have hwhole : inherited.Nodup :=
    List.nodup_append'.mpr ⟨h.nodup, List.nodup_singleton _, List.disjoint_singleton.mpr h.other⟩
  have hknown : ∀ id ∈ inherited, id < nextId := fun id hid => by
    rcases List.mem_append.mp hid with hid | hid
    · exact h.known id hid
    · exact (List.mem_singleton.mp hid) ▸ hfresh
  have hlist : (splitChild nextId cap perturbation winner).neighbors = if cap = 0 then [] else inherited.take cap := by
    show (if cap = 0 then [] else (if winner.id ∈ winner.neighbors then winner.neighbors else inherited).take cap) = _
    rw [if_neg h.other]
  have hsub : (splitChild nextId cap perturbation winner).neighbors.Sublist inherited := by
    rw [hlist]
    split_ifs
    · exact List.nil_sublist _
    · exact List.take_sublist _ _
  refine ⟨⟨hwhole.sublist hsub, fun hin => (hknown nextId (hsub.subset hin)).false,
    fun id hid => Nat.lt_succ_of_lt (hknown id (hsub.subset hid))⟩, ?_⟩
  rw [hlist]
  split_ifs
  · exact Nat.zero_le cap
  · exact List.length_take_le _ _

/-- The winner of a split names the child, its oldest link dropped over
capacity. -/
theorem formed_splitParent (cap : ℕ) {winner : HardLocation F} (h : Formed nextId winner)
    (hfresh : winner.id < nextId) :
    Formed (nextId + 1) (splitParent nextId cap winner) ∧ (0 < cap → winner.neighbors.length ≤ cap →
      (splitParent nextId cap winner).neighbors.length ≤ cap) := by
  have hnot : nextId ∉ winner.neighbors := fun hin => (h.known nextId hin).false
  set more := winner.neighbors ++ [nextId] with hmore
  have hnodup : more.Nodup :=
    List.nodup_append'.mpr ⟨h.nodup, List.nodup_singleton _, List.disjoint_singleton.mpr hnot⟩
  have hlength : more.length = winner.neighbors.length + 1 := List.length_append
  have hlist : (splitParent nextId cap winner).neighbors =
      if cap = 0 then winner.neighbors else if cap < more.length then more.drop 1 else more := by
    show (if cap = 0 ∨ nextId ∈ winner.neighbors then winner.neighbors else _) = _
    by_cases hoff : cap = 0
    · rw [if_pos (Or.inl hoff), if_pos hoff]
    · rw [if_neg (not_or.mpr ⟨hoff, hnot⟩), if_neg hoff]
  have hsub : (splitParent nextId cap winner).neighbors.Sublist more := by
    rw [hlist]
    split_ifs
    · exact List.sublist_append_left _ _
    · exact List.drop_sublist _ _
    · exact List.Sublist.refl _
  have hother : winner.id ∉ more := by
    rw [hmore, List.mem_append, List.mem_singleton, not_or]
    exact ⟨h.other, hfresh.ne⟩
  refine ⟨⟨hnodup.sublist hsub, fun hin => hother (hsub.subset hin), fun id hid => ?_⟩, fun hon hfits => ?_⟩
  · rcases List.mem_append.mp (hsub.subset hid) with hid | hid
    · exact Nat.lt_succ_of_lt (h.known id hid)
    · exact (List.mem_singleton.mp hid) ▸ Nat.lt_succ_self nextId
  · rw [hlist, if_neg hon.ne']
    split_ifs with hlong
    · rw [List.length_drop]
      omega
    · exact not_lt.mp hlong

/-- What a write leaves: well-formed lists, and with the graph on those it
changed fit the capacity. -/
structure Linked (cap : ℕ) (before after : List (HardLocation F)) (nextId : ℕ) : Prop where
  formed : ∀ loc ∈ after, Formed nextId loc
  within : 0 < cap → ∀ loc ∈ after, Within cap before loc

omit [Scalar F] in
/-- One more location. -/
theorem Linked.snoc (hformed : ∀ loc ∈ ls, Formed nextId loc) (hwithin : 0 < cap → ∀ loc ∈ ls, Within cap before loc)
    {new : HardLocation F} (hnew : Formed nextId new) (hfits : new.neighbors.length ≤ cap) :
    Linked cap before (ls ++ [new]) nextId where
  formed := List.forall_mem_append.mpr ⟨hformed, List.forall_mem_singleton.mpr hnew⟩
  within hon := List.forall_mem_append.mpr ⟨hwithin hon, List.forall_mem_singleton.mpr (Or.inr hfits)⟩

/-- **A competitive write** leaves the lists well formed and within the
capacity. -/
theorem linked_competitiveWrite {config : EAMConfig F} {indices : List ℕ} (hne : indices ≠ []) (hnodup : indices.Nodup)
    (hlt : ∀ i ∈ indices, i < ls.length) (hids : (ls.map (·.id)).Nodup) (hfresh : ∀ loc ∈ ls, loc.id < nextId)
    (hformed : ∀ loc ∈ ls, Formed nextId loc) (address counter : List F) (eta : F) (rng : Rng F) (opts : WriteOpts F)
    (sims : List F) :
    let w := competitiveWrite address counter ls config eta nextId rng opts indices sims
    Linked (config.adaptiveNeighborCap ls.length) ls (w.locations ++ w.result.newLocations) w.nextId := by
  set cap := config.adaptiveNeighborCap ls.length
  have hstart : Sound nextId cap ls ls := ⟨hfresh, hformed, fun loc hloc => Or.inl ⟨loc, hloc, rfl, rfl⟩⟩
  set sel := selectWinner counter config ls indices sims opts with hsel
  have hmem : indices.getD sel.1 0 ∈ indices := by
    rw [List.getD_eq_getElem indices 0 (selectWinner_lt hne)]
    exact List.getElem_mem _
  unfold competitiveWrite
  simp only [← hsel]
  generalize spawnNovelty config ls.length (sims.headD (lit 0)) sel.2 opts = spawn
  generalize eta / (lit 1 + (locationAt ls (indices.getD sel.1 0)).writeCount / config.tauDamp) = etaW
  set joined := if spawn then ls
    else joinAll address counter (activationWeights sims (min config.k ls.length)) sel.1 etaW indices opts ls
  have hjoined : Sound nextId cap ls joined ∧ Edited indices ls joined := by
    unfold joined
    split_ifs
    · exact ⟨hstart, Edited.refl _ _⟩
    · exact ⟨hstart.joinAll .., joinAll_edited ..⟩
  set surprised := if config.mdlGate && !spawn then joined.modify (indices.getD sel.1 0) fun loc =>
    { loc with surpriseMass := loc.surpriseMass + surpriseBits (sims.getD sel.1 (lit 0)) } else joined
  have hsurprised : Sound nextId cap ls surprised ∧ Edited indices ls surprised := by
    unfold surprised
    split_ifs
    · exact ⟨hjoined.1.modify_same _ (fun _ => rfl) (fun _ => rfl), hjoined.2.trans (Edited.modify hmem _ fun _ => rfl)⟩
    · exact hjoined
  obtain ⟨hlinked, hcut⟩ := hsurprised.1.linkAll indices (fun i hi => hsurprised.2.length ▸ hlt i hi)
  have hedited := hsurprised.2.trans (linkAll_edited indices cap surprised)
  set linked := linkAll indices cap surprised
  have hin : ∀ i ∈ indices, i < linked.length := fun i hi => hedited.length ▸ hlt i hi
  have hlater : ∀ loc ∈ linked, Formed (nextId + 1) loc := fun loc hloc =>
    (hlinked.formed loc hloc).mono (Nat.le_succ nextId)
  split_ifs with hspawn hfull
  · -- the child is linked to the activated locations
    have hactivated : (indices.map fun i => (locationAt linked i).id).Nodup :=
      hnodup.map_on fun i hi j hj hij => index_of_id (hedited.ids ▸ hids) (hin i hi) (hin j hj) hij
    have hchild := formed_noveltyChild cap hactivated (fun id hid => by
      obtain ⟨i, hi, rfl⟩ := List.mem_map.mp hid
      exact hlinked.fresh _ (locationAt_mem (hin i hi))) address counter
    exact Linked.snoc hlater (fun _ => hlinked.within) hchild.1 hchild.2
  · have hwinner := locationAt_mem (hin _ hmem)
    have hparent := formed_splitParent cap (hlinked.formed _ hwinner) (hlinked.fresh _ hwinner)
    have hchild := formed_splitChild cap (hlinked.formed _ hwinner) (hlinked.fresh _ hwinner)
      (randomUnitVector config.d rng).1
    refine Linked.snoc (fun loc hloc => ?_) (fun hon loc hloc => ?_) hchild.1 hchild.2 <;>
      rcases mem_modify hloc with hloc | ⟨-, rfl⟩
    · exact hlater loc hloc
    · exact hparent.1
    · exact hlinked.within loc hloc
    · exact Or.inr (hparent.2 hon (hcut hon _ hmem))
  · show Linked cap ls (linked ++ []) nextId
    rw [List.append_nil]
    exact ⟨hlinked.formed, fun _ => hlinked.within⟩

/-- **A write** leaves the lists well formed and within the capacity. -/
theorem linked_adapt {inner : EAMInner F S} (hids : (inner.locations.map (·.id)).Nodup)
    (hfresh : ∀ loc ∈ inner.locations, loc.id < inner.nextId)
    (hformed : ∀ loc ∈ inner.locations, Formed inner.nextId loc) (x : Pattern F) (rng : Rng F) :
    Linked (inner.config.adaptiveNeighborCap inner.locations.length) inner.locations
      ((inner.adapt x rng).inner.locations ++ (inner.adapt x rng).result.newLocations)
      (inner.adapt x rng).inner.nextId := by
  have hsame : ∀ loc ∈ inner.locations, Within (inner.config.adaptiveNeighborCap inner.locations.length)
      inner.locations loc := fun loc hloc => Or.inl ⟨loc, hloc, rfl, rfl⟩
  -- a location nothing was activated for has an empty list
  have halone : ∀ address counter : List F, Linked (inner.config.adaptiveNeighborCap inner.locations.length)
      inner.locations (inner.locations ++ [freshLocation inner.nextId address counter]) (inner.nextId + 1) :=
    fun address counter => Linked.snoc (fun loc hloc => (hformed loc hloc).mono (Nat.le_succ _)) (fun _ => hsame)
      ⟨List.nodup_nil, List.not_mem_nil, List.forall_mem_nil _⟩ (Nat.zero_le _)
  unfold EAMInner.adapt adaptiveWriteTwo
  by_cases hplain : (!inner.config.competitive) = true
  · rw [if_pos hplain]
    exact halone _ _
  rw [if_neg hplain]
  have hnodup := nodup_nearest x.address inner.locations (min inner.config.k inner.locations.length) inner.writeScan
  have hlt : ∀ i ∈ (nearest x.address inner.locations (min inner.config.k inner.locations.length) inner.writeScan).1,
      i < inner.locations.length := fun i hi => mem_nearest_lt hi
  generalize nearest x.address inner.locations (min inner.config.k inner.locations.length) inner.writeScan = near
    at hnodup hlt ⊢
  obtain ⟨indices, sims⟩ := near
  dsimp only at hnodup hlt ⊢
  by_cases hcold : indices.isEmpty = true
  · rw [if_pos hcold]
    exact halone _ _
  · rw [if_neg hcold]
    exact linked_competitiveWrite (mt List.isEmpty_iff.mpr hcold) hnodup hlt hids hfresh hformed ..

/-! ### Whole builds -/

/-- What a build is asked: that the lists a compression joins are apart. -/
def apartRules (config : EAMConfig F) : Rules F S where
  write _ _ := True
  merge _ _ := True
  join n a b := Apart (config.adaptiveNeighborCap n) a b

/-- Every elementary operation keeps the lists well formed. -/
theorem preserves_formed (config : EAMConfig F) : Preserves (S := S) config (apartRules config) Formed where
  mono h hle := h.mono hle
  write rng _ h _ _ := (linked_adapt h.nodup h.fresh h.each _ rng).formed
  merge ha hb _ := (ha.absorb hb).1
  join ha hb hapart := ha.joined hb hapart

variable [SeededUniform F]

/-- With the graph on, a list that an operation changed is no longer than the
capacity for the locations there were. -/
def Trimmed (config : EAMConfig F) (before after : List (HardLocation F)) : Prop :=
  0 < config.adaptiveNeighborCap before.length →
    ∀ loc ∈ after, Within (config.adaptiveNeighborCap before.length) before loc

/-- Every elementary operation of a call trims the lists it changed. -/
def Call.Trims (s : Session F S) : Call F → Prop
  | .merge => Trimmed s.collection.inner.config s.collection.inner.locations s.merged.collection.inner.locations
  | .compress kappa lambda =>
    Trimmed s.collection.inner.config s.collection.inner.locations
      (s.compressed kappa lambda).collection.inner.locations
  | c => Along (fun (b : Batch F S) x =>
      Trimmed b.inner.config b.inner.locations (b.next x).inner.locations) (fun x b => b.next x)
    c.patterns ⟨s.collection.inner.bumpVersion, s.rng, []⟩

omit [SeededUniform F] in
/-- Each write of a batch trims. -/
theorem trimmed_writes {config : EAMConfig F} : ∀ {xs : List (Pattern F)} {b : Batch F S}, b.inner.config = config →
    Built config Formed b.inner.locations b.inner.nextId →
    (∀ x ∈ xs, x.address.length = config.d ∧ x.counter.length = config.d) →
    Along (fun (b : Batch F S) x =>
      Trimmed b.inner.config b.inner.locations (b.next x).inner.locations) (fun x b => b.next x) xs b
  | [], _, _, _, _ => trivial
  | x :: xs, b, hconfig, h, hfit => by
    obtain ⟨hnext, hbuilt⟩ := h.next (preserves_formed config) hconfig (hfit x List.mem_cons_self) trivial
    refine ⟨fun hon loc hloc => ?_, trimmed_writes hnext hbuilt fun y hy => hfit y (List.mem_cons_of_mem x hy)⟩
    have hs := sameState_settle (b.inner.adapt x b.rng).inner (b.inner.adapt x b.rng).result
    have hlocations : (b.next x).inner.locations =
        (b.inner.adapt x b.rng).inner.locations ++ (b.inner.adapt x b.rng).result.newLocations := hs.locations
    exact (linked_adapt h.nodup h.fresh h.each x b.rng).within hon loc (hlocations ▸ hloc)

/-- Every call that builds trims. -/
theorem trims_of_built {s : Session F S} (h : Built s.collection.inner.config Formed s.collection.inner.locations
    s.collection.inner.nextId) {c : Call F} (hbuilds : c.Builds) (hacc : c.Accepted s)
    (hmeets : c.Meets (apartRules s.collection.inner.config) s) : c.Trims s := by
  have hstart : ∀ loc ∈ s.collection.inner.locations, Formed s.collection.inner.nextId loc ∧
      Within (s.collection.inner.config.adaptiveNeighborCap s.collection.inner.locations.length)
        s.collection.inner.locations loc := fun loc hloc => ⟨h.each loc hloc, Or.inl ⟨loc, hloc, rfl, rfl⟩⟩
  cases c with
  | merge =>
    intro hon loc hloc
    have hleft : s.merged.collection.inner.locations =
        (knnMerge s.collection.inner.locations s.collection.inner.config).2 := by
      unfold Session.merged
      dsimp only
      split_ifs <;> rfl
    rw [hleft] at hloc
    exact (EachMerge.each (P := fun loc => Formed s.collection.inner.nextId loc ∧ Within _ _ loc) hmeets
      (fun ha hb _ => ⟨(ha.1.absorb hb.1).1, Or.inr ((ha.1.absorb hb.1).2 hon)⟩) hstart loc hloc).2
  | compress kappa lambda =>
    intro hon loc hloc
    refine (EachRound.each (P := fun loc => Formed s.collection.inner.nextId loc ∧ Within _ _ loc) hmeets
      (fun ha hb hapart => ⟨ha.1.joined hb.1 hapart, Or.inr ?_⟩) hstart loc hloc).2
    exact (List.length_append).trans_le (hapart.fit hon)
  | loadSnapshotChecked snapshot config expected => exact hbuilds.elim
  | deleteDocument writeIndex => exact trivial
  | write input => exact trimmed_writes rfl h hacc
  | writeTwo address counter opts => exact trimmed_writes rfl h hacc
  | writeBatch inputs => exact trimmed_writes rfl h hacc
  | writeWithMetadata input metadata => exact trimmed_writes rfl h hacc
  | writeBatchWithMetadata items => exact trimmed_writes rfl h hacc

/-- **The neighbor graph stays well formed** where a compression joins lists
that are apart: in every state of a build from an empty collection no location
lists its own id or an id twice, and every list that a call changes is cut to
the capacity of the operation that changed it. -/
theorem graph_well_formed {s0 s : Session F S} {cs : List (Call F)} (hempty : s0.collection.inner.locations = [])
    (hrun : Run (Building (apartRules s0.collection.inner.config)) s0 cs s) :
    (∀ loc ∈ s.collection.inner.locations, loc.neighbors.Nodup ∧ loc.id ∉ loc.neighbors) ∧
      ∀ c s', Building (apartRules s0.collection.inner.config) s c s' → c.Trims s := by
  obtain ⟨hconfig, hbuilt⟩ := built_run (preserves_formed _) hempty hrun
  refine ⟨fun loc hloc => ⟨(hbuilt.each loc hloc).nodup, (hbuilt.each loc hloc).other⟩, fun c s' hstep => ?_⟩
  obtain ⟨hmeets, hsucceeds⟩ := hstep
  rw [← hconfig] at hbuilt hmeets
  exact trims_of_built hbuilt hsucceeds.1 hsucceeds.effect.1 hmeets

/-- A new collection of the plane with a neighbor graph. -/
def crossSession : Session ℚ ℚ :=
  .fresh 0 "c" { smallConfig true with d := 2, k := 3, neighborCap := 1, numLandmarks := 1 } (fun _ => 1) (.empty .f64)

/-- Two opposite pairs of unit vectors. -/
def cross : List (Call ℚ) := [.write [1, 0], .write [7 / 25, 24 / 25], .write [-1, 0], .write [-7 / 25, -24 / 25]]

/-- Four locations that link to each other. -/
theorem graph_well_formed_cross :
    (∀ loc ∈ (cross.foldl Call.effect crossSession).collection.inner.locations,
        loc.neighbors.Nodup ∧ loc.id ∉ loc.neighbors) ∧
      ∀ c s', Building (apartRules crossSession.collection.inner.config) (cross.foldl Call.effect crossSession) c s' →
        c.Trims (cross.foldl Call.effect crossSession) := by
  have hrun : Run (fun (s : Session ℚ ℚ) c s' => (c.patterns ≠ [] ∧ c.Builds ∧ (c.run ⟨s, []⟩).1.isOk = true) ∧
      Call.effect s c = s') crossSession cross (cross.foldl Call.effect crossSession) :=
    Run.of_along (by decide +kernel)
  refine graph_well_formed rfl (hrun.mono fun {s c s'} hcall => ?_)
  obtain ⟨⟨hwrites, hbuilds, hok⟩, rfl⟩ := hcall
  refine ⟨?_, hbuilds, _, step_of_isOk hok⟩
  cases c with
  | merge => exact absurd rfl hwrites
  | compress kappa lambda => exact absurd rfl hwrites
  | loadSnapshotChecked snapshot config expected => exact absurd rfl hwrites
  | deleteDocument writeIndex => exact absurd rfl hwrites
  | write input => exact Along.of_forall (fun _ _ _ => trivial) _
  | writeTwo address counter opts => exact Along.of_forall (fun _ _ _ => trivial) _
  | writeBatch inputs => exact Along.of_forall (fun _ _ _ => trivial) _
  | writeWithMetadata input metadata => exact Along.of_forall (fun _ _ _ => trivial) _
  | writeBatchWithMetadata items => exact Along.of_forall (fun _ _ _ => trivial) _

/-- The two pairs joined by a compression: the first list names its own
location, and another twice. -/
theorem graph_malformed : ¬∀ (s0 s : Session ℚ ℚ) (cs : List (Call ℚ)), s0.collection.inner.locations = [] →
    Run Succeeds s0 cs s → ∀ loc ∈ s.collection.inner.locations, loc.neighbors.Nodup ∧ loc.id ∉ loc.neighbors := by
  intro hall
  have hrun : Run Succeeds crossSession (cross ++ [Call.compress 1 0]) _ := run_of_isOk (by decide +kernel)
  have hfirst := hall crossSession _ _ rfl hrun
  have hbad : ¬∀ loc ∈ ((cross ++ [Call.compress 1 0]).foldl Call.effect crossSession).collection.inner.locations,
      loc.id ∉ loc.neighbors := by decide +kernel
  exact hbad fun loc hloc => (hfirst loc hloc).2

end HeatherDb
