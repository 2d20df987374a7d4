/-
# Posting lists move with their locations

A consolidation absorbs locations one after another, and a survivor may be
absorbed later itself. A merge moves a posting list with every absorption; a
compression moves each removed location's list once, to where its chain of
absorptions ends. Either way the lists are those of `Absorb.migrate`, over
the absorptions as they happened or over the direct ones, so the posted
documents are conserved.

This needs that location ids are distinct: a location absorbed into another
of its own id takes the list of both with it. Ids stay distinct unless a
snapshot with repeated ids is loaded (`Distinct`).

Key definitions: `Distinct`, `postings`, `Call.absorptions`.
Key theorems: `distinct_step`, `absorbed_effect`, `posting_migration_conserves`.
-/
import HeatherDb.Life
import HeatherDb.Recoverable

namespace HeatherDb

open Scalar Narrow Program Store

variable {F S : Type} [Scalar F] [Narrow F S]

/-! ### Distinct location ids -/

/-- In order, and no location id twice. -/
structure Distinct (store : Store F) (collectionId : ℕ) (inner : EAMInner F S) : Prop extends
    Recoverable store collectionId inner where
  nodup : (inner.locations.map (·.id)).Nodup

/-- A snapshot load repeats no location id. -/
def Call.LoadsDistinct : Call F → Prop
  | .loadSnapshotChecked snapshot _ _ => (snapshot.locations.map (·.id)).Nodup
  | _ => True

/-- A call that succeeds repeats no location id. -/
def HiveEvent.LoadsDistinct : HiveEvent F → Prop
  | .call _ (c, .ok _) => c.LoadsDistinct
  | _ => True

namespace Distinct

variable {store : Store F} {collectionId : ℕ} {inner : EAMInner F S}

/-- What loads has distinct ids, as they are the store's keys. -/
theorem reopened (h : Recoverable store collectionId inner) {name : String} {config : EAMConfig F}
    {col : Collection F S} (hload : Collection.load collectionId name store config = .ok col) (v : ℕ) :
    Distinct store collectionId { col.inner with version := v } where
  toRecoverable := h.reopened hload v
  nodup := nodup_ids_of_load (locations_of_load hload) fun id r hr => (h.known id r hr).1

theorem loaded (h : Recoverable store collectionId inner) {name : String} {config : EAMConfig F}
    {col : Collection F S} (hload : Collection.load collectionId name store config = .ok col) :
    Distinct store collectionId col.inner := by
  have hsame : { col.inner with version := 0 } = col.inner := by
    obtain ⟨_, _, _, _, -, -, -, -, -, rfl⟩ := load_inv hload
    rfl
  rw [← hsame]
  exact reopened h hload 0

theorem recovered {s : Session F S} (h : s.Recoverable) {v : ℕ} (hr : Recovered s v inner) :
    Distinct s.store s.collection.collectionId inner := by
  obtain ⟨loaded, hload⟩ := h.load s.collection.name
  unfold Recovered at hr
  rw [hload] at hr
  subst hr
  exact reopened h hload v

theorem failed {s s' : Session F S} (h : Distinct s.store s.collection.collectionId s.collection.inner) {v : ℕ}
    (hf : Failed v s s') : Distinct s'.store s'.collection.collectionId s'.collection.inner := by
  refine ⟨h.toRecoverable.failed hf, ?_⟩
  cases hf with
  | unchanged => exact h.nodup
  | materialized => exact h.nodup
  | recovered rng hr => exact (recovered h.toRecoverable hr).nodup
  | recoveredMaterialized rng hr => exact (recovered h.toRecoverable.materialized hr).nodup

/-- Writes add locations under fresh ids. -/
theorem nodup_written [Scalar S] {s : Session F S} (h : Distinct s.store s.collection.collectionId s.collection.inner)
    {xs : List (Pattern F)} (hfit : s.Fits xs) (n : ℕ) : ((s.written xs n).inner.locations.map (·.id)).Nodup :=
  ((Session.written_grown h.shaped hfit).ids_ok h.nodup h.fresh).1

/-- A new collection numbers its locations from 0. -/
theorem opened_new {name : String} {config : EAMConfig F} {rng : Rng F}
    (hlocations : ∀ id, store.locationAt? collectionId id = none)
    (hdoc : ∃ n, store.loadU64 collectionId "doc_next_id" 0 = .ok n) :
    Distinct (Session.fresh (S := S) collectionId name config rng store).store collectionId
      (Session.fresh (S := S) collectionId name config rng store).collection.inner where
  toRecoverable := recoverable_fresh name config rng hlocations hdoc
  nodup := by
    show ((randomLocations config rng).1.map (·.id)).Nodup
    rw [(randomLocations_ok config rng).1]
    exact List.nodup_range

/-- A collection without records. -/
theorem untouched (config : EAMConfig F) (h : store.Untouched collectionId) :
    Distinct store collectionId (.opened config [] 0 config.eta0 0 : EAMInner F S) where
  toRecoverable := recoverable_untouched config h
  nodup := List.nodup_nil

end Distinct

/-! ### Moving lists -/

/-- The documents filed under each location. -/
def postings (collectionId : ℕ) (t : OrderedTable (Scoped ℕ ℕ) (List ℕ)) (k : ℕ) : List ℕ :=
  (t.get ⟨collectionId, k⟩).getD []

section Move

variable {collectionId : ℕ} {t : OrderedTable (Scoped ℕ ℕ) (List ℕ)} {e : ℕ × ℕ} {m : List (ℕ × ℕ)} {k : ℕ}

/-- The location whose list moved away has none. -/
theorem get_moveList_removed : (moveList collectionId t e).get ⟨collectionId, e.1⟩ = none := by
  unfold moveList
  exact OrderedTable.get_delete_self _ _

/-- Other lists stay. -/
theorem get_moveList_of_ne (h1 : k ≠ e.1) (h2 : k ≠ e.2) :
    (moveList collectionId t e).get ⟨collectionId, k⟩ = t.get ⟨collectionId, k⟩ := by
  unfold moveList
  dsimp only
  rw [OrderedTable.get_delete_of_ne _ (by simpa using h1)]
  split_ifs
  · rfl
  · exact OrderedTable.get_put_of_ne _ _ (by simpa using h2)

/-- Moving a list is one absorption. -/
theorem postings_moveList :
    postings collectionId (moveList collectionId t e) = Absorb.move (postings collectionId t) e := by
  funext k
  unfold Absorb.move
  by_cases h1 : k = e.1
  · subst h1
    rw [Function.update_self, postings, get_moveList_removed]
    rfl
  rw [Function.update_of_ne h1]
  by_cases h2 : k = e.2
  · subst h2
    rw [Function.update_self, postings, moveList, OrderedTable.get_delete_of_ne _ (by simpa using h1)]
    split_ifs with hnone
    · rw [postings, postings, hnone, List.append_nil]
    · rw [OrderedTable.get_put_self]
      rfl
  · rw [Function.update_of_ne h2, postings, get_moveList_of_ne h1 h2, postings]

/-- Lists moved one after another are the absorptions in order. -/
theorem postings_moveLists : ∀ {m : List (ℕ × ℕ)} (t : OrderedTable (Scoped ℕ ℕ) (List ℕ)), Absorb.Lawful m →
    postings collectionId (m.foldl (moveList collectionId) t) = Absorb.migrate m (postings collectionId t)
  | [], _, _ => rfl
  | e :: m, t, h => by
    rw [List.foldl_cons, postings_moveLists _ h.tail, postings_moveList]
    rfl

/-- A location that no absorption names keeps its list. -/
theorem get_moveLists_of_notMem : ∀ {m : List (ℕ × ℕ)} (t : OrderedTable (Scoped ℕ ℕ) (List ℕ)),
    (∀ e ∈ m, e.1 ≠ k ∧ e.2 ≠ k) →
      (m.foldl (moveList collectionId) t).get ⟨collectionId, k⟩ = t.get ⟨collectionId, k⟩
  | [], _, _ => rfl
  | e :: m, t, h => by
    obtain ⟨h1, h2⟩ := h e List.mem_cons_self
    rw [List.foldl_cons, get_moveLists_of_notMem _ fun e' he' => h e' (List.mem_cons_of_mem _ he')]
    exact get_moveList_of_ne h1.symm h2.symm

/-- A removed location has no list in the end. -/
theorem get_moveLists_removed : ∀ {m : List (ℕ × ℕ)} (t : OrderedTable (Scoped ℕ ℕ) (List ℕ)), Absorb.Lawful m →
    k ∈ m.map (·.1) → (m.foldl (moveList collectionId) t).get ⟨collectionId, k⟩ = none
  | [], _, _, hk => by simp at hk
  | e :: m, t, h, hk => by
    rw [List.foldl_cons]
    by_cases hm : k ∈ m.map (·.1)
    · exact get_moveLists_removed _ h.tail hm
    · have hke : k = e.1 := by simpa [hm] using hk
      subst hke
      -- no later absorption names it
      rw [get_moveLists_of_notMem _ fun e' he' => ⟨fun hc => hm (List.mem_map.mpr ⟨e', he', hc⟩),
        h.head_notMem.2 e' he'⟩]
      exact get_moveList_removed

/-- A compression moves each list straight to its end. -/
theorem absorbLists_eq (h : Absorb.Lawful m) (t : OrderedTable (Scoped ℕ ℕ) (List ℕ)) :
    (m.map (·.1)).foldl (absorbList collectionId m) t = (Absorb.direct m).foldl (moveList collectionId) t := by
  rw [Absorb.direct, List.foldl_map, List.foldl_map]
  congr 1
  funext t e
  rw [absorbList, Absorb.resolve_eq_final h (Nat.lt_succ_self _)]

end Move

/-! ### Absorbed locations -/

/-- The absorptions `m` took `s` to `s'`: their locations are gone, and the
posting lists moved along `m` or straight to where it ends. -/
structure Absorbed (m : List (ℕ × ℕ)) (s s' : Session F S) : Prop where
  lawful : Absorb.Lawful m
  known : ∀ e ∈ m, e.1 ∈ s.collection.inner.locations.map (·.id) ∧ e.2 ∈ s.collection.inner.locations.map (·.id)
  ids : s'.collection.inner.locations.map (·.id) =
    (s.collection.inner.locations.map (·.id)).filter fun k => k ∉ m.map (·.1)
  docIndex : s'.store.docIndex = m.foldl (moveList s.collection.collectionId) s.store.docIndex ∨
    s'.store.docIndex = (Absorb.direct m).foldl (moveList s.collection.collectionId) s.store.docIndex

omit [Scalar F] [Narrow F S] in
/-- The lists of the locations that stay. -/
theorem Absorbed.survivor {m : List (ℕ × ℕ)} {s s' : Session F S} (h : Absorbed m s s') {k : ℕ}
    (hk : k ∉ m.map (·.1)) :
    (postings s.collection.collectionId s'.store.docIndex k).Perm
      (postings s.collection.collectionId s.store.docIndex k ++
        ((m.map (·.1)).filter fun r => Absorb.final m r = k).flatMap
          (postings s.collection.collectionId s.store.docIndex)) := by
  rcases h.docIndex with hm | hm
  · rw [hm, postings_moveLists _ h.lawful]
    exact Absorb.migrate_survivor h.lawful _ hk
  · have hdirect := Absorb.direct_lawful h.lawful
    have hsame : (Absorb.direct m).map (·.1) = m.map (·.1) := Absorb.direct_removed m
    have hmoved := Absorb.migrate_survivor hdirect (postings s.collection.collectionId s.store.docIndex)
      (hsame ▸ hk : k ∉ (Absorb.direct m).map (·.1))
    simp only [hsame, Absorb.final_direct h.lawful] at hmoved
    rw [hm, postings_moveLists _ hdirect]
    exact hmoved

omit [Scalar F] [Narrow F S] in
/-- Where a removed location's documents end is a location that stays. -/
theorem Absorbed.final_mem {m : List (ℕ × ℕ)} {s s' : Session F S} (h : Absorbed m s s') {r : ℕ}
    (hr : r ∈ m.map (·.1)) : Absorb.final m r ∈ s'.collection.inner.locations.map (·.id) := by
  obtain ⟨e, he, hend⟩ := Absorb.final_survivor h.lawful hr
  rw [h.ids, List.mem_filter]
  refine ⟨?_, by simpa using Absorb.final_notMem h.lawful r⟩
  rw [hend]
  exact (h.known e he).2

omit [Scalar F] [Narrow F S] in
/-- A location's documents are where its absorptions end, itself if it stays. -/
theorem Absorbed.subset_final {m : List (ℕ × ℕ)} {s s' : Session F S} (h : Absorbed m s s') (k : ℕ) :
    postings s.collection.collectionId s.store.docIndex k ⊆
      postings s.collection.collectionId s'.store.docIndex (Absorb.final m k) := by
  have hlist := h.survivor (Absorb.final_notMem h.lawful k)
  intro d hd
  refine hlist.mem_iff.mpr (List.mem_append.mpr ?_)
  by_cases hk : k ∈ m.map (·.1)
  · exact Or.inr (List.mem_flatMap.mpr ⟨k, List.mem_filter.mpr ⟨hk, by simp⟩, hd⟩)
  · rw [Absorb.final_of_notMem hk]
    exact Or.inl hd

omit [Scalar F] [Narrow F S] in
/-- Other lists are the ones there were, and those of removed locations gone. -/
theorem Absorbed.get {m : List (ℕ × ℕ)} {s s' : Session F S} (h : Absorbed m s s') (k : ℕ) :
    ((∀ e ∈ m, e.1 ≠ k ∧ e.2 ≠ k) → s'.store.docIndex.get ⟨s.collection.collectionId, k⟩ =
      s.store.docIndex.get ⟨s.collection.collectionId, k⟩) ∧
      (k ∈ m.map (·.1) → s'.store.docIndex.get ⟨s.collection.collectionId, k⟩ = none) := by
  rcases h.docIndex with hm | hm
  · rw [hm]
    exact ⟨get_moveLists_of_notMem _, get_moveLists_removed _ h.lawful⟩
  · rw [hm]
    refine ⟨fun hk => get_moveLists_of_notMem _ ?_, fun hk => ?_⟩
    · exact Absorb.direct_forall h.lawful (P := (· ≠ k)) hk
    · refine get_moveLists_removed _ (Absorb.direct_lawful h.lawful) ?_
      rwa [Absorb.direct_removed]

omit [Scalar F] [Narrow F S] in
/-- **Nothing is lost and nothing comes twice.** -/
theorem Absorbed.conserves {m : List (ℕ × ℕ)} {s s' : Session F S} (h : Absorbed m s s')
    (hnodup : (s.collection.inner.locations.map (·.id)).Nodup) :
    ((s'.collection.inner.locations.map (·.id)).flatMap (postings s.collection.collectionId s'.store.docIndex)).Perm
      ((s.collection.inner.locations.map (·.id)).flatMap
        (postings s.collection.collectionId s.store.docIndex)) := by
  set ids := s.collection.inner.locations.map (·.id)
  -- the removed locations' lists are empty now
  have hempty : ∀ k ∈ m.map (·.1), postings s.collection.collectionId s'.store.docIndex k = [] := fun k hk => by
    rw [postings, (h.get k).2 hk]
    rfl
  have hall : (s'.collection.inner.locations.map (·.id)).flatMap
      (postings s.collection.collectionId s'.store.docIndex) =
      ids.flatMap (postings s.collection.collectionId s'.store.docIndex) := by
    rw [h.ids]
    exact Absorb.flatMap_filter (fun k hk => hempty k (by simpa using hk)) ids
  rw [hall]
  rcases h.docIndex with hm | hm
  · rw [hm, postings_moveLists _ h.lawful]
    exact Absorb.flatMap_migrate_perm h.lawful _ hnodup h.known
  · rw [hm, postings_moveLists _ (Absorb.direct_lawful h.lawful)]
    exact Absorb.flatMap_migrate_perm (Absorb.direct_lawful h.lawful) _ hnodup
      (Absorb.direct_forall h.lawful (P := (· ∈ ids)) h.known)

variable [SeededUniform F]

/-! ### Consolidations -/

namespace Call

/-- A merge or a compression. -/
def Absorbs : Call F → Prop
  | .merge | .compress .. => True
  | _ => False

/-- The absorptions of a consolidation as they happen. -/
def absorptions (s : Session F S) : Call F → List (ℕ × ℕ)
  | .merge => (knnMerge s.collection.inner.locations s.collection.inner.config).1.mergeMap
  | .compress kappa lambda => (s.compression kappa lambda).2
  | _ => []

end Call

variable [Scalar S]

/-- **A consolidation absorbs** the locations it removes. -/
theorem absorbed_effect {s : Session F S} (h : Distinct s.store s.collection.collectionId s.collection.inner)
    {c : Call F} (hc : c.Absorbs) : Absorbed (c.absorptions s) s (c.effect s) := by
  have hstore : s.materialized.store = _ := materialize_eq _ _ _
  have hlists : s.materialized.store.docIndex = s.store.docIndex := (congrArg Store.docIndex hstore :)
  cases c with
  | merge =>
    obtain ⟨hcons, hremoved⟩ := knnMerge_consolidated s.collection.inner.locations s.collection.inner.config
    refine ⟨hcons.lawful h.nodup, hcons.known, Eq.trans ?_ (hcons.ids h.nodup), Or.inl ?_⟩
    · show s.merged.collection.inner.locations.map _ = _
      unfold Session.merged
      dsimp only
      split_ifs <;> rfl
    · show s.merged.store.docIndex = List.foldl _ _ (knnMerge _ _).1.mergeMap
      unfold Session.merged
      dsimp only
      split_ifs with hr
      · rw [hremoved, List.map_eq_nil_iff] at hr
        rw [hr]
        exact hlists
      · rw [← hlists]
        exact congrArg Store.docIndex (mergedInto_eq _ _ _)
  | compress kappa lambda =>
    have hcons := compression_consolidated s kappa lambda
    refine ⟨hcons.lawful h.nodup, hcons.known, Eq.trans ?_ (hcons.ids h.nodup), Or.inr ?_⟩
    · show (s.compressed kappa lambda).collection.inner.locations.map _ = _
      unfold Session.compressed
      dsimp only
      split_ifs with hr
      · rw [hcons.ids h.nodup, hr]
        exact (List.filter_eq_self.mpr (by simp)).symm
      · rfl
    · show (s.compressed kappa lambda).store.docIndex = List.foldl _ _ (Absorb.direct (s.compression kappa lambda).2)
      unfold Session.compressed
      dsimp only
      split_ifs with hr
      · rw [hr]
        exact hlists
      · rw [← hlists, ← absorbLists_eq (hcons.lawful h.nodup)]
        exact congrArg Store.docIndex (compressedInto_eq _ _ _ _)
  | _ => exact absurd hc id

/-! ### Ids stay distinct -/

/-- A call's whole effect keeps ids distinct, but for the load of a snapshot
that repeats one. -/
theorem distinct_effect {s : Session F S} (h : Distinct s.store s.collection.collectionId s.collection.inner)
    {c : Call F} (hacc : c.Accepted s) (hload : c.LoadsDistinct) :
    Distinct (c.effect s).store s.collection.collectionId (c.effect s).collection.inner := by
  have hr : Recoverable (c.effect s).store (c.effect s).collection.collectionId (c.effect s).collection.inner :=
    recoverable_effect h.toRecoverable hacc
  rw [(effect_within s c).collectionId] at hr
  refine ⟨hr, ?_⟩
  cases c with
  | write input => exact h.nodup_written hacc 0
  | writeTwo address counter opts => exact h.nodup_written hacc 0
  | writeBatch inputs => exact h.nodup_written hacc 0
  | writeWithMetadata input metadata => exact h.nodup_written hacc 1
  | writeBatchWithMetadata items =>
    by_cases hemp : items = []
    · rw [Call.effect, if_pos hemp]
      exact h.nodup
    · rw [Call.effect, if_neg hemp]
      exact h.nodup_written hacc _
  | merge =>
    rw [(absorbed_effect h (c := .merge) trivial).ids]
    exact h.nodup.filter _
  | compress kappa lambda =>
    rw [(absorbed_effect h (c := .compress kappa lambda) trivial).ids]
    exact h.nodup.filter _
  | loadSnapshotChecked snapshot config expected => exact hload
  | deleteDocument writeIndex => exact h.nodup

/-- **Every call keeps ids distinct**, also when it fails. -/
theorem distinct_step {s s' : Session F S} (h : Distinct s.store s.collection.collectionId s.collection.inner)
    {e : Event F} (hload : HiveEvent.LoadsDistinct (.call 0 e)) (hstep : Step s e s') :
    Distinct s'.store s.collection.collectionId s'.collection.inner := by
  obtain ⟨c, r⟩ := e
  rcases step_cases hstep with ⟨e, -, hf⟩ | ⟨hacc, rfl, rfl⟩
  · have hfailed := h.failed hf
    rwa [hf.within.collectionId] at hfailed
  · exact distinct_effect h hacc hload

/-- A step of a life that loads no snapshot with repeated ids. -/
def DistinctLife (name : String) (hive : Hive F S) (e : HiveEvent F) (hive' : Hive F S) : Prop :=
  Life name hive e hive' ∧ e.LoadsDistinct

/-- The name's collection is in order with distinct ids. -/
structure Hive.Distinct (hive : Hive F S) (name : String) (collectionId : ℕ) : Prop where
  registered : hive.store.registry.get name = some collectionId
  memory : ∃ inner : EAMInner F S, HeatherDb.Distinct hive.store collectionId inner ∧
    hive.Holds name collectionId inner

/-- What a step of a life leaves. -/
theorem Distinct.lived {name : String} {collectionId : ℕ} {hive hive' : Hive F S} {inner inner' : EAMInner F S}
    (hd : HeatherDb.Distinct hive.store collectionId inner) {e : HiveEvent F} (hload : e.LoadsDistinct)
    (hlived : Lived hive name collectionId inner e hive' inner') :
    HeatherDb.Distinct hive'.store collectionId inner' := by
  cases hlived with
  | idle p he hstore =>
    rw [hstore]
    exact ⟨hd.toRecoverable.of_store rfl rfl, hd.nodup⟩
  | loaded he hstore hload =>
    rw [hstore]
    exact Distinct.loaded hd.toRecoverable hload
  | new he hcache hempty hstore =>
    rw [hstore]
    exact Distinct.opened_new (locationAt?_of_loadAll hempty) hd.docNextId
  | called hs hstore hid hinner hstep hstore' =>
    subst hid hinner
    rw [← hstore] at hd
    rw [hstore']
    exact distinct_step hd hload hstep

/-- **A life keeps ids distinct.** -/
theorem distinctLife_step {name : String} {collectionId : ℕ} {hive hive' : Hive F S}
    (h : hive.Distinct name collectionId) {e : HiveEvent F} (hstep : DistinctLife name hive e hive') :
    hive'.Distinct name collectionId := by
  obtain ⟨hlife, hload⟩ := hstep
  obtain ⟨inner, hd, hholds⟩ := h.memory
  obtain ⟨inner', hreg, hholds', hlived⟩ := life_cases h.registered hholds hlife
  exact ⟨hreg, inner', hd.lived hload hlived, hholds'⟩

/-- Every state a life with distinct snapshots reaches. -/
theorem distinct_of_run {name : String} {collectionId : ℕ} {hive hive' : Hive F S} (hnone : hive.handles = [])
    (hcache : hive.collections.get name = none) (hreg : hive.store.registry.get name = some collectionId)
    (hnew : hive.store.Untouched collectionId) {es : List (HiveEvent F)}
    (hrun : Run (DistinctLife name) hive es hive') : hive'.Distinct name collectionId :=
  hrun.invariant (P := fun hive => hive.Distinct name collectionId)
    ⟨hreg, _, .untouched hive.config hnew, .closed hnone hcache⟩ fun h hstep => distinctLife_step h hstep

/-! ### Posting lists are conserved -/

/-- **Posting migration conserves documents**: in every state that a life of a
collection with distinct snapshots reaches, a merge or a compression that
succeeds leaves the posted documents as they were, the removed locations'
where their absorptions end. -/
theorem posting_migration_conserves {name : String} {collectionId : ℕ} {hive hive' : Hive F S}
    (hnone : hive.handles = []) (hcache : hive.collections.get name = none)
    (hreg : hive.store.registry.get name = some collectionId) (hnew : hive.store.Untouched collectionId)
    {es : List (HiveEvent F)} (hrun : Run (DistinctLife name) hive es hive') {h : ℕ} {s s' : Session F S}
    (hs : hive'.session h = some s) {c : Call F} {r : Reply F} (hc : c.Absorbs) (hstep : Step s (c, .ok r) s') :
    let m := c.absorptions s
    let ids := s.collection.inner.locations.map (·.id)
    let ids' := s'.collection.inner.locations.map (·.id)
    let before := postings collectionId s.store.docIndex
    let after := postings collectionId s'.store.docIndex
    ids' = ids.filter (fun k => k ∉ m.map (·.1)) ∧
      (ids'.flatMap after).Perm (ids.flatMap before) ∧
      (∀ k ∈ m.map (·.1), Absorb.final m k ∈ ids' ∧ before k ⊆ after (Absorb.final m k)) ∧
      (∀ k ∈ ids', (after k).Perm (before k ++ ((m.map (·.1)).filter fun r => Absorb.final m r = k).flatMap before)) ∧
      (∀ k, (∀ e ∈ m, e.1 ≠ k ∧ e.2 ≠ k) →
        s'.store.docIndex.get ⟨collectionId, k⟩ = s.store.docIndex.get ⟨collectionId, k⟩) ∧
      ∀ k ∈ m.map (·.1), s'.store.docIndex.get ⟨collectionId, k⟩ = none := by
  intro m ids ids' before after
  obtain ⟨inner, hd, hholds⟩ := (distinct_of_run hnone hcache hreg hnew hrun).memory
  obtain ⟨-, -, -, hstore, rfl, rfl⟩ := hholds.session hs
  rw [← hstore] at hd
  have habsorbed : Absorbed m s s' := by
    rcases step_cases hstep with ⟨e, herror, -⟩ | ⟨-, -, rfl⟩
    · simp at herror
    · exact absorbed_effect hd hc
  refine ⟨habsorbed.ids, habsorbed.conserves hd.nodup,
    fun k hk => ⟨habsorbed.final_mem hk, habsorbed.subset_final k⟩, fun k hk => ?_,
    fun k => (habsorbed.get k).1, fun k => (habsorbed.get k).2⟩
  rw [show ids' = _ from habsorbed.ids, List.mem_filter] at hk
  exact habsorbed.survivor (by simpa using hk.2)

/-- Three documents at one place: location 1 is absorbed by 0, and 0 by 2. -/
def threePosted : Hive ℚ ℚ :=
  ((smallHive.created.calling (.writeWithMetadata [1] [7])).calling (.writeWithMetadata [1] [8])).calling
    (.writeWithMetadata [1] [9])

theorem posting_migration_conserves_chain : ∃ s s' : Session ℚ ℚ, threePosted.session 0 = some s ∧
    (Call.merge (F := ℚ)).absorptions s = [(1, 0), (0, 2)] ∧ s' = Call.merge.effect s ∧
    ∀ k ∈ s'.collection.inner.locations.map (·.id), (postings 0 s'.store.docIndex k).Perm
      (postings 0 s.store.docIndex k ++ (([(1, 0), (0, 2)].map (·.1)).filter fun r =>
        Absorb.final [(1, 0), (0, 2)] r = k).flatMap (postings 0 s.store.docIndex)) := by
  let one := smallHive.created.calling (.writeWithMetadata [1] [7])
  let two := one.calling (.writeWithMetadata [1] [8])
  have hcreate : DistinctLife "c" smallHive (.create "c" (.ok 0)) smallHive.created :=
    ⟨smallHive.life_create (by decide +kernel), trivial⟩
  have hfirst : DistinctLife "c" smallHive.created (smallHive.created.answer (.writeWithMetadata [1] [7])) one :=
    ⟨smallHive.created.life_call _ (by decide +kernel), trivial⟩
  have hsecond : DistinctLife "c" one (one.answer (.writeWithMetadata [1] [8])) two :=
    ⟨one.life_call _ (by decide +kernel), trivial⟩
  have hthird : DistinctLife "c" two (two.answer (.writeWithMetadata [1] [9])) threePosted :=
    ⟨two.life_call _ (by decide +kernel), trivial⟩
  have hrun := (((Run.single hcreate).snoc hfirst).snoc hsecond).snoc hthird
  obtain ⟨s, hs⟩ : ∃ s, threePosted.session 0 = some s := Option.isSome_iff_exists.mp (by decide +kernel)
  have hall : (threePosted.session 0).all fun s => (Call.merge.run ⟨s, []⟩).1.isOk &&
      decide ((Call.merge (F := ℚ)).absorptions s = [(1, 0), (0, 2)]) := by decide +kernel
  rw [hs, Option.all_some, Bool.and_eq_true, decide_eq_true_iff] at hall
  have hlists := (posting_migration_conserves rfl rfl rfl smallHive_untouched hrun hs (c := .merge) trivial
    (step_of_isOk hall.1)).2.2.2.1
  rw [hall.2] at hlists
  exact ⟨s, _, hs, hall.2, rfl, hlists⟩

/-- Two locations of one id, at one place. -/
def twins : Snapshot ℚ where
  locations := [.new 0 [1], .new 0 [1]]
  lengths := by simp [HardLocation.new]

/-- A snapshot with two locations of one id: their merge loses their list. -/
theorem posting_migration_loses : ∃ es hive r hive', Run (Life "c") smallHive es hive ∧
    Life "c" hive (.call 0 (.merge, .ok r)) hive' ∧ hive.store.docIdsForLocation 0 0 = [0] ∧
    hive'.store.docIndex.entries = [] := by
  let written := smallHive.created.calling (.writeWithMetadata [1] [7])
  let loaded := written.calling (.loadSnapshotChecked twins (smallConfig false) none)
  have hcreate := smallHive.life_create (h := 0) (by decide +kernel)
  have hwrite := smallHive.created.life_call (.writeWithMetadata [1] [7]) (by decide +kernel)
  have hload := written.life_call (.loadSnapshotChecked twins (smallConfig false) none) (by decide +kernel)
  have hmerge := loaded.life_call .merge (by decide +kernel)
  obtain ⟨s, hs⟩ : ∃ s, loaded.session 0 = some s := Option.isSome_iff_exists.mp (by decide +kernel)
  have hanswer : loaded.answer .merge = .call 0 (.merge, .ok (Call.merge.reply s)) := by
    rw [Hive.answer, hs]
  rw [hanswer] at hmerge
  exact ⟨_, loaded, _, loaded.calling .merge, ((Run.single hcreate).snoc hwrite).snoc hload, hmerge,
    by decide +kernel, by decide +kernel⟩

end HeatherDb
