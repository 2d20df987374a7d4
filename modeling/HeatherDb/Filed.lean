/-
# Every document is filed under a location

Documents, posting lists and locations are three tables that only the calls
keep together: every stored document is in the list of a location, every list
is a location's, and every posted id is a stored document's (`Posted`).

A write files its documents under the locations it touched, a consolidation
moves the lists of the locations it removes, a deletion drops the document
from every list. A snapshot load replaces the locations and no list, so it
keeps this only if it keeps every location that has a list
(`HiveEvent.KeepsLists`).

Key definitions: `Posted`, `Filed`, `FiledLife`.
Key theorems: `filed_effect`, `filedLife_step`, `posting_lists_whole`.
-/
import HeatherDb.Postings

namespace HeatherDb

open Scalar Narrow Program Store

variable {F S : Type}

/-! ### Lists appended to and dropped from -/

section Lists

variable {collectionId : ℕ} {k d : ℕ}

/-- What is filed after documents were appended to lists. -/
theorem mem_postings_postTo : ∀ {es : List (ℕ × List ℕ)} {t : OrderedTable (Scoped ℕ ℕ) (List ℕ)},
    d ∈ postings collectionId (es.foldl (postTo collectionId) t) k ↔
      d ∈ postings collectionId t k ∨ ∃ e ∈ es, e.1 = k ∧ d ∈ e.2
  | [], _ => by simp
  | e :: es, t => by
    have hone : d ∈ postings collectionId (postTo collectionId t e) k ↔
        d ∈ postings collectionId t k ∨ e.1 = k ∧ d ∈ e.2 := by
      unfold postings postTo
      by_cases hnone : e.2 = []
      · rw [if_pos hnone, hnone]
        simp
      · rw [if_neg hnone]
        by_cases hk : e.1 = k
        · subst hk
          rw [OrderedTable.get_put_self, Option.getD_some, List.mem_append]
          simp
        · rw [OrderedTable.get_put_of_ne _ _ (by simpa using Ne.symm hk)]
          simp [hk]
    rw [List.foldl_cons, mem_postings_postTo, hone]
    simp [or_assoc]

/-- Appending makes lists only where it appends. -/
theorem isSome_postTo : ∀ {es : List (ℕ × List ℕ)} {t : OrderedTable (Scoped ℕ ℕ) (List ℕ)},
    ((es.foldl (postTo collectionId) t).get ⟨collectionId, k⟩).isSome →
      (t.get ⟨collectionId, k⟩).isSome ∨ ∃ e ∈ es, e.1 = k
  | [], _, h => Or.inl h
  | e :: es, t, h => by
    have hrest : ((es.foldl (postTo collectionId) (postTo collectionId t e)).get ⟨collectionId, k⟩).isSome := h
    rcases isSome_postTo hrest with h | ⟨e', he', hk⟩
    · by_cases hk : e.1 = k
      · exact Or.inr ⟨e, List.mem_cons_self, hk⟩
      · unfold postTo at h
        split_ifs at h
        · exact Or.inl h
        · rw [OrderedTable.get_put_of_ne _ _ (by simpa using Ne.symm hk)] at h
          exact Or.inl h
    · exact Or.inr ⟨e', List.mem_cons_of_mem _ he', hk⟩

/-- A document dropped from the lists it was found in, of the whole table or
of what is left of it. -/
theorem get_dropList {w : ℕ} : ∀ {es : List (ℕ × List ℕ)} {t : OrderedTable (Scoped ℕ ℕ) (List ℕ)},
    (es.map (·.1)).Nodup → (∀ e ∈ es, t.get ⟨collectionId, e.1⟩ = some e.2) →
      (postings collectionId (es.foldl (dropList collectionId w) t) k =
        if k ∈ es.map (·.1) then (postings collectionId t k).filter (· ≠ w) else postings collectionId t k) ∧
      (((es.foldl (dropList collectionId w) t).get ⟨collectionId, k⟩).isSome → (t.get ⟨collectionId, k⟩).isSome)
  | [], _, _, _ => ⟨by simp, id⟩
  | e :: es, t, hn, hget => by
    obtain ⟨hnot, hn⟩ := List.nodup_cons.mp hn
    have he := hget e List.mem_cons_self
    have hother : ∀ j, j ≠ e.1 → (dropList collectionId w t e).get ⟨collectionId, j⟩ = t.get ⟨collectionId, j⟩ := by
      intro j hj
      unfold dropList
      dsimp only
      split_ifs
      · exact OrderedTable.get_delete_of_ne _ (by simpa using hj)
      · exact OrderedTable.get_put_of_ne _ _ (by simpa using hj)
    have hself : postings collectionId (dropList collectionId w t e) e.1 = e.2.filter (· ≠ w) := by
      unfold postings dropList
      dsimp only
      split_ifs with hnone
      · rw [OrderedTable.get_delete_self, hnone]
        rfl
      · rw [OrderedTable.get_put_self]
        rfl
    obtain ⟨hlist, hsome⟩ := get_dropList (w := w) (t := dropList collectionId w t e) hn fun e' he' => by
      rw [hother e'.1 fun hc => hnot (List.mem_map.mpr ⟨e', he', hc⟩)]
      exact hget e' (List.mem_cons_of_mem _ he')
    rw [List.foldl_cons, hlist, List.map_cons]
    by_cases hk : k = e.1
    · subst hk
      refine ⟨?_, fun _ => by rw [he]; rfl⟩
      rw [if_neg hnot, if_pos List.mem_cons_self, hself, postings, he]
      rfl
    · have hin : k ∈ e.1 :: es.map (·.1) ↔ k ∈ es.map (·.1) := by simp [hk]
      rw [hother k hk] at hsome
      refine ⟨?_, hsome⟩
      simp only [hin, postings, hother k hk]

/-- The lists after a document was dropped from every one that has it. -/
theorem postings_dropped (t : OrderedTable (Scoped ℕ ℕ) (List ℕ)) (w k : ℕ) :
    let left := ((t.under collectionId).entries.filter fun e => w ∈ e.2).foldl (dropList collectionId w) t
    postings collectionId left k = (postings collectionId t k).filter (· ≠ w) ∧
      ((left.get ⟨collectionId, k⟩).isSome → (t.get ⟨collectionId, k⟩).isSome) := by
  intro left
  have hget : ∀ e ∈ (t.under collectionId).entries.filter (fun e => w ∈ e.2),
      t.get ⟨collectionId, e.1⟩ = some e.2 := fun e he => by
    rw [← OrderedTable.get_under]
    exact OrderedTable.get_eq_some_iff.mpr (List.mem_filter.mp he).1
  have hkeys : (((t.under collectionId).entries.filter fun e => w ∈ e.2).map (·.1)).Nodup :=
    (t.under collectionId).keys_nodup.sublist (List.filter_sublist.map _)
  obtain ⟨hlist, hsome⟩ := get_dropList (k := k) (w := w) hkeys hget
  refine ⟨?_, hsome⟩
  rw [hlist]
  split_ifs with hin
  · rfl
  · -- a list not rewritten does not have the document
    refine (List.filter_eq_self.mpr fun d hd => ?_).symm
    rw [decide_eq_true_iff]
    rintro rfl
    cases hl : t.get ⟨collectionId, k⟩ with
    | none => simp [postings, hl] at hd
    | some l =>
      rw [postings, hl, Option.getD_some] at hd
      rw [← OrderedTable.get_under, OrderedTable.get_eq_some_iff] at hl
      exact hin (List.mem_map.mpr ⟨(k, l), List.mem_filter.mpr ⟨hl, by simpa using hd⟩, rfl⟩)

/-- What is filed is in a list. -/
theorem isSome_of_mem_postings {t : OrderedTable (Scoped ℕ ℕ) (List ℕ)} (hd : d ∈ postings collectionId t k) :
    (t.get ⟨collectionId, k⟩).isSome := by
  cases hget : t.get ⟨collectionId, k⟩ with
  | none => simp [postings, hget] at hd
  | some l => rfl

end Lists

/-! ### Documents and lists -/

/-- Every stored document is filed under one of `ids`, every list is one of
theirs, and every posted id is a stored document's. -/
structure Posted (ids : List ℕ) (collectionId : ℕ) (store : Store F) : Prop where
  covered : ∀ d, (store.getDocument collectionId d).isSome →
    ∃ k ∈ ids, d ∈ postings collectionId store.docIndex k
  keyed : ∀ k, (store.docIndex.get ⟨collectionId, k⟩).isSome → k ∈ ids
  documented : ∀ k d, d ∈ postings collectionId store.docIndex k → (store.getDocument collectionId d).isSome

namespace Posted

variable {ids ids' : List ℕ} {collectionId : ℕ} {store store' : Store F}

/-- Where nothing is filed yet. -/
theorem of_untouched (h : store.Untouched collectionId) : Posted ids collectionId store where
  covered d hd := by simp [h.documents] at hd
  keyed k hk := by simp [h.postings] at hk
  documented k d hd := by simp [postings, h.postings] at hd

/-- The same documents and lists, under ids that have every list. -/
theorem of_store (h : Posted ids collectionId store)
    (hd : ∀ d, (store'.getDocument collectionId d).isSome ↔ (store.getDocument collectionId d).isSome)
    (hl : store'.docIndex = store.docIndex)
    (hids : ∀ k, (store.docIndex.get ⟨collectionId, k⟩).isSome → k ∈ ids') : Posted ids' collectionId store' where
  covered d hmem := by
    obtain ⟨k, -, hk⟩ := h.covered d ((hd d).mp hmem)
    exact ⟨k, hids k (isSome_of_mem_postings hk), hl ▸ hk⟩
  keyed k hk := hids k (hl ▸ hk)
  documented k d hmem := (hd d).mpr (h.documented k d (hl ▸ hmem))

end Posted

/-! ### The postings of a batch -/

variable [Scalar F]

/-- Each write of a batch touched a location, and only locations there are in
the end. -/
def Batch.Touches (b : Batch F S) : Prop :=
  ∀ a ∈ b.writes, activatedIds a.inner a.result ≠ [] ∧
    ∀ k ∈ activatedIds a.inner a.result, k ∈ b.inner.locations.map (·.id)

theorem touches_batch [Scalar S] [Narrow F S] (inner : EAMInner F S) (hd : Shaped inner.config.d inner.locations)
    {xs : List (Pattern F)} (hx : ∀ x ∈ xs, x.address.length = inner.config.d ∧ x.counter.length = inner.config.d)
    (rng : Rng F) :
    (inner.batch xs rng).Touches := by
  induction xs using List.reverseRecOn with
  | nil => simp [EAMInner.batch, Batch.Touches]
  | append_singleton xs x ih =>
    have hxs : ∀ x ∈ xs, x.address.length = inner.config.d ∧ x.counter.length = inner.config.d := fun y hy =>
      hx y (List.mem_append_left _ hy)
    have hg := batch_grown inner hd hxs rng
    rw [batch_snoc]
    generalize inner.batch xs rng = b at ih hg
    have ih := ih hxs
    have hw := adapt_frame b.inner (hg.config ▸ hg.shaped) (hg.config ▸ hx x (by simp)) b.rng
    have hlocs : (b.next x).inner.locations =
        (b.inner.adapt x b.rng).inner.locations ++ (b.inner.adapt x b.rng).result.newLocations :=
      (sameState_settle (b.inner.adapt x b.rng).inner (b.inner.adapt x b.rng).result).locations
    have hids : (b.next x).inner.locations.map (·.id) =
        b.inner.locations.map (·.id) ++ (b.inner.adapt x b.rng).result.newLocations.map (·.id) := by
      rw [hlocs, List.map_append]
      exact congrArg (· ++ _) hw.edited.ids
    intro a ha
    rcases List.mem_append.mp ha with ha | ha
    · obtain ⟨hne, hin⟩ := ih a ha
      refine ⟨hne, fun k hk => ?_⟩
      rw [hids]
      exact List.mem_append_left _ (hin k hk)
    · obtain rfl := List.mem_singleton.mp ha
      refine ⟨?_, fun k hk => ?_⟩
      · have htouched := hw.touched
        simp only [activatedIds, touchedLocations, ne_eq, List.map_eq_nil_iff, List.append_eq_nil_iff, not_and_or]
        exact htouched
      · obtain ⟨loc, hloc, rfl⟩ := List.mem_map.mp hk
        rw [hlocs]
        refine List.mem_map_of_mem (List.mem_append.mpr ?_)
        rcases List.mem_append.mp hloc with hloc | hloc
        · obtain ⟨i, hi, rfl⟩ := List.mem_map.mp hloc
          exact Or.inl (locationAt_mem ((hw.valid i hi).trans_eq hw.edited.length.symm))
        · exact Or.inr hloc

/-- A batch posts each document to the locations its write touched. -/
theorem mem_batchPostings {b : Batch F S} {n k d : ℕ} :
    (∃ e ∈ batchPostings b n, e.1 = k ∧ d ∈ e.2) ↔
      ∃ i a, b.writes[i]? = some a ∧ d = n + i ∧ k ∈ activatedIds a.inner a.result := by
  have hentry : (k, d) ∈ b.writes.zipIdx.flatMap (fun w =>
      (activatedIds w.1.inner w.1.result).map fun locId => (locId, n + w.2)) ↔
      ∃ i a, b.writes[i]? = some a ∧ d = n + i ∧ k ∈ activatedIds a.inner a.result := by
    simp only [List.mem_flatMap, List.mem_map, Prod.mk.injEq, Prod.exists, List.mem_zipIdx_iff_getElem?]
    constructor
    · rintro ⟨a, i, ha, k', hk, rfl, rfl⟩
      exact ⟨i, a, ha, rfl, hk⟩
    · rintro ⟨i, a, ha, rfl, hk⟩
      exact ⟨a, i, ha, k, hk, rfl, rfl⟩
  rw [← hentry]
  unfold batchPostings
  simp only [List.mem_map, List.mem_insertionSort, List.mem_dedup]
  constructor
  · rintro ⟨e, ⟨k', -, rfl⟩, rfl, hd⟩
    obtain ⟨⟨k'', d'⟩, hmem, rfl⟩ := List.mem_map.mp hd
    obtain ⟨hin, hk⟩ := List.mem_filter.mp hmem
    obtain rfl : k'' = _ := of_decide_eq_true hk
    exact hin
  · intro hmem
    refine ⟨_, ⟨k, ⟨(k, d), hmem, rfl⟩, rfl⟩, rfl, List.mem_map.mpr ⟨(k, d), List.mem_filter.mpr ⟨hmem, ?_⟩, rfl⟩⟩
    exact decide_eq_true rfl

theorem key_batchPostings {b : Batch F S} {n : ℕ} {e : ℕ × List ℕ} (he : e ∈ batchPostings b n) :
    ∃ a ∈ b.writes, e.1 ∈ activatedIds a.inner a.result := by
  unfold batchPostings at he
  obtain ⟨k, hk, rfl⟩ := List.mem_map.mp he
  simp only [List.mem_insertionSort, List.mem_dedup, List.mem_map, List.mem_flatMap] at hk
  obtain ⟨_, ⟨w, hw, k', hk', rfl⟩, rfl⟩ := hk
  exact ⟨w.1, List.fst_mem_of_mem_zipIdx hw, hk'⟩

/-! ### Memory and store -/

variable [Narrow F S]

/-- In order with distinct ids, every location stored, and every document filed. -/
structure Filed (store : Store F) (collectionId : ℕ) (inner : EAMInner F S) : Prop extends
    Distinct store collectionId inner where
  located : ∀ k ∈ inner.locations.map (·.id), (store.locationAt? collectionId k).isSome
  posted : Posted (inner.locations.map (·.id)) collectionId store

namespace Filed

variable {store store' : Store F} {collectionId : ℕ} {inner : EAMInner F S}

omit [Scalar F] in
/-- Exactly the memory's locations are stored. -/
theorem mem_iff (h : Filed store collectionId inner) (k : ℕ) :
    k ∈ inner.locations.map (·.id) ↔ (store.locationAt? collectionId k).isSome := by
  refine ⟨h.located k, fun hk => ?_⟩
  obtain ⟨r, hr⟩ := Option.isSome_iff_exists.mp hk
  exact (h.known k r hr).2.1

/-- What loads is filed again. -/
theorem loaded (h : Filed store collectionId inner) {name : String} {config : EAMConfig F} {col : Collection F S}
    (hload : Collection.load collectionId name store config = .ok col) : Filed store collectionId col.inner := by
  have hids : ∀ k, k ∈ col.inner.locations.map (·.id) ↔ (store.locationAt? collectionId k).isSome := by
    intro k
    have hall : ∀ loc, loc ∈ col.inner.locations ↔ ∃ id, store.locationAt? collectionId id = some loc := fun _ =>
      mem_loadAllLocations_iff (locations_of_load hload)
    rw [Option.isSome_iff_exists, List.mem_map]
    constructor
    · rintro ⟨loc, hloc, rfl⟩
      obtain ⟨id, hid⟩ := (hall loc).mp hloc
      exact ⟨loc, (h.known id loc hid).1 ▸ hid⟩
    · rintro ⟨loc, hloc⟩
      exact ⟨loc, (hall loc).mpr ⟨k, hloc⟩, (h.known k loc hloc).1⟩
  exact
    { toDistinct := .loaded h.toRecoverable hload
      located := fun k hk => (hids k).mp hk
      posted := h.posted.of_store (fun _ => Iff.rfl) rfl fun k hk => (hids k).mpr (h.located k (h.posted.keyed k hk)) }

omit [Scalar F] in
/-- The version is no part of it. -/
theorem of_version (h : Filed store collectionId inner) (v : ℕ) :
    Filed store collectionId { inner with version := v } :=
  ⟨⟨⟨h.valid, ⟨h.arrays.looks, h.arrays.matrix, h.arrays.matrix32⟩, h.shaped, h.fresh, h.known, h.nextId, h.eta,
    h.docNextId⟩, h.nodup⟩, h.located, h.posted⟩

theorem recovered {s : Session F S} (h : Filed s.store s.collection.collectionId s.collection.inner) {v : ℕ}
    (hr : Recovered s v inner) : Filed s.store s.collection.collectionId inner := by
  obtain ⟨col, hload⟩ := h.toRecoverable.load s.collection.name
  unfold Recovered at hr
  rw [hload] at hr
  subst hr
  exact (h.loaded hload).of_version v

omit [Scalar F] in
/-- Materializing rewrites documents under their own ids. -/
theorem materialized {s : Session F S} (h : Filed s.store s.collection.collectionId s.collection.inner) :
    Filed s.materialized.store s.collection.collectionId s.collection.inner := by
  have hstore : s.materialized.store = _ := materialize_eq _ _ _
  refine ⟨⟨h.toRecoverable.materialized, h.nodup⟩, fun k hk => ?_, h.posted.of_store (fun d => ?_) ?_ h.posted.keyed⟩
  · rw [locationAt?_eq, (congrArg Store.locations hstore :)]
    exact h.located k hk
  · have hget : s.materialized.store.getDocument s.collection.collectionId d = _ :=
      getDocument_materialize s.store s.collection.collectionId s.collection.inner d
    rw [hget, Option.isSome_map]
  · exact (congrArg Store.docIndex hstore :)

/-- A failed call files everything as it was. -/
theorem failed {s s' : Session F S} (h : Filed s.store s.collection.collectionId s.collection.inner) {v : ℕ}
    (hf : Failed v s s') : Filed s'.store s'.collection.collectionId s'.collection.inner := by
  cases hf with
  | unchanged => exact h
  | materialized => exact h.materialized
  | recovered rng hr => exact h.recovered hr
  | recoveredMaterialized rng hr => exact h.materialized.recovered hr

/-- A collection without records. -/
theorem untouched (config : EAMConfig F) (h : store.Untouched collectionId) :
    Filed store collectionId (.opened config [] 0 config.eta0 0 : EAMInner F S) where
  toDistinct := .untouched config h
  located := by simp [EAMInner.opened]
  posted := .of_untouched h

/-- A new collection where no location was stored. -/
theorem opened_new (h : Filed store collectionId inner) {name : String} {config : EAMConfig F} {rng : Rng F}
    (hempty : store.loadAllLocations collectionId = .ok []) :
    Filed (Session.fresh (S := S) collectionId name config rng store).store collectionId
      (Session.fresh (S := S) collectionId name config rng store).collection.inner := by
  have hlocations := locationAt?_of_loadAll hempty
  have hstore : (Session.fresh (S := S) collectionId name config rng store).store = _ :=
    putAll_eq collectionId (newPuts config rng) store
  have hnil : inner.locations.map (·.id) = [] := List.eq_nil_iff_forall_not_mem.mpr fun k hk => by
    have hat := h.located k hk
    rw [hlocations k] at hat
    simp at hat
  have hposted := h.posted
  rw [hnil] at hposted
  refine ⟨.opened_new hlocations h.docNextId, fun k hk => ?_, hposted.of_store (fun d => ?_) ?_ fun k hk => ?_⟩
  · rw [locationAt?_eq, (congrArg Store.locations hstore :)]
    exact isSome_decodeAt_putAll _ _ _ (randomLocations_ok config rng).2.sameLengths hk
  · rw [show (Session.fresh (S := S) collectionId name config rng store).store.getDocument collectionId d = _ from
      getDocument_putAll_of_notMem store (p := newPuts config rng) (by simp [newPuts])]
  · exact (congrArg Store.docIndex hstore :)
  · have hkey := hposted.keyed k hk
    simp at hkey

/-- Writes that store every location they touched and file every document they
store. -/
theorem wrote [Scalar S] {s : Session F S} (h : Filed s.store s.collection.collectionId s.collection.inner)
    {xs : List (Pattern F)} (hfit : s.Fits xs) {n : ℕ} {p : Puts F} (hr : (s.wrote xs n p).Recoverable)
    (hd : Shaped s.collection.inner.config.d p.locations)
    (hput : ∀ k ∈ (s.written xs n).inner.locations.map (·.id),
      k ∈ p.locations.map (·.id) ∨ k ∈ s.collection.inner.locations.map (·.id))
    (hkeys : ∀ e ∈ p.postings, e.1 ∈ (s.written xs n).inner.locations.map (·.id))
    (hposted : ∀ d, d ∈ p.documents.map (·.1) ↔ ∃ e ∈ p.postings, d ∈ e.2) :
    Filed (s.wrote xs n p).store s.collection.collectionId (s.wrote xs n p).collection.inner := by
  have hstore : (s.wrote xs n p).store = _ := putAll_eq s.collection.collectionId p s.store
  have hlists : (s.wrote xs n p).store.docIndex = _ := congrArg Store.docIndex hstore
  have hgrown : (s.written xs n).inner.locations.map (·.id) = _ := (Session.written_grown h.shaped hfit).ids
  have hids : ∀ k ∈ s.collection.inner.locations.map (·.id), k ∈ (s.written xs n).inner.locations.map (·.id) :=
    fun k hk => hgrown ▸ List.mem_append_left _ hk
  have hdocs : ∀ d, ((s.wrote xs n p).store.getDocument s.collection.collectionId d).isSome ↔
      d ∈ p.documents.map (·.1) ∨ (s.store.getDocument s.collection.collectionId d).isSome := by
    intro d
    by_cases hd : d ∈ p.documents.map (·.1)
    · have hkey : (⟨s.collection.collectionId, d⟩ : Scoped ℕ ℕ) ∈
          (p.documents.map fun d => ((⟨s.collection.collectionId, d.1⟩ : Scoped ℕ ℕ), d.2)).map (·.1) := by
        simpa using hd
      obtain ⟨r, -, hr⟩ := OrderedTable.exists_get_putAll s.store.documents hkey
      rw [hstore, Store.getDocument]
      simp [hr, hd]
    · rw [show (s.wrote xs n p).store.getDocument s.collection.collectionId d = _ from
        getDocument_putAll_of_notMem s.store hd]
      simp [hd]
  refine ⟨⟨hr, h.toDistinct.nodup_written hfit n⟩, fun k hk => ?_, ?_, fun k hk => ?_, fun k d hd => ?_⟩
  · rw [locationAt?_eq, (congrArg Store.locations hstore :)]
    by_cases hin : k ∈ p.locations.map (·.id)
    · exact isSome_decodeAt_putAll _ _ _ hd.sameLengths hin
    · rw [decodeAt_putAll_of_notMem _ hin]
      exact h.located k ((hput k hk).resolve_left hin)
  · intro d hd
    rw [hlists]
    rcases (hdocs d).mp hd with hd | hd
    · obtain ⟨e, he, hmem⟩ := (hposted d).mp hd
      exact ⟨e.1, hkeys e he, mem_postings_postTo.mpr (Or.inr ⟨e, he, rfl, hmem⟩)⟩
    · obtain ⟨k, hk, hmem⟩ := h.posted.covered d hd
      exact ⟨k, hids k hk, mem_postings_postTo.mpr (Or.inl hmem)⟩
  · rw [hlists] at hk
    rcases isSome_postTo hk with hk | ⟨e, he, rfl⟩
    · exact hids k (h.posted.keyed k hk)
    · exact hkeys e he
  · rw [hlists, mem_postings_postTo] at hd
    rcases hd with hd | ⟨e, he, -, hmem⟩
    · exact (hdocs d).mpr (Or.inr (h.posted.documented k d hd))
    · exact (hdocs d).mpr (Or.inl ((hposted d).mpr ⟨e, he, hmem⟩))

end Filed

/-! ### Calls -/

omit [Scalar F] [Narrow F S] in
/-- The documents of absorbed locations are filed under those that stay. -/
theorem Posted.absorbed {s s' : Session F S} {m : List (ℕ × ℕ)}
    (h : Posted (s.collection.inner.locations.map (·.id)) s.collection.collectionId s.store) (hm : Absorbed m s s')
    (hdocs : ∀ d, (s'.store.getDocument s.collection.collectionId d).isSome ↔
      (s.store.getDocument s.collection.collectionId d).isSome) :
    Posted (s'.collection.inner.locations.map (·.id)) s.collection.collectionId s'.store := by
  -- a location with a list afterwards is one that stays
  have hstays : ∀ k, (s'.store.docIndex.get ⟨s.collection.collectionId, k⟩).isSome → k ∉ m.map (·.1) := by
    intro k hk hremoved
    rw [(hm.get k).2 hremoved] at hk
    simp at hk
  have hids : ∀ k, k ∈ s'.collection.inner.locations.map (·.id) ↔
      k ∈ s.collection.inner.locations.map (·.id) ∧ k ∉ m.map (·.1) := fun k => by
    rw [hm.ids, List.mem_filter, decide_eq_true_iff]
  refine ⟨fun d hd => ?_, fun k hk => (hids k).mpr ⟨?_, hstays k hk⟩, fun k d hd => (hdocs d).mpr ?_⟩
  · obtain ⟨k, hk, hmem⟩ := h.covered d ((hdocs d).mp hd)
    refine ⟨Absorb.final m k, ?_, hm.subset_final k hmem⟩
    by_cases hremoved : k ∈ m.map (·.1)
    · exact hm.final_mem hremoved
    · rw [Absorb.final_of_notMem hremoved]
      exact (hids k).mpr ⟨hk, hremoved⟩
  · by_cases hnamed : ∀ e ∈ m, e.1 ≠ k ∧ e.2 ≠ k
    · rw [(hm.get k).1 hnamed] at hk
      exact h.keyed k hk
    · push Not at hnamed
      obtain ⟨e, he, hend⟩ := hnamed
      have hne : e.1 ≠ k := fun hc => hstays k hk (List.mem_map.mpr ⟨e, he, hc⟩)
      exact hend hne ▸ (hm.known e he).2
  · rcases List.mem_append.mp ((hm.survivor (hstays k (isSome_of_mem_postings hd))).mem_iff.mp hd) with hd | hd
    · exact h.documented k d hd
    · obtain ⟨r, -, hr⟩ := List.mem_flatMap.mp hd
      exact h.documented r d hr

variable [Scalar S] [SeededUniform F]

/-- A snapshot load keeps every location that has a posting list. -/
def Call.KeepsLists (s : Session F S) : Call F → Prop
  | .loadSnapshotChecked snapshot _ _ =>
    ∀ k, (s.store.docIndex.get ⟨s.collection.collectionId, k⟩).isSome → k ∈ snapshot.locations.map (·.id)
  | _ => True

namespace Filed

variable {s : Session F S}

/-- A merge deletes the locations it removed and no other. -/
theorem merged (h : Filed s.store s.collection.collectionId s.collection.inner) :
    Filed s.merged.store s.collection.collectionId s.merged.collection.inner := by
  have hmat := h.materialized
  have hm := absorbed_effect h.toDistinct (c := .merge) trivial
  have hd := distinct_effect h.toDistinct (c := .merge) (by simp [Call.Accepted, Session.Fits, Call.patterns]) trivial
  have hremoved := (knnMerge_consolidated s.collection.inner.locations s.collection.inner.config).2
  have hids : s.merged.collection.inner.locations.map (·.id) = _ := hm.ids
  -- what happened to the tables, also when nothing was merged
  have htables : (∀ k ∈ s.merged.collection.inner.locations.map (·.id),
        s.merged.store.locationAt? s.collection.collectionId k =
          s.materialized.store.locationAt? s.collection.collectionId k) ∧
      s.merged.store.documents = s.materialized.store.documents := by
    rw [hids]
    unfold Session.merged
    dsimp only
    split_ifs
    · exact ⟨fun _ _ => rfl, rfl⟩
    · have hstore := mergedInto_eq s.collection.collectionId s.materialized.store
        (knnMerge s.collection.inner.locations s.collection.inner.config).1
      refine ⟨fun k hk => ?_, (congrArg Store.documents hstore :)⟩
      have hstays : k ∉ (Call.absorptions s .merge).map (·.1) := by simpa using (List.mem_filter.mp hk).2
      rw [locationAt?_eq, (congrArg Store.locations hstore :), decodeAt_deleteAll, hremoved]
      exact if_neg hstays
  refine ⟨hd, fun k hk => ?_, h.posted.absorbed hm fun d => ?_⟩
  · have hin : k ∈ s.merged.collection.inner.locations.map (·.id) := hk
    rw [htables.1 k hk]
    rw [hids, List.mem_filter] at hin
    exact hmat.located k hin.1
  · show (s.merged.store.documents.get _).isSome ↔ _
    rw [htables.2]
    have hget : s.materialized.store.documents.get ⟨s.collection.collectionId, d⟩ = _ :=
      getDocument_materialize s.store s.collection.collectionId s.collection.inner d
    rw [hget, Option.isSome_map]

/-- A compression deletes what it removed and stores what it left. -/
theorem compressed (h : Filed s.store s.collection.collectionId s.collection.inner) (kappa lambda : F) :
    Filed (s.compressed kappa lambda).store s.collection.collectionId
      (s.compressed kappa lambda).collection.inner := by
  have hmat := h.materialized
  have hm := absorbed_effect h.toDistinct (c := .compress kappa lambda) trivial
  have hd := distinct_effect h.toDistinct (c := .compress kappa lambda)
    (by simp [Call.Accepted, Session.Fits, Call.patterns]) trivial
  have hget : ∀ d, (s.materialized.store.documents.get ⟨s.collection.collectionId, d⟩).isSome ↔
      (s.store.getDocument s.collection.collectionId d).isSome := fun d => by
    rw [show s.materialized.store.documents.get ⟨s.collection.collectionId, d⟩ = _ from
      getDocument_materialize s.store s.collection.collectionId s.collection.inner d, Option.isSome_map]
  -- what happened to the tables, also when nothing was merged
  have htables : (∀ k ∈ (s.compressed kappa lambda).collection.inner.locations.map (·.id),
        ((s.compressed kappa lambda).store.locationAt? s.collection.collectionId k).isSome) ∧
      (s.compressed kappa lambda).store.documents = s.materialized.store.documents := by
    unfold Session.compressed
    dsimp only
    split_ifs
    · exact ⟨hmat.located, rfl⟩
    · have hstore := compressedInto_eq s.collection.collectionId s.materialized.store
        (s.compression kappa lambda).1 (s.compression kappa lambda).2
      refine ⟨fun k hk => ?_, (congrArg Store.documents hstore :)⟩
      rw [locationAt?_eq, (congrArg Store.locations hstore :)]
      have hleft := (compression_consolidated s kappa lambda).shaped _ h.shaped
      exact isSome_decodeAt_putAll _ _ _ hleft.sameLengths hk
  refine ⟨hd, htables.1, h.posted.absorbed hm fun d => ?_⟩
  show ((s.compressed kappa lambda).store.documents.get _).isSome ↔ _
  rw [htables.2]
  exact hget d

omit [SeededUniform F] [Scalar S] in
/-- A snapshot takes the place of the locations and keeps the lists. -/
theorem replaced (h : Filed s.store s.collection.collectionId s.collection.inner) {snapshot : Snapshot F}
    {config : EAMConfig F} {expected : Option ℕ}
    (hacc : (Call.loadSnapshotChecked snapshot config expected).Accepted s)
    (hnodup : (snapshot.locations.map (·.id)).Nodup)
    (hkeep : (Call.loadSnapshotChecked snapshot config expected).KeepsLists s) :
    Filed (s.replaced snapshot.locations config).store s.collection.collectionId
      (s.replaced snapshot.locations config).collection.inner := by
  have hmat := h.materialized
  have hstore : (s.replaced snapshot.locations config).store = _ := replacedBy_eq s.collection.collectionId s.materialized.store
    s.collection.inner.locations snapshot.locations config
  have hinline : s.materialized.store = _ := materialize_eq _ _ _
  have hlists : s.materialized.store.docIndex = s.store.docIndex := (congrArg Store.docIndex hinline :)
  refine ⟨⟨h.toRecoverable.replaced hacc.2, hnodup⟩, fun k hk => ?_,
    hmat.posted.of_store (fun d => ?_) ?_ fun k hk => ?_⟩
  · rw [locationAt?_eq, (congrArg Store.locations hstore :)]
    exact isSome_decodeAt_putAll _ _ _ snapshot.lengths hk
  · rw [Store.getDocument, (congrArg Store.documents hstore :)]
    rfl
  · exact (congrArg Store.docIndex hstore :)
  · rw [hlists] at hk
    exact hkeep k hk

omit [SeededUniform F] [Scalar S] [Scalar F] in
/-- A deleted document is in no list. -/
theorem withoutDocument (h : Filed s.store s.collection.collectionId s.collection.inner) (writeIndex : ℕ) :
    Filed (s.store.withoutDocument s.collection.collectionId writeIndex) s.collection.collectionId
      s.collection.inner := by
  have hstore := withoutDocument_eq s.collection.collectionId writeIndex s.store
  have hdocs : ∀ d, ((s.store.withoutDocument s.collection.collectionId writeIndex).getDocument
      s.collection.collectionId d).isSome ↔
        d ≠ writeIndex ∧ (s.store.getDocument s.collection.collectionId d).isSome := by
    intro d
    rw [Store.getDocument, (congrArg Store.documents hstore :), OrderedTable.get_delete]
    by_cases hd : d = writeIndex
    · simp [hd]
    · simp [hd, Store.getDocument]
  have hlists := fun k => @postings_dropped s.collection.collectionId s.store.docIndex writeIndex k
  refine ⟨⟨h.toRecoverable.withoutDocument writeIndex, h.nodup⟩, fun k hk => ?_, fun d hd => ?_, fun k hk => ?_,
    fun k d hd => ?_⟩
  · rw [locationAt?_eq, (congrArg Store.locations hstore :)]
    exact h.located k hk
  · obtain ⟨hne, hd⟩ := (hdocs d).mp hd
    obtain ⟨k, hk, hmem⟩ := h.posted.covered d hd
    refine ⟨k, hk, ?_⟩
    rw [(congrArg Store.docIndex hstore :), (hlists k).1, List.mem_filter]
    exact ⟨hmem, by simpa using hne⟩
  · rw [(congrArg Store.docIndex hstore :)] at hk
    exact h.posted.keyed k ((hlists k).2 hk)
  · rw [(congrArg Store.docIndex hstore :), (hlists k).1, List.mem_filter] at hd
    exact (hdocs d).mpr ⟨by simpa using hd.2, h.posted.documented k d hd.1⟩

end Filed

/-- A call's whole effect files every document, if a snapshot load keeps the
locations with lists. -/
theorem filed_effect {s : Session F S} (h : Filed s.store s.collection.collectionId s.collection.inner) {c : Call F}
    (hacc : c.Accepted s) (hload : c.LoadsDistinct) (hkeep : c.KeepsLists s) :
    Filed (c.effect s).store s.collection.collectionId (c.effect s).collection.inner := by
  have hr := recoverable_effect h.toRecoverable hacc
  -- the ids of records that are locations the writes leave
  have hput : ∀ {xs : List (Pattern F)} {n : ℕ} {puts : List (HardLocation F)},
      Records s.collection.inner.locations (s.written xs n).inner.locations puts →
      ∀ k ∈ (s.written xs n).inner.locations.map (·.id),
        k ∈ puts.map (·.id) ∨ k ∈ s.collection.inner.locations.map (·.id) := by
    intro xs n puts hrec k hk
    obtain ⟨loc, hloc, rfl⟩ := List.mem_map.mp hk
    exact (hrec.all loc hloc).imp_right List.mem_map_of_mem
  have htouches : ∀ {xs : List (Pattern F)}, s.Fits xs → ∀ n, (s.written xs n).Touches := fun hfit _ =>
    touches_batch s.collection.inner.bumpVersion h.shaped hfit s.rng
  cases c with
  | write input =>
    have hrec := records_single h.shaped hacc 0
    exact h.wrote hacc hr (hrec.shaped (Session.written_grown h.shaped hacc).shaped) (hput hrec)
      (by simp [writePuts]) (by simp [writePuts])
  | writeTwo address counter opts =>
    have hrec := records_single h.shaped hacc 0
    exact h.wrote hacc hr (hrec.shaped (Session.written_grown h.shaped hacc).shaped) (hput hrec)
      (by simp [writePuts]) (by simp [writePuts])
  | writeBatch inputs =>
    refine h.wrote hacc hr (shaped_batchPuts h.shaped hacc) (fun k hk => ?_) (by simp [batchPuts])
      (by simp [batchPuts])
    have hg := Session.written_grown h.shaped hacc
    obtain ⟨loc, hloc, rfl⟩ := List.mem_map.mp hk
    rcases hg.cover hloc with ⟨i, hi, rfl⟩ | hloc | hloc
    · refine Or.inl (List.mem_map_of_mem (List.mem_append_left _ (List.mem_map_of_mem ?_)))
      exact List.mem_filter.mpr ⟨hi, decide_eq_true (hg.modified i hi)⟩
    · exact Or.inr (List.mem_map_of_mem hloc)
    · exact Or.inl (List.mem_map_of_mem (List.mem_append_right _ hloc))
  | writeWithMetadata input metadata =>
    obtain ⟨hne, hin⟩ := htouches hacc 1 (s.adapted (.single input)) (List.mem_singleton_self _)
    have hrec := records_single h.shaped hacc 1
    refine h.wrote hacc hr (hrec.shaped (Session.written_grown h.shaped hacc).shaped) (hput hrec)
      (fun e he => ?_) fun d => ?_
    · obtain ⟨k, hk, rfl⟩ := List.mem_map.mp he
      exact hin k hk
    · obtain ⟨k, hk⟩ := List.exists_mem_of_ne_nil _ hne
      constructor
      · intro hd
        exact ⟨(k, [s.collection.inner.docNextId]), List.mem_map_of_mem hk, hd⟩
      · rintro ⟨e, he, hd⟩
        obtain ⟨k', -, rfl⟩ := List.mem_map.mp he
        exact hd
  | writeBatchWithMetadata items =>
    by_cases hemp : items = []
    · rw [Call.effect, if_pos hemp]
      exact h
    · rw [Call.effect, if_neg hemp] at hr ⊢
      have htouch := htouches hacc items.length
      have hlen : (s.written (items.map fun item => .single item.1) items.length).writes.length = items.length :=
        (length_writes s.collection.inner.bumpVersion _ s.rng).trans (List.length_map _)
      have hrec := records_documentBatch h.shaped hacc
      refine h.wrote hacc hr (hrec.shaped (Session.written_grown h.shaped hacc).shaped) (hput hrec)
        (fun e he => ?_) fun d => ?_
      · obtain ⟨a, ha, hk⟩ := key_batchPostings he
        exact (htouch a ha).2 e.1 hk
      · rw [documentIds_documentBatch, List.mem_range'_1]
        constructor
        · rintro ⟨hge, hlt⟩
          obtain ⟨a, ha⟩ : ∃ a, (s.written (items.map fun item => .single item.1)
              items.length).writes[d - s.collection.inner.docNextId]? = some a :=
            ⟨_, List.getElem?_eq_getElem (by omega)⟩
          obtain ⟨k, hk⟩ := List.exists_mem_of_ne_nil _ (htouch a (List.mem_of_getElem? ha)).1
          obtain ⟨e, he, -, hd⟩ := mem_batchPostings.mpr ⟨_, a, ha, (Nat.add_sub_of_le hge).symm, hk⟩
          exact ⟨e, he, hd⟩
        · rintro ⟨e, he, hd⟩
          obtain ⟨i, a, ha, rfl, -⟩ := mem_batchPostings.mp ⟨e, he, rfl, hd⟩
          have hi := (List.getElem?_eq_some_iff.mp ha).1
          omega
  | merge => exact h.merged
  | compress kappa lambda => exact h.compressed kappa lambda
  | loadSnapshotChecked snapshot config expected => exact h.replaced hacc hload hkeep
  | deleteDocument writeIndex => exact h.withoutDocument writeIndex

/-! ### Lives -/

/-- A snapshot load that succeeds keeps every location that has a posting list. -/
def HiveEvent.KeepsLists (hive : Hive F S) : HiveEvent F → Prop
  | .call h (c, .ok _) => ∀ s, hive.session h = some s → c.KeepsLists s
  | _ => True

/-- A step of a life in which snapshots repeat no id and keep every location
that has a posting list. -/
def FiledLife (name : String) (hive : Hive F S) (e : HiveEvent F) (hive' : Hive F S) : Prop :=
  Life name hive e hive' ∧ e.LoadsDistinct ∧ e.KeepsLists hive

/-- The name's collection files every document. -/
structure Hive.Filed (hive : Hive F S) (name : String) (collectionId : ℕ) : Prop where
  registered : hive.store.registry.get name = some collectionId
  memory : ∃ inner : EAMInner F S, HeatherDb.Filed hive.store collectionId inner ∧
    hive.Holds name collectionId inner

/-- **Such a life files every document.** -/
theorem filedLife_step {name : String} {collectionId : ℕ} {hive hive' : Hive F S}
    (h : hive.Filed name collectionId) {e : HiveEvent F} (hstep : FiledLife name hive e hive') :
    hive'.Filed name collectionId := by
  obtain ⟨hlife, hload, hkeep⟩ := hstep
  obtain ⟨inner, hf, hholds⟩ := h.memory
  obtain ⟨inner', hreg, hholds', hlived⟩ := life_cases h.registered hholds hlife
  refine ⟨hreg, inner', ?_, hholds'⟩
  cases hlived with
  | idle p he hstore =>
    rw [hstore]
    exact ⟨⟨hf.toRecoverable.of_store rfl rfl, hf.nodup⟩, hf.located,
      hf.posted.of_store (fun _ => Iff.rfl) rfl hf.posted.keyed⟩
  | loaded he hstore hload =>
    rw [hstore]
    exact hf.loaded hload
  | new he hcache hempty hstore =>
    rw [hstore]
    exact hf.opened_new hempty
  | @called e hive' s s' hs hstore hid hinner hstep hstore' =>
    subst hid hinner
    rw [← hstore] at hf
    rw [hstore']
    obtain ⟨c, r⟩ := e
    rcases step_cases hstep with ⟨e, -, hfail⟩ | ⟨hacc, rfl, rfl⟩
    · have hfailed := hf.failed hfail
      rwa [hfail.within.collectionId] at hfailed
    · exact filed_effect hf hacc hload (hkeep s hs)

/-- **Posting lists are whole**: in every state such a life reaches, every stored
document is in the list of an existing location, every list is an existing
location's, and every posted id is a stored document's. -/
theorem posting_lists_whole {name : String} {collectionId : ℕ} {hive hive' : Hive F S} (hnone : hive.handles = [])
    (hcache : hive.collections.get name = none) (hreg : hive.store.registry.get name = some collectionId)
    (hnew : hive.store.Untouched collectionId) {es : List (HiveEvent F)}
    (hrun : Run (FiledLife name) hive es hive') :
    (∀ d, (hive'.store.getDocument collectionId d).isSome →
      ∃ k, (hive'.store.locationAt? collectionId k).isSome ∧ d ∈ hive'.store.docIdsForLocation collectionId k) ∧
      (∀ k, (hive'.store.docIndex.get ⟨collectionId, k⟩).isSome → (hive'.store.locationAt? collectionId k).isSome) ∧
      (∀ k d, d ∈ hive'.store.docIdsForLocation collectionId k → (hive'.store.getDocument collectionId d).isSome) ∧
      ∀ h s, hive'.session h = some s → ∀ k,
        k ∈ s.collection.inner.locations.map (·.id) ↔ (hive'.store.locationAt? collectionId k).isSome := by
  have hfiled : hive'.Filed name collectionId :=
    hrun.invariant (P := fun hive => hive.Filed name collectionId)
      ⟨hreg, _, .untouched hive.config hnew, .closed hnone hcache⟩ fun h hstep => filedLife_step h hstep
  obtain ⟨inner, hf, hholds⟩ := hfiled.memory
  refine ⟨fun d hd => ?_, fun k hk => hf.located k (hf.posted.keyed k hk), hf.posted.documented, fun h s hs k => ?_⟩
  · obtain ⟨k, hk, hmem⟩ := hf.posted.covered d hd
    exact ⟨k, hf.located k hk, hmem⟩
  · obtain ⟨-, -, -, -, -, rfl⟩ := hholds.session hs
    exact hf.mem_iff k

/-- A document written and two locations merged. -/
theorem posting_lists_whole_merged :
    let hive := (smallHive.created.calling (.writeWithMetadata [1] [7])).calling (.writeWithMetadata [1] [8])
    ∀ d, ((hive.calling .merge).store.getDocument 0 d).isSome → ∃ k,
      ((hive.calling .merge).store.locationAt? 0 k).isSome ∧ d ∈ (hive.calling .merge).store.docIdsForLocation 0 k := by
  intro hive
  let one := smallHive.created.calling (.writeWithMetadata [1] [7])
  -- none of these calls loads a snapshot
  have hkeep : ∀ (hive : Hive ℚ ℚ) (c : Call ℚ), (∀ s : Session ℚ ℚ, c.KeepsLists s) →
      (hive.answer c).KeepsLists hive := by
    intro hive c hc
    unfold Hive.answer
    cases hive.session 0 with
    | none => trivial
    | some s => exact fun s _ => hc s
  have hcreate : FiledLife "c" smallHive (.create "c" (.ok 0)) smallHive.created :=
    ⟨smallHive.life_create (by decide +kernel), trivial, trivial⟩
  have hfirst : FiledLife "c" smallHive.created (smallHive.created.answer (.writeWithMetadata [1] [7])) one :=
    ⟨smallHive.created.life_call _ (by decide +kernel), trivial, hkeep _ _ fun _ => trivial⟩
  have hsecond : FiledLife "c" one (one.answer (.writeWithMetadata [1] [8])) hive :=
    ⟨one.life_call _ (by decide +kernel), trivial, hkeep _ _ fun _ => trivial⟩
  have hmerge : FiledLife "c" hive (hive.answer .merge) (hive.calling .merge) :=
    ⟨hive.life_call _ (by decide +kernel), trivial, hkeep _ _ fun _ => trivial⟩
  have hrun := (((Run.single hcreate).snoc hfirst).snoc hsecond).snoc hmerge
  exact (posting_lists_whole rfl rfl rfl smallHive_untouched hrun).1

/-- An empty snapshot leaves the document without a location; one with the
document's location twice loses its list in a merge. -/
theorem posting_lists_orphaned :
    (∃ es hive, Run (Life "c") smallHive es hive ∧ (hive.store.getDocument 0 0).isSome ∧
      hive.store.loadAllLocations 0 = .ok []) ∧
    ∃ es hive, Run (Life "c") smallHive es hive ∧ (hive.store.getDocument 0 0).isSome ∧
      hive.store.docIndex.entries = [] := by
  let written := smallHive.created.calling (.writeWithMetadata [1] [7])
  let twice := written.calling (.loadSnapshotChecked twins (smallConfig false) none)
  have hcreate := smallHive.life_create (h := 0) (by decide +kernel)
  have hwrite := smallHive.created.life_call (.writeWithMetadata [1] [7]) (by decide +kernel)
  have hempty := written.life_call (.loadSnapshotChecked emptySnapshot (smallConfig false) none) (by decide +kernel)
  have htwice := written.life_call (.loadSnapshotChecked twins (smallConfig false) none) (by decide +kernel)
  have hmerge := twice.life_call .merge (by decide +kernel)
  have hrun := (Run.single hcreate).snoc hwrite
  exact ⟨⟨_, _, hrun.snoc hempty, by decide +kernel, by rw [loadAllLocations_eq]; rfl⟩,
    ⟨_, _, (hrun.snoc htwice).snoc hmerge, by decide +kernel, by decide +kernel⟩⟩

end HeatherDb
