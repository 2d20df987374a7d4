/-
# A batch of documents is its sequence

`write_batch_with_metadata` is an implementation of its own: it settles each
write before the next, as the writes one by one do, but stores every touched
location, every document and every posting list once, at the end. It leaves
the memory and the store that `write_with_metadata` leaves, called on the
items one after another; only the version counts once.

The batch checks every vector before it writes the first. So where one is not
finite it writes nothing, and the sequence what comes before.

Key definitions: `Session.Ordered`, `writeEach`, `Session.wroteEach`.
Key theorems: `simulates_snoc`, `batch_is_sequence`.
-/
import HeatherDb.Postings

namespace HeatherDb

open Scalar Narrow Program AtomicMutation Store

variable {F S : Type} [Scalar F] [Narrow F S]

/-! ### Locations stored -/

/-- A location put among others of other ids is stored as it is. -/
theorem get_putAll_entries {collectionId : ℕ} {precision : Precision} (t : OrderedTable (Scoped ℕ ℕ) (LocationRecord F))
    {ls : List (HardLocation F)} {loc : HardLocation F} (hloc : loc ∈ ls) (hone : ∀ q ∈ ls, q.id = loc.id → q = loc) :
    (t.putAll (ls.map (locationEntry precision collectionId))).get ⟨collectionId, loc.id⟩ =
      some (encodeLocation precision loc) := by
  apply OrderedTable.get_putAll t (List.mem_map.mpr ⟨loc, hloc, rfl⟩)
  intro r hr
  obtain ⟨q, hq, hentry⟩ := List.mem_map.mp hr
  obtain ⟨hkey, rfl⟩ := Prod.mk.inj hentry
  have hid : q.id = loc.id := by simpa using hkey
  rw [hone q hq hid]

/-- A key that no location put has. -/
theorem get_putAll_entries_of_notMem {collectionId : ℕ} {precision : Precision}
    (t : OrderedTable (Scoped ℕ ℕ) (LocationRecord F)) {ls : List (HardLocation F)} {k : Scoped ℕ ℕ}
    (hk : ∀ q ∈ ls, (⟨collectionId, q.id⟩ : Scoped ℕ ℕ) ≠ k) :
    (t.putAll (ls.map (locationEntry precision collectionId))).get k = t.get k := by
  apply OrderedTable.get_putAll_of_notMem
  intro hmem
  rw [List.map_map] at hmem
  obtain ⟨q, hq, hkey⟩ := List.mem_map.mp hmem
  exact hk q hq hkey

/-- The locations a batch stores. -/
def Batch.records (b : Batch F S) (start : ℕ) : List (HardLocation F) :=
  (b.touched start).map (locationAt b.inner.locations)

theorem locationAt_of_getElem? {ls : List (HardLocation F)} {i : ℕ} {loc : HardLocation F} (h : ls[i]? = some loc) :
    locationAt ls i = loc := by
  rw [locationAt, List.getD_eq_getElem?_getD, h, Option.getD_some]

omit [Narrow F S] in
/-- A location stored is the one at a touched place. -/
theorem Grown.mem_records {inner : EAMInner F S} {b : Batch F S} (h : Grown inner b) {q : HardLocation F} :
    q ∈ b.records inner.locations.length ↔ ∃ i, b.inner.locations[i]? = some q ∧
      (i ∈ b.allModified ∨ inner.locations.length ≤ i) := by
  constructor
  · intro hq
    obtain ⟨i, hi, rfl⟩ := List.mem_map.mp hq
    have hlt : i < b.inner.locations.length := by
      rcases mem_touched.mp hi with hi | hi
      · exact h.modified i hi
      · omega
    refine ⟨i, ?_, (mem_touched.mp hi).imp_right And.left⟩
    rw [locationAt, List.getD_eq_getElem _ _ hlt, List.getElem?_eq_getElem hlt]
  · rintro ⟨i, hi, hplace⟩
    have hlt := (List.getElem?_eq_some_iff.mp hi).1
    exact List.mem_map.mpr ⟨i, mem_touched.mpr (hplace.imp_right fun hle => ⟨hle, by omega⟩), locationAt_of_getElem? hi⟩

/-- **What one more write stores** on top of a batch is what the longer batch
stores. -/
theorem records_next [Scalar S] {inner : EAMInner F S} {b : Batch F S} (h : Grown inner b) {x : Pattern F}
    (hx : x.address.length = inner.config.d ∧ x.counter.length = inner.config.d)
    (hn : ((b.next x).inner.locations.map (·.id)).Nodup) (precision : Precision) (collectionId : ℕ)
    (t : OrderedTable (Scoped ℕ ℕ) (LocationRecord F)) :
    (t.putAll ((b.records inner.locations.length).map (locationEntry precision collectionId))).putAll
        ((touchedLocations (b.inner.adapt x b.rng).inner (b.inner.adapt x b.rng).result).map
          (locationEntry precision collectionId)) =
      t.putAll (((b.next x).records inner.locations.length).map (locationEntry precision collectionId)) := by
  set a := b.inner.adapt x b.rng with ha
  have h' := h.step hx
  have hw := adapt_frame b.inner (h.config ▸ h.shaped) (h.config ▸ hx) b.rng
  have hafter : (b.next x).inner.locations = a.inner.locations ++ a.result.newLocations :=
    (sameState_settle a.inner a.result).locations
  have hlen : a.inner.locations.length = b.inner.locations.length := hw.edited.length
  have hsame : ∀ q ∈ (b.next x).inner.locations, ∀ q' ∈ (b.next x).inner.locations, q.id = q'.id → q = q' :=
    fun q hq q' hq' hid => List.inj_on_of_nodup_map hn hq hq' hid
  -- what the last write stores is at places the longer batch touched
  have hlast : ∀ q ∈ touchedLocations a.inner a.result, q ∈ (b.next x).records inner.locations.length := by
    intro q hq
    rw [h'.mem_records, hafter]
    rcases List.mem_append.mp hq with hq | hq
    · obtain ⟨i, hi, rfl⟩ := List.mem_map.mp hq
      have hlt : i < a.inner.locations.length := (hw.valid i hi).trans_eq hlen.symm
      refine ⟨i, ?_, Or.inl ((allModified_next b x i).mpr (Or.inr hi))⟩
      rw [List.getElem?_append_left hlt, locationAt, List.getD_eq_getElem _ _ hlt, List.getElem?_eq_getElem hlt]
    · obtain ⟨j, hj⟩ := List.mem_iff_getElem?.mp hq
      have hgrown : inner.locations.length ≤ b.inner.locations.length := by
        have hids := congrArg List.length h.ids
        simp only [List.length_map, List.length_append] at hids
        omega
      refine ⟨a.inner.locations.length + j, ?_, Or.inr (by omega)⟩
      rw [List.getElem?_append_right (Nat.le_add_right _ _), Nat.add_sub_cancel_left]
      exact hj
  have hmem : ∀ q ∈ (b.next x).records inner.locations.length, q ∈ (b.next x).inner.locations := fun q hq =>
    List.mem_of_getElem? (h'.mem_records.mp hq).choose_spec.1
  apply OrderedTable.ext_get
  intro k
  by_cases hk : ∃ q ∈ touchedLocations a.inner a.result, (⟨collectionId, q.id⟩ : Scoped ℕ ℕ) = k
  · obtain ⟨q, hq, rfl⟩ := hk
    rw [get_putAll_entries _ hq fun q' hq' => hsame q' (hmem _ (hlast q' hq')) q (hmem _ (hlast q hq)),
      get_putAll_entries _ (hlast q hq) fun q' hq' => hsame q' (hmem q' hq') q (hmem _ (hlast q hq))]
  · push Not at hk
    rw [get_putAll_entries_of_notMem _ hk]
    -- a location the last write left alone, stored by both or by neither
    have hkeep : ∀ i q, (⟨collectionId, q.id⟩ : Scoped ℕ ℕ) = k → i < b.inner.locations.length →
        ((b.next x).inner.locations[i]? = some q ∨ b.inner.locations[i]? = some q) →
        i ∉ a.result.modifiedIndices ∧ (b.next x).inner.locations[i]? = b.inner.locations[i]? := by
      intro i q hq hlt hi
      have hmodified : i ∉ a.result.modifiedIndices := by
        intro hi'
        have hids : (a.inner.locations.map (·.id))[i]? = (b.inner.locations.map (·.id))[i]? :=
          congrArg (·[i]?) hw.edited.ids
        have hat : a.inner.locations[i]? = some (locationAt a.inner.locations i) := by
          rw [locationAt, List.getD_eq_getElem _ _ (hlen ▸ hlt), List.getElem?_eq_getElem (hlen ▸ hlt)]
        have hid : (locationAt a.inner.locations i).id = q.id := by
          rw [List.getElem?_map, List.getElem?_map, hat] at hids
          rcases hi with hi | hi
          · rw [hafter, List.getElem?_append_left (hlen ▸ hlt), hat] at hi
            rw [Option.some.inj hi]
          · rw [hi] at hids
            exact Option.some.inj hids
        exact hk _ (List.mem_append_left _ (List.mem_map_of_mem hi')) (hid ▸ hq)
      refine ⟨hmodified, ?_⟩
      rw [hafter, List.getElem?_append_left (hlen ▸ hlt)]
      exact hw.edited.frame i hmodified
    by_cases hb : ∃ q ∈ b.records inner.locations.length, (⟨collectionId, q.id⟩ : Scoped ℕ ℕ) = k
    · obtain ⟨q, hq, rfl⟩ := hb
      obtain ⟨i, hi, hplace⟩ := h.mem_records.mp hq
      have hlt := (List.getElem?_eq_some_iff.mp hi).1
      have hstays := (hkeep i q rfl hlt (Or.inr hi)).2.trans hi
      have hq' : q ∈ (b.next x).records inner.locations.length := by
        rw [h'.mem_records]
        exact ⟨i, hstays, hplace.imp_left fun hmod => (allModified_next b x i).mpr (Or.inl hmod)⟩
      have hn' : (b.inner.locations.map (·.id)).Nodup := by
        rw [hafter, List.map_append, hw.edited.ids] at hn
        exact hn.of_append_left
      rw [get_putAll_entries _ hq fun p hp hid => ?_,
        get_putAll_entries _ hq' fun p hp => hsame p (hmem p hp) q (hmem q hq')]
      exact List.inj_on_of_nodup_map hn' (List.mem_of_getElem? (h.mem_records.mp hp).choose_spec.1)
        (List.mem_of_getElem? hi) hid
    · push Not at hb
      rw [get_putAll_entries_of_notMem _ hb, get_putAll_entries_of_notMem]
      intro q hq hkey
      obtain ⟨i, hi, hplace⟩ := h'.mem_records.mp hq
      by_cases hlt : i < b.inner.locations.length
      · obtain ⟨hmodified, hsame'⟩ := hkeep i q hkey hlt (Or.inl hi)
        refine hb q (h.mem_records.mpr ⟨i, hsame'.symm.trans hi, hplace.imp_left fun hmod => ?_⟩) hkey
        exact ((allModified_next b x i).mp hmod).resolve_right hmodified
      · rw [hafter, List.getElem?_append_right (by omega)] at hi
        exact hk q (List.mem_append_right _ (List.mem_of_getElem? hi)) hkey

/-! ### Posting lists -/

/-- The documents a list of appends files under a location, in order. -/
def filedUnder (es : List (ℕ × List ℕ)) (k : ℕ) : List ℕ := (es.filter fun e => e.1 = k).flatMap (·.2)

theorem filedUnder_append (es es' : List (ℕ × List ℕ)) (k : ℕ) :
    filedUnder (es ++ es') k = filedUnder es k ++ filedUnder es' k := by
  rw [filedUnder, List.filter_append, List.flatMap_append, filedUnder, filedUnder]

/-- A location's list after the appends. -/
theorem get_foldl_postTo {collectionId k : ℕ} : ∀ (es : List (ℕ × List ℕ)) (t : OrderedTable (Scoped ℕ ℕ) (List ℕ)),
    (es.foldl (postTo collectionId) t).get ⟨collectionId, k⟩ =
      if filedUnder es k = [] then t.get ⟨collectionId, k⟩
      else some ((t.get ⟨collectionId, k⟩).getD [] ++ filedUnder es k)
  | [], _ => rfl
  | e :: es, t => by
    have hsplit : filedUnder (e :: es) k = (if e.1 = k then e.2 else []) ++ filedUnder es k := by
      unfold filedUnder
      by_cases hk : e.1 = k <;> simp [hk]
    rw [List.foldl_cons, get_foldl_postTo es, hsplit]
    by_cases hk : e.1 = k
    · subst hk
      rw [if_pos rfl]
      unfold postTo
      by_cases hdocs : e.2 = []
      · rw [if_pos hdocs, hdocs, List.nil_append]
      · rw [if_neg hdocs, OrderedTable.get_put_self, if_neg (List.append_ne_nil_of_left_ne_nil hdocs _),
          Option.getD_some,
          List.append_assoc]
        split_ifs with hnil
        · rw [hnil, List.append_nil]
        · rfl
    · have hstays : (postTo collectionId t e).get ⟨collectionId, k⟩ = t.get ⟨collectionId, k⟩ := by
        unfold postTo
        split_ifs
        · rfl
        · exact OrderedTable.get_put_of_ne _ _ (by simpa using Ne.symm hk)
      rw [hstays, if_neg hk, List.nil_append]

/-- Appends that file the same documents everywhere leave the same lists. -/
theorem foldl_postTo_congr {collectionId : ℕ} {es es' : List (ℕ × List ℕ)} (h : ∀ k, filedUnder es k = filedUnder es' k)
    (t : OrderedTable (Scoped ℕ ℕ) (List ℕ)) :
      es.foldl (postTo collectionId) t = es'.foldl (postTo collectionId) t := by
  have houtside : ∀ es : List (ℕ × List ℕ),
      OrderedTable.SameOutside collectionId t (es.foldl (postTo collectionId) t) :=
    fun es => OrderedTable.SameOutside.foldl sameOutside_postTo es t
  apply OrderedTable.ext_get
  rintro ⟨scope, k⟩
  by_cases hscope : scope = collectionId
  · subst hscope
    rw [get_foldl_postTo, get_foldl_postTo, h k]
  · rw [houtside es _ hscope, houtside es' _ hscope]

/-- The appends of a batch, document by document. -/
def batchEntries (b : Batch F S) (docNextId : ℕ) : List (ℕ × ℕ) :=
  b.writes.zipIdx.flatMap fun w => (activatedIds w.1.inner w.1.result).map fun locId => (locId, docNextId + w.2)

omit [Narrow F S] in
/-- A batch files its documents under each location in input order. -/
theorem filedUnder_batchPostings (b : Batch F S) (docNextId k : ℕ) :
    filedUnder (batchPostings b docNextId) k = ((batchEntries b docNextId).filter fun e => e.1 = k).map (·.2) := by
  set entries := batchEntries b docNextId with hentries
  have hpostings : batchPostings b docNextId = ((entries.map (·.1)).dedup.insertionSort (· ≤ ·)).map fun locId =>
      (locId, (entries.filter fun e => e.1 = locId).map (·.2)) := rfl
  have hnodup : ((entries.map (·.1)).dedup.insertionSort (· ≤ ·)).Nodup :=
    (List.perm_insertionSort _ _).nodup_iff.mpr (List.nodup_dedup _)
  rw [filedUnder, hpostings, List.filter_map, List.flatMap_map]
  show List.flatMap _ (List.filter (fun locId => decide (locId = k)) _) = _
  rw [List.filter_eq k]
  by_cases hk : k ∈ (entries.map (·.1)).dedup.insertionSort (· ≤ ·)
  · rw [List.count_eq_one_of_mem hnodup hk, List.replicate_one, List.flatMap_singleton]
  · have hnone : entries.filter (fun e => e.1 = k) = [] := by
      rw [List.filter_eq_nil_iff]
      intro e he hek
      apply hk
      rw [List.mem_insertionSort, List.mem_dedup]
      exact List.mem_map.mpr ⟨e, he, by simpa using hek⟩
    rw [List.count_eq_zero_of_not_mem hk, hnone]
    rfl

/-- One more document's appends. -/
theorem batchEntries_next [Scalar S] (b : Batch F S) (x : Pattern F) (docNextId : ℕ) :
    batchEntries (b.next x) docNextId = batchEntries b docNextId ++
      (activatedIds (b.inner.adapt x b.rng).inner (b.inner.adapt x b.rng).result).map fun locId =>
        (locId, docNextId + b.writes.length) := by
  show (b.writes ++ [b.inner.adapt x b.rng]).zipIdx.flatMap _ = _
  rw [List.zipIdx_append, List.flatMap_append]
  simp [batchEntries]

/-- **What one more write files** after a batch is what the longer batch files. -/
theorem postings_next [Scalar S] (b : Batch F S) (x : Pattern F) (docNextId collectionId : ℕ)
    (t : OrderedTable (Scoped ℕ ℕ) (List ℕ)) :
    ((activatedIds (b.inner.adapt x b.rng).inner (b.inner.adapt x b.rng).result).map fun locId =>
        (locId, [docNextId + b.writes.length])).foldl (postTo collectionId)
        ((batchPostings b docNextId).foldl (postTo collectionId) t) =
      (batchPostings (b.next x) docNextId).foldl (postTo collectionId) t := by
  rw [← List.foldl_append]
  apply foldl_postTo_congr
  intro k
  rw [filedUnder_append, filedUnder_batchPostings, filedUnder_batchPostings, batchEntries_next, List.filter_append,
    List.map_append]
  congr 1
  generalize activatedIds (b.inner.adapt x b.rng).inner (b.inner.adapt x b.rng).result = ids
  unfold filedUnder
  induction ids with
  | nil => rfl
  | cons locId ids ih =>
    rw [List.map_cons, List.map_cons, List.filter_cons, List.filter_cons]
    split_ifs with hloc
    · rw [List.flatMap_cons, List.map_cons, ih]
      rfl
    · exact ih

/-! ### Documents and counters stored -/

/-- The documents of a batch, by id. -/
def batchDocuments (s : Session F S) (items : List (List F × List UInt8)) (writes : List (Adapted F S)) :
    List (ℕ × DocumentRecord F) :=
  (items.zip writes).zipIdx.map fun p => (s.collection.inner.docNextId + p.2,
    documentRecord s.store.precision s.collection.inner.config p.1.2.result p.1.1.1 p.1.1.2)

theorem batchDocuments_snoc (s : Session F S) {items : List (List F × List UInt8)} {writes : List (Adapted F S)}
    (hlen : items.length = writes.length) (item : List F × List UInt8) (a : Adapted F S) :
    batchDocuments s (items ++ [item]) (writes ++ [a]) = batchDocuments s items writes ++
      [(s.collection.inner.docNextId + items.length,
        documentRecord s.store.precision s.collection.inner.config a.result item.1 item.2)] := by
  unfold batchDocuments
  rw [List.zip_append hlen, List.zipIdx_append, List.map_append]
  simp [hlen]

omit [Scalar F] [Narrow F S] in
/-- Counters stored over the same counters. -/
theorem putAll_counters (collectionId : ℕ) (a b : EAMInner F S) (t : OrderedTable (Scoped ℕ String) (Metadatum F)) :
    (t.putAll ((documentCounters a).map fun kv => (⟨collectionId, kv.1⟩, kv.2))).putAll
        ((documentCounters b).map fun kv => (⟨collectionId, kv.1⟩, kv.2)) =
      t.putAll ((documentCounters b).map fun kv => (⟨collectionId, kv.1⟩, kv.2)) := by
  have hkeys : ∀ c : EAMInner F S,
      ((documentCounters c).map fun kv => ((⟨collectionId, kv.1⟩ : Scoped ℕ String), kv.2)).map
      (·.1) = [⟨collectionId, "next_id"⟩, ⟨collectionId, "eta"⟩, ⟨collectionId, "doc_next_id"⟩] := fun _ => rfl
  have hnodup : ((documentCounters b).map (·.1)).Nodup := by simp [documentCounters, counters]
  apply OrderedTable.ext_get
  intro k
  by_cases hk : k ∈ ((documentCounters b).map fun kv => ((⟨collectionId, kv.1⟩ : Scoped ℕ String), kv.2)).map (·.1)
  · obtain ⟨p, hp, rfl⟩ := List.mem_map.mp hk
    have hone : ∀ w, (p.1, w) ∈ ((documentCounters b).map fun kv => ((⟨collectionId, kv.1⟩ : Scoped ℕ String), kv.2)) →
        w = p.2 := by
      intro w hw
      obtain ⟨kv, hkv, rfl⟩ := List.mem_map.mp hp
      obtain ⟨kv', hkv', heq⟩ := List.mem_map.mp hw
      obtain ⟨hkey, rfl⟩ := Prod.mk.inj heq
      have hsame : kv'.1 = kv.1 := by simpa using hkey
      rw [List.inj_on_of_nodup_map hnodup hkv' hkv hsame]
    rw [OrderedTable.get_putAll _ hp hone, OrderedTable.get_putAll _ hp hone]
  · rw [OrderedTable.get_putAll_of_notMem _ hk, OrderedTable.get_putAll_of_notMem _ hk,
      OrderedTable.get_putAll_of_notMem _ (by rwa [hkeys, ← hkeys b])]

/-! ### The simulation -/

/-- The memory is valid, with distinct ids below the next one, and vectors of
its dimension. -/
structure Session.Ordered (s : Session F S) : Prop where
  valid : s.collection.inner.valid = true
  nodup : (s.collection.inner.locations.map (·.id)).Nodup
  fresh : ∀ loc ∈ s.collection.inner.locations, loc.id < s.collection.inner.nextId
  shaped : Shaped s.collection.inner.config.d s.collection.inner.locations

omit [Narrow F S] in
/-- Memory and store that agree are in order. -/
theorem Agrees.ordered {s : Session F S} (h : Agrees s) : s.Ordered := ⟨h.valid, h.nodup, h.fresh, h.shaped⟩

omit [Scalar F] in
/-- So is every memory a life reaches. -/
theorem Distinct.ordered {s : Session F S} (h : Distinct s.store s.collection.collectionId s.collection.inner) :
    s.Ordered := ⟨h.valid, h.nodup, h.fresh, h.shaped⟩

variable [Scalar S]

/-- The patterns of documents. -/
abbrev patternsOf (items : List (List F × List UInt8)) : List (Pattern F) := items.map fun item => .single item.1

/-- The session after one document more. -/
def Session.wroteDocument (s : Session F S) (item : List F × List UInt8) : Session F S :=
  s.wrote [.single item.1] 1 (documentPuts s item.1 item.2)

/-- The writes of a batch, before its documents are counted. -/
def Session.batched (s : Session F S) (items : List (List F × List UInt8)) : Batch F S :=
  s.collection.inner.bumpVersion.batch (patternsOf items) s.rng

/-- `t` is what the documents leave of `s`, one by one or as a batch, but for
the version. -/
structure Simulates (s : Session F S) (items : List (List F × List UInt8)) (version : ℕ) (t : Session F S) : Prop where
  collectionId : t.collection.collectionId = s.collection.collectionId
  name : t.collection.name = s.collection.name
  inner : t.collection.inner =
    (s.batched items).inner.counted version (s.collection.inner.docNextId + items.length)
  rng : t.rng = (s.batched items).rng
  precision : t.store.precision = s.store.precision
  registry : t.store.registry = s.store.registry
  locations : t.store.locations = s.store.locations.putAll
    (((s.batched items).records s.collection.inner.locations.length).map
      (locationEntry s.store.precision s.collection.collectionId))
  documents : t.store.documents = s.store.documents.putAll
    ((batchDocuments s items (s.batched items).writes).map fun d => (⟨s.collection.collectionId, d.1⟩, d.2))
  docIndex : t.store.docIndex = (batchPostings (s.batched items) s.collection.inner.docNextId).foldl
    (postTo s.collection.collectionId) s.store.docIndex
  metadata : t.store.metadata =
    if items = [] then s.store.metadata
    else s.store.metadata.putAll ((documentCounters t.collection.inner).map fun kv =>
      (⟨s.collection.collectionId, kv.1⟩, kv.2))

theorem Session.batched_snoc (s : Session F S) (items : List (List F × List UInt8)) (item : List F × List UInt8) :
    s.batched (items ++ [item]) = (s.batched items).next (.single item.1) := by
  rw [Session.batched, patternsOf, List.map_append]
  exact batch_snoc _ _ _ _

/-- Nothing written is a batch of none. -/
theorem simulates_nil (s : Session F S) : Simulates s [] s.collection.inner.version s where
  collectionId := rfl
  name := rfl
  inner := rfl
  rng := rfl
  precision := rfl
  registry := rfl
  locations := by
    have htouched : (s.batched []).touched s.collection.inner.locations.length = [] := by
      apply List.eq_nil_iff_forall_not_mem.mpr
      intro i hi
      rcases mem_touched.mp hi with hi | hi
      · simp [Session.batched, EAMInner.batch, Batch.allModified] at hi
      · have hsame : (s.batched []).inner.locations = s.collection.inner.locations := rfl
        rw [hsame] at hi
        omega
    rw [Batch.records, htouched]
    rfl
  documents := rfl
  docIndex := rfl
  metadata := rfl

/-- **One document more** is a batch longer by one. -/
theorem simulates_snoc {s t : Session F S} (hs : s.Ordered) {items : List (List F × List UInt8)}
    (hfit : s.Fits (patternsOf items)) {v : ℕ} (h : Simulates s items v t) {item : List F × List UInt8}
    (hitem : item.1.length = s.collection.inner.config.d) :
    Simulates s (items ++ [item]) (v + 1) (t.wroteDocument item) := by
  have hgrown : Grown s.collection.inner.bumpVersion (s.batched items) :=
    batch_grown s.collection.inner.bumpVersion hs.shaped hfit s.rng
  have hnext := hgrown.step (x := .single item.1) ⟨hitem, hitem⟩
  have hlen : items.length = (s.batched items).writes.length := by
    rw [Session.batched, length_writes, List.length_map]
  have hdocNextId : t.collection.inner.docNextId = s.collection.inner.docNextId + items.length :=
    congrArg (·.docNextId) h.inner
  have hconfig : t.collection.inner.config = s.collection.inner.config :=
    (congrArg (·.config) h.inner).trans hgrown.config
  -- the adaptive write does not see the version nor the document counter
  set a := (s.batched items).inner.adapt (.single item.1) (s.batched items).rng with ha
  have hadapted : t.adapted (.single item.1) = { a with
      inner := a.inner.counted (v + 1) (s.collection.inner.docNextId + items.length) } := by
    rw [Session.adapted, h.inner, h.rng]
    rfl
  have hinner : (t.wroteDocument item).collection.inner =
      (s.batched (items ++ [item])).inner.counted (v + 1)
        (s.collection.inner.docNextId + (items ++ [item]).length) := by
    show EAMInner.countDocuments ((t.adapted (.single item.1)).inner.settle (t.adapted (.single item.1)).result) 1 = _
    rw [hadapted, settle_counted, s.batched_snoc, List.length_append]
    rfl
  have hstore : (t.wroteDocument item).store = _ :=
    putAll_eq t.collection.collectionId (documentPuts t item.1 item.2) t.store
  refine
    { collectionId := h.collectionId
      name := h.name
      inner := hinner
      rng := ?_
      precision := (congrArg Store.precision hstore).trans h.precision
      registry := (congrArg Store.registry hstore).trans h.registry
      locations := ?_
      documents := ?_
      docIndex := ?_
      metadata := ?_ }
  · show (t.adapted (.single item.1)).rng = _
    rw [hadapted, s.batched_snoc]
    rfl
  · have hputs : (documentPuts t item.1 item.2).locations = touchedLocations a.inner a.result := by
      show touchedLocations (t.adapted _).inner (t.adapted _).result = _
      rw [hadapted]
      rfl
    refine (congrArg Store.locations hstore).trans ?_
    dsimp only
    rw [hputs, h.collectionId, h.precision, h.locations, s.batched_snoc]
    exact records_next hgrown ⟨hitem, hitem⟩ (hnext.ids_ok hs.nodup hs.fresh).1 _ _ _
  · have hputs : (documentPuts t item.1 item.2).documents = [(s.collection.inner.docNextId + items.length,
        documentRecord s.store.precision s.collection.inner.config a.result item.1 item.2)] := by
      show [(t.collection.inner.docNextId,
        documentRecord t.store.precision t.collection.inner.config (t.adapted _).result item.1 item.2)] = _
      rw [hadapted, hdocNextId, h.precision, hconfig]
    have hwrites : (s.batched (items ++ [item])).writes = (s.batched items).writes ++ [a] := by
      rw [s.batched_snoc]
      rfl
    refine (congrArg Store.documents hstore).trans ?_
    dsimp only
    rw [hputs, h.collectionId, h.documents, hwrites, batchDocuments_snoc s hlen, List.map_append,
      OrderedTable.putAll_append]
  · have hputs : (documentPuts t item.1 item.2).postings = (activatedIds a.inner a.result).map fun locId =>
        (locId, [s.collection.inner.docNextId + (s.batched items).writes.length]) := by
      show (activatedIds (t.adapted _).inner (t.adapted _).result).map
        (fun locId => (locId, [t.collection.inner.docNextId])) = _
      rw [hadapted, hdocNextId, hlen]
      rfl
    refine (congrArg Store.docIndex hstore).trans ?_
    dsimp only
    rw [hputs, h.collectionId, h.docIndex, s.batched_snoc]
    exact postings_next _ _ _ _ _
  · have hputs : (documentPuts t item.1 item.2).metadata = documentCounters (t.wroteDocument item).collection.inner :=
      (documentCounters_written t (.single item.1) 1).symm
    refine (congrArg Store.metadata hstore).trans ?_
    dsimp only
    rw [if_neg (List.append_ne_nil_of_right_ne_nil _ (List.cons_ne_nil _ _)), hputs, h.collectionId, h.metadata]
    split_ifs
    · rfl
    · exact putAll_counters _ _ _ _

/-- The session after these documents, one by one. -/
def Session.wroteEach (s : Session F S) (items : List (List F × List UInt8)) : Session F S :=
  items.foldl Session.wroteDocument s

/-- The sequence of writes simulates the batch. -/
theorem simulates_wroteEach {s : Session F S} (hs : s.Ordered) {items : List (List F × List UInt8)}
    (hitems : ∀ item ∈ items, item.1.length = s.collection.inner.config.d) :
    Simulates s items (s.collection.inner.version + items.length) (s.wroteEach items) := by
  induction items using List.reverseRecOn with
  | nil => exact simulates_nil s
  | append_singleton items item ih =>
    have hold : ∀ it ∈ items, it.1.length = s.collection.inner.config.d := fun it hit =>
      hitems it (List.mem_append_left _ hit)
    have hfit : s.Fits (patternsOf items) := fun x hx => by
      obtain ⟨it, hit, rfl⟩ := List.mem_map.mp hx
      exact ⟨hold it hit, hold it hit⟩
    rw [Session.wroteEach, List.foldl_append, List.length_append, ← Nat.add_assoc]
    exact simulates_snoc hs hfit (ih hold) (hitems item (by simp))

/-- So does the batch. -/
theorem simulates_wroteBatch {s : Session F S} (hs : s.Ordered) {items : List (List F × List UInt8)} (hne : items ≠ [])
    (hfit : s.Fits (patternsOf items)) :
    Simulates s items (s.collection.inner.version + 1)
      (s.wrote (patternsOf items) items.length (documentBatchPuts s items)) := by
  have hgrown : Grown s.collection.inner.bumpVersion (s.batched items) :=
    batch_grown s.collection.inner.bumpVersion hs.shaped hfit s.rng
  have hstore : (s.wrote (patternsOf items) items.length (documentBatchPuts s items)).store = _ :=
    putAll_eq s.collection.collectionId (documentBatchPuts s items) s.store
  refine
    { collectionId := rfl
      name := rfl
      inner := ?_
      rng := rfl
      precision := (congrArg Store.precision hstore :)
      registry := (congrArg Store.registry hstore :)
      locations := (congrArg Store.locations hstore :)
      documents := (congrArg Store.documents hstore :).trans ?_
      docIndex := (congrArg Store.docIndex hstore :)
      metadata := (congrArg Store.metadata hstore :).trans ?_ }
  · show (s.batched items).inner.countDocuments items.length = _
    have hversion : (s.batched items).inner.version = s.collection.inner.version + 1 := hgrown.version
    have hdocNextId : (s.batched items).inner.docNextId = s.collection.inner.docNextId := hgrown.docNextId
    rw [← hversion, ← hdocNextId]
    rfl
  · have hconfig : (s.batched items).inner.config = s.collection.inner.config := hgrown.config
    have hputs : (documentBatchPuts s items).documents = batchDocuments s items (s.batched items).writes := by
      rw [batchDocuments, ← hconfig]
      rfl
    dsimp only
    rw [hputs]
  · rw [if_neg hne]
    rfl

/-- **What simulates the same batch** is the same but for the version. -/
theorem Simulates.same {s t t' : Session F S} {items : List (List F × List UInt8)} {v v' : ℕ}
    (h : Simulates s items v t)
    (h' : Simulates s items v' t') :
    t.store = t'.store ∧ t.rng = t'.rng ∧
      t.collection = { t'.collection with inner := { t'.collection.inner with version := v } } := by
  have hinner : t.collection.inner = { t'.collection.inner with version := v } := by
    rw [h.inner, h'.inner]
    rfl
  have hcounters : documentCounters t.collection.inner = documentCounters t'.collection.inner := by
    rw [hinner]
    rfl
  refine ⟨?_, h.rng.trans h'.rng.symm, ?_⟩
  · have hstore : ∀ a b : Store F, a.precision = b.precision → a.registry = b.registry → a.locations = b.locations →
        a.metadata = b.metadata → a.documents = b.documents → a.docIndex = b.docIndex → a = b := by
      rintro ⟨⟩ ⟨⟩ rfl rfl rfl rfl rfl rfl
      rfl
    apply hstore
    · exact h.precision.trans h'.precision.symm
    · exact h.registry.trans h'.registry.symm
    · exact h.locations.trans h'.locations.symm
    · rw [h.metadata, h'.metadata, hcounters]
    · exact h.documents.trans h'.documents.symm
    · exact h.docIndex.trans h'.docIndex.symm
  · have hcollection : ∀ a b : Collection F S, a.collectionId = b.collectionId → a.name = b.name → a.inner = b.inner →
        a = b := by
      rintro ⟨⟩ ⟨⟩ rfl rfl rfl
      rfl
    exact hcollection _ _ (h.collectionId.trans h'.collectionId.symm) (h.name.trans h'.name.symm) hinner

/-! ### Calls -/

/-- `write_with_metadata` on the items one after another. -/
def writeEach : List (List F × List UInt8) → Program HeatherError (Session F S) (List ℕ)
  | [] => pure []
  | item :: items => do
    let id ← writeWithMetadata item.1 item.2
    let ids ← writeEach items
    pure (id :: ids)

omit [Scalar F] in
theorem checkWrite_self {d : ℕ} {input : List F} (h : input.length = d) : checkWrite d input input = .ok () := by
  unfold checkWrite
  rw [if_neg (by simp [h])]

omit [Scalar S] in
theorem blames_persistPuts (p : Puts F) : Blames (persist (S := S) p) :=
  Blames.get_bind fun _ => blames_inTransaction fun _ => (blames_persist _ _ _).bind fun _ => Blames.pure _

/-- A write of a finite vector of the right dimension fails only with the
storage. -/
theorem writeWithMetadata_blames {s : Session F S} (hv : s.collection.inner.valid = true) {input : List F}
    (hfinite : validateVector input = .ok ()) (hd : input.length = s.collection.inner.config.d) (metadata : List UInt8)
    (fs : List (Option HeatherError)) : BlamesAt (writeWithMetadata input metadata) ⟨s, fs⟩ := by
  unfold writeWithMetadata
  rw [hfinite]
  change BlamesAt (pure () >>= _) _
  rw [pure_bind]
  apply atomicMutation_blamesAt hv
  rw [BlamesAt, get_bind]
  simp only [begin, checkWrite_self hd, ofExcept_ok_bind]
  refine Blames.bind (m := adaptOnce (.single input)) ?_ (fun result => ?_) _
  · exact (Blames.modify _).bind fun _ => Blames.get_bind fun _ => (Blames.modify _).bind fun _ =>
      (Blames.modify _).bind fun _ => Blames.pure _
  · refine (Blames.modify _).bind fun _ => Blames.get_bind fun m => (blames_persistPuts _).bind fun _ => ?_
    exact (Blames.modify _).bind fun _ => (Blames.modify _).bind fun _ => Blames.pure _

/-- So does a batch. -/
theorem writeBatchWithMetadata_blames {s : Session F S} (hv : s.collection.inner.valid = true)
    {items : List (List F × List UInt8)}
    (hitems : ∀ item ∈ items, validateVector item.1 = .ok () ∧ item.1.length = s.collection.inner.config.d)
    (fs : List (Option HeatherError)) : BlamesAt (writeBatchWithMetadata items) ⟨s, fs⟩ := by
  have hfinite : (items.forM fun item => validateVector item.1) = .ok () := forM_of_forall fun item hi =>
    (hitems item hi).1
  have hd : (items.forM fun item => checkWrite s.collection.inner.config.d item.1 item.1) = .ok () :=
    forM_of_forall fun item hi => checkWrite_self (hitems item hi).2
  unfold writeBatchWithMetadata
  rw [hfinite]
  change BlamesAt (pure () >>= _) _
  rw [pure_bind]
  apply atomicMutation_blamesAt hv
  rw [BlamesAt, get_bind]
  simp only [begin, hd, ofExcept_ok_bind]
  split_ifs
  · exact Blames.pure _ _
  · refine Blames.bind (m := adaptBatch (patternsOf items)) ?_ (fun b => ?_) _
    · exact (Blames.modify _).bind fun _ => Blames.get_bind fun _ => (Blames.modify _).bind fun _ =>
        (Blames.modify _).bind fun _ => Blames.pure _
    · refine (Blames.modify _).bind fun _ => Blames.get_bind fun m => (blames_persistPuts _).bind fun _ => ?_
      exact (Blames.modify _).bind fun _ => Blames.pure _

/-- One write without a storage error. -/
theorem writeWithMetadata_returns {s : Session F S} (hv : s.collection.inner.valid = true) {item : List F × List UInt8}
    (hitem : validateVector item.1 = .ok () ∧ item.1.length = s.collection.inner.config.d) :
    writeWithMetadata item.1 item.2 ⟨s, []⟩ = (.ok s.collection.inner.docNextId, ⟨s.wroteDocument item, []⟩) := by
  obtain ⟨a, t, hok⟩ := (writeWithMetadata_blames hv hitem.1 hitem.2 item.2 []).returns
  rcases writeWithMetadata_cases item.1 item.2 s [] with ⟨e, fs', t', herror, -⟩ | ⟨-, fs', hwrote⟩
  · rw [hok] at herror
    cases herror
  · rw [hok] at hwrote
    cases hwrote
    exact hok

/-- The sequence of writes without a storage error. -/
theorem writeEach_returns : ∀ {items : List (List F × List UInt8)} {s : Session F S}, s.Ordered →
    (∀ item ∈ items, validateVector item.1 = .ok () ∧ item.1.length = s.collection.inner.config.d) →
    writeEach items ⟨s, []⟩ =
      (.ok (List.range' s.collection.inner.docNextId items.length), ⟨s.wroteEach items, []⟩)
  | [], _, _, _ => rfl
  | item :: items, s, hs, hitems => by
    have hitem := hitems item List.mem_cons_self
    have hone : Simulates s [item] (s.collection.inner.version + 1) (s.wroteEach [item]) :=
      simulates_wroteEach hs (by simpa using hitem.2)
    have hgrown : Grown s.collection.inner.bumpVersion (s.batched [item]) :=
      batch_grown s.collection.inner.bumpVersion hs.shaped (fun x hx => by
        obtain rfl : x = .single item.1 := by simpa using hx
        exact ⟨hitem.2, hitem.2⟩) s.rng
    have hinner : (s.wroteDocument item).collection.inner = (s.batched [item]).inner.counted _ _ := hone.inner
    have hids := hgrown.ids_ok hs.nodup hs.fresh
    have hnext : (s.wroteDocument item).Ordered := by
      refine ⟨?_, ?_, ?_, ?_⟩
      · rw [hinner]
        exact hgrown.valid.trans hs.valid
      · rw [hinner]
        exact hids.1
      · rw [hinner]
        exact hids.2
      · rw [hinner]
        show Shaped (s.batched [item]).inner.config.d _
        rw [hgrown.config]
        exact hgrown.shaped
    have hd : (s.wroteDocument item).collection.inner.config.d = s.collection.inner.config.d := by
      rw [hinner]
      exact congrArg EAMConfig.d hgrown.config
    have hrest := writeEach_returns hnext fun it hit => by
      rw [hd]
      exact hitems it (List.mem_cons_of_mem _ hit)
    have hdocNextId : (s.wroteDocument item).collection.inner.docNextId = s.collection.inner.docNextId + 1 := by
      rw [hinner]
      rfl
    show (writeWithMetadata item.1 item.2 >>= _) _ = _
    rw [bind_of_ok (writeWithMetadata_returns hs.valid hitem), bind_of_ok hrest, hdocNextId]
    rfl

theorem writeBatchWithMetadata_returns {s : Session F S} (hs : s.Ordered) {items : List (List F × List UInt8)}
    (hitems : ∀ item ∈ items, validateVector item.1 = .ok () ∧ item.1.length = s.collection.inner.config.d) :
    ∃ t v, writeBatchWithMetadata items ⟨s, []⟩ =
      (.ok (List.range' s.collection.inner.docNextId items.length), ⟨t, []⟩) ∧ Simulates s items v t := by
  obtain ⟨a, t, hok⟩ := (writeBatchWithMetadata_blames hs.valid hitems []).returns
  rcases writeBatchWithMetadata_cases items s [] with
    ⟨e, fs', t', herror, -⟩ | ⟨rfl, hnone⟩ | ⟨hne, hfit, fs', hwrote⟩
  · rw [hok] at herror
    cases herror
  · exact ⟨s, _, hnone, simulates_nil s⟩
  · rw [hok] at hwrote
    cases hwrote
    exact ⟨_, _, hok, simulates_wroteBatch hs hne hfit⟩

/-- **A batch equals its sequence**: without a storage error, documents with
finite vectors of the right dimension get the same ids, and leave the same
store, the same generator and the same memory but for the version. -/
theorem batch_is_sequence {s : Session F S} (hs : s.Ordered) {items : List (List F × List UInt8)}
    (hitems : ∀ item ∈ items, validateVector item.1 = .ok () ∧ item.1.length = s.collection.inner.config.d) :
    ∃ batch each : Session F S,
      writeBatchWithMetadata items ⟨s, []⟩ =
        (.ok (List.range' s.collection.inner.docNextId items.length), ⟨batch, []⟩) ∧
      writeEach items ⟨s, []⟩ = (.ok (List.range' s.collection.inner.docNextId items.length), ⟨each, []⟩) ∧
      batch.store = each.store ∧ batch.rng = each.rng ∧
      batch.collection = { each.collection with
        inner := { each.collection.inner with version := batch.collection.inner.version } } := by
  obtain ⟨batch, v, hbatch, hsimulates⟩ := writeBatchWithMetadata_returns hs hitems
  obtain ⟨hstore, hrng, hcollection⟩ := hsimulates.same (simulates_wroteEach hs fun item hi => (hitems item hi).2)
  refine ⟨batch, _, hbatch, writeEach_returns hs hitems, hstore, hrng, ?_⟩
  have hversion : batch.collection.inner.version = v := congrArg (·.version) hsimulates.inner
  rw [hversion]
  exact hcollection

/-- Two documents, the second joining the location of the first. -/
theorem batch_is_sequence_joined : ∃ batch each : Session ℚ ℚ,
    writeBatchWithMetadata [([1], [7]), ([1], [8])] ⟨smallSession true, []⟩ = (.ok [0, 1], ⟨batch, []⟩) ∧
    writeEach [([1], [7]), ([1], [8])] ⟨smallSession true, []⟩ = (.ok [0, 1], ⟨each, []⟩) ∧
    batch.store = each.store ∧ batch.collection.inner.locations = each.collection.inner.locations := by
  have hitems : ∀ item ∈ [(([1] : List ℚ), ([7] : List UInt8)), ([1], [8])], validateVector item.1 = .ok () ∧
      item.1.length = (smallSession true).collection.inner.config.d := by
    intro item hitem
    have hcases : item = ([1], [7]) ∨ item = ([1], [8]) := by simpa using hitem
    rcases hcases with rfl | rfl
    · exact ⟨by decide +kernel, rfl⟩
    · exact ⟨by decide +kernel, rfl⟩
  obtain ⟨batch, each, hbatch, heach, hstore, -, hcollection⟩ :=
    batch_is_sequence (agrees_smallSession true).ordered hitems
  exact ⟨batch, each, hbatch, heach, hstore, congrArg (·.inner.locations) hcollection⟩

/-- A new collection over rationals with a value that is no number. -/
def nanSession : Session NanRat NanRat := .fresh 0 "c" nanConfig (fun _ => .rat 1) (.empty .f64)

/-- With a vector that is not finite in second place the batch writes nothing
and the sequence its first document. -/
theorem batch_not_finite : Agrees nanSession ∧
    (∀ item ∈ [(([.rat 1] : List NanRat), ([7] : List UInt8)), ([.nan], [8])],
      item.1.length = nanSession.collection.inner.config.d) ∧
    (writeBatchWithMetadata [([.rat 1], [7]), ([.nan], [8])] ⟨nanSession, []⟩).2.state.collection.inner.docNextId = 0 ∧
    (writeEach [([.rat 1], [7]), ([.nan], [8])] ⟨nanSession, []⟩).2.state.collection.inner.docNextId = 1 := by
  have hagrees : Agrees nanSession :=
    agrees_fresh "c" nanConfig (fun _ => .rat 1) rfl (fun _ => rfl) rfl
  exact ⟨hagrees, by simp [nanSession, Session.fresh, nanConfig, EAMInner.opened], by decide +kernel, by decide +kernel⟩

end HeatherDb
