/-
# A failed call changes nothing

Where memory and store agree, a call that returned an error left both as they
were. The memory was either not touched or read back from the store, in the
order of the keys; the store either was not written or has its documents
stored inline, which resolve as before.

Key definition: `Restored`.
Key theorem: `failed_call_restores`.
-/
import HeatherDb.Arrays
import HeatherDb.Durability

namespace HeatherDb

open Scalar Narrow Program

variable {F S : Type} [Scalar F]

/-- A document as a reader resolves it. -/
def Session.resolved (s : Session F S) (id : ℕ) : Option (Except HeatherError (List F × List UInt8)) :=
  (s.store.getDocument s.collection.collectionId id).map (resolveDocument s.collection.inner)

/-- What a failed call leaves: memory up to the order of its locations, its
arrays in step with it, and the store as every reader sees it. -/
structure Restored [Narrow F S] (s s' : Session F S) : Prop where
  valid : s'.collection.inner.valid = s.collection.inner.valid
  config : s'.collection.inner.config = s.collection.inner.config
  memory : SameMemory SameLocation s'.collection.inner s.collection.inner
  lookup : ∀ id, s'.collection.inner.locationAddress id = s.collection.inner.locationAddress id
  arrays : Indexed s'.collection.inner
  locations : s'.store.locations = s.store.locations
  counters : s'.store.metadata = s.store.metadata
  postings : s'.store.docIndex = s.store.docIndex
  documents : ∀ id, s'.resolved id = s.resolved id

/-! ### The same memory -/

theorem sameMemory_refl {a : EAMInner F S} (hn : (a.locations.map (·.id)).Nodup) : SameMemory SameLocation a a where
  ids := List.Perm.refl _
  locations x hx y hy hxy := by
    obtain rfl := List.inj_on_of_nodup_map hn hx hy hxy
    exact .refl x
  nextId := rfl
  eta := rfl
  docNextId := rfl

/-- The same memories find the same addresses. -/
theorem locationAddress_congr {a b : EAMInner F S} (ha : Looks a.locations a.idLookup)
    (hb : Looks b.locations b.idLookup) (hn : (b.locations.map (·.id)).Nodup)
    (h : SameMemory SameLocation a b) (id : ℕ) : a.locationAddress id = b.locationAddress id := by
  have hna : (a.locations.map (·.id)).Nodup := h.ids.nodup_iff.mpr hn
  by_cases hmem : id ∈ b.locations.map (·.id)
  · obtain ⟨x, hx, hxid⟩ := List.mem_map.mp (h.ids.mem_iff.mpr hmem)
    obtain ⟨y, hy, hyid⟩ := List.mem_map.mp hmem
    have hfound := locationAddress_of_mem ha hna hx
    have hfound' := locationAddress_of_mem hb hn hy
    have hsame := h.locations x hx y hy (hxid.trans hyid.symm)
    rw [← hxid, hfound, hsame.address, ← hfound', hxid, hyid]
  · have hnone : ∀ m : EAMInner F S, id ∉ m.locations.map (·.id) → m.locationAddress id = none := by
      intro m hm
      cases hfound : m.locationAddress id with
      | none => rfl
      | some v =>
        obtain ⟨loc, hloc, rfl, -⟩ := mem_of_locationAddress hfound
        exact absurd (List.mem_map_of_mem hloc) hm
    rw [hnone b hmem, hnone a fun hin => hmem (h.ids.mem_iff.mp hin)]

omit [Scalar F] in
/-- Memories that find the same addresses resolve the same documents. -/
theorem resolveDocument_congr {a b : EAMInner F S} (h : ∀ id, a.locationAddress id = b.locationAddress id)
    (r : DocumentRecord F) : resolveDocument a r = resolveDocument b r := by
  cases r with
  | document vector metadata => rfl
  | damaged message => rfl
  | reference location metadata => rw [resolveDocument_reference, resolveDocument_reference, h location]

variable [Narrow F S]

omit [Scalar F] in
/-- A document stored inline resolves as its reference did. -/
theorem resolveDocument_inlined (inner : EAMInner F S) (id : ℕ) (r : DocumentRecord F) :
    resolveDocument inner (Store.inlined .f64 inner id r) = resolveDocument inner r := by
  cases r with
  | document vector metadata => rfl
  | damaged message => rfl
  | reference location metadata =>
    show resolveDocument inner (((Option.map _ (inner.locationAddress location)).map _).getD _) = _
    cases hfound : inner.locationAddress location with
    | none => rfl
    | some v =>
      rw [resolveDocument_reference, hfound]
      rfl

omit [Scalar F] in
theorem resolved_materialized {s : Session F S} (hp : s.store.precision = .f64) (id : ℕ) :
    s.materialized.resolved id = s.resolved id := by
  have hget := Store.getDocument_materialize s.store s.collection.collectionId s.collection.inner id
  show Option.map _ ((s.store.materialize _ _).getDocument s.collection.collectionId _) = _
  rw [hget, Option.map_map, hp]
  refine congrFun (congrArg Option.map (funext fun r => ?_)) _
  exact resolveDocument_inlined s.collection.inner id r

/-! ### Failed calls -/

theorem restored_materialized {s : Session F S} (h : Agrees s) (hi : Indexed s.collection.inner) :
    Restored s s.materialized := by
  have hstore : s.materialized.store = _ := Store.materialize_eq _ _ _
  exact
    { valid := rfl
      config := rfl
      memory := sameMemory_refl h.nodup
      lookup := fun _ => rfl
      arrays := hi
      locations := (congrArg Store.locations hstore :)
      counters := (congrArg Store.metadata hstore :)
      postings := (congrArg Store.docIndex hstore :)
      documents := resolved_materialized h.f64 }

/-- Memory read back from the store it agrees with. -/
theorem restored_recovered {s : Session F S} (h : Agrees s) (hi : Indexed s.collection.inner) {v : ℕ}
    {inner : EAMInner F S} (hr : Recovered s v inner) (rng : Rng F) : Restored s (s.remember inner rng) := by
  obtain ⟨locations, hload, hperm, hsame⟩ := h.load
  unfold Recovered at hr
  rw [hload] at hr
  subst hr
  have hmemory : SameMemory SameLocation { EAMInner.opened (S := S) s.collection.inner.config locations
      s.collection.inner.nextId s.collection.inner.eta s.collection.inner.docNextId with version := v }
      s.collection.inner := ⟨hperm, hsame, rfl, rfl, rfl⟩
  have hlookup := locationAddress_congr (looks_buildIdLookup locations) hi.looks h.nodup hmemory
  exact
    { valid := h.valid.symm
      config := rfl
      memory := hmemory
      lookup := hlookup
      arrays := ⟨looks_buildIdLookup locations, rfl, rfl⟩
      locations := rfl
      counters := rfl
      postings := rfl
      documents := fun id => congrFun (congrArg Option.map (funext (resolveDocument_congr hlookup))) _ }

theorem Restored.trans {s t u : Session F S} (h : Restored s t) (h' : Restored t u)
    (hmem : SameMemory SameLocation u.collection.inner s.collection.inner) : Restored s u where
  valid := h'.valid.trans h.valid
  config := h'.config.trans h.config
  memory := hmem
  lookup id := (h'.lookup id).trans (h.lookup id)
  arrays := h'.arrays
  locations := h'.locations.trans h.locations
  counters := h'.counters.trans h.counters
  postings := h'.postings.trans h.postings
  documents id := (h'.documents id).trans (h.documents id)

variable [Scalar S] [SeededUniform F]

/-- **A failed call changes nothing.** Whichever of its storage steps failed, a
call that returned an error left memory, counters, arrays, postings and every
document as they were. -/
theorem failed_call_restores {s s' : Session F S} (h : Agrees s) (hi : Indexed s.collection.inner) {c : Call F}
    {e : HeatherError} (hstep : Step s (c, .error e) s') : Restored s s' := by
  have hm := agrees_materialized h
  have hrm := restored_materialized h hi
  rcases step_cases hstep with ⟨e', -, hfailed⟩ | ⟨-, hr, -⟩
  · cases hfailed with
    | unchanged =>
      exact ⟨rfl, rfl, sameMemory_refl h.nodup, fun _ => rfl, hi, rfl, rfl, rfl, fun _ => rfl⟩
    | materialized => exact hrm
    | recovered rng hrec => exact restored_recovered h hi hrec rng
    | recoveredMaterialized rng hrec =>
      have hback := restored_recovered hm hi hrec rng
      exact hrm.trans hback hback.memory
  · simp at hr

/-- A write whose commit fails. -/
theorem failed_call_restores_commit : ∃ e s', Step (smallSession true) (.write [1], .error e) s' ∧
    Restored (smallSession true) s' := by
  obtain ⟨e, s', hstep⟩ := exists_step_of_storage (s := smallSession true) (c := .write [1])
    [none, none, none, none, some "disk full"] (by decide +kernel)
  have hi := indexed_opened (S := ℚ) (smallConfig true) [] 0 (1 / 10) 0
  exact ⟨e, s', hstep, failed_call_restores (agrees_smallSession true) hi hstep⟩

end HeatherDb
