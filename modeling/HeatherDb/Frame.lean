/-
# What a call leaves alone

All collections share the tables of one store, under keys that begin with the
collection's id. Whatever a call does, and however it fails, the store it
leaves differs from the one it found under its own collection's id alone
(`step_within`).

Key definitions: `Store.OnlyUnder`, `Session.Within`.
Key theorems: `effect_within`, `step_within`.
-/
import HeatherDb.Runs
import HeatherDb.Stored

namespace HeatherDb

open Scalar Narrow Program OrderedTable

variable {F S : Type} [Narrow F S]

/-- The stores differ under one collection's id alone. -/
structure Store.OnlyUnder (collectionId : ℕ) (a b : Store F) : Prop where
  precision : b.precision = a.precision
  registry : b.registry = a.registry
  locations : SameOutside collectionId a.locations b.locations
  metadata : SameOutside collectionId a.metadata b.metadata
  documents : SameOutside collectionId a.documents b.documents
  docIndex : SameOutside collectionId a.docIndex b.docIndex

namespace Store

variable {collectionId : ℕ} {a b c : Store F}

namespace OnlyUnder

theorem refl (a : Store F) : OnlyUnder collectionId a a := ⟨rfl, rfl, .refl _, .refl _, .refl _, .refl _⟩

theorem trans (h : OnlyUnder collectionId a b) (h' : OnlyUnder collectionId b c) : OnlyUnder collectionId a c :=
  ⟨h'.precision.trans h.precision, h'.registry.trans h.registry, h.locations.trans h'.locations,
    h.metadata.trans h'.metadata, h.documents.trans h'.documents, h.docIndex.trans h'.docIndex⟩

/-- Another collection's records are what they were. -/
theorem untouched (h : OnlyUnder collectionId a b) {other : ℕ} (hne : other ≠ collectionId)
    (hu : a.Untouched other) : b.Untouched other where
  locations id := by
    have hget := h.locations ⟨other, id⟩ hne
    rw [locationAt?, hget]
    exact hu.locations id
  documents id := (h.documents ⟨other, id⟩ hne).trans (hu.documents id)
  metadata key := (h.metadata ⟨other, key⟩ hne).trans (hu.metadata key)
  postings id := (h.docIndex ⟨other, id⟩ hne).trans (hu.postings id)

end OnlyUnder

theorem sameOutside_postTo (t : OrderedTable (Scoped ℕ ℕ) (List ℕ)) (e : ℕ × List ℕ) :
    SameOutside collectionId t (postTo collectionId t e) := by
  unfold postTo
  split_ifs
  · exact .refl _
  · exact .put _ _ _

theorem sameOutside_moveList (t : OrderedTable (Scoped ℕ ℕ) (List ℕ)) (e : ℕ × ℕ) :
    SameOutside collectionId t (moveList collectionId t e) := by
  unfold moveList
  dsimp only
  split_ifs
  · exact .delete _ _
  · exact (SameOutside.put _ _ _).trans (.delete _ _)

theorem sameOutside_absorbList (parent : List (ℕ × ℕ)) (t : OrderedTable (Scoped ℕ ℕ) (List ℕ)) (removed : ℕ) :
    SameOutside collectionId t (absorbList collectionId parent t removed) := by
  unfold absorbList
  split
  · exact .refl _
  · exact sameOutside_moveList _ _

theorem sameOutside_dropList (writeIndex : ℕ) (t : OrderedTable (Scoped ℕ ℕ) (List ℕ)) (e : ℕ × List ℕ) :
    SameOutside collectionId t (dropList collectionId writeIndex t e) := by
  unfold dropList
  dsimp only
  split_ifs
  · exact .delete _ _
  · exact .put _ _ _

/-! ### Effects on the store -/

theorem putAll_onlyUnder [Scalar F] (p : Puts F)
    (s : Store F) : OnlyUnder collectionId s (s.putAll collectionId p) := by
  rw [putAll_eq]
  exact ⟨rfl, rfl, .putAll (by intro; rfl) _ _,
    .putAll (by intro; rfl) _ _, .putAll (by intro; rfl) _ _, .foldl (fun t e => sameOutside_postTo t e) _ _⟩

theorem materialize_onlyUnder (s : Store F) (inner : EAMInner F S) :
    OnlyUnder collectionId s (s.materialize collectionId inner) := by
  rw [materialize_eq]
  exact ⟨rfl, rfl, .refl _, .refl _, .putAll (by intro; rfl) _ _, .refl _⟩

theorem mergedInto_onlyUnder (s : Store F) (result : MergeResult) :
    OnlyUnder collectionId s (s.mergedInto collectionId result) := by
  rw [mergedInto_eq]
  exact ⟨rfl, rfl, .deleteAll _ _, .refl _, .refl _, .foldl (fun t e => sameOutside_moveList t e) _ _⟩

theorem compressedInto_onlyUnder [Scalar F] (s : Store F) (left : List (HardLocation F)) (parent : List (ℕ × ℕ)) :
    OnlyUnder collectionId s (s.compressedInto collectionId left parent) := by
  rw [compressedInto_eq]
  exact ⟨rfl, rfl,
    (SameOutside.deleteAll _ _).trans (.putAll (by intro; rfl) _ _),
    .refl _, .refl _, .foldl (fun t e => sameOutside_absorbList parent t e) _ _⟩

theorem replacedBy_onlyUnder [Scalar F] (s : Store F) (old : List (HardLocation F)) (locations : List (HardLocation F))
    (config : EAMConfig F) : OnlyUnder collectionId s (s.replacedBy collectionId old locations config) := by
  rw [replacedBy_eq]
  exact ⟨rfl, rfl,
    (SameOutside.deleteAll _ _).trans (.putAll (by intro; rfl) _ _),
    .putAll (by intro; rfl) _ _, .refl _, .refl _⟩

theorem withoutDocument_onlyUnder (writeIndex : ℕ) (s : Store F) :
    OnlyUnder collectionId s (s.withoutDocument collectionId writeIndex) := by
  rw [withoutDocument_eq]
  exact ⟨rfl, rfl, .refl _, .refl _, .delete _ _, .foldl (fun t e => sameOutside_dropList writeIndex t e) _ _⟩

end Store

open Store

/-! ### Calls -/

variable [Scalar F]

/-- What a session's call left of the other collections and of its own id. -/
structure Session.Within (s s' : Session F S) : Prop where
  collectionId : s'.collection.collectionId = s.collection.collectionId
  store : OnlyUnder s.collection.collectionId s.store s'.store

theorem Failed.within {v : ℕ} {s s' : Session F S} (h : Failed v s s') : s.Within s' := by
  cases h with
  | unchanged => exact ⟨rfl, .refl _⟩
  | materialized => exact ⟨rfl, materialize_onlyUnder _ _⟩
  | recovered rng hr => exact ⟨rfl, .refl _⟩
  | recoveredMaterialized rng hr => exact ⟨rfl, materialize_onlyUnder _ _⟩

variable [Scalar S] [SeededUniform F]

/-- **A call's effect stays under its collection's id.** -/
theorem effect_within (s : Session F S) (c : Call F) : s.Within (c.effect s) := by
  have hm : OnlyUnder s.collection.collectionId s.store s.materialized.store := materialize_onlyUnder _ _
  cases c with
  | writeBatchWithMetadata items =>
    by_cases hemp : items = []
    · rw [Call.effect, if_pos hemp]
      exact ⟨rfl, .refl _⟩
    · rw [Call.effect, if_neg hemp]
      exact ⟨rfl, putAll_onlyUnder _ _⟩
  | merge =>
    show s.Within s.merged
    unfold Session.merged
    dsimp only
    split_ifs
    · exact ⟨rfl, hm⟩
    · exact ⟨rfl, hm.trans (mergedInto_onlyUnder _ _)⟩
  | compress kappa lambda =>
    show s.Within (s.compressed kappa lambda)
    unfold Session.compressed
    dsimp only
    split_ifs
    · exact ⟨rfl, hm⟩
    · exact ⟨rfl, hm.trans (compressedInto_onlyUnder _ _ _)⟩
  | loadSnapshotChecked snapshot config expected => exact ⟨rfl, hm.trans (replacedBy_onlyUnder _ _ _ _)⟩
  | deleteDocument writeIndex => exact ⟨rfl, withoutDocument_onlyUnder _ _⟩
  | _ => exact ⟨rfl, putAll_onlyUnder _ _⟩

/-- **A call stays under its collection's id**, also when it fails. -/
theorem step_within {s s' : Session F S} {e : Event F} (h : Step s e s') : s.Within s' := by
  obtain ⟨c, r⟩ := e
  rcases step_cases h with ⟨e, -, hf⟩ | ⟨-, -, rfl⟩
  · exact hf.within
  · exact effect_within s c

end HeatherDb
