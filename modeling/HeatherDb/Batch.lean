/-
# What a batch of writes does to the memory

A batch is one adaptive write after another, each settled before the next
(`Batch.next`). Its frame (`Grown`): the locations there were keep their
places and ids, those no write reports as modified are unchanged, the created
ones follow under consecutive fresh ids, and an unmodified created location
is still as it was created.

A plain memory's batch changes no location at all and appends its patterns
verbatim (`batch_plain`).

Key definitions: `Grown`, `PlainGrown`.
Key theorems: `batch_grown`, `batch_keeps`, `batch_plain`.
-/
import Mathlib.Data.List.Dedup
import Mathlib.Data.List.Induction
import HeatherDb.Collection

namespace HeatherDb

open Scalar Narrow

variable {F S : Type} [Scalar F] [Narrow F S]

/-- The memory of a write after the arrays were settled. -/
theorem sameState_settle (inner : EAMInner F S) (result : WriteResult F) :
    SameState (inner.settle result) { inner with locations := inner.locations ++ result.newLocations } := by
  have h := inner.sameState_syncAddresses result.modifiedIndices
  refine (EAMInner.sameState_appendLocations _ _).trans ⟨h.valid, h.config, ?_, h.nextId, h.eta, h.docNextId, h.version⟩
  show (inner.syncAddresses result.modifiedIndices).locations ++ _ = _
  rw [h.locations]

/-- What the writes of a batch may have done to the memory they started from. -/
structure Grown (inner : EAMInner F S) (b : Batch F S) : Prop where
  valid : b.inner.valid = inner.valid
  config : b.inner.config = inner.config
  docNextId : b.inner.docNextId = inner.docNextId
  version : b.inner.version = inner.version
  next : inner.nextId ≤ b.inner.nextId
  ids : b.inner.locations.map (·.id) =
    inner.locations.map (·.id) ++ List.range' inner.nextId (b.inner.nextId - inner.nextId)
  createdIds : b.allNewLocs.map (·.id) = List.range' inner.nextId (b.inner.nextId - inner.nextId)
  shaped : Shaped inner.config.d b.inner.locations
  createdShaped : Shaped inner.config.d b.allNewLocs
  modified : ∀ i ∈ b.allModified, i < b.inner.locations.length
  kept : ∀ i, i < inner.locations.length → i ∉ b.allModified → b.inner.locations[i]? = inner.locations[i]?
  created : ∀ i loc, inner.locations.length ≤ i → i ∉ b.allModified → b.inner.locations[i]? = some loc →
    loc ∈ b.allNewLocs

omit [Scalar F] [Narrow F S] in
theorem Grown.refl {inner : EAMInner F S} (h : Shaped inner.config.d inner.locations) (rng : Rng F) :
    Grown inner ⟨inner, rng, []⟩ where
  valid := rfl
  config := rfl
  docNextId := rfl
  version := rfl
  next := le_refl _
  ids := by simp
  createdIds := by simp [Batch.allNewLocs]
  shaped := h
  createdShaped := by simp [Batch.allNewLocs, Shaped]
  modified := by simp [Batch.allModified]
  kept _ _ _ := rfl
  created i loc hi _ hloc := by
    have hlt : i < inner.locations.length := (List.getElem?_eq_some_iff.mp hloc).1
    omega

variable [Scalar S]

/-- One write's frame, on the memory. -/
theorem adapt_frame (inner : EAMInner F S) {x : Pattern F} (hd : Shaped inner.config.d inner.locations)
    (hx : x.address.length = inner.config.d ∧ x.counter.length = inner.config.d) (rng : Rng F) :
    WriteFrame inner.locations inner.nextId inner.config.d
      ⟨(inner.adapt x rng).result, (inner.adapt x rng).inner.locations, (inner.adapt x rng).inner.nextId,
        (inner.adapt x rng).rng⟩ :=
  adaptiveWriteTwo_frame _ _ _ _ _ _ _ _ _ hd hx.1 hx.2

theorem allModified_next (b : Batch F S) (x : Pattern F) (i : ℕ) :
    i ∈ (b.next x).allModified ↔ i ∈ b.allModified ∨ i ∈ (b.inner.adapt x b.rng).result.modifiedIndices := by
  simp [Batch.allModified, Batch.next, List.mem_dedup]

theorem allNewLocs_next (b : Batch F S) (x : Pattern F) :
    (b.next x).allNewLocs = b.allNewLocs ++ (b.inner.adapt x b.rng).result.newLocations := by
  simp [Batch.allNewLocs, Batch.next]

/-- **One more write keeps the frame.** -/
theorem Grown.step {inner : EAMInner F S} {b : Batch F S} (h : Grown inner b) {x : Pattern F}
    (hx : x.address.length = inner.config.d ∧ x.counter.length = inner.config.d) :
    Grown inner (b.next x) := by
  have hw := adapt_frame b.inner (x := x) (h.config ▸ h.shaped) (h.config ▸ hx) b.rng
  have hs := sameState_settle (b.inner.adapt x b.rng).inner (b.inner.adapt x b.rng).result
  have hcfg : (b.next x).inner.config = b.inner.config := hs.config
  have hlocs : (b.next x).inner.locations =
      (b.inner.adapt x b.rng).inner.locations ++ (b.inner.adapt x b.rng).result.newLocations := hs.locations
  have hnext : (b.next x).inner.nextId = (b.inner.adapt x b.rng).inner.nextId := hs.nextId
  have hlen : (b.inner.adapt x b.rng).inner.locations.length = b.inner.locations.length := hw.edited.length
  have hle := h.next
  have hmod : ∀ i, i ∈ (b.next x).allModified ↔ _ := allModified_next b x
  have hlen0 : inner.locations.length ≤ b.inner.locations.length := by
    have := congrArg List.length h.ids
    simp only [List.length_map, List.length_append, List.length_range'] at this
    omega
  -- the ids and the next id after the write's creations
  have hids : (b.next x).inner.locations.map (·.id) =
        inner.locations.map (·.id) ++ List.range' inner.nextId ((b.next x).inner.nextId - inner.nextId) ∧
      (b.next x).allNewLocs.map (·.id) =
        List.range' inner.nextId ((b.next x).inner.nextId - inner.nextId) ∧
      inner.nextId ≤ (b.next x).inner.nextId := by
    have hold : (b.inner.adapt x b.rng).inner.locations.map (·.id) = _ := hw.edited.ids.trans h.ids
    rw [hlocs, allNewLocs_next, hnext, List.map_append, List.map_append, hold, h.createdIds]
    rcases hw.created with ⟨hnew, hn⟩ | ⟨loc, hnew, hid, hn, -⟩
    · simp only at hnew hn
      rw [hnew, hn]
      simp [hle]
    · simp only at hnew hn hid
      rw [hnew, hn]
      have hsub : b.inner.nextId + 1 - inner.nextId = (b.inner.nextId - inner.nextId) + 1 := by omega
      have hlast : inner.nextId + (b.inner.nextId - inner.nextId) = b.inner.nextId := by omega
      rw [hsub, List.range'_1_concat, hlast]
      simp only [List.map_cons, List.map_nil, hid, List.append_assoc, true_and]
      omega
  have hshaped : Shaped inner.config.d (b.inner.adapt x b.rng).result.newLocations := by
    intro loc hloc
    rcases hw.created with ⟨hnew, -⟩ | ⟨loc', hnew, -, -, hsh⟩
    · simp only at hnew
      rw [hnew] at hloc
      simp at hloc
    · simp only at hnew
      rw [hnew, List.mem_singleton] at hloc
      subst hloc
      rw [← h.config]
      exact hsh
  refine ⟨hs.valid.trans h.valid, hcfg.trans h.config, hs.docNextId.trans h.docNextId,
    hs.version.trans h.version, hids.2.2, hids.1, hids.2.1, ?_, ?_, ?_, ?_, ?_⟩
  · rw [hlocs]
    intro loc hloc
    rcases List.mem_append.mp hloc with hloc | hloc
    · exact hw.edited.shaped h.shaped loc hloc
    · exact hshaped loc hloc
  · rw [allNewLocs_next]
    intro loc hloc
    exact (List.mem_append.mp hloc).elim (h.createdShaped loc) (hshaped loc)
  · intro i hi
    rw [hlocs, List.length_append, hlen]
    rcases (hmod i).mp hi with hi | hi
    · have := h.modified i hi
      omega
    · have : i < b.inner.locations.length := hw.valid i hi
      omega
  · intro i hi hni
    rw [hmod i, not_or] at hni
    rw [hlocs, List.getElem?_append_left (by omega)]
    exact (hw.edited.frame i hni.2).trans (h.kept i hi hni.1)
  · intro i loc hi hni hloc
    rw [hmod i, not_or] at hni
    rw [allNewLocs_next, List.mem_append]
    rw [hlocs] at hloc
    by_cases hlt : i < b.inner.locations.length
    · rw [List.getElem?_append_left (by omega)] at hloc
      have hloc : b.inner.locations[i]? = some loc := (hw.edited.frame i hni.2).symm.trans hloc
      exact Or.inl (h.created i loc hi hni.1 hloc)
    · rw [List.getElem?_append_right (by omega)] at hloc
      exact Or.inr (List.mem_of_getElem? hloc)

/-- **A batch grows the memory.** -/
theorem batch_grown (inner : EAMInner F S) (hd : Shaped inner.config.d inner.locations) {xs : List (Pattern F)}
    (hx : ∀ x ∈ xs, x.address.length = inner.config.d ∧ x.counter.length = inner.config.d) (rng : Rng F) :
    Grown inner (inner.batch xs rng) :=
  List.foldlRecOn xs Batch.next (Grown.refl hd rng) fun _ hb x hmem => hb.step (hx x hmem)

/-- What each write of a batch keeps, the batch keeps. -/
theorem batch_keeps {P : EAMInner F S → Prop} {inner : EAMInner F S} (h : P inner)
    (hd : Shaped inner.config.d inner.locations) {xs : List (Pattern F)}
    (hx : ∀ x ∈ xs, x.address.length = inner.config.d ∧ x.counter.length = inner.config.d) (rng : Rng F)
    (hstep : ∀ {inner' : EAMInner F S} {x : Pattern F}, P inner' → Shaped inner'.config.d inner'.locations →
      x.address.length = inner'.config.d ∧ x.counter.length = inner'.config.d →
        ∀ rng, P ((inner'.adapt x rng).inner.settle (inner'.adapt x rng).result)) : P (inner.batch xs rng).inner := by
  have hinv : Grown inner (inner.batch xs rng) ∧ P (inner.batch xs rng).inner :=
    List.foldlRecOn (motive := fun b => Grown inner b ∧ P b.inner) xs Batch.next ⟨Grown.refl hd rng, h⟩
      fun b hb x hmem => by
        have hxb := hx x hmem
        refine ⟨hb.1.step hxb, ?_⟩
        rw [← hb.1.config] at hxb
        exact hstep hb.2 (hb.1.config ▸ hb.1.shaped) hxb b.rng
  exact hinv.2

/-- A batch leaves the memory readable. -/
theorem batch_valid (inner : EAMInner F S) (xs : List (Pattern F)) (rng : Rng F) :
    (inner.batch xs rng).inner.valid = inner.valid :=
  List.foldlRecOn (motive := fun b : Batch F S => b.inner.valid = inner.valid) xs Batch.next rfl
    fun b hb x _ => (sameState_settle (b.inner.adapt x b.rng).inner (b.inner.adapt x b.rng).result).valid.trans hb

/-- A batch changes neither the configuration nor the version. -/
theorem batch_config (inner : EAMInner F S) (xs : List (Pattern F)) (rng : Rng F) :
    (inner.batch xs rng).inner.config = inner.config ∧
      (inner.batch xs rng).inner.version = inner.version := by
  refine List.foldlRecOn (motive := fun b : Batch F S =>
    b.inner.config = inner.config ∧ b.inner.version = inner.version) xs Batch.next ⟨rfl, rfl⟩ fun b hb x _ => ?_
  have hs := sameState_settle (b.inner.adapt x b.rng).inner (b.inner.adapt x b.rng).result
  exact ⟨hs.config.trans hb.1, hs.version.trans hb.2⟩

/-! ### Plain batches -/

theorem batch_snoc (inner : EAMInner F S) (xs : List (Pattern F)) (x : Pattern F) (rng : Rng F) :
    inner.batch (xs ++ [x]) rng = (inner.batch xs rng).next x := List.foldl_append

/-- One result for every pattern. -/
theorem length_writes (inner : EAMInner F S) (xs : List (Pattern F)) (rng : Rng F) :
    (inner.batch xs rng).writes.length = xs.length := by
  induction xs using List.reverseRecOn with
  | nil => rfl
  | append_singleton xs x ih =>
    rw [batch_snoc, List.length_append, ← ih]
    exact List.length_append

/-- What the writes of a plain memory's batch come out as. -/
structure PlainGrown (inner : EAMInner F S) (xs : List (Pattern F)) (b : Batch F S) : Prop where
  config : b.inner.config = inner.config
  next : b.inner.nextId = inner.nextId + xs.length
  locations : b.inner.locations = inner.locations ++ b.allNewLocs
  writes : b.writes.map (fun a => (a.result.modifiedIndices, a.result.newLocations)) =
    xs.zipIdx.map fun p => ([], [freshLocation (inner.nextId + p.2) p.1.address p.1.counter])

/-- **A plain batch appends its patterns verbatim.** -/
theorem batch_plain (inner : EAMInner F S) (hc : inner.config.competitive = false) (xs : List (Pattern F))
    (rng : Rng F) : PlainGrown inner xs (inner.batch xs rng) := by
  induction xs using List.reverseRecOn with
  | nil => exact ⟨rfl, rfl, by simp [EAMInner.batch, Batch.allNewLocs], rfl⟩
  | append_singleton xs x ih =>
    rw [batch_snoc]
    generalize inner.batch xs rng = b at ih
    have hs := sameState_settle (b.inner.adapt x b.rng).inner (b.inner.adapt x b.rng).result
    have hplainConfig : b.inner.config.competitive = false := ih.config ▸ hc
    have hplain := adaptiveWriteTwo_plain (S := S) x.address x.counter b.inner.locations hplainConfig b.inner.eta
        b.inner.nextId b.rng b.inner.writeScan x.opts
    have hnew : (b.inner.adapt x b.rng).result.newLocations = [freshLocation b.inner.nextId x.address x.counter] :=
      congrArg (fun w => w.result.newLocations) hplain
    have hmod : (b.inner.adapt x b.rng).result.modifiedIndices = [] :=
      congrArg (fun w => w.result.modifiedIndices) hplain
    have hlocs : (b.inner.adapt x b.rng).inner.locations = b.inner.locations :=
      congrArg (fun w => w.locations) hplain
    have hnext : (b.inner.adapt x b.rng).inner.nextId = b.inner.nextId + 1 :=
      congrArg (fun w => w.nextId) hplain
    refine ⟨hs.config.trans ih.config, ?_, ?_, ?_⟩
    · refine hs.nextId.trans (hnext.trans ?_)
      rw [ih.next, List.length_append, List.length_singleton, Nat.add_assoc]
    · refine hs.locations.trans ?_
      rw [hlocs, allNewLocs_next, ih.locations, List.append_assoc]
    · show (b.writes ++ [b.inner.adapt x b.rng]).map _ = _
      rw [List.map_append, ih.writes, List.zipIdx_append, List.map_append, List.map_singleton, hmod, hnew, ih.next]
      simp
omit [Scalar S] [Narrow F S] in
/-- The locations a plain batch creates, in order. -/
theorem PlainGrown.created {inner : EAMInner F S} {xs : List (Pattern F)} {b : Batch F S} (h : PlainGrown inner xs b) :
    b.allNewLocs = xs.zipIdx.map fun p => freshLocation (inner.nextId + p.2) p.1.address p.1.counter := by
  have hflat : b.allNewLocs =
      (b.writes.map fun a => (a.result.modifiedIndices, a.result.newLocations)).flatMap (·.2) := by
    rw [List.flatMap_map]
    rfl
  rw [hflat, h.writes, List.flatMap_map, List.map_eq_flatMap]

omit [Scalar S] [Narrow F S] in
/-- The location the `j`th write of a plain batch creates. -/
theorem PlainGrown.newLocations {inner : EAMInner F S} {xs : List (Pattern F)} {b : Batch F S}
    (h : PlainGrown inner xs b) {j : ℕ} {x : Pattern F} {a : Adapted F S} (hx : xs[j]? = some x)
    (ha : b.writes[j]? = some a) :
    a.result.newLocations = [freshLocation (inner.nextId + j) x.address x.counter] := by
  have hj := congrArg (·[j]?) h.writes
  simp only [List.getElem?_map, List.getElem?_zipIdx, hx, ha, Option.map_some, Option.some.injEq, Prod.mk.injEq,
    Nat.zero_add] at hj
  exact hj.2

end HeatherDb
