/-
# The index of a memory

Beside its locations a memory keeps a lookup by id, the addresses as two
matrices, an upper bound on their norms and the landmarks of graph search.
Writes extend them in place, the other operations build them anew. In every
state that a life with distinct snapshots reaches they describe the locations
(`Consistent`).

The bound is a running `fmax`, which passes over what is not a number: so it
bounds the norms that are numbers (`AtLeast`). Nothing keeps a snapshot from
bringing an address with another norm.

Key definitions: `IEEEOrder`, `AtLeast`, `Measured`, `Consistent`.
Key theorems: `measured_effect`, `index_consistent`.
-/
import HeatherDb.Postings

namespace HeatherDb

open Scalar Narrow Program

/-! ### Numbers in order -/

/-- How IEEE's comparisons order numbers; what is not a number does not equal
itself and is below nothing. -/
class IEEEOrder (F : Type) [Scalar F] : Prop where
  le_self : ∀ {x : F}, eq x x = true → le x x = true
  num_of_le : ∀ {x y : F}, le x y = true → eq y y = true
  le_of_le_of_lt : ∀ {x y z : F}, le x y = true → lt y z = true → le x z = true
  le_of_not_lt : ∀ {x y : F}, eq x x = true → eq y y = true → lt x y = false → le y x = true

section Bound

variable {F : Type} [Scalar F]

/-- `x` is at most `m`, if it is a number. -/
def AtLeast (m x : F) : Prop := eq x x = true → le x m = true

variable [IEEEOrder F]

theorem AtLeast.fmax_left {m x : F} (h : AtLeast m x) (b : F) : AtLeast (fmax m b) x := by
  intro hx
  have hm := h hx
  unfold fmax
  split_ifs with hmax
  · rcases Bool.or_eq_true_iff.mp hmax with hlt | hnan
    · exact IEEEOrder.le_of_le_of_lt hm hlt
    · rw [IEEEOrder.num_of_le hm] at hnan
      cases hnan
  · exact hm

theorem AtLeast.fmax_right (m x : F) : AtLeast (fmax m x) x := by
  intro hx
  unfold fmax
  split_ifs with hmax
  · exact IEEEOrder.le_self hx
  · rw [Bool.or_eq_true, not_or] at hmax
    have hm : eq m m = true := by simpa using hmax.2
    exact IEEEOrder.le_of_not_lt hm hx (by simpa using hmax.1)

/-- A running maximum is at least what it started with and what it met. -/
theorem AtLeast.foldl_fmax {α : Type} {g : α → F} {x : F} : ∀ {l : List α} {m : F},
    AtLeast m x ∨ (∃ a ∈ l, g a = x) → AtLeast (l.foldl (fun m a => fmax m (g a)) m) x
  | [], m, h => by
    rcases h with h | ⟨a, ha, -⟩
    · exact h
    · cases ha
  | a :: l, m, h => by
    rw [List.foldl_cons]
    apply AtLeast.foldl_fmax
    rcases h with h | ⟨b, hb, hx⟩
    · exact Or.inl (h.fmax_left _)
    · rcases List.mem_cons.mp hb with rfl | hb
      · exact Or.inl (hx ▸ AtLeast.fmax_right m (g b))
      · exact Or.inr ⟨b, hb, hx⟩

end Bound

variable {F S : Type} [Scalar F] [Narrow F S]

/-! ### The bound and the landmarks -/

/-- The bound is at least every norm, and the landmarks are places. -/
structure Measured (inner : EAMInner F S) : Prop where
  norms : ∀ loc ∈ inner.locations, AtLeast inner.maxNorm (l2Norm loc.address)
  landmarks : ∀ i ∈ inner.landmarks, i < inner.locations.length

theorem selectLandmarks_lt (locations : List (HardLocation F)) (numLandmarks : ℕ) :
    ∀ i ∈ selectLandmarks locations numLandmarks, i < locations.length := by
  intro i hi
  unfold selectLandmarks at hi
  split_ifs at hi with hfew
  · exact List.mem_range.mp hi
  · obtain ⟨p, hp, rfl⟩ := List.mem_map.mp hi
    obtain ⟨q, hq, rfl⟩ := List.mem_map.mp (mem_sortBy.mp (List.mem_of_mem_take hp))
    have hlt := List.snd_lt_add_of_mem_zipIdx hq
    omega

theorem maxNorm_syncAddresses : ∀ (places : List ℕ) (inner : EAMInner F S), (inner.syncAddresses places).maxNorm =
    places.foldl (fun m i => fmax m (l2Norm (locationAt inner.locations i).address)) inner.maxNorm
  | [], _ => rfl
  | i :: places, inner => maxNorm_syncAddresses places (inner.syncAddress i)

theorem maxNorm_appendAddress : ∀ (news : List (HardLocation F)) (inner : EAMInner F S),
    (news.foldl EAMInner.appendAddress inner).maxNorm =
      news.foldl (fun m loc => fmax m (l2Norm loc.address)) inner.maxNorm
  | [], _ => rfl
  | loc :: news, inner => maxNorm_appendAddress news (inner.appendAddress loc)

theorem landmarks_syncAddresses : ∀ (places : List ℕ) (inner : EAMInner F S),
    (inner.syncAddresses places).landmarks = inner.landmarks
  | [], _ => rfl
  | i :: places, inner => landmarks_syncAddresses places (inner.syncAddress i)

theorem landmarks_appendAddress : ∀ (news : List (HardLocation F)) (inner : EAMInner F S),
    (news.foldl EAMInner.appendAddress inner).landmarks = inner.landmarks
  | [], _ => rfl
  | loc :: news, inner => landmarks_appendAddress news (inner.appendAddress loc)

namespace Measured

omit [Narrow F S] in
/-- Other landmarks are places as well. -/
theorem refreshLandmarks {inner : EAMInner F S} (h : Measured inner) : Measured inner.refreshLandmarks := by
  unfold EAMInner.refreshLandmarks
  dsimp only
  split_ifs
  · exact ⟨h.norms, selectLandmarks_lt _ _⟩
  · exact h

variable [IEEEOrder F]

theorem f32Rows_norms (locations : List (HardLocation F)) :
    ∀ loc ∈ locations, AtLeast (f32Rows (S := S) locations).2 (l2Norm loc.address) := fun loc hloc =>
  AtLeast.foldl_fmax (Or.inr ⟨loc, hloc, rfl⟩)

theorem opened (config : EAMConfig F) (locations : List (HardLocation F)) (nextId : ℕ) (eta : F) (docNextId : ℕ) :
    Measured (EAMInner.opened (S := S) config locations nextId eta docNextId) :=
  ⟨f32Rows_norms locations, selectLandmarks_lt _ _⟩

theorem rebuilt (inner : EAMInner F S) : Measured inner.rebuildGraphCache :=
  ⟨f32Rows_norms inner.locations, selectLandmarks_lt _ _⟩

omit [Narrow F S] [IEEEOrder F] in
/-- The version and the counters do not matter. -/
theorem congr {inner inner' : EAMInner F S} (h : Measured inner) (hl : inner'.locations = inner.locations)
    (hm : inner'.maxNorm = inner.maxNorm) (hk : inner'.landmarks = inner.landmarks) : Measured inner' := by
  refine ⟨?_, ?_⟩
  · rw [hl, hm]
    exact h.norms
  · rw [hk, hl]
    exact h.landmarks

/-- Edited locations whose norms were met. -/
theorem syncAddresses {inner : EAMInner F S} {before : List (HardLocation F)} {places : List ℕ}
    (hnorms : ∀ loc ∈ before, AtLeast inner.maxNorm (l2Norm loc.address))
    (hlandmarks : ∀ i ∈ inner.landmarks, i < before.length) (he : Edited places before inner.locations) :
    Measured (inner.syncAddresses places) := by
  have hlocations : (inner.syncAddresses places).locations = inner.locations :=
    (inner.sameState_syncAddresses places).locations
  refine ⟨fun loc hloc => ?_, ?_⟩
  · rw [hlocations] at hloc
    rw [maxNorm_syncAddresses]
    obtain ⟨i, hi⟩ := List.mem_iff_getElem?.mp hloc
    apply AtLeast.foldl_fmax
    by_cases hplace : i ∈ places
    · refine Or.inr ⟨i, hplace, ?_⟩
      rw [locationAt, List.getD_eq_getElem?_getD, hi, Option.getD_some]
    · rw [he.frame i hplace] at hi
      exact Or.inl (hnorms loc (List.mem_of_getElem? hi))
  · rw [landmarks_syncAddresses, hlocations, he.length]
    exact hlandmarks

/-- Created locations appended. -/
theorem appendLocations {inner : EAMInner F S} (h : Measured inner) (news : List (HardLocation F)) :
    Measured (inner.appendLocations news) := by
  unfold EAMInner.appendLocations
  split_ifs with hnews
  · exact h
  · set grown := EAMInner.extendIdLookup { inner with locations := inner.locations ++ news } inner.locations.length
      with hgrown
    have hdrop : grown.locations.drop inner.locations.length = news := List.drop_left
    show Measured (grown.appendAddresses inner.locations.length)
    unfold EAMInner.appendAddresses
    rw [hdrop]
    apply refreshLandmarks
    have hlocations : (news.foldl EAMInner.appendAddress grown).locations = inner.locations ++ news :=
      (EAMInner.sameState_foldl (f := EAMInner.appendAddress) (fun _ _ => ⟨rfl, rfl, rfl, rfl, rfl, rfl, rfl⟩) news
        grown).locations
    refine ⟨fun loc hloc => ?_, fun i hi => ?_⟩
    · rw [hlocations] at hloc
      rw [maxNorm_appendAddress]
      apply AtLeast.foldl_fmax
      rcases List.mem_append.mp hloc with hold | hnew
      · exact Or.inl (h.norms loc hold)
      · exact Or.inr ⟨loc, hnew, rfl⟩
    · rw [landmarks_appendAddress] at hi
      rw [hlocations, List.length_append]
      exact Nat.lt_add_right _ (h.landmarks i hi)

/-- **A write keeps the bound.** -/
theorem settle [Scalar S] {inner : EAMInner F S} (h : Measured inner) {x : Pattern F}
    (hd : Shaped inner.config.d inner.locations)
    (hx : x.address.length = inner.config.d ∧ x.counter.length = inner.config.d) (rng : Rng F) :
    Measured ((inner.adapt x rng).inner.settle (inner.adapt x rng).result) := by
  have hw := adapt_frame inner hd hx rng
  have hsynced : Measured ((inner.adapt x rng).inner.syncAddresses (inner.adapt x rng).result.modifiedIndices) :=
    syncAddresses h.norms h.landmarks hw.edited
  exact hsynced.appendLocations _

/-- A batch of writes keeps the bound. -/
theorem batch [Scalar S] {inner : EAMInner F S} (h : Measured inner) (hd : Shaped inner.config.d inner.locations)
    {xs : List (Pattern F)}
    (hx : ∀ x ∈ xs, x.address.length = inner.config.d ∧ x.counter.length = inner.config.d) (rng : Rng F) :
    Measured (inner.batch xs rng).inner :=
  batch_keeps h hd hx rng fun h hd hx rng => h.settle hd hx rng

/-- Memory read back was opened anew. -/
theorem recovered {s : Session F S} (h : s.Recoverable) {v : ℕ} {inner : EAMInner F S} (hr : Recovered s v inner) :
    Measured inner := by
  obtain ⟨loaded, hload⟩ := h.load s.collection.name
  unfold Recovered at hr
  rw [hload] at hr
  obtain ⟨locations, nextId, docNextId, eta, -, -, -, -, -, rfl⟩ := load_inv hload
  exact hr ▸ (opened _ locations nextId eta docNextId).congr rfl rfl rfl

theorem failed {s s' : Session F S} (h : Measured s.collection.inner) (hr : s.Recoverable) {v : ℕ}
    (hf : Failed v s s') : Measured s'.collection.inner := by
  cases hf with
  | unchanged => exact h
  | materialized => exact h
  | recovered rng hrec => exact recovered hr hrec
  | recoveredMaterialized rng hrec => exact recovered hr.materialized hrec

/-- Writes keep the bound. -/
theorem wrote [Scalar S] {s : Session F S} (h : Measured s.collection.inner)
    (hd : Shaped s.collection.inner.config.d s.collection.inner.locations) {xs : List (Pattern F)} (hfit : s.Fits xs)
    (n : ℕ) (p : Puts F) : Measured (s.wrote xs n p).collection.inner := by
  have hbumped : Measured s.collection.inner.bumpVersion := h.congr rfl rfl rfl
  exact (hbumped.batch hd hfit s.rng).congr rfl rfl rfl

end Measured

variable [Scalar S] [SeededUniform F] [IEEEOrder F]

/-- A call's whole effect keeps the bound and the landmarks. -/
theorem measured_effect {s : Session F S} (h : Measured s.collection.inner)
    (hd : Shaped s.collection.inner.config.d s.collection.inner.locations) {c : Call F} (hacc : c.Accepted s) :
    Measured (c.effect s).collection.inner := by
  cases c with
  | write input => exact h.wrote hd hacc 0 _
  | writeTwo address counter opts => exact h.wrote hd hacc 0 _
  | writeBatch inputs => exact h.wrote hd hacc 0 _
  | writeWithMetadata input metadata => exact h.wrote hd hacc 1 _
  | writeBatchWithMetadata items =>
    by_cases hemp : items = []
    · rw [Call.effect, if_pos hemp]
      exact h
    · rw [Call.effect, if_neg hemp]
      exact h.wrote hd hacc _ _
  | merge =>
    show Measured s.merged.collection.inner
    unfold Session.merged
    dsimp only
    split_ifs with hr
    · exact h.congr (knnMerge_idle hr) rfl rfl
    · exact .rebuilt _
  | compress kappa lambda =>
    show Measured (s.compressed kappa lambda).collection.inner
    unfold Session.compressed
    dsimp only
    split_ifs with hr
    · exact h
    · exact .rebuilt _
  | loadSnapshotChecked snapshot config expected => exact .rebuilt _
  | deleteDocument writeIndex => exact h

/-! ### Rows -/

/-- Row `i` of a matrix of equal rows. -/
theorem row_flatMap {α β : Type} {f : β → List α} {d : ℕ} : ∀ {rows : List β}, (∀ x ∈ rows, (f x).length = d) →
    ∀ {i : ℕ} {y : β}, rows[i]? = some y → ((rows.flatMap f).drop (i * d)).take d = f y
  | [], _, i, _, hi => by simp at hi
  | x :: rows, hd, 0, y, hi => by
    obtain rfl := Option.some.inj hi
    have hx := hd x List.mem_cons_self
    rw [Nat.zero_mul, List.drop_zero, List.flatMap_cons]
    exact List.take_left' hx
  | x :: rows, hd, i + 1, y, hi => by
    have hx := hd x List.mem_cons_self
    have hnext : (i + 1) * d = (f x).length + i * d := by rw [Nat.succ_mul, hx, Nat.add_comm]
    rw [List.flatMap_cons, hnext, List.drop_length_add_append]
    exact row_flatMap (fun z hz => hd z (List.mem_cons_of_mem _ hz)) hi

theorem length_flatMap_rows {α β : Type} {f : β → List α} {d : ℕ} {rows : List β} (hd : ∀ x ∈ rows, (f x).length = d) :
    (rows.flatMap f).length = rows.length * d := by
  rw [List.length_flatMap, List.map_congr_left hd, List.map_const', List.sum_replicate]
  rfl

/-- What a memory keeps beside its locations describes them. -/
structure Consistent (inner : EAMInner F S) : Prop where
  rows : ∀ i loc, inner.locations[i]? = some loc →
    (inner.addressMatrix.drop (i * inner.config.d)).take inner.config.d = loc.address
  rows32 : ∀ i loc, inner.locations[i]? = some loc →
    (inner.matrix32.drop (i * inner.config.d)).take inner.config.d = loc.address.map toF32
  sizes : inner.addressMatrix.length = inner.locations.length * inner.config.d ∧
    inner.matrix32.length = inner.locations.length * inner.config.d
  norms : ∀ loc ∈ inner.locations, AtLeast inner.maxNorm (l2Norm loc.address)
  lookup : ∀ id i : ℕ, inner.idLookup[id]? = some (some i) ↔ (inner.locations.map (·.id))[i]? = some id
  distinct : (inner.locations.map (·.id)).Nodup
  below : ∀ loc ∈ inner.locations, loc.id < inner.nextId
  landmarks : ∀ i ∈ inner.landmarks, i < inner.locations.length

omit [Scalar S] [SeededUniform F] [IEEEOrder F] in
/-- A memory in order with a bound is consistent. -/
theorem Distinct.consistent {store : Store F} {collectionId : ℕ} {inner : EAMInner F S}
    (h : Distinct store collectionId inner) (hm : Measured inner) : Consistent inner := by
  have hd : ∀ loc ∈ inner.locations, loc.address.length = inner.config.d := fun loc hloc => (h.shaped loc hloc).1
  have hd32 : ∀ loc ∈ inner.locations, (loc.address.map (toF32 : F → S)).length = inner.config.d := fun loc hloc =>
    (List.length_map _).trans (hd loc hloc)
  refine
    { rows := fun i loc hi => ?_
      rows32 := fun i loc hi => ?_
      sizes := ⟨?_, ?_⟩
      norms := hm.norms
      lookup := fun id i => ⟨h.arrays.looks.sound id i, fun hi => ?_⟩
      distinct := h.nodup
      below := h.fresh
      landmarks := hm.landmarks }
  · rw [h.arrays.matrix]
    exact row_flatMap hd hi
  · rw [h.arrays.matrix32]
    exact row_flatMap (f := fun loc => loc.address.map toF32) hd32 hi
  · rw [h.arrays.matrix]
    exact length_flatMap_rows hd
  · rw [h.arrays.matrix32]
    exact length_flatMap_rows hd32
  · -- the place the lookup names has the same id, so it is this place
    obtain ⟨j, hj⟩ := h.arrays.looks.complete id (List.mem_of_getElem? hi)
    have hplace := h.arrays.looks.sound id j hj
    obtain ⟨hlt, -⟩ := List.getElem?_eq_some_iff.mp hi
    obtain rfl : i = j := (List.getElem?_inj hlt h.nodup).mp (hi.trans hplace.symm)
    exact hj

/-! ### Every state -/

/-- The name's memory is in order with distinct ids and a bound. -/
structure Hive.Indexed (hive : Hive F S) (name : String) (collectionId : ℕ) : Prop where
  registered : hive.store.registry.get name = some collectionId
  memory : ∃ inner : EAMInner F S, HeatherDb.Distinct hive.store collectionId inner ∧ Measured inner ∧
    hive.Holds name collectionId inner

/-- **A life keeps the index.** -/
theorem indexedLife_step {name : String} {collectionId : ℕ} {hive hive' : Hive F S}
    (h : hive.Indexed name collectionId) {e : HiveEvent F} (hstep : DistinctLife name hive e hive') :
    hive'.Indexed name collectionId := by
  obtain ⟨hlife, hload⟩ := hstep
  obtain ⟨inner, hd, hm, hholds⟩ := h.memory
  obtain ⟨inner', hreg, hholds', hlived⟩ := life_cases h.registered hholds hlife
  refine ⟨hreg, inner', ?_, ?_, hholds'⟩
  · exact hd.lived hload hlived
  · cases hlived with
    | idle p he hstore => exact hm
    | loaded he hstore hload =>
      obtain ⟨locations, nextId, docNextId, eta, -, -, -, -, -, rfl⟩ := load_inv hload
      exact .opened _ locations nextId eta docNextId
    | new he hcache hempty hstore => exact .opened _ _ _ _ _
    | @called e _ s s' hs hstore hid hinner hstep hstore' =>
      subst hid hinner
      rw [← hstore] at hd
      obtain ⟨c, r⟩ := e
      rcases step_cases hstep with ⟨err, -, hf⟩ | ⟨hacc, rfl, rfl⟩
      · exact hm.failed hd.toRecoverable hf
      · exact measured_effect hm hd.shaped hacc

/-- **The index is consistent** in every state that a life with distinct
snapshots reaches. -/
theorem index_consistent {name : String} {collectionId : ℕ} {hive hive' : Hive F S}
    (hnone : hive.handles = []) (hcache : hive.collections.get name = none)
    (hreg : hive.store.registry.get name = some collectionId) (hnew : hive.store.Untouched collectionId)
    {es : List (HiveEvent F)} (hrun : Run (DistinctLife name) hive es hive') {h : ℕ} {s : Session F S}
    (hs : hive'.session h = some s) : Consistent s.collection.inner := by
  have hindexed : hive'.Indexed name collectionId := hrun.invariant (P := fun hive => hive.Indexed name collectionId)
    ⟨hreg, _, .untouched hive.config hnew, .opened _ _ _ _ _, .closed hnone hcache⟩ fun h hstep =>
      indexedLife_step h hstep
  obtain ⟨inner, hd, hm, hholds⟩ := hindexed.memory
  obtain ⟨-, -, -, -, -, rfl⟩ := hholds.session hs
  exact hd.consistent hm

instance : IEEEOrder ℚ where
  le_self _ := decide_eq_true (le_refl _)
  num_of_le _ := decide_eq_true rfl
  le_of_le_of_lt h h' := decide_eq_true ((of_decide_eq_true h).trans (of_decide_eq_true h').le)
  le_of_not_lt _ _ h := decide_eq_true (not_lt.mp (of_decide_eq_false h))

/-- Two equal addresses and an opposite one between them, one of a document,
and the equal ones merged. -/
theorem index_consistent_merged : ∃ s : Session ℚ ℚ,
    s.collection.inner.locations.map (fun loc => (loc.id, loc.address)) = [(0, [1]), (1, [-1])] ∧
      Consistent s.collection.inner := by
  let one := smallHive.created.calling (.write [1])
  let two := one.calling (.write [-1])
  let three := two.calling (.writeWithMetadata [1] [7])
  let hive := three.calling .merge
  have hcreate : DistinctLife "c" smallHive (.create "c" (.ok 0)) smallHive.created :=
    ⟨smallHive.life_create (by decide +kernel), trivial⟩
  have hfirst : DistinctLife "c" smallHive.created (smallHive.created.answer (.write [1])) one :=
    ⟨smallHive.created.life_call _ (by decide +kernel), trivial⟩
  have hsecond : DistinctLife "c" one (one.answer (.write [-1])) two :=
    ⟨one.life_call _ (by decide +kernel), trivial⟩
  have hthird : DistinctLife "c" two (two.answer (.writeWithMetadata [1] [7])) three :=
    ⟨two.life_call _ (by decide +kernel), trivial⟩
  have hmerge : DistinctLife "c" three (three.answer .merge) hive :=
    ⟨three.life_call _ (by decide +kernel), trivial⟩
  obtain ⟨s, hs⟩ : ∃ s, hive.session 0 = some s := Option.isSome_iff_exists.mp (by decide +kernel)
  have htwo : (hive.session 0).all fun s =>
      s.collection.inner.locations.map (fun loc => (loc.id, loc.address)) = [(0, [1]), (1, [-1])] := by decide +kernel
  rw [hs, Option.all_some, decide_eq_true_iff] at htwo
  have hrun := ((((Run.single hcreate).snoc hfirst).snoc hsecond).snoc hthird).snoc hmerge
  exact ⟨s, htwo, index_consistent rfl rfl rfl smallHive_untouched hrun hs⟩

/-! ### A norm that is no number -/

/-- A snapshot with an address that is not a number. -/
def nanSnapshot : Snapshot NanRat where
  locations := [.new 0 [.nan]]
  lengths := by simp [HardLocation.new]

/-- No bound is at least the norm of an address that a snapshot brought. -/
theorem index_nan_norm : ∃ es hive s loc, Run (DistinctLife "c")
    (⟨((Store.empty .f64).registered "c").2, nanConfig, fun _ => .rat 1, [], .empty⟩ : Hive NanRat NanRat) es hive ∧
    hive.session 0 = some s ∧ loc ∈ s.collection.inner.locations ∧
    le (l2Norm loc.address) s.collection.inner.maxNorm = false := by
  let start : Hive NanRat NanRat :=
    ⟨((Store.empty .f64).registered "c").2, nanConfig, fun _ => .rat 1, [], .empty⟩
  let created := (Hive.createCollection "c" ⟨start, []⟩).2.state
  have hcreate : DistinctLife "c" start (.create "c" (.ok 0)) created :=
    ⟨⟨rfl, [], .create (Prod.ext (by decide +kernel) rfl)⟩, trivial⟩
  let load : Call NanRat := .loadSnapshotChecked nanSnapshot nanConfig none
  obtain ⟨s, hs⟩ : ∃ s, created.session 0 = some s := Option.isSome_iff_exists.mp (by decide +kernel)
  have hall : (created.session 0).all fun s => (load.run ⟨s, []⟩).1.isOk &&
      ((created.withSession 0 (load.effect s)).session 0).any fun s' => s'.collection.inner.locations.any fun loc =>
        !le (l2Norm loc.address) s'.collection.inner.maxNorm := by decide +kernel
  rw [hs, Option.all_some, Bool.and_eq_true, Option.any_eq_true] at hall
  obtain ⟨hok, s', hs', hany⟩ := hall
  obtain ⟨loc, hloc, hnorm⟩ := List.any_eq_true.mp hany
  obtain ⟨-, plan, fs', hrun⟩ := step_of_isOk hok
  have hload : DistinctLife "c" created (.call 0 (load, .ok (load.reply s))) (created.withSession 0 (load.effect s)) :=
    ⟨⟨trivial, plan, .call hs (by simp) hrun⟩, List.nodup_singleton _⟩
  exact ⟨_, _, s', loc, (Run.single hcreate).snoc hload, hs', hloc, by simpa using hnorm⟩

end HeatherDb
