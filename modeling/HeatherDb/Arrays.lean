/-
# The arrays kept beside the locations

`Indexed`: the lookup names the places of the ids, and the two matrices hold
the addresses row by row. It holds of a memory whose arrays were built
(`indexed_opened`, `indexed_rebuildGraphCache`) and of one a write was settled
into (`Indexed.settle`): the rows of the moved locations are written over,
the created ones are appended.

Key definition: `Indexed`.
Key theorems: `Indexed.settle`, `locationAddress_eq`, `mem_of_locationAddress`.
-/
import HeatherDb.Batch

namespace HeatherDb

open Scalar Narrow

variable {F S : Type}

/-- The arrays that are read by index describe the locations. -/
structure Indexed [Narrow F S] (inner : EAMInner F S) : Prop where
  looks : Looks inner.locations inner.idLookup
  matrix : inner.addressMatrix = inner.locations.flatMap (·.address)
  matrix32 : inner.matrix32 = inner.locations.flatMap fun loc => loc.address.map toF32

theorem indexed_opened [Scalar F] [Narrow F S] (config : EAMConfig F) (locations : List (HardLocation F))
    (nextId : ℕ) (eta : F) (docNextId : ℕ) :
    Indexed (EAMInner.opened (S := S) config locations nextId eta docNextId) :=
  ⟨looks_buildIdLookup locations, rfl, rfl⟩

theorem indexed_rebuildGraphCache [Scalar F] [Narrow F S] (inner : EAMInner F S) : Indexed inner.rebuildGraphCache :=
  ⟨looks_buildIdLookup inner.locations, rfl, rfl⟩

/-! ### Addresses by id -/

/-- An address found is a location's. -/
theorem mem_of_locationAddress {inner : EAMInner F S} {id : ℕ} {address : List F}
    (h : inner.locationAddress id = some address) :
    ∃ loc ∈ inner.locations, loc.id = id ∧ loc.address = address := by
  unfold EAMInner.locationAddress at h
  obtain ⟨i, -, h⟩ := Option.bind_eq_some_iff.mp h
  obtain ⟨loc, hloc, h⟩ := Option.bind_eq_some_iff.mp h
  split_ifs at h with hid
  exact ⟨loc, List.mem_of_getElem? hloc, hid, Option.some.inj h⟩

/-- An id whose locations all have one address finds it. -/
theorem locationAddress_eq {inner : EAMInner F S} (h : Looks inner.locations inner.idLookup) {id : ℕ}
    {address : List F} (hmem : id ∈ inner.locations.map (·.id))
    (hall : ∀ loc ∈ inner.locations, loc.id = id → loc.address = address) :
    inner.locationAddress id = some address := by
  obtain ⟨i, hi⟩ := h.complete id hmem
  have hplace := h.sound id i hi
  rw [List.getElem?_map] at hplace
  obtain ⟨loc, hloc, hid⟩ := Option.map_eq_some_iff.mp hplace
  have haddr := hall loc (List.mem_of_getElem? hloc) hid
  simp [EAMInner.locationAddress, hi, hloc, hid, haddr]

/-- Under distinct ids a location's address is found under its id. -/
theorem locationAddress_of_mem {inner : EAMInner F S} (h : Looks inner.locations inner.idLookup)
    (hn : (inner.locations.map (·.id)).Nodup) {loc : HardLocation F} (hloc : loc ∈ inner.locations) :
    inner.locationAddress loc.id = some loc.address := by
  refine locationAddress_eq h (List.mem_map_of_mem hloc) fun other hother hid => ?_
  obtain rfl := List.inj_on_of_nodup_map hn hother hloc hid
  rfl

/-! ### Lookups extended -/

/-- The locations from `start` on entered into the lookup of those before. -/
theorem looks_extendIdLookup (inner : EAMInner F S) {old news : List (HardLocation F)}
    (h : Looks old inner.idLookup) (hlocs : inner.locations = old ++ news) :
    Looks (inner.extendIdLookup old.length).locations (inner.extendIdLookup old.length).idLookup := by
  have hdrop : inner.locations.zipIdx.drop old.length = news.zipIdx old.length := by
    rw [hlocs, List.zipIdx_append, List.drop_left' (by simp)]
    simp
  show Looks inner.locations (((inner.locations.zipIdx).drop old.length).foldl _ inner.idLookup)
  rw [hdrop, hlocs]
  refine Looks.foldl (P := fun _ => True) news (fun loc _ ls lookup hlook _ => ⟨?_, trivial⟩) h trivial
  refine (hlook.grow _).snoc ?_
  rw [List.length_append, List.length_replicate]
  show loc.id < lookup.length + (loc.id + 1 - lookup.length)
  omega

variable [Narrow F S]

/-- A lookup serves any locations with the same ids in the same places. -/
theorem Looks.congr {ls ls' : List (HardLocation F)} {lookup : List (Option ℕ)} (h : Looks ls lookup)
    (hids : ls'.map (·.id) = ls.map (·.id)) : Looks ls' lookup where
  sound id i hget := hids ▸ h.sound id i hget
  complete id hid := h.complete id (hids ▸ hid)

/-! ### Matrices -/

variable [Scalar F]

/-- A row written over in a matrix of equal rows. -/
theorem setRow_flatMap {α β : Type} {f : β → List α} {d : ℕ} : ∀ {rows : List β},
    (∀ x ∈ rows, (f x).length = d) → ∀ {i : ℕ} {y : β}, i < rows.length →
    setRow (rows.flatMap f) d i (f y) = (rows.set i y).flatMap f
  | [], _, i, _, hi => by simp at hi
  | x :: rows, hd, 0, y, _ => by
    have hx := hd x List.mem_cons_self
    have hdrop : (f x ++ rows.flatMap f).drop d = rows.flatMap f := List.drop_left' hx
    simp [setRow, hdrop]
  | x :: rows, hd, i + 1, y, hi => by
    have hx := hd x List.mem_cons_self
    have ih := setRow_flatMap (fun z hz => hd z (List.mem_cons_of_mem _ hz)) (i := i) (y := y)
      (Nat.lt_of_succ_lt_succ hi)
    have h1 : (i + 1) * d = (f x).length + i * d := by rw [Nat.succ_mul, hx, Nat.add_comm]
    have h2 : (i + 1) * d + d = (f x).length + (i * d + d) := by rw [h1, Nat.add_assoc]
    unfold setRow at ih ⊢
    rw [List.flatMap_cons, h2, h1, List.take_length_add_append, List.drop_length_add_append, List.set_cons_succ,
      List.flatMap_cons, ← ih]
    simp only [List.append_assoc]

/-- The rows at some places written over one after another. -/
theorem foldl_setRow {α β : Type} {f : β → List α} {d : ℕ} (g : ℕ → β) : ∀ (places : List ℕ) {rows : List β},
    (∀ x ∈ rows, (f x).length = d) → (∀ i ∈ places, i < rows.length ∧ (f (g i)).length = d) →
    places.foldl (fun m i => setRow m d i (f (g i))) (rows.flatMap f) =
      (places.foldl (fun rows i => rows.set i (g i)) rows).flatMap f
  | [], _, _, _ => rfl
  | i :: places, rows, hd, hp => by
    obtain ⟨hi, hlen⟩ := hp i List.mem_cons_self
    rw [List.foldl_cons, List.foldl_cons, setRow_flatMap hd hi]
    refine foldl_setRow g places (fun x hx => ?_) fun j hj => ?_
    · rcases List.mem_or_eq_of_mem_set hx with hx | rfl
      · exact hd x hx
      · exact hlen
    · rw [List.length_set]
      exact hp j (List.mem_cons_of_mem _ hj)

/-- Setting the edited places gives the edited list. -/
theorem foldl_set_eq {β : Type} {g : ℕ → β} {after : List β} : ∀ (places : List ℕ) {before : List β},
    before.length = after.length → (∀ i ∈ places, after[i]? = some (g i)) →
    (∀ i, i ∉ places → after[i]? = before[i]?) → places.foldl (fun rows i => rows.set i (g i)) before = after
  | [], before, _, _, hframe => List.ext_getElem? fun i => (hframe i (by simp)).symm
  | i :: places, before, hlen, hat, hframe => by
    rw [List.foldl_cons]
    have hlen' : (before.set i (g i)).length = after.length := by rw [List.length_set, hlen]
    refine foldl_set_eq places hlen' (fun j hj => hat j (List.mem_cons_of_mem _ hj)) fun j hj => ?_
    by_cases hij : i = j
    · subst hij
      have hget := hat i List.mem_cons_self
      have hlt : i < before.length := hlen ▸ (List.getElem?_eq_some_iff.mp hget).1
      rw [hget, List.getElem?_set_self hlt]
    · rw [List.getElem?_set_ne hij]
      exact hframe j (by simp [Ne.symm hij, hj])

/-- What a pass of moved addresses writes. -/
theorem syncAddresses_eq : ∀ (places : List ℕ) (inner : EAMInner F S), ∃ maxNorm,
    inner.syncAddresses places =
      { inner with
        addressMatrix := places.foldl (fun m i =>
          setRow m inner.config.d i (locationAt inner.locations i).address) inner.addressMatrix
        matrix32 := places.foldl (fun m i =>
          setRow m inner.config.d i ((locationAt inner.locations i).address.map toF32)) inner.matrix32
        maxNorm := maxNorm }
  | [], inner => ⟨inner.maxNorm, rfl⟩
  | i :: places, inner => syncAddresses_eq places (inner.syncAddress i)

/-- What a pass of created locations appends. -/
theorem foldl_appendAddress : ∀ (news : List (HardLocation F)) (inner : EAMInner F S), ∃ maxNorm,
    news.foldl EAMInner.appendAddress inner =
      { inner with
        addressMatrix := inner.addressMatrix ++ news.flatMap (·.address)
        matrix32 := inner.matrix32 ++ news.flatMap fun loc => loc.address.map toF32
        maxNorm := maxNorm }
  | [], inner => ⟨inner.maxNorm, by simp⟩
  | loc :: news, inner => by
    obtain ⟨maxNorm, h⟩ := foldl_appendAddress news (inner.appendAddress loc)
    refine ⟨maxNorm, ?_⟩
    rw [List.foldl_cons, h]
    simp [EAMInner.appendAddress]

/-- Landmarks are beside the lookup and the matrices. -/
theorem Indexed.refreshLandmarks {inner : EAMInner F S} (h : Indexed inner) : Indexed inner.refreshLandmarks := by
  unfold EAMInner.refreshLandmarks
  dsimp only
  split_ifs
  · exact ⟨h.looks, h.matrix, h.matrix32⟩
  · exact h

/-- Created locations appended. -/
theorem Indexed.appendLocations {inner : EAMInner F S} (h : Indexed inner) (news : List (HardLocation F)) :
    Indexed (inner.appendLocations news) := by
  unfold EAMInner.appendLocations
  split_ifs with hnews
  · exact h
  · unfold EAMInner.appendAddresses
    refine Indexed.refreshLandmarks ?_
    have hlook := looks_extendIdLookup { inner with locations := inner.locations ++ news } h.looks rfl
    have hdrop : (inner.locations ++ news).drop inner.locations.length = news := List.drop_left
    obtain ⟨maxNorm, hfold⟩ := foldl_appendAddress news
      (EAMInner.extendIdLookup { inner with locations := inner.locations ++ news } inner.locations.length)
    show Indexed (((inner.locations ++ news).drop inner.locations.length).foldl EAMInner.appendAddress
      (EAMInner.extendIdLookup { inner with locations := inner.locations ++ news } inner.locations.length))
    rw [hdrop, hfold]
    refine ⟨hlook, ?_, ?_⟩
    · show inner.addressMatrix ++ _ = (inner.locations ++ news).flatMap _
      rw [h.matrix, List.flatMap_append]
    · show inner.matrix32 ++ _ = (inner.locations ++ news).flatMap _
      rw [h.matrix32, List.flatMap_append]

/-- Edited locations whose addresses were written over. -/
theorem Indexed.syncAddresses (inner : EAMInner F S) {before : List (HardLocation F)} {places : List ℕ}
    (hlooks : Looks before inner.idLookup) (hmatrix : inner.addressMatrix = before.flatMap (·.address))
    (hmatrix32 : inner.matrix32 = before.flatMap fun loc => loc.address.map toF32)
    (hd : Shaped inner.config.d before) (he : Edited places before inner.locations)
    (hvalid : ∀ i ∈ places, i < before.length) : Indexed (inner.syncAddresses places) := by
  have hd' := he.shaped hd
  have hget : ∀ i ∈ places, inner.locations[i]? = some (locationAt inner.locations i) := fun i hi => by
    have hlt : i < inner.locations.length := he.length ▸ hvalid i hi
    rw [locationAt, List.getD_eq_getElem _ _ hlt, List.getElem?_eq_getElem hlt]
  have hset := foldl_set_eq (g := locationAt inner.locations) places he.length.symm hget he.frame
  have hrow : ∀ i ∈ places, (locationAt inner.locations i).address.length = inner.config.d := fun i hi =>
    (hd' _ (List.mem_of_getElem? (hget i hi))).1
  obtain ⟨maxNorm, hsync⟩ := syncAddresses_eq places inner
  rw [hsync]
  refine ⟨hlooks.congr he.ids, ?_, ?_⟩
  · show places.foldl _ inner.addressMatrix = _
    rw [hmatrix, foldl_setRow (locationAt inner.locations) places (f := fun loc => loc.address)
      (fun x hx => (hd x hx).1) (fun i hi => ⟨hvalid i hi, hrow i hi⟩), hset]
  · show places.foldl _ inner.matrix32 = _
    rw [hmatrix32, foldl_setRow (locationAt inner.locations) places (f := fun loc => loc.address.map toF32)
      (fun x hx => by rw [List.length_map]; exact (hd x hx).1)
      (fun i hi => ⟨hvalid i hi, by rw [List.length_map]; exact hrow i hi⟩), hset]

variable [Scalar S]

/-- **A write keeps the arrays.** -/
theorem Indexed.settle {inner : EAMInner F S} (h : Indexed inner) {x : Pattern F}
    (hd : Shaped inner.config.d inner.locations)
    (hx : x.address.length = inner.config.d ∧ x.counter.length = inner.config.d) (rng : Rng F) :
    Indexed ((inner.adapt x rng).inner.settle (inner.adapt x rng).result) := by
  have hw := adapt_frame inner hd hx rng
  exact (Indexed.syncAddresses (inner.adapt x rng).inner h.looks h.matrix h.matrix32 hd hw.edited
    hw.valid).appendLocations _

/-- A batch of writes keeps the arrays. -/
theorem Indexed.batch {inner : EAMInner F S} (h : Indexed inner) (hd : Shaped inner.config.d inner.locations)
    {xs : List (Pattern F)}
    (hx : ∀ x ∈ xs, x.address.length = inner.config.d ∧ x.counter.length = inner.config.d) (rng : Rng F) :
    Indexed (inner.batch xs rng).inner :=
  batch_keeps h hd hx rng fun h hd hx rng => h.settle hd hx rng

end HeatherDb
