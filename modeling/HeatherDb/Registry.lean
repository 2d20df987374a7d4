/-
# Collections are apart

One registry gives every name of a database its id, from a counter it keeps
under a name of its own, and the records of all collections share their
tables under these ids. So collections are apart as long as no two of them
get one id.

The counter's name is `nextCollectionIdKey`, which the listing leaves out but
no operation refuses, and the counter is a u32 that wraps. A step that names
the counter, or that registers a name once the counter wrapped, is not
`Proper`. Proper steps keep the registry in order (`Registry`): ids are
distinct, below the counter, and no id from the counter on has a record.

Key definitions: `Store.given`, `Store.Registry`, `HiveEvent.Proper`,
`HiveEvent.target`, `liveNames`.
Key theorems: `apart_step`, `sameRecords_of_moved`, `collections_isolated`.
-/
import HeatherDb.Exact
import HeatherDb.Frame
import HeatherDb.Hive

namespace HeatherDb

open Scalar Narrow Program OrderedTable

variable {F S : Type} [Narrow F S]

/-! ### The registry -/

namespace Store

/-- How many ids were given out; a stored 0 is a counter that wrapped. -/
def given (s : Store F) : ℕ :=
  match s.registry.get nextCollectionIdKey with
  | none => 0
  | some 0 => 2 ^ 32
  | some n => n

/-- Every name has an id of its own that was given out, and ids that were not
have no record. -/
structure Registry (s : Store F) : Prop where
  bounded : ∀ n, s.registry.get nextCollectionIdKey = some n → n < 2 ^ 32
  below : ∀ name id, name ≠ nextCollectionIdKey → s.registry.get name = some id → id < s.given
  distinct : ∀ name name' id, name ≠ nextCollectionIdKey → name' ≠ nextCollectionIdKey →
    s.registry.get name = some id → s.registry.get name' = some id → name = name'
  free : ∀ id, s.given ≤ id → s.Untouched id

/-- The records under one id are the same. -/
structure SameRecords (id : ℕ) (a b : Store F) : Prop where
  locations : b.locations.under id = a.locations.under id
  metadata : b.metadata.under id = a.metadata.under id
  documents : b.documents.under id = a.documents.under id
  docIndex : b.docIndex.under id = a.docIndex.under id

theorem SameRecords.refl (id : ℕ) (a : Store F) : SameRecords id a a := ⟨rfl, rfl, rfl, rfl⟩

theorem SameRecords.trans {id : ℕ} {a b c : Store F} (h : SameRecords id a b) (h' : SameRecords id b c) :
    SameRecords id a c :=
  ⟨h'.locations.trans h.locations, h'.metadata.trans h.metadata, h'.documents.trans h.documents,
    h'.docIndex.trans h.docIndex⟩

theorem OnlyUnder.sameRecords {id other : ℕ} {a b : Store F} (h : OnlyUnder id a b) (hne : other ≠ id) :
    SameRecords other a b :=
  ⟨h.locations.under_eq hne, h.metadata.under_eq hne, h.documents.under_eq hne, h.docIndex.under_eq hne⟩

theorem given_congr {a b : Store F} (h : b.registry.get nextCollectionIdKey = a.registry.get nextCollectionIdKey) :
    b.given = a.given := by
  rw [given, h, given]

/-- The registered names. -/
theorem mem_listCollections_iff {s : Store F} {name : String} {id : ℕ} :
    (name, id) ∈ s.listCollections ↔ name ≠ nextCollectionIdKey ∧ s.registry.get name = some id := by
  rw [listCollections, List.mem_filter, decide_eq_true_iff, get_eq_some_iff, and_comm]

/-- Registering leaves every record. -/
theorem registered_tables (s : Store F) (name : String) :
    (s.registered name).2.locations = s.locations ∧ (s.registered name).2.metadata = s.metadata ∧
      (s.registered name).2.documents = s.documents ∧ (s.registered name).2.docIndex = s.docIndex ∧
      (s.registered name).2.precision = s.precision := by
  unfold registered
  cases s.registry.get name <;> exact ⟨rfl, rfl, rfl, rfl, rfl⟩

theorem registered_untouched {s : Store F} {id : ℕ} (h : s.Untouched id) (name : String) :
    (s.registered name).2.Untouched id := by
  obtain ⟨hl, hm, hd, hp, -⟩ := registered_tables s name
  constructor
  · intro k
    rw [locationAt?, hl]
    exact h.locations k
  · intro k
    rw [getDocument, hd]
    exact h.documents k
  · intro k
    rw [loadMetadata, hm]
    exact h.metadata k
  · intro k
    rw [hp]
    exact h.postings k

/-- Dropping clears one id's records and adds none. -/
theorem dropped_untouched {s : Store F} {id other : ℕ} (name : String) (h : other = id ∨ s.Untouched other) :
    (s.dropped name id).Untouched other := by
  have hclear : ∀ {α κ : Type} [LinearOrder κ] (t : OrderedTable (Scoped ℕ κ) α) (k : κ),
      (s.Untouched other → t.get ⟨other, k⟩ = none) → (t.clear id).get ⟨other, k⟩ = none := by
    intro α κ _ t k hk
    rw [get_clear]
    split_ifs with hid
    · rfl
    · exact hk (h.resolve_left hid)
  refine ⟨fun k => ?_, fun k => hclear _ _ fun hu => hu.documents k, fun k => hclear _ _ fun hu => hu.metadata k,
    fun k => hclear _ _ fun hu => hu.postings k⟩
  show ((s.locations.clear id).get ⟨other, k⟩).bind _ = none
  rw [get_clear]
  split_ifs with hid
  · rfl
  · exact (h.resolve_left hid).locations k

namespace Registry

variable {s s' : Store F}

/-- A database without a name is in order. -/
theorem empty (p : Precision) : Registry (Store.empty p : Store F) where
  bounded n hn := by simp [Store.empty] at hn
  below name id _ h := by simp [Store.empty] at h
  distinct name name' id _ _ h := by simp [Store.empty] at h
  free id _ := ⟨fun _ => rfl, fun _ => rfl, fun _ => rfl, fun _ => rfl⟩

/-- An unregistered name gets the next id. -/
theorem registered_fst {name : String} (hnone : s.registry.get name = none)
    (hwrap : s.registry.get nextCollectionIdKey ≠ some 0) : (s.registered name).1 = s.given := by
  unfold registered given nextCollectionId
  rw [hnone]
  cases hc : s.registry.get nextCollectionIdKey with
  | none => rfl
  | some n =>
    cases n with
    | zero => exact absurd hc hwrap
    | succ n => rfl

theorem get_registered {name : String} (hnone : s.registry.get name = none)
    {other : String} (hother : other ≠ nextCollectionIdKey) :
    (s.registered name).2.registry.get other =
      if other = name then some (s.registered name).1 else s.registry.get other := by
  unfold registered
  rw [hnone]
  dsimp only
  rw [get_put_of_ne _ _ hother, get_put]

/-- Registering counts. -/
theorem given_registered (h : s.Registry) {name : String} (hnone : s.registry.get name = none)
    (hwrap : s.registry.get nextCollectionIdKey ≠ some 0) :
    (s.registered name).2.given = s.given + 1 := by
  have hfirst := registered_fst hnone hwrap
  have hcounter : (s.registered name).2.registry.get nextCollectionIdKey = some ((s.given + 1) % 2 ^ 32) := by
    rw [← hfirst]
    unfold registered
    rw [hnone]
    exact get_put_self _ _ _
  have hlt : s.given < 2 ^ 32 := by
    unfold given
    cases hc : s.registry.get nextCollectionIdKey with
    | none => norm_num
    | some n =>
      cases n with
      | zero => exact absurd hc hwrap
      | succ n => exact h.bounded _ hc
  rw [given, hcounter]
  by_cases hfull : s.given + 1 = 2 ^ 32
  · rw [hfull, Nat.mod_self]
    rfl
  · rw [Nat.mod_eq_of_lt (by omega)]
    rfl

/-- **Registering keeps the registry in order** until the counter wraps. -/
theorem registered (h : s.Registry) {name : String} (hname : name ≠ nextCollectionIdKey)
    (hwrap : s.registry.get name = none → s.registry.get nextCollectionIdKey ≠ some 0) :
    (s.registered name).2.Registry := by
  cases hreg : s.registry.get name with
  | some id =>
    have hsame : (s.registered name).2 = s := by
      unfold Store.registered
      rw [hreg]
    rwa [hsame]
  | none =>
    have hfirst := registered_fst hreg (hwrap hreg)
    have hgiven := h.given_registered hreg (hwrap hreg)
    have hget : ∀ {other}, other ≠ nextCollectionIdKey → (s.registered name).2.registry.get other =
        if other = name then some (s.registered name).1 else s.registry.get other := get_registered hreg
    have hnew : ∀ other id, other ≠ nextCollectionIdKey → (s.registered name).2.registry.get other = some id →
        other = name ∧ id = s.given ∨ s.registry.get other = some id := by
      intro other id hother hid
      rw [hget hother] at hid
      split_ifs at hid with hsame
      · rw [hfirst] at hid
        exact Or.inl ⟨hsame, (Option.some.inj hid).symm⟩
      · exact Or.inr hid
    refine ⟨fun n hn => ?_, fun other id hother hid => ?_, fun other other' id hother hother' hid hid' => ?_,
      fun id hid => registered_untouched (h.free id (by omega)) name⟩
    · unfold Store.registered at hn
      rw [hreg] at hn
      dsimp only at hn
      rw [get_put_self] at hn
      rw [← Option.some.inj hn]
      exact Nat.mod_lt _ (by norm_num)
    · rw [hgiven]
      rcases hnew other id hother hid with ⟨-, rfl⟩ | hold
      · exact Nat.lt_succ_self _
      · exact Nat.lt_succ_of_lt (h.below other id hother hold)
    · rcases hnew other id hother hid with ⟨rfl, rfl⟩ | hold <;>
        rcases hnew other' _ hother' hid' with ⟨rfl, hsame⟩ | hold'
      · rfl
      · exact absurd (h.below other' _ hother' hold') (lt_irrefl _)
      · exact absurd (hsame ▸ h.below other _ hother hold) (lt_irrefl _)
      · exact h.distinct other other' id hother hother' hold hold'

/-- A change under an id that was given out. -/
theorem onlyUnder (h : s.Registry) {id : ℕ} (hid : id < s.given) (hunder : OnlyUnder id s s') : s'.Registry := by
  have hgiven : s'.given = s.given := given_congr (congrArg (·.get nextCollectionIdKey) hunder.registry)
  refine ⟨?_, ?_, ?_, fun other hother => ?_⟩
  · rw [hunder.registry]
    exact h.bounded
  · rw [hunder.registry, hgiven]
    exact h.below
  · rw [hunder.registry]
    exact h.distinct
  · rw [hgiven] at hother
    exact hunder.untouched (by omega) (h.free other hother)

/-- The precision does not matter. -/
theorem of_precision (h : s.Registry) (p : Precision) : Registry { s with precision := p } :=
  ⟨h.bounded, h.below, h.distinct, fun id hid =>
    ⟨(h.free id hid).locations, (h.free id hid).documents, (h.free id hid).metadata, (h.free id hid).postings⟩⟩

/-- Dropping frees the name, not its id. -/
theorem dropped (h : s.Registry) {name : String} (hname : name ≠ nextCollectionIdKey) (id : ℕ) :
    (s.dropped name id).Registry := by
  have hcounter : (s.dropped name id).registry.get nextCollectionIdKey = s.registry.get nextCollectionIdKey :=
    get_delete_of_ne _ hname.symm
  have hgiven : (s.dropped name id).given = s.given := given_congr hcounter
  have hold : ∀ other other_id, (s.dropped name id).registry.get other = some other_id →
      s.registry.get other = some other_id := by
    intro other other_id hother
    have hdel : (s.registry.delete name).get other = some other_id := hother
    rw [get_delete] at hdel
    split_ifs at hdel
    exact hdel
  refine ⟨?_, fun other other_id hother hid => ?_, fun a b other_id ha hb hid hid' => ?_, fun other hother => ?_⟩
  · rw [hcounter]
    exact h.bounded
  · rw [hgiven]
    exact h.below other other_id hother (hold _ _ hid)
  · exact h.distinct a b other_id ha hb (hold _ _ hid) (hold _ _ hid')
  · rw [hgiven] at hother
    exact dropped_untouched name (Or.inr (h.free other hother))

end Registry

/-- Registering one name keeps the others. -/
theorem get_registered_of_some {s : Store F} {name other : String} {id : ℕ} (hother : other ≠ nextCollectionIdKey)
    (h : s.registry.get other = some id) : (s.registered name).2.registry.get other = some id := by
  cases hreg : s.registry.get name with
  | some _ =>
    rw [registered, hreg]
    exact h
  | none =>
    have hne : other ≠ name := by
      rintro rfl
      simp [hreg] at h
    rw [Registry.get_registered hreg hother, if_neg hne, h]

theorem get_registered_self (s : Store F) {name : String} (hname : name ≠ nextCollectionIdKey) :
    (s.registered name).2.registry.get name = some (s.registered name).1 := by
  cases hreg : s.registry.get name with
  | some id =>
    rw [registered, hreg]
    exact hreg
  | none => rw [Registry.get_registered hreg hname, if_pos rfl]

end Store

/-! ### Steps of a hive -/

namespace Hive

/-- The registry is in order, the handles' ids were given out, and what is
cached is registered. -/
structure Apart (hive : Hive F S) : Prop where
  registry : hive.store.Registry
  handles : ∀ col ∈ hive.handles, col.collectionId < hive.store.given
  cached : ∀ name h, hive.collections.get name = some h →
    name ≠ Store.nextCollectionIdKey ∧ (hive.store.registry.get name).isSome

omit [Narrow F S] in
/-- A call through a handle keeps collections apart. -/
theorem Apart.withSession {hive : Hive F S} (h : hive.Apart) {k : ℕ} {s s' : Session F S}
    (hs : hive.session k = some s) (hwithin : s.Within s') : (hive.withSession k s').Apart := by
  obtain ⟨col, hcol, rfl⟩ := Option.map_eq_some_iff.mp hs
  have hlt : col.collectionId < hive.store.given := h.handles col (List.mem_of_getElem? hcol)
  have hgiven : s'.store.given = hive.store.given :=
    Store.given_congr (congrArg (·.get Store.nextCollectionIdKey) hwithin.store.registry)
  refine ⟨h.registry.onlyUnder hlt hwithin.store, fun col' hcol' => ?_, fun other k hcached => ?_⟩
  · show col'.collectionId < s'.store.given
    rw [hgiven]
    rcases List.mem_or_eq_of_mem_set hcol' with hcol' | rfl
    · exact h.handles col' hcol'
    · rw [hwithin.collectionId]
      exact hlt
  · show _ ∧ (s'.store.registry.get other).isSome
    rw [hwithin.store.registry]
    exact h.cached other k hcached

/-- What opens has the id it opens under, and its records alone may be new. -/
theorem Opens.under [Scalar F] {config : EAMConfig F} {rng : Rng F} {store : Store F} {id : ℕ} {name : String}
    {s : Session F S} (h : Opens config rng store id name s) :
    s.collection.collectionId = id ∧ Store.OnlyUnder id store s.store := by
  cases h with
  | new hempty => exact ⟨rfl, Store.putAll_onlyUnder _ _⟩
  | load hlocations hne hload =>
    obtain ⟨_, _, _, _, -, -, -, -, -, rfl⟩ := load_inv hload
    exact ⟨rfl, .refl _⟩

end Hive

namespace HiveEvent

/-- The event neither names the counter nor registers a name once it wrapped. -/
def Proper (hive : Hive F S) : HiveEvent F → Prop
  | .create name _ | .getOrCreate name _ => name ≠ Store.nextCollectionIdKey ∧
    (hive.store.registry.get name = none → hive.store.registry.get Store.nextCollectionIdKey ≠ some 0)
  | .get name _ | .drop name _ =>
    hive.store.registry.get Store.nextCollectionIdKey ≠ none → name ≠ Store.nextCollectionIdKey
  | .restart _ | .call .. => True

/-- The id whose records the event may change. -/
def target (hive : Hive F S) : HiveEvent F → Option ℕ
  | .create name _ | .getOrCreate name _ => some (hive.store.registered name).1
  | .drop name _ => hive.store.registry.get name
  | .call h _ => (hive.session h).map (·.collection.collectionId)
  | .get .. | .restart _ => none

/-- The event is about this name, or goes through a handle of its id. -/
def Concerns (hive : Hive F S) (name : String) (id : ℕ) : HiveEvent F → Prop
  | .create other _ | .get other _ | .getOrCreate other _ | .drop other _ => other = name
  | .call h _ => ∃ s, hive.session h = some s ∧ s.collection.collectionId = id
  | .restart _ => False

/-- The names created and not dropped since; `all` counts the creates that
failed as well. -/
def tally (all : Bool) (live : List String) : HiveEvent F → List String
  | .create name r | .getOrCreate name r => if all || r.isOk then name :: live else live
  | .drop name (.ok _) => live.filter (· ≠ name)
  | _ => live

end HiveEvent

variable [Scalar S]

/-- The names that events created and have not dropped since. -/
def liveNames (all : Bool) (es : List (HiveEvent F)) : List String := es.foldl (HiveEvent.tally all) []

theorem liveNames_snoc (all : Bool) (es : List (HiveEvent F)) (e : HiveEvent F) :
    liveNames all (es ++ [e]) = e.tally all (liveNames all es) := List.foldl_append

variable [Scalar F] [SeededUniform F]

/-- A step with its planned storage answers, and proper. -/
def ProperStep (hive : Hive F S) (l : List (Option String) × HiveEvent F) (hive' : Hive F S) : Prop :=
  HiveStep l.1 hive l.2 hive' ∧ l.2.Proper hive

omit [Scalar F] [Scalar S] [Narrow F S] [SeededUniform F] in
/-- A create that was proper. -/
theorem HiveEvent.proper_create {hive : Hive F S} {e : HiveEvent F} {name : String} {r : Except HeatherError ℕ}
    (he : e = .create name r ∨ e = .getOrCreate name r) (hproper : e.Proper hive) :
    name ≠ Store.nextCollectionIdKey ∧
      (hive.store.registry.get name = none → hive.store.registry.get Store.nextCollectionIdKey ≠ some 0) := by
  rcases he with rfl | rfl <;> exact hproper

/-- **A proper step keeps the registry in order.** -/
theorem apart_step {plan : List (Option String)} {hive hive' : Hive F S} {e : HiveEvent F} (h : hive.Apart)
    (hproper : e.Proper hive) (hmoved : HiveMoved plan hive e hive') : hive'.Apart ∧
      hive.store.given ≤ hive'.store.given := by
  -- a name registered, with what is cached and handed out
  have hregistered : ∀ {name : String}, name ≠ Store.nextCollectionIdKey →
      (hive.store.registry.get name = none → hive.store.registry.get Store.nextCollectionIdKey ≠ some 0) →
      { hive with store := (hive.store.registered name).2 }.Apart ∧
        hive.store.given ≤ (hive.store.registered name).2.given ∧
        (hive.store.registered name).1 < (hive.store.registered name).2.given ∧
        ((hive.store.registered name).2.registry.get name).isSome := by
    intro name hname hwrap
    cases hreg : hive.store.registry.get name with
    | some id =>
      have hsame : hive.store.registered name = (id, hive.store) := by
        rw [Store.registered, hreg]
      rw [hsame]
      exact ⟨h, le_refl _, h.registry.below name id hname hreg, by simp [hreg]⟩
    | none =>
      have hgiven := h.registry.given_registered hreg (hwrap hreg)
      have hfirst := Store.Registry.registered_fst hreg (hwrap hreg)
      refine ⟨⟨h.registry.registered hname hwrap, fun col hcol => ?_, fun other k hcached => ?_⟩,
        by omega, by omega, ?_⟩
      · have hlt := h.handles col hcol
        show col.collectionId < (hive.store.registered name).2.given
        omega
      · obtain ⟨hother, hsome⟩ := h.cached other k hcached
        refine ⟨hother, ?_⟩
        show ((hive.store.registered name).2.registry.get other).isSome
        rw [Store.Registry.get_registered hreg hother]
        split_ifs
        · rfl
        · exact hsome
      · rw [Store.get_registered_self _ hname]
        rfl
  -- a collection opened on a store in order
  have hopened : ∀ {store : Store F} {name : String} {s : Session F S},
      { hive with store := store }.Apart → name ≠ Store.nextCollectionIdKey → (store.registry.get name).isSome →
      s.collection.collectionId < store.given → Store.OnlyUnder s.collection.collectionId store s.store →
      (hive.opened name s).Apart ∧ (hive.opened name s).store.given = store.given := by
    intro store name s happart hname hsome hlt hunder
    have hgiven : s.store.given = store.given :=
      Store.given_congr (congrArg (·.get Store.nextCollectionIdKey) hunder.registry)
    refine ⟨⟨happart.registry.onlyUnder hlt hunder, fun col hcol => ?_, fun other k hcached => ?_⟩, hgiven⟩
    · show col.collectionId < s.store.given
      rw [hgiven]
      rcases List.mem_append.mp hcol with hcol | hcol
      · exact happart.handles col hcol
      · obtain rfl := List.mem_singleton.mp hcol
        exact hlt
    · show _ ∧ (s.store.registry.get other).isSome
      rw [hunder.registry]
      have hput : (hive.collections.put name hive.handles.length).get other = some k := hcached
      rw [get_put] at hput
      split_ifs at hput with hsame
      · exact hsame ▸ ⟨hname, hsome⟩
      · exact happart.cached other k hput
  cases hmoved with
  | cached he hcache => exact ⟨h, le_refl _⟩
  | failed he hcache hstore hplan =>
    obtain ⟨hname, hwrap⟩ := HiveEvent.proper_create he hproper
    rcases hstore with rfl | rfl
    · exact ⟨h, le_refl _⟩
    · obtain ⟨happart, hle, -, -⟩ := hregistered hname hwrap
      exact ⟨happart, hle⟩
  | opened he hcache hopens =>
    obtain ⟨hname, hwrap⟩ := HiveEvent.proper_create he hproper
    obtain ⟨happart, hle, hlt, hsome⟩ := hregistered hname hwrap
    obtain ⟨hid, hunder⟩ := hopens.under
    obtain ⟨happart', hgiven⟩ := hopened happart hname hsome (hid ▸ hlt) (hid ▸ hunder)
    exact ⟨happart', hgiven ▸ hle⟩
  | got name r => exact ⟨h, le_refl _⟩
  | @loaded name id col hcache hreg hload =>
    have hid : col.collectionId = id := by
      obtain ⟨_, _, _, _, -, -, -, -, -, rfl⟩ := load_inv hload
      rfl
    have hname : name ≠ Store.nextCollectionIdKey := by
      rintro rfl
      exact hproper (by rw [hreg]; simp) rfl
    obtain ⟨happart', hgiven⟩ := hopened (s := ⟨hive.store, hive.rng, col⟩) h hname (by rw [hreg]; rfl)
      (hid ▸ h.registry.below name id hname hreg) (.refl _)
    exact ⟨happart', hgiven.ge⟩
  | notDropped hr hnone => exact ⟨h, le_refl _⟩
  | @dropped name id hreg =>
    have hname : name ≠ Store.nextCollectionIdKey := by
      rintro rfl
      exact hproper (by rw [hreg]; simp) rfl
    have hgiven : (hive.store.dropped name id).given = hive.store.given :=
      Store.given_congr (get_delete_of_ne _ hname.symm)
    refine ⟨⟨h.registry.dropped hname id, fun col hcol => ?_, fun other k hcached => ?_⟩, hgiven.ge⟩
    · rw [hgiven]
      exact h.handles col hcol
    · have hdel : (hive.collections.delete name).get other = some k := hcached
      rw [get_delete] at hdel
      split_ifs at hdel with hother
      refine ⟨(h.cached other k hdel).1, ?_⟩
      show ((hive.store.registry.delete name).get other).isSome
      rw [get_delete_of_ne _ hother]
      exact (h.cached other k hdel).2
  | restarted config rng =>
    exact ⟨⟨h.registry.of_precision _, by simp, by simp⟩, le_refl _⟩
  | @called k s s' e hs hstep =>
    have hwithin := step_within hstep
    refine ⟨h.withSession hs hwithin, ?_⟩
    obtain ⟨col, -, rfl⟩ := Option.map_eq_some_iff.mp hs
    exact (Store.given_congr (congrArg (·.get Store.nextCollectionIdKey) hwithin.store.registry)).ge

/-- What a step did to the registry: nothing, one name registered, or one dropped. -/
theorem registry_cases {plan : List (Option String)} {hive hive' : Hive F S} {e : HiveEvent F}
    (hmoved : HiveMoved plan hive e hive') :
    hive'.store.registry = hive.store.registry ∧ (∀ name, e ≠ .drop name (.ok true)) ∨
      (∃ name r, (e = .create name r ∨ e = .getOrCreate name r) ∧ hive.store.registry.get name = none ∧
        hive'.store.registry = (hive.store.registered name).2.registry) ∨
      ∃ name id, e = .drop name (.ok true) ∧ hive.store.registry.get name = some id ∧
        hive'.store.registry = hive.store.registry.delete name := by
  -- a name registered or there before
  have hregistered : ∀ {e : HiveEvent F} {name : String} {r : Except HeatherError ℕ},
      (e = .create name r ∨ e = .getOrCreate name r) → hive'.store.registry = (hive.store.registered name).2.registry →
      hive'.store.registry = hive.store.registry ∧ (∀ name, e ≠ .drop name (.ok true)) ∨
        ∃ name r, (e = .create name r ∨ e = .getOrCreate name r) ∧ hive.store.registry.get name = none ∧
          hive'.store.registry = (hive.store.registered name).2.registry := by
    intro e name r he hreg
    cases hnone : hive.store.registry.get name with
    | none => exact Or.inr ⟨name, r, he, hnone, hreg⟩
    | some id =>
      rw [Store.registered, hnone] at hreg
      refine Or.inl ⟨hreg, fun other hc => ?_⟩
      rcases he with rfl | rfl <;> simp at hc
  cases hmoved with
  | cached he hcache =>
    refine Or.inl ⟨rfl, fun other hc => ?_⟩
    rcases he with rfl | rfl <;> simp at hc
  | failed he hcache hstore hplan =>
    rcases hstore with rfl | rfl
    · refine Or.inl ⟨rfl, fun other hc => ?_⟩
      rcases he with rfl | rfl <;> simp at hc
    · exact (hregistered he rfl).imp_right Or.inl
  | opened he hcache hopens => exact (hregistered he hopens.under.2.registry).imp_right Or.inl
  | got name r => exact Or.inl ⟨rfl, by simp⟩
  | loaded hcache hreg hload => exact Or.inl ⟨rfl, by simp⟩
  | notDropped hr hnone => exact Or.inl ⟨rfl, fun other hc => hr (by simp at hc; exact hc.2)⟩
  | dropped hreg => exact Or.inr (Or.inr ⟨_, _, rfl, hreg, rfl⟩)
  | restarted config rng => exact Or.inl ⟨rfl, by simp⟩
  | called hs hstep =>
    obtain ⟨col, -, rfl⟩ := Option.map_eq_some_iff.mp hs
    exact Or.inl ⟨(step_within hstep).store.registry, by simp⟩

/-- **A step changes records under its target's id alone.** -/
theorem sameRecords_of_moved {plan : List (Option String)} {hive hive' : Hive F S} {e : HiveEvent F}
    (hmoved : HiveMoved plan hive e hive') {id : ℕ} (hid : e.target hive ≠ some id) :
    Store.SameRecords id hive.store hive'.store := by
  have hregistered : ∀ name, Store.SameRecords id hive.store (hive.store.registered name).2 := by
    intro name
    obtain ⟨hl, hm, hd, hp, -⟩ := Store.registered_tables hive.store name
    exact ⟨by rw [hl], by rw [hm], by rw [hd], by rw [hp]⟩
  cases hmoved with
  | cached he hcache => exact .refl _ _
  | failed he hcache hstore hplan =>
    rcases hstore with rfl | rfl
    · exact .refl _ _
    · exact hregistered _
  | opened he hcache hopens =>
    refine (hregistered _).trans (hopens.under.2.sameRecords fun hc => hid ?_)
    rcases he with rfl | rfl <;> rw [hc] <;> rfl
  | got name r => exact .refl _ _
  | loaded hcache hreg hload => exact .refl _ _
  | notDropped hr hnone => exact .refl _ _
  | dropped hreg =>
    have hne : id ≠ _ := fun hc => hid (hc ▸ hreg)
    exact ⟨(SameOutside.clear _).under_eq hne, (SameOutside.clear _).under_eq hne, (SameOutside.clear _).under_eq hne,
      (SameOutside.clear _).under_eq hne⟩
  | restarted config rng => exact ⟨rfl, rfl, rfl, rfl⟩
  | @called k s s' e hs hstep =>
    have hwithin := step_within hstep
    have hstore : s.store = hive.store := by
      obtain ⟨col, -, rfl⟩ := Option.map_eq_some_iff.mp hs
      rfl
    rw [← hstore]
    refine hwithin.store.sameRecords fun hc => hid ?_
    rw [HiveEvent.target, hs, Option.map_some, hc]

/-- A name is listed after a step if it was and was not dropped, or under a new
id if the step created it. -/
theorem listed_of_moved {plan : List (Option String)} {hive hive' : Hive F S} {e : HiveEvent F}
    (hproper : e.Proper hive) (hmoved : HiveMoved plan hive e hive') {name : String} {id : ℕ} :
    (name, id) ∈ hive'.store.listCollections →
      (name, id) ∈ hive.store.listCollections ∧ e ≠ .drop name (.ok true) ∨
        id = hive.store.given ∧ hive.store.registry.get name = none ∧
          ∃ r, e = .create name r ∨ e = .getOrCreate name r := by
  rw [Store.mem_listCollections_iff, Store.mem_listCollections_iff]
  rintro ⟨hname, hid⟩
  rcases registry_cases hmoved with ⟨hreg, hdrop⟩ | ⟨other, r, he, hnone, hreg⟩ | ⟨other, oid, rfl, hsome, hreg⟩
  · exact Or.inl ⟨⟨hname, hreg ▸ hid⟩, hdrop name⟩
  · obtain ⟨hother, hwrap⟩ := HiveEvent.proper_create he hproper
    rw [hreg, Store.Registry.get_registered hnone hname] at hid
    split_ifs at hid with hsame
    · subst hsame
      rw [Store.Registry.registered_fst hnone (hwrap hnone)] at hid
      exact Or.inr ⟨(Option.some.inj hid).symm, hnone, r, he⟩
    · refine Or.inl ⟨⟨hname, hid⟩, ?_⟩
      rcases he with rfl | rfl <;> simp
  · rw [hreg, get_delete] at hid
    split_ifs at hid with hsame
    refine Or.inl ⟨⟨hname, hid⟩, fun hc => hsame ?_⟩
    simp only [HiveEvent.drop.injEq, and_true] at hc
    exact hc.symm

/-- A listed name stays listed unless it is dropped. -/
theorem listed_moved {plan : List (Option String)} {hive hive' : Hive F S} {e : HiveEvent F}
    (hproper : e.Proper hive) (hmoved : HiveMoved plan hive e hive') {name : String} {id : ℕ}
    (hlisted : (name, id) ∈ hive.store.listCollections) (hdrop : e ≠ .drop name (.ok true)) :
    (name, id) ∈ hive'.store.listCollections := by
  rw [Store.mem_listCollections_iff] at hlisted ⊢
  obtain ⟨hname, hid⟩ := hlisted
  refine ⟨hname, ?_⟩
  rcases registry_cases hmoved with ⟨hreg, -⟩ | ⟨other, r, he, hnone, hreg⟩ | ⟨other, oid, rfl, hsome, hreg⟩
  · rw [hreg]
    exact hid
  · have hne : name ≠ other := by
      rintro rfl
      rw [hid] at hnone
      simp at hnone
    rw [hreg, Store.Registry.get_registered hnone hname, if_neg hne]
    exact hid
  · rw [hreg, get_delete_of_ne _ fun hc => hdrop (by rw [hc])]
    exact hid

/-! ### The names listed -/

omit [Scalar F] [Scalar S] [Narrow F S] [SeededUniform F] in
theorem Hive.mem_listCollections_iff {hive : Hive F S} {name : String} :
    name ∈ hive.listCollections ↔ ∃ id, (name, id) ∈ hive.store.listCollections := by
  simp [Hive.listCollections]

/-- A name created and not dropped since is listed. -/
theorem listed_of_tally {plan : List (Option String)} {hive hive' : Hive F S} {e : HiveEvent F} (h : hive.Apart)
    (hproper : e.Proper hive) (hmoved : HiveMoved plan hive e hive') {live : List String}
    (hlive : ∀ name ∈ live, name ∈ hive.listCollections) :
    ∀ name ∈ e.tally false live, name ∈ hive'.listCollections := by
  have hkeep : ∀ name ∈ live, e ≠ .drop name (.ok true) → name ∈ hive'.listCollections := by
    intro name hname hdrop
    obtain ⟨id, hid⟩ := Hive.mem_listCollections_iff.mp (hlive name hname)
    exact Hive.mem_listCollections_iff.mpr ⟨id, listed_moved hproper hmoved hid hdrop⟩
  -- what a create that succeeded opened is registered
  have hcreated : ∀ {name : String} {k : ℕ}, (e = .create name (.ok k) ∨ e = .getOrCreate name (.ok k)) →
      name ∈ hive'.listCollections := by
    intro name k he
    have hsome : name ≠ Store.nextCollectionIdKey ∧ (hive'.store.registry.get name).isSome := by
      refine ⟨(HiveEvent.proper_create he hproper).1, ?_⟩
      cases hmoved with
      | cached he' hcache =>
        obtain rfl : _ = name := by rcases he with rfl | rfl <;> rcases he' with he' | he' <;> simp at he' <;>
          exact he'.1.symm
        exact (h.cached _ _ hcache).2
      | failed he' => rcases he with rfl | rfl <;> rcases he' with he' | he' <;> simp at he'
      | @opened other _ s he' hcache hopens =>
        obtain rfl : other = name := by rcases he with rfl | rfl <;> rcases he' with he' | he' <;> simp at he' <;>
          exact he'.1.symm
        show (s.store.registry.get other).isSome
        rw [hopens.under.2.registry]
        unfold Store.registered
        cases hreg : hive.store.registry.get other with
        | some id => simp [hreg]
        | none =>
          dsimp only
          rw [get_put_of_ne _ _ (HiveEvent.proper_create he hproper).1, get_put_self]
          rfl
      | _ => simp at he
    obtain ⟨id, hid⟩ := Option.isSome_iff_exists.mp hsome.2
    exact Hive.mem_listCollections_iff.mpr ⟨id, Store.mem_listCollections_iff.mpr ⟨hsome.1, hid⟩⟩
  intro name hname
  cases e with
  | create other r =>
    cases r with
    | ok k =>
      rcases List.mem_cons.mp hname with rfl | hname
      · exact hcreated (Or.inl rfl)
      · exact hkeep name hname (by simp)
    | error err => exact hkeep name hname (by simp)
  | getOrCreate other r =>
    cases r with
    | ok k =>
      rcases List.mem_cons.mp hname with rfl | hname
      · exact hcreated (Or.inr rfl)
      · exact hkeep name hname (by simp)
    | error err => exact hkeep name hname (by simp)
  | drop other r =>
    cases r with
    | ok existed =>
      obtain ⟨hmem, hne⟩ := List.mem_filter.mp hname
      exact hkeep name hmem fun hc => of_decide_eq_true hne (by simp at hc; exact hc.1.symm)
    | error err => exact hkeep name hname (by simp)
  | get other r => exact hkeep name hname (by simp)
  | restart config => exact hkeep name hname (by simp)
  | call k e => exact hkeep name hname (by simp)

omit [SeededUniform F] [Scalar F] in
theorem loadAllLocations_of_untouched {store : Store F} {id : ℕ} (h : store.Untouched id) :
    store.loadAllLocations id = .ok [] := by
  obtain ⟨locations, hload⟩ : ∃ locations, store.loadAllLocations id = .ok locations :=
    ⟨_, Store.loadAllLocations_eq _ _⟩
  have hnil : locations = [] := List.eq_nil_iff_forall_not_mem.mpr fun loc hloc => by
    obtain ⟨k, hk⟩ := (Store.mem_loadAllLocations_iff hload).mp hloc
    rw [h.locations k] at hk
    simp at hk
  rw [hload, hnil]

/-- What is listed was created and not dropped since; a create may have failed
if its storage did. -/
theorem tally_of_listed {plan : List (Option String)} {hive hive' : Hive F S} {e : HiveEvent F} (h : hive.Apart)
    (hproper : e.Proper hive) (hmoved : HiveMoved plan hive e hive') {all : Bool} (hall : all = true ∨ plan = [])
    {live : List String} (hlive : ∀ name ∈ hive.listCollections, name ∈ live) :
    ∀ name ∈ hive'.listCollections, name ∈ e.tally all live := by
  intro name hname
  obtain ⟨id, hid⟩ := Hive.mem_listCollections_iff.mp hname
  rcases listed_of_moved hproper hmoved hid with ⟨hold, hdrop⟩ | ⟨rfl, hnone, r, he⟩
  · have hin := hlive name (Hive.mem_listCollections_iff.mpr ⟨id, hold⟩)
    have hadded : ∀ (c : Bool) (other : String), name ∈ if c then other :: live else live := by
      intro c other
      split_ifs
      · exact List.mem_cons_of_mem _ hin
      · exact hin
    cases e with
    | create other r => exact hadded _ _
    | getOrCreate other r => exact hadded _ _
    | drop other r =>
      cases r with
      | ok existed =>
        refine List.mem_filter.mpr ⟨hin, decide_eq_true fun hc => ?_⟩
        subst hc
        -- a drop that found nothing
        cases hmoved with
        | notDropped hr hnotThere =>
          cases existed with
          | true => exact hr rfl
          | false =>
            have hsome := (Store.mem_listCollections_iff.mp hold).2
            rw [hnotThere rfl] at hsome
            simp at hsome
        | dropped hreg => exact hdrop rfl
        | cached he => simp at he
        | failed he => simp at he
        | opened he => simp at he
      | error err => exact hin
    | get other r => exact hin
    | restart config => exact hin
    | call k e => exact hin
  · -- a name registered, so its create succeeded or its storage failed
    have hok : (all || r.isOk) = true := by
      rcases hall with rfl | hplan
      · rfl
      · obtain ⟨hne, hwrap⟩ := HiveEvent.proper_create he hproper
        have hfree := h.registry.free hive.store.given (le_refl _)
        have hempty : (hive.store.registered name).2.loadAllLocations (hive.store.registered name).1 = .ok [] := by
          rw [Store.Registry.registered_fst hnone (hwrap hnone)]
          exact loadAllLocations_of_untouched (Store.registered_untouched hfree name)
        cases r with
        | ok k => simp [Except.isOk, Except.toBool]
        | error err =>
          cases hmoved with
          | failed he' hcache hstore hfail =>
            obtain rfl : _ = name := by
              rcases he with rfl | rfl <;> rcases he' with he' | he' <;> simp at he' <;> exact he'.1.symm
            exact absurd hempty (hfail hplan)
          | cached he' => rcases he with rfl | rfl <;> rcases he' with he' | he' <;> simp at he'
          | opened he' => rcases he with rfl | rfl <;> rcases he' with he' | he' <;> simp at he'
          | _ => simp at he
    rcases he with rfl | rfl
    · show name ∈ if (all || r.isOk) = true then name :: live else live
      rw [if_pos hok]
      exact List.mem_cons_self
    · show name ∈ if (all || r.isOk) = true then name :: live else live
      rw [if_pos hok]
      exact List.mem_cons_self

/-! ### Isolation -/

omit [SeededUniform F] [Scalar S] [Narrow F S] in
/-- A new database is in order. -/
theorem apart_openAt {p : Precision} {config : EAMConfig F} {rng : Rng F} {hive : Hive F S}
    (hopen : Hive.openAt (Store.empty p) config rng = .ok hive) :
    hive.Apart ∧ hive.listCollections = [] := by
  obtain rfl := Hive.openAt_inv hopen
  exact ⟨⟨(Store.Registry.empty p).of_precision _, by simp, by simp⟩, rfl⟩

/-- Every state that proper steps reach is in order, and lists what was created
and not dropped since. -/
theorem listed_of_run {hive hive' : Hive F S} (h : hive.Apart) (hlist : hive.listCollections = [])
    {ls : List (List (Option String) × HiveEvent F)} (hrun : Run ProperStep hive ls hive') :
    hive'.Apart ∧ (∀ name ∈ liveNames false (ls.map (·.2)), name ∈ hive'.listCollections) ∧
      (∀ name ∈ hive'.listCollections, name ∈ liveNames true (ls.map (·.2))) ∧
      ((∀ l ∈ ls, l.1 = []) → ∀ name ∈ hive'.listCollections, name ∈ liveNames false (ls.map (·.2))) := by
  refine hrun.history (P := fun ls hive => hive.Apart ∧
      (∀ name ∈ liveNames false (ls.map (·.2)), name ∈ hive.listCollections) ∧
      (∀ name ∈ hive.listCollections, name ∈ liveNames true (ls.map (·.2))) ∧
      ((∀ l ∈ ls, l.1 = []) → ∀ name ∈ hive.listCollections, name ∈ liveNames false (ls.map (·.2))))
    ⟨h, by simp [liveNames], by simp [hlist], by simp [hlist]⟩ ?_
  rintro ls hive l hive' ⟨h, hsucceeded, htried, hsteady⟩ ⟨hstep, hproper⟩
  have hmoved := hiveStep_cases hstep
  rw [List.map_append, List.map_singleton, liveNames_snoc, liveNames_snoc]
  refine ⟨(apart_step h hproper hmoved).1, listed_of_tally h hproper hmoved hsucceeded,
    tally_of_listed h hproper hmoved (Or.inl rfl) htried, fun hplans => ?_⟩
  exact tally_of_listed h hproper hmoved (Or.inr (hplans l (by simp)))
    (hsteady fun l' hl' => hplans l' (List.mem_append_left _ hl'))

/-- The ids given out before a run stay with the names that have them. -/
theorem ids_of_run {hive hive' : Hive F S} (h : hive.Apart) {ls : List (List (Option String) × HiveEvent F)}
    (hrun : Run ProperStep hive ls hive') {name : String} {id : ℕ} (hmem : (name, id) ∈ hive'.store.listCollections)
    (hlt : id < hive.store.given) :
    (name, id) ∈ hive.store.listCollections ∧ ∀ l ∈ ls, l.2 ≠ .drop name (.ok true) := by
  have hall : hive'.Apart ∧ hive.store.given ≤ hive'.store.given ∧ ∀ name id,
      (name, id) ∈ hive'.store.listCollections → id < hive.store.given →
        (name, id) ∈ hive.store.listCollections ∧ ∀ l ∈ ls, l.2 ≠ .drop name (.ok true) := by
    refine hrun.history (P := fun ls hive' => hive'.Apart ∧ hive.store.given ≤ hive'.store.given ∧ ∀ name id,
      (name, id) ∈ hive'.store.listCollections → id < hive.store.given →
        (name, id) ∈ hive.store.listCollections ∧ ∀ l ∈ ls, l.2 ≠ .drop name (.ok true))
      ⟨h, le_refl _, fun _ _ hmem _ => ⟨hmem, by simp⟩⟩ ?_
    rintro ls hive₁ l hive₂ ⟨h₁, hle, hids⟩ ⟨hstep, hproper⟩
    have hmoved := hiveStep_cases hstep
    obtain ⟨h₂, hle₂⟩ := apart_step h₁ hproper hmoved
    refine ⟨h₂, hle.trans hle₂, fun name id hmem hlt => ?_⟩
    rcases listed_of_moved hproper hmoved hmem with ⟨hold, hdrop⟩ | ⟨rfl, -, -⟩
    · obtain ⟨hfirst, hls⟩ := hids name id hold hlt
      refine ⟨hfirst, fun l' hl' => ?_⟩
      rcases List.mem_append.mp hl' with hl' | hl'
      · exact hls l' hl'
      · obtain rfl := List.mem_singleton.mp hl'
        exact hdrop
    · omega
  exact hall.2.2 name id hmem hlt

omit [SeededUniform F] [Scalar F] in
/-- Listed collections have distinct ids. -/
theorem Store.Registry.ids_nodup {s : Store F} (h : s.Registry) : (s.listCollections.map (·.2)).Nodup := by
  have hentries : s.listCollections.Nodup := (List.Nodup.of_map _ s.registry.keys_nodup).filter _
  refine List.Nodup.map_on (fun x hx y hy hsame => ?_) hentries
  obtain ⟨name, id⟩ := x
  obtain ⟨name', id'⟩ := y
  obtain rfl : id = id' := hsame
  obtain ⟨hname, hid⟩ := Store.mem_listCollections_iff.mp hx
  obtain ⟨hname', hid'⟩ := Store.mem_listCollections_iff.mp hy
  rw [h.distinct name name' id hname hname' hid hid']

omit [Scalar S] [Narrow F S] [SeededUniform F] [Scalar F] in
/-- An event that does not concern a listed collection has another target. -/
theorem target_ne {hive : Hive F S} (h : hive.Apart) {e : HiveEvent F} (hproper : e.Proper hive)
    {name : String} {id : ℕ}
    (hmem : (name, id) ∈ hive.store.listCollections) (hconcern : ¬ e.Concerns hive name id) :
    e.target hive ≠ some id := by
  obtain ⟨hname, hid⟩ := Store.mem_listCollections_iff.mp hmem
  have hlt := h.registry.below name id hname hid
  -- a name that is or gets registered under this id is this name
  have hregistered : ∀ {other : String}, other ≠ Store.nextCollectionIdKey →
      (hive.store.registry.get other = none → hive.store.registry.get Store.nextCollectionIdKey ≠ some 0) →
      (hive.store.registered other).1 = id → other = name := by
    intro other hother hwrap hsame
    cases hreg : hive.store.registry.get other with
    | none =>
      rw [Store.Registry.registered_fst hreg (hwrap hreg)] at hsame
      omega
    | some oid =>
      obtain rfl : oid = id := by
        rw [Store.registered, hreg] at hsame
        exact hsame
      exact h.registry.distinct other name oid hother hname hreg hid
  intro htarget
  cases e with
  | create other r => exact hconcern (hregistered hproper.1 hproper.2 (Option.some.inj htarget))
  | getOrCreate other r => exact hconcern (hregistered hproper.1 hproper.2 (Option.some.inj htarget))
  | get other r => simp [HiveEvent.target] at htarget
  | drop other r =>
    have hreg : hive.store.registry.get other = some id := htarget
    have hother : other ≠ Store.nextCollectionIdKey := by
      rintro rfl
      exact hproper (by rw [hreg]; simp) rfl
    exact hconcern (h.registry.distinct other name id hother hname hreg hid)
  | restart config => simp [HiveEvent.target] at htarget
  | call k e => exact hconcern (Option.map_eq_some_iff.mp htarget)

/-- **Collections are isolated**: whatever proper steps a new database takes,
and whatever their storage answers, listed collections have distinct ids, an
id that a collection or a handle once had is no other collection's later, no
step changes a record of a collection it does not concern, and the listing is
what was created and not dropped since. -/
theorem collections_isolated {p : Precision} {config : EAMConfig F} {rng : Rng F} {hive hive' hive'' : Hive F S}
    (hopen : Hive.openAt (Store.empty p) config rng = .ok hive)
    {ls ls' : List (List (Option String) × HiveEvent F)} (hrun : Run ProperStep hive ls hive')
    (hrun' : Run ProperStep hive' ls' hive'') :
    (hive''.store.listCollections.map (·.2)).Nodup ∧
      (∀ name name' id, (name, id) ∈ hive'.store.listCollections → (name', id) ∈ hive''.store.listCollections →
        name' = name ∧ ∀ l ∈ ls', l.2 ≠ .drop name (.ok true)) ∧
      (∀ h s name, hive'.session h = some s → (name, s.collection.collectionId) ∈ hive''.store.listCollections →
        (name, s.collection.collectionId) ∈ hive'.store.listCollections) ∧
      (∀ l next name id, ProperStep hive'' l next → (name, id) ∈ hive''.store.listCollections →
        ¬ l.2.Concerns hive'' name id →
          Store.SameRecords id hive''.store next.store ∧ (name, id) ∈ next.store.listCollections) ∧
      (∀ name ∈ liveNames false ((ls ++ ls').map (·.2)), name ∈ hive''.listCollections) ∧
      (∀ name ∈ hive''.listCollections, name ∈ liveNames true ((ls ++ ls').map (·.2))) ∧
      ((∀ l ∈ ls ++ ls', l.1 = []) →
        ∀ name ∈ hive''.listCollections, name ∈ liveNames false ((ls ++ ls').map (·.2))) := by
  obtain ⟨h, hlist⟩ := apart_openAt hopen
  have h' := (listed_of_run h hlist hrun).1
  obtain ⟨h'', hsucceeded, htried, hsteady⟩ := listed_of_run h hlist (hrun.trans hrun')
  refine ⟨h''.registry.ids_nodup, fun name name' id hmem hmem' => ?_, fun k s name hs hmem => ?_,
    fun l next name id hstep hmem hconcern => ?_, hsucceeded, htried, hsteady⟩
  · obtain ⟨hname, hid⟩ := Store.mem_listCollections_iff.mp hmem
    obtain ⟨hold, hdrop⟩ := ids_of_run h' hrun' hmem' (h'.registry.below name id hname hid)
    obtain ⟨hname', hid'⟩ := Store.mem_listCollections_iff.mp hold
    obtain rfl := h'.registry.distinct name name' id hname hname' hid hid'
    exact ⟨rfl, hdrop⟩
  · obtain ⟨col, hcol, rfl⟩ := Option.map_eq_some_iff.mp hs
    exact (ids_of_run h' hrun' hmem (h'.handles col (List.mem_of_getElem? hcol))).1
  · obtain ⟨hstep, hproper⟩ := hstep
    have hmoved := hiveStep_cases hstep
    refine ⟨sameRecords_of_moved hmoved (target_ne h'' hproper hmem hconcern),
      listed_moved hproper hmoved hmem fun hc => hconcern ?_⟩
    rw [hc]
    rfl

/-- A new database. -/
def newHive : Hive ℚ ℚ := ⟨.empty .f64, smallConfig false, fun _ => 1, [], .empty⟩

/-- The hive after a create that no storage error stopped. -/
def Hive.creating (hive : Hive ℚ ℚ) (name : String) : Hive ℚ ℚ := (createCollection name ⟨hive, []⟩).2.state

/-- The hive after a drop that no storage error stopped. -/
def Hive.dropping (hive : Hive ℚ ℚ) (name : String) : Hive ℚ ℚ := (dropCollection name ⟨hive, []⟩).2.state

theorem openAt_newHive : Hive.openAt (Store.empty .f64) (smallConfig false) (fun _ => 1) = .ok newHive := by
  unfold Hive.openAt
  rw [smallConfig_valid]
  rfl

/-- Two collections, and the first one again after it was dropped: the second
keeps its id, its records and its place in the listing. -/
theorem collections_isolated_again :
    let hive := (newHive.creating "a").creating "b"
    (∀ name' id, ("b", id) ∈ hive.store.listCollections →
      (name', id) ∈ ((hive.dropping "a").creating "a").store.listCollections → name' = "b") ∧
      ∀ name ∈ ((hive.dropping "a").creating "a").listCollections, name ∈ ["a", "b"] := by
  intro hive
  have hcreate : ∀ (hive : Hive ℚ ℚ) (name : String) (h : ℕ), (Hive.createCollection name ⟨hive, []⟩).1 = .ok h →
      name ≠ Store.nextCollectionIdKey → hive.store.registry.get Store.nextCollectionIdKey ≠ some 0 →
      ProperStep hive ([], .create name (.ok h)) (hive.creating name) := fun hive name h hrun hname hwrap =>
    ⟨.create (Prod.ext hrun rfl), hname, fun _ => hwrap⟩
  have hfirst := hcreate newHive "a" 0 (by decide +kernel) (by decide +kernel) (by decide +kernel)
  have hsecond := hcreate (newHive.creating "a") "b" 1 (by decide +kernel) (by decide +kernel) (by decide +kernel)
  have hdrop : ProperStep hive ([], .drop "a" (.ok true)) (hive.dropping "a") :=
    ⟨.drop (Prod.ext (by decide +kernel) rfl), fun _ => by decide +kernel⟩
  have hagain := hcreate (hive.dropping "a") "a" 2 (by decide +kernel) (by decide +kernel) (by decide +kernel)
  have hall := collections_isolated openAt_newHive ((Run.single hfirst).snoc hsecond) ((Run.single hdrop).snoc hagain)
  refine ⟨fun name' id hmem hmem' => (hall.2.1 "b" name' id hmem hmem').1, fun name hname => ?_⟩
  have hlisted := hall.2.2.2.2.2.2 (by simp) name hname
  rwa [show liveNames false _ = ["a", "b"] from by decide +kernel] at hlisted

/-- The counter's name is not listed once created; found again after a restart
it opens the id that the next collection gets. -/
theorem counter_name_shared :
    (∃ hive, HiveStep [] newHive (.create Store.nextCollectionIdKey (.ok 0)) hive ∧ hive.listCollections = []) ∧
    ∃ es hive, Run (HiveStep []) newHive es hive ∧
      (hive.session 0).map (·.collection.collectionId) = some 1 ∧
      (hive.session 1).map (·.collection.collectionId) = some 1 ∧
      (hive.handles.map (·.name)) = [Store.nextCollectionIdKey, "a"] := by
  have hcreate : ∀ (hive : Hive ℚ ℚ) (name : String) (h : ℕ), (Hive.createCollection name ⟨hive, []⟩).1 = .ok h →
      HiveStep [] hive (.create name (.ok h)) (hive.creating name) := fun hive name h hrun =>
        .create (Prod.ext hrun rfl)
  let reserved := newHive.creating Store.nextCollectionIdKey
  let reopened : Hive ℚ ℚ := ⟨{ reserved.store with precision := .f64 }, smallConfig false, fun _ => 1, [], .empty⟩
  have hfirst := hcreate newHive Store.nextCollectionIdKey 0 (by decide +kernel)
  have hrestart : HiveStep [] reserved (.restart (smallConfig false)) reopened := by
    have hopen : Hive.openAt reserved.store (smallConfig false) (fun _ => 1) = .ok reopened := by
      unfold Hive.openAt
      rw [smallConfig_valid]
      rfl
    exact .restart hopen
  have hagain := hcreate reopened Store.nextCollectionIdKey 0 (by decide +kernel)
  have hother := hcreate (reopened.creating Store.nextCollectionIdKey) "a" 1 (by decide +kernel)
  refine ⟨⟨_, hfirst, by decide +kernel⟩, _, _, (((Run.single hfirst).snoc hrestart).snoc hagain).snoc hother, ?_⟩
  exact ⟨by decide +kernel, by decide +kernel, by decide +kernel⟩

end HeatherDb
