/-
# The life of one collection

A registered collection over the restarts of its database: it is opened by a
get or a create, called through its handle, and closed by the next restart.
Between restarts there is at most one handle, as every opening is cached.

A step of such a life changes nothing but what is open, loads the collection,
opens it as a new one, or is a call on its handle (`life_cases`). An invariant
of a life is proved along these four.

Key definitions: `Life`, `Hive.Holds`, `Lived`.
Key theorems: `life_cases`, `recoverable_of_run`.
-/
import HeatherDb.Exact
import HeatherDb.Frame
import HeatherDb.Hive
import HeatherDb.Recoverable

namespace HeatherDb

open Scalar Narrow Program Store

variable {F S : Type}

/-- An operation that opens the name, a call on a handle, or a restart. -/
def HiveEvent.About (name : String) : HiveEvent F → Prop
  | .create other _ | .get other _ | .getOrCreate other _ => other = name
  | .drop .. => False
  | .restart _ | .call .. => True

/-- An operation of the hive, not a call on a handle. -/
def HiveEvent.IsOperation : HiveEvent F → Prop
  | .call .. => False
  | _ => True

/-- The hive holds no handle, or the one of this memory. -/
inductive Hive.Holds (hive : Hive F S) (name : String) (collectionId : ℕ) (inner : EAMInner F S) : Prop
  | closed (hnone : hive.handles = []) (hcache : hive.collections.get name = none)
  | opened {col : Collection F S} (hone : hive.handles = [col]) (hcache : hive.collections.get name = some 0)
    (hid : col.collectionId = collectionId) (hinner : col.inner = inner)

namespace Hive.Holds

variable {hive : Hive F S} {name : String} {collectionId : ℕ} {inner : EAMInner F S}

/-- A collection opened while none was cached is the one handle. -/
theorem opens (h : hive.Holds name collectionId inner) (hcache : hive.collections.get name = none)
    {s : Session F S} (hid : s.collection.collectionId = collectionId) :
    (hive.opened name s).Holds name collectionId s.collection.inner := by
  have hnone : hive.handles = [] := by
    rcases h with ⟨hnone, -⟩ | ⟨-, hsome, -, -⟩
    · exact hnone
    · rw [hcache] at hsome
      simp at hsome
  have hone : (hive.opened name s).handles = [s.collection] := by
    show hive.handles ++ [s.collection] = _
    rw [hnone, List.nil_append]
  have hput : (hive.opened name s).collections.get name = some 0 := by
    show (hive.collections.put name hive.handles.length).get name = _
    rw [hnone, OrderedTable.get_put_self]
    rfl
  exact .opened hone hput hid rfl

/-- A handle's calls work on the memory held. -/
theorem session (h : hive.Holds name collectionId inner) {k : ℕ} {s : Session F S} (hs : hive.session k = some s) :
    k = 0 ∧ hive.handles = [s.collection] ∧ hive.collections.get name = some 0 ∧ s.store = hive.store ∧
      s.collection.collectionId = collectionId ∧ s.collection.inner = inner := by
  obtain ⟨col, hcol, rfl⟩ := Option.map_eq_some_iff.mp hs
  cases h with
  | closed hnone hcache =>
    rw [hnone] at hcol
    simp at hcol
  | @opened col' hone hcache hid hinner =>
    rw [hone] at hcol
    obtain ⟨rfl, rfl⟩ : k = 0 ∧ col' = col := by
      cases k with
      | zero => exact ⟨rfl, Option.some.inj hcol⟩
      | succ k => simp at hcol
    exact ⟨rfl, hone, hcache, rfl, hid, hinner⟩

end Hive.Holds

variable [Scalar F] [Narrow F S]

theorem collectionId_of_load {collectionId : ℕ} {name : String} {store : Store F} {config : EAMConfig F}
    {col : Collection F S} (h : Collection.load collectionId name store config = .ok col) :
    col.collectionId = collectionId := by
  obtain ⟨_, _, _, _, -, -, -, -, -, rfl⟩ := load_inv h
  rfl

variable [Scalar S] [SeededUniform F]

/-- One step in the life of the collection of this name. -/
def Life (name : String) (hive : Hive F S) (e : HiveEvent F) (hive' : Hive F S) : Prop :=
  e.About name ∧ ∃ plan, HiveStep plan hive e hive'

/-- What a step of a life did to the store and the memory. -/
inductive Lived (hive : Hive F S) (name : String) (collectionId : ℕ) (inner : EAMInner F S) :
    HiveEvent F → Hive F S → EAMInner F S → Prop
  | idle {e : HiveEvent F} {hive' : Hive F S} (p : Precision) (he : e.IsOperation)
    (hstore : hive'.store = { hive.store with precision := p }) : Lived hive name collectionId inner e hive' inner
  | loaded {e : HiveEvent F} {hive' : Hive F S} {col : Collection F S} (he : e.IsOperation)
    (hstore : hive'.store = hive.store)
    (hload : Collection.load collectionId name hive.store hive.config = .ok col) :
    Lived hive name collectionId inner e hive' col.inner
  | new {e : HiveEvent F} {hive' : Hive F S} {r : Except HeatherError ℕ}
    (he : e = .create name r ∨ e = .getOrCreate name r) (hcache : hive.collections.get name = none)
    (hempty : hive.store.loadAllLocations collectionId = .ok [])
    (hstore : hive'.store = (Session.fresh (S := S) collectionId name hive.config hive.rng hive.store).store) :
    Lived hive name collectionId inner e hive'
      (Session.fresh collectionId name hive.config hive.rng hive.store).collection.inner
  | called {e : Event F} {hive' : Hive F S} {s s' : Session F S} (hs : hive.session 0 = some s)
    (hstore : s.store = hive.store) (hid : s.collection.collectionId = collectionId)
    (hinner : s.collection.inner = inner) (hstep : Step s e s') (hstore' : hive'.store = s'.store) :
    Lived hive name collectionId inner (.call 0 e) hive' s'.collection.inner

/-- **A step of a life** is one of the four, and the hive holds what it left. -/
theorem life_cases {name : String} {collectionId : ℕ} {hive hive' : Hive F S} {inner : EAMInner F S}
    (hreg : hive.store.registry.get name = some collectionId) (hholds : hive.Holds name collectionId inner)
    {e : HiveEvent F} (hlife : Life name hive e hive') :
    ∃ inner', hive'.store.registry.get name = some collectionId ∧ hive'.Holds name collectionId inner' ∧
      Lived hive name collectionId inner e hive' inner' := by
  obtain ⟨habout, plan, hstep⟩ := hlife
  have hidle : ∀ {e : HiveEvent F}, e.IsOperation → ∃ inner', hive.store.registry.get name = some collectionId ∧
      hive.Holds name collectionId inner' ∧ Lived hive name collectionId inner e hive inner' := fun he =>
    ⟨inner, hreg, hholds, .idle hive.store.precision he rfl⟩
  have hregistered : hive.store.registered name = (collectionId, hive.store) := by
    rw [Store.registered, hreg]
  -- a create or a get or create is about its own name
  have hnamed : ∀ {e : HiveEvent F} {other : String} {r : Except HeatherError ℕ},
      (e = .create other r ∨ e = .getOrCreate other r) → e.About name → other = name ∧ e.IsOperation := by
    rintro e other r (rfl | rfl) h <;> exact ⟨h, trivial⟩
  cases hiveStep_cases hstep with
  | cached he hcache => exact hidle (hnamed he habout).2
  | failed he hcache hstore hplan =>
    obtain ⟨rfl, hop⟩ := hnamed he habout
    rw [hregistered, or_self] at hstore
    subst hstore
    exact hidle hop
  | opened he hcache hopens =>
    obtain ⟨rfl, hop⟩ := hnamed he habout
    rw [hregistered] at hopens
    cases hopens with
    | new hempty =>
      have hunder : OnlyUnder collectionId hive.store (hive.store.putAll collectionId (newPuts hive.config hive.rng)) :=
        putAll_onlyUnder _ _
      refine ⟨_, ?_, hholds.opens hcache rfl, .new he hcache hempty rfl⟩
      show (hive.store.putAll collectionId (newPuts hive.config hive.rng)).registry.get _ = _
      rw [hunder.registry]
      exact hreg
    | load hlocations hne hload =>
      exact ⟨_, hreg, hholds.opens hcache (collectionId_of_load hload), .loaded hop rfl hload⟩
  | got other r => exact hidle trivial
  | @loaded _ id col hcache hid hload =>
    obtain rfl := habout
    obtain rfl : id = collectionId := Option.some.inj (hid.symm.trans hreg)
    exact ⟨_, hreg, hholds.opens hcache (collectionId_of_load hload), .loaded trivial rfl hload⟩
  | notDropped => exact absurd habout id
  | dropped => exact absurd habout id
  | restarted config rng => exact ⟨inner, hreg, .closed rfl rfl, .idle config.precision trivial rfl⟩
  | @called k s s' e hs hcall =>
    obtain ⟨rfl, hone, hcache, hstore, hid, hinner⟩ := hholds.session hs
    have hwithin := step_within hcall
    have hhandles : (hive.withSession 0 s').handles = [s'.collection] := by
      show hive.handles.set 0 s'.collection = _
      rw [hone]
      rfl
    refine ⟨_, ?_, .opened hhandles hcache (hwithin.collectionId.trans hid) rfl,
      .called hs hstore hid hinner hcall rfl⟩
    show s'.store.registry.get name = _
    rw [hwithin.store.registry, hstore]
    exact hreg

/-! ### A collection in order -/

/-- A step of a life leaves the memory in order. -/
theorem Recoverable.lived {name : String} {collectionId : ℕ} {hive hive' : Hive F S} {inner inner' : EAMInner F S}
    (hr : Recoverable hive.store collectionId inner) {e : HiveEvent F}
    (hlived : Lived hive name collectionId inner e hive' inner') : Recoverable hive'.store collectionId inner' := by
  cases hlived with
  | idle p he hstore =>
    rw [hstore]
    exact hr.of_store rfl rfl
  | loaded he hstore hload =>
    rw [hstore]
    obtain ⟨_, _, _, _, -, -, -, -, -, rfl⟩ := load_inv hload
    exact hr.reopened hload 0
  | new he hcache hempty hstore =>
    rw [hstore]
    exact recoverable_fresh _ _ _ (locationAt?_of_loadAll hempty) hr.docNextId
  | called hs hstore hid hinner hstep hstore' =>
    subst hid hinner
    rw [← hstore] at hr
    rw [hstore', ← (step_within hstep).collectionId]
    exact recoverable_step hr hstep

/-- The name's memory is in order. -/
structure Hive.InOrder (hive : Hive F S) (name : String) (collectionId : ℕ) : Prop where
  registered : hive.store.registry.get name = some collectionId
  memory : ∃ inner : EAMInner F S, Recoverable hive.store collectionId inner ∧ hive.Holds name collectionId inner

/-- **A collection is in order** in every state that a life of it reaches. -/
theorem recoverable_of_run {name : String} {collectionId : ℕ} {hive hive' : Hive F S} (hnone : hive.handles = [])
    (hcache : hive.collections.get name = none) (hreg : hive.store.registry.get name = some collectionId)
    (hnew : hive.store.Untouched collectionId) {es : List (HiveEvent F)} (hrun : Run (Life name) hive es hive')
    {h : ℕ} {s : Session F S} (hs : hive'.session h = some s) : s.Recoverable := by
  have hin : hive'.InOrder name collectionId := hrun.invariant (P := fun hive => hive.InOrder name collectionId)
    ⟨hreg, _, recoverable_untouched hive.config hnew, .closed hnone hcache⟩ fun hin hlife => by
      obtain ⟨inner, hr, hholds⟩ := hin.memory
      obtain ⟨inner', hreg', hholds', hlived⟩ := life_cases hin.registered hholds hlife
      exact ⟨hreg', inner', hr.lived hlived, hholds'⟩
  obtain ⟨inner, hr, hholds⟩ := hin.memory
  obtain ⟨-, -, -, hstore, hid, hinner⟩ := hholds.session hs
  rw [Session.Recoverable, hstore, hid, hinner]
  exact hr

/-! ### A small hive -/

/-- A registered collection that was never opened. -/
def smallHive : Hive ℚ ℚ := ⟨((Store.empty .f64).registered "c").2, smallConfig false, fun _ => 1, [], .empty⟩

theorem smallHive_untouched : smallHive.store.Untouched 0 :=
  ⟨fun _ => rfl, fun _ => rfl, fun _ => rfl, fun _ => rfl⟩

/-- No location at all. -/
def emptySnapshot : Snapshot ℚ := ⟨[], by simp⟩

namespace Hive

/-- A create of it without storage faults. -/
def created (hive : Hive ℚ ℚ) : Hive ℚ ℚ := (createCollection "c" ⟨hive, []⟩).2.state

/-- A call on its handle. -/
def calling (hive : Hive ℚ ℚ) (c : Call ℚ) : Hive ℚ ℚ :=
  match hive.session 0 with
  | none => hive
  | some s => hive.withSession 0 (c.effect s)

/-- That call with its answer. -/
def answer (hive : Hive ℚ ℚ) (c : Call ℚ) : HiveEvent ℚ :=
  match hive.session 0 with
  | none => .call 0 (c, .error .hang)
  | some s => .call 0 (c, .ok (c.reply s))

/-- The database closed and opened again. -/
def restarted (hive : Hive ℚ ℚ) : Hive ℚ ℚ :=
  ⟨{ hive.store with precision := .f64 }, smallConfig false, fun _ => 1, [], .empty⟩

theorem life_create (hive : Hive ℚ ℚ) {h : ℕ} (hrun : (createCollection "c" ⟨hive, []⟩).1 = .ok h) :
    Life "c" hive (.create "c" (.ok h)) hive.created :=
  ⟨rfl, [], .create (Prod.ext hrun rfl)⟩

theorem life_call (hive : Hive ℚ ℚ) (c : Call ℚ)
    (hok : (hive.session 0).any (fun s => (c.run ⟨s, []⟩).1.isOk) = true) :
    Life "c" hive (hive.answer c) (hive.calling c) := by
  unfold answer calling
  cases hs : hive.session 0 with
  | none =>
    rw [hs] at hok
    simp at hok
  | some s =>
    rw [hs] at hok
    obtain ⟨-, plan, fs', hrun⟩ := step_of_isOk hok
    exact ⟨trivial, plan, .call hs (by simp) hrun⟩

theorem life_restart (hive : Hive ℚ ℚ) : Life "c" hive (.restart (smallConfig false)) hive.restarted := by
  have hopen : openAt hive.store (smallConfig false) (fun _ => 1) = .ok hive.restarted := by
    unfold openAt
    rw [smallConfig_valid]
    rfl
  exact ⟨trivial, [], .restart hopen⟩

end Hive

end HeatherDb
