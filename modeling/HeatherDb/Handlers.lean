/-
# The endpoints that store a result

Eight handlers of `routes.rs` replace a target collection by something they
compute: they observe the target, snapshot their sources, compute, and store
the result into the target. Between these steps other clients' calls run.
`Moves` is one step of a handler or of another client; what the sources hold
and what the operation makes of them is left open (`outcome`).

Seven handlers store under the version they observed. `algebra_permute`
observes nothing and stores whatever happened in between.

Key definitions: `EAMSnapshot`, `Loadable`, `Handler`, `Endpoint.handler`, `Progress`, `Moves`.
Key theorem: `conflict_iff_checked`.
-/
import HeatherDb.Versions

namespace HeatherDb

open Scalar Narrow Program AtomicMutation

/-- A persistence-decoupled snapshot. -/
structure EAMSnapshot (F : Type) where
  locations : List (HardLocation F)
  config : EAMConfig F

/-- A snapshot that loading accepts, as the operations make them of the snapshots
of collections: its configuration passes its checks, its addresses have the
dimension. -/
structure Loadable (F : Type) [Scalar F] extends EAMSnapshot F where
  valid : config.validate = .ok ()
  addressed : checkAddresses config locations = .ok ()

/-- What goes wrong in an algebra operation, or in the database under it. -/
inductive AlgebraError where
  | operation (message : String)
  | db (e : HeatherError)

variable {F S : Type} [Scalar F] [Narrow F S]

namespace EAMSnapshot

/-- Load this snapshot into a live collection, replacing its state. -/
def intoCollection (snap : EAMSnapshot F) : Program HeatherError (Session F S) Unit :=
  loadSnapshot snap.locations snap.config

/-- Like `intoCollection`, but refuses if the target was mutated since the
expected version was observed. -/
def intoCollectionChecked (snap : EAMSnapshot F) (expectedVersion : ℕ) :
    Program HeatherError (Session F S) Unit :=
  loadSnapshotChecked snap.locations snap.config (some expectedVersion)

end EAMSnapshot

/-! ### The handlers -/

/-- What a handler does to its target: what it observes of it first, and how it
stores its result. -/
structure Handler (F S : Type) [Scalar F] where
  observe : Program HeatherError (Session F S) (Option ℕ)
  store : Option ℕ → Loadable F → Program HeatherError (Session F S) Unit

/-- Stores under the version observed. -/
def Handler.checked (observe : Program HeatherError (Session F S) ℕ) : Handler F S where
  observe := do
    let v ← observe
    pure (some v)
  store expected snap :=
    match expected with
    | some v => snap.intoCollectionChecked v
    | none => snap.intoCollection

def algebraAdd : Handler F S := .checked version

def algebraSub : Handler F S := .checked version

def algebraScale : Handler F S := .checked version

def algebraIntersect : Handler F S := .checked version

def algebraBind : Handler F S := .checked version

def algebraUnbind : Handler F S := .checked version

/-- Its configuration and version come from one look at the target. -/
def bulkLoad : Handler F S := .checked do
  let seen ← snapshotVersioned
  pure seen.2.2

/-- Holds the target and looks at nothing of it. -/
def algebraPermute : Handler F S where
  observe := pure none
  store _ snap := snap.intoCollection

/-- The endpoints that store a result. -/
inductive Endpoint where
  | add
  | sub
  | scale
  | intersect
  | bind
  | permute
  | unbind
  | bulkLoad
deriving DecidableEq

def Endpoint.handler : Endpoint → Handler F S
  | .add => algebraAdd
  | .sub => algebraSub
  | .scale => algebraScale
  | .intersect => algebraIntersect
  | .bind => algebraBind
  | .permute => algebraPermute
  | .unbind => algebraUnbind
  | .bulkLoad => HeatherDb.bulkLoad

/-! ### Interleavings -/

/-- How far a handler has come. -/
inductive Progress (F : Type) [Scalar F] where
  | begun
  | observed (expected : Option ℕ)
  | computed (expected : Option ℕ) (result : Loadable F)
  | answered (r : Except AlgebraError ℕ)

/-- Who moved: the handler, or another client with an acknowledged call on the
target. -/
inductive Mover (F : Type) where
  | handler
  | client (c : Call F)

/-- One step of a handler whose operation may come out as `outcome` says, or of
another client. -/
inductive Moves [Scalar S] [SeededUniform F] (h : Handler F S) (outcome : Except AlgebraError (Loadable F) → Prop) :
    Session F S × Progress F → Mover F → Session F S × Progress F → Prop
  | observe {s : Session F S} {expected : Option ℕ} {fs fs' : List (Option HeatherError)}
    (hrun : h.observe ⟨s, fs⟩ = (.ok expected, ⟨s, fs'⟩)) :
    Moves h outcome (s, .begun) .handler (s, .observed expected)
  | unobserved {s : Session F S} {e : HeatherError} {fs fs' : List (Option HeatherError)}
    (hrun : h.observe ⟨s, fs⟩ = (.error e, ⟨s, fs'⟩)) :
    Moves h outcome (s, .begun) .handler (s, .answered (.error (.db e)))
  | compute {s : Session F S} {expected : Option ℕ} {result : Loadable F} (hout : outcome (.ok result)) :
    Moves h outcome (s, .observed expected) .handler (s, .computed expected result)
  | uncomputed {s : Session F S} {expected : Option ℕ} {e : AlgebraError} (hout : outcome (.error e)) :
    Moves h outcome (s, .observed expected) .handler (s, .answered (.error e))
  | store {s s' : Session F S} {expected : Option ℕ} {result : Loadable F} (plan : List (Option String))
    {fs' : List (Option HeatherError)}
    (hrun : h.store expected result ⟨s, plan.map (Option.map .storage)⟩ = (.ok (), ⟨s', fs'⟩)) :
    Moves h outcome (s, .computed expected result) .handler (s', .answered (.ok result.locations.length))
  | unstored {s s' : Session F S} {expected : Option ℕ} {result : Loadable F} {e : HeatherError}
    (plan : List (Option String)) {fs' : List (Option HeatherError)}
    (hrun : h.store expected result ⟨s, plan.map (Option.map .storage)⟩ = (.error e, ⟨s', fs'⟩)) :
    Moves h outcome (s, .computed expected result) .handler (s', .answered (.error (.db e)))
  | client {s s' : Session F S} {p : Progress F} {c : Call F} {r : Reply F} (hstep : Step s (c, .ok r) s') :
    Moves h outcome (s, p) (.client c) (s', p)

/-! ### Handlers under a version -/

/-- Answered that the target changed. -/
def Progress.Conflicted (r : Except AlgebraError ℕ) : Prop := ∃ msg, r = .error (.db (.conflict msg))

/-- A write of at least one pattern. -/
def Mover.Writes : Mover F → Prop
  | .handler => False
  | .client c => c.IsWrite ∧ c.patterns ≠ []

/-- How a target stands against the one observed while the handler computes. -/
structure Since (s t : Session F S) (movers : List (Mover F)) : Prop where
  valid : t.collection.inner.valid = s.collection.inner.valid
  version : s.versionNumber ≤ t.versionNumber
  written : (∃ m ∈ movers, m.Writes) → s.versionNumber < t.versionNumber

/-- Another client's call only moves the version on. -/
theorem Since.client [Scalar S] [SeededUniform F] {s t t' : Session F S} {movers : List (Mover F)}
    (h : Since s t movers) {c : Call F} {r : Reply F} (hstep : Step t (c, .ok r) t') :
    Since s t' (movers ++ [.client c]) := by
  rcases step_cases hstep with ⟨e, he, -⟩ | ⟨-, -, rfl⟩
  · simp at he
  have hle := le_effect_version t c
  have hbefore := h.version
  refine ⟨(effect_valid t c).trans h.valid, by omega, ?_⟩
  rintro ⟨m, hm, hwrites⟩
  rcases List.mem_append.mp hm with hm | hm
  · have := h.written ⟨m, hm, hwrites⟩
    omega
  · obtain rfl := List.mem_singleton.mp hm
    have := effect_version_of_write t hwrites.1 hwrites.2
    omega

/-- **While the handler computes** it remembers what it observed, and the
target's version tells of every write. -/
theorem since_observed [Scalar S] [SeededUniform F] {h : Handler F S}
    {outcome : Except AlgebraError (Loadable F) → Prop} {s : Session F S} {expected : Option ℕ}
    {movers : List (Mover F)} {q : Session F S × Progress F}
    (hrun : Run (Moves h outcome) (s, .observed expected) movers q) :
    (∃ r, q.2 = .answered r) ∨
      (q.2 = .observed expected ∨ ∃ result, q.2 = .computed expected result) ∧ Since s q.1 movers := by
  refine hrun.history (P := fun movers q => (∃ r, q.2 = .answered r) ∨
    (q.2 = .observed expected ∨ ∃ result, q.2 = .computed expected result) ∧ Since s q.1 movers)
    (Or.inr ⟨Or.inl rfl, rfl, le_refl _, by simp⟩) ?_
  intro movers q m q' hq hmove
  have hhandler : ∀ {t : Session F S}, Since s t movers → Since s t (movers ++ [.handler]) := fun hs =>
    ⟨hs.valid, hs.version, by
      rintro ⟨m, hm, hwrites⟩
      rcases List.mem_append.mp hm with hm | hm
      · exact hs.written ⟨m, hm, hwrites⟩
      · obtain rfl := List.mem_singleton.mp hm
        exact hwrites.elim⟩
  cases hmove with
  | observe => simp at hq
  | unobserved => exact Or.inl ⟨_, rfl⟩
  | compute =>
    obtain ⟨r, hr⟩ | ⟨hp | ⟨result, hp⟩, hs⟩ := hq
    · simp at hr
    · obtain rfl := Progress.observed.inj hp
      exact Or.inr ⟨Or.inr ⟨_, rfl⟩, hhandler hs⟩
    · simp at hp
  | uncomputed => exact Or.inl ⟨_, rfl⟩
  | store => exact Or.inl ⟨_, rfl⟩
  | unstored => exact Or.inl ⟨_, rfl⟩
  | client hstep =>
    obtain hr | ⟨hp, hs⟩ := hq
    · exact Or.inl hr
    · exact Or.inr ⟨hp, hs.client hstep⟩

/-- What an endpoint observes, unless it is `algebra_permute`. -/
theorem handler_observe {endpoint : Endpoint} (hne : endpoint ≠ .permute) :
    (endpoint.handler (F := F) (S := S)).observe = readInner >>= fun inner => pure (some inner.version) := by
  cases endpoint with
  | permute => exact absurd rfl hne
  | bulkLoad =>
    show (snapshotVersioned >>= _) >>= _ = _
    unfold snapshotVersioned
    rw [bind_assoc, bind_assoc]
    rfl
  | _ =>
    show version >>= _ = _
    unfold version
    rw [bind_assoc]
    rfl

/-- An endpoint that observed its target saw a readable memory and its version. -/
theorem handler_observed {endpoint : Endpoint} (hne : endpoint ≠ .permute) {s : Session F S} {expected : Option ℕ}
    {fs fs' : List (Option HeatherError)}
    (h : (endpoint.handler (F := F) (S := S)).observe ⟨s, fs⟩ = (.ok expected, ⟨s, fs'⟩)) :
    s.collection.inner.valid = true ∧ expected = some s.versionNumber := by
  rw [handler_observe hne] at h
  rcases readInner_cases s fs with ⟨hv, hread⟩ | hread
  · rw [bind_of_ok hread, pure_apply, Prod.mk.injEq, Except.ok.injEq] at h
    exact ⟨hv, h.1.symm⟩
  · rw [bind_of_error hread, Prod.mk.injEq] at h
    simp at h

namespace Loadable

/-- A checked store under another version than the target's is refused. -/
theorem intoCollectionChecked_conflict (snap : Loadable F) {v : ℕ} {s : Session F S}
    (hv : s.collection.inner.valid = true) (hne : s.versionNumber ≠ v) (fs : List (Option HeatherError)) :
    ∃ msg, snap.intoCollectionChecked v ⟨s, fs⟩ = (.error (.conflict msg), ⟨s, fs⟩) :=
  loadSnapshotChecked_conflict snap.valid snap.addressed hv hne fs

/-- An unchecked store is never refused. -/
theorem intoCollection_ne_conflict (snap : Loadable F) {s : Session F S} {plan : List (Option String)}
    {e : HeatherError} {w : World HeatherError (Session F S)}
    (h : snap.intoCollection ⟨s, plan.map (Option.map .storage)⟩ = (.error e, w)) (msg : String) :
    e ≠ .conflict msg := by
  rintro rfl
  rcases loadSnapshot_blames snap.valid snap.addressed h with he | he
  · simp [recoveryFailed] at he
  · simp at he

end Loadable

variable [Scalar S] [SeededUniform F]

/-- **Only `algebra_permute` loses a write.** If a write to the target was
acknowledged after a handler looked at the target and before it stores, then
the handler answers that the target changed and leaves it alone, unless it is
`algebra_permute`, which never does. -/
theorem conflict_iff_checked {endpoint : Endpoint} {outcome : Except AlgebraError (Loadable F) → Prop}
    {s s' s'' : Session F S} {seen expected : Option ℕ} {movers : List (Mover F)} {result : Loadable F}
    {r : Except AlgebraError ℕ}
    (hobserve : Moves endpoint.handler outcome (s, .begun) .handler (s, .observed seen))
    (hbetween : Run (Moves endpoint.handler outcome) (s, .observed seen) movers (s', .computed expected result))
    (hwrite : ∃ m ∈ movers, m.Writes)
    (hstore : Moves endpoint.handler outcome (s', .computed expected result) .handler (s'', .answered r)) :
    (Progress.Conflicted r ∧ s'' = s') ↔ endpoint ≠ .permute := by
  obtain ⟨a, ha⟩ | ⟨hprogress, hsince⟩ := since_observed hbetween
  · simp at ha
  obtain ⟨rfl⟩ : seen = expected := by
    rcases hprogress with h | ⟨b, h⟩
    · simp at h
    · exact (Progress.computed.inj h).1.symm
  constructor
  · rintro ⟨⟨msg, rfl⟩, -⟩ rfl
    -- the storage's errors are all it answers
    cases hstore with
    | unstored plan hrun => exact result.intoCollection_ne_conflict hrun msg rfl
  · intro hne
    cases hobserve with
    | observe hrun =>
      obtain ⟨hv, rfl⟩ := handler_observed hne hrun
      have hlater := hsince.written hwrite
      have hstored : ∀ fs, ∃ msg, (endpoint.handler (F := F) (S := S)).store (some s.versionNumber) result ⟨s', fs⟩ =
          (.error (.conflict msg), ⟨s', fs⟩) := by
        intro fs
        have hchecked : (endpoint.handler (F := F) (S := S)).store (some s.versionNumber) result =
            result.intoCollectionChecked s.versionNumber := by
          cases endpoint with
          | permute => exact absurd rfl hne
          | _ => rfl
        rw [hchecked]
        exact result.intoCollectionChecked_conflict (hsince.valid.trans hv) hlater.ne' fs
      cases hstore with
      | store plan hrun' =>
        obtain ⟨msg, hconflict⟩ := hstored (plan.map (Option.map .storage))
        have := hconflict.symm.trans hrun'
        simp at this
      | unstored plan hrun' =>
        obtain ⟨msg, hconflict⟩ := hstored (plan.map (Option.map .storage))
        have heq := hconflict.symm.trans hrun'
        simp only [Prod.mk.injEq, Except.error.injEq, World.mk.injEq] at heq
        exact ⟨⟨msg, by rw [heq.1]⟩, heq.2.1.symm⟩

/-- A result without locations. -/
def emptyResult : Loadable ℚ where
  locations := []
  config := smallConfig false
  valid := smallConfig_valid
  addressed := rfl

/-- The small collection after a write. -/
def smallWritten : Session ℚ ℚ := Call.effect (smallSession false) (.write [1])

/-- A write while `endpoint` computes its result for the small collection. -/
theorem moves_smallWritten {endpoint : Endpoint} {expected : Option ℕ} :
    Run (Moves (endpoint.handler (F := ℚ) (S := ℚ)) (· = .ok emptyResult)) (smallSession false, .observed expected)
      [.client (.write [1]), .handler] (smallWritten, .computed expected emptyResult) :=
  .snoc (.single (.client (step_of_isOk (c := .write [1]) (by decide +kernel)))) (.compute rfl)

/-- `algebra_add` refused. -/
theorem conflict_iff_checked_add : ∃ r : Except AlgebraError ℕ, Progress.Conflicted r ∧
    Moves (Endpoint.add.handler (F := ℚ) (S := ℚ)) (· = .ok emptyResult)
      (smallWritten, .computed (some 0) emptyResult) .handler (smallWritten, .answered r) := by
  obtain ⟨msg, hrun⟩ := emptyResult.intoCollectionChecked_conflict (s := smallWritten) (v := 0)
    (by decide +kernel) (by decide +kernel) []
  have hstore : Moves (Endpoint.add.handler (F := ℚ) (S := ℚ)) (· = .ok emptyResult)
      (smallWritten, .computed (some 0) emptyResult) .handler
      (smallWritten, .answered (.error (.db (.conflict msg)))) := .unstored [] hrun
  refine ⟨_, ?_, hstore⟩
  exact ((conflict_iff_checked (.observe (bind_of_ok (version_eq rfl []) _)) moves_smallWritten
    ⟨_, List.mem_cons_self, trivial, by simp [Call.patterns]⟩ hstore).mpr (by decide)).1

/-- **`algebra_permute` loses a write**: it answers with success, and the
location a client wrote in the meantime is gone. -/
theorem permute_loses_write : ∃ s' : Session ℚ ℚ,
    Moves (Endpoint.permute.handler (F := ℚ) (S := ℚ)) (· = .ok emptyResult) (smallSession false, .begun) .handler
      (smallSession false, .observed none) ∧
    Run (Moves (Endpoint.permute.handler (F := ℚ) (S := ℚ)) (· = .ok emptyResult))
      (smallSession false, .observed none) [.client (.write [1]), .handler]
      (smallWritten, .computed none emptyResult) ∧
    Moves (Endpoint.permute.handler (F := ℚ) (S := ℚ)) (· = .ok emptyResult)
      (smallWritten, .computed none emptyResult) .handler (s', .answered (.ok 0)) ∧
    smallWritten.collection.inner.locations.length = 1 ∧ s'.collection.inner.locations = [] := by
  obtain ⟨e, fs', s', hrun, -⟩ | ⟨-, -, fs', hrun⟩ :=
    loadSnapshotChecked_cases emptyResult.locations emptyResult.config none smallWritten []
  · have hok : (loadSnapshotChecked emptyResult.locations emptyResult.config none ⟨smallWritten, []⟩).1.isOk =
        true := by
      decide +kernel
    rw [hrun] at hok
    simp [Except.isOk, Except.toBool] at hok
  · have hobserve : (Endpoint.permute.handler (F := ℚ) (S := ℚ)).observe ⟨smallSession false, []⟩ =
        (.ok none, ⟨smallSession false, []⟩) := rfl
    exact ⟨smallWritten.replaced emptyResult.locations emptyResult.config, .observe hobserve, moves_smallWritten,
      .store [] hrun, by decide +kernel, rfl⟩

end HeatherDb
