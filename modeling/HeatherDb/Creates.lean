/-
# Concurrent creates

Calls of `create_database` interleave: each looks into the map of mounted
databases, then writes its files with no lock held, then looks into the map
again. `createStep` is a call cut where another may come between, and
`createDatabase_eq` says that the pieces run in turn are the call.

A database on disk that is not in the map, one refused for its format or one
that another call is creating, is not seen by the first look. Where every call
finds its name free of both (`Creates.Clear`), no call harms a database
(`creates_harmless`).

Key definitions: `CreatePhase`, `createStep`, `Creates`, `Creates.Clear`.
Key theorems: `createDatabase_eq`, `Creates.orderly_step`,
`creates_harmless`.
-/
import HeatherDb.Backup

namespace HeatherDb

open Program OrderedTable

variable {F E : Type}

/-! ### One call, cut into pieces -/

/-- What a call does next. -/
inductive CreatePhase where
  /-- The checks, and the first look into the map. -/
  | check
  | makeDir
  | writeTmp
  | renameTmp
  /-- `create_dir_all` of `open_hive_for`. -/
  | openDir
  | openEnv
  /-- The second look into the map, and the insert. -/
  | insert
deriving DecidableEq

/-- What comes after, if anything. -/
def CreatePhase.next : CreatePhase → Option CreatePhase
  | check => some makeDir
  | makeDir => some writeTmp
  | writeTmp => some renameTmp
  | renameTmp => some openDir
  | openDir => some openEnv
  | openEnv => some insert
  | insert => none

namespace Server

variable (b : Backend F E) (cfg : DbConfig F)

/-- One piece of a call. -/
def createStep [Scalar F] : CreatePhase → Program HeatherError (Server F E) Unit
  | .check => do
    ofExcept (validateDbName cfg.name)
    ofExcept cfg.eam.validate
    refuseMounted cfg.name
  | .makeDir => createDir cfg.name
  | .writeTmp => do
    ensure (b.encodes cfg) (.serialization "toml encode")
    writeTmp cfg.name cfg
  | .renameTmp => renameTmp cfg.name
  | .openDir => do
    createDir cfg.name
    ofExcept cfg.eam.validate
  | .openEnv => do
    step
    openEnv b cfg.name cfg.mapSizeMb
    step
    step
  | .insert => insert cfg.name ⟨cfg, cfg.name⟩

/-- **The pieces one after another are `createDatabase`.** -/
theorem createDatabase_eq [Scalar F] : createDatabase b cfg = (do
    createStep b cfg .check
    createStep b cfg .makeDir
    createStep b cfg .writeTmp
    createStep b cfg .renameTmp
    createStep b cfg .openDir
    createStep b cfg .openEnv
    createStep b cfg .insert
    pure ⟨cfg, cfg.name⟩) := by
  simp only [createDatabase, createStep, save, openHiveFor, Program.bind_assoc, Program.pure_bind]

/-- What a piece does to the server when it succeeds. -/
def effect (s : Server F E) : CreatePhase → Server F E
  | .check => s
  | .makeDir => { s with root := DataDir.createDir cfg.name s.root }
  | .writeTmp => { s with root := DataDir.writeTmp cfg cfg.name s.root }
  | .renameTmp => { s with root := DataDir.renameTmp cfg.name s.root }
  | .openDir => { s with root := DataDir.createDir cfg.name s.root }
  | .openEnv => { s with root := DataDir.makeEnv b.fresh cfg.name s.root }
  | .insert => { s with inner := s.inner.put cfg.name ⟨cfg, cfg.name⟩ }

/-- What has to hold for a piece to succeed, as far as it concerns the calls. -/
def Guard (s : Server F E) : CreatePhase → Prop
  | .check | .insert => s.inner.get cfg.name = none
  | _ => True

variable {b cfg}

/-- A piece that returned had its effect. -/
theorem createStep_gives [Scalar F] {s s' : Server F E} {u : Unit} {phase : CreatePhase}
    (h : Gives (createStep b cfg phase) s u s') :
    Guard cfg s phase ∧ s' = effect b cfg s phase := by
  cases phase with
  | check =>
    obtain ⟨_, -, h⟩ := h.ofExcept_bind
    obtain ⟨_, -, h⟩ := h.ofExcept_bind
    exact refuseMounted_gives h
  | makeDir => exact ⟨trivial, createDir_gives h⟩
  | writeTmp => exact ⟨trivial, h.ensure_bind.2.step_bind.modify⟩
  | renameTmp => exact ⟨trivial, h.step_bind.get_bind.ensure_bind.2.modify⟩
  | openDir =>
    obtain ⟨_, s₁, hdir, h⟩ := h.bind
    exact ⟨trivial, h.ofExcept.2.trans (createDir_gives hdir)⟩
  | openEnv =>
    obtain ⟨_, s₁, henv, h⟩ := h.step_bind.bind
    obtain ⟨-, -, hs⟩ := openEnv_gives henv
    exact ⟨trivial, h.step_bind.step.trans hs⟩
  | insert =>
    obtain ⟨_, s₁, hcheck, h⟩ := h.bind
    obtain ⟨hnone, hs⟩ := refuseMounted_gives hcheck
    rw [hs] at h
    exact ⟨hnone, h.modify⟩

/-- Whatever fails in it, a piece has its effect or none. -/
theorem createStep_atomic [Scalar F] (b : Backend F E) (cfg : DbConfig F) (phase : CreatePhase) :
    Atomic (createStep b cfg phase) fun s => effect b cfg s phase := by
  have hcheck : Steady (refuseMounted cfg.name : Program HeatherError (Server F E) Unit) () :=
    Steady.get_bind fun _ => Steady.ensure
  have hdir : Atomic (createDir cfg.name : Program HeatherError (Server F E) Unit) fun s =>
      { s with root := DataDir.createDir cfg.name s.root } := Atomic.after Steady.step Atomic.modify
  cases phase with
  | check => exact Atomic.of_steady (Steady.ofExcept.bind (Steady.ofExcept.bind hcheck))
  | makeDir => exact hdir
  | writeTmp =>
    apply Atomic.after Steady.ensure
    exact Atomic.after Steady.step Atomic.modify
  | renameTmp =>
    apply Atomic.after Steady.step
    refine Atomic.get_bind fun _ => ?_
    exact Atomic.after Steady.ensure Atomic.modify
  | openDir => exact hdir.before fun _ => Steady.ofExcept
  | openEnv =>
    apply Atomic.after Steady.step
    refine Atomic.before ?_ fun _ => Steady.step.bind Steady.step
    apply Atomic.after Steady.step
    refine Atomic.get_bind fun _ => ?_
    apply Atomic.after Steady.ensure
    exact Atomic.after Steady.ensure Atomic.modify
  | insert => exact Atomic.after hcheck Atomic.modify

/-! ### What a piece leaves alone -/

variable {s : Server F E} {cfg' : DbConfig F} {phase : CreatePhase}

theorem dir_effect_of_ne {other : String} (h : other ≠ cfg.name) :
    (effect b cfg s phase).root.dir other = s.root.dir other := by
  cases phase <;> simp [effect, DataDir.createDir, DataDir.writeTmp, DataDir.renameTmp, DataDir.makeEnv, h]

theorem inner_effect_of_ne {other : String} (h : other ≠ cfg.name) :
    (effect b cfg s phase).inner.get other = s.inner.get other := by
  cases phase <;> simp [effect, get_put_of_ne _ _ h]

/-- No piece takes a database out of the map. -/
theorem inner_effect_isSome {other : String} (h : (s.inner.get other).isSome) :
    ((effect b cfg s phase).inner.get other).isSome := by
  cases phase with
  | insert =>
    simp only [effect, get_put]
    split_ifs
    · rfl
    · exact h
  | check | makeDir | writeTmp | renameTmp | openDir | openEnv => exact h

/-- No piece changes an environment that is there. -/
theorem data_effect {other : String} {data : E} (h : (s.root.dir other).data = some data) :
    ((effect b cfg s phase).root.dir other).data = some data := by
  by_cases hother : other = cfg.name
  · subst hother
    cases phase <;> simp [effect, DataDir.createDir, DataDir.writeTmp, DataDir.renameTmp, DataDir.makeEnv, h]
  · rw [dir_effect_of_ne hother, h]

/-- What a call has made so far is on disk, and what it will make is not. -/
def Owned (s : Server F E) (cfg : DbConfig F) (phase : CreatePhase) : Prop :=
  s.inner.get cfg.name = none ∧
    match phase with
    | .check => True
    | .makeDir | .writeTmp => (s.root.dir cfg.name).toml = none
    | .renameTmp => (s.root.dir cfg.name).toml = none ∧ (s.root.dir cfg.name).tomlTmp = some cfg
    | .openDir | .openEnv | .insert => (s.root.dir cfg.name).toml = some cfg

/-- The next piece finds what it needs. -/
theorem owned_effect {next : CreatePhase} (h : Owned s cfg phase) (hphase : phase ≠ .check)
    (hnext : phase.next = some next) :
    Owned (effect b cfg s phase) cfg next := by
  obtain ⟨hinner, hfiles⟩ := h
  cases phase with
  | check => exact absurd rfl hphase
  | insert => simp [CreatePhase.next] at hnext
  | makeDir | writeTmp | renameTmp | openDir | openEnv =>
    obtain rfl := Option.some.inj hnext
    refine ⟨hinner, ?_⟩
    simp_all [effect, DataDir.createDir, DataDir.writeTmp, DataDir.renameTmp, DataDir.makeEnv]

theorem owned_effect_of_ne {phase' : CreatePhase} (h : Owned s cfg' phase') (hname : cfg'.name ≠ cfg.name) :
    Owned (effect b cfg s phase) cfg' phase' := by
  unfold Owned at h ⊢
  rw [inner_effect_of_ne hname, dir_effect_of_ne hname]
  exact h

/-- A call that owns its name changes no `db.toml` that is there. -/
theorem toml_effect {other : String} {toml : DbConfig F} (h : Owned s cfg phase)
    (htoml : (s.root.dir other).toml = some toml) :
    ((effect b cfg s phase).root.dir other).toml = some toml := by
  by_cases hother : other = cfg.name
  · subst hother
    obtain ⟨-, hfiles⟩ := h
    cases phase <;> simp_all [effect, DataDir.createDir, DataDir.makeEnv]
  · rw [dir_effect_of_ne hother, htoml]

/-- What is mounted runs with the configuration on disk. -/
def ConfigOnDisk (s : Server F E) : Prop :=
  ∀ name mounted, s.database name = some mounted → (s.root.dir name).toml = some mounted.config

theorem configOnDisk_effect (h : ConfigOnDisk s) (howned : Owned s cfg phase) :
    ConfigOnDisk (effect b cfg s phase) := by
  intro name mounted hmounted
  by_cases hinsert : phase = .insert ∧ name = cfg.name
  · obtain ⟨rfl, rfl⟩ := hinsert
    obtain rfl : mounted = ⟨cfg, cfg.name⟩ := by
      simpa [database, effect] using hmounted.symm
    exact howned.2
  · have hsame : s.database name = some mounted := by
      rw [← hmounted, database, database]
      cases phase with
      | insert => exact (get_put_of_ne _ _ fun hname => hinsert ⟨rfl, hname⟩).symm
      | check | makeDir | writeTmp | renameTmp | openDir | openEnv => rfl
    exact toml_effect howned (h name mounted hsame)

end Server

/-! ### Calls that interleave -/

variable [Scalar F]

inductive CallState where
  | running (phase : CreatePhase)
  | returned (r : Except HeatherError Unit)

/-- Where a call is after a piece. -/
def CreatePhase.after (phase : CreatePhase) : Except HeatherError Unit → CallState
  | .error e => .returned (.error e)
  | .ok () => phase.next.elim (.returned (.ok ())) .running

structure CreateCall (F : Type) where
  cfg : DbConfig F
  state : CallState

/-- A server and the calls made to it. -/
structure Creates (F E : Type) where
  server : Server F E
  calls : List (CreateCall F)

inductive CreateEvent (F : Type) where
  | call (cfg : DbConfig F)
  /-- The next piece of a call, with the plan of its faults. -/
  | turn (i : ℕ) (faults : List (Option HeatherError))

namespace Creates

variable {b : Backend F E}

def step (b : Backend F E) (c : Creates F E) : CreateEvent F → Creates F E
  | .call cfg => { c with calls := c.calls ++ [⟨cfg, .running .check⟩] }
  | .turn i faults =>
    match c.calls[i]? with
    | some ⟨cfg, .running phase⟩ =>
      let (r, w) := Server.createStep b cfg phase ⟨c.server, faults⟩
      ⟨w.state, c.calls.set i ⟨cfg, phase.after r⟩⟩
    | _ => c

/-- A call is about to run a piece. -/
abbrev Running (c : Creates F E) (i : ℕ) (cfg : DbConfig F) (phase : CreatePhase) : Prop :=
  c.calls[i]? = some ⟨cfg, .running phase⟩

/-- A call returned `Ok`. -/
abbrev Succeeded (c : Creates F E) (i : ℕ) (cfg : DbConfig F) : Prop := c.calls[i]? = some ⟨cfg, .returned (.ok ())⟩

/-- **What one event does.** -/
theorem step_cases (c : Creates F E) (event : CreateEvent F) :
    (∃ cfg, event = .call cfg ∧ step b c event = { c with calls := c.calls ++ [⟨cfg, .running .check⟩] }) ∨
      step b c event = c ∨
      ∃ i faults cfg phase, event = .turn i faults ∧ c.Running i cfg phase ∧
        ((∃ e s, (s = c.server ∨ s = Server.effect b cfg c.server phase) ∧
            step b c event = ⟨s, c.calls.set i ⟨cfg, .returned (.error e)⟩⟩) ∨
          Server.Guard cfg c.server phase ∧
            step b c event = ⟨Server.effect b cfg c.server phase, c.calls.set i ⟨cfg, phase.after (.ok ())⟩⟩) := by
  cases event with
  | call cfg => exact .inl ⟨cfg, rfl, rfl⟩
  | turn i faults =>
    right
    rcases hcall : c.calls[i]? with _ | ⟨cfg, phase | r⟩
    · exact .inl (by simp only [step, hcall])
    · refine .inr ⟨i, faults, cfg, phase, rfl, hcall, ?_⟩
      simp only [step, hcall]
      have hatomic := Server.createStep_atomic b cfg phase ⟨c.server, faults⟩
      rcases hrun : Server.createStep b cfg phase ⟨c.server, faults⟩ with ⟨e | u, ⟨s, faults'⟩⟩
      · rw [hrun] at hatomic
        exact .inl ⟨e, s, hatomic, rfl⟩
      · obtain ⟨hguard, rfl⟩ := Server.createStep_gives ⟨faults, faults', hrun⟩
        exact .inr ⟨hguard, rfl⟩
    · exact .inl (by simp only [step, hcall])

/-- A call has passed its first look at a name. -/
def creating (name : String) : CreateCall F → Bool
  | ⟨cfg, .running phase⟩ => decide (phase ≠ .check) && decide (cfg.name = name)
  | ⟨_, .returned _⟩ => false

/-- At its first look, unless it finds its name in the map, a call has no
`db.toml` on disk under that name, and no other call creates it. -/
def Clear (c : Creates F E) : CreateEvent F → Prop
  | .call _ => True
  | .turn i _ =>
    match c.calls[i]? with
    | some ⟨cfg, .running .check⟩ =>
      (c.server.inner.get cfg.name).isNone → (c.server.root.dir cfg.name).toml.isNone ∧
        ∀ call ∈ c.calls, creating cfg.name call = false
    | _ => True

instance (c : Creates F E) : (event : CreateEvent F) → Decidable (c.Clear event)
  | .call _ => inferInstanceAs (Decidable True)
  | .turn i _ => by
    unfold Clear
    dsimp only
    split <;> infer_instance

omit [Scalar F] in
theorem Clear.check {c : Creates F E} {i : ℕ} {faults : List (Option HeatherError)} {cfg : DbConfig F}
    (h : c.Clear (.turn i faults)) (hcall : c.Running i cfg .check) (hnone : c.server.inner.get cfg.name = none) :
    (c.server.root.dir cfg.name).toml = none ∧
      ∀ j cfg' phase, c.Running j cfg' phase → phase ≠ .check → cfg'.name ≠ cfg.name := by
  have hcall' : c.calls[i]? = some ⟨cfg, .running .check⟩ := hcall
  simp only [Clear, hcall', hnone, Option.isNone_none, forall_const, Option.isNone_iff_eq_none] at h
  obtain ⟨htoml, hothers⟩ := h
  refine ⟨htoml, fun j cfg' phase hj hphase hname => ?_⟩
  have hfree := hothers _ (List.mem_of_getElem? hj)
  simp [creating, hphase, hname] at hfree

/-- Calls own what they have made, and no two the same name. -/
structure Orderly (c : Creates F E) : Prop where
  config : c.server.ConfigOnDisk
  owned : ∀ i cfg phase, c.Running i cfg phase → phase ≠ .check → c.server.Owned cfg phase
  alone : ∀ i j cfg cfg' phase phase', c.Running i cfg phase → c.Running j cfg' phase' → phase ≠ .check →
    phase' ≠ .check → cfg.name = cfg'.name → i = j

/-- Successful calls are mounted, and no two of one name succeed. -/
structure Once (c : Creates F E) : Prop where
  mounted : ∀ i cfg, c.Succeeded i cfg → (c.server.database cfg.name).isSome
  once : ∀ i j cfg cfg', c.Succeeded i cfg → c.Succeeded j cfg' → cfg.name = cfg'.name → i = j

/-! ### The list of calls -/

omit [Scalar F] in
theorem getElem?_append_of {calls : List (CreateCall F)} {call call' : CreateCall F} {j : ℕ}
    (h : (calls ++ [call])[j]? = some call') : calls[j]? = some call' ∨ call' = call := by
  rcases lt_trichotomy j calls.length with hlt | rfl | hgt
  · rw [List.getElem?_append_left hlt] at h
    exact .inl h
  · simp at h
    exact .inr h.symm
  · rw [List.getElem?_eq_none (by simp; omega)] at h
    cases h

omit [Scalar F] in
theorem getElem?_set_of {calls : List (CreateCall F)} {call call' : CreateCall F} {i j : ℕ}
    (h : (calls.set i call)[j]? = some call') : j = i ∧ call' = call ∨ j ≠ i ∧ calls[j]? = some call' := by
  rw [List.getElem?_set] at h
  split_ifs at h with hij
  · exact .inl ⟨hij.symm, (Option.some.inj h).symm⟩
  · exact .inr ⟨fun hji => hij hji.symm, h⟩

/-! ### What every event keeps -/

/-- Two calls of one name do not both succeed: the second finds the name in the
map when it looks again. -/
theorem once_step {c : Creates F E} {event : CreateEvent F} (h : c.Once) : (step b c event).Once := by
  rcases step_cases (b := b) c event with ⟨cfg, -, hs⟩ | hs | ⟨i, faults, cfg, phase, -, hcall, hturn⟩
  · rw [hs]
    have hold : ∀ j cfg', Succeeded { c with calls := c.calls ++ [⟨cfg, .running .check⟩] } j cfg' →
        c.Succeeded j cfg' := by
      intro j cfg' hj
      rcases getElem?_append_of hj with hj | hj
      · exact hj
      · cases hj
    exact ⟨fun j cfg' hj => h.mounted j cfg' (hold j cfg' hj),
      fun j k cfg' cfg'' hj hk => h.once j k cfg' cfg'' (hold j cfg' hj) (hold k cfg'' hk)⟩
  · rw [hs]
    exact h
  · rcases hturn with ⟨e, s, hserver, hs⟩ | ⟨hguard, hs⟩
    · rw [hs]
      have hold : ∀ j cfg', Succeeded ⟨s, c.calls.set i ⟨cfg, .returned (.error e)⟩⟩ j cfg' → c.Succeeded j cfg' := by
        intro j cfg' hj
        rcases getElem?_set_of hj with ⟨-, hj⟩ | ⟨-, hj⟩
        · cases hj
        · exact hj
      refine ⟨fun j cfg' hj => ?_, fun j k cfg' cfg'' hj hk => h.once j k cfg' cfg'' (hold j cfg' hj) (hold k cfg'' hk)⟩
      have hmounted := h.mounted j cfg' (hold j cfg' hj)
      rcases hserver with rfl | rfl
      · exact hmounted
      · exact Server.inner_effect_isSome hmounted
    · rw [hs]
      have hcases : ∀ j cfg', Succeeded ⟨Server.effect b cfg c.server phase,
          c.calls.set i ⟨cfg, phase.after (.ok ())⟩⟩ j cfg' →
          j = i ∧ cfg' = cfg ∧ phase = .insert ∨ j ≠ i ∧ c.Succeeded j cfg' := by
        intro j cfg' hj
        rcases getElem?_set_of hj with ⟨hi, hnew⟩ | hold
        · obtain ⟨hcfg, hafter⟩ := CreateCall.mk.inj hnew
          refine .inl ⟨hi, hcfg, ?_⟩
          cases phase <;> first | rfl | simp [CreatePhase.after, CreatePhase.next] at hafter
        · exact .inr hold
      -- a call that succeeds now found its name free, so no earlier one has it
      have hfresh : phase = .insert → ∀ j cfg', c.Succeeded j cfg' → cfg'.name ≠ cfg.name := by
        rintro rfl j cfg' hj hname
        have hmounted := h.mounted j cfg' hj
        rw [Server.database, hname, hguard] at hmounted
        cases hmounted
      constructor
      · intro j cfg' hj
        rcases hcases j cfg' hj with ⟨-, rfl, rfl⟩ | ⟨-, hold⟩
        · simp [Server.database, Server.effect]
        · exact Server.inner_effect_isSome (h.mounted j cfg' hold)
      · intro j k cfg' cfg'' hj hk hname
        rcases hcases j cfg' hj with ⟨hji, hcfg, hphase⟩ | ⟨-, hold⟩ <;>
          rcases hcases k cfg'' hk with ⟨hki, hcfg', hphase'⟩ | ⟨-, hold'⟩
        · exact hji.trans hki.symm
        · exact absurd (hname.symm.trans (hcfg ▸ rfl)) (hfresh hphase k cfg'' hold')
        · exact absurd (hname.trans (hcfg' ▸ rfl)) (hfresh hphase' j cfg' hold)
        · exact h.once j k cfg' cfg'' hold hold' hname

theorem data_step {c : Creates F E} {event : CreateEvent F} {name : String} {data : E}
    (h : (c.server.root.dir name).data = some data) : ((step b c event).server.root.dir name).data = some data := by
  rcases step_cases (b := b) c event with ⟨cfg, -, hs⟩ | hs |
    ⟨i, faults, cfg, phase, -, -, ⟨e, s, rfl | rfl, hs⟩ | ⟨-, hs⟩⟩
  · rw [hs]
    exact h
  · rw [hs]
    exact h
  · rw [hs]
    exact h
  · rw [hs]
    exact Server.data_effect h
  · rw [hs]
    exact Server.data_effect h

/-! ### What an event in the clear keeps -/

omit [Scalar F] in
/-- A piece of a call that owns its name, whether it succeeds or fails. -/
theorem orderly_set {c : Creates F E} {i : ℕ} {cfg : DbConfig F} {phase : CreatePhase} {s : Server F E}
    {state : CallState}
    (h : c.Orderly) (hcall : c.Running i cfg phase) (hphase : phase ≠ .check)
    (hserver : s = c.server ∨ s = Server.effect b cfg c.server phase)
    (hstate : ∀ next, state = .running next → phase.next = some next ∧ s = Server.effect b cfg c.server phase) :
    Orderly ⟨s, c.calls.set i ⟨cfg, state⟩⟩ := by
  have howned := h.owned i cfg phase hcall hphase
  have hcases : ∀ j cfg' phase', Running ⟨s, c.calls.set i ⟨cfg, state⟩⟩ j cfg' phase' →
      j = i ∧ cfg' = cfg ∧ phase.next = some phase' ∧ s = Server.effect b cfg c.server phase ∨
        j ≠ i ∧ c.Running j cfg' phase' := by
    intro j cfg' phase' hj
    rcases getElem?_set_of hj with ⟨hi, hnew⟩ | hold
    · obtain ⟨hcfg, hrunning⟩ := CreateCall.mk.inj hnew
      obtain ⟨hnext, hs⟩ := hstate phase' hrunning.symm
      exact .inl ⟨hi, hcfg, hnext, hs⟩
    · exact .inr hold
  refine ⟨?_, ?_, ?_⟩
  · rcases hserver with rfl | rfl
    · exact h.config
    · exact Server.configOnDisk_effect h.config howned
  · intro j cfg' phase' hj hphase'
    rcases hcases j cfg' phase' hj with ⟨rfl, rfl, hnext, rfl⟩ | ⟨hji, hold⟩
    · exact Server.owned_effect howned hphase hnext
    · have hold' := h.owned j cfg' phase' hold hphase'
      rcases hserver with rfl | rfl
      · exact hold'
      · exact Server.owned_effect_of_ne hold' fun hname =>
          hji (h.alone j i cfg' cfg phase' phase hold hcall hphase' hphase hname)
  · intro j k cfg' cfg'' phase' phase'' hj hk hphase' hphase'' hname
    rcases hcases j cfg' phase' hj with ⟨hji, hcfg, -⟩ | ⟨-, hold⟩ <;>
      rcases hcases k cfg'' phase'' hk with ⟨hki, hcfg', -⟩ | ⟨-, hold'⟩
    · exact hji.trans hki.symm
    · exact hji.trans (h.alone i k cfg cfg'' phase phase'' hcall hold' hphase hphase'' (hcfg ▸ hname))
    · exact (h.alone j i cfg' cfg phase' phase hold hcall hphase' hphase (hcfg' ▸ hname)).trans hki.symm
    · exact h.alone j k cfg' cfg'' phase' phase'' hold hold' hphase' hphase'' hname

omit [Scalar F] in
/-- The first look of a call, which changes nothing but where the call is. -/
theorem orderly_check {c : Creates F E} {i : ℕ} {cfg : DbConfig F} {state : CallState} (h : c.Orderly)
    (hstate : ∀ phase, state = .running phase → phase = .makeDir ∧ c.server.inner.get cfg.name = none ∧
      (c.server.root.dir cfg.name).toml = none ∧
        ∀ j cfg' phase, c.Running j cfg' phase → phase ≠ .check → cfg'.name ≠ cfg.name) :
    Orderly ⟨c.server, c.calls.set i ⟨cfg, state⟩⟩ := by
  have hcases : ∀ j cfg' phase, Running ⟨c.server, c.calls.set i ⟨cfg, state⟩⟩ j cfg' phase →
      j = i ∧ cfg' = cfg ∧ state = .running phase ∨ j ≠ i ∧ c.Running j cfg' phase := by
    intro j cfg' phase hj
    rcases getElem?_set_of hj with ⟨hi, hnew⟩ | hold
    · obtain ⟨hcfg, hrunning⟩ := CreateCall.mk.inj hnew
      exact .inl ⟨hi, hcfg, hrunning.symm⟩
    · exact .inr hold
  refine ⟨h.config, ?_, ?_⟩
  · intro j cfg' phase hj hphase
    rcases hcases j cfg' phase hj with ⟨-, rfl, hrunning⟩ | ⟨-, hold⟩
    · obtain ⟨rfl, hinner, htoml, -⟩ := hstate phase hrunning
      exact ⟨hinner, htoml⟩
    · exact h.owned j cfg' phase hold hphase
  · intro j k cfg' cfg'' phase phase' hj hk hphase hphase' hname
    rcases hcases j cfg' phase hj with ⟨hji, hcfg, hrunning⟩ | ⟨-, hold⟩ <;>
      rcases hcases k cfg'' phase' hk with ⟨hki, hcfg', hrunning'⟩ | ⟨-, hold'⟩
    · exact hji.trans hki.symm
    · exact absurd (hname.symm.trans (hcfg ▸ rfl)) ((hstate phase hrunning).2.2.2 k cfg'' phase' hold' hphase')
    · exact absurd (hname.trans (hcfg' ▸ rfl)) ((hstate phase' hrunning').2.2.2 j cfg' phase hold hphase)
    · exact h.alone j k cfg' cfg'' phase phase' hold hold' hphase hphase' hname

/-- **An event in the clear keeps every call to its own.** -/
theorem orderly_step {c : Creates F E} {event : CreateEvent F} (h : c.Orderly) (hclear : c.Clear event) :
    (step b c event).Orderly := by
  rcases step_cases (b := b) c event with ⟨cfg, -, hs⟩ | hs | ⟨i, faults, cfg, phase, rfl, hcall, hturn⟩
  · rw [hs]
    have hold : ∀ j cfg' phase, Running { c with calls := c.calls ++ [⟨cfg, .running .check⟩] } j cfg' phase →
        phase ≠ .check → c.Running j cfg' phase := by
      intro j cfg' phase hj hphase
      rcases getElem?_append_of hj with hj | hj
      · exact hj
      · obtain ⟨-, hrunning⟩ := CreateCall.mk.inj hj
        exact absurd (CallState.running.inj hrunning) hphase
    exact ⟨h.config, fun j cfg' phase hj hphase => h.owned j cfg' phase (hold j cfg' phase hj hphase) hphase,
      fun j k cfg' cfg'' phase phase' hj hk hphase hphase' hname => h.alone j k cfg' cfg'' phase phase'
        (hold j cfg' phase hj hphase) (hold k cfg'' phase' hk hphase') hphase hphase' hname⟩
  · rw [hs]
    exact h
  · by_cases hphase : phase = .check
    · subst hphase
      rcases hturn with ⟨e, s, hserver, hs⟩ | ⟨hguard, hs⟩
      · rw [hs]
        obtain rfl : s = c.server := hserver.elim id id
        exact orderly_check h fun _ hrunning => by cases hrunning
      · rw [hs]
        refine orderly_check h fun phase hrunning => ?_
        exact ⟨(CallState.running.inj hrunning).symm, hguard, hclear.check hcall hguard⟩
    · rcases hturn with ⟨e, s, hserver, hs⟩ | ⟨-, hs⟩
      · rw [hs]
        exact orderly_set h hcall hphase hserver fun _ hrunning => by cases hrunning
      · rw [hs]
        refine orderly_set h hcall hphase (.inr rfl) fun next hrunning => ⟨?_, rfl⟩
        unfold CreatePhase.after at hrunning
        cases hnext : phase.next with
        | none => simp [hnext] at hrunning
        | some next' =>
          rw [hnext] at hrunning
          exact congrArg some (CallState.running.inj hrunning)

theorem toml_step {c : Creates F E} {event : CreateEvent F} {name : String} {toml : DbConfig F} (h : c.Orderly)
    (htoml : (c.server.root.dir name).toml = some toml) : ((step b c event).server.root.dir name).toml = some toml := by
  have heffect : ∀ {i cfg phase}, c.Running i cfg phase →
      ((Server.effect b cfg c.server phase).root.dir name).toml = some toml := by
    intro i cfg phase hcall
    by_cases hphase : phase = .check
    · subst hphase
      exact htoml
    · exact Server.toml_effect (h.owned i cfg phase hcall hphase) htoml
  rcases step_cases (b := b) c event with ⟨cfg, -, hs⟩ | hs |
    ⟨i, faults, cfg, phase, -, hcall, ⟨e, s, rfl | rfl, hs⟩ | ⟨-, hs⟩⟩
  · rw [hs]
    exact htoml
  · rw [hs]
    exact htoml
  · rw [hs]
    exact htoml
  · rw [hs]
    exact heffect hcall
  · rw [hs]
    exact heffect hcall

end Creates

/-- A server runs each database with the configuration on disk when it has
opened. -/
theorem Server.configOnDisk_openWith {b : Backend F E} {s : Server F E} {root : DataDir F E}
    {dimension l0 mapSizeMb now : ℕ}
    (h : Gives (openWith b dimension l0 mapSizeMb now) ⟨root, .empty, .empty⟩ () s) : s.ConfigOnDisk := by
  obtain ⟨-, -, hdefault⟩ := openWith_gives h
  have hlooped : (looped b root).ConfigOnDisk := by
    intro name mounted hmounted
    rw [database, inner_looped, mountedOf] at hmounted
    obtain ⟨cfg, hlive, rfl⟩ := Option.map_eq_some_iff.mp hmounted
    simp [toml_looped, hlive]
  rcases ensureDefault_gives hdefault with ⟨rfl, -⟩ | ⟨hnone, -, cfg, mounted, hcfg, hcreate⟩
  · exact hlooped
  · obtain ⟨-, -, -, rfl, -, rfl⟩ := createDatabase_gives hcreate
    intro name mounted hmounted
    change ((looped b root).inner.put cfg.name ⟨cfg, cfg.name⟩).get name = some mounted at hmounted
    rw [get_put] at hmounted
    split_ifs at hmounted with hname
    · obtain rfl := Option.some.inj hmounted
      simp [hname]
    · have htoml := hlooped name mounted hmounted
      simpa [hname, DataDir.createDir] using htoml

namespace Creates

variable {b : Backend F E}

abbrev Steps (b : Backend F E) (c : Creates F E) (events : List (CreateEvent F)) (c' : Creates F E) : Prop :=
  Run (fun c event c' => step b c event = c') c events c'

/-- Events in the clear, one after another. -/
abbrev ClearSteps (b : Backend F E) (c : Creates F E) (events : List (CreateEvent F)) (c' : Creates F E) : Prop :=
  Run (fun c event c' => c.Clear event ∧ step b c event = c') c events c'

/-- What calls may not do to the databases of `c` on the way to `c'`. -/
structure Harmless (c c' : Creates F E) : Prop where
  toml : ∀ name cfg, (c.server.root.dir name).toml = some cfg → (c'.server.root.dir name).toml = some cfg
  data : ∀ name data, (c.server.root.dir name).data = some data → (c'.server.root.dir name).data = some data
  once : c'.Once
  config : c'.server.ConfigOnDisk

/-- **From a server that opened, whatever fails, calls of `create_database`
harm no database in any run in the clear; no run at all changes an environment
or lets two calls of one name succeed.** -/
theorem creates_harmless {s : Server F E} {root : DataDir F E} {dimension l0 mapSizeMb now : ℕ}
    (h : Gives (Server.openWith b dimension l0 mapSizeMb now) ⟨root, .empty, .empty⟩ () s) :
    (∀ events c, ClearSteps b ⟨s, []⟩ events c → ∀ events' c', ClearSteps b c events' c' → c.Harmless c') ∧
      ∀ events c, Steps b ⟨s, []⟩ events c → c.Once ∧ ∀ events' c', Steps b c events' c' →
        ∀ name data, (c.server.root.dir name).data = some data → (c'.server.root.dir name).data = some data := by
  have hinitOnce : Once ⟨s, []⟩ :=
    ⟨fun _ _ hcall => by simp [Succeeded] at hcall, fun _ _ _ _ hcall => by simp [Succeeded] at hcall⟩
  have hinit : Orderly ⟨s, []⟩ := ⟨Server.configOnDisk_openWith h, fun _ _ _ hcall => by simp [Running] at hcall,
    fun _ _ _ _ _ _ hcall => by simp [Running] at hcall⟩
  have honce : ∀ events c, Steps b ⟨s, []⟩ events c → c.Once := fun events c hrun =>
    hrun.invariant hinitOnce fun hc hs => hs ▸ once_step hc
  have horderly : ∀ events c, ClearSteps b ⟨s, []⟩ events c → c.Orderly := fun events c hrun =>
    hrun.invariant hinit fun hc hs => hs.2 ▸ orderly_step hc hs.1
  have hdata : ∀ {c events' c'}, Steps b c events' c' → ∀ name data,
      (c.server.root.dir name).data = some data → (c'.server.root.dir name).data = some data :=
    fun hrun name data hd => hrun.invariant hd fun hd hs => hs ▸ data_step hd
  refine ⟨fun events c hrun events' c' hrun' => ?_, fun events c hrun => ⟨honce events c hrun, fun events' c' => hdata⟩⟩
  have hwhole := hrun.trans hrun'
  refine ⟨fun name cfg htoml => ?_, hdata (hrun'.mono And.right), honce _ c' (hwhole.mono And.right),
    (horderly _ c' hwhole).config⟩
  have hkeeps := hrun'.invariant (P := fun c => c.Orderly ∧ (c.server.root.dir name).toml = some cfg)
    ⟨horderly events c hrun, htoml⟩ fun hc hs => hs.2 ▸ ⟨orderly_step hc.1 hs.1, toml_step hc.1 hc.2⟩
  exact hkeeps.2

/-- A root with one database of a format. -/
def rootOf (format : ℕ) : DataDir ℚ ℕ :=
  { DataDir.fresh with db := empty.put "a" ⟨some { smallDb "a" 1 with formatVersion := format }, none, some 7⟩ }

/-- The server that opens it. -/
def bootedOn (format : ℕ) : Server ℚ ℕ :=
  (Server.openWith smallBackend 1 0 1 0 ⟨⟨rootOf format, .empty, .empty⟩, []⟩).2.state

/-- A call that runs to its end. -/
def wholeCall (name : String) : List (CreateEvent ℚ) :=
  .call (smallDb name 1) :: List.replicate 7 (.turn 0 [])

/-- The theorem about a call for a new name beside a mounted database. -/
theorem creates_harmless_beside :
    Gives (Server.openWith smallBackend 1 0 1 0) ⟨rootOf 1, .empty, .empty⟩ () (bootedOn 1) ∧
      Harmless ⟨bootedOn 1, []⟩ ((wholeCall "b").foldl (step smallBackend) ⟨bootedOn 1, []⟩) ∧
      (((wholeCall "b").foldl (step smallBackend) ⟨bootedOn 1, []⟩).server.database "b").isSome := by
  have hboot : Gives (Server.openWith smallBackend 1 0 1 0) ⟨rootOf 1, .empty, .empty⟩ () (bootedOn 1) :=
    Gives.of_toOption (by decide +kernel)
  have hrun : ClearSteps smallBackend ⟨bootedOn 1, []⟩ (wholeCall "b")
      ((wholeCall "b").foldl (step smallBackend) ⟨bootedOn 1, []⟩) := Run.of_along (by decide +kernel)
  exact ⟨hboot, (creates_harmless hboot).1 [] _ .nil _ _ hrun, by decide +kernel⟩

/-- A call for the name of a database that was refused for its format
overwrites its `db.toml` and opens its data. -/
theorem refused_overwritten :
    Gives (Server.openWith smallBackend 1 0 1 0) ⟨rootOf 2, .empty, .empty⟩ () (bootedOn 2) ∧
      ((bootedOn 2).refused.get "a").isSome ∧
      ¬Harmless ⟨bootedOn 2, []⟩ ((wholeCall "a").foldl (step smallBackend) ⟨bootedOn 2, []⟩) := by
  refine ⟨Gives.of_toOption (by decide +kernel), by decide +kernel, fun h => ?_⟩
  have hbefore : ((bootedOn 2).root.dir "a").toml.map (·.formatVersion) = some 2 := by decide +kernel
  have hafter : (((wholeCall "a").foldl (step smallBackend) ⟨bootedOn 2, []⟩).server.root.dir "a").toml.map
      (·.formatVersion) = some 1 := by decide +kernel
  obtain ⟨cfg, htoml, hformat⟩ := Option.map_eq_some_iff.mp hbefore
  rw [h.toml "a" cfg htoml, Option.map_some, hformat] at hafter
  exact absurd hafter (by decide)

end Creates

end HeatherDb
