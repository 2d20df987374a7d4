/-
# The boot after a create that failed

`create_database` writes `db.toml` before it opens the environment, and a boot
mounts every directory with a `db.toml` or fails. So a create that fails once
its `db.toml` is in place shows at the next boot, which then fails as well, or
mounts a database that no call has reported (`failed_create_iff`).

`requestConfig` is the configuration that the handler of `POST /db` makes of a
request: its map size is checked nowhere.

Key definitions: `requestConfig`, `Replaces`, `SameBoot`, `Unseen`.
Key theorems: `touched_createDatabase`, `bootable_iff`, `failed_create_iff`.
-/
import HeatherDb.Backup
import HeatherDb.Boot

namespace HeatherDb

open Program OrderedTable

/-! ### The request -/

structure EamConfigOverride (F : Type) where
  k : Option ℕ
  tMax : Option ℕ
  beta : Option F
  neighborCap : Option ℕ
  numLandmarks : Option ℕ
  l0 : Option ℕ
  competitive : Option Bool
  precision : Option Precision

structure CreateDatabaseRequest (F : Type) where
  name : String
  dimension : ℕ
  mapSizeMb : Option ℕ
  mdlGate : Bool
  eam : Option (EamConfigOverride F)

variable {F E : Type} [Scalar F]

/-- The knobs with those of a request in their places. -/
def EamConfigOverride.apply (o : EamConfigOverride F) (eam : EAMConfig F) : EAMConfig F :=
  { eam with
    k := o.k.getD eam.k
    tMax := o.tMax.getD eam.tMax
    beta := o.beta.getD eam.beta
    neighborCap := o.neighborCap.getD eam.neighborCap
    numLandmarks := o.numLandmarks.getD eam.numLandmarks
    l0 := o.l0.getD eam.l0
    competitive := o.competitive.getD eam.competitive
    precision := o.precision.getD eam.precision }

/-- The configuration that the handler of `POST /db` makes. -/
def requestConfig (req : CreateDatabaseRequest F) (now : ℕ) : Except HeatherError (DbConfig F) := do
  let cfg ← DbConfig.new req.name req.dimension now
  let cfg := { cfg with
    mapSizeMb := req.mapSizeMb.getD defaultMapSizeMb
    eam := { cfg.eam with mdlGate := req.mdlGate } }
  match req.eam with
  | none => pure cfg
  | some o => do
    let cfg := { cfg with eam := o.apply cfg.eam }
    cfg.eam.validate
    pure cfg

theorem formatVersion_of_request {req : CreateDatabaseRequest F} {now : ℕ} {cfg : DbConfig F}
    (h : requestConfig req now = .ok cfg) : cfg.formatVersion = currentFormat := by
  unfold requestConfig DbConfig.new at h
  cases hnew : (EAMConfig.new req.dimension : Except HeatherError (EAMConfig F)) with
  | error e => simp [hnew, bind, Except.bind] at h
  | ok eam =>
    simp only [hnew, bind, Except.bind, pure, Except.pure] at h
    split at h
    · rw [← Except.ok.inj h]
    · split at h
      · simp at h
      · rw [← Except.ok.inj h]

namespace Server

variable {b : Backend F E} {s : Server F E} {cfg : DbConfig F} {root root' : DataDir F E}

/-! ### What a create leaves -/

/-- The call gets as far as putting `db.toml` in place. -/
def Replaces (b : Backend F E) (s : Server F E) (cfg : DbConfig F) (faults : List (Option HeatherError)) : Prop :=
  validateDbName cfg.name = .ok () ∧ cfg.eam.validate = .ok () ∧ s.inner.get cfg.name = none ∧ b.encodes cfg = true ∧
    Faultless 3 faults

/-- What of a data directory a boot looks at is as it was, but for a `db.toml`. -/
structure Touched (b : Backend F E) (cfg : DbConfig F) (replaced : Prop) (root root' : DataDir F E) : Prop where
  layout : root'.layout = root.layout
  env : ∀ env, envAt b root' env = envAt b root env
  toml : ∀ name, replaced → name = cfg.name → (root'.dir name).toml = some cfg
  same : ∀ name, ¬(replaced ∧ name = cfg.name) → (root'.dir name).toml = (root.dir name).toml

omit [Scalar F] in
theorem Touched.refl {replaced : Prop} (h : ¬replaced) : Touched b cfg replaced root root :=
  ⟨rfl, fun _ => rfl, fun _ hr => absurd hr h, fun _ _ => rfl⟩

omit [Scalar F] in
/-- A change of a directory that touches neither its `db.toml` nor its
environment. -/
theorem Touched.update {replaced : Prop} {f : DbDir F E → DbDir F E} {name : String}
    (h : Touched b cfg replaced root root')
    (htoml : ∀ d, (f d).toml = d.toml) (hdata : ∀ d, (f d).data.getD b.fresh = d.data.getD b.fresh) :
    Touched b cfg replaced root (DataDir.update f name root') := by
  have htomls : ∀ other, ((DataDir.update f name root').dir other).toml = (root'.dir other).toml := by
    intro other
    rw [DataDir.dir_update]
    split_ifs with hother
    · rw [htoml, hother]
    · rfl
  refine ⟨h.layout, fun env => ?_, fun other hr hname => (htomls other).trans (h.toml other hr hname),
    fun other hn => (htomls other).trans (h.same other hn)⟩
  rw [← h.env env, envAt, envAt, DataDir.dir_update]
  split_ifs with henv
  · rw [hdata, henv]
  · rfl

omit [Scalar F] in
theorem Touched.replace (h : Touched b cfg False root root') (htmp : (root'.dir cfg.name).tomlTmp = some cfg) :
    Touched b cfg True root (DataDir.renameTmp cfg.name root') := by
  refine ⟨h.layout, fun env => ?_, fun name _ hname => ?_, fun name hname => ?_⟩
  · rw [← h.env env, envAt, envAt, DataDir.renameTmp, DataDir.dir_update]
    split_ifs with henv
    · rw [henv]
    · rfl
  · rw [DataDir.renameTmp, DataDir.dir_update, if_pos hname]
    exact htmp
  · have hother : name ≠ cfg.name := fun hn => hname ⟨trivial, hn⟩
    rw [DataDir.renameTmp, DataDir.dir_update, if_neg hother]
    exact h.same name (fun hn => hn.1)

omit [Scalar F] in
theorem createDir_touched : ∀ {root root' : DataDir F E} {replaced : Prop}, Touched b cfg replaced root root' →
    ∀ name, Touched b cfg replaced root (DataDir.createDir name root') :=
  fun h _ => h.update (fun _ => rfl) fun _ => rfl

omit [Scalar F] in
theorem writeTmp_touched {replaced : Prop} (h : Touched b cfg replaced root root') (name : String) :
    Touched b cfg replaced root (DataDir.writeTmp cfg name root') :=
  h.update (fun _ => rfl) fun _ => rfl

/-- Opening the hive touches no `db.toml`. -/
theorem openHiveFor_touched {replaced : Prop} :
    Ensures (fun s => Touched b cfg replaced root s.root) (openHiveFor b cfg) fun _ => True := by
  have hchange : ∀ f : DataDir F E → DataDir F E,
      (∀ root', Touched b cfg replaced root root' → Touched b cfg replaced root (f root')) →
      Ensures (fun s : Server F E => Touched b cfg replaced root s.root) (onRoot f) fun _ => True :=
    fun f hf => Ensures.modify fun s h => hf s.root h
  refine (Ensures.step.bind fun _ _ => hchange _ fun _ h => createDir_touched h _).bind fun _ _ => ?_
  refine Ensures.ofExcept.bind fun _ _ => Ensures.step.bind fun _ _ => ?_
  refine Ensures.bind (Q := fun _ => True) ?_ fun _ _ => Ensures.step.bind fun _ _ => Ensures.step.bind fun _ _ =>
    Ensures.pure trivial
  refine Ensures.step.bind fun _ _ => Ensures.get_bind fun _ _ => Ensures.ensure.bind fun _ _ =>
    Ensures.ensure.bind fun _ _ => ?_
  exact hchange _ fun _ h => h.update (fun _ => rfl) fun d => by cases d.data <;> rfl

/-- **A create touches nothing a boot looks at but the `db.toml` it puts in
place.** -/
theorem touched_createDatabase (s : Server F E) (cfg : DbConfig F) (faults : List (Option HeatherError)) :
    Touched b cfg (Replaces b s cfg faults) s.root (createDatabase b cfg ⟨s, faults⟩).2.state.root := by
  unfold createDatabase
  cases hname : validateDbName cfg.name with
  | error e => exact Touched.refl fun h => by simp [Replaces, hname] at h
  | ok _ =>
  cases hvalid : cfg.eam.validate with
  | error e => exact Touched.refl fun h => by simp [Replaces, hvalid] at h
  | ok _ =>
  simp only [ofExcept_ok_bind, refuseMounted, Program.bind_assoc, get_bind, ensure_bind]
  split_ifs with hnone
  swap
  · exact Touched.refl fun h => hnone (by simp [h.2.2.1])
  simp only [createDir, save, writeTmp, renameTmp, onRoot, Program.bind_assoc]
  rw [Option.isNone_iff_eq_none] at hnone
  by_cases hf₁ : Faultless 1 faults
  swap
  · obtain ⟨e, he⟩ := step_bind_of_faulty hf₁ _ s
    rw [he]
    exact Touched.refl fun h => hf₁ (faultless_succ.mp h.2.2.2.2).1
  rw [step_bind_of_faultless hf₁, modify_bind, ensure_bind]
  split_ifs with hencodes
  swap
  · exact createDir_touched (Touched.refl fun h => hencodes h.2.2.2.1) _
  by_cases hf₂ : Faultless 1 faults.tail
  swap
  · obtain ⟨e, he⟩ := step_bind_of_faulty hf₂ _ { s with root := DataDir.createDir cfg.name s.root }
    rw [he]
    refine createDir_touched (Touched.refl fun h => hf₂ ?_) _
    exact (faultless_succ.mp (faultless_succ.mp h.2.2.2.2).2).1
  rw [step_bind_of_faultless hf₂, modify_bind]
  by_cases hf₃ : Faultless 1 faults.tail.tail
  swap
  · obtain ⟨e, he⟩ := step_bind_of_faulty hf₃ _
      { s with root := DataDir.writeTmp cfg cfg.name (DataDir.createDir cfg.name s.root) }
    rw [he]
    refine writeTmp_touched (createDir_touched (Touched.refl fun h => hf₃ ?_) _) _
    exact (faultless_succ.mp (faultless_succ.mp h.2.2.2.2).2).2
  have htmp : ((DataDir.writeTmp cfg cfg.name (DataDir.createDir cfg.name s.root)).dir cfg.name).tomlTmp =
      some cfg := by
    simp [DataDir.writeTmp]
  have hreplaces : Replaces b s cfg faults :=
    ⟨hname, hvalid, hnone, hencodes, faultless_succ.mpr ⟨hf₁, faultless_succ.mpr ⟨hf₂, hf₃⟩⟩⟩
  have hrenamed : Touched b cfg (Replaces b s cfg faults) s.root
      (DataDir.renameTmp cfg.name (DataDir.writeTmp cfg cfg.name (DataDir.createDir cfg.name s.root))) := by
    rw [eq_true hreplaces]
    exact (writeTmp_touched (createDir_touched (Touched.refl id) _) _).replace htmp
  rw [step_bind_of_faultless hf₃, get_bind, ensure_bind, if_pos (by simp [htmp]), modify_bind]
  -- what follows opens the hive and mounts it
  refine (Ensures.bind (P := fun s' : Server F E => Touched b cfg (Replaces b s cfg faults) s.root s'.root)
    openHiveFor_touched (R := fun _ => True) (fun mounted _ => ?_) ⟨_, _⟩ hrenamed).1
  refine Ensures.bind (Q := fun _ => True) ?_ fun _ _ => Ensures.pure trivial
  refine Ensures.bind (Q := fun _ => True) ?_ fun _ _ => Ensures.modify fun _ h => h
  exact Ensures.get_bind fun _ _ => Ensures.ensure.mono fun _ _ => trivial

/-! ### A boot, one database apart -/

variable {made : Except HeatherError (DbConfig F)} {name : String} {dimension l0 mapSizeMb now : ℕ}

/-- The other databases let a boot succeed. -/
structure RestBoots (b : Backend F E) (made : Except HeatherError (DbConfig F)) (root : DataDir F E)
    (name : String) : Prop where
  layout : root.layout.all (· = supportedLayout) = true
  default : name ≠ defaultDb → (root.dir defaultDb).toml = none → ∃ cfg, made = .ok cfg ∧ b.encodes cfg = true
  fits : ∀ other cfg, other ≠ name → effective made root other = some cfg → Fits b root cfg
  agree : ∀ other other' cfg cfg', other ≠ name → other' ≠ name → effective made root other = some cfg →
    effective made root other' = some cfg' → Agree cfg cfg'

/-- A boot can open a configuration under this name beside the others. -/
structure Joins (b : Backend F E) (made : Except HeatherError (DbConfig F)) (root : DataDir F E) (name : String)
    (cfg : DbConfig F) : Prop where
  fits : Fits b root cfg
  agree : ∀ other cfg', other ≠ name → effective made root other = some cfg' → Agree cfg cfg'

/-- What a boot finds under this name lets it succeed. -/
structure OneBoots (b : Backend F E) (made : Except HeatherError (DbConfig F)) (root : DataDir F E)
    (name : String) : Prop where
  default : name = defaultDb → (root.dir defaultDb).toml = none → ∃ cfg, made = .ok cfg ∧ b.encodes cfg = true
  joins : ∀ cfg, effective made root name = some cfg → Joins b made root name cfg

omit [Scalar F] in
theorem Agree.symm {cfg cfg' : DbConfig F} (h : Agree cfg cfg') : Agree cfg' cfg := fun hname => (h hname.symm).symm

/-- **A boot succeeds if it does with each name.** -/
theorem bootable_iff (name : String) :
    Bootable b made root ↔ RestBoots b made root name ∧ OneBoots b made root name := by
  constructor
  · rintro ⟨hlayout, hdefault, hfits, hagree⟩
    exact ⟨⟨hlayout, fun _ => hdefault, fun other cfg _ => hfits other cfg,
      fun other other' cfg cfg' _ _ => hagree other other' cfg cfg'⟩,
      fun _ => hdefault, fun cfg heff =>
        ⟨hfits name cfg heff, fun other cfg' _ heff' => hagree name other cfg cfg' heff heff'⟩⟩
  · rintro ⟨hrest, hone⟩
    refine ⟨hrest.layout, fun hmissing => ?_, fun other cfg heff => ?_, fun other other' cfg cfg' heff heff' => ?_⟩
    · by_cases hname : name = defaultDb
      · exact hone.default hname hmissing
      · exact hrest.default hname hmissing
    · by_cases hother : other = name
      · exact (hone.joins cfg (hother ▸ heff)).fits
      · exact hrest.fits other cfg hother heff
    · by_cases hother : other = name <;> by_cases hother' : other' = name
      · have heff : effective made root name = some cfg := hother ▸ heff
        obtain rfl := Option.some.inj (heff.symm.trans (hother' ▸ heff'))
        exact fun _ => rfl
      · exact (hone.joins cfg (hother ▸ heff)).agree other' cfg' hother' heff'
      · exact ((hone.joins cfg' (hother' ▸ heff')).agree other cfg hother heff).symm
      · exact hrest.agree other other' cfg cfg' hother hother' heff heff'

/-! ### What a boot finds after a create -/

omit [Scalar F] in
theorem live_congr (h : (root'.dir name).toml = (root.dir name).toml) : live root' name = live root name := by
  rw [live, live, h]

omit [Scalar F] in
theorem effective_congr (h : (root'.dir name).toml = (root.dir name).toml)
    (hdefault : name = defaultDb → (root'.dir defaultDb).toml = (root.dir defaultDb).toml) :
    effective made root' name = effective made root name := by
  unfold effective
  by_cases hname : name = defaultDb
  · rw [hdefault hname, live_congr h]
  · rw [if_neg fun hn => hname hn.1, if_neg fun hn => hname hn.1, live_congr h]

omit [Scalar F] in
/-- A create that puts no `db.toml` in place shows nowhere. -/
theorem Touched.effective_eq (h : Touched b cfg False root root') (name : String) :
    effective made root' name = effective made root name :=
  effective_congr (h.same name fun hn => hn.1) fun _ => h.same defaultDb fun hn => hn.1

theorem Touched.bootable_iff (h : Touched b cfg False root root') : Bootable b made root' ↔ Bootable b made root := by
  have hfits : ∀ cfg : DbConfig F, Fits b root' cfg ↔ Fits b root cfg := fun cfg => fits_congr (h.env cfg.name)
  have hmissing : (root'.dir defaultDb).toml = (root.dir defaultDb).toml := h.same defaultDb fun hn => hn.1
  constructor
  · rintro ⟨hlayout, hdefault, hfit, hagree⟩
    simp only [h.effective_eq, hfits, hmissing, h.layout] at hlayout hdefault hfit hagree
    exact ⟨hlayout, hdefault, hfit, hagree⟩
  · rintro ⟨hlayout, hdefault, hfit, hagree⟩
    refine ⟨?_, ?_, ?_, ?_⟩ <;> simp only [h.effective_eq, hfits, hmissing, h.layout]
    · exact hlayout
    · exact hdefault
    · exact hfit
    · exact hagree

section Replaced

variable (h : Touched b cfg True root root')

include h

omit [Scalar F] in
theorem Touched.effective_other {other : String} (hother : other ≠ cfg.name) :
    effective made root' other = effective made root other :=
  effective_congr (h.same other fun hn => hother hn.2) fun hdefault =>
    h.same defaultDb fun hn => hother (hdefault.trans hn.2)

omit [Scalar F] in
/-- The new `db.toml` is what a boot finds. -/
theorem Touched.effective_self (hname : validateDbName cfg.name = .ok ())
    (hformat : cfg.formatVersion = currentFormat) :
    effective made root' cfg.name = some cfg := by
  have htoml := h.toml cfg.name trivial rfl
  have hlive : live root' cfg.name = some cfg := by
    unfold live
    rw [not_hidden_of_validateDbName hname, htoml]
    simp [Option.filter_some, hformat]
  unfold effective
  rw [if_neg, hlive]
  rintro ⟨hdefault, hmissing⟩
  rw [← hdefault, htoml] at hmissing
  cases hmissing

theorem Touched.joins_iff {cfg' : DbConfig F} : Joins b made root' cfg.name cfg' ↔ Joins b made root cfg.name cfg' := by
  have hfits : Fits b root' cfg' ↔ Fits b root cfg' := fits_congr (h.env cfg'.name)
  constructor
  · rintro ⟨hfit, hagree⟩
    exact ⟨hfits.mp hfit, fun other cfg'' hother heff =>
      hagree other cfg'' hother ((h.effective_other hother).trans heff)⟩
  · rintro ⟨hfit, hagree⟩
    exact ⟨hfits.mpr hfit, fun other cfg'' hother heff =>
      hagree other cfg'' hother ((h.effective_other hother).symm.trans heff)⟩

theorem Touched.restBoots_iff : RestBoots b made root' cfg.name ↔ RestBoots b made root cfg.name := by
  have hfits : ∀ cfg : DbConfig F, Fits b root' cfg ↔ Fits b root cfg := fun cfg => fits_congr (h.env cfg.name)
  have hmissing : cfg.name ≠ defaultDb → (root'.dir defaultDb).toml = (root.dir defaultDb).toml := fun hname =>
    h.same defaultDb fun hn => hname hn.2.symm
  constructor
  · rintro ⟨hlayout, hdefault, hfit, hagree⟩
    refine ⟨h.layout ▸ hlayout, fun hname hnone => hdefault hname ((hmissing hname).trans hnone), ?_, ?_⟩
    · exact fun other cfg' hother heff =>
        (hfits cfg').mp (hfit other cfg' hother ((h.effective_other hother).trans heff))
    · exact fun other other' cfg₁ cfg₂ hother hother' heff heff' => hagree other other' cfg₁ cfg₂ hother hother'
        ((h.effective_other hother).trans heff) ((h.effective_other hother').trans heff')
  · rintro ⟨hlayout, hdefault, hfit, hagree⟩
    refine ⟨h.layout ▸ hlayout, fun hname hnone => hdefault hname ((hmissing hname).symm.trans hnone), ?_, ?_⟩
    · exact fun other cfg' hother heff =>
        (hfits cfg').mpr (hfit other cfg' hother ((h.effective_other hother).symm.trans heff))
    · exact fun other other' cfg₁ cfg₂ hother hother' heff heff' => hagree other other' cfg₁ cfg₂ hother hother'
        ((h.effective_other hother).symm.trans heff) ((h.effective_other hother').symm.trans heff')

/-- Under the name of the call, a boot succeeds with the new `db.toml` if that
joins the others. -/
theorem Touched.oneBoots_iff (hname : validateDbName cfg.name = .ok ()) (hformat : cfg.formatVersion = currentFormat) :
    OneBoots b made root' cfg.name ↔ Joins b made root cfg.name cfg := by
  have hself : effective made root' cfg.name = some cfg := h.effective_self hname hformat
  constructor
  · exact fun hone => h.joins_iff.mp (hone.joins cfg hself)
  · intro hjoins
    refine ⟨fun hdefault hmissing => ?_, fun cfg' heff => ?_⟩
    · rw [← hdefault, h.toml cfg.name trivial rfl] at hmissing
      cases hmissing
    · obtain rfl := Option.some.inj (hself.symm.trans heff)
      exact h.joins_iff.mpr hjoins

end Replaced

/-! ### The next boot -/

/-- A boot without faults succeeds. -/
def Boots (b : Backend F E) (dimension l0 mapSizeMb now : ℕ) (root : DataDir F E) : Prop :=
  ∃ s, Returns (openWith b dimension l0 mapSizeMb now) ⟨root, .empty, .empty⟩ () s

/-- A boot succeeds on both or on neither, and mounts the same. -/
structure SameBoot (b : Backend F E) (dimension l0 mapSizeMb now : ℕ) (root root' : DataDir F E) : Prop where
  boots : Boots b dimension l0 mapSizeMb now root' ↔ Boots b dimension l0 mapSizeMb now root
  mounts : ∀ s s', Returns (openWith b dimension l0 mapSizeMb now) ⟨root, .empty, .empty⟩ () s →
    Returns (openWith b dimension l0 mapSizeMb now) ⟨root', .empty, .empty⟩ () s' → s'.inner = s.inner

/-- How a configuration is mounted. -/
def mountedAs (cfg : DbConfig F) : Mounted F := ⟨upgraded cfg, cfg.name⟩

theorem boots_iff : Boots b dimension l0 mapSizeMb now root ↔
    Bootable b (defaultConfig dimension l0 mapSizeMb now) root :=
  ⟨fun ⟨_, h⟩ => (bootable_of_gives h.gives).1, returns_openWith⟩

/-- The same boot, told from what is on disk. -/
theorem sameBoot_iff : SameBoot b dimension l0 mapSizeMb now root root' ↔
    (Bootable b (defaultConfig dimension l0 mapSizeMb now) root' ↔
      Bootable b (defaultConfig dimension l0 mapSizeMb now) root) ∧
      (Bootable b (defaultConfig dimension l0 mapSizeMb now) root →
        Bootable b (defaultConfig dimension l0 mapSizeMb now) root' → ∀ name,
          (effective (defaultConfig dimension l0 mapSizeMb now) root' name).map mountedAs =
            (effective (defaultConfig dimension l0 mapSizeMb now) root name).map mountedAs) := by
  constructor
  · rintro ⟨hboots, hmounts⟩
    rw [boots_iff, boots_iff] at hboots
    refine ⟨hboots, fun hold hnew name => ?_⟩
    obtain ⟨s, hs⟩ := returns_openWith hold
    obtain ⟨s', hs'⟩ := returns_openWith hnew
    calc (effective (defaultConfig dimension l0 mapSizeMb now) root' name).map mountedAs
        = s'.inner.get name := ((bootable_of_gives hs'.gives).2 name).symm
      _ = s.inner.get name := by rw [hmounts s s' hs hs']
      _ = (effective (defaultConfig dimension l0 mapSizeMb now) root name).map mountedAs :=
        (bootable_of_gives hs.gives).2 name
  · rintro ⟨hboots, hmounts⟩
    refine ⟨by rw [boots_iff, boots_iff, hboots], fun s s' hs hs' => ext_get fun name => ?_⟩
    obtain ⟨hold, hinner⟩ := bootable_of_gives hs.gives
    obtain ⟨hnew, hinner'⟩ := bootable_of_gives hs'.gives
    exact ((hinner' name).trans (hmounts hold hnew name)).trans (hinner name).symm

/-- The call shows at no later boot: it put no `db.toml` in place; or other
databases keep the server from booting; or a boot found that very
configuration before; or it could open neither what it found nor this. -/
def Unseen (b : Backend F E) (made : Except HeatherError (DbConfig F)) (s : Server F E) (cfg : DbConfig F)
    (faults : List (Option HeatherError)) : Prop :=
  ¬Replaces b s cfg faults ∨ ¬RestBoots b made s.root cfg.name ∨
    (∃ old, effective made s.root cfg.name = some old ∧ upgraded old = cfg) ∨
    ¬OneBoots b made s.root cfg.name ∧ ¬Joins b made s.root cfg.name cfg

omit [Scalar F] in
theorem upgraded_of_current (h : cfg.formatVersion = currentFormat) : upgraded cfg = cfg := by
  rw [upgraded, if_neg (by omega)]

/-- A configuration that upgrades to this one joins the others if this does. -/
theorem oneBoots_of_upgraded {old : DbConfig F} (heff : effective made root cfg.name = some old)
    (hold : upgraded old = cfg)
    (hmade : ∀ cfg, made = .ok cfg → cfg.formatVersion = currentFormat) (hformat : cfg.formatVersion = currentFormat)
    (hencodes : b.encodes cfg = true) :
    OneBoots b made root cfg.name ↔ Joins b made root cfg.name cfg := by
  have hname : old.name = cfg.name := by rw [← hold, name_upgraded]
  have hsize : old.mapSizeMb = cfg.mapSizeMb := by rw [← hold, mapSizeMb_upgraded]
  have heam : old.eam = cfg.eam := by rw [← hold, eam_upgraded]
  have hfits : Fits b root old ↔ Fits b root cfg := by
    constructor
    · rintro ⟨-, hvalid, hopens⟩
      exact ⟨fun hlt => absurd hlt (by omega), heam ▸ hvalid, hname ▸ hsize ▸ hopens⟩
    · rintro ⟨-, hvalid, hopens⟩
      exact ⟨fun _ => hold ▸ hencodes, heam ▸ hvalid, by rw [hname, hsize]; exact hopens⟩
  have hagree : ∀ cfg' : DbConfig F, Agree old cfg' ↔ Agree cfg cfg' := fun cfg' => by rw [Agree, Agree, hname, hsize]
  constructor
  · intro hone
    obtain ⟨hfit, hag⟩ := hone.joins old heff
    exact ⟨hfits.mp hfit, fun other cfg' hother h => (hagree cfg').mp (hag other cfg' hother h)⟩
  · rintro ⟨hfit, hag⟩
    refine ⟨fun hdefault hmissing => ?_, fun cfg' h => ?_⟩
    · rw [hdefault, effective_of_missing hmissing, if_pos rfl] at heff
      cases made with
      | error e => simp [Except.toOption] at heff
      | ok made =>
        obtain rfl : made = old := by simpa [Except.toOption] using heff
        rw [upgraded_of_current (hmade made rfl)] at hold
        exact ⟨made, rfl, hold ▸ hencodes⟩
    · obtain rfl := Option.some.inj (heff.symm.trans h)
      exact ⟨hfits.mpr hfit, fun other cfg' hother h => (hagree cfg').mpr (hag other cfg' hother h)⟩

/-- **What a create leaves is the same to a boot exactly if it is unseen**, for
every configuration a client can ask for, whatever fails. -/
theorem failed_create_iff {req : CreateDatabaseRequest F} {created : ℕ} (hreq : requestConfig req created = .ok cfg)
    (s : Server F E) (faults : List (Option HeatherError)) (dimension l0 mapSizeMb now : ℕ) :
    SameBoot b dimension l0 mapSizeMb now s.root (createDatabase b cfg ⟨s, faults⟩).2.state.root ↔
      Unseen b (defaultConfig dimension l0 mapSizeMb now) s cfg faults := by
  have hformat := formatVersion_of_request hreq
  have htouched := touched_createDatabase (b := b) s cfg faults
  rw [sameBoot_iff]
  unfold Unseen
  by_cases hreplaces : Replaces b s cfg faults
  swap
  · rw [eq_false hreplaces] at htouched
    refine iff_of_true ⟨htouched.bootable_iff, fun _ _ name => ?_⟩ (.inl hreplaces)
    rw [htouched.effective_eq]
  rw [eq_true hreplaces] at htouched
  have hname := hreplaces.1
  have hencodes := hreplaces.2.2.2.1
  have hself : effective (defaultConfig dimension l0 mapSizeMb now) (createDatabase b cfg ⟨s, faults⟩).2.state.root
      cfg.name = some cfg := htouched.effective_self hname hformat
  have hmade : ∀ cfg' : DbConfig F, defaultConfig dimension l0 mapSizeMb now = .ok cfg' →
      cfg'.formatVersion = currentFormat :=
    fun cfg' h => (of_defaultConfig h).2.1
  rw [bootable_iff cfg.name, bootable_iff cfg.name, htouched.restBoots_iff, htouched.oneBoots_iff hname hformat]
  generalize (defaultConfig dimension l0 mapSizeMb now : Except HeatherError (DbConfig F)) = made at hself hmade ⊢
  by_cases hrest : RestBoots b made s.root cfg.name
  swap
  · exact iff_of_true ⟨by simp only [hrest, false_and], fun h => absurd h.1 hrest⟩ (.inr (.inl hrest))
  simp only [hrest, true_and, not_true_eq_false, false_or]
  by_cases hold : ∃ old, effective made s.root cfg.name = some old ∧ upgraded old = cfg
  · obtain ⟨old, heff, hup⟩ := hold
    have hsame := oneBoots_of_upgraded heff hup hmade hformat hencodes
    refine iff_of_true ⟨hsame.symm, fun _ _ name => ?_⟩ (.inr (.inl ⟨old, heff, hup⟩))
    by_cases hn : name = cfg.name
    · have hnames : old.name = cfg.name := by rw [← hup, name_upgraded]
      rw [hn, hself, heff, Option.map_some, Option.map_some, mountedAs, mountedAs, hup, hnames,
        upgraded_of_current hformat]
    · rw [htouched.effective_other hn]
  · simp only [hold, false_or]
    constructor
    · rintro ⟨hboots, hmounts⟩
      have hnot : ¬OneBoots b made s.root cfg.name := fun hone => by
        have hfound := hmounts hone (hboots.mpr hone) cfg.name
        rw [hself, Option.map_some] at hfound
        obtain ⟨old, heff, hmounted⟩ := Option.map_eq_some_iff.mp hfound.symm
        refine hold ⟨old, heff, ?_⟩
        rw [(Mounted.mk.inj hmounted).1, upgraded_of_current hformat]
      exact .inr ⟨hnot, fun hjoins => hnot (hboots.mp hjoins)⟩
    · rintro (hnot | ⟨hone, hjoins⟩)
      · exact absurd hreplaces hnot
      · exact ⟨iff_of_false hjoins hone, fun h => absurd h hone⟩

/-- A request for a database `b` of a map size. -/
def sizedRequest (mapSizeMb : ℕ) : CreateDatabaseRequest ℚ := ⟨"b", 1, some mapSizeMb, false, none⟩

/-- A server on a new data directory. -/
def newServer : Server ℚ ℕ := (openWith smallBackend 1 0 1 0 ⟨⟨.fresh, .empty, .empty⟩, []⟩).2.state

/-- The theorem about a call that cannot make its directory. -/
theorem failed_create_unseen :
    ∃ cfg, requestConfig (sizedRequest 1) 0 = .ok cfg ∧
      (createDatabase smallBackend cfg ⟨newServer, [some (.storage "disk full")]⟩).1.isOk = false ∧
      SameBoot smallBackend 1 0 1 0 newServer.root
        (createDatabase smallBackend cfg ⟨newServer, [some (.storage "disk full")]⟩).2.state.root := by
  cases hreq : requestConfig (sizedRequest 1) 0 with
  | error e =>
    have hok : (requestConfig (sizedRequest 1) 0).isOk = true := by decide +kernel
    rw [hreq] at hok
    cases hok
  | ok cfg =>
    have hfails : ((requestConfig (sizedRequest 1) 0).toOption.map fun cfg =>
        (createDatabase smallBackend cfg ⟨newServer, [some (.storage "disk full")]⟩).1.isOk) = some false := by
      decide +kernel
    rw [hreq] at hfails
    refine ⟨cfg, rfl, Option.some.inj hfails, (failed_create_iff hreq _ _ 1 0 1 0).mpr (.inl fun h => ?_)⟩
    exact absurd h.2.2.2.2 (by decide)

/-- A request for a map size that LMDB does not open fails, and the server does
not boot again. -/
theorem failed_create_stops_boot :
    ∃ cfg, requestConfig (sizedRequest (2 ^ 40)) 0 = .ok cfg ∧
      (createDatabase smallBackend cfg ⟨newServer, []⟩).1.isOk = false ∧
      ¬SameBoot smallBackend 1 0 1 0 newServer.root (createDatabase smallBackend cfg ⟨newServer, []⟩).2.state.root := by
  have hbefore : (openWith smallBackend 1 0 1 0 ⟨⟨newServer.root, .empty, .empty⟩, []⟩).1.isOk =
      true := by decide +kernel
  have hafter : ((requestConfig (sizedRequest (2 ^ 40)) 0).toOption.map fun cfg =>
      ((createDatabase smallBackend cfg ⟨newServer, []⟩).1.isOk,
        (openWith smallBackend 1 0 1 0
          ⟨⟨(createDatabase smallBackend cfg ⟨newServer, []⟩).2.state.root, .empty, .empty⟩, []⟩).1.isOk)) =
      some (false, false) := by decide +kernel
  cases hreq : requestConfig (sizedRequest (2 ^ 40)) 0 with
  | error e =>
    rw [hreq] at hafter
    cases hafter
  | ok cfg =>
    rw [hreq] at hafter
    obtain ⟨hfails, hstops⟩ := Prod.ext_iff.mp (Option.some.inj hafter)
    refine ⟨cfg, rfl, hfails, fun hsame => ?_⟩
    have hboots : Boots smallBackend 1 0 1 0 newServer.root := by
      rcases hrun : openWith smallBackend 1 0 1 0 ⟨⟨newServer.root, .empty, .empty⟩, []⟩ with ⟨e | u, w⟩
      · rw [hrun] at hbefore
        cases hbefore
      · have hgives : Gives (openWith smallBackend 1 0 1 0) ⟨newServer.root, .empty, .empty⟩ u w.state :=
          ⟨[], w.faults, hrun⟩
        exact boots_iff.mpr (bootable_of_gives hgives).1
    obtain ⟨s', hs'⟩ := hsame.boots.mpr hboots
    rw [Returns] at hs'
    simp [hs', Except.isOk, Except.toBool] at hstops

end Server

end HeatherDb
