/-
# When a server boots

Without faults a boot fails for what is on disk alone. `Bootable` says what
has to be on disk: every database that the boot finds can be opened, and no
two that name one environment open it in different ways; it counts the
default database that the boot creates when there is none (`effective`).

Key definitions: `effective`, `Fits`, `Agree`, `Bootable`.
Key theorems: `along_mountable_iff`, `bootable_of_gives`, `returns_openWith`.
-/
import HeatherDb.Server

namespace HeatherDb

open Program OrderedTable

namespace Server

variable {F E : Type} {b : Backend F E} {s : Server F E} {cfg : DbConfig F} {name : String}
  {root : DataDir F E} {dimension l0 mapSizeMb now : ℕ}

/-! ### The mount loop -/

/-- The boot opens this configuration, as far as no other matters. -/
structure Fits [Scalar F] (b : Backend F E) (root : DataDir F E) (cfg : DbConfig F) : Prop where
  encodes : cfg.formatVersion < currentFormat → b.encodes (upgraded cfg) = true
  valid : cfg.eam.validate = .ok ()
  opens : b.opens cfg.mapSizeMb (envAt b root cfg.name) = true

/-- Two configurations do not open one environment in different ways. -/
def Agree (cfg cfg' : DbConfig F) : Prop := cfg.name = cfg'.name → cfg.mapSizeMb = cfg'.mapSizeMb

theorem sharable_iff {env : String} : s.Sharable env mapSizeMb ↔
    ∀ name mounted, s.inner.get name = some mounted → mounted.env = env → mounted.config.mapSizeMb = mapSizeMb := by
  constructor
  · exact fun h name mounted hget => h (name, mounted) (get_eq_some_iff.mp hget)
  · exact fun h e hmem => h e.1 e.2 (get_eq_some_iff.mpr hmem)

@[simp] theorem eam_upgraded : (upgraded cfg).eam = cfg.eam := by
  unfold upgraded
  split_ifs <;> rfl

/-- A turn can return exactly if its configuration fits and can share its
environment with what is mounted already. -/
theorem mountable_iff [Scalar F] : Mountable b s name ↔
    ∀ cfg, live s.root name = some cfg → Fits b s.root cfg ∧ s.Sharable cfg.name cfg.mapSizeMb := by
  have hopens : ∀ cfg : DbConfig F, Opens b { s with root := renewed name cfg s.root } (upgraded cfg) ↔
      cfg.eam.validate = .ok () ∧ s.Sharable cfg.name cfg.mapSizeMb ∧
        b.opens cfg.mapSizeMb (envAt b s.root cfg.name) = true := by
    intro cfg
    have henv : ((renewed name cfg s.root).dir cfg.name).data.getD b.fresh = envAt b s.root cfg.name :=
      envAt_renewed (b := b) s.root cfg.name
    constructor
    · rintro ⟨hvalid, hshare, hopens⟩
      simp only [eam_upgraded, name_upgraded, mapSizeMb_upgraded, henv] at hvalid hshare hopens
      exact ⟨hvalid, hshare, hopens⟩
    · rintro ⟨hvalid, hshare, hopens⟩
      refine ⟨?_, ?_, ?_⟩ <;> simp only [eam_upgraded, name_upgraded, mapSizeMb_upgraded, henv]
      · exact hvalid
      · exact hshare
      · exact hopens
  unfold Mountable
  refine forall_congr' fun cfg => imp_congr_right fun _ => ?_
  rw [hopens]
  constructor
  · rintro ⟨hencodes, hvalid, hshare, hopens⟩
    exact ⟨⟨hencodes, hvalid, hopens⟩, hshare⟩
  · rintro ⟨⟨hencodes, hvalid, hopens⟩, hshare⟩
    exact ⟨hencodes, hvalid, hshare, hopens⟩

theorem fits_congr [Scalar F] {root' : DataDir F E} (henv : envAt b root' cfg.name = envAt b root cfg.name) :
    Fits b root' cfg ↔ Fits b root cfg := by
  constructor
  · rintro ⟨hencodes, hvalid, hopens⟩
    exact ⟨hencodes, hvalid, henv ▸ hopens⟩
  · rintro ⟨hencodes, hvalid, hopens⟩
    exact ⟨hencodes, hvalid, henv.symm ▸ hopens⟩

theorem fits_mountedBy [Scalar F] : Fits b (mountedBy b name s).root cfg ↔ Fits b s.root cfg :=
  fits_congr (envAt_mountedBy cfg.name)

/-- What a turn mounts restricts who can share its environment. -/
theorem sharable_mountedBy {env : String} (hnew : s.inner.get name = none) :
    (mountedBy b name s).Sharable env mapSizeMb ↔
      s.Sharable env mapSizeMb ∧ ∀ cfg, live s.root name = some cfg → cfg.name = env → cfg.mapSizeMb = mapSizeMb := by
  simp only [sharable_iff, inner_mountedBy]
  constructor
  · intro h
    refine ⟨fun other mounted hget henv => h other mounted ?_ henv, fun cfg hlive henv => ?_⟩
    · have hother : other ≠ name := fun hname => by simp [hname, hnew] at hget
      rw [if_neg hother, hget]
    · have hmounted := h name ⟨upgraded cfg, cfg.name⟩ (by simp [mountedOf, hlive]) henv
      rwa [mapSizeMb_upgraded] at hmounted
  · rintro ⟨hold, hturn⟩ other mounted hget henv
    split_ifs at hget with hname
    · rw [hnew, Option.or_none] at hget
      obtain ⟨cfg, hlive, rfl⟩ := Option.map_eq_some_iff.mp hget
      rw [mapSizeMb_upgraded]
      exact hturn cfg hlive henv
    · exact hold other mounted hget henv

/-- **The mount loop returns exactly if each directory fits, can share with
what was mounted before, and agrees with every other one.** -/
theorem along_mountable_iff [Scalar F] {names : List String} (hnodup : names.Nodup)
    (hnew : ∀ name ∈ names, s.inner.get name = none) :
    Along (Mountable b) (mountedBy b) names s ↔
      (∀ name ∈ names, ∀ cfg, live s.root name = some cfg → Fits b s.root cfg ∧ s.Sharable cfg.name cfg.mapSizeMb) ∧
        ∀ name ∈ names, ∀ name' ∈ names, ∀ cfg cfg', live s.root name = some cfg → live s.root name' = some cfg' →
          Agree cfg cfg' := by
  induction names generalizing s with
  | nil => simp [Along]
  | cons name names ih =>
    obtain ⟨hnot, hnodup⟩ := List.nodup_cons.mp hnodup
    have hname := hnew name List.mem_cons_self
    have hne : ∀ other ∈ names, other ≠ name := fun other hmem h => hnot (h ▸ hmem)
    have hrest := ih (s := mountedBy b name s) hnodup fun other hmem => by
      rw [inner_mountedBy, if_neg (hne other hmem)]
      exact hnew other (List.mem_cons_of_mem name hmem)
    show Mountable b s name ∧ Along (Mountable b) (mountedBy b) names (mountedBy b name s) ↔ _
    rw [hrest, mountable_iff]
    constructor
    · rintro ⟨hturn, hloop, hpairs⟩
      have hothers : ∀ other ∈ names, ∀ cfg, live s.root other = some cfg →
          Fits b s.root cfg ∧ s.Sharable cfg.name cfg.mapSizeMb ∧ ∀ cfg', live s.root name = some cfg' →
            Agree cfg' cfg := by
        intro other hmem cfg hlive
        obtain ⟨hfits, hshare⟩ := hloop other hmem cfg ((live_mountedBy (hne other hmem)).trans hlive)
        obtain ⟨hold, hnew⟩ := (sharable_mountedBy hname).mp hshare
        exact ⟨fits_mountedBy.mp hfits, hold, hnew⟩
      refine ⟨fun other hmem cfg hlive => ?_, fun other hmem other' hmem' cfg cfg' hlive hlive' => ?_⟩
      · rcases List.mem_cons.mp hmem with rfl | hmem
        · exact hturn cfg hlive
        · exact ⟨(hothers other hmem cfg hlive).1, (hothers other hmem cfg hlive).2.1⟩
      · rcases List.mem_cons.mp hmem with rfl | hin <;> rcases List.mem_cons.mp hmem' with rfl | hin'
        · obtain rfl := Option.some.inj (hlive.symm.trans hlive')
          exact fun _ => rfl
        · exact (hothers other' hin' cfg' hlive').2.2 cfg hlive
        · exact fun heq => ((hothers other hin cfg hlive).2.2 cfg' hlive' heq.symm).symm
        · exact hpairs other hin other' hin' cfg cfg' ((live_mountedBy (hne other hin)).trans hlive)
            ((live_mountedBy (hne other' hin')).trans hlive')
    · rintro ⟨hall, hpairs⟩
      refine ⟨hall name List.mem_cons_self, fun other hmem cfg hlive => ?_,
        fun other hmem other' hmem' cfg cfg' hlive hlive' => ?_⟩
      · rw [live_mountedBy (hne other hmem)] at hlive
        obtain ⟨hfits, hshare⟩ := hall other (List.mem_cons_of_mem name hmem) cfg hlive
        refine ⟨fits_mountedBy.mpr hfits, (sharable_mountedBy hname).mpr ⟨hshare, fun cfg' hlive' => ?_⟩⟩
        exact hpairs name List.mem_cons_self other (List.mem_cons_of_mem name hmem) cfg' cfg hlive' hlive
      · rw [live_mountedBy (hne other hmem)] at hlive
        rw [live_mountedBy (hne other' hmem')] at hlive'
        exact hpairs other (List.mem_cons_of_mem name hmem) other' (List.mem_cons_of_mem name hmem')
          cfg cfg' hlive hlive'

/-! ### Calls without faults -/

theorem returns_createDir : Returns (createDir name) s () { s with root := DataDir.createDir name s.root } :=
  Returns.step_bind Returns.modify

theorem returns_save {dir : String} (hencodes : b.encodes cfg = true) :
    Returns (save b dir cfg) s () { s with root := saved cfg dir s.root } := by
  apply Returns.ensure_bind hencodes
  apply Returns.bind (Returns.step_bind Returns.modify)
  apply Returns.step_bind
  apply Returns.get_bind
  apply Returns.ensure_bind
  · simp [DataDir.writeTmp]
  · exact Returns.modify

theorem returns_openHiveFor [Scalar F] (h : Opens b s cfg) :
    Returns (openHiveFor b cfg) s ⟨cfg, cfg.name⟩ { s with root := opened b cfg.name s.root } := by
  apply Returns.bind returns_createDir
  apply Returns.ofExcept_bind h.valid
  apply Returns.step_bind
  apply Returns.bind (a := ())
  · apply Returns.step_bind
    apply Returns.get_bind
    apply Returns.ensure_bind (show Sharable _ _ _ from h.sharable)
    apply Returns.ensure_bind (by simpa [DataDir.createDir] using h.opens)
    exact Returns.modify
  · exact Returns.step_bind (Returns.step_bind Returns.pure)

theorem returns_createDatabase [Scalar F] (hname : validateDbName cfg.name = .ok ())
    (hnone : s.inner.get cfg.name = none) (hencodes : b.encodes cfg = true)
    (hopens : Opens b { s with root := saved cfg cfg.name (DataDir.createDir cfg.name s.root) } cfg) :
    Returns (createDatabase b cfg) s ⟨cfg, cfg.name⟩
      { s with
        root := opened b cfg.name (saved cfg cfg.name (DataDir.createDir cfg.name s.root))
        inner := s.inner.put cfg.name ⟨cfg, cfg.name⟩ } := by
  have hlook : ∀ root : DataDir F E,
      Returns (refuseMounted cfg.name) { s with root := root } () { s with root := root } :=
    fun root => Returns.get_bind (Returns.ensure (Option.isNone_iff_eq_none.mpr hnone))
  apply Returns.ofExcept_bind hname
  apply Returns.ofExcept_bind hopens.valid
  apply Returns.bind (hlook s.root)
  apply Returns.bind returns_createDir
  apply Returns.bind (returns_save hencodes)
  apply Returns.bind (returns_openHiveFor hopens)
  exact Returns.bind (Returns.bind (hlook _) Returns.modify) Returns.pure

theorem returns_upgrade {dir : String}
    (hencodes : cfg.formatVersion < currentFormat → b.encodes (upgraded cfg) = true) :
    Returns (upgrade b dir cfg) s (upgraded cfg) { s with root := renewed dir cfg s.root } := by
  unfold upgrade renewed
  by_cases hold : cfg.formatVersion < currentFormat
  · have hcfg : upgraded cfg = { cfg with formatVersion := currentFormat } := by rw [upgraded, if_pos hold]
    rw [if_pos hold, if_pos hold, hcfg]
    exact Returns.bind (returns_save (hcfg ▸ hencodes hold)) Returns.pure
  · rw [if_neg hold, if_neg hold, upgraded, if_neg hold]
    exact Returns.pure

theorem returns_mountOne [Scalar F] (h : Mountable b s name) : Returns (mountOne b name) s () (mountedBy b name s) := by
  apply Returns.get_bind
  unfold Mountable mountedBy live refusedAt at *
  by_cases hhidden : name.startsWith "_"
  · simp only [if_pos hhidden]
    exact Returns.pure
  · simp only [if_neg hhidden] at h ⊢
    cases htoml : (s.root.dir name).toml with
    | none => exact Returns.pure
    | some cfg =>
      simp only [htoml] at h ⊢
      apply Returns.step_bind
      by_cases hnew : currentFormat < cfg.formatVersion
      · have hle : ¬cfg.formatVersion ≤ currentFormat := not_le.mpr hnew
        rw [if_pos hnew]
        simp only [Option.filter_some, hle, hnew, decide_true, decide_false, if_true, Option.map_some]
        exact Returns.modify
      · have hle : cfg.formatVersion ≤ currentFormat := not_lt.mp hnew
        obtain ⟨hencodes, hopens⟩ := h cfg (by simp [Option.filter_some, hle])
        rw [if_neg hnew]
        simp only [Option.filter_some, hle, decide_true, if_true]
        apply Returns.bind (returns_upgrade hencodes)
        apply Returns.bind (returns_openHiveFor hopens)
        simp only [name_upgraded]
        exact Returns.modify

/-! ### The whole boot -/

theorem envAt_mountedAll {env : String} {names : List String} :
    envAt b (mountedAll b names s).root env = envAt b s.root env := by
  induction names generalizing s with
  | nil => rfl
  | cons name names ih => exact ih.trans (envAt_mountedBy env)

theorem envAt_looped (root : DataDir F E) (env : String) : envAt b (looped b root).root env = envAt b root env :=
  envAt_mountedAll

theorem refused_looped (root : DataDir F E) (name : String) :
    (looped b root).refused.get name = refusedAt root name := by
  rw [looped, refused_mountedAll name root.db.keys_nodup]
  show (if name ∈ root.db.keys then (refusedAt root name).or _ else _) = _
  split_ifs with hmem
  · simp
  · cases hdir : root.db.get name with
    | none =>
      have htoml : (root.dir name).toml = none := by simp [DataDir.dir, hdir]
      simp [refusedAt, htoml]
    | some d => exact absurd (mem_keys_iff.mpr (by simp [hdir])) hmem

/-- The default database is missing exactly if it has no `db.toml`. -/
theorem default_missing_iff (root : DataDir F E) :
    ((looped b root).inner.get defaultDb = none ∧ (looped b root).refused.get defaultDb = none) ↔
      (root.dir defaultDb).toml = none := by
  have hshown : ("default".startsWith "_") = false := by decide +kernel
  rw [inner_looped, refused_looped]
  unfold mountedOf live refusedAt
  simp only [defaultDb, hshown, Bool.false_eq_true, if_false, Option.map_eq_none_iff]
  cases htoml : (root.dir "default").toml with
  | none => simp
  | some cfg =>
    rcases Nat.lt_or_ge currentFormat cfg.formatVersion with hnew | hle
    · simp [Option.filter_some, hnew]
    · simp [Option.filter_some, hle]

variable [Scalar F]

/-- What a boot mounts under a name: what is on disk, or the configuration made
for the default database where it has none. -/
def effective (made : Except HeatherError (DbConfig F)) (root : DataDir F E) (name : String) : Option (DbConfig F) :=
  if name = defaultDb ∧ (root.dir defaultDb).toml = none then made.toOption else live root name

/-- What has to be on disk for a boot to succeed. -/
structure Bootable (b : Backend F E) (made : Except HeatherError (DbConfig F)) (root : DataDir F E) : Prop where
  layout : root.layout.all (· = supportedLayout) = true
  default : (root.dir defaultDb).toml = none → ∃ cfg, made = .ok cfg ∧ b.encodes cfg = true
  fits : ∀ name cfg, effective made root name = some cfg → Fits b root cfg
  agree : ∀ name name' cfg cfg', effective made root name = some cfg → effective made root name' = some cfg' →
    Agree cfg cfg'

/-- The loop returns exactly if what is on disk fits and agrees. -/
theorem along_keys_iff (root : DataDir F E) :
    Along (Mountable b) (mountedBy b) root.db.keys ⟨tagged root, .empty, .empty⟩ ↔
      (∀ name cfg, live root name = some cfg → Fits b root cfg) ∧
        ∀ name name' cfg cfg', live root name = some cfg → live root name' = some cfg' → Agree cfg cfg' := by
  rw [along_mountable_iff root.db.keys_nodup fun _ _ => get_empty _]
  have hfree : ∀ env mapSizeMb, Sharable ⟨tagged root, .empty, .empty⟩ env mapSizeMb := fun env mapSizeMb =>
    sharable_iff.mpr fun name mounted h => by simp at h
  have htagged : ∀ cfg : DbConfig F, Fits b (tagged root) cfg ↔ Fits b root cfg := fun cfg => fits_congr rfl
  constructor
  · rintro ⟨hfits, hagree⟩
    exact ⟨fun name cfg hlive => (htagged cfg).mp (hfits name (mem_keys_of_live hlive) cfg hlive).1,
      fun name name' cfg cfg' hlive hlive' =>
        hagree name (mem_keys_of_live hlive) name' (mem_keys_of_live hlive') cfg cfg' hlive hlive'⟩
  · rintro ⟨hfits, hagree⟩
    exact ⟨fun name _ cfg hlive => ⟨(htagged cfg).mpr (hfits name cfg hlive), hfree _ _⟩,
      fun name _ name' _ cfg cfg' hlive hlive' => hagree name name' cfg cfg' hlive hlive'⟩

/-- The new default database can be opened after the loop exactly if it fits
and agrees with what is on disk. -/
theorem opens_looped_iff (root : DataDir F E) (hformat : cfg.formatVersion = currentFormat) :
    Opens b { looped b root with root := saved cfg cfg.name (DataDir.createDir cfg.name (looped b root).root) } cfg ↔
      Fits b root cfg ∧ ∀ name cfg', live root name = some cfg' → Agree cfg' cfg := by
  have henv : ((saved cfg cfg.name (DataDir.createDir cfg.name (looped b root).root)).dir cfg.name).data.getD b.fresh =
      envAt b root cfg.name := by
    rw [data_saved, ← envAt_looped (b := b) root cfg.name, envAt]
    simp [DataDir.createDir]
  have hshare : (looped b root).Sharable cfg.name cfg.mapSizeMb ↔
      ∀ name cfg', live root name = some cfg' → Agree cfg' cfg := by
    rw [sharable_iff]
    simp only [inner_looped, mountedOf]
    constructor
    · intro h name cfg' hlive hname
      have hsame := h name ⟨upgraded cfg', cfg'.name⟩ (by simp [hlive]) hname
      rwa [mapSizeMb_upgraded] at hsame
    · intro h name mounted hget henv
      obtain ⟨cfg', hlive, rfl⟩ := Option.map_eq_some_iff.mp hget
      rw [mapSizeMb_upgraded]
      exact h name cfg' hlive henv
  constructor
  · rintro ⟨hvalid, hsharable, hopens⟩
    rw [henv] at hopens
    exact ⟨⟨fun hold => absurd hold (by omega), hvalid, hopens⟩, hshare.mp hsharable⟩
  · rintro ⟨hfits, hagree⟩
    exact ⟨hfits.valid, hshare.mpr hagree, henv ▸ hfits.opens⟩

omit [Scalar F] in
theorem effective_of_missing {made : Except HeatherError (DbConfig F)} (h : (root.dir defaultDb).toml = none) :
    effective made root name = if name = defaultDb then made.toOption else live root name := by
  simp [effective, h]

omit [Scalar F] in
theorem effective_of_toml {made : Except HeatherError (DbConfig F)} (h : (root.dir defaultDb).toml ≠ none) :
    effective made root name = live root name := by
  simp [effective, h]

omit [Scalar F] in
/-- The default database that has no `db.toml` is not on disk. -/
theorem live_default (h : (root.dir defaultDb).toml = none) : live root defaultDb = none := by
  unfold live
  split_ifs
  · rfl
  · rw [h, Option.filter_none]

/-- A boot that succeeds, whatever else may have failed, found everything it
needs. -/
theorem bootable_of_gives {u : Unit} {s' : Server F E}
    (h : Gives (openWith b dimension l0 mapSizeMb now) ⟨root, .empty, .empty⟩ u s') :
    Bootable b (defaultConfig dimension l0 mapSizeMb now) root ∧ ∀ name, s'.inner.get name =
      (effective (defaultConfig dimension l0 mapSizeMb now) root name).map fun cfg => ⟨upgraded cfg, cfg.name⟩ := by
  obtain ⟨hlayout, halong, hdefault⟩ := openWith_gives h
  obtain ⟨hfits, hagree⟩ := (along_keys_iff root).mp halong
  rcases ensureDefault_gives hdefault with ⟨rfl, hthere⟩ | ⟨hinner, hrefused, cfg, mounted, hcfg, hcreate⟩
  · rw [default_missing_iff] at hthere
    refine ⟨⟨hlayout, fun hmissing => absurd hmissing hthere, ?_, ?_⟩, fun name => ?_⟩
    · exact fun name cfg heff => hfits name cfg (effective_of_toml hthere ▸ heff)
    · exact fun name name' cfg cfg' heff heff' =>
        hagree name name' cfg cfg' (effective_of_toml hthere ▸ heff) (effective_of_toml hthere ▸ heff')
    · rw [inner_looped, effective_of_toml hthere, mountedOf]
  · have hmissing := (default_missing_iff root).mp ⟨hinner, hrefused⟩
    obtain ⟨hname, hformat, -⟩ := of_defaultConfig hcfg
    obtain ⟨-, -, hencodes, rfl, hopens, rfl⟩ := createDatabase_gives hcreate
    obtain ⟨hfits', hagree'⟩ := (opens_looped_iff root hformat).mp hopens
    have heffective : ∀ other, effective (defaultConfig dimension l0 mapSizeMb now) root other =
        if other = defaultDb then some cfg else live root other := fun other => by
      rw [effective_of_missing hmissing, hcfg]
      rfl
    refine ⟨⟨hlayout, fun _ => ⟨cfg, hcfg, hencodes⟩, ?_, ?_⟩, fun other => ?_⟩
    · intro other cfg' heff
      rw [heffective] at heff
      split_ifs at heff with hother
      · exact Option.some.inj heff ▸ hfits'
      · exact hfits other cfg' heff
    · intro other other' cfg₁ cfg₂ heff heff'
      rw [heffective] at heff heff'
      split_ifs at heff heff' with hother hother' hother'
      · exact fun _ => by rw [← Option.some.inj heff, ← Option.some.inj heff']
      · obtain rfl := Option.some.inj heff
        exact fun hsame => (hagree' other' cfg₂ heff' hsame.symm).symm
      · obtain rfl := Option.some.inj heff'
        exact hagree' other cfg₁ heff
      · exact hagree other other' cfg₁ cfg₂ heff heff'
    · show ((looped b root).inner.put cfg.name ⟨cfg, cfg.name⟩).get other = _
      rw [get_put, inner_looped, heffective, mountedOf, hname]
      split_ifs with hother
      · have hcurrent : upgraded cfg = cfg := by rw [upgraded, if_neg (by omega)]
        rw [Option.map_some, hcurrent, hname]
      · rfl

/-- A boot that finds everything it needs succeeds. -/
theorem returns_openWith (h : Bootable b (defaultConfig dimension l0 mapSizeMb now) root) :
    ∃ s', Returns (openWith b dimension l0 mapSizeMb now) ⟨root, .empty, .empty⟩ () s' := by
  have hmade : ∀ name cfg, live root name = some cfg →
      effective (defaultConfig dimension l0 mapSizeMb now) root name = some cfg := by
    intro name cfg hlive
    by_cases hmissing : (root.dir defaultDb).toml = none
    · rw [effective_of_missing hmissing, if_neg, hlive]
      rintro rfl
      rw [live_default hmissing] at hlive
      cases hlive
    · rw [effective_of_toml hmissing, hlive]
  have hloop : Along (Mountable b) (mountedBy b) root.db.keys ⟨tagged root, .empty, .empty⟩ :=
    (along_keys_iff root).mpr ⟨fun name cfg hlive => h.fits name cfg (hmade name cfg hlive),
      fun name name' cfg cfg' hlive hlive' =>
        h.agree name name' cfg cfg' (hmade name cfg hlive) (hmade name' cfg' hlive')⟩
  have hlayout : Returns (checkLayout : Program HeatherError (Server F E) Unit) ⟨root, .empty, .empty⟩ ()
      ⟨tagged root, .empty, .empty⟩ := by
    have htag := h.layout
    apply Returns.get_bind
    apply Returns.step_bind
    cases hroot : root.layout with
    | none => exact Returns.modify
    | some layout =>
      rw [hroot, Option.all_some, decide_eq_true_eq] at htag
      have hsame : tagged root = root := by
        rw [tagged, ← htag, ← hroot]
      rw [hsame]
      exact Returns.ensure htag
  have hdefault : ∃ s', Returns (ensureDefault b dimension l0 mapSizeMb now) (looped b root) () s' := by
    unfold ensureDefault
    by_cases hmissing : (root.dir defaultDb).toml = none
    · obtain ⟨cfg, hcfg, hencodes⟩ := h.default hmissing
      obtain ⟨hname, hformat, -⟩ := of_defaultConfig hcfg
      have heff : effective (defaultConfig dimension l0 mapSizeMb now) root defaultDb = some cfg := by
        rw [effective_of_missing hmissing, if_pos rfl, hcfg]
        rfl
      obtain ⟨hinner, hrefused⟩ := (default_missing_iff (b := b) root).mpr hmissing
      have hopens := (opens_looped_iff root hformat).mpr ⟨h.fits defaultDb cfg heff, fun name cfg' hlive =>
        h.agree name defaultDb cfg' cfg (hmade name cfg' hlive) heff⟩
      have hvalid : validateDbName cfg.name = .ok () := by
        rw [hname]
        rfl
      have hcreate := returns_createDatabase hvalid (hname ▸ hinner) hencodes hopens
      apply Exists.intro
      apply Returns.get_bind
      rw [if_pos (by simp [hinner, hrefused])]
      exact Returns.ofExcept_bind hcfg (hcreate.bind Returns.pure)
    · have hthere : ¬((looped b root).inner.get defaultDb = none ∧ (looped b root).refused.get defaultDb = none) :=
        fun h => hmissing ((default_missing_iff root).mp h)
      apply Exists.intro
      apply Returns.get_bind
      rw [if_neg (by simpa only [Option.isNone_iff_eq_none] using hthere)]
      exact Returns.pure
  obtain ⟨s', hs'⟩ := hdefault
  refine ⟨s', ?_⟩
  apply Returns.step_bind
  apply Returns.step_bind
  apply Returns.bind hlayout
  apply Returns.step_bind
  apply Returns.step_bind
  apply Returns.get_bind
  exact Returns.bind (Returns.forM returns_mountOne hloop) hs'

end Server

end HeatherDb
