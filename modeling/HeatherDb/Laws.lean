/-
# What a rung conserves

A rung of the ladder writes one pattern for each location of its source: the
law, at the location's address. In exact arithmetic a write adds its counter
to the counters by its share, and behind the gate every share is one. So
whatever the level held before, after a rung its counters add up to the laws
of the source.

Key definitions: `lawPattern`, `flatFft`.
Key theorems: `booked_gated`, `booked_rung`, `consolidateRung_conserves`.
-/
import HeatherDb.Addition
import HeatherDb.EvidenceLedger
import HeatherDb.Ladder
import HeatherDb.Unbounded

namespace HeatherDb

open Scalar Narrow Program

/-- The pattern of a law: the law at its location's address. -/
def lawPattern {F : Type} (opts : WriteOpts F) (loc : HardLocation F) (law : List F) : Pattern F :=
  ⟨loc.address, law, opts⟩

variable {fft : RealFft ℝ} {opts : WriteOpts ℝ} {config : EAMConfig ℝ}

/-! ### The ledger of a rung -/

/-- Behind the gate each law counts once. -/
theorem booked_gated (hgate : opts.gate = true) (d : ℕ) : ∀ {locations : List (HardLocation ℝ)} {laws : List (List ℝ)}
    {shares : List ℝ}, locations.length = laws.length →
    List.Forall₂ (Share config) (List.zipWith (lawPattern opts) locations laws) shares →
    booked d (List.zipWith (lawPattern opts) locations laws) shares = ((laws.map (vec d)).sum, (laws.length : ℝ))
  | [], [], shares, _, h => by
    cases h
    simp [booked]
    rfl
  | loc :: locations, law :: laws, shares, hlength, h => by
    cases h with
    | @cons _ share _ shares hshare hrest =>
      have hone : share = 1 := hshare.once (Or.inr hgate)
      have htail := booked_gated hgate d (Nat.succ.inj hlength) hrest
      rw [booked] at htail ⊢
      rw [List.zipWith_cons_cons, List.zipWith_cons_cons, List.sum_cons, htail, hone, one_smul, List.map_cons,
        List.sum_cons, List.length_cons, Nat.cast_add, Nat.cast_one, add_comm (laws.length : ℝ)]
      rfl

/-- A write to a memory that counts. -/
theorem Booked.wrote (hpos : 0 < config.d) {t : Session ℝ ℝ} {xs : List (Pattern ℝ)} {shares : List ℝ}
    (hcounting : Counting config t.collection.inner)
    (h : Booked config 0 xs False t.collection.inner.locations shares) {x : Pattern ℝ} (hfit : t.Fits [x]) (p : Puts ℝ) :
    Counting config (t.wrote [x] 0 p).collection.inner ∧
      ∃ share, Booked config 0 (xs ++ [x]) False (t.wrote [x] 0 p).collection.inner.locations (shares ++ [share]) := by
  have hx := hfit x List.mem_cons_self
  rw [hcounting.config_eq] at hx
  have hbumped : Counting config t.collection.inner.bumpVersion :=
    ⟨hcounting.config_eq, ⟨hcounting.arrays.looks, hcounting.arrays.matrix, hcounting.arrays.matrix32⟩,
      hcounting.norms.congr rfl rfl rfl, hcounting.built⟩
  have hnext := Counting.next (b := ⟨t.collection.inner.bumpVersion, t.rng, []⟩) hbumped hx
  refine ⟨⟨hnext.config_eq, ⟨hnext.arrays.looks, hnext.arrays.matrix, hnext.arrays.matrix32⟩,
    hnext.norms.congr rfl rfl rfl, hnext.built⟩, ?_⟩
  exact Booked.next (b := ⟨t.collection.inner.bumpVersion, t.rng, []⟩) hpos hbumped h hx

/-- The writes of a rung are booked. -/
theorem booked_rung (hpos : 0 < config.d) {dst : ℕ} {u : Unit} {hive' : Hive ℝ ℝ} :
    ∀ {rest : List (HardLocation ℝ)} {xs : List (Pattern ℝ)} {shares : List ℝ} {hive : Hive ℝ ℝ} {t : Session ℝ ℝ},
      hive.session dst = some t → Counting config t.collection.inner →
      Booked config 0 xs False t.collection.inner.locations shares →
      Gives (rest.forM fun loc => do
        let law ← unlessPanics (lawOf fft loc)
        onHandle dst (writeTwo loc.address law opts)) hive u hive' →
      ∃ t' laws more, hive'.session dst = some t' ∧ Counting config t'.collection.inner ∧
        List.Forall₂ (fun loc law => lawOf fft loc = some law) rest laws ∧
        Booked config 0 (xs ++ List.zipWith (lawPattern opts) rest laws) False t'.collection.inner.locations
          (shares ++ more)
  | [], xs, shares, hive, t, ht, hcounting, hbooked, h => by
    obtain ⟨-, rfl⟩ := Gives.pure h
    exact ⟨t, [], [], ht, hcounting, .nil, by rwa [List.zipWith_nil_left, List.append_nil, List.append_nil]⟩
  | loc :: rest, xs, shares, hive, t, ht, hcounting, hbooked, h => by
    obtain ⟨_, hive₁, hturn, hrest⟩ := h.bind
    obtain ⟨law, hive₂, hlaw, hwrite⟩ := hturn.bind
    obtain ⟨hfound, rfl⟩ := unlessPanics_gives hlaw
    obtain ⟨s, s', hs, ⟨fs, fs', hwrite⟩, hs'⟩ := onHandle_gives hwrite
    obtain rfl := Option.some.inj (ht.symm.trans hs)
    rcases writeTwo_cases loc.address law opts t fs with ⟨e, _, _, hrun, -⟩ | ⟨hfit, _, hrun⟩
    · simp [hrun] at hwrite
    rw [hrun] at hwrite
    simp only [Prod.mk.injEq, World.mk.injEq] at hwrite
    obtain ⟨-, rfl, -⟩ := hwrite
    obtain ⟨hcounting', share, hbooked'⟩ := hbooked.wrote hpos hcounting hfit _
    obtain ⟨t', laws, more, ht', hcounting'', hlaws, hlast⟩ := booked_rung hpos hs' hcounting' hbooked' hrest
    refine ⟨t', law :: laws, share :: more, ht', hcounting'', .cons hfound hlaws, ?_⟩
    rw [List.append_assoc, List.append_assoc] at hlast
    exact hlast

theorem pos_of_validate (h : config.validate = .ok ()) : 0 < config.d := by
  obtain ⟨hd, -⟩ := refuseUnless_bind h
  exact Nat.pos_of_ne_zero (by simpa using hd)

theorem loadSnapshotChecked_gives {locations : List (HardLocation ℝ)} {expected : Option ℕ} {t t' : Session ℝ ℝ}
    {u : Unit} (h : Gives (loadSnapshotChecked locations config expected) t u t') :
    config.validate = .ok () ∧ t' = t.replaced locations config := by
  obtain ⟨_, hvalid, -⟩ := Gives.ofExcept_bind h
  obtain ⟨fs, fs', hrun⟩ := h
  rcases loadSnapshotChecked_cases locations config expected t fs with ⟨e, _, _, hcase, -⟩ | ⟨-, -, _, hcase⟩
  · simp [hcase] at hrun
  · rw [hcase] at hrun
    simp only [Prod.mk.injEq, World.mk.injEq] at hrun
    exact ⟨hvalid, hrun.2.1.symm⟩

/-- A collection that was cleared has taken nothing in. -/
theorem booked_cleared (t : Session ℝ ℝ) (config : EAMConfig ℝ) :
    Counting config (t.replaced [] config).collection.inner ∧
      Booked config 0 [] False (t.replaced [] config).collection.inner.locations [] := by
  refine ⟨⟨rfl, indexed_rebuildGraphCache _, .rebuilt _, .of_nil _⟩, ⟨.nil, rfl, le_rfl, ?_, fun _ => rfl⟩⟩
  show (held config.d []).2 + 2 * leastWeight * ([] : List (HardLocation ℝ)).length ≤ _
  simp [held, booked]

/-- **A rung conserves the laws.** In exact arithmetic and behind the gate, a
rung that returned leaves its target with counters that add up to the laws of
the source's locations, and with write counts that add up to their number,
whatever the target held before. -/
theorem consolidateRung_conserves {src dst : ℕ} {hive hive' : Hive ℝ ℝ} {u : Unit} (hgate : opts.gate = true)
    (hrung : Gives (consolidateRung fft src dst opts) hive u hive') :
    ∃ s t laws, hive.session src = some s ∧ hive'.session dst = some t ∧
      List.Forall₂ (fun loc law => lawOf fft loc = some law) s.collection.inner.locations laws ∧
      (t.collection.inner.locations.map fun loc => vec t.collection.inner.config.d loc.counter).sum =
        (laws.map (vec t.collection.inner.config.d)).sum ∧
      (t.collection.inner.locations.map (·.writeCount)).sum = laws.length := by
  obtain ⟨source, _, hsource, hrest⟩ := hrung.bind
  obtain ⟨s, hs, rfl, rfl⟩ := onHandle_readInner_gives hsource
  obtain ⟨target, _, htarget, hcleared⟩ := hrest.bind
  obtain ⟨t, ht, rfl, rfl⟩ := onHandle_readInner_gives htarget
  obtain ⟨_, cleared, hclear, hwrites⟩ := hcleared.bind
  obtain ⟨t₀, t₁, ht₀, hload, ht₁⟩ := onHandle_gives hclear
  obtain rfl := Option.some.inj (ht.symm.trans ht₀)
  obtain ⟨hvalid, rfl⟩ := loadSnapshotChecked_gives hload
  obtain ⟨hcounting, hempty⟩ := booked_cleared t t.collection.inner.config
  obtain ⟨t', laws, shares, ht', hlast, hlaws, hbooked⟩ := booked_rung (pos_of_validate hvalid) ht₁ hcounting hempty hwrites
  have hsums := booked_gated hgate t.collection.inner.config.d hlaws.length_eq hbooked.each
  refine ⟨s, t', laws, hs, ht', hlaws, ?_, ?_⟩
  · rw [hlast.config_eq, ← held_fst, hbooked.counters]
    exact congrArg Prod.fst hsums
  · rw [← held_snd t.collection.inner.config.d, hbooked.exact id]
    exact congrArg Prod.snd hsums

/-- Every number is its own spectrum. -/
noncomputable def flatFft : RealFft ℝ := ⟨realOps, fun _ v => some (v.map fun x => ⟨x, 0⟩), fun _ spec => some (spec.map (·.re))⟩

/-- A hive with a collection of two locations and one that holds another. -/
noncomputable def twoLevels : Hive ℝ ℝ where
  store := .empty .f64
  config := realConfig
  rng := fun _ => 1
  handles := [⟨0, "c", .opened realConfig [freshLocation 0 [1] [1], freshLocation 1 [-1] [2]] 2 (1 / 10) 0⟩,
    ⟨1, "c__L1", .opened realConfig [freshLocation 0 [1] [10]] 1 (1 / 10) 0⟩]
  collections := .empty

/-- A rung of two laws: of what the target held nothing is left. -/
theorem consolidateRung_conserves_two : ∃ hive t, Gives (consolidateRung flatFft 0 1 gatedOpts) twoLevels () hive ∧
    hive.session 1 = some t ∧ (t.collection.inner.locations.map (·.writeCount)).sum = 2 := by
  let source : Session ℝ ℝ := ⟨twoLevels.store, twoLevels.rng,
    ⟨0, "c", .opened realConfig [freshLocation 0 [1] [1], freshLocation 1 [-1] [2]] 2 (1 / 10) 0⟩⟩
  let target : Session ℝ ℝ := ⟨twoLevels.store, twoLevels.rng,
    ⟨1, "c__L1", .opened realConfig [freshLocation 0 [1] [10]] 1 (1 / 10) 0⟩⟩
  have hclear : Returns (loadSnapshotChecked [] realConfig none) target () (target.replaced [] realConfig) :=
    Returns.ofExcept_bind valid_realConfig rfl
  obtain ⟨x, hx⟩ : ∃ x, lawOf flatFft (freshLocation 0 [1] [1] : HardLocation ℝ) = some [x] := ⟨_, rfl⟩
  obtain ⟨y, hy⟩ : ∃ y, lawOf flatFft (freshLocation 1 [-1] [2] : HardLocation ℝ) = some [y] := ⟨_, rfl⟩
  let first : Session ℝ ℝ := (writeTwo [1] [x] gatedOpts ⟨target.replaced [] realConfig, []⟩).2.state
  let second : Session ℝ ℝ := (writeTwo [-1] [y] gatedOpts ⟨first, []⟩).2.state
  have hfirst : Returns (writeTwo [1] [x] gatedOpts) (target.replaced [] realConfig) () first := rfl
  have hsecond : Returns (writeTwo [-1] [y] gatedOpts) first () second := rfl
  -- a turn of the loop
  have hturn : ∀ {loc : HardLocation ℝ} {law : List ℝ} {hive : Hive ℝ ℝ} {t t' : Session ℝ ℝ},
      lawOf flatFft loc = some law → hive.session 1 = some t → Returns (writeTwo loc.address law gatedOpts) t () t' →
      Returns (do
        let law ← unlessPanics (lawOf flatFft loc)
        onHandle 1 (writeTwo loc.address law gatedOpts)) hive () (hive.withSession 1 t') := fun hlaw hs hwrite => by
    refine Returns.bind ?_ (returns_onHandle hs hwrite)
    rw [hlaw]
    exact .pure
  obtain ⟨last, hrung⟩ : ∃ last, Returns (consolidateRung flatFft 0 1 gatedOpts) twoLevels () last := by
    have hsource : Returns (onHandle 0 readInner) twoLevels source.collection.inner twoLevels := rfl
    have htarget : Returns (onHandle 1 readInner) twoLevels target.collection.inner twoLevels := rfl
    have hcleared : (twoLevels.withSession 1 (target.replaced [] realConfig)).session 1 = some _ :=
      Hive.session_withSession rfl _
    exact ⟨_, hsource.bind (htarget.bind ((returns_onHandle rfl hclear).bind ((hturn hx hcleared hfirst).bind
      ((hturn hy (Hive.session_withSession hcleared _) hsecond).bind .pure))))⟩
  obtain ⟨s, t, laws, hs, ht, hlaws, -, hcount⟩ := consolidateRung_conserves rfl hrung.gives
  obtain rfl := Option.some.inj (hs.symm.trans (show twoLevels.session 0 = some source from rfl))
  refine ⟨_, t, hrung.gives, ht, hcount.trans ?_⟩
  rw [← hlaws.length_eq]
  exact Nat.cast_two

end HeatherDb
