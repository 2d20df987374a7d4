/-
# Collections that were built

What every location of a collection has that was built by calls: every call
but the load of a snapshot, whose locations are the client's.

A call is made of elementary operations, one adaptive write of a batch, one
pair of a merge or one round of a compression. `Rules` asks something of each
where it comes, and `Preserves` says that what is asked is enough for a
property of the single location. Then a collection built from an empty one
has it throughout (`built_run`). Calls that failed are no steps of a build.

Key definitions: `Rules`, `Call.Meets`, `Building`, `Built`, `Preserves`.
Key theorem: `built_run`.
-/
import HeatherDb.Recoverable
import HeatherDb.Rounds

namespace HeatherDb

open Scalar Narrow

variable {F S : Type} [Scalar F] [Scalar S] [Narrow F S]

/-! ### What is asked of a call -/

/-- What is asked of the elementary operations. -/
structure Rules (F S : Type) where
  /-- Of a write, on the memory it comes to. -/
  write : EAMInner F S → Pattern F → Prop
  /-- Of a pair that is merged, the second into the first. -/
  merge : HardLocation F → HardLocation F → Prop
  /-- Of a pair that is joined by a compression of so many locations. -/
  join : ℕ → HardLocation F → HardLocation F → Prop

/-- Every write of a batch is as `W` says, on the memory it comes to. -/
def EachWrite (W : EAMInner F S → Pattern F → Prop) (b : Batch F S) (xs : List (Pattern F)) : Prop :=
  Along (fun b x => W b.inner x) (fun x b => b.next x) xs b

/-- A merge before its first pair. -/
def Merging.start (locations : List (HardLocation F)) : Merging F :=
  ⟨locations, List.replicate locations.length false, ⟨[], [], 0⟩⟩

/-- Every pair that a merge merges is as `Q` says. -/
def EachMerge [SeededUniform F] (config : EAMConfig F) (locations : List (HardLocation F))
    (Q : HardLocation F → HardLocation F → Prop) : Prop :=
  Along (fun st p => st.merged.getD p.1 false = false → st.merged.getD p.2.1 false = false →
      Q (locationAt st.locations p.1) (locationAt st.locations p.2.1))
    (fun p st => mergePair config st p) (mergePairs locations config) (.start locations)

/-- Every pair that a compression joins is as `Q` says. -/
def EachRound (kappa lambda : F) (locations : List (HardLocation F)) (Q : HardLocation F → HardLocation F → Prop) :
    Prop :=
  ∀ joins mid p next, Run (Round kappa lambda (totalWeight locations)) locations joins mid →
    Round kappa lambda (totalWeight locations) mid p next → Q p.1 p.2

/-- Every call but the load of a snapshot. -/
def Call.Builds : Call F → Prop
  | .loadSnapshotChecked .. => False
  | _ => True

instance (c : Call F) : Decidable c.Builds :=
  match c with
  | .loadSnapshotChecked .. => inferInstanceAs (Decidable False)
  | .write _ | .writeTwo .. | .writeBatch _ | .writeWithMetadata .. | .writeBatchWithMetadata _ | .merge
  | .compress .. | .deleteDocument _ => inferInstanceAs (Decidable True)

/-- The elementary operations of a call are as the rules ask. -/
def Call.Meets [SeededUniform F] (R : Rules F S) (s : Session F S) : Call F → Prop
  | .merge => EachMerge s.collection.inner.config s.collection.inner.locations R.merge
  | .compress kappa lambda =>
    EachRound kappa lambda s.collection.inner.locations (R.join s.collection.inner.locations.length)
  | c => EachWrite R.write ⟨s.collection.inner.bumpVersion, s.rng, []⟩ c.patterns

/-- A call that builds and succeeded. -/
def Succeeds [SeededUniform F] (s : Session F S) (c : Call F) (s' : Session F S) : Prop :=
  c.Builds ∧ ∃ r, Step s (c, .ok r) s'

/-- One that is as the rules ask. -/
def Building [SeededUniform F] (R : Rules F S) (s : Session F S) (c : Call F) (s' : Session F S) : Prop :=
  c.Meets R s ∧ Succeeds s c s'

/-! ### What is kept -/

/-- Distinct ids below the next one, and every location is as `P` says. -/
structure Built (config : EAMConfig F) (P : ℕ → HardLocation F → Prop) (locations : List (HardLocation F))
    (nextId : ℕ) : Prop where
  shaped : Shaped config.d locations
  nodup : (locations.map (·.id)).Nodup
  fresh : ∀ loc ∈ locations, loc.id < nextId
  each : ∀ loc ∈ locations, P nextId loc

/-- The rules are enough for each elementary operation to keep `P`. -/
structure Preserves (config : EAMConfig F) (R : Rules F S) (P : ℕ → HardLocation F → Prop) : Prop where
  mono : ∀ {n m : ℕ} {loc : HardLocation F}, P n loc → n ≤ m → P m loc
  write : ∀ {inner : EAMInner F S} {x : Pattern F} (rng : Rng F), inner.config = config →
    Built config P inner.locations inner.nextId → x.address.length = config.d ∧ x.counter.length = config.d →
    R.write inner x → ∀ loc ∈ (inner.adapt x rng).inner.locations ++ (inner.adapt x rng).result.newLocations,
      P (inner.adapt x rng).inner.nextId loc
  merge : ∀ {n m : ℕ} {a b : HardLocation F}, P n a → P n b → R.merge a b → P n (absorb config m a b)
  join : ∀ {n m : ℕ} {a b : HardLocation F}, P n a → P n b → R.join m a b → P n (joined a b)

variable {config : EAMConfig F} {R : Rules F S} {P : ℕ → HardLocation F → Prop}

omit [Scalar F] in
theorem Built.of_nil (nextId : ℕ) : Built config P [] nextId := ⟨by simp [Shaped], by simp, by simp, by simp⟩

/-- One write keeps it. -/
theorem Built.next (hP : Preserves config R P) {b : Batch F S} (hconfig : b.inner.config = config)
    (h : Built config P b.inner.locations b.inner.nextId) {x : Pattern F}
    (hx : x.address.length = config.d ∧ x.counter.length = config.d) (hmeets : R.write b.inner x) :
    (b.next x).inner.config = config ∧ Built config P (b.next x).inner.locations (b.next x).inner.nextId := by
  have hs := sameState_settle (b.inner.adapt x b.rng).inner (b.inner.adapt x b.rng).result
  have hlocations : (b.next x).inner.locations =
      (b.inner.adapt x b.rng).inner.locations ++ (b.inner.adapt x b.rng).result.newLocations := hs.locations
  have hnextId : (b.next x).inner.nextId = (b.inner.adapt x b.rng).inner.nextId := hs.nextId
  have hg := (Grown.refl (hconfig.symm ▸ h.shaped) b.rng).step (hconfig.symm ▸ hx : _ ∧
      x.counter.length = b.inner.config.d)
  have hids : (b.next x).inner.locations.map (·.id) = _ := hg.ids
  have hle : b.inner.nextId ≤ (b.next x).inner.nextId := hg.next
  have hold : ∀ id ∈ b.inner.locations.map (·.id), id < b.inner.nextId := fun id hid => by
    obtain ⟨loc, hloc, rfl⟩ := List.mem_map.mp hid
    exact h.fresh loc hloc
  refine ⟨hg.config.trans hconfig, ?_, ?_, fun loc hloc => ?_, ?_⟩
  · exact hconfig ▸ hg.shaped
  · rw [hids, List.nodup_append']
    refine ⟨h.nodup, List.nodup_range', fun id hid hnew => ?_⟩
    have hge := (List.mem_range'_1.mp hnew).1
    exact absurd (hold id hid) (not_lt.mpr hge)
  · have hmem := hids ▸ List.mem_map_of_mem (f := HardLocation.id) hloc
    rcases List.mem_append.mp hmem with hmem | hmem
    · exact (hold _ hmem).trans_le hle
    · have hlt := (List.mem_range'_1.mp hmem).2
      have hsum : b.inner.nextId + ((b.next x).inner.nextId - b.inner.nextId) = (b.next x).inner.nextId :=
        Nat.add_sub_cancel' hle
      exact hlt.trans_eq hsum
  · rw [hlocations, hnextId]
    exact hP.write b.rng hconfig h hx hmeets

/-- **The writes of a call** keep it. -/
theorem Built.batch (hP : Preserves config R P) : ∀ (xs : List (Pattern F)) {b : Batch F S}, b.inner.config = config →
    Built config P b.inner.locations b.inner.nextId →
    (∀ x ∈ xs, x.address.length = config.d ∧ x.counter.length = config.d) → EachWrite R.write b xs →
    (xs.foldl Batch.next b).inner.config = config ∧
      Built config P (xs.foldl Batch.next b).inner.locations (xs.foldl Batch.next b).inner.nextId
  | [], _, hconfig, h, _, _ => ⟨hconfig, h⟩
  | x :: xs, b, hconfig, h, hfit, hmeets => by
    obtain ⟨hnext, hbuilt⟩ := h.next hP hconfig (hfit x List.mem_cons_self) hmeets.1
    exact Built.batch hP xs hnext hbuilt (fun y hy => hfit y (List.mem_cons_of_mem x hy)) hmeets.2

section each

variable {P : HardLocation F → Prop} {Q : HardLocation F → HardLocation F → Prop}

/-- The pairs of a merge keep what every location is. -/
theorem each_mergePair {n : ℕ} (hQ : ∀ {a b : HardLocation F}, P a → P b → Q a b → P (absorb config n a b)) :
    ∀ (ps : List (ℕ × ℕ × F)) {st : Merging F}, st.locations.length = n → (∀ p ∈ ps, p.1 < n ∧ p.2.1 < n) →
    (∀ loc ∈ st.locations, P loc) →
    Along (fun st p => st.merged.getD p.1 false = false → st.merged.getD p.2.1 false = false →
        Q (locationAt st.locations p.1) (locationAt st.locations p.2.1))
      (fun p st => mergePair config st p) ps st →
    ∀ loc ∈ (ps.foldl (mergePair config) st).locations, P loc
  | [], _, _, _, h, _ => h
  | p :: ps, st, hn, hlt, h, hmeets => by
    obtain ⟨hi, hj⟩ := hlt p List.mem_cons_self
    have hpair : ∀ loc ∈ (mergePair config st p).locations, P loc := forall_mergePair h fun hsource htarget => by
      rw [hn]
      exact hQ (h _ (locationAt_mem (hn ▸ hi))) (h _ (locationAt_mem (hn ▸ hj))) (hmeets.1 hsource htarget)
    exact each_mergePair hQ ps ((length_mergePair config st p).trans hn)
      (fun q hq => hlt q (List.mem_cons_of_mem p hq)) hpair hmeets.2

variable [SeededUniform F]

/-- What pairs that merge keep, a merge keeps. -/
theorem EachMerge.each {locations : List (HardLocation F)} (hmeets : EachMerge config locations Q)
    (hQ : ∀ {a b : HardLocation F}, P a → P b → Q a b → P (absorb config locations.length a b))
    (h : ∀ loc ∈ locations, P loc) : ∀ loc ∈ (knnMerge locations config).2, P loc := by
  unfold knnMerge
  split_ifs
  · exact h
  · intro loc hloc
    obtain ⟨i, hi, -⟩ := mem_remaining_iff.mp hloc
    refine each_mergePair hQ _ rfl (fun p hp => ?_) h hmeets loc (List.mem_of_getElem? hi)
    obtain ⟨hp1, hp2, -⟩ := mem_mergePairs hp
    exact ⟨hp1, hp2⟩

omit [SeededUniform F] [Scalar S] in
/-- What rounds keep, a compression keeps. -/
theorem EachRound.each {s : Session F S} {kappa lambda : F}
    (hmeets : EachRound kappa lambda s.collection.inner.locations Q)
    (hQ : ∀ {a b : HardLocation F}, P a → P b → Q a b → P (joined a b))
    (h : ∀ loc ∈ s.collection.inner.locations, P loc) :
    ∀ loc ∈ (s.compressed kappa lambda).collection.inner.locations, P loc := by
  obtain ⟨joins, hrun, -⟩ := compression_run s kappa lambda
  have hkept := hrun.history (P := fun joins mid =>
      Run (Round kappa lambda (totalWeight s.collection.inner.locations)) s.collection.inner.locations joins mid ∧
        ∀ loc ∈ mid, P loc)
    ⟨.nil, h⟩ fun {joins mid p next} hmid hround => by
      refine ⟨hmid.1.snoc hround, fun loc hloc => ?_⟩
      rcases hround.mem hloc with hloc | rfl
      · exact hmid.2 loc hloc
      · exact hQ (hmid.2 _ hround.fst_mem) (hmid.2 _ hround.snd_mem) (hmeets joins mid p next hmid.1 hround)
  exact hkept.2

end each

omit [Scalar F] in
/-- A consolidation leaves distinct ids below the next one. -/
theorem Built.consolidated {locations left : List (HardLocation F)} {merges : List (ℕ × ℕ)} {nextId : ℕ}
    (h : Built config P locations nextId) (hcons : Consolidated locations merges left)
    (heach : ∀ loc ∈ left, P nextId loc) : Built config P left nextId := by
  refine ⟨hcons.shaped _ h.shaped, ?_, fun loc hloc => ?_, heach⟩
  · rw [hcons.ids h.nodup]
    exact h.nodup.filter _
  · obtain ⟨old, hold, heq⟩ := List.mem_map.mp (hcons.within _ (List.mem_map_of_mem hloc))
    exact heq ▸ h.fresh old hold

variable [SeededUniform F]

/-- **A call that builds** keeps it. -/
theorem Built.effect (hP : Preserves config R P) {s : Session F S} (hconfig : s.collection.inner.config = config)
    (h : Built config P s.collection.inner.locations s.collection.inner.nextId) {c : Call F} (hbuilds : c.Builds)
    (hacc : c.Accepted s) (hmeets : c.Meets R s) : (c.effect s).collection.inner.config = config ∧
      Built config P (c.effect s).collection.inner.locations (c.effect s).collection.inner.nextId := by
  have hwrote : ∀ {xs : List (Pattern F)}, s.Fits xs →
      EachWrite R.write ⟨s.collection.inner.bumpVersion, s.rng, []⟩ xs → ∀ n p,
      (s.wrote xs n p).collection.inner.config = config ∧
        Built config P (s.wrote xs n p).collection.inner.locations (s.wrote xs n p).collection.inner.nextId :=
    fun hfit hmeets n p => Built.batch hP _ hconfig h (fun x hx => hconfig ▸ hfit x hx) hmeets
  cases c with
  | write input => exact hwrote hacc hmeets 0 _
  | writeTwo address counter opts => exact hwrote hacc hmeets 0 _
  | writeBatch inputs => exact hwrote hacc hmeets 0 _
  | writeWithMetadata input metadata => exact hwrote hacc hmeets 1 _
  | writeBatchWithMetadata items =>
    by_cases hemp : items = []
    · rw [Call.effect, if_pos hemp]
      exact ⟨hconfig, h⟩
    · rw [Call.effect, if_neg hemp]
      exact hwrote hacc hmeets items.length _
  | merge =>
    have hmerged : s.merged.collection.inner.config = config ∧
        s.merged.collection.inner.locations = (knnMerge s.collection.inner.locations config).2 ∧
        s.merged.collection.inner.nextId = s.collection.inner.nextId := by
      unfold Session.merged
      dsimp only
      rw [hconfig]
      split_ifs <;> exact ⟨hconfig, rfl, rfl⟩
    refine ⟨hmerged.1, ?_⟩
    show Built config P s.merged.collection.inner.locations s.merged.collection.inner.nextId
    rw [hmerged.2.1, hmerged.2.2]
    have hmeets : EachMerge config s.collection.inner.locations R.merge := hconfig ▸ hmeets
    exact h.consolidated (knnMerge_consolidated _ config).1 (hmeets.each hP.merge h.each)
  | compress kappa lambda =>
    have hnextId : (s.compressed kappa lambda).collection.inner.nextId = s.collection.inner.nextId := by
      unfold Session.compressed
      dsimp only
      split_ifs <;> rfl
    refine ⟨(config_compressed s kappa lambda).trans hconfig, ?_⟩
    show Built config P (s.compressed kappa lambda).collection.inner.locations _
    rw [Call.effect, hnextId]
    obtain ⟨-, -, -, hleft, -⟩ := compression_run s kappa lambda
    exact h.consolidated (hleft ▸ compression_consolidated s kappa lambda)
      (EachRound.each hmeets hP.join h.each)
  | loadSnapshotChecked snapshot config expected => exact hbuilds.elim
  | deleteDocument writeIndex => exact ⟨hconfig, h⟩

/-- A call that succeeded was accepted and had its effect. -/
theorem Succeeds.effect {s s' : Session F S} {c : Call F} (h : Succeeds s c s') : c.Accepted s ∧ s' = c.effect s := by
  obtain ⟨-, r, hstep⟩ := h
  rcases step_cases hstep with ⟨e, hr, -⟩ | ⟨hacc, -, heffect⟩
  · exact absurd hr nofun
  · exact ⟨hacc, heffect⟩

/-- Calls that succeed when no storage step fails. -/
theorem run_of_isOk {cs : List (Call F)} {s : Session F S}
    (h : Along (fun (s : Session F S) c => c.Builds ∧ (c.run ⟨s, []⟩).1.isOk = true) (fun c s => c.effect s) cs s) :
    Run Succeeds s cs (cs.foldl Call.effect s) :=
  (Run.of_along (f := Call.effect) h).mono fun hcall => ⟨hcall.1.1, _, hcall.2 ▸ step_of_isOk hcall.1.2⟩

/-- **A collection built from an empty one** has it in every state. -/
theorem built_run {s0 s : Session F S} {cs : List (Call F)} (hP : Preserves s0.collection.inner.config R P)
    (hempty : s0.collection.inner.locations = []) (hrun : Run (Building R) s0 cs s) :
    s.collection.inner.config = s0.collection.inner.config ∧
      Built s0.collection.inner.config P s.collection.inner.locations s.collection.inner.nextId := by
  refine hrun.invariant (P := fun s => s.collection.inner.config = s0.collection.inner.config ∧
    Built s0.collection.inner.config P s.collection.inner.locations s.collection.inner.nextId)
    ⟨rfl, hempty ▸ .of_nil _⟩ fun {s c s'} h hstep => ?_
  obtain ⟨hmeets, hsucceeds⟩ := hstep
  obtain ⟨hacc, rfl⟩ := hsucceeds.effect
  exact h.2.effect hP h.1 hsucceeds.1 hacc hmeets

end HeatherDb
