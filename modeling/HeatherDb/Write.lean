/-
# The adaptive write

`write.rs`: a write selects the k locations nearest its address, joins them
or spawns a location of its own, links the activated locations in the
neighbor graph, and splits a winner that carries too much. A plain
(non-competitive) memory appends every write verbatim instead.

What the storage above needs of a write is its frame (`WriteFrame`): which
locations it may change and which it adds, whatever the arithmetic computes.
Every step of a write that touches an existing location is an edit in place
(`Edited`): it keeps the location's id and the lengths of its vectors, and
the locations that were not activated.

Key definitions: `WriteResult`, `WriteOpts`, `adaptiveWriteTwo`, `adaptiveWrite`.
Key theorems: `adaptiveWriteTwo_frame`, `adaptiveWriteTwo_plain`.
-/
import Mathlib.Data.List.GetD
import HeatherDb.Scan

namespace HeatherDb

open Scalar

/-- Result of a write: the indices it modified, the locations it created and
the decayed learning rate. -/
structure WriteResult (F : Type) where
  modifiedIndices : List ℕ
  newLocations : List (HardLocation F)
  eta : F

/-- Options of the two-field write. -/
structure WriteOpts (F : Type) where
  /-- Decide join or spawn by how the counters cohere. -/
  gate : Bool
  tauCohere : F
  tauSplit : F

/-- A write's result with what it changed in place: the locations, the id
counter and the generator. -/
structure Written (F : Type) where
  result : WriteResult F
  locations : List (HardLocation F)
  nextId : ℕ
  rng : Rng F

variable {F S : Type} [Scalar F] [Scalar S] [Narrow F S]

/-- `WriteOpts::default()` -/
def WriteOpts.default : WriteOpts F where
  gate := false
  tauCohere := lit (1 / 10)
  tauSplit := lit (3 / 10)

/-- `locations[i]` -/
def locationAt (locations : List (HardLocation F)) (i : ℕ) : HardLocation F :=
  locations.getD i (HardLocation.new 0 [])

theorem locationAt_mem {locations : List (HardLocation F)} {i : ℕ} (h : i < locations.length) :
    locationAt locations i ∈ locations := by
  rw [locationAt, List.getD_eq_getElem locations _ h]
  exact List.getElem_mem h

theorem id_locationAt {locations : List (HardLocation F)} {i : ℕ} (h : i < locations.length) :
    (locations.map (·.id))[i]? = some (locationAt locations i).id := by
  rw [locationAt, List.getD_eq_getElem locations _ h]
  simp [h]

/-- A new location holding one write's evidence. -/
def freshLocation (id : ℕ) (address counter : List F) : HardLocation F :=
  { HardLocation.new id address with counter := counter, writeCount := lit 1 }

/-- `w_j = max(S(x, a_j), 0) / max_j S(x, a_j)` -/
def activationWeights (sims : List F) (k : ℕ) : List F :=
  let maxSim := sims.headD (lit 0)
  if lt (lit (1 / 10 ^ 12)) maxSim then sims.map fun s => fmax s (lit 0) / maxSim
  else List.replicate sims.length (lit 1 / ofUsize k)

/-- The gated winner: the candidate of the same context whose counter coheres
best, and whether the write is to spawn instead. -/
def gatedWinner (counter : List F) (locations : List (HardLocation F)) (indices : List ℕ)
    (sims : List F) (opts : WriteOpts F) : ℕ × Bool :=
  let cn := normalize counter
  let coherence := fun li => cosineSimilarity (locationAt locations (indices.getD li 0)).counter cn
  let strong := (List.range indices.length).filter fun li => le opts.tauSplit (sims.getD li (lit 0))
  match maxBy (fun a b => partialCmp (coherence a) (coherence b)) strong with
  | none => (0, true)
  | some best => (best, lt (coherence best) opts.tauCohere)

/-- The conscience winner: `S_eff = S(x, a_j) - γ · n_j / Σ n_i`. -/
def conscienceWinner (config : EAMConfig F) (locations : List (HardLocation F)) (indices : List ℕ)
    (sims : List F) : ℕ :=
  let totalWrites := sum (indices.map fun i => (locationAt locations i).writeCount)
  if lt (lit (1 / 10 ^ 12)) totalWrites then
    let scored := indices.zipIdx.map fun p =>
      (p.2, sims.getD p.2 (lit 0) - config.gamma * (locationAt locations p.1).writeCount / totalWrites)
    match maxBy (fun a b => partialCmp a.2 b.2) scored with
    | some best => best.1
    | none => 0
  else 0

/-- Winner among the activated locations, as a position in `indices`, and
whether coherence forces a spawn. -/
def selectWinner (counter : List F) (config : EAMConfig F) (locations : List (HardLocation F))
    (indices : List ℕ) (sims : List F) (opts : WriteOpts F) : ℕ × Bool :=
  if opts.gate then gatedWinner counter locations indices sims opts
  else (conscienceWinner config locations indices sims, false)

/-- Join or spawn, decided before anything is updated. -/
def spawnNovelty (config : EAMConfig F) (numLocations : ℕ) (maxSim : F) (forceSpawn : Bool)
    (opts : WriteOpts F) : Bool :=
  if opts.gate then forceSpawn
  else if config.mdlGate then lt (engramBits numLocations config.d) (surpriseBits maxSim)
  else lt maxSim config.tauSplit

/-- Adds `w` of the counter to a location and moves its address toward the
write's by the learning rate `lr` gives for the new write count. -/
def joinLocation (address counter : List F) (w : F) (lr : F → F) (loc : HardLocation F) :
    HardLocation F :=
  let writeCount := loc.writeCount + w
  let diff := List.zipWith (fun x a => x - a) address loc.address
  { loc with
    counter := addScaled loc.counter counter w
    writeCount := writeCount
    address := normalize (addScaled loc.address diff (lr writeCount)) }

/-- Phase 2: every activated location joins, or under the gate only the
winner, at full weight and the running mean's rate. -/
def joinAll (address counter : List F) (weights : List F) (winner : ℕ) (etaWinner : F)
    (indices : List ℕ) (opts : WriteOpts F) (locations : List (HardLocation F)) :
    List (HardLocation F) :=
  indices.zipIdx.foldl (fun locs p =>
    if opts.gate && p.2 != winner then locs
    else
      let w := if opts.gate then lit 1 else weights.getD p.2 (lit 0)
      let lr := fun writeCount =>
        if opts.gate then lit 1 / writeCount
        else if p.2 = winner then etaWinner else etaWinner * lit (1 / 10)
      locs.modify p.1 (joinLocation address counter w lr)) locations

/-- Links a location to the ids activated with it, the oldest links dropped
over capacity. -/
def linkPeers (activatedIds : List ℕ) (nbCap : ℕ) (loc : HardLocation F) : HardLocation F :=
  let neighbors := activatedIds.foldl (fun ns peer =>
    if peer = loc.id then ns else if peer ∈ ns then ns else ns ++ [peer]) loc.neighbors
  { loc with neighbors := neighbors.drop (neighbors.length - nbCap) }

/-- The neighbor graph learns which locations were activated together. -/
def linkAll (indices : List ℕ) (nbCap : ℕ) (locations : List (HardLocation F)) :
    List (HardLocation F) :=
  if nbCap = 0 then locations
  else
    let activatedIds := indices.map fun i => (locationAt locations i).id
    indices.foldl (fun locs i => locs.modify i (linkPeers activatedIds nbCap)) locations

/-- The location of a novelty spawn. -/
def noveltyChild (id : ℕ) (address counter : List F) (activatedIds : List ℕ) (nbCap : ℕ) :
    HardLocation F :=
  { freshLocation id (normalize address) counter with
    neighbors := if nbCap = 0 then [] else activatedIds.take nbCap }

/-- The child of an overload split: a perturbed copy of the winner's address
with half of its evidence. -/
def splitChild (id nbCap : ℕ) (perturbation : List F) (winner : HardLocation F) : HardLocation F :=
  let neighbors := if winner.id ∈ winner.neighbors then winner.neighbors else winner.neighbors ++ [winner.id]
  { HardLocation.new id (normalize (addScaled winner.address perturbation (lit (1 / 10)))) with
    counter := winner.counter.map (· * lit (1 / 2))
    writeCount := winner.writeCount * lit (1 / 2)
    neighbors := if nbCap = 0 then [] else neighbors.take nbCap }

/-- The winner after an overload split keeps the other half. -/
def splitParent (childId nbCap : ℕ) (winner : HardLocation F) : HardLocation F :=
  { winner with
    counter := winner.counter.map (· * lit (1 / 2))
    writeCount := winner.writeCount * lit (1 / 2)
    surpriseMass := winner.surpriseMass * lit (1 / 2)
    neighbors :=
      if nbCap = 0 ∨ childId ∈ winner.neighbors then winner.neighbors
      else
        let neighbors := winner.neighbors ++ [childId]
        if nbCap < neighbors.length then neighbors.drop 1 else neighbors }

/-- A saturated winner splits: by its write count, or under the MDL gate by
the surprise it accumulated. -/
def overloaded (config : EAMConfig F) (numLocations : ℕ) (winner : HardLocation F) : Bool :=
  if config.mdlGate then lt (engramBits numLocations config.d) winner.surpriseMass
  else lt config.tauOverload winner.writeCount

/-- A write on a memory with activated locations: select, update, regulate. -/
def competitiveWrite (address counter : List F) (locations : List (HardLocation F))
    (config : EAMConfig F) (eta : F) (nextId : ℕ) (rng : Rng F) (opts : WriteOpts F)
    (indices : List ℕ) (sims : List F) : Written F :=
  let k := min config.k locations.length
  let (winnerLocal, forceSpawn) := selectWinner counter config locations indices sims opts
  let winnerGlobal := indices.getD winnerLocal 0
  let spawn := spawnNovelty config locations.length (sims.headD (lit 0)) forceSpawn opts
  let etaWinner := eta / (lit 1 + (locationAt locations winnerGlobal).writeCount / config.tauDamp)
  let joined :=
    if spawn then locations
    else joinAll address counter (activationWeights sims k) winnerLocal etaWinner indices opts locations
  let surprised :=
    if config.mdlGate && !spawn then
      joined.modify winnerGlobal fun loc =>
        { loc with surpriseMass := loc.surpriseMass + surpriseBits (sims.getD winnerLocal (lit 0)) }
    else joined
  let nbCap := config.adaptiveNeighborCap locations.length
  let linked := linkAll indices nbCap surprised
  let etaNew := fmax (eta * config.lambda) config.etaMin
  let activatedIds := indices.map fun i => (locationAt linked i).id
  if spawn then
    { result := ⟨indices, [noveltyChild nextId address counter activatedIds nbCap], etaNew⟩
      locations := linked
      nextId := nextId + 1
      rng := rng }
  else if overloaded config locations.length (locationAt linked winnerGlobal) then
    let (perturbation, rng) := randomUnitVector config.d rng
    { result := ⟨indices, [splitChild nextId nbCap perturbation (locationAt linked winnerGlobal)], etaNew⟩
      locations := linked.modify winnerGlobal (splitParent nextId nbCap)
      nextId := nextId + 1
      rng := rng }
  else
    { result := ⟨indices, [], etaNew⟩
      locations := linked
      nextId := nextId
      rng := rng }

/-- Two-field adaptive write: route by `address`, accumulate `counter`. -/
def adaptiveWriteTwo (address counter : List F) (locations : List (HardLocation F))
    (config : EAMConfig F) (eta : F) (nextId : ℕ) (rng : Rng F) (scan : Scan F S)
    (opts : WriteOpts F) : Written F :=
  if !config.competitive then
    { result := ⟨[], [freshLocation nextId address counter], eta⟩
      locations := locations
      nextId := nextId + 1
      rng := rng }
  else
    let (indices, sims) := nearest address locations (min config.k locations.length) scan
    if indices.isEmpty then
      -- cold start: nothing to join, the input seeds the first location
      { result := ⟨[], [freshLocation nextId (normalize address) counter], eta⟩
        locations := locations
        nextId := nextId + 1
        rng := rng }
    else competitiveWrite address counter locations config eta nextId rng opts indices sims

/-- The one-field write: address and counter are the input, no gate. -/
def adaptiveWrite (input : List F) (locations : List (HardLocation F)) (config : EAMConfig F) (eta : F)
    (nextId : ℕ) (rng : Rng F) (scan : Scan F S) : Written F :=
  adaptiveWriteTwo input input locations config eta nextId rng scan .default

/-! ### Edits in place -/

/-- The vectors of every location have `d` entries. -/
def Shaped (d : ℕ) (locations : List (HardLocation F)) : Prop :=
  ∀ loc ∈ locations, loc.address.length = d ∧ loc.counter.length = d

/-- Every counter is as long as its address. -/
def SameLengths (locations : List (HardLocation F)) : Prop := ∀ loc ∈ locations, loc.counter.length = loc.address.length

omit [Scalar F] in
theorem Shaped.sameLengths {d : ℕ} {ls : List (HardLocation F)} (h : Shaped d ls) : SameLengths ls :=
  fun loc hloc => (h loc hloc).2.trans (h loc hloc).1.symm

/-- What an edit keeps of a location: its id and the lengths of its vectors. -/
def HardLocation.shape (loc : HardLocation F) : ℕ × ℕ × ℕ :=
  (loc.id, loc.address.length, loc.counter.length)

/-- Only locations at the indices `M` differ, and these keep their shape. -/
structure Edited (M : List ℕ) (ls ls' : List (HardLocation F)) : Prop where
  shape : ls'.map HardLocation.shape = ls.map HardLocation.shape
  frame : ∀ i, i ∉ M → ls'[i]? = ls[i]?

namespace Edited

variable {M : List ℕ} {ls ls' ls'' : List (HardLocation F)}

omit [Scalar F] in
theorem refl (M : List ℕ) (ls : List (HardLocation F)) : Edited M ls ls := ⟨rfl, fun _ _ => rfl⟩

omit [Scalar F] in
theorem trans (h : Edited M ls ls') (h' : Edited M ls' ls'') : Edited M ls ls'' :=
  ⟨h'.shape.trans h.shape, fun i hi => (h'.frame i hi).trans (h.frame i hi)⟩

omit [Scalar F] in
theorem modify {i : ℕ} (hi : i ∈ M) (ls : List (HardLocation F)) {f : HardLocation F → HardLocation F}
    (hf : ∀ loc, (f loc).shape = loc.shape) : Edited M ls (ls.modify i f) where
  shape := by
    apply List.ext_getElem?
    intro j
    simp only [List.getElem?_map, List.getElem?_modify]
    split_ifs <;> cases ls[j]? <;> simp [hf]
  frame j hj := by
    have : i ≠ j := fun h => hj (h ▸ hi)
    simp [this]

omit [Scalar F] in
/-- A loop of edits is an edit. -/
theorem foldl {α : Type} {f : List (HardLocation F) → α → List (HardLocation F)} {l : List α}
    (hf : ∀ a ∈ l, ∀ ls, Edited M ls (f ls a)) (ls : List (HardLocation F)) :
    Edited M ls (l.foldl f ls) := by
  induction l generalizing ls with
  | nil => exact refl M ls
  | cons a l ih =>
    exact (hf a (by simp) ls).trans (ih (fun b hb => hf b (by simp [hb])) _)

omit [Scalar F] in
theorem length (h : Edited M ls ls') : ls'.length = ls.length := by
  simpa using congrArg List.length h.shape

omit [Scalar F] in
theorem ids (h : Edited M ls ls') : ls'.map (·.id) = ls.map (·.id) := by
  simpa [List.map_map, Function.comp_def, HardLocation.shape] using congrArg (List.map Prod.fst) h.shape

omit [Scalar F] in
/-- Edits keep the dimension. -/
theorem shaped (h : Edited M ls ls') {d : ℕ} (hd : Shaped d ls) : Shaped d ls' := fun loc hloc => by
  have hmem : loc.shape ∈ ls.map HardLocation.shape := h.shape ▸ List.mem_map_of_mem hloc
  obtain ⟨loc', hloc', he⟩ := List.mem_map.mp hmem
  have hd' := hd loc' hloc'
  simp only [HardLocation.shape, Prod.mk.injEq] at he
  exact ⟨he.2.1 ▸ hd'.1, he.2.2 ▸ hd'.2⟩

end Edited

theorem joinLocation_shape (address counter : List F) (w : F) (lr : F → F) (loc : HardLocation F) :
    (joinLocation address counter w lr loc).shape = loc.shape := by
  simp [joinLocation, HardLocation.shape]

theorem joinAll_edited (address counter weights : List F) (winner : ℕ) (etaWinner : F)
    (indices : List ℕ) (opts : WriteOpts F) (locations : List (HardLocation F)) :
    Edited indices locations
      (joinAll address counter weights winner etaWinner indices opts locations) := by
  refine Edited.foldl (fun p hp ls => ?_) locations
  by_cases hw : (opts.gate && p.2 != winner) = true
  · rw [if_pos hw]
    exact Edited.refl _ _
  · rw [if_neg hw]
    exact Edited.modify (List.fst_mem_of_mem_zipIdx hp) ls (joinLocation_shape _ _ _ _)

theorem linkAll_edited (indices : List ℕ) (nbCap : ℕ) (locations : List (HardLocation F)) :
    Edited indices locations (linkAll indices nbCap locations) := by
  unfold linkAll
  split_ifs
  · exact Edited.refl _ _
  · exact Edited.foldl (f := fun locs i => locs.modify i (linkPeers _ nbCap))
      (fun i hi ls => Edited.modify hi ls fun _ => rfl) locations

/-! ### The frame of a write -/

/-- What a write may do to the locations and the id counter it was given:
edit the locations it reports as modified and add at most one, under the next
id. -/
structure WriteFrame (locations : List (HardLocation F)) (nextId d : ℕ) (w : Written F) : Prop where
  edited : Edited w.result.modifiedIndices locations w.locations
  valid : ∀ i ∈ w.result.modifiedIndices, i < locations.length
  created : (w.result.newLocations = [] ∧ w.nextId = nextId) ∨
    ∃ loc, w.result.newLocations = [loc] ∧ loc.id = nextId ∧ w.nextId = nextId + 1 ∧
      loc.address.length = d ∧ loc.counter.length = d
  touched : w.result.modifiedIndices ≠ [] ∨ w.result.newLocations ≠ []

/-- The winner is one of the activated locations. -/
theorem selectWinner_lt {counter : List F} {config : EAMConfig F} {locations : List (HardLocation F)}
    {indices : List ℕ} {sims : List F} {opts : WriteOpts F} (hne : indices ≠ []) :
    (selectWinner counter config locations indices sims opts).1 < indices.length := by
  have h0 : 0 < indices.length := List.length_pos_iff.mpr hne
  unfold selectWinner
  split_ifs
  · dsimp only [gatedWinner]
    split
    · exact h0
    · rename_i best hbest
      exact List.mem_range.mp (List.mem_filter.mp (maxBy_mem hbest)).1
  · dsimp only [conscienceWinner]
    split_ifs
    · split
      · rename_i best hbest
        obtain ⟨⟨i, j⟩, hp, rfl⟩ := List.mem_map.mp (maxBy_mem hbest)
        exact (List.mem_zipIdx' hp).1
      · exact h0
    · exact h0

/-- **What a competitive write may do.** -/
theorem competitiveWrite_frame (address counter : List F) (locations : List (HardLocation F))
    (config : EAMConfig F) (eta : F) (nextId : ℕ) (rng : Rng F) (opts : WriteOpts F) {indices : List ℕ}
    (sims : List F) {d : ℕ} (hne : indices ≠ []) (hlt : ∀ i ∈ indices, i < locations.length)
    (hd : Shaped d locations) (ha : address.length = d) (hc : counter.length = d) :
    WriteFrame locations nextId d
      (competitiveWrite address counter locations config eta nextId rng opts indices sims) := by
  set sel := selectWinner counter config locations indices sims opts with hsel
  have hw : sel.1 < indices.length := selectWinner_lt hne
  have hmem : indices.getD sel.1 0 ∈ indices := by
    rw [List.getD_eq_getElem indices 0 hw]
    exact List.getElem_mem hw
  unfold competitiveWrite
  simp only [← hsel]
  generalize spawnNovelty config locations.length (sims.headD (lit 0)) sel.2 opts = spawn
  generalize eta / (lit 1 + (locationAt locations (indices.getD sel.1 0)).writeCount / config.tauDamp) = etaW
  -- the three edits of an existing location: join, surprise, links
  have hjoin : Edited indices locations (if spawn then locations else
      joinAll address counter (activationWeights sims (min config.k locations.length)) sel.1 etaW
        indices opts locations) := by
    split_ifs
    · exact Edited.refl _ _
    · exact joinAll_edited _ _ _ _ _ _ _ _
  generalize (if spawn then locations else _) = joined at hjoin ⊢
  have hsur : Edited indices locations (if config.mdlGate && !spawn then
      joined.modify (indices.getD sel.1 0) fun loc =>
        { loc with surpriseMass := loc.surpriseMass + surpriseBits (sims.getD sel.1 (lit 0)) }
      else joined) := by
    split_ifs
    · exact hjoin.trans (Edited.modify hmem _ fun _ => rfl)
    · exact hjoin
  generalize (if config.mdlGate && !spawn then _ else joined) = surprised at hsur ⊢
  have hlink := hsur.trans (linkAll_edited indices (config.adaptiveNeighborCap locations.length) surprised)
  generalize linkAll indices (config.adaptiveNeighborCap locations.length) surprised = linked at hlink ⊢
  split_ifs with h1 h2
  · exact ⟨hlink, hlt, Or.inr ⟨_, rfl, rfl, rfl, by simp [noveltyChild, freshLocation, ha],
      by simp [noveltyChild, freshLocation, hc]⟩, Or.inl hne⟩
  · have hi : indices.getD sel.1 0 < linked.length := by
      rw [hlink.length]
      exact hlt _ hmem
    have hwin : locationAt linked (indices.getD sel.1 0) ∈ linked := by
      rw [locationAt, List.getD_eq_getElem linked _ hi]
      exact List.getElem_mem hi
    have hshape := hlink.shaped hd _ hwin
    refine ⟨hlink.trans (Edited.modify hmem _ fun loc => ?_), hlt,
      Or.inr ⟨_, rfl, rfl, rfl, ?_, ?_⟩, Or.inl hne⟩
    · simp [splitParent, HardLocation.shape]
    · simpa [splitChild] using hshape.1
    · simpa [splitChild] using hshape.2
  · exact ⟨hlink, hlt, Or.inl ⟨rfl, rfl⟩, Or.inl hne⟩

/-- **What a write may do**, whatever its input, the scan and the generator. -/
theorem adaptiveWriteTwo_frame (address counter : List F) (locations : List (HardLocation F))
    (config : EAMConfig F) (eta : F) (nextId : ℕ) (rng : Rng F) (scan : Scan F S) (opts : WriteOpts F)
    {d : ℕ} (hd : Shaped d locations) (ha : address.length = d) (hc : counter.length = d) :
    WriteFrame locations nextId d
      (adaptiveWriteTwo address counter locations config eta nextId rng scan opts) := by
  unfold adaptiveWriteTwo
  by_cases hcomp : config.competitive = true
  · simp only [hcomp, Bool.not_true, Bool.false_eq_true, ↓reduceIte]
    rcases hnear : nearest address locations (min config.k locations.length) scan with ⟨indices, sims⟩
    simp only
    by_cases he : indices = []
    · subst he
      simp only [List.isEmpty_nil, ↓reduceIte]
      exact ⟨Edited.refl _ _, by simp, Or.inr ⟨_, rfl, rfl, rfl, by simp [freshLocation, ha], hc⟩,
        Or.inr (by simp)⟩
    · have he' : indices.isEmpty = false := by simpa using he
      simp only [he', Bool.false_eq_true, ↓reduceIte]
      refine competitiveWrite_frame _ _ _ _ _ _ _ _ _ he (fun i hi => ?_) hd ha hc
      have : i ∈ (nearest address locations (min config.k locations.length) scan).1 := by rw [hnear]; exact hi
      exact mem_nearest_lt this
  · simp only [hcomp, Bool.not_false, ↓reduceIte]
    exact ⟨Edited.refl _ _, by simp, Or.inr ⟨_, rfl, rfl, rfl, ha, hc⟩, Or.inr (by simp)⟩

/-- **A plain write appends its input verbatim.** -/
theorem adaptiveWriteTwo_plain (address counter : List F) (locations : List (HardLocation F))
    {config : EAMConfig F} (hc : config.competitive = false) (eta : F) (nextId : ℕ) (rng : Rng F)
    (scan : Scan F S) (opts : WriteOpts F) :
    adaptiveWriteTwo address counter locations config eta nextId rng scan opts =
      { result := ⟨[], [freshLocation nextId address counter], eta⟩
        locations := locations
        nextId := nextId + 1
        rng := rng } := by
  simp [adaptiveWriteTwo, hc]

end HeatherDb
