/-
# Activation and the lookup arrays

`read.rs`, as far as writes and the collection's caches use it: the k nearest
locations by a bounded heap (`activate`), the landmarks of the neighbor graph
and the array from location ids to indices.

The heap is the library's binary heap (`push`, `pop`) under the reversed order of
`MinEntry`: its top is a least similar entry, and which of several it is follows
from the steps of the heap.

Key definitions: `minEntryLe`, `offer`, `topK`, `activate`, `selectLandmarks`, `buildIdLookup`.
Key definition: `Looks`.
Key theorems: `mem_activate_lt`, `looks_buildIdLookup`.
-/
import HeatherDb.Config
import HeatherDb.Lib.BinaryHeap

namespace HeatherDb

open Scalar BinaryHeap

variable {F : Type} [Scalar F]

/-- `a <= b` of two `MinEntry`s, of which the less similar is the greater. -/
def minEntryLe (a b : ℕ × F) : Bool := partialCmp b.2 a.2 ≠ .gt

/-- Offers an entry to a heap that keeps the `k` most similar. -/
def offer (k : ℕ) (heap : List (ℕ × F)) (e : ℕ × F) : List (ℕ × F) :=
  if heap.length < k then push minEntryLe heap e
  else
    match heap.head? with
    | some m => if lt m.2 e.2 then push minEntryLe (pop minEntryLe heap) e else heap
    | none => heap

/-- The `k` most similar entries, by a heap, sorted descending. -/
def topK (k : ℕ) (entries : List (ℕ × F)) : List (ℕ × F) :=
  sortBy (fun a b => partialCmp b.2 a.2) (entries.foldl (offer k) [])

/-- The k nearest locations by cosine similarity, indices and similarities. -/
def activate (query : List F) (locations : List (HardLocation F)) (k : ℕ) : List ℕ × List F :=
  let q := normalize query
  (topK k (locations.zipIdx.map fun p => (p.2, dot q p.1.address))).unzip

/-- The most written locations, all of them when there are few. -/
def selectLandmarks (locations : List (HardLocation F)) (numLandmarks : ℕ) : List ℕ :=
  if locations.length ≤ numLandmarks then List.range locations.length
  else
    ((sortBy (fun a b => partialCmp b.2 a.2)
      (locations.zipIdx.map fun p => (p.2, p.1.writeCount))).take numLandmarks).map (·.1)

/-- Location ids to indices; `none` is the source's `u32::MAX`. Of ids that have a
place in an array (`RawStore.buildIdLookup` says which have not). -/
def buildIdLookup (locations : List (HardLocation F)) : List (Option ℕ) :=
  locations.zipIdx.foldl (fun lookup p => lookup.set p.1.id (some p.2))
    (List.replicate ((locations.map (·.id)).foldl max 0 + 1) none)

/-- An offer without room: the top gives way to a more similar entry. -/
theorem offer_full {k : ℕ} {m : ℕ × F} {rest : List (ℕ × F)} (hfull : k ≤ (m :: rest).length) (e : ℕ × F) :
    offer k (m :: rest) e =
      if lt m.2 e.2 then push minEntryLe (pop minEntryLe (m :: rest)) e else m :: rest := by
  rw [offer, if_neg (Nat.not_lt.mpr hfull), List.head?_cons]

/-- What is in the heap after an offer: all, all but the top, or what was in it. -/
theorem offer_perm (k : ℕ) (heap : List (ℕ × F)) (e : ℕ × F) :
    (offer k heap e).Perm (heap ++ [e]) ∨ (offer k heap e).Perm (heap.tail ++ [e]) ∨ offer k heap e = heap := by
  cases heap with
  | nil =>
    unfold offer
    split_ifs
    · exact Or.inl (push_perm _ _ _)
    · exact Or.inr (Or.inr rfl)
  | cons m rest =>
    by_cases hroom : (m :: rest).length < k
    · rw [offer, if_pos hroom]
      exact Or.inl (push_perm _ _ _)
    · rw [offer_full (Nat.not_lt.mp hroom)]
      split_ifs
      · exact Or.inr (Or.inl ((push_perm _ _ _).trans ((pop_perm _ _ _).append_right [e])))
      · exact Or.inr (Or.inr rfl)

theorem mem_offer {k : ℕ} {heap : List (ℕ × F)} {e x : ℕ × F} (h : x ∈ offer k heap e) :
    x ∈ heap ∨ x = e := by
  rcases offer_perm k heap e with hperm | hperm | hsame
  · simpa using hperm.subset h
  · rcases List.mem_append.mp (hperm.subset h) with hx | hx
    · exact Or.inl (List.mem_of_mem_tail hx)
    · exact Or.inr (List.mem_singleton.mp hx)
  · exact Or.inl (hsame ▸ h)

theorem mem_topK {k : ℕ} {entries : List (ℕ × F)} {x : ℕ × F} (h : x ∈ topK k entries) :
    x ∈ entries := by
  rw [topK, mem_sortBy] at h
  have key : ∀ (es heap : List (ℕ × F)), x ∈ es.foldl (offer k) heap → x ∈ heap ∨ x ∈ es := by
    intro es
    induction es with
    | nil => exact fun heap h => Or.inl h
    | cons e es ih =>
      intro heap h
      rcases ih _ h with h | h
      · rcases mem_offer h with h | rfl
        · exact Or.inl h
        · exact Or.inr (by simp)
      · exact Or.inr (List.mem_cons_of_mem _ h)
  simpa using key entries [] h

/-- An activated index is the index of a location. -/
theorem mem_activate_lt {query : List F} {locations : List (HardLocation F)} {k i : ℕ}
    (h : i ∈ (activate query locations k).1) : i < locations.length := by
  simp only [activate, List.unzip_fst, List.mem_map] at h
  obtain ⟨x, hx, rfl⟩ := h
  obtain ⟨⟨loc, j⟩, hp, rfl⟩ := List.mem_map.mp (mem_topK hx)
  exact (List.mem_zipIdx' hp).1

theorem le_foldl_max {l : List ℕ} {n x : ℕ} (h : x ∈ l ∨ x ≤ n) : x ≤ l.foldl max n := by
  induction l generalizing n with
  | nil => simpa using h
  | cons y l ih =>
    rw [List.foldl_cons]
    apply ih
    rcases h with h | h
    · rcases List.mem_cons.mp h with rfl | h
      · exact Or.inr (le_max_right _ _)
      · exact Or.inl h
    · exact Or.inr (h.trans (le_max_left _ _))

/-- A lookup from ids to places: it names only places of the id, and one for
every id there is. -/
structure Looks (locations : List (HardLocation F)) (lookup : List (Option ℕ)) : Prop where
  sound : ∀ id i : ℕ, lookup[id]? = some (some i) → (locations.map (·.id))[i]? = some id
  complete : ∀ id ∈ locations.map (·.id), ∃ i : ℕ, lookup[id]? = some (some i)

namespace Looks

omit [Scalar F]

variable {locations : List (HardLocation F)} {lookup : List (Option ℕ)}

/-- A longer lookup with nothing new in it. -/
theorem grow (h : Looks locations lookup) (n : ℕ) : Looks locations (lookup ++ List.replicate n none) where
  sound id i hget := by
    rcases Nat.lt_or_ge id lookup.length with hlt | hge
    · rw [List.getElem?_append_left hlt] at hget
      exact h.sound id i hget
    · rw [List.getElem?_append_right hge, List.getElem?_replicate] at hget
      split_ifs at hget
      simp at hget
  complete id hid := by
    obtain ⟨i, hi⟩ := h.complete id hid
    exact ⟨i, by rw [List.getElem?_append_left (List.getElem?_eq_some_iff.mp hi).1, hi]⟩

/-- One more location, entered under its id. -/
theorem snoc (h : Looks locations lookup) {loc : HardLocation F} (hlt : loc.id < lookup.length) :
    Looks (locations ++ [loc]) (lookup.set loc.id (some locations.length)) where
  sound id i hget := by
    by_cases hid : loc.id = id
    · subst hid
      rw [List.getElem?_set_self hlt] at hget
      obtain rfl : locations.length = i := by simpa using hget
      simp
    · rw [List.getElem?_set_ne hid] at hget
      have hold := h.sound id i hget
      rw [List.map_append, List.getElem?_append_left (List.getElem?_eq_some_iff.mp hold).1, hold]
  complete id hid := by
    by_cases hloc : loc.id = id
    · subst hloc
      exact ⟨_, List.getElem?_set_self hlt⟩
    · rw [List.map_append, List.mem_append] at hid
      obtain ⟨i, hi⟩ := h.complete id (hid.resolve_right (by simpa using Ne.symm hloc))
      exact ⟨i, by rw [List.getElem?_set_ne hloc, hi]⟩

/-- A pass that enters locations one after another, keeping what its entries
need. -/
theorem foldl {f : List (Option ℕ) → HardLocation F × ℕ → List (Option ℕ)} {P : List (Option ℕ) → Prop} :
    ∀ (news : List (HardLocation F)) {locations : List (HardLocation F)} {lookup : List (Option ℕ)},
      (∀ loc ∈ news, ∀ locations lookup, Looks locations lookup → P lookup →
        Looks (locations ++ [loc]) (f lookup (loc, locations.length)) ∧ P (f lookup (loc, locations.length))) →
      Looks locations lookup → P lookup →
      Looks (locations ++ news) ((news.zipIdx locations.length).foldl f lookup)
  | [], _, _, _, h, _ => by simpa using h
  | loc :: news, locations, lookup, hstep, h, hp => by
    obtain ⟨h', hp'⟩ := hstep loc List.mem_cons_self locations lookup h hp
    have ih := foldl news (fun l hl => hstep l (List.mem_cons_of_mem _ hl)) h' hp'
    rw [List.length_append, List.length_singleton, List.append_assoc] at ih
    exact ih

end Looks

omit [Scalar F] in
/-- **Every id is looked up.** -/
theorem looks_buildIdLookup (locations : List (HardLocation F)) : Looks locations (buildIdLookup locations) := by
  have hempty : Looks ([] : List (HardLocation F))
      (List.replicate ((locations.map (·.id)).foldl max 0 + 1) none) := by
    have hnil : Looks ([] : List (HardLocation F)) [] := ⟨by simp, by simp⟩
    simpa using hnil.grow _
  have hpass := Looks.foldl (f := fun lookup p => lookup.set p.1.id (some p.2))
    (P := fun lookup => lookup.length = (locations.map (·.id)).foldl max 0 + 1) locations
    (fun loc hloc ls lookup h hlen => ⟨h.snoc ?_, by simpa using hlen⟩) hempty (by simp)
  · exact hpass
  · rw [hlen]
    exact Nat.lt_succ_of_le (le_foldl_max (Or.inl (List.mem_map_of_mem hloc)))

end HeatherDb
