/-
# Ordered tables

A table of an ordered key-value store: entries in strictly increasing key
order, at most one to a key, which is what a B-tree's cursor walks. The order
is a field of the table, so a table out of order cannot be built, and two
tables that answer every lookup alike are equal (`OrderedTable.ext_get`).

Keys made of a namespace and a name inside it (`Scoped`) are ordered by the
namespace first, so a prefix scan is again an ordered table
(`OrderedTable.under`) and clearing one namespace does not move another
(`get_clear`).

Key definitions: `OrderedTable`, `OrderedTable.put`, `OrderedTable.delete`,
`OrderedTable.under`.
Key theorems: `get_put`, `get_delete`, `ext_get`, `get_under`, `get_putAll`,
`get_clear`.
-/
import Mathlib.Order.Lex
import Mathlib.Data.Prod.Lex
import Mathlib.Data.List.Sort

/-- Entries in strictly increasing key order. -/
structure OrderedTable (κ α : Type) [LinearOrder κ] where
  entries : List (κ × α)
  sorted : entries.Pairwise fun x y => x.1 < y.1

namespace OrderedTable

variable {κ α β : Type} [LinearOrder κ]

/-- The table without entries. -/
def empty : OrderedTable κ α := ⟨[], List.Pairwise.nil⟩

/-- The value under a key. -/
def get (t : OrderedTable κ α) (k : κ) : Option α :=
  (t.entries.find? fun e => e.1 = k).map (·.2)

/-- The keys in order. -/
def keys (t : OrderedTable κ α) : List κ := t.entries.map (·.1)

/-- `(k, v)` at its place among sorted entries, instead of an entry with the
same key. -/
def insertEntry (k : κ) (v : α) : List (κ × α) → List (κ × α)
  | [] => [(k, v)]
  | e :: es =>
    if k < e.1 then (k, v) :: e :: es
    else if e.1 < k then e :: insertEntry k v es
    else (k, v) :: es

theorem mem_insertEntry {k : κ} {v : α} {x : κ × α} : ∀ {es : List (κ × α)},
    x ∈ insertEntry k v es → x = (k, v) ∨ x ∈ es
  | [], h => by simpa [insertEntry] using h
  | e :: es, h => by
    unfold insertEntry at h
    split_ifs at h
    · simpa using h
    · rcases List.mem_cons.mp h with rfl | h
      · simp
      · rcases mem_insertEntry h with rfl | h <;> simp [*]
    · rcases List.mem_cons.mp h with rfl | h <;> simp [*]

theorem insertEntry_sorted (k : κ) (v : α) : ∀ {es : List (κ × α)},
    es.Pairwise (fun x y => x.1 < y.1) → (insertEntry k v es).Pairwise fun x y => x.1 < y.1
  | [], _ => by simp [insertEntry]
  | e :: es, h => by
    obtain ⟨he, hes⟩ := List.pairwise_cons.mp h
    unfold insertEntry
    split_ifs with h1 h2
    · refine List.pairwise_cons.mpr ⟨fun x hx => ?_, h⟩
      rcases List.mem_cons.mp hx with rfl | hx
      · exact h1
      · exact h1.trans (he x hx)
    · refine List.pairwise_cons.mpr ⟨fun x hx => ?_, insertEntry_sorted k v hes⟩
      rcases mem_insertEntry hx with rfl | hx
      · exact h2
      · exact he x hx
    · have hk : k = e.1 := le_antisymm (not_lt.mp h2) (not_lt.mp h1)
      exact List.pairwise_cons.mpr ⟨fun x hx => hk ▸ he x hx, hes⟩

/-- Stores `v` under `k`, over what was there. -/
def put (t : OrderedTable κ α) (k : κ) (v : α) : OrderedTable κ α :=
  ⟨insertEntry k v t.entries, insertEntry_sorted k v t.sorted⟩

/-- Removes the entry under `k`, if there is one. -/
def delete (t : OrderedTable κ α) (k : κ) : OrderedTable κ α :=
  ⟨t.entries.filter fun e => e.1 ≠ k, t.sorted.filter _⟩

/-- Every entry is the one its key finds. -/
theorem get_eq_some_iff {t : OrderedTable κ α} {k : κ} {v : α} :
    t.get k = some v ↔ (k, v) ∈ t.entries := by
  obtain ⟨es, hs⟩ := t
  simp only [get]
  induction es with
  | nil => simp
  | cons e es ih =>
    obtain ⟨he, hes⟩ := List.pairwise_cons.mp hs
    by_cases hk : e.1 = k
    · have hout : (k, v) ∉ es := fun hm => absurd (he _ hm) (by simp [hk])
      simp only [List.find?_cons, hk, decide_true, Option.map_some, List.mem_cons, hout, or_false]
      constructor
      · rintro ⟨rfl⟩
        exact Prod.ext hk.symm rfl
      · intro h
        rw [← h]
    · have hne : (k, v) ≠ e := fun h => hk (by rw [← h])
      simp only [List.find?_cons, hk, decide_false, List.mem_cons, hne, false_or]
      exact ih hes

theorem get_eq_none_iff {t : OrderedTable κ α} {k : κ} : t.get k = none ↔ k ∉ t.keys := by
  rw [Option.eq_none_iff_forall_ne_some]
  simp only [ne_eq, get_eq_some_iff, keys, List.mem_map, Prod.exists, exists_and_right,
    exists_eq_right, not_exists]

theorem mem_keys_iff {t : OrderedTable κ α} {k : κ} : k ∈ t.keys ↔ (t.get k).isSome := by
  rw [← not_iff_not, ← get_eq_none_iff, Option.not_isSome_iff_eq_none]

theorem keys_sorted (t : OrderedTable κ α) : t.keys.Pairwise (· < ·) :=
  List.pairwise_map.mpr t.sorted

theorem keys_nodup (t : OrderedTable κ α) : t.keys.Nodup :=
  t.keys_sorted.imp ne_of_lt

theorem entries_nodup (t : OrderedTable κ α) : t.entries.Nodup :=
  t.sorted.imp fun hlt heq => absurd hlt (by simp [heq])

/-- **Two tables that answer every lookup alike are equal.** -/
theorem ext_get {t u : OrderedTable κ α} (h : ∀ k, t.get k = u.get k) : t = u := by
  have hmem : ∀ x, x ∈ t.entries ↔ x ∈ u.entries := fun ⟨k, v⟩ => by
    rw [← get_eq_some_iff, ← get_eq_some_iff, h]
  have hperm : t.entries.Perm u.entries :=
    (List.perm_ext_iff_of_nodup t.entries_nodup u.entries_nodup).mpr hmem
  have heq : t.entries = u.entries := by
    refine List.Perm.eq_of_pairwise (fun x y hx _ h1 h2 => ?_) t.sorted u.sorted hperm
    exact absurd h1 (lt_asymm h2)
  cases t; cases u
  simpa using heq

@[simp] theorem get_empty (k : κ) : (empty : OrderedTable κ α).get k = none := rfl

theorem mem_insertEntry_iff {k : κ} {v : α} {es : List (κ × α)}
    (hs : es.Pairwise fun x y => x.1 < y.1) (x : κ × α) :
    x ∈ insertEntry k v es ↔ x = (k, v) ∨ (x ∈ es ∧ x.1 ≠ k) := by
  induction es with
  | nil => simp [insertEntry]
  | cons e es ih =>
    obtain ⟨he, hes⟩ := List.pairwise_cons.mp hs
    unfold insertEntry
    split_ifs with h1 h2
    · have : ∀ y ∈ e :: es, y.1 ≠ k := by
        intro y hy
        rcases List.mem_cons.mp hy with rfl | hy
        · exact h1.ne'
        · exact (h1.trans (he y hy)).ne'
      constructor
      · intro hx
        rcases List.mem_cons.mp hx with rfl | hx
        · exact Or.inl rfl
        · exact Or.inr ⟨hx, this x hx⟩
      · rintro (rfl | ⟨hx, -⟩)
        · exact List.mem_cons_self
        · exact List.mem_cons_of_mem _ hx
    · have hek : e.1 ≠ k := h2.ne
      simp only [List.mem_cons, ih hes]
      constructor
      · rintro (rfl | rfl | ⟨hx, hk⟩)
        · exact Or.inr ⟨Or.inl rfl, hek⟩
        · exact Or.inl rfl
        · exact Or.inr ⟨Or.inr hx, hk⟩
      · rintro (rfl | ⟨rfl | hx, hk⟩)
        · exact Or.inr (Or.inl rfl)
        · exact Or.inl rfl
        · exact Or.inr (Or.inr ⟨hx, hk⟩)
    · have hk : k = e.1 := le_antisymm (not_lt.mp h2) (not_lt.mp h1)
      simp only [List.mem_cons]
      constructor
      · rintro (rfl | hx)
        · exact Or.inl rfl
        · exact Or.inr ⟨Or.inr hx, hk ▸ (he x hx).ne'⟩
      · rintro (rfl | ⟨rfl | hx, hxk⟩)
        · exact Or.inl rfl
        · exact absurd hk.symm hxk
        · exact Or.inr hx

theorem get_put (t : OrderedTable κ α) (k : κ) (v : α) (j : κ) :
    (t.put k v).get j = if j = k then some v else t.get j := by
  apply Option.ext
  intro w
  rw [get_eq_some_iff]
  show (j, w) ∈ insertEntry k v t.entries ↔ _
  rw [mem_insertEntry_iff t.sorted]
  split_ifs with h
  · subst h
    simp [eq_comm]
  · simp [h, get_eq_some_iff]

theorem get_delete (t : OrderedTable κ α) (k j : κ) :
    (t.delete k).get j = if j = k then none else t.get j := by
  apply Option.ext
  intro w
  rw [get_eq_some_iff]
  show (j, w) ∈ t.entries.filter (fun e => e.1 ≠ k) ↔ _
  rw [List.mem_filter]
  split_ifs with h
  · simp [h]
  · simp [h, get_eq_some_iff]

@[simp] theorem get_put_self (t : OrderedTable κ α) (k : κ) (v : α) : (t.put k v).get k = some v := by
  simp [get_put]

theorem get_put_of_ne (t : OrderedTable κ α) {k j : κ} (v : α) (h : j ≠ k) :
    (t.put k v).get j = t.get j := by
  simp [get_put, h]

@[simp] theorem get_delete_self (t : OrderedTable κ α) (k : κ) : (t.delete k).get k = none := by
  simp [get_delete]

theorem get_delete_of_ne (t : OrderedTable κ α) {k j : κ} (h : j ≠ k) :
    (t.delete k).get j = t.get j := by
  simp [get_delete, h]

/-- The values, in the order of their keys. -/
def values (t : OrderedTable κ α) : List α := t.entries.map (·.2)

/-- A put adds its entry to what is under the other keys. -/
theorem entries_put_perm (t : OrderedTable κ α) (k : κ) (v : α) :
    (t.put k v).entries.Perm ((k, v) :: (t.delete k).entries) := by
  have hnew : (k, v) ∉ (t.delete k).entries := by simp [delete]
  refine (List.perm_ext_iff_of_nodup (entries_nodup _)
    (List.nodup_cons.mpr ⟨hnew, entries_nodup _⟩)).mpr fun e => ?_
  show e ∈ insertEntry k v t.entries ↔ _
  rw [mem_insertEntry_iff t.sorted, List.mem_cons, delete, List.mem_filter, decide_eq_true_eq]

/-- Storing again what is there changes nothing. -/
theorem put_get {t : OrderedTable κ α} {k : κ} {v : α} (h : t.get k = some v) : t.put k v = t :=
  ext_get fun j => by
    rw [get_put]
    split_ifs with hj
    · rw [hj, h]
    · rfl

/-- Deleting what is not there changes nothing. -/
theorem delete_of_get_none {t : OrderedTable κ α} {k : κ} (h : t.get k = none) : t.delete k = t :=
  ext_get fun j => by
    rw [get_delete]
    split_ifs with hj
    · rw [hj, h]
    · rfl

theorem values_put_perm (t : OrderedTable κ α) (k : κ) (v : α) :
    (t.put k v).values.Perm (v :: (t.delete k).values) :=
  (entries_put_perm t k v).map Prod.snd

/-- A value that is there, and those under the other keys. -/
theorem values_perm_of_get {t : OrderedTable κ α} {k : κ} {v : α} (h : t.get k = some v) :
    t.values.Perm (v :: (t.delete k).values) := by
  have hput := values_put_perm t k v
  rwa [put_get h] at hput

/-- The entries whose value passes. -/
def filter (t : OrderedTable κ α) (p : α → Bool) : OrderedTable κ α :=
  ⟨t.entries.filter fun e => p e.2, t.sorted.filter _⟩

theorem get_filter (t : OrderedTable κ α) (p : α → Bool) {k : κ} {v : α} :
    (t.filter p).get k = some v ↔ t.get k = some v ∧ p v = true := by
  simp only [get_eq_some_iff, filter, List.mem_filter]

/-! ### Runs of puts and deletes -/

/-- The puts of a list, one after another. -/
def putAll (kvs : List (κ × α)) (t : OrderedTable κ α) : OrderedTable κ α :=
  kvs.foldl (fun t kv => t.put kv.1 kv.2) t

/-- The deletes of a list, one after another. -/
def deleteAll (ks : List κ) (t : OrderedTable κ α) : OrderedTable κ α :=
  ks.foldl delete t

@[simp] theorem putAll_nil (t : OrderedTable κ α) : putAll [] t = t := rfl

@[simp] theorem putAll_cons (kv : κ × α) (kvs : List (κ × α)) (t : OrderedTable κ α) :
    putAll (kv :: kvs) t = putAll kvs (t.put kv.1 kv.2) := rfl

theorem putAll_append (kvs kvs' : List (κ × α)) (t : OrderedTable κ α) :
    putAll (kvs ++ kvs') t = putAll kvs' (putAll kvs t) :=
  List.foldl_append

theorem get_putAll_of_notMem {j : κ} : ∀ {kvs : List (κ × α)} (t : OrderedTable κ α),
    j ∉ kvs.map (·.1) → (putAll kvs t).get j = t.get j
  | [], _, _ => rfl
  | kv :: kvs, t, h => by
    simp only [List.map_cons, List.mem_cons, not_or] at h
    rw [putAll_cons, get_putAll_of_notMem _ h.2, get_put_of_ne _ _ h.1]

/-- A key some put of the list names holds the value of one of them. -/
theorem exists_get_putAll {j : κ} : ∀ {kvs : List (κ × α)} (t : OrderedTable κ α),
    j ∈ kvs.map (·.1) → ∃ v, (j, v) ∈ kvs ∧ (putAll kvs t).get j = some v
  | [], _, h => by simp at h
  | kv :: kvs, t, h => by
    by_cases hj : j ∈ kvs.map (·.1)
    · obtain ⟨v, hv, hg⟩ := exists_get_putAll (t.put kv.1 kv.2) hj
      exact ⟨v, List.mem_cons_of_mem _ hv, hg⟩
    · have hk : j = kv.1 := by simpa [hj] using h
      subst hk
      exact ⟨kv.2, List.mem_cons_self, by rw [putAll_cons, get_putAll_of_notMem _ hj, get_put_self]⟩

/-- A put the list never contradicts decides its key. -/
theorem get_putAll {kvs : List (κ × α)} {j : κ} {v : α} (t : OrderedTable κ α) (hmem : (j, v) ∈ kvs)
    (hone : ∀ w, (j, w) ∈ kvs → w = v) : (putAll kvs t).get j = some v := by
  obtain ⟨w, hw, hg⟩ := exists_get_putAll t (List.mem_map.mpr ⟨(j, v), hmem, rfl⟩)
  rw [hg, hone w hw]

/-- A run of puts adds no key that is not one of its own. -/
theorem keys_putAll_subperm : ∀ (kvs : List (κ × α)) (t : OrderedTable κ α),
    (putAll kvs t).keys.Subperm (kvs.map (·.1) ++ t.keys)
  | [], t => List.Subperm.refl _
  | kv :: kvs, t => by
    have hput : (t.put kv.1 kv.2).keys.Subperm (kv.1 :: t.keys) := by
      have hperm := (entries_put_perm t kv.1 kv.2).map Prod.fst
      have hrest : (t.delete kv.1).keys.Sublist t.keys := List.filter_sublist.map Prod.fst
      exact hperm.subperm.trans (hrest.cons_cons kv.1).subperm
    have hrun : (putAll kvs (t.put kv.1 kv.2)).keys.Subperm (kvs.map (·.1) ++ (t.put kv.1 kv.2).keys) :=
      keys_putAll_subperm kvs _
    have hmove : (kvs.map (·.1) ++ kv.1 :: t.keys).Subperm (kv.1 :: (kvs.map (·.1) ++ t.keys)) :=
      List.perm_middle.subperm
    exact (hrun.trans ((List.subperm_append_left _).mpr hput)).trans hmove

theorem get_deleteAll (j : κ) : ∀ (ks : List κ) (t : OrderedTable κ α),
    (deleteAll ks t).get j = if j ∈ ks then none else t.get j
  | [], _ => by simp [deleteAll]
  | k :: ks, t => by
    have ih := get_deleteAll j ks (t.delete k)
    simp only [deleteAll, List.foldl_cons] at ih ⊢
    rw [ih, get_delete]
    by_cases hk : j = k <;> by_cases hks : j ∈ ks <;> simp [hk, hks]

theorem entries_deleteAll : ∀ (ks : List κ) (t : OrderedTable κ α),
    (deleteAll ks t).entries = t.entries.filter fun e => decide (e.1 ∉ ks)
  | [], t => by simp [deleteAll]
  | k :: ks, t => by
    show (deleteAll ks (t.delete k)).entries = _
    rw [entries_deleteAll ks, delete, List.filter_filter]
    refine List.filter_congr fun e _ => ?_
    simp only [List.mem_cons, not_or, ne_eq, Bool.decide_and]
    exact Bool.and_comm _ _

/-- To delete the first keys is to drop the first entries. -/
theorem entries_deleteAll_take (t : OrderedTable κ α) (n : ℕ) :
    (deleteAll (t.keys.take n) t).entries = t.entries.drop n := by
  have hkeys : t.keys.take n = (t.entries.take n).map (·.1) := by rw [keys, List.map_take]
  have hsorted : (t.entries.take n ++ t.entries.drop n).Pairwise fun x y => x.1 < y.1 := by
    rw [List.take_append_drop]
    exact t.sorted
  rw [entries_deleteAll, hkeys]
  conv_lhs => rw [← List.take_append_drop n t.entries]
  rw [List.filter_append]
  have hfirst : (t.entries.take n).filter (fun e => decide (e.1 ∉ (t.entries.take n).map (·.1))) = [] :=
    List.filter_eq_nil_iff.mpr fun e he => by
      rw [decide_eq_true_eq, not_not]
      exact List.mem_map_of_mem he
  have hrest : (t.entries.drop n).filter (fun e => decide (e.1 ∉ (t.entries.take n).map (·.1))) = t.entries.drop n := by
    refine List.filter_eq_self.mpr fun e he => decide_eq_true fun hmem => ?_
    obtain ⟨e', he', hsame⟩ := List.mem_map.mp hmem
    have hlt := (List.pairwise_append.mp hsorted).2.2 e' he' e he
    exact absurd hsame (ne_of_lt hlt)
  rw [List.take_append_drop, hfirst, List.nil_append]
  exact hrest

end OrderedTable

/-! ### Scoped keys -/

/-- A name inside a namespace, ordered by the namespace and then the name. -/
structure Scoped (ι κ : Type) where
  scope : ι
  name : κ
deriving DecidableEq

namespace Scoped

variable {ι κ : Type}

/-- The key as a lexicographic pair. -/
def toLexPair (k : Scoped ι κ) : ι ×ₗ κ := toLex (k.scope, k.name)

theorem toLexPair_injective : Function.Injective (toLexPair : Scoped ι κ → ι ×ₗ κ) := by
  rintro ⟨a, b⟩ ⟨c, d⟩ h
  simpa [toLexPair] using h

variable [LinearOrder ι] [LinearOrder κ]

instance : LinearOrder (Scoped ι κ) := LinearOrder.lift' toLexPair toLexPair_injective

theorem lt_iff {a b : Scoped ι κ} :
    a < b ↔ a.scope < b.scope ∨ (a.scope = b.scope ∧ a.name < b.name) := by
  show toLexPair a < toLexPair b ↔ _
  simp [toLexPair, Prod.Lex.toLex_lt_toLex]

end Scoped

namespace OrderedTable

variable {ι κ α : Type} [LinearOrder ι] [LinearOrder κ]

/-- The entries of one namespace, by name. -/
def under (t : OrderedTable (Scoped ι κ) α) (s : ι) : OrderedTable κ α where
  entries := (t.entries.filter fun e => e.1.scope = s).map fun e => (e.1.name, e.2)
  sorted := by
    rw [List.pairwise_map]
    refine (t.sorted.filter _).imp_of_mem fun hx hy hlt => ?_
    have hx := of_decide_eq_true (List.mem_filter.mp hx).2
    have hy := of_decide_eq_true (List.mem_filter.mp hy).2
    rcases Scoped.lt_iff.mp hlt with h | ⟨-, h⟩
    · rw [hx, hy] at h
      exact absurd h (lt_irrefl _)
    · exact h

/-- **A prefix scan sees what the lookups see.** -/
theorem get_under (t : OrderedTable (Scoped ι κ) α) (s : ι) (k : κ) :
    (t.under s).get k = t.get ⟨s, k⟩ := by
  apply Option.ext
  intro v
  rw [get_eq_some_iff, get_eq_some_iff]
  simp only [under, List.mem_map, List.mem_filter, decide_eq_true_eq, Prod.exists, Prod.mk.injEq]
  constructor
  · rintro ⟨⟨s', k'⟩, v', ⟨hmem, hs⟩, hk, hv⟩
    simp only at hs hk
    rwa [← hs, ← hk, ← hv]
  · intro hmem
    exact ⟨⟨s, k⟩, v, ⟨hmem, rfl⟩, rfl, rfl⟩

/-- The table without the entries of one namespace. -/
def clear (t : OrderedTable (Scoped ι κ) α) (s : ι) : OrderedTable (Scoped ι κ) α :=
  t.deleteAll ((t.under s).keys.map fun k => ⟨s, k⟩)

theorem get_clear (t : OrderedTable (Scoped ι κ) α) (s : ι) (k : Scoped ι κ) :
    (t.clear s).get k = if k.scope = s then none else t.get k := by
  obtain ⟨r, j⟩ := k
  rw [clear, get_deleteAll]
  simp only [List.mem_map, Scoped.mk.injEq, exists_eq_right_right]
  by_cases hr : r = s
  · subst hr
    rw [if_pos rfl]
    by_cases hj : j ∈ (t.under r).keys
    · exact if_pos ⟨hj, rfl⟩
    · rw [if_neg fun h => hj h.1, ← get_under]
      exact get_eq_none_iff.mpr hj
  · rw [if_neg hr, if_neg fun h => hr h.2.symm]

/-- The tables agree outside of one namespace. -/
def SameOutside (s : ι) (t u : OrderedTable (Scoped ι κ) α) : Prop := ∀ k, k.scope ≠ s → u.get k = t.get k

namespace SameOutside

variable {s : ι} {t u v : OrderedTable (Scoped ι κ) α}

theorem refl (t : OrderedTable (Scoped ι κ) α) : SameOutside s t t := fun _ _ => rfl

theorem trans (h : SameOutside s t u) (h' : SameOutside s u v) : SameOutside s t v := fun k hk =>
  (h' k hk).trans (h k hk)

theorem put (t : OrderedTable (Scoped ι κ) α) (k : κ) (a : α) : SameOutside s t (t.put ⟨s, k⟩ a) := fun _ hj =>
  get_put_of_ne t a fun h => hj (congrArg Scoped.scope h)

theorem delete (t : OrderedTable (Scoped ι κ) α) (k : κ) : SameOutside s t (t.delete ⟨s, k⟩) := fun _ hj =>
  get_delete_of_ne t fun h => hj (congrArg Scoped.scope h)

theorem clear (t : OrderedTable (Scoped ι κ) α) : SameOutside s t (t.clear s) := fun k hk => by
  rw [get_clear, if_neg hk]

/-- What each step of a pass keeps, the pass keeps. -/
theorem foldl {β : Type} {f : OrderedTable (Scoped ι κ) α → β → OrderedTable (Scoped ι κ) α}
    (hf : ∀ t b, SameOutside s t (f t b)) : ∀ (bs : List β) (t : OrderedTable (Scoped ι κ) α),
    SameOutside s t (bs.foldl f t)
  | [], t => refl t
  | b :: bs, t => (hf t b).trans (foldl hf bs (f t b))

theorem putAll {β : Type} {f : β → Scoped ι κ × α} (hf : ∀ b, (f b).1.scope = s) (bs : List β)
    (t : OrderedTable (Scoped ι κ) α) : SameOutside s t (t.putAll (bs.map f)) := fun k hk =>
  get_putAll_of_notMem t fun hmem => by
    simp only [List.map_map, List.mem_map, Function.comp_apply] at hmem
    obtain ⟨b, -, rfl⟩ := hmem
    exact hk (hf b)

theorem deleteAll (ks : List κ) (t : OrderedTable (Scoped ι κ) α) :
    SameOutside s t (t.deleteAll (ks.map fun k => ⟨s, k⟩)) := fun k hk => by
  rw [get_deleteAll, if_neg]
  rintro hmem
  obtain ⟨j, -, hj⟩ := List.mem_map.mp hmem
  exact hk (congrArg Scoped.scope hj).symm

/-- Where the tables agree the namespaces do. -/
theorem under_eq (h : SameOutside s t u) {r : ι} (hr : r ≠ s) : u.under r = t.under r :=
  ext_get fun k => by rw [get_under, get_under, h ⟨r, k⟩ hr]

end SameOutside

end OrderedTable
