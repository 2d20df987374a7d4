/-
# Selection and sorting

The first `n` elements of a sorted list can be had without sorting the list: a
selection rearranges it so that the element at one index is where a sort puts it,
with none greater before it and none less after it (`Selected`); the elements up
to that index, sorted, are the first of the sorted list (`sort_take_selected`).
This needs an order in which no two elements tie.

A stable sort is the sort by the order that breaks ties by place
(`insertionSort_congr`): an insertion compares an element only with those after
it.

Key definitions: `TotalOn`, `Selected`, `Selects`, `Selector`, `scanFirst`.
Key theorems: `sort_take_selected`, `insertionSort_congr`, `selects_scanFirst`.
-/
import Mathlib.Data.List.Sort

namespace Selection

variable {α : Type} {l l' : List α} {n : ℕ}

/-- `cmp` is a total order on these elements. -/
structure TotalOn (cmp : α → α → Ordering) (l : List α) : Prop where
  swap : ∀ a ∈ l, ∀ b ∈ l, cmp a b = (cmp b a).swap
  trans : ∀ a ∈ l, ∀ b ∈ l, ∀ c ∈ l, cmp a b ≠ .gt → cmp b c ≠ .gt → cmp a c ≠ .gt

/-- `l'` is `l` rearranged around the element at an index. -/
structure Selected (cmp : α → α → Ordering) (index : ℕ) (l l' : List α) : Prop where
  perm : l'.Perm l
  before : ∀ x, l'[index]? = some x → ∀ y ∈ l'.take index, cmp y x ≠ .gt
  after : ∀ x, l'[index]? = some x → ∀ y ∈ l'.drop (index + 1), cmp x y ≠ .gt

/-- A selection algorithm: it rearranges every list on whose elements the
comparison is a total order. -/
def Selects (select : (α → α → Ordering) → ℕ → List α → List α) : Prop :=
  ∀ (cmp : α → α → Ordering) (index : ℕ) (l : List α), index < l.length → TotalOn cmp l →
    Selected cmp index l (select cmp index l)

/-- No element up to the index is greater than one after it. -/
theorem Selected.split {cmp : α → α → Ordering} (h : Selected cmp n l l') (hcmp : TotalOn cmp l) (hn : n < l.length) :
    ∀ x ∈ l'.take (n + 1), ∀ y ∈ l'.drop (n + 1), cmp x y ≠ .gt := by
  intro x hx y hy
  have hlt : n < l'.length := h.perm.length_eq ▸ hn
  have hpivot : l'[n]? = some l'[n] := List.getElem?_eq_getElem hlt
  have hafter := h.after _ hpivot y hy
  rw [List.take_succ_eq_append_getElem hlt, List.mem_append, List.mem_singleton] at hx
  rcases hx with hx | rfl
  · exact hcmp.trans x (h.perm.subset (List.mem_of_mem_take hx)) _ (h.perm.subset (List.getElem_mem hlt)) y
      (h.perm.subset (List.mem_of_mem_drop hy)) (h.before _ hpivot x hx) hafter
  · exact hafter

/-- Sorted by the comparison. -/
theorem pairwise_sort {cmp : α → α → Ordering} (hcmp : TotalOn cmp l) :
    (l.insertionSort fun a b => cmp a b ≠ .gt).Pairwise fun a b => cmp a b ≠ .gt := by
  -- on the elements of the list the comparison is total and transitive
  have hsame := List.map_insertionSort (fun a b : {a // a ∈ l} => cmp a.1 b.1 ≠ .gt) (fun a b => cmp a b ≠ .gt)
    Subtype.val l.attach fun _ _ _ _ => Iff.rfl
  rw [List.attach_map_subtype_val] at hsame
  have : Std.Total fun a b : {a // a ∈ l} => cmp a.1 b.1 ≠ .gt := ⟨fun a b => by
    rw [hcmp.swap a.1 a.2 b.1 b.2]
    cases cmp b.1 a.1 <;> decide⟩
  have : IsTrans {a // a ∈ l} fun a b => cmp a.1 b.1 ≠ .gt :=
    ⟨fun a b c hab hbc => hcmp.trans a.1 a.2 b.1 b.2 c.1 c.2 hab hbc⟩
  rw [← hsame]
  exact List.pairwise_map.mpr (List.pairwise_insertionSort _ _)

theorem TotalOn.subset {cmp : α → α → Ordering} (h : TotalOn cmp l) (hsub : l' ⊆ l) : TotalOn cmp l' where
  swap a ha b hb := h.swap a (hsub ha) b (hsub hb)
  trans a ha b hb c hc := h.trans a (hsub ha) b (hsub hb) c (hsub hc)

/-- **The selected elements, sorted, are the first of the sorted list**, where no
two elements tie. -/
theorem sort_take_selected {cmp : α → α → Ordering} (hcmp : TotalOn cmp l)
    (hties : ∀ a ∈ l, ∀ b ∈ l, cmp a b = .eq → a = b) (hn : n < l.length) (hselected : Selected cmp n l l') :
    (l'.take (n + 1)).insertionSort (fun a b => cmp a b ≠ .gt) =
      (l.insertionSort fun a b => cmp a b ≠ .gt).take (n + 1) := by
  set sort := fun m : List α => m.insertionSort fun a b => cmp a b ≠ .gt with hsort
  have hperm : ∀ m : List α, (sort m).Perm m := fun m => List.perm_insertionSort _ m
  have hleft : l'.take (n + 1) ⊆ l := fun a ha => hselected.perm.subset (List.mem_of_mem_take ha)
  have hright : l'.drop (n + 1) ⊆ l := fun a ha => hselected.perm.subset (List.mem_of_mem_drop ha)
  -- the two parts sorted one after the other are sorted, so they are the sorted list
  have hpairwise : (sort (l'.take (n + 1)) ++ sort (l'.drop (n + 1))).Pairwise fun a b => cmp a b ≠ .gt :=
    List.pairwise_append.mpr ⟨pairwise_sort (hcmp.subset hleft), pairwise_sort (hcmp.subset hright),
      fun a ha b hb => hselected.split hcmp hn a ((hperm _).subset ha) b ((hperm _).subset hb)⟩
  have hboth : (sort (l'.take (n + 1)) ++ sort (l'.drop (n + 1))).Perm l := by
    refine ((hperm _).append (hperm _)).trans ?_
    rw [List.take_append_drop]
    exact hselected.perm
  have hanti : ∀ a ∈ l, ∀ b ∈ l, cmp a b ≠ .gt → cmp b a ≠ .gt → a = b := by
    intro a ha b hb hab hba
    refine hties a ha b hb ?_
    rw [hcmp.swap b hb a ha] at hba
    revert hab hba
    cases cmp a b <;> decide
  have heq : sort (l'.take (n + 1)) ++ sort (l'.drop (n + 1)) = sort l :=
    List.Perm.eq_of_pairwise (fun a b ha hb => hanti a (hboth.subset ha) b ((hperm l).subset hb)) hpairwise
      (pairwise_sort hcmp) (hboth.trans (hperm l).symm)
  have hlength : (sort (l'.take (n + 1))).length = n + 1 := by
    rw [(hperm _).length_eq, List.length_take_of_le (hselected.perm.length_eq ▸ hn)]
  exact (List.take_left' hlength).symm.trans (congrArg (List.take (n + 1)) heq)

/-- **Insertion compares an element with those after it only**: relations that
agree there sort alike. -/
theorem insertionSort_congr {r s : α → α → Prop} [DecidableRel r] [DecidableRel s] :
    ∀ {l : List α}, l.Pairwise (fun a b => r a b ↔ s a b) → l.insertionSort r = l.insertionSort s
  | [], _ => rfl
  | a :: l, h => by
    obtain ⟨hfirst, hrest⟩ := List.pairwise_cons.mp h
    have hinsert : ∀ m : List α, (∀ b ∈ m, r a b ↔ s a b) → m.orderedInsert r a = m.orderedInsert s a := by
      intro m
      induction m with
      | nil => exact fun _ => rfl
      | cons b m ih =>
        intro hm
        rw [List.orderedInsert, List.orderedInsert, ih fun c hc => hm c (List.mem_cons_of_mem b hc)]
        exact if_congr (hm b List.mem_cons_self) rfl rfl
    rw [List.insertionSort_cons, List.insertionSort_cons, insertionSort_congr hrest]
    exact hinsert _ fun b hb => hfirst b ((List.perm_insertionSort s l).subset hb)

/-- A sort is a selection at every index. -/
theorem selects_insertionSort :
    Selects fun (cmp : α → α → Ordering) _ l => l.insertionSort fun a b => cmp a b ≠ .gt := by
  intro cmp index l _ hcmp
  have hsorted := pairwise_sort hcmp
  refine ⟨List.perm_insertionSort _ l, fun x hx y hy => ?_, fun x hx y hy => ?_⟩
  · obtain ⟨hlt, rfl⟩ := List.getElem?_eq_some_iff.mp hx
    rw [← List.take_append_drop index (l.insertionSort fun a b => cmp a b ≠ .gt)] at hsorted
    refine (List.pairwise_append.mp hsorted).2.2 y hy _ ?_
    rw [List.drop_eq_getElem_cons hlt]
    exact List.mem_cons_self
  · obtain ⟨hlt, rfl⟩ := List.getElem?_eq_some_iff.mp hx
    rw [← List.take_append_drop (index + 1) (l.insertionSort fun a b => cmp a b ≠ .gt)] at hsorted
    refine (List.pairwise_append.mp hsorted).2.2 _ ?_ y hy
    rw [List.take_succ_eq_append_getElem hlt]
    exact List.mem_append_right _ List.mem_cons_self

/-- A selection algorithm that rearranges whatever list it is given. -/
structure Selector (α : Type) where
  select : (α → α → Ordering) → ℕ → List α → List α
  perm : ∀ (cmp : α → α → Ordering) (index : ℕ) (l : List α), (select cmp index l).Perm l
  selects : Selects select

/-- Selection by sorting. -/
def Selector.sort : Selector α where
  select cmp _ l := l.insertionSort fun a b => cmp a b ≠ .gt
  perm _ _ l := List.perm_insertionSort _ l
  selects := selects_insertionSort

/-! ### Selection of a least element -/

/-- The first element that no later one is less than. -/
def least (cmp : α → α → Ordering) (x : α) (xs : List α) : α :=
  xs.foldl (fun m y => if cmp y m = .lt then y else m) x

variable [DecidableEq α] in
/-- Sorts, but at the first index only finds the least element, by a scan. -/
def scanFirst (cmp : α → α → Ordering) (index : ℕ) (l : List α) : List α :=
  match index, l with
  | 0, x :: xs => least cmp x xs :: (x :: xs).erase (least cmp x xs)
  | _, l => l.insertionSort fun a b => cmp a b ≠ .gt

theorem least_spec {cmp : α → α → Ordering} : ∀ (xs : List α) (x : α), TotalOn cmp (x :: xs) →
    least cmp x xs ∈ x :: xs ∧ ∀ y ∈ x :: xs, cmp (least cmp x xs) y ≠ .gt
  | [], x, h => by
    refine ⟨List.mem_cons_self, fun y hy => ?_⟩
    obtain rfl := List.mem_singleton.mp hy
    have hswap := h.swap y List.mem_cons_self y List.mem_cons_self
    rw [least, List.foldl_nil]
    revert hswap
    cases cmp y y <;> decide
  | z :: xs, x, h => by
    have hx : x ∈ x :: z :: xs := List.mem_cons_self
    have hz : z ∈ x :: z :: xs := List.mem_cons_of_mem x List.mem_cons_self
    have hswap := h.swap z hz x hx
    rw [least, List.foldl_cons]
    by_cases hlt : cmp z x = .lt
    · rw [if_pos hlt]
      obtain ⟨hmem, hle⟩ := least_spec xs z (h.subset (List.subset_cons_self x _))
      refine ⟨List.mem_cons_of_mem x hmem, fun y hy => ?_⟩
      rcases List.mem_cons.mp hy with rfl | hy
      · exact h.trans _ (List.mem_cons_of_mem y hmem) z hz y hx (hle z List.mem_cons_self) (by rw [hlt]; decide)
      · exact hle y hy
    · rw [if_neg hlt]
      have hsub : x :: xs ⊆ x :: z :: xs := List.cons_subset_cons x (List.subset_cons_self z xs)
      obtain ⟨hmem, hle⟩ := least_spec xs x (h.subset hsub)
      refine ⟨hsub hmem, fun y hy => ?_⟩
      rcases List.mem_cons.mp hy with rfl | hy
      · exact hle y List.mem_cons_self
      rcases List.mem_cons.mp hy with rfl | hy
      · refine h.trans _ (hsub hmem) x hx y hz (hle x List.mem_cons_self) ?_
        revert hlt hswap
        cases cmp y x <;> cases cmp x y <;> decide
      · exact hle y (List.mem_cons_of_mem x hy)

variable [DecidableEq α] in
theorem selects_scanFirst : Selects (scanFirst (α := α)) := by
  intro cmp index l hindex hcmp
  match index, l with
  | 0, [] => exact absurd hindex (Nat.not_lt_zero 0)
  | 0, x :: xs =>
    obtain ⟨hmem, hle⟩ := least_spec xs x hcmp
    refine ⟨(List.perm_cons_erase hmem).symm, fun y _ z hz => absurd hz List.not_mem_nil, fun y hy z hz => ?_⟩
    obtain rfl : least cmp x xs = y := Option.some.inj hy
    exact hle z (List.mem_of_mem_erase hz)
  | _ + 1, l => exact selects_insertionSort cmp _ l hindex hcmp

end Selection
