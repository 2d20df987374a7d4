/-
# The binary heap

A heap in a list: the children of position `i` are at `2 * i + 1` and
`2 * i + 2`, and no child is above its parent. `push` appends an entry and
swaps it up until its parent is not below it; `pop` puts the last entry in the
place of the top, swaps it down to the bottom along the greater children and
then up again. These are the steps of a `std::collections::BinaryHeap`, whose
choice among entries that compare equal is a matter of nothing else.

Whatever the comparison, the entries are kept (`push_perm`, `pop_perm`), and
entries that compare alike move alike (`push_map`, `pop_map`). Where it orders
the entries (`Orders`) the heap stays one (`isHeap_push`, `isHeap_pop`), and its
top is a greatest entry (`IsHeap.le_top`).

Key definitions: `push`, `pop`, `Orders`, `IsHeap`.
Key theorems: `push_perm`, `pop_perm`, `push_map`, `isHeap_push`, `isHeap_pop`,
`IsHeap.le_top`.
-/
import Mathlib.Data.List.Basic
import Mathlib.Data.List.Perm.Basic
import Mathlib.Data.List.Sort

namespace BinaryHeap

variable {α β : Type}

/-! ### Entries exchanged -/

/-- The entries at two positions exchanged. -/
def exchange (l : List α) (i j : ℕ) : List α :=
  match l[i]?, l[j]? with
  | some a, some b => (l.set i b).set j a
  | _, _ => l

theorem exchange_eq {l : List α} {i j : ℕ} (hi : i < l.length) (hj : j < l.length) :
    exchange l i j = (l.set i l[j]).set j l[i] := by
  simp [exchange, hi, hj]

@[simp] theorem length_exchange (l : List α) (i j : ℕ) : (exchange l i j).length = l.length := by
  unfold exchange
  split <;> simp

theorem exchange_perm (l : List α) (i j : ℕ) : (exchange l i j).Perm l := by
  by_cases hi : i < l.length
  · by_cases hj : j < l.length
    · rw [exchange_eq hi hj]
      exact List.set_set_perm hi hj
    · simp [exchange, List.getElem?_eq_none (Nat.le_of_not_lt hj)]
  · simp [exchange, List.getElem?_eq_none (Nat.le_of_not_lt hi)]

theorem exchange_map (f : α → β) (l : List α) (i j : ℕ) : exchange (l.map f) i j = (exchange l i j).map f := by
  unfold exchange
  rw [List.getElem?_map, List.getElem?_map]
  cases l[i]? <;> cases l[j]? <;> simp [List.map_set]

/-- What lies where after an exchange. -/
theorem getElem?_exchange {l : List α} {i j : ℕ} (hi : i < l.length) (hj : j < l.length) (k : ℕ) :
    (exchange l i j)[k]? = if k = j then l[i]? else if k = i then l[j]? else l[k]? := by
  rw [exchange_eq hi hj, List.getElem?_set, List.getElem?_set, List.length_set]
  by_cases hkj : j = k
  · subst hkj
    simp [hi, hj]
  · by_cases hki : i = k
    · subst hki
      simp [hkj, Ne.symm hkj, hi, hj]
    · simp [hkj, hki, Ne.symm hkj, Ne.symm hki]

/-! ### The heap's steps -/

section Steps

variable (le : α → α → Bool)

/-- The entry at a position is not above the one at another, if both are there. -/
def leAt (l : List α) (i j : ℕ) : Bool :=
  match l[i]?, l[j]? with
  | some a, some b => le a b
  | _, _ => true

/-- Swaps the entry at a position up, a step a unit of fuel. -/
def siftUp : ℕ → List α → ℕ → List α
  | 0, l, _ => l
  | fuel + 1, l, pos =>
    if pos = 0 then l
    else if leAt le l pos ((pos - 1) / 2) then l
    else siftUp fuel (exchange l pos ((pos - 1) / 2)) ((pos - 1) / 2)

/-- The child an entry is swapped with on its way down: the second of two unless
the first is above it. -/
def greaterChild (l : List α) (pos : ℕ) : ℕ :=
  if leAt le l (2 * pos + 1) (2 * pos + 2) then 2 * pos + 2 else 2 * pos + 1

/-- Swaps the entry at a position down to the bottom, and where it is then. -/
def sinkToBottom : ℕ → List α → ℕ → List α × ℕ
  | 0, l, pos => (l, pos)
  | fuel + 1, l, pos =>
    if 2 * pos + 2 < l.length then
      sinkToBottom fuel (exchange l pos (greaterChild le l pos)) (greaterChild le l pos)
    else if 2 * pos + 2 = l.length then (exchange l pos (2 * pos + 1), 2 * pos + 1)
    else (l, pos)

/-- `BinaryHeap::push` -/
def push (l : List α) (x : α) : List α := siftUp le l.length (l ++ [x]) l.length

/-- What `BinaryHeap::pop` leaves; the top, `List.head?`, is what it returns. -/
def pop (l : List α) : List α :=
  match l.tail.getLast? with
  | none => []
  | some last =>
    let sunk := sinkToBottom le l.length (last :: l.tail.dropLast) 0
    siftUp le sunk.2 sunk.1 sunk.2

end Steps

variable {le : α → α → Bool}

/-! ### Entries are kept -/

theorem siftUp_perm : ∀ (fuel : ℕ) (l : List α) (pos : ℕ), (siftUp le fuel l pos).Perm l
  | 0, _, _ => .refl _
  | fuel + 1, l, pos => by
    unfold siftUp
    split_ifs
    · exact .refl _
    · exact .refl _
    · exact (siftUp_perm fuel _ _).trans (exchange_perm _ _ _)

theorem sinkToBottom_perm : ∀ (fuel : ℕ) (l : List α) (pos : ℕ), (sinkToBottom le fuel l pos).1.Perm l
  | 0, _, _ => .refl _
  | fuel + 1, l, pos => by
    unfold sinkToBottom
    split_ifs
    · exact (sinkToBottom_perm fuel _ _).trans (exchange_perm _ _ _)
    · exact exchange_perm _ _ _
    · exact .refl _

theorem push_perm (le : α → α → Bool) (l : List α) (x : α) : (push le l x).Perm (l ++ [x]) := siftUp_perm _ _ _

theorem length_push (le : α → α → Bool) (l : List α) (x : α) : (push le l x).length = l.length + 1 := by
  simpa using (push_perm le l x).length_eq

theorem pop_perm (le : α → α → Bool) (m : α) (rest : List α) : (pop le (m :: rest)).Perm rest := by
  unfold pop
  rw [List.tail_cons]
  cases hlast : rest.getLast? with
  | none =>
    rw [List.getLast?_eq_none_iff.mp hlast]
  | some last =>
    obtain ⟨init, rfl⟩ := List.getLast?_eq_some_iff.mp hlast
    rw [List.dropLast_concat]
    exact (siftUp_perm _ _ _).trans ((sinkToBottom_perm _ _ _).trans (List.perm_append_singleton last init).symm)

/-! ### Entries that compare alike move alike -/

section Map

variable {le' : β → β → Bool} {f : α → β}

theorem leAt_map (h : ∀ a b, le' (f a) (f b) = le a b) (l : List α) (i j : ℕ) :
    leAt le' (l.map f) i j = leAt le l i j := by
  unfold leAt
  rw [List.getElem?_map, List.getElem?_map]
  cases l[i]? <;> cases l[j]? <;> simp [h]

theorem siftUp_map (h : ∀ a b, le' (f a) (f b) = le a b) : ∀ (fuel : ℕ) (l : List α) (pos : ℕ),
    siftUp le' fuel (l.map f) pos = (siftUp le fuel l pos).map f
  | 0, _, _ => rfl
  | fuel + 1, l, pos => by
    unfold siftUp
    rw [leAt_map h, exchange_map, siftUp_map h fuel]
    split_ifs <;> rfl

theorem sinkToBottom_map (h : ∀ a b, le' (f a) (f b) = le a b) : ∀ (fuel : ℕ) (l : List α) (pos : ℕ),
    sinkToBottom le' fuel (l.map f) pos = Prod.map (List.map f) id (sinkToBottom le fuel l pos)
  | 0, _, _ => rfl
  | fuel + 1, l, pos => by
    have hchild : greaterChild le' (l.map f) pos = greaterChild le l pos := by
      unfold greaterChild
      rw [leAt_map h]
    unfold sinkToBottom
    rw [hchild, List.length_map, exchange_map, exchange_map, sinkToBottom_map h fuel]
    split_ifs <;> rfl

theorem push_map (h : ∀ a b, le' (f a) (f b) = le a b) (l : List α) (x : α) :
    push le' (l.map f) (f x) = (push le l x).map f := by
  unfold push
  rw [List.length_map, ← siftUp_map h, List.map_append, List.map_singleton]

theorem pop_map (h : ∀ a b, le' (f a) (f b) = le a b) (l : List α) : pop le' (l.map f) = (pop le l).map f := by
  unfold pop
  rw [← List.map_tail, List.getLast?_map]
  cases hlast : l.tail.getLast? with
  | none => rfl
  | some last =>
    have hentries : f last :: (l.tail.map f).dropLast = (last :: l.tail.dropLast).map f := by
      rw [List.map_cons, List.map_dropLast]
    simp only [Option.map_some]
    rw [hentries, List.length_map, sinkToBottom_map h, ← siftUp_map h]
    rfl

end Map

/-! ### The order of the entries -/

/-- The comparison orders these entries. -/
structure Orders (le : α → α → Bool) (s : List α) : Prop where
  total : ∀ a ∈ s, ∀ b ∈ s, le a b = true ∨ le b a = true
  trans : ∀ a ∈ s, ∀ b ∈ s, ∀ c ∈ s, le a b = true → le b c = true → le a c = true

theorem Orders.subset {s s' : List α} (h : Orders le s) (hsub : s' ⊆ s) : Orders le s' where
  total a ha b hb := h.total a (hsub ha) b (hsub hb)
  trans a ha b hb c hc := h.trans a (hsub ha) b (hsub hb) c (hsub hc)

theorem Orders.perm {s s' : List α} (h : Orders le s) (hperm : s'.Perm s) : Orders le s' := h.subset hperm.subset

theorem Orders.leAt_total {l : List α} (h : Orders le l) (i j : ℕ) : leAt le l i j = true ∨ leAt le l j i = true := by
  unfold leAt
  cases hi : l[i]? with
  | none => exact Or.inl rfl
  | some a =>
    cases hj : l[j]? with
    | none => exact Or.inl rfl
    | some b => exact h.total a (List.mem_of_getElem? hi) b (List.mem_of_getElem? hj)

theorem Orders.leAt_trans {l : List α} (h : Orders le l) {i j k : ℕ} (hj : j < l.length)
    (hij : leAt le l i j = true) (hjk : leAt le l j k = true) : leAt le l i k = true := by
  unfold leAt at hij hjk ⊢
  rw [List.getElem?_eq_getElem hj] at hij hjk
  cases hi : l[i]? with
  | none => rfl
  | some a =>
    cases hk : l[k]? with
    | none => rfl
    | some c =>
      rw [hi] at hij
      rw [hk] at hjk
      exact h.trans a (List.mem_of_getElem? hi) _ (List.getElem_mem hj) c (List.mem_of_getElem? hk) hij hjk

/-- No entry is above its parent. -/
def IsHeap (le : α → α → Bool) (l : List α) : Prop := ∀ i, 0 < i → leAt le l i ((i - 1) / 2) = true

theorem isHeap_nil (le : α → α → Bool) : IsHeap le ([] : List α) := fun _ _ => rfl

/-- A position past the end is in order with every other. -/
theorem leAt_of_length_le {l : List α} {i : ℕ} (hi : l.length ≤ i) (j : ℕ) : leAt le l i j = true := by
  unfold leAt
  rw [List.getElem?_eq_none hi]

theorem isHeap_singleton (le : α → α → Bool) (x : α) : IsHeap le [x] := fun _ hi => leAt_of_length_le hi _

/-- **The top is a greatest entry.** -/
theorem IsHeap.le_top {m : α} {rest : List α} (h : IsHeap le (m :: rest)) (ho : Orders le (m :: rest)) :
    ∀ x ∈ m :: rest, le x m = true := by
  have hall : ∀ i, leAt le (m :: rest) i 0 = true := by
    intro i
    induction i using Nat.strongRecOn with
    | ind i ih =>
      rcases Nat.eq_zero_or_pos i with rfl | hi
      · rcases ho.leAt_total 0 0 with h | h <;> exact h
      · by_cases hlt : i < (m :: rest).length
        · exact ho.leAt_trans (by omega) (h i hi) (ih _ (by omega))
        · exact leAt_of_length_le (Nat.le_of_not_lt hlt) 0
  intro x hx
  obtain ⟨i, hi, rfl⟩ := List.mem_iff_getElem.mp hx
  have hat := hall i
  unfold leAt at hat
  rw [List.getElem?_eq_getElem hi] at hat
  exact hat

/-! ### Up -/

/-- A heap but for the entry at a position and its parent. -/
structure UpHeap (le : α → α → Bool) (l : List α) (pos : ℕ) : Prop where
  others : ∀ i, 0 < i → i ≠ pos → leAt le l i ((i - 1) / 2) = true
  children : 0 < pos → ∀ i, 0 < i → (i - 1) / 2 = pos → leAt le l i ((pos - 1) / 2) = true

theorem UpHeap.done {l : List α} {pos : ℕ} (h : UpHeap le l pos)
    (hpos : pos = 0 ∨ leAt le l pos ((pos - 1) / 2) = true) : IsHeap le l := by
  intro i hi
  by_cases hip : i = pos
  · subst hip
    exact hpos.resolve_left hi.ne'
  · exact h.others i hi hip

/-- Entries compare after an exchange as they did before it. -/
theorem leAt_exchange {l : List α} {p q : ℕ} (hp : p < l.length) (hq : q < l.length) (i j : ℕ) :
    leAt le (exchange l p q) i j =
      leAt le l (if i = q then p else if i = p then q else i) (if j = q then p else if j = p then q else j) := by
  unfold leAt
  rw [getElem?_exchange hp hq, getElem?_exchange hp hq]
  split_ifs <;> rfl

/-- One step up. -/
theorem UpHeap.exchange {l : List α} {pos : ℕ} (h : UpHeap le l pos) (ho : Orders le l) (hpos : 0 < pos)
    (hlt : pos < l.length) (habove : leAt le l pos ((pos - 1) / 2) = false) :
    UpHeap le (exchange l pos ((pos - 1) / 2)) ((pos - 1) / 2) := by
  set parent := (pos - 1) / 2 with hparent
  have hless : parent < pos := by omega
  have hplt : parent < l.length := by omega
  have hbelow : leAt le l parent pos = true :=
    (ho.leAt_total pos parent).resolve_left (by rw [habove]; exact Bool.false_ne_true)
  constructor
  · intro i hi hne
    rw [leAt_exchange hlt hplt, if_neg hne]
    by_cases hip : i = pos
    · subst hip
      rw [if_pos rfl, ← hparent, if_pos rfl]
      exact hbelow
    rw [if_neg hip]
    by_cases hup : (i - 1) / 2 = parent
    · rw [if_pos hup]
      exact ho.leAt_trans hplt (hup ▸ h.others i hi hip) hbelow
    rw [if_neg hup]
    by_cases hch : (i - 1) / 2 = pos
    · rw [if_pos hch]
      exact h.children hpos i hi hch
    · rw [if_neg hch]
      exact h.others i hi hip
  · intro hparentpos i hi hch
    have hgrand : leAt le l parent ((parent - 1) / 2) = true := h.others parent hparentpos hless.ne
    rw [leAt_exchange hlt hplt, if_neg (by omega), if_neg (show ¬(parent - 1) / 2 = parent by omega),
      if_neg (show ¬(parent - 1) / 2 = pos by omega)]
    by_cases hip : i = pos
    · rw [if_pos hip]
      exact hgrand
    · rw [if_neg hip]
      exact ho.leAt_trans hplt (hch ▸ h.others i hi hip) hgrand

/-- **Sifting up** makes a heap. -/
theorem isHeap_siftUp : ∀ {fuel : ℕ} {l : List α} {pos : ℕ}, UpHeap le l pos → Orders le l → pos < l.length →
    pos ≤ fuel → IsHeap le (siftUp le fuel l pos)
  | 0, l, pos, h, _, _, hfuel => h.done (Or.inl (Nat.le_zero.mp hfuel))
  | fuel + 1, l, pos, h, ho, hlt, hfuel => by
    unfold siftUp
    split_ifs with hzero hle
    · exact h.done (Or.inl hzero)
    · exact h.done (Or.inr hle)
    · have hstep := h.exchange ho (Nat.pos_of_ne_zero hzero) hlt (Bool.eq_false_iff.mpr hle)
      exact isHeap_siftUp hstep (ho.perm (exchange_perm _ _ _)) (by rw [length_exchange]; omega) (by omega)

theorem isHeap_push {l : List α} {x : α} (h : IsHeap le l) (ho : Orders le (l ++ [x])) : IsHeap le (push le l x) := by
  have hlength : (l ++ [x]).length = l.length + 1 := by simp
  refine isHeap_siftUp ⟨fun i hi hne => ?_, fun _ i hi hch => ?_⟩ ho (by omega) le_rfl
  · by_cases hlt : i < l.length
    · have hold := h i hi
      unfold leAt at hold ⊢
      rwa [List.getElem?_append_left hlt, List.getElem?_append_left (show (i - 1) / 2 < l.length by omega)]
    · exact leAt_of_length_le (by omega) _
  · exact leAt_of_length_le (by omega) _

/-! ### Down -/

/-- A heap but for the entry at a position, its parent and its children. -/
structure DownHeap (le : α → α → Bool) (l : List α) (pos : ℕ) : Prop where
  others : ∀ i, 0 < i → i ≠ pos → (i - 1) / 2 ≠ pos → leAt le l i ((i - 1) / 2) = true
  children : 0 < pos → ∀ i, 0 < i → (i - 1) / 2 = pos → leAt le l i ((pos - 1) / 2) = true

/-- At the bottom the entry has no children. -/
theorem DownHeap.bottom {l : List α} {pos : ℕ} (h : DownHeap le l pos) (hend : l.length ≤ 2 * pos + 1) :
    UpHeap le l pos where
  others i hi hne := by
    by_cases hch : (i - 1) / 2 = pos
    · exact leAt_of_length_le (by omega) _
    · exact h.others i hi hne hch
  children := h.children

/-- One step down, to a child that is not below its sibling. -/
theorem DownHeap.exchange {l : List α} {pos child : ℕ} (h : DownHeap le l pos) (hchild : (child - 1) / 2 = pos)
    (hpos : 0 < child) (hlt : child < l.length)
    (hgreater : ∀ i, 0 < i → (i - 1) / 2 = pos → i ≠ child → leAt le l i child = true) :
    DownHeap le (exchange l pos child) child := by
  have hless : pos < child := by omega
  have hplt : pos < l.length := by omega
  constructor
  · intro i hi hne hch
    rw [leAt_exchange hplt hlt, if_neg hne, if_neg hch]
    by_cases hip : i = pos
    · subst hip
      rw [if_pos rfl, if_neg (show ¬(i - 1) / 2 = i by omega)]
      exact h.children hi child hpos hchild
    rw [if_neg hip]
    by_cases hup : (i - 1) / 2 = pos
    · rw [if_pos hup]
      exact hgreater i hi hup hne
    · rw [if_neg hup]
      exact h.others i hi hip hup
  · intro _ i hi hch
    rw [leAt_exchange hplt hlt, if_neg (show ¬i = child by omega), if_neg (show ¬i = pos by omega), hchild,
      if_neg hless.ne, if_pos rfl, ← hch]
    exact h.others i hi (by omega) (by omega)

/-- **Sinking** leaves a heap but for the entry that sank. -/
theorem upHeap_sinkToBottom : ∀ (fuel : ℕ) {l : List α} {pos : ℕ}, DownHeap le l pos → Orders le l →
    pos < l.length → l.length ≤ fuel + pos →
    UpHeap le (sinkToBottom le fuel l pos).1 (sinkToBottom le fuel l pos).2 ∧
      (sinkToBottom le fuel l pos).2 < l.length
  | 0, l, pos, _, _, hlt, hfuel => absurd hlt (by omega)
  | fuel + 1, l, pos, h, ho, hlt, hfuel => by
    unfold sinkToBottom
    split_ifs with htwo hone
    · have hcases : greaterChild le l pos = 2 * pos + 1 ∧ leAt le l (2 * pos + 2) (2 * pos + 1) = true ∨
          greaterChild le l pos = 2 * pos + 2 ∧ leAt le l (2 * pos + 1) (2 * pos + 2) = true := by
        unfold greaterChild
        split_ifs with hle
        · exact Or.inr ⟨rfl, hle⟩
        · exact Or.inl ⟨rfl, (ho.leAt_total _ _).resolve_left hle⟩
      have hstep : DownHeap le (BinaryHeap.exchange l pos (greaterChild le l pos)) (greaterChild le l pos) := by
        refine h.exchange (by omega) (by omega) (by omega) fun i hi hup hne => ?_
        rcases hcases with ⟨hgreater, hle⟩ | ⟨hgreater, hle⟩ <;> rw [hgreater] at hne ⊢
        · rwa [show i = 2 * pos + 2 by omega]
        · rwa [show i = 2 * pos + 1 by omega]
      have hrec := upHeap_sinkToBottom fuel hstep (ho.perm (exchange_perm _ _ _))
        (by rw [length_exchange]; omega) (by rw [length_exchange]; omega)
      rwa [length_exchange] at hrec
    · refine ⟨DownHeap.bottom ?_ (by rw [length_exchange]; omega), by omega⟩
      refine h.exchange (by omega) (by omega) (by omega) fun i hi hup hne => ?_
      exact leAt_of_length_le (by omega) _
    · exact ⟨h.bottom (by omega), hlt⟩

theorem isHeap_pop {l : List α} (h : IsHeap le l) (ho : Orders le l) : IsHeap le (pop le l) := by
  cases l with
  | nil => exact isHeap_nil le
  | cons m rest =>
    unfold pop
    rw [List.tail_cons]
    cases hlast : rest.getLast? with
    | none => exact isHeap_nil le
    | some last =>
      obtain ⟨init, rfl⟩ := List.getLast?_eq_some_iff.mp hlast
      rw [List.dropLast_concat]
      have hsub : last :: init ⊆ m :: (init ++ [last]) := by
        intro x hx
        rcases List.mem_cons.mp hx with rfl | hx <;> simp_all
      have horders := ho.subset hsub
      have hdown : DownHeap le (last :: init) 0 := by
        refine ⟨fun i hi hne hup => ?_, fun hpos => absurd hpos (lt_irrefl 0)⟩
        by_cases hlt : i < (last :: init).length
        · have hsame : ∀ j, 0 < j → j < (last :: init).length →
              (last :: init)[j]? = (m :: (init ++ [last]))[j]? := fun j hj hjlt => by
            obtain ⟨j, rfl⟩ := Nat.exists_eq_succ_of_ne_zero hj.ne'
            rw [List.length_cons] at hjlt
            rw [List.getElem?_cons_succ, List.getElem?_cons_succ, List.getElem?_append_left (by omega)]
          have hold := h i hi
          unfold leAt at hold ⊢
          rwa [hsame i hi hlt, hsame _ (Nat.pos_of_ne_zero hup) (by omega)]
        · exact leAt_of_length_le (Nat.le_of_not_lt hlt) _
      obtain ⟨hup, hlt⟩ := upHeap_sinkToBottom (m :: (init ++ [last])).length hdown horders
        (by simp) (by simp)
      have hperm : (sinkToBottom le (m :: (init ++ [last])).length (last :: init) 0).1.Perm (last :: init) :=
        sinkToBottom_perm _ _ _
      exact isHeap_siftUp hup (horders.perm hperm) (hperm.length_eq ▸ hlt) le_rfl

end BinaryHeap
