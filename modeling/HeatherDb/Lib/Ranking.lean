/-
# The first entries of a ranking

A stable sort by a relation `above`, cut after `n` entries (`top`). Entries
that are not ranked, as what is not a number, stand above and below nothing.

What comes first in a sorted list is known by how many stand above it, so the
first `n` are the same for every order of the input if none of them is tied
with another (`top_perm`). Two tied entries of which one belongs there are
told apart by which comes first in the input (`top_ne`).

Key definitions: `top`, `Tied`, `Ranks`.
Key theorems: `top_perm`, `top_ne`.
-/
import Mathlib.Data.List.Sort
import Mathlib.Data.List.Perm.Basic
import Mathlib.Data.List.TakeWhile

namespace Ranking

variable {α : Type} {above : α → α → Prop} [DecidableRel above] {ranked : α → Prop} {n : ℕ}

/-- The first `n` entries, sorted stably. -/
def top (above : α → α → Prop) [DecidableRel above] (n : ℕ) (l : List α) : List α :=
  (l.insertionSort fun a b => ¬above b a).take n

/-- Neither stands above the other. -/
def Tied (above : α → α → Prop) (a b : α) : Prop := ¬above a b ∧ ¬above b a

/-- A strict weak order on what is ranked. -/
structure Ranks (above : α → α → Prop) (ranked : α → Prop) : Prop where
  irrefl : ∀ a, ¬above a a
  trans : ∀ {a b c}, above a b → above b c → above a c
  left : ∀ {a b}, above a b → ranked a
  right : ∀ {a b}, above a b → ranked b
  split : ∀ {a b c}, above a c → ranked b → above a b ∨ above b c

namespace Ranks

variable (h : Ranks above ranked)

include h

omit [DecidableRel above] in
theorem asymm {a b : α} (hab : above a b) : ¬above b a := fun hba => h.irrefl a (h.trans hab hba)

/-- The sort of ranked entries is descending. -/
theorem pairwise_sort {l : List α} (hl : ∀ a ∈ l, ranked a) :
    (l.insertionSort fun a b => ¬above b a).Pairwise fun a b => ¬above b a := by
  classical
  -- the relation is made total and transitive: what is not ranked comes last
  have hsame : (l.insertionSort fun a b => ¬above b a).map id =
      (l.map id).insertionSort fun a b => ranked b → ranked a ∧ ¬above b a :=
    List.map_insertionSort _ _ _ _ fun a ha b _ =>
      ⟨fun hab _ => ⟨hl a ha, hab⟩, fun hab hba => (hab (h.left hba)).2 hba⟩
  have : Std.Total fun a b : α => ranked b → ranked a ∧ ¬above b a := by
    refine ⟨fun a b => ?_⟩
    by_cases ha : ranked a
    · by_cases hab : above b a
      · exact Or.inr fun _ => ⟨h.left hab, h.asymm hab⟩
      · exact Or.inl fun _ => ⟨ha, hab⟩
    · exact Or.inr fun ha' => absurd ha' ha
  have : IsTrans α fun a b => ranked b → ranked a ∧ ¬above b a := by
    refine ⟨fun a b c hab hbc hc => ?_⟩
    obtain ⟨hb, hcb⟩ := hbc hc
    obtain ⟨ha, hba⟩ := hab hb
    exact ⟨ha, fun hca => (h.split hca hb).elim hcb hba⟩
  rw [List.map_id, List.map_id] at hsame
  have hsorted := List.pairwise_insertionSort (fun a b => ranked b → ranked a ∧ ¬above b a) l
  rw [← hsame] at hsorted
  refine hsorted.imp_of_mem fun {a b} _ hb hab => ?_
  exact (hab (hl b ((List.mem_insertionSort _).mp hb))).2

/-- What stands at a place that is tied with nobody has just the entries before
it above it. -/
theorem countP_getElem {l : List α} (hl : ∀ a ∈ l, ranked a) (hnodup : l.Nodup)
    (huntied : ∀ a ∈ l, ∀ b ∈ l, a ≠ b → Tied above a b → n ≤ l.countP (above · a)) {i : ℕ} (hi : i < n)
    (hlt : i < (l.insertionSort fun a b => ¬above b a).length) :
    l.countP (above · (l.insertionSort fun a b => ¬above b a)[i]) = i := by
  set sorted := l.insertionSort fun a b => ¬above b a with hsorted
  have hperm : sorted.Perm l := List.perm_insertionSort _ l
  have hpairs : sorted.Pairwise fun a b => ¬above b a := h.pairwise_sort hl
  have hdistinct : sorted.Nodup := hperm.nodup_iff.mpr hnodup
  have hafter : (sorted.drop i).countP (above · sorted[i]) = 0 := by
    rw [List.countP_eq_zero]
    intro b hb
    obtain ⟨j, hj, rfl⟩ := List.getElem_of_mem hb
    rw [List.getElem_drop, decide_eq_true_iff]
    rcases Nat.eq_zero_or_pos j with rfl | hpos
    · exact h.irrefl _
    · exact List.pairwise_iff_getElem.mp hpairs i (i + j) hlt _ (by omega)
  have hbefore : (sorted.take i).countP (above · sorted[i]) ≤ i :=
    List.countP_le_length.trans (by rw [List.length_take]; omega)
  have hsplit : ∀ p : α → Bool, l.countP p = (sorted.take i).countP p + (sorted.drop i).countP p := by
    intro p
    rw [← List.countP_append, List.take_append_drop, hperm.countP_eq]
  rw [hsplit, hafter, Nat.add_zero]
  refine le_antisymm hbefore ?_
  -- all before it are above it: a tie would need `n` of these
  have hall : ∀ a ∈ sorted.take i, above a sorted[i] := by
    intro a ha
    obtain ⟨j, hj, rfl⟩ := List.getElem_of_mem ha
    rw [List.length_take] at hj
    rw [List.getElem_take]
    have hji : j < i := by omega
    by_contra hnot
    have htied : Tied above sorted[i] sorted[j] := ⟨List.pairwise_iff_getElem.mp hpairs j i _ hlt hji, hnot⟩
    have hne : sorted[i] ≠ sorted[j] := fun heq => by
      have hij := (List.Nodup.getElem_inj_iff hdistinct).mp heq
      omega
    have hmany := huntied _ (hperm.subset (List.getElem_mem hlt)) _ (hperm.subset (List.getElem_mem _)) hne htied
    rw [hsplit, hafter] at hmany
    omega
  rw [List.countP_eq_length.mpr fun a ha => decide_eq_true (hall a ha), List.length_take]
  omega

/-- More stand above what is lower. -/
theorem countP_lt {l : List α} {a b : α} (ha : a ∈ l) (hab : above a b) :
    l.countP (above · a) < l.countP (above · b) := by
  obtain ⟨l₁, l₂, rfl⟩ := List.append_of_mem ha
  have hmono : ∀ l' : List α, l'.countP (above · a) ≤ l'.countP (above · b) := fun l' =>
    List.countP_mono_left fun c _ hca => decide_eq_true (h.trans (of_decide_eq_true hca) hab)
  have h₁ := hmono l₁
  have h₂ := hmono l₂
  rw [List.countP_append, List.countP_append, List.countP_cons_of_neg (by simpa using h.irrefl a),
    List.countP_cons_of_pos (by simpa using hab)]
  omega

/-- **Untied entries come first in any order** of the input. -/
theorem top_perm {l l' : List α} (hperm : l'.Perm l) (hnodup : l.Nodup)
    (huntied : ∀ a ∈ l, ∀ b ∈ l, a ≠ b → Tied above a b → n ≤ l.countP (above · a)) :
    top above n l' = top above n l := by
  by_cases hl : ∀ a ∈ l, ranked a
  · have hcount : ∀ a, l'.countP (above · a) = l.countP (above · a) := fun a => hperm.countP_eq _
    have huntied' : ∀ a ∈ l', ∀ b ∈ l', a ≠ b → Tied above a b → n ≤ l'.countP (above · a) := fun a ha b hb =>
      hcount a ▸ huntied a (hperm.subset ha) b (hperm.subset hb)
    have hlength : (top above n l').length = (top above n l).length := by
      simp [top, hperm.length_eq]
    refine List.ext_getElem hlength fun i hi' hi => ?_
    simp only [top, List.length_take, List.length_insertionSort] at hi hi'
    have hplace := h.countP_getElem hl hnodup huntied (i := i) (by omega) (by simp; omega)
    have hplace' := h.countP_getElem (fun a ha => hl a (hperm.subset ha)) (hperm.nodup_iff.mpr hnodup) huntied'
      (i := i) (by omega) (by simp; omega)
    rw [hcount] at hplace'
    simp only [top, List.getElem_take]
    have hbound : i < (l'.insertionSort fun a b => ¬above b a).length := by simp; omega
    have hbound' : i < (l.insertionSort fun a b => ¬above b a).length := by simp; omega
    set x := (l'.insertionSort fun a b => ¬above b a)[i] with hx
    set y := (l.insertionSort fun a b => ¬above b a)[i] with hy
    have hxl : x ∈ l := hperm.subset ((List.mem_insertionSort _).mp (List.getElem_mem _))
    have hyl : y ∈ l := (List.mem_insertionSort _).mp (List.getElem_mem _)
    -- as many stand above the one as above the other
    by_contra hne
    have hnot : ¬Tied above x y := fun htied => by
      have hmany := huntied x hxl y hyl hne htied
      omega
    rcases Classical.or_iff_not_imp_left.mpr fun hxy => Classical.not_not.mp fun hyx => hnot ⟨hxy, hyx⟩ with hxy | hyx
    · have hless := h.countP_lt hxl hxy
      omega
    · have hless := h.countP_lt hyl hyx
      omega
  · -- what is not ranked is tied with all others, with nothing above it
    push Not at hl
    obtain ⟨a, ha, hunranked⟩ := hl
    have hzero : l.countP (above · a) = 0 :=
      List.countP_eq_zero.mpr fun b _ hba => hunranked (h.right (of_decide_eq_true hba))
    by_cases hothers : ∃ b ∈ l, a ≠ b
    · obtain ⟨b, hb, hne⟩ := hothers
      have hnone := huntied a ha b hb hne ⟨fun hab => hunranked (h.left hab), fun hba => hunranked (h.right hba)⟩
      obtain rfl : n = 0 := by omega
      rfl
    · push Not at hothers
      have hsingle : l = [a] := by
        match l, hnodup, hothers with
        | [], _, _ => cases ha
        | [x], _, hsame => rw [hsame x List.mem_cons_self]
        | x :: y :: _, hdistinct, hsame =>
          have hxy : x = y := (hsame x List.mem_cons_self).symm.trans (hsame y (by simp))
          exact absurd (by simp [hxy]) (List.nodup_cons.mp hdistinct).1
      subst hsingle
      rw [List.perm_singleton.mp hperm]

/-- **Tied entries come first as they come in**, if one of them belongs there. -/
theorem top_ne {a b : α} (hne : a ≠ b) (htied : Tied above a b) (rest : List α)
    (hplace : rest.countP (above · a) < n) : top above n (a :: b :: rest) ≠ top above n (b :: a :: rest) := by
  have hinsert : ∀ (c : α) (l : List α), l.orderedInsert (fun a b => ¬above b a) c =
      l.takeWhile (above · c) ++ c :: l.dropWhile (above · c) := by
    intro c l
    rw [List.orderedInsert_eq_take_drop]
    simp only [not_not]
  have hunranked : ∀ {c : α} (l : List α), ¬ranked c → l.orderedInsert (fun a b => ¬above b a) c = c :: l := by
    intro c l hc
    cases l with
    | nil => rfl
    | cons x l => exact List.orderedInsert_cons_of_le _ l fun hxc => hc (h.right hxc)
  have hstart : ∃ T X Y : List α, T.length < n ∧
      (a :: b :: rest).insertionSort (fun a b => ¬above b a) = T ++ a :: X ∧
      (b :: a :: rest).insertionSort (fun a b => ¬above b a) = T ++ b :: Y := by
    simp only [List.insertionSort_cons]
    set sorted := rest.insertionSort fun a b => ¬above b a with hsorted
    by_cases ha : ranked a
    · by_cases hb : ranked b
      · have hsame : ∀ c, above c a ↔ above c b := fun c =>
          ⟨fun hca => (h.split hca hb).resolve_right htied.2, fun hcb => (h.split hcb ha).resolve_right htied.1⟩
        have hsame' : (fun c => decide (above c b)) = fun c => decide (above c a) :=
          funext fun c => decide_eq_decide.mpr (hsame c).symm
        have hpast : ∀ c ∈ sorted.takeWhile (above · a), decide (above c a) = true := fun c => List.mem_takeWhile_imp
        refine ⟨sorted.takeWhile (above · a), b :: sorted.dropWhile (above · a), a :: sorted.dropWhile (above · a),
          ?_, ?_, ?_⟩
        · have hperm : sorted.Perm rest := List.perm_insertionSort _ rest
          rw [← hperm.countP_eq] at hplace
          refine lt_of_le_of_lt ?_ hplace
          rw [← List.countP_eq_length.mpr hpast]
          exact (List.takeWhile_sublist _).countP_le
        · rw [hinsert b, hinsert a, hsame', List.takeWhile_append_of_pos hpast, List.dropWhile_append_of_pos hpast,
            List.takeWhile_cons_of_neg (by simpa using htied.2), List.dropWhile_cons_of_neg (by simpa using htied.2),
            List.append_nil]
        · rw [hinsert a, hinsert b, hsame', List.takeWhile_append_of_pos hpast, List.dropWhile_append_of_pos hpast,
            List.takeWhile_cons_of_neg (by simpa using h.irrefl a),
            List.dropWhile_cons_of_neg (by simpa using h.irrefl a), List.append_nil]
      · rw [hunranked sorted hb, hunranked _ hb, List.orderedInsert_cons_of_le _ _ htied.2]
        exact ⟨[], _, _, Nat.zero_lt_of_lt hplace, rfl, rfl⟩
    · rw [hunranked sorted ha, hunranked _ ha, List.orderedInsert_cons_of_le _ _ htied.1]
      exact ⟨[], _, _, Nat.zero_lt_of_lt hplace, rfl, rfl⟩
  obtain ⟨T, X, Y, hlength, hX, hY⟩ := hstart
  intro heq
  rw [top, top, hX, hY] at heq
  have hat := congrArg (·[T.length]?) heq
  simp [hlength] at hat
  exact hne hat

end Ranks

end Ranking
