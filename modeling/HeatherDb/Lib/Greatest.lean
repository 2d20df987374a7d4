/-
# The greatest entries of a list

`Greatest key k p T`: `T` holds `k` entries of `p` with the greatest keys, all of
`p` when there are fewer. A bounded heap keeps it as it takes one entry after
another: an entry finds room (`Greatest.push`), replaces a least one
(`Greatest.replace`) or is left out (`Greatest.keep`).

Which of several entries with one key are kept is open; the keys, sorted, are
not (`Greatest.map_key`), and where the keys are distinct the sorted entries are not
(`Greatest.unique`). With one entry taken out, one more is needed to know the
others (`Greatest.without`). The greatest weigh most, by any weight that grows
with the key (`Greatest.sum_le`). A choice among some of the entries is one among all
exactly if nothing that was screened out would have been chosen
(`Greatest.screened_iff`).

Key definition: `Greatest`.
Key theorems: `Greatest.map_key`, `Greatest.unique`, `Greatest.sum_le`,
`Greatest.without`, `Greatest.screened_iff`.
-/
import Mathlib.Algebra.BigOperators.Group.List.Basic
import Mathlib.Algebra.Order.BigOperators.Group.List
import Mathlib.Data.Finset.Max
import Mathlib.Data.List.Sort
import Mathlib.Data.List.Perm.Basic
import Mathlib.Data.Real.Basic

variable {α κ : Type} [LinearOrder κ] {key : α → κ} {k : ℕ} {p T T' : List α} {e m : α}

/-- `T` holds `k` entries of `p` with the greatest keys. -/
structure Greatest (key : α → κ) (k : ℕ) (p T : List α) : Prop where
  length : T.length = min k p.length
  split : ∃ rest : List α, p.Perm (T ++ rest) ∧ ∀ t ∈ T, ∀ x ∈ rest, key x ≤ key t

namespace Greatest

theorem nil : Greatest key k ([] : List α) [] := ⟨by simp, [], by simp, by simp⟩

theorem subperm (h : Greatest key k p T) : T.Subperm p := by
  obtain ⟨rest, hperm, -⟩ := h.split
  exact (List.sublist_append_left T rest).subperm.trans hperm.symm.subperm

theorem mem (h : Greatest key k p T) {t : α} (ht : t ∈ T) : t ∈ p := h.subperm.subset ht

/-- An entry that is left out is not above one that is kept. -/
theorem le_of_not_mem (h : Greatest key k p T) {x t : α} (hx : x ∈ p) (hnot : x ∉ T) (ht : t ∈ T) : key x ≤ key t := by
  obtain ⟨rest, hperm, hle⟩ := h.split
  rcases List.mem_append.mp (hperm.subset hx) with hx | hx
  · exact absurd hx hnot
  · exact hle t ht x hx

/-- Entries without repetition, none below one left out. -/
theorem of_subset (hp : p.Nodup) (hT : T.Nodup) (hsub : T ⊆ p) (hlength : T.length = min k p.length)
    (hle : ∀ x ∈ p, x ∉ T → ∀ t ∈ T, key x ≤ key t) : Greatest key k p T := by
  obtain ⟨l, hl, hsublist⟩ := List.subperm_of_subset hT hsub
  obtain ⟨rest, hrest⟩ := hsublist.exists_perm_append
  have hperm : p.Perm (T ++ rest) := hrest.trans (hl.append_right rest)
  refine ⟨hlength, rest, hperm, fun t ht x hx => ?_⟩
  have hdisjoint := List.disjoint_of_nodup_append (hperm.nodup_iff.mp hp)
  exact hle x (hperm.symm.subset (List.mem_append_right T hx)) (fun hin => hdisjoint hin hx) t ht

/-- The order of the kept entries does not matter. -/
theorem perm (h : Greatest key k p T) (hperm : T.Perm T') : Greatest key k p T' := by
  obtain ⟨rest, hp, hle⟩ := h.split
  exact ⟨hperm.length_eq ▸ h.length, rest, hp.trans (hperm.append_right rest), fun t ht => hle t (hperm.symm.subset ht)⟩

/-- Only the smaller of the bound and the number of entries matters. -/
theorem congr {k' : ℕ} (h : Greatest key k p T) (hk : min k p.length = min k' p.length) : Greatest key k' p T :=
  ⟨h.length.trans hk, h.split⟩

/-- The first of all entries, sorted. -/
theorem of_sorted {l : List α} (hperm : l.Perm p) (hsorted : l.Pairwise fun a b => key b ≤ key a) :
    Greatest key k p (l.take k) := by
  refine ⟨by rw [List.length_take, hperm.length_eq], l.drop k, ?_, fun t ht x hx => ?_⟩
  · rw [List.take_append_drop]
    exact hperm.symm
  · rw [← List.take_append_drop k l] at hsorted
    exact (List.pairwise_append.mp hsorted).2.2 t ht x hx

/-- The order of the entries does not matter. -/
theorem of_perm {p' : List α} (h : Greatest key k p T) (hperm : p.Perm p') : Greatest key k p' T := by
  obtain ⟨rest, hsplit, hle⟩ := h.split
  exact ⟨hperm.length_eq ▸ h.length, rest, hperm.symm.trans hsplit, hle⟩

/-- All entries are the greatest when there is room for them. -/
theorem refl (h : p.length ≤ k) : Greatest key k p p := ⟨(Nat.min_eq_right h).symm, [], by simp, by simp⟩

/-! ### One more entry -/

/-- With room left there is nothing left out. -/
theorem push (h : Greatest key k p T) (hroom : T.length < k) : Greatest key k (p ++ [e]) (T ++ [e]) := by
  obtain ⟨rest, hperm, -⟩ := h.split
  have hlength := h.length
  have htotal := hperm.length_eq
  rw [List.length_append] at htotal
  obtain rfl : rest = [] := List.length_eq_zero_iff.mp (by omega)
  rw [List.append_nil] at hperm
  refine ⟨?_, [], ?_, by simp⟩
  · rw [List.length_append, List.length_append, List.length_singleton, h.length]
    omega
  · rw [List.append_nil]
    exact hperm.append_right [e]

/-- An entry above a least one takes its place. -/
theorem replace (h : Greatest key k p T) (hfull : k ≤ T.length) (hT : T.Perm (m :: T'))
    (hleast : ∀ t ∈ T, key m ≤ key t)
    (hmore : key m < key e) : Greatest key k (p ++ [e]) (T' ++ [e]) := by
  obtain ⟨rest, hperm, hle⟩ := h.split
  have hlength := h.length
  have hT' := hT.length_eq
  rw [List.length_cons] at hT'
  refine ⟨?_, m :: rest, ?_, fun t ht x hx => ?_⟩
  · rw [List.length_append, List.length_append, List.length_singleton]
    omega
  · calc (p ++ [e]).Perm (T ++ rest ++ [e]) := hperm.append_right [e]
      _ |>.Perm (m :: T' ++ rest ++ [e]) := (hT.append_right rest).append_right [e]
      _ |>.Perm (m :: (T' ++ [e] ++ rest)) := by
        rw [List.cons_append, List.cons_append, List.append_assoc, List.append_assoc]
        exact ((List.perm_append_comm).append_left T').cons m
      _ |>.Perm (T' ++ [e] ++ m :: rest) := List.perm_middle.symm
  · have hm : m ∈ T := hT.symm.subset List.mem_cons_self
    have hmx : key x ≤ key m := by
      rcases List.mem_cons.mp hx with rfl | hx
      · exact le_rfl
      · exact hle m hm x hx
    rcases List.mem_append.mp ht with ht | ht
    · exact hmx.trans (hleast t (hT.symm.subset (List.mem_cons_of_mem m ht)))
    · obtain rfl := List.mem_singleton.mp ht
      exact hmx.trans hmore.le

/-- An entry not above any of a full heap is left out. -/
theorem keep (h : Greatest key k p T) (hfull : k ≤ T.length) (hle : ∀ t ∈ T, key e ≤ key t) :
    Greatest key k (p ++ [e]) T := by
  obtain ⟨rest, hperm, hrest⟩ := h.split
  have hlength := h.length
  refine ⟨?_, rest ++ [e], ?_, fun t ht x hx => ?_⟩
  · rw [List.length_append, List.length_singleton]
    omega
  · rw [← List.append_assoc]
    exact hperm.append_right [e]
  · rcases List.mem_append.mp hx with hx | hx
    · exact hrest t ht x hx
    · obtain rfl := List.mem_singleton.mp hx
      exact hle t ht

/-! ### What is open and what is not -/

/-- **The keys of the greatest entries, sorted,** are the first of the sorted
keys. -/
theorem map_key (h : Greatest key k p T) (hsorted : T.Pairwise fun a b => key b ≤ key a) :
    T.map key = ((p.map key).insertionSort (· ≥ ·)).take k := by
  obtain ⟨rest, hperm, hle⟩ := h.split
  have hall : (T.map key ++ (rest.map key).insertionSort (· ≥ ·)).Pairwise (· ≥ ·) := by
    refine List.pairwise_append.mpr ⟨List.pairwise_map.mpr hsorted, List.pairwise_insertionSort _ _,
      fun a ha b hb => ?_⟩
    obtain ⟨t, ht, rfl⟩ := List.mem_map.mp ha
    obtain ⟨x, hx, rfl⟩ := List.mem_map.mp ((List.mem_insertionSort _).mp hb)
    exact hle t ht x hx
  have hsame : (p.map key).insertionSort (· ≥ ·) = T.map key ++ (rest.map key).insertionSort (· ≥ ·) := by
    refine List.Perm.eq_of_pairwise ?_ (List.pairwise_insertionSort _ _) hall ?_
    · exact fun a b _ _ hab hba => le_antisymm hba hab
    · calc ((p.map key).insertionSort (· ≥ ·)).Perm (p.map key) := List.perm_insertionSort _ _
        _ |>.Perm (T.map key ++ rest.map key) := (hperm.map key).trans (by rw [List.map_append])
        _ |>.Perm _ := (List.perm_insertionSort _ _).symm.append_left _
  rw [hsame]
  have hlength := h.length
  by_cases hfull : k ≤ p.length
  · rw [List.take_left' (by rw [List.length_map, h.length, Nat.min_eq_left hfull])]
  · have htotal := hperm.length_eq
    rw [List.length_append] at htotal
    obtain rfl : rest = [] := List.length_eq_zero_iff.mp (by omega)
    rw [List.map_nil, List.insertionSort_nil, List.append_nil, List.take_of_length_le]
    rw [List.length_map]
    omega

/-- **The greatest entries, sorted, are no choice** where keys are distinct. -/
theorem unique (h : Greatest key k p T) (h' : Greatest key k p T') (hinj : ∀ a ∈ p, ∀ b ∈ p, key a = key b → a = b)
    (hsorted : T.Pairwise fun a b => key b ≤ key a) (hsorted' : T'.Pairwise fun a b => key b ≤ key a) : T = T' := by
  have hkeys : T.map key = T'.map key := (h.map_key hsorted).trans (h'.map_key hsorted').symm
  have hlength : T.length = T'.length := h.length.trans h'.length.symm
  refine List.ext_getElem hlength fun i hi hi' => ?_
  refine hinj _ (h.mem (List.getElem_mem hi)) _ (h'.mem (List.getElem_mem hi')) ?_
  have hat := congrArg (·[i]?) hkeys
  simpa [hi, hi'] using hat

/-- **The greatest entries weigh most**: no others, and no more of them, have a
greater sum of what grows with the key. -/
theorem sum_le (h : Greatest key k p T) {J : List α} (hsub : J.Subperm p) (hfew : J.length ≤ T.length) {f : α → ℝ}
    (hmono : ∀ a b, key a ≤ key b → f a ≤ f b) (hpos : ∀ a, 0 ≤ f a) : (J.map f).sum ≤ (T.map f).sum := by
  classical
  by_cases hT : T = []
  · rw [hT, List.length_nil, Nat.le_zero, List.length_eq_zero_iff] at hfew
    rw [hT, hfew]
  obtain ⟨rest, hperm, hle⟩ := h.split
  obtain ⟨t, ht, hleast⟩ := T.toFinset.exists_min_image f ((List.toFinset_nonempty_iff T).mpr hT)
  rw [List.mem_toFinset] at ht
  -- what an entry weighs above the least one that is kept
  set above : α → ℝ := fun a => max (f a - f t) 0
  have hall : (p.map above).sum = (T.map above).sum := by
    have hrest : (rest.map above).sum = 0 := List.sum_eq_zero fun x hx => by
      obtain ⟨a, ha, rfl⟩ := List.mem_map.mp hx
      exact max_eq_right (sub_nonpos.mpr (hmono a t (hle t ht a ha)))
    rw [(hperm.map above).sum_eq, List.map_append, List.sum_append, hrest, add_zero]
  have hkept : (T.map f).sum = (T.map above).sum + T.length • f t := by
    have hsplit : T.map f = T.map fun a => above a + f t := List.map_congr_left fun a ha => by
      have hmore := hleast a (List.mem_toFinset.mpr ha)
      show f a = max (f a - f t) 0 + f t
      rw [max_eq_left (sub_nonneg.mpr hmore), sub_add_cancel]
    rw [hsplit, List.sum_map_add, List.map_const', List.sum_replicate]
  have habove : (J.map above).sum ≤ (p.map above).sum := by
    obtain ⟨l, hl, hsublist⟩ := hsub
    rw [← (hl.map above).sum_eq]
    refine (hsublist.map above).sum_le_sum fun x hx => ?_
    obtain ⟨a, -, rfl⟩ := List.mem_map.mp hx
    exact le_max_right _ _
  calc (J.map f).sum ≤ (J.map fun a => above a + f t).sum :=
        List.sum_le_sum fun a _ => sub_le_iff_le_add.mp (le_max_left _ _)
    _ = (J.map above).sum + J.length • f t := by
        rw [List.sum_map_add, List.map_const', List.sum_replicate]
    _ ≤ (T.map above).sum + T.length • f t := add_le_add (habove.trans_eq hall) (nsmul_le_nsmul_left (hpos t) hfew)
    _ = (T.map f).sum := hkept.symm

/-- **One more entry than needed** is enough to do without one of them. -/
theorem without (h : Greatest key (k + 1) p T) (hsorted : T.Pairwise fun a b => key b ≤ key a) {f : α → Bool}
    (hone : p.countP (fun a => !f a) ≤ 1) : Greatest key k (p.filter f) ((T.filter f).take k) := by
  obtain ⟨rest, hperm, hle⟩ := h.split
  have hlength := h.length
  have htotal := hperm.length_eq
  rw [List.length_append] at htotal
  have hkept : (p.filter f).length = (T.filter f).length + (rest.filter f).length := by
    rw [(hperm.filter f).length_eq, List.filter_append, List.length_append]
  -- of T at most one entry goes
  have hgone : T.length ≤ (T.filter f).length + 1 := by
    have hcount := List.length_eq_countP_add_countP f (l := T)
    have hsub := hperm.countP_eq fun a => !f a
    rw [List.countP_append] at hsub
    rw [List.countP_eq_length_filter] at hcount
    have hsame : T.countP (fun a => ¬f a = true) = T.countP fun a => !f a := List.countP_congr (by simp)
    omega
  have hsplit := List.take_append_drop k (T.filter f)
  refine ⟨?_, (T.filter f).drop k ++ rest.filter f, ?_, fun t ht x hx => ?_⟩
  · rw [List.length_take]
    by_cases hfull : k + 1 ≤ p.length
    · omega
    · have hnone : rest = [] := List.length_eq_zero_iff.mp (by omega)
      rw [hnone, List.filter_nil, List.length_nil] at hkept
      omega
  · rw [← List.append_assoc, hsplit, ← List.filter_append]
    exact hperm.filter f
  · rcases List.mem_append.mp hx with hx | hx
    · have hpair := hsorted.filter f
      rw [← hsplit] at hpair
      exact (List.pairwise_append.mp hpair).2.2 t ht x hx
    · exact hle t (List.mem_of_mem_filter (List.mem_of_mem_take ht)) x (List.mem_of_mem_filter hx)

/-- **The greatest of some entries** are the greatest of all exactly if each of
the others has `k` of these entries not below it. -/
theorem screened_iff {c rest : List α} (h : Greatest key k c T) (hp : p.Perm (c ++ rest)) :
    Greatest key k p T ↔ ∀ x ∈ rest, k ≤ c.countP fun y => key x ≤ key y := by
  obtain ⟨out, hc, hout⟩ := h.split
  have hall : p.Perm (T ++ (out ++ rest)) := by
    rw [← List.append_assoc]
    exact hp.trans (hc.append_right rest)
  have hlength := h.length
  have htotal := hp.length_eq
  rw [List.length_append] at htotal
  constructor
  · intro hG x hx
    obtain ⟨out', hp', hout'⟩ := hG.split
    have hlength' := hG.length
    have hmem : x ∈ out' := by
      have hrest := (List.perm_append_left_iff T).mp (hall.symm.trans hp')
      exact hrest.subset (List.mem_append_right out hx)
    have hsome := List.length_pos_of_mem hx
    calc k = T.length := by omega
      _ = T.countP fun y => key x ≤ key y :=
        (List.countP_eq_length.mpr fun t ht => decide_eq_true (hout' t ht x hmem)).symm
      _ ≤ (T ++ out).countP fun y => key x ≤ key y := (List.sublist_append_left T out).countP_le
      _ = c.countP fun y => key x ≤ key y := (hc.countP_eq _).symm
  · intro hmany
    rcases rest.eq_nil_or_concat with rfl | ⟨_, y, hy⟩
    · rw [List.append_nil] at hp
      exact h.of_perm hp.symm
    have hfull : k ≤ c.length := (hmany y (by simp [hy])).trans List.countP_le_length
    refine ⟨by omega, out ++ rest, hall, fun t ht x hx => ?_⟩
    rcases List.mem_append.mp hx with hx | hx
    · exact hout t ht x hx
    · -- were `t` below `x`, fewer than `k` entries would not be
      by_contra hless
      rw [not_le] at hless
      have hnone : out.countP (fun y => key x ≤ key y) = 0 :=
        List.countP_eq_zero.mpr fun y hy => by simpa using (hout t ht y hy).trans_lt hless
      have hfew : (T.countP fun y => key x ≤ key y) < T.length :=
        lt_of_le_of_ne List.countP_le_length fun heq => by
          have hle := List.countP_eq_length.mp heq t ht
          exact absurd (of_decide_eq_true hle) (not_le.mpr hless)
      have hcount := hmany x hx
      rw [hc.countP_eq, List.countP_append, hnone] at hcount
      omega

end Greatest
