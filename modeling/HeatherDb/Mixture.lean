/-
# Attention in exact arithmetic

An attention read that activates all locations is a mixture of their counters:
every location weighs `writeCount * exp (scale * dot)` (`mass`), and its value
`counter / writeCount` times that weight is `exp (scale * dot)` times its
counter (`moment`), so that the result is the sum of the moments over the sum
of the masses (`attention_eq`), in whatever order the activation found them.

The maximum that `softmax` subtracts cancels (`softmax_eq`), so that it does not
matter what stands for `f64::NEG_INFINITY` in a format without it.

Key definitions: `mass`, `moment`, the instances `Exponential ℝ` and `Rounded ℝ`.
Key theorems: `softmax_eq`, `vec_weightedSum`, `attend_eq`, `attention_eq`.
-/
import HeatherDb.Prefilter
import HeatherDb.Reals

namespace HeatherDb

open Scalar

noncomputable instance : Exponential ℝ where
  exp := Real.exp
  negInf := 0

noncomputable instance : Rounded ℝ where
  val := id
  lt_iff _ _ := lt_real
  rnd := id
  finite _ := rfl
  le_iff := le_real
  rnd_mono := monotone_id
  rnd_val _ := rfl
  val_sub _ _ := rfl
  val_double x := by
    show ((2 : ℚ) : ℝ) * x = 2 * x
    norm_num
  trans :=
    { eq_swap := by
        intro a b
        show (if a < b then Ordering.lt else if a = b then .eq else .gt) =
          (if b < a then Ordering.lt else if b = a then .eq else .gt).swap
        rcases lt_trichotomy a b with h | h | h
        · simp [h, h.not_gt, h.ne']
        · simp [h]
        · simp [h, h.not_gt, h.ne']
      isLE_trans := by
        have hle : ∀ {a b : ℝ}, (totalCmp a b).isLE = true ↔ a ≤ b := by
          intro a b
          show (if a < b then Ordering.lt else if a = b then .eq else .gt).isLE = true ↔ a ≤ b
          rcases lt_trichotomy a b with h | h | h
          · simp [h, h.le]
          · simp [h]
          · simp [h.not_gt, h.ne', h]
        intro a b c hab hbc
        exact hle.mpr ((hle.mp hab).trans (hle.mp hbc)) }
  totalCmp_of_lt h := if_pos h

instance : Widens ℝ ℝ := ⟨fun _ => rfl⟩

/-! ### Softmax and weighted sums -/

/-- **The greatest value cancels.** -/
theorem softmax_eq (values : List ℝ) (beta : ℝ) :
    softmax values beta =
      values.map fun x => Real.exp (x * beta) / (values.map fun y => Real.exp (y * beta)).sum := by
  cases values with
  | nil => rfl
  | cons x values =>
    unfold softmax
    rw [List.isEmpty_cons, if_neg Bool.false_ne_true]
    generalize x :: values = l
    set m := l.foldl fmax Exponential.negInf
    have hshift : (l.map fun y => Real.exp ((y - m) * beta)) =
        (l.map fun y => Real.exp (y * beta)).map (· * Real.exp (-m * beta)) := by
      rw [List.map_map]
      refine List.map_congr_left fun y _ => ?_
      rw [Function.comp_apply, ← Real.exp_add, sub_eq_add_neg, add_mul]
    have hne : Real.exp (-m * beta) ≠ 0 := (Real.exp_pos _).ne'
    show (l.map fun y => Real.exp ((y - m) * beta)).map
      (· / sum (l.map fun y => Real.exp ((y - m) * beta))) = _
    rw [sum_real, hshift, List.sum_map_mul_right, List.map_id', List.map_map, List.map_map]
    exact List.map_congr_left fun y _ => mul_div_mul_right _ _ hne

variable {d : ℕ}

/-- A weighted sum of points. -/
theorem vec_weightedSum {ι : Type} (f : ι → List ℝ) (g : ι → ℝ) {is : List ι} (hf : ∀ i ∈ is, (f i).length = d) :
    vec d (weightedSum (is.map f) (is.map g)) = (is.map fun i => g i • vec d (f i)).sum ∧
      (weightedSum (is.map f) (is.map g)).length = if is = [] then 0 else d := by
  have hfold : ∀ (is : List ι) (v : List ℝ), (∀ i ∈ is, (f i).length = d) → v.length = d →
      vec d (((is.map f).zip (is.map g)).foldl (fun result p => addScaled result p.1 p.2) v) =
        vec d v + (is.map fun i => g i • vec d (f i)).sum ∧
      (((is.map f).zip (is.map g)).foldl (fun result p => addScaled result p.1 p.2) v).length = d := by
    intro is
    induction is with
    | nil =>
      intro v _ hv
      simpa using hv
    | cons i is ih =>
      intro v hf hv
      have hi := hf i List.mem_cons_self
      obtain ⟨hvec, hlength⟩ := ih (addScaled v (f i) (g i)) (fun j hj => hf j (List.mem_cons_of_mem i hj))
        ((length_addScaled _ _ _).trans hv)
      rw [List.map_cons, List.map_cons, List.zip_cons_cons, List.foldl_cons, List.map_cons, List.sum_cons]
      refine ⟨?_, hlength⟩
      rw [hvec, vec_addScaled hv hi, add_assoc]
  cases is with
  | nil =>
    refine ⟨?_, rfl⟩
    ext i
    simp [weightedSum]
  | cons i is =>
    have hi := hf i List.mem_cons_self
    have hsame : weightedSum ((i :: is).map f) ((i :: is).map g) =
        (((i :: is).map f).zip ((i :: is).map g)).foldl (fun result p => addScaled result p.1 p.2)
          (List.replicate d 0) := by
      show List.foldl _ (List.replicate (f i).length (lit 0)) _ = _
      rw [hi, lit_real, Rat.cast_zero]
    obtain ⟨hvec, hlength⟩ := hfold (i :: is) (List.replicate d 0) hf (by simp)
    rw [vec_replicate_zero, zero_add] at hvec
    rw [hsame, if_neg (List.cons_ne_nil i is)]
    exact ⟨hvec, hlength⟩

/-! ### The mixture -/

/-- The weight of a location in a read of all. -/
noncomputable def mass (query : List ℝ) (scale : ℝ) (loc : HardLocation ℝ) : ℝ :=
  loc.writeCount * Real.exp (scale * dot query loc.address)

/-- The part of a location in a read of all. -/
noncomputable def moment (d : ℕ) (query : List ℝ) (scale : ℝ) (loc : HardLocation ℝ) : EuclideanSpace ℝ (Fin d) :=
  Real.exp (scale * dot query loc.address) • vec d loc.counter

theorem mass_pos {query : List ℝ} {scale : ℝ} {loc : HardLocation ℝ} (h : 1 ≤ loc.writeCount) :
    0 < mass query scale loc := mul_pos (one_pos.trans_le h) (Real.exp_pos _)

/-- A location's value times its weight. -/
theorem mass_smul_pattern (query : List ℝ) (scale : ℝ) {loc : HardLocation ℝ} (hd : loc.counter.length = d)
    (h : 1 ≤ loc.writeCount) :
    mass query scale loc • vec d loc.normalizedPattern = moment d query scale loc ∧
      loc.normalizedPattern.length = d := by
  have hpos : 0 < loc.writeCount := one_pos.trans_le h
  have habs : lt (fabs loc.writeCount) (lit (1 / 10 ^ 12)) = false := by
    rw [Bool.eq_false_iff, ne_eq, lit_tiny, lt_real, fabs, lit_real, Rat.cast_zero,
      if_neg (mt lt_real.mp hpos.not_gt), not_lt]
    exact tiny_lt_one.le.trans h
  have hpattern : loc.normalizedPattern = loc.counter.map (· / loc.writeCount) := by
    rw [HardLocation.normalizedPattern, habs, if_neg Bool.false_ne_true]
  refine ⟨?_, by rw [hpattern, List.length_map, hd]⟩
  have hvec : vec d (loc.counter.map (· / loc.writeCount)) = loc.writeCount⁻¹ • vec d loc.counter :=
    vec_map (fun x => div_eq_inv_mul x _) hd
  rw [hpattern, hvec, smul_smul, mass, moment, mul_right_comm, mul_inv_cancel₀ hpos.ne', one_mul]

/-- **The read over these locations** is their mixture. -/
theorem attend_eq {locations : List (HardLocation ℝ)} (query : List ℝ) (scale : ℝ) {indices : List ℕ}
    (hd : ∀ i ∈ indices, (locationAt locations i).counter.length = d)
    (hcount : ∀ i ∈ indices, 1 ≤ (locationAt locations i).writeCount) :
    vec d (attend locations query scale indices).result =
        ((indices.map fun i => mass query scale (locationAt locations i)).sum)⁻¹ •
          (indices.map fun i => moment d query scale (locationAt locations i)).sum ∧
      (attend locations query scale indices).result.length = if indices = [] then 0 else d := by
  set total := (indices.map fun i => mass query scale (locationAt locations i)).sum with htotal
  have hexp : ∀ i ∈ indices, Real.exp (scale * dot query (locationAt locations i).address +
      Real.log (max (locationAt locations i).writeCount 0)) = mass query scale (locationAt locations i) := by
    intro i hi
    have hpos : 0 < (locationAt locations i).writeCount := one_pos.trans_le (hcount i hi)
    rw [max_eq_left hpos.le, Real.exp_add, Real.exp_log hpos, mass, mul_comm]
  have halpha : softmax (indices.map fun i => scale * dot query (locationAt locations i).address +
      ln (fmax (locationAt locations i).writeCount (lit 0))) (lit 1) =
      indices.map fun i => mass query scale (locationAt locations i) / total := by
    have hall : (indices.map fun i => scale * dot query (locationAt locations i).address +
        ln (fmax (locationAt locations i).writeCount (lit 0))) =
        indices.map fun i => scale * dot query (locationAt locations i).address +
          Real.log (max (locationAt locations i).writeCount 0) := by
      refine List.map_congr_left fun i _ => ?_
      rw [fmax_real, ln_real, lit_real, Rat.cast_zero]
    have hsum : ((indices.map fun i => scale * dot query (locationAt locations i).address +
        Real.log (max (locationAt locations i).writeCount 0)).map fun y => Real.exp (y * 1)).sum = total := by
      rw [List.map_map, htotal]
      congr 1
      refine List.map_congr_left fun i hi => ?_
      rw [Function.comp_apply, mul_one, hexp i hi]
    rw [hall, softmax_eq, lit_real, Rat.cast_one, hsum, List.map_map]
    refine List.map_congr_left fun i hi => ?_
    rw [Function.comp_apply, mul_one, hexp i hi]
  have hresult : (attend locations query scale indices).result =
      weightedSum (indices.map fun i => (locationAt locations i).normalizedPattern)
        (indices.map fun i => mass query scale (locationAt locations i) / total) := by
    unfold attend
    dsimp only
    rw [logits_eq, halpha]
  obtain ⟨hvec, hlength⟩ := vec_weightedSum (fun i => (locationAt locations i).normalizedPattern)
    (fun i => mass query scale (locationAt locations i) / total)
    fun i hi => (mass_smul_pattern query scale (hd i hi) (hcount i hi)).2
  rw [hresult]
  refine ⟨hvec.trans ?_, hlength⟩
  rw [List.smul_sum, List.map_map]
  congr 1
  refine List.map_congr_left fun i hi => ?_
  rw [Function.comp_apply, div_eq_inv_mul, mul_smul, (mass_smul_pattern query scale (hd i hi) (hcount i hi)).1]

/-- All locations are activated where there is room for all. -/
theorem perm_activateLocked {inner : EAMInner ℝ ℝ} (harrays : Indexed inner)
    (hshaped : Shaped inner.config.d inner.locations) (hk : inner.locations.length ≤ inner.config.k) (query : List ℝ) :
    (activateLocked inner query none none).Perm (List.range inner.locations.length) := by
  have hentries : (scored query inner.locations).map (·.1) = List.range inner.locations.length := by
    simp [scored, Function.comp_def]
  have hperm : (topK inner.config.k (scored query inner.locations)).Perm (scored query inner.locations) := by
    unfold topK
    have hroom : ([] : List (ℕ × ℝ)).length + (scored query inner.locations).length ≤ inner.config.k := by
      simpa using hk
    rw [foldl_offer_of_le hroom]
    exact (List.perm_insertionSort _ _).trans (foldl_push_perm _ [])
  rw [activateLocked_scan harrays hshaped, ← hentries]
  exact hperm.map _

/-- **A read of all locations** is their mixture. -/
theorem attention_eq {inner : EAMInner ℝ ℝ} (harrays : Indexed inner)
    (hshaped : Shaped inner.config.d inner.locations) (hk : inner.locations.length ≤ inner.config.k)
    (hcount : ∀ loc ∈ inner.locations, 1 ≤ loc.writeCount) (query : List ℝ) (scale : ℝ) :
    vec inner.config.d (attentionLocked inner query scale none none).result =
        ((inner.locations.map (mass query scale)).sum)⁻¹ •
          (inner.locations.map (moment inner.config.d query scale)).sum ∧
      (attentionLocked inner query scale none none).result.length =
        if inner.locations = [] then 0 else inner.config.d := by
  have hperm := perm_activateLocked harrays hshaped hk query
  have hin : ∀ i ∈ activateLocked inner query none none, i < inner.locations.length := fun i hi =>
    List.mem_range.mp (hperm.subset hi)
  have hall : (List.range inner.locations.length).map (locationAt inner.locations) = inner.locations := by
    refine List.ext_getElem (by simp) fun i hi hi' => ?_
    rw [List.getElem_map, List.getElem_range, locationAt, List.getD_eq_getElem _ _ hi']
  obtain ⟨hvec, hlength⟩ := attend_eq (d := inner.config.d) query scale
    (fun i hi => (hshaped _ (locationAt_mem (hin i hi))).2) fun i hi => hcount _ (locationAt_mem (hin i hi))
  have hmass : ((activateLocked inner query none none).map fun i =>
      mass query scale (locationAt inner.locations i)).sum =
      (inner.locations.map (mass query scale)).sum := by
    rw [(hperm.map _).sum_eq, ← Function.comp_def, ← List.map_map, hall]
  have hmoment : ((activateLocked inner query none none).map fun i =>
      moment inner.config.d query scale (locationAt inner.locations i)).sum =
      (inner.locations.map (moment inner.config.d query scale)).sum := by
    rw [(hperm.map _).sum_eq, ← Function.comp_def, ← List.map_map, hall]
  have hempty : activateLocked inner query none none = [] ↔ inner.locations = [] := by
    rw [← List.length_eq_zero_iff, hperm.length_eq, List.length_range, List.length_eq_zero_iff]
  rw [hmass, hmoment] at hvec
  refine ⟨hvec, hlength.trans ?_⟩
  simp only [hempty]

end HeatherDb
