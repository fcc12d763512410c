import Mathlib.Analysis.Complex.ExponentialBounds
import Tally.Hll.Codec
import Tally.Hll.Estimate

/-!
# How the estimate grows

Registers only go up, so the harmonic sum and the number of empty registers only go down, and each
of the two formulas of `Estimate` grows. The estimate itself may fall where an operation leaves the
small range, and the raw formula takes over from linear counting: with the registers almost all in
use, linear counting is well above the raw formula. For a single value this is so exactly when fewer
than 1345 registers were empty, which is where linear counting passes `2.5 * m`.

## Main definitions

* `Sketch.harmonic`, `Sketch.raw`: the harmonic sum, and the raw estimate
* `Sketch.SmallRange`: linear counting is used
* `linearCount`: its value

## Main results

* `Sketch.estimate_le_iff`: when the estimate of a larger sketch is not smaller
* `Sketch.estimate_add_le_iff`: the same for the addition of a value
* `Sketch.estimate_grows_iff`: both operations
-/

namespace Tally.Hll

/-- Linear counting, with a number of empty registers. -/
noncomputable def linearCount (zeros : ℕ) : ℝ := m * Real.log (m / zeros)

namespace Sketch

variable {V : Type} [GoString V] {s t : Sketch}

/-- The sum over the registers of a sketch with none above 51. -/
noncomputable def harmonic (s : Sketch) : ℝ := ∑ i, (2⁻¹ : ℝ) ^ (s.regs i).val

/-- The raw estimate of such a sketch. -/
noncomputable def raw (s : Sketch) : ℝ := alpha * m * m / s.harmonic

/-- The condition of the small-range correction. -/
def SmallRange (s : Sketch) : Prop := s.raw ≤ 2.5 * m ∧ 0 < s.zeros

theorem alpha_pos : 0 < alpha := by
  rw [alpha, cast_m]
  norm_num

theorem harmonic_pos (s : Sketch) : 0 < s.harmonic := by
  have hm : Nonempty (Fin m) := ⟨index 0⟩
  exact Finset.sum_pos (fun i _ => by positivity) Finset.univ_nonempty

theorem scale_nonneg : 0 ≤ alpha * m * m := by
  have halpha := alpha_pos
  rw [cast_m]
  positivity

theorem raw_nonneg (s : Sketch) : 0 ≤ s.raw := div_nonneg scale_nonneg s.harmonic_pos.le

/-- No power of two overflows, and no quotient is infinite. -/
theorem Valid.sum_eq (hs : s.Valid) : s.sum = ENNReal.ofReal s.harmonic := by
  rw [harmonic, ENNReal.ofReal_sum_of_nonneg fun i _ => by positivity]
  refine Finset.sum_congr rfl fun i _ => ?_
  have hlt : 2 ^ (s.regs i).val < 2 ^ 64 :=
    Nat.pow_lt_pow_right (by decide) (Nat.lt_of_le_of_lt (hs i) (by decide))
  rw [Nat.mod_eq_of_lt hlt, inv_pow, ENNReal.ofReal_inv_of_pos (by positivity), Nat.cast_pow,
    ENNReal.ofReal_pow (by norm_num), ENNReal.ofReal_ofNat, Nat.cast_ofNat]

/-- **The estimate of a sketch with registers up to 51.** -/
theorem Valid.estimate_eq (hs : s.Valid) [Decidable s.SmallRange] :
    s.estimate =
      if s.SmallRange then ⌊linearCount s.zeros + 0.5⌋₊ else ⌊s.raw + 0.5⌋₊ := by
  have hraw : (ENNReal.ofReal (alpha * m * m) / s.sum).toReal = s.raw := by
    rw [hs.sum_eq, ← ENNReal.ofReal_div_of_pos s.harmonic_pos]
    exact ENNReal.toReal_ofReal s.raw_nonneg
  simp only [estimate, hraw, ← SmallRange.eq_1]
  split_ifs <;> rfl

/-! ## Larger sketches -/

theorem harmonic_anti (h : s ≤ t) : t.harmonic ≤ s.harmonic := by
  refine Finset.sum_le_sum fun i _ => ?_
  exact pow_le_pow_of_le_one (by norm_num) (by norm_num) (le_def.mp h i)

theorem zeros_anti (h : s ≤ t) : t.zeros ≤ s.zeros := by
  refine Finset.card_le_card fun i hi => ?_
  rw [Finset.mem_filter] at hi ⊢
  have hle : (s.regs i).val ≤ (t.regs i).val := le_def.mp h i
  exact ⟨hi.1, by omega⟩

theorem raw_mono (h : s ≤ t) : s.raw ≤ t.raw :=
  div_le_div_of_nonneg_left scale_nonneg t.harmonic_pos (harmonic_anti h)

/-- Once left, the small range is not entered again. -/
theorem SmallRange.of_le (h : s ≤ t) (ht : t.SmallRange) : s.SmallRange :=
  ⟨(raw_mono h).trans ht.1, ht.2.trans_le (zeros_anti h)⟩

theorem linearCount_anti {a b : ℕ} (ha : 0 < a) (hab : a ≤ b) : linearCount b ≤ linearCount a := by
  have hb : (0 : ℝ) < b := by exact_mod_cast ha.trans_le hab
  have hm : (0 : ℝ) < m := by rw [cast_m]; norm_num
  unfold linearCount
  gcongr

/-- **When the estimate of a larger sketch is not smaller**: unless it leaves the small range with a
harmonic sum that is too large for the linear count there was. -/
theorem estimate_le_iff (hs : s.Valid) (ht : t.Valid) (h : s ≤ t) :
    s.estimate ≤ t.estimate ↔
      (s.SmallRange → ¬ t.SmallRange →
        (⌊linearCount s.zeros + 0.5⌋₊ - 0.5) * t.harmonic ≤ alpha * m * m) := by
  classical
  rw [hs.estimate_eq, ht.estimate_eq]
  by_cases hsmall : s.SmallRange
  · by_cases hsmall' : t.SmallRange
    · have hle := linearCount_anti hsmall'.2 (zeros_anti h)
      rw [if_pos hsmall, if_pos hsmall']
      exact iff_of_true (Nat.floor_le_floor (by linarith)) fun _ hnot => absurd hsmall' hnot
    · have hraw : 0 ≤ t.raw + 0.5 := add_nonneg t.raw_nonneg (by norm_num)
      rw [if_pos hsmall, if_neg hsmall', Nat.le_floor_iff hraw, ← sub_le_iff_le_add, raw,
        le_div_iff₀ t.harmonic_pos]
      exact ⟨fun hle _ _ => hle, fun hle => hle hsmall hsmall'⟩
  · have hsmall' : ¬ t.SmallRange := fun ht' => hsmall (ht'.of_le h)
    have hle := raw_mono h
    rw [if_neg hsmall, if_neg hsmall']
    exact iff_of_true (Nat.floor_le_floor (by linarith)) fun hyes => absurd hyes hsmall

/-! ## One register -/

section OneRegister

variable {j : Fin m}

theorem regs_add_of_ne (s : Sketch) (v : V) {i : Fin m} (hi : i ≠ index (hash64 v)) :
    (s.add v).regs i = s.regs i := by
  have hzero : (mark v).regs i = 0 := if_neg hi
  rw [add_eq_sup, regs_sup, hzero]
  exact sup_of_le_left (Fin.zero_le _)

/-- One register contributes at most one to the harmonic sum. -/
theorem harmonic_le_add_one (h : ∀ i ≠ j, t.regs i = s.regs i) :
    s.harmonic ≤ t.harmonic + 1 := by
  have hrest : ∑ i ∈ Finset.univ.erase j, (2⁻¹ : ℝ) ^ (t.regs i).val =
      ∑ i ∈ Finset.univ.erase j, (2⁻¹ : ℝ) ^ (s.regs i).val :=
    Finset.sum_congr rfl fun i hi => by rw [h i (Finset.ne_of_mem_erase hi)]
  have hone : (2⁻¹ : ℝ) ^ (s.regs j).val ≤ 1 := pow_le_one₀ (by norm_num) (by norm_num)
  have hpos : (0 : ℝ) < 2⁻¹ ^ (t.regs j).val := by positivity
  rw [harmonic, harmonic, ← Finset.add_sum_erase _ _ (Finset.mem_univ j),
    ← Finset.add_sum_erase _ _ (Finset.mem_univ j), hrest]
  linarith

/-- One register is one empty register, or none. -/
theorem zeros_le_add_one (h : ∀ i ≠ j, t.regs i = s.regs i) : s.zeros ≤ t.zeros + 1 := by
  refine (Finset.card_le_card fun i hi => ?_).trans (Finset.card_insert_le j _)
  rw [Finset.mem_insert]
  by_cases hij : i = j
  · exact .inl hij
  · rw [Finset.mem_filter, ← h i hij] at hi
    exact .inr (Finset.mem_filter.mpr hi)

end OneRegister

/-! ## The threshold

Linear counting passes `2.5 * m` between 1345 and 1344 empty registers; with 1344 it is above what
the raw formula gives just beyond the small range. -/

theorem linearCount_le : linearCount 1345 ≤ 2.5 * m := by
  have hexp : (16384 / 1345 : ℝ) ≤ Real.exp 2.5 := by
    have hsq : (16384 / 1345 : ℝ) ^ 2 ≤ Real.exp 2.5 ^ 2 := by
      calc (16384 / 1345 : ℝ) ^ 2 ≤ 2.7182818283 ^ 5 := by norm_num
        _ ≤ Real.exp 1 ^ 5 := pow_le_pow_left₀ (by norm_num) Real.exp_one_gt_d9.le 5
        _ = Real.exp 2.5 ^ 2 := by
          rw [← Real.exp_nat_mul, ← Real.exp_nat_mul]
          norm_num
    exact le_of_sq_le_sq hsq (Real.exp_pos _).le
  have hlog : Real.log (16384 / 1345) ≤ 2.5 := (Real.log_le_iff_le_exp (by norm_num)).mpr hexp
  rw [linearCount, cast_m, Nat.cast_ofNat]
  linarith

theorem le_linearCount : 40969.5 ≤ linearCount 1344 := by
  have hexp : Real.exp 2.5006 ≤ (16384 / 1344 : ℝ) := by
    have hsq : Real.exp 2.5006 ^ 2 ≤ (16384 / 1344 : ℝ) ^ 2 := by
      have hsmall : Real.exp 0.0012 ≤ 1.00121 := by
        have hlow := Real.one_sub_le_exp_neg 0.0012
        rw [Real.exp_neg] at hlow
        have hpos := Real.exp_pos 0.0012
        have hmul : (1 - 0.0012) * Real.exp 0.0012 ≤ 1 := by
          rwa [← le_div_iff₀ hpos, one_div]
        linarith
      calc Real.exp 2.5006 ^ 2 = Real.exp 1 ^ 5 * Real.exp 0.0012 := by
            rw [← Real.exp_nat_mul, ← Real.exp_nat_mul, ← Real.exp_add]
            norm_num
        _ ≤ 2.7182818286 ^ 5 * 1.00121 := by
            gcongr
            exact Real.exp_one_lt_d9.le
        _ ≤ (16384 / 1344 : ℝ) ^ 2 := by norm_num
    exact le_of_sq_le_sq hsq (by norm_num)
  have hlog : 2.5006 ≤ Real.log (16384 / 1344) := (Real.le_log_iff_exp_le (by norm_num)).mpr hexp
  rw [linearCount, cast_m, Nat.cast_ofNat]
  linarith

/-! ## The operations -/

theorem Valid.add (hs : s.Valid) (v : V) : (s.add v).Valid := by
  rw [add_eq_sup]
  exact hs.merge (valid_mark v)

theorem le_add (s : Sketch) (v : V) : s ≤ s.add v := by
  rw [add_eq_sup]
  exact le_sup_left

/-- Where the raw formula has passed `2.5 * m`, a linear count up to there is not above it. -/
theorem mul_harmonic_le (hraw : ¬ t.raw ≤ 2.5 * m) (hzeros : 1345 ≤ s.zeros) :
    (⌊linearCount s.zeros + 0.5⌋₊ - 0.5) * t.harmonic ≤ alpha * m * m := by
  have hlinear : linearCount s.zeros ≤ 2.5 * m :=
    (linearCount_anti (by decide) hzeros).trans linearCount_le
  have hfloor : (⌊linearCount s.zeros + 0.5⌋₊ : ℝ) ≤ 2.5 * m + 0.5 := by
    have hmono : ⌊linearCount s.zeros + 0.5⌋₊ ≤ ⌊(2.5 * m + 0.5 : ℝ)⌋₊ :=
      Nat.floor_le_floor (by linarith)
    refine le_trans (by exact_mod_cast hmono) (Nat.floor_le ?_)
    rw [cast_m]
    norm_num
  have hpos := t.harmonic_pos
  rw [not_le, raw, lt_div_iff₀ hpos] at hraw
  exact (mul_le_mul_of_nonneg_right (by linarith) hpos.le).trans hraw.le

/-- Just beyond the small range, the raw formula is below the linear count of fewer registers. -/
theorem lt_mul_harmonic (hsmall : s.SmallRange) (hzeros : s.zeros < 1345)
    (hstep : s.harmonic ≤ t.harmonic + 1) :
    alpha * m * m < (⌊linearCount s.zeros + 0.5⌋₊ - 0.5) * t.harmonic := by
  have hlinear : 40969.5 ≤ linearCount s.zeros :=
    le_linearCount.trans (linearCount_anti hsmall.2 (by omega))
  have hfloor : (40970 : ℝ) ≤ ⌊linearCount s.zeros + 0.5⌋₊ := by
    have hle : 40970 ≤ ⌊linearCount s.zeros + 0.5⌋₊ := Nat.le_floor (by norm_num; linarith)
    exact_mod_cast hle
  have hpos := t.harmonic_pos
  have hsum : alpha * 16384 ≤ 2.5 * s.harmonic := by
    have hraw := hsmall.1
    rw [raw, cast_m, div_le_iff₀ s.harmonic_pos] at hraw
    linarith
  have halpha : 0.72 ≤ alpha := by
    rw [alpha, cast_m]
    norm_num
  calc alpha * m * m < 40969.5 * t.harmonic := by
        rw [cast_m]
        linarith
    _ ≤ (⌊linearCount s.zeros + 0.5⌋₊ - 0.5) * t.harmonic :=
        mul_le_mul_of_nonneg_right (by linarith) hpos.le

/-- **When the addition of a value does not lower the estimate**: unless it leaves the small range
with fewer than 1345 empty registers. -/
theorem estimate_add_le_iff (hs : s.Valid) (v : V) :
    s.estimate ≤ (s.add v).estimate ↔
      (s.SmallRange → ¬ (s.add v).SmallRange → 1345 ≤ s.zeros) := by
  have hother : ∀ i ≠ index (hash64 v), (s.add v).regs i = s.regs i := fun i hi =>
    regs_add_of_ne s v hi
  rw [estimate_le_iff hs (hs.add v) (s.le_add v)]
  refine forall_congr' fun hsmall => forall_congr' fun hleft => ?_
  constructor
  · intro hle
    by_contra hzeros
    exact absurd hle (not_le.mpr (lt_mul_harmonic hsmall (by omega) (harmonic_le_add_one hother)))
  · intro hzeros
    -- registers are left empty, so it is the raw formula that has passed
    have hsome : 0 < (s.add v).zeros := by
      have := zeros_le_add_one hother
      omega
    exact mul_harmonic_le (fun hraw => hleft ⟨hraw, hsome⟩) hzeros

/-- **When the estimate does not go down.** Adding a value keeps it or raises it, unless the sketch
leaves the small range while fewer than 1345 registers are empty. Merging keeps it or raises it,
unless the sketch leaves the small range with a harmonic sum that is too large for the rounded
linear count there was. -/
theorem estimate_grows_iff (hs : s.Valid) (ht : t.Valid) (v : V) :
    (s.estimate ≤ (s.add v).estimate ↔
      (s.SmallRange → ¬ (s.add v).SmallRange → 1345 ≤ s.zeros)) ∧
    (s.estimate ≤ (s.merge t).estimate ↔
      (s.SmallRange → ¬ (s.merge t).SmallRange →
        (⌊linearCount s.zeros + 0.5⌋₊ - 0.5) * (s.merge t).harmonic ≤ alpha * m * m)) := by
  have hle : s ≤ s.merge t := le_sup_left
  exact ⟨estimate_add_le_iff hs v, estimate_le_iff hs (hs.merge ht) hle⟩

/-- A first value, added or merged. -/
theorem estimate_grows_iff_first :
    new.Valid ∧ (mark "u1").Valid ∧ new.estimate ≤ (new.add "u1").estimate ∧
      new.estimate ≤ (new.merge (mark "u1")).estimate := by
  have hgrows := estimate_grows_iff valid_new (valid_mark "u1") "u1"
  have hmerge : new.merge (mark "u1") = new.add "u1" := (add_eq_sup new "u1").symm
  have hadd : new.estimate ≤ (new.add "u1").estimate := by
    apply hgrows.1.mpr
    intro _ _
    rw [zeros_new]
    decide
  rw [hmerge]
  exact ⟨valid_new, valid_mark "u1", hadd, hadd⟩

/-- With no register above 1 the raw estimate is small. -/
theorem raw_le_of_regs_le_one (h : ∀ i, (s.regs i).val ≤ 1) : s.raw ≤ 2.5 * m := by
  have hhalf : (m : ℝ) * 2⁻¹ ≤ s.harmonic := by
    calc (m : ℝ) * 2⁻¹ = ∑ _i : Fin m, (2⁻¹ : ℝ) := by
          rw [Finset.sum_const, Finset.card_univ, Fintype.card_fin, nsmul_eq_mul]
      _ ≤ s.harmonic := by
          refine Finset.sum_le_sum fun i _ => ?_
          calc (2⁻¹ : ℝ) = 2⁻¹ ^ 1 := (pow_one _).symm
            _ ≤ 2⁻¹ ^ (s.regs i).val := pow_le_pow_of_le_one (by norm_num) (by norm_num) (h i)
  have halpha := alpha_le_one
  rw [raw, div_le_iff₀ s.harmonic_pos]
  rw [cast_m] at hhalf ⊢
  linarith

/-- All registers are at `r`, but for that of one value, which is empty. -/
def allBut (v : String) (r : Byte) : Sketch :=
  ⟨fun i => if i = index (hash64 v) then new.regs i else r⟩

/-- **Filling the last empty register lowers the estimate.** -/
theorem estimate_drops_at_last_register :
    (allBut "u1" 1).Valid ∧ (mark "u1").Valid ∧
      ((allBut "u1" 1).add "u1").estimate < (allBut "u1" 1).estimate ∧
      ((allBut "u1" 1).merge (mark "u1")).estimate < (allBut "u1" 1).estimate := by
  have hone : ∀ i, ((allBut "u1" 1).regs i).val ≤ 1 := by
    intro i
    simp only [allBut]
    split_ifs
    · exact Nat.zero_le 1
    · exact Nat.le_refl 1
  have hvalid : (allBut "u1" 1).Valid := fun i => (hone i).trans (by norm_num)
  have hmerge : (allBut "u1" 1).merge (mark "u1") = (allBut "u1" 1).add "u1" :=
    (add_eq_sup _ "u1").symm
  have hzero : ∀ i, ((allBut "u1" 1).regs i).val = 0 ↔ i = index (hash64 "u1") := by
    intro i
    simp only [allBut]
    split_ifs with hi
    · exact iff_of_true rfl hi
    · exact iff_of_false (by decide) hi
  have hzeros : (allBut "u1" 1).zeros = 1 := by
    simp only [zeros, hzero, Finset.filter_eq' _ (index (hash64 "u1")), Finset.mem_univ, if_true,
      Finset.card_singleton]
  have hsmall : (allBut "u1" 1).SmallRange := ⟨raw_le_of_regs_le_one hone, by omega⟩
  have hleft : ¬ ((allBut "u1" 1).add "u1").SmallRange := by
    intro hsmall'
    obtain ⟨i, hi⟩ := Finset.card_pos.mp hsmall'.2
    have hempty := (Finset.mem_filter.mp hi).2
    by_cases hindex : i = index (hash64 "u1")
    · have hmark : mark "u1" ≤ (allBut "u1" 1).add "u1" := by
        rw [add_eq_sup]
        exact le_sup_right
      have hrank := mark_le_iff.mp hmark
      rw [← hindex, Fin.ext (b := 0) hempty, Fin.le_zero_iff] at hrank
      exact rank_ne_zero _ hrank
    · rw [regs_add_of_ne _ _ hindex, hzero] at hempty
      exact hindex hempty
  have hdrop : ((allBut "u1" 1).add "u1").estimate < (allBut "u1" 1).estimate := by
    rw [← not_le, estimate_add_le_iff hvalid]
    intro hle
    have := hle hsmall hleft
    omega
  rw [hmerge]
  exact ⟨hvalid, valid_mark "u1", hdrop, hdrop⟩

end Sketch

end Tally.Hll
