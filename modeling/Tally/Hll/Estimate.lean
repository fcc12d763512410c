import Mathlib.Analysis.SpecialFunctions.Log.Basic
import Mathlib.Data.ENNReal.BigOperators
import Tally.Hll.Sketch

/-!
# The estimate of a sketch

`Estimate`, with its floating point read as exact real arithmetic: the harmonic mean of the
registers, or linear counting when it is small and some register is empty. The sum over the
registers is taken with infinity, since `FromBytes` lets in registers whose power of two overflows.

## Main definitions

* `Sketch.estimate`: the estimated number of distinct values

## Main results

* `Sketch.estimate_eq_of_zeros`: with enough empty registers, linear counting
* `Sketch.estimate_new`, `Sketch.estimate_new_add_ne_zero`: an empty sketch estimates zero, and a
  sketch of one value does not
-/

namespace Tally.Hll.Sketch

open ENNReal

/-- The sum over the registers: `uint64(1) << r` is zero from 64 on, and one over it infinite. -/
noncomputable def sum (s : Sketch) : ℝ≥0∞ := ∑ i, ((2 ^ (s.regs i).val % 2 ^ 64 : ℕ) : ℝ≥0∞)⁻¹

/-- The number of empty registers. -/
def zeros (s : Sketch) : ℕ := (Finset.univ.filter fun i => (s.regs i).val = 0).card

noncomputable def alpha : ℝ := 0.7213 / (1 + 1.079 / m)

/-- The approximate number of distinct values added. -/
noncomputable def estimate (s : Sketch) : ℕ :=
  let e := (.ofReal (alpha * m * m) / s.sum).toReal
  -- small-range correction
  let e := if e ≤ 2.5 * m ∧ 0 < s.zeros then m * Real.log (m / s.zeros) else e
  ⌊e + 0.5⌋₊

theorem cast_m : (m : ℝ) = 16384 := by
  rw [m, precision]
  norm_num

theorem alpha_le_one : alpha ≤ 1 := by
  rw [alpha, cast_m]
  norm_num

/-- Each empty register contributes one to the sum. -/
theorem zeros_le_sum (s : Sketch) : (s.zeros : ℝ≥0∞) ≤ s.sum := by
  calc (s.zeros : ℝ≥0∞) = ∑ i ∈ Finset.univ.filter fun i => (s.regs i).val = 0, 1 := by
        rw [Finset.sum_const, nsmul_one, zeros]
    _ = ∑ i ∈ Finset.univ.filter fun i => (s.regs i).val = 0,
          ((2 ^ (s.regs i).val % 2 ^ 64 : ℕ) : ℝ≥0∞)⁻¹ := by
        refine Finset.sum_congr rfl fun i hi => ?_
        rw [(Finset.mem_filter.mp hi).2]
        norm_num
    _ ≤ s.sum := Finset.sum_le_sum_of_subset (Finset.filter_subset _ _)

/-- With enough empty registers the raw estimate is below the threshold of the correction. -/
theorem raw_le {s : Sketch} (h : m ≤ 2 * s.zeros) :
    (ENNReal.ofReal (alpha * m * m) / s.sum).toReal ≤ 2.5 * m := by
  have hzeros : (16384 : ℝ) ≤ 2 * s.zeros := by
    rw [← cast_m]
    exact_mod_cast h
  clear h
  have halpha := alpha_le_one
  rw [cast_m]
  refine ENNReal.toReal_le_of_le_ofReal (by norm_num) (ENNReal.div_le_of_le_mul ?_)
  calc ENNReal.ofReal (alpha * 16384 * 16384)
      ≤ ENNReal.ofReal (2.5 * 16384 * s.zeros) := ENNReal.ofReal_le_ofReal (by nlinarith)
    _ = ENNReal.ofReal (2.5 * 16384) * s.zeros := by
        rw [ENNReal.ofReal_mul (by norm_num), ENNReal.ofReal_natCast]
    _ ≤ ENNReal.ofReal (2.5 * 16384) * s.sum := by
        gcongr
        exact s.zeros_le_sum

/-- **With enough empty registers the estimate is that of linear counting.** -/
theorem estimate_eq_of_zeros {s : Sketch} (h : m ≤ 2 * s.zeros) :
    s.estimate = ⌊m * Real.log (m / s.zeros) + 0.5⌋₊ := by
  have hpos : 0 < s.zeros := by
    have hm : m = 16384 := rfl
    omega
  simp only [estimate]
  rw [if_pos ⟨raw_le h, hpos⟩]

theorem zeros_new : new.zeros = m := by
  have hregs : (Finset.univ.filter fun i => (new.regs i).val = 0) = Finset.univ :=
    Finset.filter_true_of_mem fun i _ => rfl
  rw [zeros, hregs, Finset.card_univ, Fintype.card_fin]

/-- An empty sketch estimates zero. -/
theorem estimate_new : new.estimate = 0 := by
  have hm : (m : ℝ) ≠ 0 := by
    rw [cast_m]
    norm_num
  rw [estimate_eq_of_zeros (by rw [zeros_new]; omega), zeros_new, div_self hm, Real.log_one]
  norm_num

/-- One value leaves all registers but one empty. -/
theorem zeros_new_add (v : String) : (new.add v).zeros = m - 1 := by
  have hregs : (Finset.univ.filter fun i => ((new.add v).regs i).val = 0) =
      Finset.univ.erase (index (hash64 v)) := by
    ext i
    rw [new_add, Finset.mem_filter, Finset.mem_erase, mark, Fin.val_eq_zero_iff]
    by_cases hi : i = index (hash64 v)
    · simp [hi, rank_ne_zero]
    · simp [hi]
  rw [zeros, hregs, Finset.card_erase_of_mem (Finset.mem_univ _), Finset.card_univ,
    Fintype.card_fin]

/-- **A sketch of one value does not estimate zero.** -/
theorem estimate_new_add_ne_zero (v : String) : (new.add v).estimate ≠ 0 := by
  have hm : m = 16384 := rfl
  rw [estimate_eq_of_zeros (by rw [zeros_new_add]; omega), zeros_new_add]
  have hcast : ((m - 1 : ℕ) : ℝ) = 16383 := by
    rw [hm]
    norm_num
  have hlog := Real.one_sub_inv_le_log_of_pos (x := 16384 / 16383) (by norm_num)
  have hone : 1 ≤ (m : ℝ) * Real.log (m / (m - 1 : ℕ)) + 0.5 := by
    rw [hcast, cast_m]
    norm_num at hlog ⊢
    linarith
  exact (Nat.floor_pos.mpr hone).ne'

end Tally.Hll.Sketch
