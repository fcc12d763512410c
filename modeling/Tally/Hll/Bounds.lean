import Mathlib.Analysis.SpecialFunctions.Log.Deriv
import Tally.Hll.Growth

/-!
# Bounds of the estimate

What can be said of an estimate without any assumption on the hashes. It is at least the number of
registers that are not empty; and as long as enough registers are empty it is that of linear
counting, which exceeds the number of registers that are not empty by little. The registers that are
not empty are those the values fall in, at most as many as there are values.

## Main definitions

* `linearBound`: what linear counting makes of occupied registers, at most
* `Sketch.occupied`: the number of registers that are not empty

## Main results

* `le_linearCount_sub`, `linearCount_sub_le`: linear counting from below and from above
* `Sketch.Valid.occupied_le_estimate`: the estimate is at least the number of occupied registers
* `Sketch.Valid.estimate_le`: what it is at most, with enough empty registers
* `Sketch.occupied_addAll`: the registers that values occupy
* `Sketch.estimate_addAll_eq_zero_iff`, `Sketch.estimate_addAll_le`: the estimate of values
-/

namespace Tally.Hll

theorem m_pos : (0 : ℝ) < m := by
  rw [Sketch.cast_m]
  norm_num

/-- What linear counting makes of a number of occupied registers, at most. -/
noncomputable def linearBound (v : ℕ) : ℝ := v + v ^ 2 / (m + m) + v ^ 3 / (m * (m - v))

theorem linearBound_eq (v : ℕ) :
    linearBound v = v + v ^ 2 / (2 * m) + v ^ 3 / (m * (m - v)) := by
  rw [linearBound, two_mul]

/-- **Linear counting gives at least the number of occupied registers.** -/
theorem le_linearCount_sub {v : ℕ} (hv : v < m) : (v : ℝ) ≤ linearCount (m - v) := by
  have hcast : ((m - v : ℕ) : ℝ) = m - v := Nat.cast_sub hv.le
  have hpos : (0 : ℝ) < m - v := sub_pos.mpr (by exact_mod_cast hv)
  have hlog := Real.one_sub_inv_le_log_of_pos (div_pos m_pos hpos)
  rw [linearCount, hcast]
  calc (v : ℝ) = m * (1 - ((m : ℝ) / (m - v))⁻¹) := by
        have hm := m_pos.ne'
        rw [inv_div]
        field_simp
        ring
    _ ≤ m * Real.log (m / (m - v)) := mul_le_mul_of_nonneg_left hlog m_pos.le

/-- **Linear counting gives little more than the number of occupied registers.** -/
theorem linearCount_sub_le {v : ℕ} (hv : v < m) : linearCount (m - v) ≤ linearBound v := by
  have hcast : ((m - v : ℕ) : ℝ) = m - v := Nat.cast_sub hv.le
  have hvm : (v : ℝ) < m := by exact_mod_cast hv
  have hpos : (0 : ℝ) < m - v := sub_pos.mpr hvm
  have hm := m_pos
  have hx : (v : ℝ) / m < 1 := (div_lt_one hm).mpr hvm
  have hx0 : 0 ≤ (v : ℝ) / m := by positivity
  have hseries := Real.abs_log_sub_add_sum_range_le (x := (v : ℝ) / m)
    (by rwa [abs_of_nonneg hx0]) 2
  rw [abs_of_nonneg hx0] at hseries
  have hlower := (abs_le.mp hseries).1
  simp only [Finset.sum_range_succ, Finset.sum_range_zero] at hlower
  have hlog : Real.log (m / (m - v)) = -Real.log (1 - v / m) := by
    rw [← Real.log_inv]
    congr 1
    rw [one_sub_div hm.ne', inv_div]
  rw [linearCount, hcast, hlog, linearBound_eq]
  have hbound : -Real.log (1 - v / m) ≤
      v / m + (v / m) ^ 2 / 2 + (v / m) ^ 3 / (1 - v / m) := by
    norm_num at hlower
    linarith
  calc (m : ℝ) * -Real.log (1 - v / m)
      ≤ m * (v / m + (v / m) ^ 2 / 2 + (v / m) ^ 3 / (1 - v / m)) :=
        mul_le_mul_of_nonneg_left hbound hm.le
    _ = v + v ^ 2 / (2 * m) + v ^ 3 / (m * (m - v)) := by
        rw [one_sub_div hm.ne']
        have := hpos.ne'
        field_simp

theorem linearBound_mono {v w : ℕ} (h : v ≤ w) (hw : w < m) : linearBound v ≤ linearBound w := by
  have hvw : (v : ℝ) ≤ w := by exact_mod_cast h
  have hwm : (w : ℝ) < m := by exact_mod_cast hw
  have hm := m_pos
  have hpos : (0 : ℝ) < m * (m - w) := mul_pos hm (sub_pos.mpr hwm)
  unfold linearBound
  gcongr

namespace Sketch

variable {s : Sketch}

/-- The number of registers that are not empty. -/
def occupied (s : Sketch) : ℕ := m - s.zeros

theorem zeros_le (s : Sketch) : s.zeros ≤ m :=
  (Finset.card_le_univ _).trans (Fintype.card_fin m).le

theorem zeros_eq (s : Sketch) : s.zeros = m - s.occupied := by
  have hle := s.zeros_le
  rw [occupied]
  omega

theorem zeros_le_harmonic (s : Sketch) : (s.zeros : ℝ) ≤ s.harmonic := by
  calc (s.zeros : ℝ) = ∑ i ∈ Finset.univ.filter fun i => (s.regs i).val = 0, (1 : ℝ) := by
        rw [Finset.sum_const, nsmul_one, zeros]
    _ = ∑ i ∈ Finset.univ.filter fun i => (s.regs i).val = 0, (2⁻¹ : ℝ) ^ (s.regs i).val := by
        refine Finset.sum_congr rfl fun i hi => ?_
        rw [(Finset.mem_filter.mp hi).2, pow_zero]
    _ ≤ s.harmonic := Finset.sum_le_sum_of_subset_of_nonneg (Finset.filter_subset _ _)
        fun i _ _ => by positivity

/-- With no empty register the raw estimate is more than the number of registers. -/
theorem le_raw_of_zeros_eq_zero (h : s.zeros = 0) : (m : ℝ) ≤ s.raw := by
  have hpos : ∀ i, 1 ≤ (s.regs i).val := by
    intro i
    have hnone := Finset.filter_eq_empty_iff.mp (Finset.card_eq_zero.mp h) (Finset.mem_univ i)
    omega
  have hharmonic : s.harmonic ≤ m / 2 := by
    calc s.harmonic ≤ ∑ _i : Fin m, (2⁻¹ : ℝ) := by
          refine Finset.sum_le_sum fun i _ => ?_
          exact pow_le_of_le_one (by norm_num) (by norm_num) (by have := hpos i; omega)
      _ = m / 2 := by
          rw [Finset.sum_const, Finset.card_univ, Fintype.card_fin, nsmul_eq_mul]
          ring
  have halpha : 0.5 ≤ alpha := by
    rw [alpha, cast_m]
    norm_num
  have hm := m_pos
  rw [raw, le_div_iff₀ s.harmonic_pos]
  calc (m : ℝ) * s.harmonic ≤ m * (m / 2) := mul_le_mul_of_nonneg_left hharmonic hm.le
    _ = 0.5 * m * m := by ring
    _ ≤ alpha * m * m :=
        mul_le_mul_of_nonneg_right (mul_le_mul_of_nonneg_right halpha hm.le) hm.le

/-- **The estimate is at least the number of occupied registers.** -/
theorem Valid.occupied_le_estimate (hs : s.Valid) : s.occupied ≤ s.estimate := by
  classical
  rw [hs.estimate_eq]
  split_ifs with hsmall
  · have hlt : s.occupied < m := by
      have hzeros := hsmall.2
      have hle := s.zeros_le
      rw [occupied]
      omega
    refine Nat.le_floor ?_
    have hlinear := le_linearCount_sub hlt
    rw [← zeros_eq] at hlinear
    linarith
  · refine Nat.le_floor ?_
    have hle : (s.occupied : ℝ) ≤ m := by exact_mod_cast Nat.sub_le m s.zeros
    have hm := m_pos
    have hraw : (m : ℝ) ≤ s.raw := by
      by_cases hrange : s.raw ≤ 2.5 * m
      · exact le_raw_of_zeros_eq_zero (Nat.eq_zero_of_not_pos fun hz => hsmall ⟨hrange, hz⟩)
      · linarith
    linarith

/-- The small range, from the number of empty registers alone. -/
theorem smallRange_of_occupied (h : s.occupied ≤ 11657) : s.SmallRange := by
  have hzeros : 4727 ≤ s.zeros := by
    have hm : m = 16384 := rfl
    rw [occupied] at h
    omega
  have hcast : (4727 : ℝ) ≤ s.zeros := by exact_mod_cast hzeros
  have halpha : alpha ≤ 0.72128 := by
    rw [alpha, cast_m]
    norm_num
  refine ⟨?_, by omega⟩
  have hharmonic := hcast.trans s.zeros_le_harmonic
  rw [raw, div_le_iff₀ s.harmonic_pos, cast_m]
  clear h hzeros hcast
  linarith

/-- **With enough empty registers the estimate is little more than the number of occupied ones.** -/
theorem Valid.estimate_le (hs : s.Valid) (h : s.occupied ≤ 11657) :
    (s.estimate : ℝ) ≤ linearBound s.occupied + 0.5 := by
  classical
  have hlt : s.occupied < m := h.trans_lt (by decide)
  have hlinear := linearCount_sub_le hlt
  have hlow := le_linearCount_sub hlt
  rw [← zeros_eq] at hlinear hlow
  have hnonneg : (0 : ℝ) ≤ s.occupied := Nat.cast_nonneg _
  rw [hs.estimate_eq, if_pos (smallRange_of_occupied h)]
  exact (Nat.floor_le (by linarith)).trans (by linarith)

/-! ## The values of a sketch -/

theorem regs_add_eq_zero_iff (s : Sketch) (v : String) (i : Fin m) :
    (s.add v).regs i = 0 ↔ s.regs i = 0 ∧ index (hash64 v) ≠ i := by
  have hbot : ∀ a b : Byte, a ⊔ b = 0 ↔ a = 0 ∧ b = 0 := by simp
  rw [add_eq_sup, regs_sup, hbot, mark]
  refine and_congr_right fun _ => ?_
  by_cases hi : i = index (hash64 v)
  · simp [hi, rank_ne_zero]
  · simp [hi, Ne.symm hi]

theorem regs_addAll_eq_zero_iff (s : Sketch) (vs : List String) (i : Fin m) :
    (s.addAll vs).regs i = 0 ↔ s.regs i = 0 ∧ ∀ v ∈ vs, index (hash64 v) ≠ i := by
  induction vs generalizing s with
  | nil => simp [addAll]
  | cons v vs ih =>
    have hcons : s.addAll (v :: vs) = (s.add v).addAll vs := by
      rw [addAll, List.foldl_cons, ← addAll]
    rw [hcons, ih, regs_add_eq_zero_iff, List.forall_mem_cons, and_assoc]

/-- **The registers that values occupy** are those they fall in. -/
theorem occupied_addAll (vs : List String) :
    (new.addAll vs).occupied = (vs.toFinset.image fun v => index (hash64 v)).card := by
  have hzeros : (Finset.univ.filter fun i => ((new.addAll vs).regs i).val = 0) =
      (vs.toFinset.image fun v => index (hash64 v))ᶜ := by
    ext i
    have hzero : ((new.addAll vs).regs i).val = 0 ↔ (new.addAll vs).regs i = 0 :=
      Fin.val_eq_zero_iff
    simp only [Finset.mem_filter, Finset.mem_univ, true_and, hzero, regs_addAll_eq_zero_iff,
      Finset.mem_compl, Finset.mem_image, List.mem_toFinset, not_exists, not_and]
    exact and_iff_right rfl
  have hcard := Finset.card_le_univ (vs.toFinset.image fun v => index (hash64 v))
  rw [Fintype.card_fin] at hcard
  rw [occupied, zeros, hzeros, Finset.card_compl, Fintype.card_fin]
  omega

theorem valid_addAll (vs : List String) : (new.addAll vs).Valid := by
  induction vs using List.reverseRecOn with
  | nil => exact valid_new
  | append_singleton vs v ih =>
    have hone : (new.addAll vs).addAll [v] = (new.addAll vs).add v := by
      rw [addAll, List.foldl_cons, List.foldl_nil]
    rw [addAll_append, hone]
    exact ih.add v

/-- **An estimate is zero only without values.** -/
theorem estimate_addAll_eq_zero_iff (vs : List String) :
    (new.addAll vs).estimate = 0 ↔ vs = [] := by
  constructor
  · intro hzero
    have hlow := (valid_addAll vs).occupied_le_estimate
    rw [occupied_addAll, hzero, Nat.le_zero, Finset.card_eq_zero, Finset.image_eq_empty] at hlow
    exact (List.toFinset_eq_empty_iff vs).mp hlow
  · rintro rfl
    exact estimate_new

/-- **The estimate of not too many values** exceeds their number by little. -/
theorem estimate_addAll_le {vs : List String} (h : vs.toFinset.card ≤ 11657) :
    ((new.addAll vs).estimate : ℝ) ≤ linearBound vs.toFinset.card + 0.5 := by
  have hle : (new.addAll vs).occupied ≤ vs.toFinset.card := by
    rw [occupied_addAll]
    exact Finset.card_image_le
  have hbound := (valid_addAll vs).estimate_le (hle.trans h)
  have hmono := linearBound_mono hle (h.trans_lt (by decide))
  linarith

end Sketch

end Tally.Hll
