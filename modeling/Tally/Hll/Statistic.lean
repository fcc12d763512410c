import Mathlib.Data.Nat.Log
import Tally.Hll.Sketch

/-!
# The HyperLogLog statistic

What the bit arithmetic of `Add` computes, in terms of the hash as a number: the index is its
quotient by `2 ^ 50`, and the rank is one more than the leading zeros of its remainder, read as a
50-bit word. The remainder is shifted to the top of a 64-bit word first, so its leading zeros are
those of the shifted word unless it is zero; then there are 64 of them, and the clamp to 51 takes
effect. A register is the maximum of the ranks of the values that select it.

## Main definitions

* `leadingZeros w x`: the leading zeros of `x` as a `w`-bit word
* `rho v`: the rank of a value

## Main results

* `val_rank`: the rank `Add` computes is the one of the definition
* `lt_leadingZeros64_iff`: when the clamp takes effect
* `registers_hold_statistic`: the registers of a sketch of values
-/

namespace Tally.Hll

/-! ## Leading zeros -/

/-- The leading zeros of a number as a word of `w` bits. -/
def leadingZeros : ℕ → ℕ → ℕ
  | 0, _ => 0
  | w + 1, x => if x.testBit w then 0 else leadingZeros w x + 1

theorem leadingZeros_zero (w : ℕ) : leadingZeros w 0 = w := by
  induction w with
  | zero => rfl
  | succ w ih => simp [leadingZeros, ih]

/-- In terms of the position of the highest bit. -/
theorem leadingZeros_eq_sub_log2 {w x : ℕ} (hx : x ≠ 0) (hlt : x < 2 ^ w) :
    leadingZeros w x = w - 1 - x.log2 := by
  induction w with
  | zero =>
    rw [pow_zero] at hlt
    omega
  | succ w ih =>
    rw [leadingZeros]
    by_cases htop : x < 2 ^ w
    · have hlog : x.log2 < w := (Nat.log2_lt hx).mpr htop
      rw [if_neg (by simp [Nat.testBit_lt_two_pow htop]), ih htop]
      omega
    · have hbit : x.testBit w = true := by
        rw [Nat.testBit_eq_decide_div_mod_eq]
        have hdiv : x / 2 ^ w = 1 := by
          rw [pow_succ] at hlt
          exact Nat.div_eq_of_lt_le (by omega) (by omega)
        simp [hdiv]
      have hlog : ¬ x.log2 < w := fun h => htop ((Nat.log2_lt hx).mp h)
      rw [if_pos hbit]
      omega

/-- `bits.LeadingZeros64` counts the leading zeros of a 64-bit word. -/
theorem leadingZeros64_eq (x : UInt64) : leadingZeros64 x = leadingZeros 64 x.toNat := by
  unfold leadingZeros64
  split_ifs with hx
  · rw [hx]
    exact (leadingZeros_zero 64).symm
  · have hne : x.toNat ≠ 0 := fun h => hx (UInt64.toNat_inj.mp h)
    rw [leadingZeros_eq_sub_log2 hne x.toNat_lt]

/-! ## The rank -/

variable {V : Type} [GoString V]

/-- The rank of a value: one more than the leading zeros of the low 50 bits of its hash. -/
def rho (value : V) : ℕ := 1 + leadingZeros 50 ((hash64 value).toNat % 2 ^ 50)

/-- The rank is 51 when these bits are all zero. -/
theorem rho_eq_ite (v : V) :
    rho v = if (hash64 v).toNat % 2 ^ 50 = 0 then 51
      else 1 + leadingZeros 50 ((hash64 v).toNat % 2 ^ 50) := by
  unfold rho
  split_ifs with h
  · rw [h, leadingZeros_zero]
  · rfl

/-- The bits below the index, at the top of a word. -/
theorem toNat_shiftLeft (h : UInt64) : (h <<< 14).toNat = h.toNat % 2 ^ 50 * 2 ^ 14 := by
  rw [UInt64.toNat_shiftLeft, Nat.shiftLeft_eq]
  have h14 : (14 : UInt64).toNat % 64 = 14 := rfl
  rw [h14]
  omega

/-- Shifting the word to the top keeps its leading zeros, unless it is zero. -/
theorem leadingZeros64_shiftLeft (h : UInt64) :
    leadingZeros64 (h <<< 14) =
      if h.toNat % 2 ^ 50 = 0 then 64 else leadingZeros 50 (h.toNat % 2 ^ 50) := by
  rw [leadingZeros64_eq, toNat_shiftLeft]
  have hlt : h.toNat % 2 ^ 50 < 2 ^ 50 := Nat.mod_lt _ (Nat.two_pow_pos 50)
  generalize h.toNat % 2 ^ 50 = x at hlt
  split_ifs with hx
  · rw [hx, Nat.zero_mul, leadingZeros_zero]
  · have hmul : x * 2 ^ 14 ≠ 0 := Nat.mul_ne_zero hx (Nat.two_pow_pos 14).ne'
    have hlog : (x * 2 ^ 14).log2 = x.log2 + 14 := by
      obtain ⟨hlow, hhigh⟩ := (Nat.log2_eq_iff hx).mp rfl
      have hpow : 2 ^ (x.log2 + 14) = 2 ^ x.log2 * 2 ^ 14 := pow_add 2 x.log2 14
      have hpow' : 2 ^ (x.log2 + 14 + 1) = 2 ^ (x.log2 + 1) * 2 ^ 14 := by
        rw [← pow_add, Nat.add_right_comm]
      rw [Nat.log2_eq_iff hmul, hpow, hpow']
      omega
    rw [leadingZeros_eq_sub_log2 hmul (by omega), leadingZeros_eq_sub_log2 hx hlt, hlog]
    omega

theorem leadingZeros_le (w x : ℕ) : leadingZeros w x ≤ w := by
  induction w with
  | zero => exact le_refl 0
  | succ w ih =>
    rw [leadingZeros]
    split_ifs
    · exact Nat.zero_le _
    · exact Nat.succ_le_succ ih

/-- **The clamp takes effect exactly when the low 50 bits are all zero.** -/
theorem lt_leadingZeros64_iff (h : UInt64) :
    51 < leadingZeros64 (h <<< 14) + 1 ↔ h.toNat % 2 ^ 50 = 0 := by
  rw [leadingZeros64_shiftLeft]
  have hle := leadingZeros_le 50 (h.toNat % 2 ^ 50)
  split_ifs with hx
  · exact iff_of_true (by omega) hx
  · exact iff_of_false (by omega) hx

/-- The increment of the rank does not leave a `uint8`. -/
theorem leadingZeros64_lt (x : UInt64) : leadingZeros64 x + 1 < 256 := by
  have hle := leadingZeros_le 64 x.toNat
  rw [leadingZeros64_eq]
  omega

/-- **The rank `Add` computes.** -/
theorem val_rank (h : UInt64) : (rank h).val = 1 + leadingZeros 50 (h.toNat % 2 ^ 50) := by
  have hwrap := leadingZeros64_lt (h <<< 14)
  have hclamp := lt_leadingZeros64_iff h
  have hlz := leadingZeros64_shiftLeft h
  have hval : (Fin.ofNat 256 (leadingZeros64 (h <<< 14)) + 1 : Byte).val =
      leadingZeros64 (h <<< 14) + 1 := by
    simp only [Fin.val_add, Fin.ofNat, Fin.val_one]
    omega
  have hgt : (Fin.ofNat 256 (leadingZeros64 (h <<< 14)) + 1 : Byte) > 51 ↔
      51 < leadingZeros64 (h <<< 14) + 1 := by
    rw [gt_iff_lt, Fin.lt_def, hval]
    rfl
  simp only [rank]
  split_ifs with hbig
  · rw [hclamp.mp (hgt.mp hbig), leadingZeros_zero]
    rfl
  · rw [hval, hlz, if_neg (fun h0 => hbig (hgt.mpr (hclamp.mpr h0))), Nat.add_comm]

theorem val_index (h : UInt64) : (index h).val = h.toNat / 2 ^ 50 := by
  have h50 : (50 : UInt64).toNat % 64 = 50 := rfl
  show (h >>> 50).toNat = _
  rw [UInt64.toNat_shiftRight, Nat.shiftRight_eq_div_pow, h50]

/-- The rank of a value is at most 51. -/
theorem rho_le (v : V) : rho v ≤ 51 := by
  have hle := leadingZeros_le 50 ((hash64 v).toNat % 2 ^ 50)
  unfold rho
  omega

/-! ## The registers -/

namespace Sketch

/-- What a value contributes to a register. -/
theorem val_regs_mark (v : V) (j : Fin m) :
    ((mark v).regs j).val = if (hash64 v).toNat / 2 ^ 50 = j then rho v else 0 := by
  have hindex : j = index (hash64 v) ↔ (hash64 v).toNat / 2 ^ 50 = j := by
    rw [Fin.ext_iff, val_index, eq_comm]
  simp only [mark, hindex]
  split_ifs
  · exact val_rank _
  · rfl

/-- The maximum of the ranks of the values that select a register, 0 if there are none. -/
def statistic (vs : List V) (j : ℕ) : ℕ :=
  ((vs.filter fun v => (hash64 v).toNat / 2 ^ 50 = j).map rho).foldr max 0

theorem statistic_cons (v : V) (vs : List V) (j : ℕ) :
    statistic (v :: vs) j =
      max (if (hash64 v).toNat / 2 ^ 50 = j then rho v else 0) (statistic vs j) := by
  unfold statistic
  by_cases hv : (hash64 v).toNat / 2 ^ 50 = j
  · rw [List.filter_cons_of_pos (by simpa using hv), if_pos hv, List.map_cons, List.foldr_cons]
  · rw [List.filter_cons_of_neg (by simpa using hv), if_neg hv, Nat.zero_max]

/-- Adding values to any sketch. -/
theorem val_regs_addAll (s : Sketch) (vs : List V) (j : Fin m) :
    ((s.addAll vs).regs j).val = max (s.regs j).val (statistic vs j) := by
  induction vs generalizing s with
  | nil => exact (Nat.max_zero _).symm
  | cons v vs ih =>
    have hcons : s.addAll (v :: vs) = (s.add v).addAll vs := by
      simp only [addAll, List.foldl_cons]
    have hsup : ((s.add v).regs j).val = max (s.regs j).val ((mark v).regs j).val := by
      rw [add_eq_sup, regs_sup]
      exact Fin.coe_max _ _
    rw [hcons, ih, hsup, val_regs_mark, statistic_cons, max_assoc]

theorem statistic_le (vs : List V) (j : ℕ) : statistic vs j ≤ 51 := by
  induction vs with
  | nil => exact Nat.zero_le 51
  | cons v vs ih =>
    rw [statistic_cons]
    have hv := rho_le v
    split_ifs <;> omega

/-- **Registers hold exactly the HyperLogLog statistic.** After any Go strings are added to an empty
sketch, register `j` is the maximum of the ranks of those whose hash has the quotient `j` by
`2 ^ 50`, and is at most 51. The rank of a value is one more than the leading zeros of the low 50
bits of its hash, and 51 when these are all zero. For every hash the index is in range, the
increment of the rank does not wrap, and the clamp takes effect exactly when the low 50 bits are
all zero. -/
theorem registers_hold_statistic :
    (∀ (V : Type) [GoString V] (vs : List V) (j : Fin m),
      ((new.addAll vs).regs j).val =
          ((vs.filter fun v => (hash64 v).toNat / 2 ^ 50 = j).map rho).foldr max 0 ∧
        ((new.addAll vs).regs j).val ≤ 51) ∧
    (∀ (V : Type) [GoString V] (v : V), rho v = if (hash64 v).toNat % 2 ^ 50 = 0 then 51
      else 1 + leadingZeros 50 ((hash64 v).toNat % 2 ^ 50)) ∧
    ∀ h : UInt64, (h >>> 50).toNat < 16384 ∧ leadingZeros64 (h <<< 14) + 1 < 2 ^ 8 ∧
      (51 < leadingZeros64 (h <<< 14) + 1 ↔ h.toNat % 2 ^ 50 = 0) := by
  refine ⟨?_, fun V _ v => rho_eq_ite v, ?_⟩
  · intro V _ vs j
    have hregs : ((new.addAll vs).regs j).val = statistic vs j := by
      rw [val_regs_addAll]
      exact Nat.zero_max _
    exact ⟨hregs, hregs.trans_le (statistic_le vs j)⟩
  · intro h
    exact ⟨shiftRight_toNat_lt_m h, leadingZeros64_lt _, lt_leadingZeros64_iff h⟩

end Sketch

end Tally.Hll
