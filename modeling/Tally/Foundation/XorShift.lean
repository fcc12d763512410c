import Mathlib.Data.BitVec
import Mathlib.Data.Fintype.EquivFin
import Mathlib.Data.Nat.Prime.Basic
import Mathlib.Logic.Function.Iterate

/-!
# Mixing words

The two steps a finalizer of a hash is made of: a word is combined with itself shifted, or
multiplied by an odd constant. Both permute the words of their width. Shifting twice and combining
is the same as shifting by twice as much, so that a power of two of xor-shift steps has shifted
everything out, and leaves the word as it was.

## Main definitions

* `xorShift k x`: a word combined with itself, shifted right by `k`

## Main results

* `xorShift_iterate`: `2 ^ j` steps are one step with `2 ^ j` times the shift
* `xorShift_bijective`: a positive xor-shift permutes the words
* `mul_bijective_of_odd`: so does the multiplication by an odd word
-/

namespace Foundation

open Function

variable {w k : ℕ}

/-- A word combined with itself, shifted right. -/
def xorShift (k : ℕ) (x : BitVec w) : BitVec w := x ^^^ (x >>> k)

/-- What is shifted once cancels. -/
theorem xorShift_xorShift (k : ℕ) (x : BitVec w) :
    xorShift k (xorShift k x) = xorShift (2 * k) x := by
  unfold xorShift
  rw [BitVec.ushiftRight_xor_distrib, ← BitVec.shiftRight_add, ← two_mul, BitVec.xor_assoc,
    ← BitVec.xor_assoc (x >>> k), BitVec.xor_self, BitVec.zero_xor]

/-- **A power of two of steps** is one step with that many times the shift. -/
theorem xorShift_iterate (k j : ℕ) (x : BitVec w) :
    (xorShift k)^[2 ^ j] x = xorShift (2 ^ j * k) x := by
  induction j generalizing x with
  | zero => rw [pow_zero, iterate_one, one_mul]
  | succ j ih =>
    rw [pow_succ, mul_two, iterate_add_apply, ih, ih, xorShift_xorShift, ← mul_assoc, ← two_mul]

/-- A shift by the whole width leaves nothing to combine with. -/
theorem xorShift_of_le (h : w ≤ k) (x : BitVec w) : xorShift k x = x := by
  have hzero : x >>> k = 0#w := BitVec.ushiftRight_eq_zero h
  rw [xorShift, hzero, BitVec.xor_zero]

/-- **A positive xor-shift permutes the words**: its powers come back to the identity. -/
theorem xorShift_bijective (hk : 0 < k) : Bijective (xorShift (w := w) k) := by
  have hreturn : ∀ x : BitVec w, (xorShift k)^[2 ^ w] x = x := by
    intro x
    rw [xorShift_iterate]
    have hlt : w < 2 ^ w := Nat.lt_two_pow_self
    have hle : 2 ^ w ≤ 2 ^ w * k := Nat.le_mul_of_pos_right _ hk
    exact xorShift_of_le (by omega) x
  obtain ⟨n, hn⟩ : ∃ n, 2 ^ w = n + 1 := Nat.exists_eq_succ_of_ne_zero (Nat.two_pow_pos w).ne'
  rw [hn] at hreturn
  constructor
  · intro x y hxy
    rw [← hreturn x, ← hreturn y, iterate_succ_apply, iterate_succ_apply, hxy]
  · intro x
    refine ⟨(xorShift k)^[n] x, ?_⟩
    rw [← iterate_succ_apply' (xorShift k), hreturn]

/-- **The multiplication by an odd word permutes the words.** -/
theorem mul_bijective_of_odd {c : BitVec w} (hc : Odd c.toNat) : Bijective fun x => x * c := by
  have hfinite : Finite (BitVec w) := Finite.of_equiv _ BitVec.equivFin.symm.toEquiv
  rw [← Finite.injective_iff_bijective]
  intro x y hxy
  have hcoprime : Nat.Coprime (2 ^ w) c.toNat := (Nat.coprime_two_left.mpr hc).pow_left w
  have hmod : x.toNat * c.toNat ≡ y.toNat * c.toNat [MOD 2 ^ w] := by
    have htoNat := congrArg BitVec.toNat hxy
    rwa [BitVec.toNat_mul, BitVec.toNat_mul] at htoNat
  have hcancel := Nat.ModEq.cancel_right_of_coprime hcoprime hmod
  exact BitVec.eq_of_toNat_eq (hcancel.eq_of_lt_of_lt x.isLt y.isLt)

end Foundation
