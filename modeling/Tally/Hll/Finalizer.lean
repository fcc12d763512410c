import Tally.Foundation.XorShift
import Tally.Hll.Statistic

/-!
# The finalizer of the hash

`hash64` passes the FNV-1a value of a string through the splitmix64 finalizer: three xor-shifts and
two multiplications by odd constants. Each permutes the 64-bit words, so the finalizer adds no
collisions to those of FNV-1a, and it leaves no pair of an index and a rank out.

## Main results

* `mix64_bijective`: the finalizer permutes the 64-bit words
* `exists_index_rank`: every index and every rank from 1 to 51 are those of some word
* `finalizer_adds_no_collisions`: what this means for the hash
-/

namespace Tally.Hll

open Foundation Function

/-- The finalizer, as steps on words. -/
theorem toBitVec_mix64 (x : UInt64) :
    (mix64 x).toBitVec =
      xorShift 31 (xorShift 27 (xorShift 30 x.toBitVec * 0xbf58476d1ce4e5b9#64) *
        0x94d049bb133111eb#64) := rfl

/-- **The finalizer permutes the 64-bit words.** -/
theorem mix64_bijective : Bijective mix64 := by
  have h30 : Bijective (xorShift (w := 64) 30) := xorShift_bijective (by decide)
  have h27 : Bijective (xorShift (w := 64) 27) := xorShift_bijective (by decide)
  have h31 : Bijective (xorShift (w := 64) 31) := xorShift_bijective (by decide)
  have hmul : Bijective fun x : BitVec 64 => x * 0xbf58476d1ce4e5b9#64 :=
    mul_bijective_of_odd (by decide)
  have hmul' : Bijective fun x : BitVec 64 => x * 0x94d049bb133111eb#64 :=
    mul_bijective_of_odd (by decide)
  have hsteps := h31.comp (hmul'.comp (h27.comp (hmul.comp h30)))
  constructor
  · intro x y hxy
    have hword := congrArg UInt64.toBitVec hxy
    rw [toBitVec_mix64, toBitVec_mix64] at hword
    exact UInt64.toBitVec_inj.mp (hsteps.injective hword)
  · intro y
    obtain ⟨x, hx⟩ := hsteps.surjective y.toBitVec
    refine ⟨⟨x⟩, UInt64.toBitVec_inj.mp ?_⟩
    rw [toBitVec_mix64]
    exact hx

/-- The low bits of a word that give the rank `r`: zero, or a single bit. -/
def rankBits (r : ℕ) : ℕ := if r = 51 then 0 else 2 ^ (50 - r)

theorem rankBits_lt {r : ℕ} (hr : 1 ≤ r) : rankBits r < 2 ^ 50 := by
  unfold rankBits
  split_ifs
  · exact Nat.two_pow_pos 50
  · exact Nat.pow_lt_pow_right (by decide) (by omega)

theorem leadingZeros_rankBits {r : ℕ} (hr : 1 ≤ r) (hr' : r ≤ 51) :
    1 + leadingZeros 50 (rankBits r) = r := by
  have hlt := rankBits_lt hr
  unfold rankBits at hlt ⊢
  split_ifs at hlt ⊢ with h51
  · rw [leadingZeros_zero, h51]
  · rw [leadingZeros_eq_sub_log2 (Nat.two_pow_pos _).ne' hlt, Nat.log2_two_pow]
    omega

/-- **Every index and every rank are those of some word.** -/
theorem exists_index_rank (i : Fin m) {r : ℕ} (hr : 1 ≤ r) (hr' : r ≤ 51) :
    ∃ h : UInt64, index h = i ∧ (rank h).val = r := by
  have hi : i.val < 2 ^ 14 := i.isLt
  have hlow := rankBits_lt hr
  have hsize : i.val * 2 ^ 50 + rankBits r < UInt64.size := by
    unfold UInt64.size
    omega
  have hword : (UInt64.ofNat (i.val * 2 ^ 50 + rankBits r)).toNat = i.val * 2 ^ 50 + rankBits r :=
    UInt64.toNat_ofNat_of_lt hsize
  refine ⟨UInt64.ofNat (i.val * 2 ^ 50 + rankBits r), ?_, ?_⟩
  · rw [Fin.ext_iff, val_index, hword]
    omega
  · have hmod : (i.val * 2 ^ 50 + rankBits r) % 2 ^ 50 = rankBits r := by omega
    rw [val_rank, hword, hmod, leadingZeros_rankBits hr hr']

/-- **The finalizer adds no collisions.** It is a bijection of the 64-bit words, so two strings, of
any bytes, have one hash exactly when they have one FNV-1a value; and every register index with
every rank from 1 to 51 is what `Add` makes of some FNV-1a value. -/
theorem finalizer_adds_no_collisions :
    Bijective mix64 ∧
    (∀ a b : List UInt8, mix64 (fnv64a a) = mix64 (fnv64a b) ↔ fnv64a a = fnv64a b) ∧
    (∀ a b : String,
      hash64 a = hash64 b ↔ fnv64a a.toUTF8.data.toList = fnv64a b.toUTF8.data.toList) ∧
    ∀ (i : Fin m) (r : ℕ), 1 ≤ r → r ≤ 51 →
      ∃ x : UInt64, index (mix64 x) = i ∧ (rank (mix64 x)).val = r := by
  refine ⟨mix64_bijective, ?_, ?_, ?_⟩
  · intro a b
    exact mix64_bijective.injective.eq_iff
  · intro a b
    exact mix64_bijective.injective.eq_iff
  · intro i r hr hr'
    obtain ⟨h, hindex, hrank⟩ := exists_index_rank i hr hr'
    obtain ⟨x, rfl⟩ := mix64_bijective.surjective h
    exact ⟨x, hindex, hrank⟩

end Tally.Hll
