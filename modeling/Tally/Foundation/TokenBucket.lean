import Mathlib.Algebra.Order.Field.Basic
import Mathlib.Tactic.Linarith
import Mathlib.Tactic.Ring

/-!
# Token buckets

A token bucket gains tokens at a fixed rate up to its burst, and a request takes one if there is
one. What it holds grows by at most the rate times the elapsed time, falls by one with each request
it grants, and is the whole burst once the bucket has been idle for long enough.

## Main definitions

* `TokenBucket`: the tokens at the time of the last request that was granted
* `TokenBucket.available`: the tokens at a later time
* `TokenBucket.take`: one request

## Main results

* `TokenBucket.available_le_add`: growth is bounded by the rate
* `TokenBucket.available_take`, `TokenBucket.available_take_later`: a granted request costs one
  token
* `TokenBucket.available_of_idle`: an idle bucket is full
-/

namespace Foundation

/-- The tokens of a bucket at the time `last`. -/
structure TokenBucket (K : Type*) where
  tokens : K
  last : K

namespace TokenBucket

variable {K : Type*} [Field K] [LinearOrder K]

/-- A full bucket. -/
def full (burst now : K) : TokenBucket K := ⟨burst, now⟩

/-- The tokens at a time. A time before `last` counts as `last`. -/
def available (rate burst : K) (b : TokenBucket K) (now : K) : K :=
  min burst (b.tokens + rate * (now - min b.last now))

/-- A request: it takes a token if there is one, and leaves the bucket as it is otherwise. -/
def take (rate burst now : K) (b : TokenBucket K) : Bool × TokenBucket K :=
  if 1 ≤ b.available rate burst now then (true, ⟨b.available rate burst now - 1, now⟩)
  else (false, b)

variable {rate burst now : K} {b : TokenBucket K}

theorem available_le_burst : b.available rate burst now ≤ burst := min_le_left _ _

@[simp] theorem available_full : (full burst now).available rate burst now = burst := by
  simp [available, full]

theorem take_eq_true_iff : (b.take rate burst now).1 = true ↔ 1 ≤ b.available rate burst now := by
  unfold take
  split_ifs with hone <;> simp [hone]

/-- What a bucket has at a later time, after a request. -/
theorem available_take_later {later : K} (hlater : now ≤ later) :
    (b.take rate burst now).2.available rate burst later =
      if (b.take rate burst now).1 then
        min burst (b.available rate burst now - 1 + rate * (later - now))
      else b.available rate burst later := by
  by_cases hone : 1 ≤ b.available rate burst now
  · have htake : b.take rate burst now = (true, ⟨b.available rate burst now - 1, now⟩) :=
      if_pos hone
    rw [htake, if_pos rfl, available, min_eq_left hlater]
  · have htake : b.take rate burst now = (false, b) := if_neg hone
    rw [htake, if_neg Bool.false_ne_true]

theorem last_take_le (hlast : b.last ≤ now) : (b.take rate burst now).2.last ≤ now := by
  unfold take
  split_ifs
  · exact le_refl now
  · exact hlast

/-- A request notes the time if it is granted. -/
theorem last_take (rate burst now : K) (b : TokenBucket K) :
    (b.take rate burst now).2.last = now ∨ (b.take rate burst now).2.last = b.last := by
  unfold take
  split_ifs
  · exact .inl rfl
  · exact .inr rfl

variable [IsStrictOrderedRing K]

theorem available_nonneg (hrate : 0 ≤ rate) (hburst : 0 ≤ burst) (hb : 0 ≤ b.tokens) :
    0 ≤ b.available rate burst now := by
  have helapsed : 0 ≤ now - min b.last now := sub_nonneg.mpr (min_le_right _ _)
  exact le_min hburst (add_nonneg hb (mul_nonneg hrate helapsed))

/-- **What is available grows by at most the rate times the elapsed time.** -/
theorem available_le_add {later : K} (hrate : 0 ≤ rate) (hlast : b.last ≤ now)
    (hlater : now ≤ later) :
    b.available rate burst later ≤ b.available rate burst now + rate * (later - now) := by
  have hgain : 0 ≤ rate * (later - now) := mul_nonneg hrate (sub_nonneg.mpr hlater)
  unfold available
  rw [min_eq_left hlast, min_eq_left (hlast.trans hlater), ← min_add_add_right]
  apply min_le_min
  · linarith
  · apply le_of_eq
    ring

/-- **A request costs one token if it is granted, and none otherwise.** -/
theorem available_take :
    (b.take rate burst now).2.available rate burst now =
      b.available rate burst now - if (b.take rate burst now).1 then 1 else 0 := by
  unfold take
  split_ifs with hone h h
  · have hle : b.available rate burst now ≤ burst := available_le_burst
    rw [available, min_self, sub_self, mul_zero, add_zero]
    exact min_eq_right (by linarith)
  · exact absurd rfl h
  · cases h
  · rw [sub_zero]

/-- A request leaves no negative number of tokens. -/
theorem tokens_take_nonneg (hb : 0 ≤ b.tokens) : 0 ≤ (b.take rate burst now).2.tokens := by
  unfold take
  split_ifs with hone
  · exact sub_nonneg.mpr hone
  · exact hb

/-- **A bucket that was idle for long enough is full.** -/
theorem available_of_idle (hb : 0 ≤ b.tokens) (hlast : b.last ≤ now)
    (hidle : burst ≤ rate * (now - b.last)) : b.available rate burst now = burst := by
  rw [available, min_eq_left hlast]
  exact min_eq_left (by linarith)

end TokenBucket

end Foundation
