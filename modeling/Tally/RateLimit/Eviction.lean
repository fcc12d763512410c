import Mathlib.Data.Set.List
import Tally.RateLimit.Memory

/-!
# The eviction of idle buckets

The janitor drops the buckets not used for more than ten minutes, and a key that comes back gets a
full one. Clients cannot see this exactly when ten minutes fill an empty bucket, which the burst
`main` chooses by default always does. The times of a run are any rational numbers of seconds; at
the nanoseconds of the clock a bucket has at least one nanosecond more than ten minutes to fill up,
and a rate from `10 ^ 9` on makes use of it.

## Main definitions

* `rateBurst`: the burst `loadConfig` sets
* `MemoryLimiter.answers`: the answers of the limiter at the nanoseconds of the clock

## Main results

* `MemoryLimiter.answers_toPool`: the limiter answers as the pool of buckets does
* `eviction_invisible_iff`: when the janitor cannot be seen
-/

namespace Tally

open Foundation

/-- The burst of `loadConfig`, from `RATE_LIMIT_RPS` and `RATE_LIMIT_BURST`: twice the rate, unless
it is set. -/
def rateBurst (rateRPS burst : ℕ) : ℕ := if burst = 0 then 2 * rateRPS else burst

/-- At any times: the idle time is passed by as little as one likes. -/
theorem forall_rat_fill_iff (rps burst : ℕ) :
    (∀ s t : ℚ, s < t - 600 → (burst : ℚ) ≤ rps * (t - s)) ↔ burst ≤ 600 * rps := by
  constructor
  · intro h
    by_contra hlt
    have hburst : (600 * rps + 1 : ℚ) ≤ burst := by exact_mod_cast not_le.mp hlt
    have hrps : (0 : ℚ) < rps + 1 := by positivity
    have hfill := h 0 (600 + 1 / (rps + 1)) (by
      have : (0 : ℚ) < 1 / (rps + 1) := by positivity
      linarith)
    have hgain : (rps : ℚ) * (1 / (rps + 1)) < 1 := by
      rw [mul_one_div, div_lt_one hrps]
      linarith
    linarith
  · intro h s t hst
    have hburst : (burst : ℚ) ≤ 600 * rps := by exact_mod_cast h
    calc (burst : ℚ) ≤ rps * 600 := by linarith
      _ ≤ rps * (t - s) := mul_le_mul_of_nonneg_left (by linarith) (Nat.cast_nonneg rps)

theorem Limit.rate_nonneg (rps burst : ℕ) : 0 ≤ (Limit.rules ⟨rps, burst⟩).rate :=
  Nat.cast_nonneg rps

theorem Limit.idle_nonneg (limit : Limit) : 0 ≤ limit.rules.idle := by
  show (0 : ℚ) ≤ 600
  norm_num

/-- At any times, the janitor cannot be seen exactly when ten minutes fill a bucket. -/
theorem answers_rules_eq_iff (rps burst : ℕ) :
    (∀ ops : List (ℚ × PoolOp String), ops.Pairwise (fun o o' => o.1 ≤ o'.1) →
        BucketPool.answers (Limit.rules ⟨rps, burst⟩) .new ops =
          BucketPool.answers (Limit.rules ⟨rps, burst⟩) .new
            (ops.filter fun o => o.2 ≠ .evict)) ↔
      burst ≤ 600 * rps := by
  have hpool := BucketPool.answers_eq_iff (κ := String) (Limit.rate_nonneg rps burst)
    (Limit.idle_nonneg ⟨rps, burst⟩) Set.univ
  simp only [Set.mem_univ, implies_true, forall_const] at hpool
  rw [← forall_rat_fill_iff]
  exact hpool

/-! ## The nanoseconds of the clock -/

namespace MemoryLimiter

/-- The answers of the limiter to the requests of a run. -/
def answers (limit : Limit) : MemoryLimiter → List (ℤ × PoolOp String) → List Bool
  | _, [] => []
  | m, (now, .allow key) :: ops =>
    (m.allow limit now key).1 :: answers limit (m.allow limit now key).2 ops
  | m, (now, .evict) :: ops => answers limit (m.janitor now) ops

/-- **The limiter answers as the pool does.** -/
theorem answers_toPool (limit : Limit) (m : MemoryLimiter) (ops : List (ℤ × PoolOp String)) :
    BucketPool.answers limit.rules m.toPool (ops.map (Prod.map seconds id)) =
      m.answers limit ops := by
  induction ops generalizing m with
  | nil => rfl
  | cons op ops ih =>
    obtain ⟨now, key | _⟩ := op
    · rw [List.map_cons, Prod.map_apply, id, BucketPool.answers, allow_toPool, ih, answers]
    · rw [List.map_cons, Prod.map_apply, id, BucketPool.answers, ← toPool_janitor, ih, answers]

/-- At whole nanoseconds: the idle time is passed by one of them at least. -/
theorem forall_seconds_fill_iff (rps burst : ℕ) :
    (∀ s ∈ Set.range seconds, ∀ t ∈ Set.range seconds, s < t - 600 →
        (burst : ℚ) ≤ rps * (t - s)) ↔ burst ≤ 600 * rps + rps / 1000000000 := by
  have hcast : ∀ n : ℕ, (burst : ℚ) ≤ rps * (n / 1000000000) ↔ burst * 1000000000 ≤ rps * n := by
    intro n
    rw [← mul_div_assoc, le_div_iff₀ (by norm_num)]
    exact_mod_cast Iff.rfl
  constructor
  · intro h
    have hfill := h (seconds 0) ⟨0, rfl⟩ (seconds 600000000001) ⟨_, rfl⟩
      (by norm_num [seconds])
    have hsub : seconds 600000000001 - seconds 0 = ((600000000001 : ℕ) : ℚ) / 1000000000 := by
      norm_num [seconds]
    rw [hsub, hcast] at hfill
    omega
  · rintro h _ ⟨s, rfl⟩ _ ⟨t, rfl⟩ hst
    have hidle : s < t - 600 * 1000000000 := seconds_lt_iff.mp hst
    obtain ⟨n, hn⟩ : ∃ n : ℕ, t - s = 600000000001 + n :=
      ⟨(t - s - 600000000001).toNat, by omega⟩
    have hsub : seconds t - seconds s = ((600000000001 + n : ℕ) : ℚ) / 1000000000 := by
      have hq : (t : ℚ) - s = 600000000001 + n := by exact_mod_cast hn
      unfold seconds
      push_cast
      linarith
    rw [hsub, hcast]
    have hwhole : rps / 1000000000 * 1000000000 ≤ rps := Nat.div_mul_le_self rps _
    calc burst * 1000000000 ≤ (600 * rps + rps / 1000000000) * 1000000000 :=
          Nat.mul_le_mul_right _ h
      _ ≤ rps * 600000000001 := by linarith
      _ ≤ rps * (600000000001 + n) := Nat.mul_le_mul_left rps (Nat.le_add_right _ n)

/-- **The janitor at the nanoseconds of the clock** cannot be seen exactly when the burst is at most
what a bucket gains in ten minutes and a nanosecond. -/
theorem answers_eq_iff (rps burst : ℕ) :
    (∀ ops : List (ℤ × PoolOp String), ops.Pairwise (fun o o' => o.1 ≤ o'.1) →
        new.answers ⟨rps, burst⟩ ops =
          new.answers ⟨rps, burst⟩ (ops.filter fun o => o.2 ≠ .evict)) ↔
      burst ≤ 600 * rps + rps / 1000000000 := by
  rw [← forall_seconds_fill_iff]
  refine Iff.trans ?_ (BucketPool.answers_eq_iff (κ := String) (Limit.rate_nonneg rps burst)
    (Limit.idle_nonneg ⟨rps, burst⟩) (Set.range seconds))
  have hfilter : ∀ ops : List (ℤ × PoolOp String),
      (ops.map (Prod.map seconds id)).filter (fun o => o.2 ≠ .evict) =
        (ops.filter fun o => o.2 ≠ .evict).map (Prod.map seconds id) := by
    intro ops
    rw [List.filter_map]
    rfl
  have hnew : new.toPool = .new := rfl
  constructor
  · intro h ops hsorted hclock
    have hlift : ops ∈ Set.range (List.map (Prod.map seconds (id : PoolOp String → _))) := by
      rw [Set.range_list_map]
      intro o ho
      obtain ⟨t, ht⟩ := hclock o ho
      exact ⟨(t, o.2), Prod.ext ht rfl⟩
    obtain ⟨ops, rfl⟩ := hlift
    rw [List.pairwise_map] at hsorted
    rw [hfilter, ← hnew, answers_toPool, answers_toPool]
    exact h ops (hsorted.imp fun h => seconds_le_iff.mp h)
  · intro h ops hsorted
    have hclock : ∀ o ∈ ops.map (Prod.map seconds id), o.1 ∈ Set.range seconds := by
      intro o ho
      obtain ⟨o', -, rfl⟩ := List.mem_map.mp ho
      exact ⟨o'.1, rfl⟩
    have hpool := h (ops.map (Prod.map seconds id))
      (List.pairwise_map.mpr (hsorted.imp fun h => seconds_mono h)) hclock
    rwa [hfilter, ← hnew, answers_toPool, answers_toPool] at hpool

end MemoryLimiter

/-- **The janitor cannot be seen by clients, if and only if ten minutes fill an empty bucket.** In
every run of requests for any keys and passes of the janitor, at non-decreasing times, the limiter
answers as one without the janitor, exactly when the burst is at most 600 times the rate. At the
nanoseconds of the clock this is so for rates below `10 ^ 9`, and a higher rate gains in the
nanosecond that the ten minutes are exceeded by. The burst that `loadConfig` sets by default is
small enough. -/
theorem eviction_invisible_iff (rps burst : ℕ) :
    ((∀ ops : List (ℚ × PoolOp String), ops.Pairwise (fun o o' => o.1 ≤ o'.1) →
        BucketPool.answers (Limit.rules ⟨rps, burst⟩) .new ops =
          BucketPool.answers (Limit.rules ⟨rps, burst⟩) .new
            (ops.filter fun o => o.2 ≠ .evict)) ↔
      burst ≤ 600 * rps) ∧
    ((∀ ops : List (ℤ × PoolOp String), ops.Pairwise (fun o o' => o.1 ≤ o'.1) →
        MemoryLimiter.new.answers ⟨rps, burst⟩ ops =
          MemoryLimiter.new.answers ⟨rps, burst⟩ (ops.filter fun o => o.2 ≠ .evict)) ↔
      burst ≤ 600 * rps + rps / 1000000000) ∧
    rateBurst rps 0 ≤ 600 * rps := by
  refine ⟨answers_rules_eq_iff rps burst, MemoryLimiter.answers_eq_iff rps burst, ?_⟩
  rw [rateBurst, if_pos rfl]
  omega

end Tally
