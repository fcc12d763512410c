import Mathlib.Algebra.Order.Ring.Rat
import Tally.Foundation.BucketPool

/-!
# The in-memory limiter

`ratelimit.Memory`: one token bucket per client key, created full on first sight, and a janitor
that evicts the buckets not used for ten minutes. A limiter of `golang.org/x/time/rate` is taken
to be an exact token bucket. The limiter is a pool of buckets that is used at whole nanoseconds: a
key without a bucket has the whole burst left, so that eviction is harmless exactly when a bucket
left alone for ten minutes is full again.

## Main definitions

* `Limit`: the rate and the burst
* `MemoryLimiter`: the buckets
* `MemoryLimiter.allow`, `MemoryLimiter.janitor`: a request, and a pass of the janitor
* `MemoryLimiter.level`: what a key has left
* `MemoryLimiter.Kept`: the buckets are not overdrawn, and were used in the past
* `MemoryLimiter.toPool`: the limiter as a pool

## Main results

* `MemoryLimiter.allow_toPool`, `MemoryLimiter.toPool_janitor`: the operations are those of the pool
* `MemoryLimiter.level_allow_self`, `MemoryLimiter.level_allow_of_ne`: an allowed request costs its
  key one token, and other keys nothing
* `MemoryLimiter.level_janitor`: the janitor changes no level
* `MemoryLimiter.level_le_add`: levels grow by at most the rate
-/

namespace Tally

open Foundation

/-- A time in nanoseconds, in seconds. -/
def seconds (t : ℤ) : ℚ := t / 1000000000

theorem seconds_mono {s t : ℤ} (h : s ≤ t) : seconds s ≤ seconds t := by
  unfold seconds
  have hcast : (s : ℚ) ≤ t := by exact_mod_cast h
  linarith

theorem seconds_le_iff {s t : ℤ} : seconds s ≤ seconds t ↔ s ≤ t := by
  refine ⟨fun h => ?_, seconds_mono⟩
  unfold seconds at h
  have hcast : (s : ℚ) ≤ t := by linarith
  exact_mod_cast hcast

/-- The rate, in events per second, and the burst. -/
structure Limit where
  rps : ℚ
  burst : ℕ

/-- The rules of the buckets as a pool: they are dropped after ten minutes. -/
def Limit.rules (limit : Limit) : BucketRules ℚ := ⟨limit.rps, limit.burst, 600⟩

/-- `entry`: the bucket of a key, and the time it was last used. -/
structure Entry where
  lim : TokenBucket ℚ
  last : ℤ

/-- `ratelimit.Memory`. Its rate and burst never change, and are parameters of its operations. -/
structure MemoryLimiter where
  buckets : String → Option Entry

namespace MemoryLimiter

/-- `NewMemory`. -/
def new : MemoryLimiter := ⟨fun _ => none⟩

/-- The entry of a key, created with a full bucket if there is none. -/
def entry (limit : Limit) (now : ℤ) (key : String) (m : MemoryLimiter) : Entry :=
  (m.buckets key).getD ⟨.full limit.burst (seconds now), now⟩

/-- `Memory.Allow`. -/
def allow (limit : Limit) (now : ℤ) (key : String) (m : MemoryLimiter) : Bool × MemoryLimiter :=
  let (ok, lim) := (m.entry limit now key).lim.take limit.rps limit.burst (seconds now)
  (ok, ⟨Function.update m.buckets key (some ⟨lim, now⟩)⟩)

/-- A pass of `Memory.janitor`: it evicts the buckets not used for ten minutes. -/
def janitor (now : ℤ) (m : MemoryLimiter) : MemoryLimiter :=
  -- `e.last.Before(cutoff)`: used strictly before
  let cutoff := now - 600 * 1000000000
  ⟨fun key => (m.buckets key).filter fun e => ¬ e.last < cutoff⟩

/-- The tokens a key has left at a time. -/
def level (limit : Limit) (m : MemoryLimiter) (key : String) (now : ℤ) : ℚ :=
  match m.buckets key with
  | none => limit.burst
  | some e => e.lim.available limit.rps limit.burst (seconds now)

/-- No bucket is overdrawn, and all were last used at or before `now`. -/
def Kept (m : MemoryLimiter) (now : ℤ) : Prop :=
  ∀ key e, m.buckets key = some e → 0 ≤ e.lim.tokens ∧ e.lim.last ≤ seconds e.last ∧ e.last ≤ now

/-- The limiter as a pool of buckets. -/
def toPool (m : MemoryLimiter) : BucketPool String ℚ :=
  ⟨fun key => (m.buckets key).map fun e => ⟨e.lim, seconds e.last⟩⟩

variable {limit : Limit} {m : MemoryLimiter} {key : String} {now later : ℤ}

/-! ## The buckets -/

theorem allow_buckets (limit : Limit) (now : ℤ) (key : String) (m : MemoryLimiter) :
    (m.allow limit now key).2.buckets = Function.update m.buckets key
      (some ⟨((m.entry limit now key).lim.take limit.rps limit.burst (seconds now)).2, now⟩) := by
  rw [allow]

theorem janitor_buckets (now : ℤ) (m : MemoryLimiter) (key : String) :
    (m.janitor now).buckets key =
      (m.buckets key).filter fun e => ¬ e.last < now - 600 * 1000000000 := by
  rw [janitor]

/-! ## The pool -/

theorem entries_toPool (m : MemoryLimiter) (key : String) :
    m.toPool.entries key = (m.buckets key).map fun e => ⟨e.lim, seconds e.last⟩ := rfl

/-- A new bucket of the limiter is one of the pool. -/
theorem bucket_entry (limit : Limit) (now : ℤ) (key : String) (m : MemoryLimiter) :
    (m.toPool.entry limit.rules (seconds now) key).bucket = (m.entry limit now key).lim := by
  rw [BucketPool.entry, entry, entries_toPool]
  cases m.buckets key with
  | none => rfl
  | some e => rfl

/-- **A request to the limiter is one to the pool.** -/
theorem allow_toPool (limit : Limit) (now : ℤ) (key : String) (m : MemoryLimiter) :
    m.toPool.allow limit.rules (seconds now) key =
      ((m.allow limit now key).1, (m.allow limit now key).2.toPool) := by
  refine Prod.ext ?_ ?_
  · rw [BucketPool.allow, bucket_entry]
    rfl
  · have hentries : (m.toPool.allow limit.rules (seconds now) key).2.entries =
        (m.allow limit now key).2.toPool.entries := by
      funext key'
      rw [BucketPool.entries_allow, bucket_entry, entries_toPool, allow_buckets]
      by_cases hkey : key' = key
      · subst hkey
        rw [Function.update_self, Function.update_self]
        rfl
      · rw [Function.update_of_ne hkey, Function.update_of_ne hkey, entries_toPool]
    exact congrArg BucketPool.mk hentries

/-- The idle time of the janitor, in seconds. -/
theorem seconds_lt_iff {s t : ℤ} : seconds s < seconds t - 600 ↔ s < t - 600 * 1000000000 := by
  have hseconds : seconds t - 600 = seconds (t - 600 * 1000000000) := by
    unfold seconds
    push_cast
    ring
  rw [hseconds, ← not_le, seconds_le_iff, not_le]

/-- **A pass of the janitor is an eviction from the pool.** -/
theorem toPool_janitor (limit : Limit) (now : ℤ) (m : MemoryLimiter) :
    (m.janitor now).toPool = m.toPool.evict limit.rules (seconds now) := by
  have hentries : (m.janitor now).toPool.entries =
      (m.toPool.evict limit.rules (seconds now)).entries := by
    funext key
    rw [BucketPool.entries_evict, entries_toPool, entries_toPool, janitor_buckets]
    cases m.buckets key with
    | none => rfl
    | some e =>
      have hidle : seconds e.last < seconds now - limit.rules.idle ↔
          e.last < now - 600 * 1000000000 := seconds_lt_iff
      simp only [Option.map_some, Option.filter_some, hidle]
      split_ifs <;> rfl
  exact congrArg BucketPool.mk hentries

theorem level_toPool (limit : Limit) (m : MemoryLimiter) (key : String) (now : ℤ) :
    m.toPool.level limit.rules key (seconds now) = m.level limit key now := by
  rw [BucketPool.level, level, entries_toPool]
  cases m.buckets key with
  | none => rfl
  | some e => rfl

theorem kept_toPool_iff :
    m.toPool.Kept (Set.range seconds) (seconds now) ↔ m.Kept now := by
  constructor
  · intro h key e he
    obtain ⟨htokens, hlast, hused, -⟩ :=
      h key ⟨e.lim, seconds e.last⟩ (by rw [entries_toPool, he]; rfl)
    exact ⟨htokens, hlast, seconds_le_iff.mp hused⟩
  · intro h key e' he'
    obtain ⟨e, he, rfl⟩ := Option.map_eq_some_iff.mp he'
    obtain ⟨htokens, hlast, hused⟩ := h key e he
    exact ⟨htokens, hlast, seconds_le_iff.mpr hused, e.last, rfl⟩

theorem kept_new (now : ℤ) : new.Kept now := by
  intro key e he
  cases he

theorem Kept.mono (h : m.Kept now) (hlater : now ≤ later) : m.Kept later :=
  kept_toPool_iff.mp ((kept_toPool_iff.mpr h).mono (seconds_mono hlater))

theorem Kept.allow (h : m.Kept now) (key : String) : (m.allow limit now key).2.Kept now := by
  have hpool := (kept_toPool_iff.mpr h).allow (r := limit.rules) ⟨now, rfl⟩ key
  rw [allow_toPool] at hpool
  exact kept_toPool_iff.mp hpool

theorem Kept.janitor (h : m.Kept now) (t : ℤ) : (m.janitor t).Kept now := by
  have hpool := (kept_toPool_iff.mpr h).evict (r := Limit.rules ⟨0, 0⟩) (seconds t)
  rw [← toPool_janitor] at hpool
  exact kept_toPool_iff.mp hpool

/-! ## The levels -/

theorem level_le_burst : m.level limit key now ≤ limit.burst := by
  rw [← level_toPool]
  exact BucketPool.level_le_burst

theorem level_nonneg (hrps : 0 ≤ limit.rps) (h : m.Kept now) (key : String) :
    0 ≤ m.level limit key now := by
  rw [← level_toPool]
  exact BucketPool.level_nonneg hrps (kept_toPool_iff.mpr h) key

/-- **Levels grow by at most the rate.** -/
theorem level_le_add (hrps : 0 ≤ limit.rps) (h : m.Kept now) (hlater : now ≤ later)
    (key : String) :
    m.level limit key later ≤
      m.level limit key now + limit.rps * (seconds later - seconds now) := by
  rw [← level_toPool, ← level_toPool]
  exact BucketPool.level_le_add hrps (kept_toPool_iff.mpr h) (seconds_mono hlater) key

theorem allow_eq_true_iff : (m.allow limit now key).1 = true ↔ 1 ≤ m.level limit key now := by
  have hpool : (m.toPool.allow limit.rules (seconds now) key).1 = true ↔ _ :=
    BucketPool.allow_eq_true_iff
  rwa [allow_toPool, level_toPool] at hpool

/-- **A request costs its key one token if it is allowed, and none otherwise.** -/
theorem level_allow_self : (m.allow limit now key).2.level limit key now =
    m.level limit key now - if (m.allow limit now key).1 then 1 else 0 := by
  have hpool : (m.toPool.allow limit.rules (seconds now) key).2.level _ key _ = _ :=
    BucketPool.level_allow_now
  rwa [allow_toPool, level_toPool, level_toPool] at hpool

/-- **A request costs the other keys nothing.** -/
theorem level_allow_of_ne {key' : String} (hkey : key' ≠ key) (t : ℤ) :
    (m.allow limit now key).2.level limit key' t = m.level limit key' t := by
  have hpool : (m.toPool.allow limit.rules (seconds now) key).2.level _ key' _ = _ :=
    BucketPool.level_allow_of_ne hkey (seconds t)
  rwa [allow_toPool, level_toPool, level_toPool] at hpool

/-- **The janitor changes no level**, when a bucket fills up within ten minutes. -/
theorem level_janitor (hrps : 0 ≤ limit.rps) (hburst : (limit.burst : ℚ) ≤ 600 * limit.rps)
    (h : m.Kept now) (key : String) :
    (m.janitor now).level limit key now = m.level limit key now := by
  have hfull : ∀ s ∈ Set.range seconds, s < seconds now - limit.rules.idle →
      (limit.rules.burst : ℚ) ≤ limit.rules.rate * (seconds now - s) := by
    intro s _ hs
    have hidle : 600 ≤ seconds now - s := by
      have hs : s < seconds now - 600 := hs
      linarith
    calc (limit.burst : ℚ) ≤ limit.rps * 600 := by linarith
      _ ≤ limit.rps * (seconds now - s) := mul_le_mul_of_nonneg_left hidle hrps
  rw [← level_toPool, ← level_toPool, toPool_janitor limit]
  exact BucketPool.level_evict hrps (kept_toPool_iff.mpr h) hfull (le_refl _) key

end MemoryLimiter

end Tally
