import Mathlib.Logic.Function.Basic
import Tally.Foundation.TokenBucket

/-!
# Pools of token buckets

One token bucket for each key, created full when the key is first seen, and dropped again when it
has not been asked for longer than an idle time. A key without a bucket has the whole burst left, so
what a key has left is defined with or without one, and a dropped bucket changes it only if it was
not full. Whether eviction can be seen depends on the times the pool is used at: it cannot exactly
when every two of them that are further apart than the idle time leave time to fill a bucket.

## Main definitions

* `BucketRules`, `BucketPool`: the rate, the burst and the idle time; the buckets
* `BucketPool.allow`, `BucketPool.evict`: a request, and a pass that drops idle buckets
* `BucketPool.level`: what a key has left
* `BucketPool.answers`: the answers to the requests of a run

## Main results

* `BucketPool.level_allow_self`, `BucketPool.level_allow_of_ne`: what a request costs
* `BucketPool.level_evict`: dropping full buckets changes no level
* `BucketPool.answers_eq_iff`: when eviction cannot be seen
-/

namespace Foundation

/-- The rate and the burst of the buckets, and how long an unused one is kept. -/
structure BucketRules (K : Type*) where
  rate : K
  burst : ℕ
  idle : K

/-- A bucket, and the time it was last asked. -/
structure PoolEntry (K : Type*) where
  bucket : TokenBucket K
  last : K

/-- The buckets of the keys. -/
structure BucketPool (κ K : Type*) where
  entries : κ → Option (PoolEntry K)

/-- A request for a key, or a pass that drops idle buckets. -/
inductive PoolOp (κ : Type*) where
  | allow (key : κ)
  | evict
  deriving DecidableEq

namespace BucketPool

variable {κ K : Type*} [Field K] [LinearOrder K]

/-- A pool without buckets. -/
def new : BucketPool κ K := ⟨fun _ => none⟩

/-- The bucket of a key, a full one if there is none. -/
def entry (r : BucketRules K) (now : K) (key : κ) (p : BucketPool κ K) : PoolEntry K :=
  (p.entries key).getD ⟨.full r.burst now, now⟩

/-- A request: the bucket is asked, and the time is noted whatever the answer is. -/
def allow [DecidableEq κ] (r : BucketRules K) (now : K) (key : κ) (p : BucketPool κ K) :
    Bool × BucketPool κ K :=
  let (ok, bucket) := (p.entry r now key).bucket.take r.rate r.burst now
  (ok, ⟨Function.update p.entries key (some ⟨bucket, now⟩)⟩)

/-- The buckets last asked before the idle time are dropped. -/
def evict (r : BucketRules K) (now : K) (p : BucketPool κ K) : BucketPool κ K :=
  ⟨fun key => (p.entries key).filter fun e => ¬ e.last < now - r.idle⟩

/-- What a key has left at a time. -/
def level (r : BucketRules K) (p : BucketPool κ K) (key : κ) (now : K) : K :=
  match p.entries key with
  | none => r.burst
  | some e => e.bucket.available r.rate r.burst now

/-- No bucket is overdrawn, and all were last asked in the past, at times of a clock. -/
def Kept (clock : Set K) (p : BucketPool κ K) (now : K) : Prop :=
  ∀ key e, p.entries key = some e →
    0 ≤ e.bucket.tokens ∧ e.bucket.last ≤ e.last ∧ e.last ≤ now ∧ e.last ∈ clock

variable {r : BucketRules K} {p : BucketPool κ K} {key : κ} {now later : K} {clock : Set K}

/-! ## The buckets -/

theorem kept_new (clock : Set K) (now : K) : (new : BucketPool κ K).Kept clock now := by
  intro key e he
  cases he

theorem Kept.mono (h : p.Kept clock now) (hlater : now ≤ later) : p.Kept clock later := by
  intro key e he
  obtain ⟨htokens, hlast, hused, hclock⟩ := h key e he
  exact ⟨htokens, hlast, hused.trans hlater, hclock⟩

theorem entries_evict (r : BucketRules K) (now : K) (p : BucketPool κ K) (key : κ) :
    (p.evict r now).entries key = (p.entries key).filter fun e => ¬ e.last < now - r.idle := by
  rw [evict]

theorem Kept.evict (h : p.Kept clock now) (t : K) : (p.evict r t).Kept clock now := by
  intro key e he
  exact h key e (Option.filter_eq_some_iff.mp he).1

/-- The level of a key is that of the bucket a request works on. -/
theorem level_eq_available :
    p.level r key now = (p.entry r now key).bucket.available r.rate r.burst now := by
  unfold level entry
  cases p.entries key with
  | none => exact TokenBucket.available_full.symm
  | some e => rfl

theorem level_le_burst : p.level r key now ≤ r.burst := by
  rw [level_eq_available]
  exact TokenBucket.available_le_burst

section Ordered

variable [IsStrictOrderedRing K]

theorem Kept.entry (h : p.Kept clock now) :
    0 ≤ (p.entry r now key).bucket.tokens ∧ (p.entry r now key).bucket.last ≤ now := by
  unfold BucketPool.entry
  cases he : p.entries key with
  | none => exact ⟨Nat.cast_nonneg _, le_refl _⟩
  | some e =>
    obtain ⟨htokens, hlast, hused, -⟩ := h key e he
    exact ⟨htokens, hlast.trans hused⟩

theorem level_nonneg (hrate : 0 ≤ r.rate) (h : p.Kept clock now) (key : κ) :
    0 ≤ p.level r key now := by
  rw [level_eq_available]
  exact TokenBucket.available_nonneg hrate (Nat.cast_nonneg _) h.entry.1

/-- **Levels grow by at most the rate.** -/
theorem level_le_add (hrate : 0 ≤ r.rate) (h : p.Kept clock now) (hlater : now ≤ later)
    (key : κ) : p.level r key later ≤ p.level r key now + r.rate * (later - now) := by
  unfold level
  cases he : p.entries key with
  | none => exact le_add_of_nonneg_right (mul_nonneg hrate (sub_nonneg.mpr hlater))
  | some e =>
    obtain ⟨-, hlast, hused, -⟩ := h key e he
    exact TokenBucket.available_le_add hrate (hlast.trans hused) hlater

/-- A bucket created for a request has the level its key had without it, then and later. -/
theorem available_entry (hrate : 0 ≤ r.rate) (hlater : now ≤ later) :
    (p.entry r now key).bucket.available r.rate r.burst later = p.level r key later := by
  unfold BucketPool.entry level
  cases p.entries key with
  | none =>
    have hgain : 0 ≤ r.rate * (later - now) := mul_nonneg hrate (sub_nonneg.mpr hlater)
    simp only [Option.getD_none, TokenBucket.full, TokenBucket.available, min_eq_left hlater]
    exact min_eq_left (by linarith)
  | some e => rfl

/-- **Dropping buckets changes no level**, then and later, when those that are dropped had the time
to fill up. -/
theorem level_evict (hrate : 0 ≤ r.rate) (h : p.Kept clock now)
    (hfull : ∀ s ∈ clock, s < now - r.idle → (r.burst : K) ≤ r.rate * (now - s))
    (hlater : now ≤ later) (key : κ) : (p.evict r now).level r key later = p.level r key later := by
  rw [level, level, entries_evict]
  cases he : p.entries key with
  | none => rfl
  | some e =>
    obtain ⟨htokens, hlast, hused, hclock⟩ := h key e he
    by_cases hidle : e.last < now - r.idle
    · have hfill : (r.burst : K) ≤ r.rate * (later - e.bucket.last) := by
        calc (r.burst : K) ≤ r.rate * (now - e.last) := hfull e.last hclock hidle
          _ ≤ r.rate * (later - e.bucket.last) :=
            mul_le_mul_of_nonneg_left (by linarith) hrate
      have hdropped : (decide ¬ e.last < now - r.idle) = false :=
        decide_eq_false (not_not.mpr hidle)
      rw [Option.filter_some_neg (by exact hdropped)]
      exact (TokenBucket.available_of_idle htokens ((hlast.trans hused).trans hlater) hfill).symm
    · rw [Option.filter_some_pos (by simpa using hidle)]

end Ordered

/-! ## Requests -/

section Requests

variable [DecidableEq κ]

theorem entries_allow (r : BucketRules K) (now : K) (key : κ) (p : BucketPool κ K) :
    (p.allow r now key).2.entries = Function.update p.entries key
      (some ⟨((p.entry r now key).bucket.take r.rate r.burst now).2, now⟩) := by
  rw [allow]

theorem allow_eq_true_iff : (p.allow r now key).1 = true ↔ 1 ≤ p.level r key now := by
  rw [level_eq_available]
  exact TokenBucket.take_eq_true_iff

/-- **A request costs the other keys nothing.** -/
theorem level_allow_of_ne {key' : κ} (hkey : key' ≠ key) (t : K) :
    (p.allow r now key).2.level r key' t = p.level r key' t := by
  rw [level, entries_allow, Function.update_of_ne hkey]
  rfl

variable [IsStrictOrderedRing K]

theorem Kept.allow (h : p.Kept clock now) (hnow : now ∈ clock) (key : κ) :
    (p.allow r now key).2.Kept clock now := by
  intro key' e' he'
  by_cases hkey : key' = key
  · subst hkey
    rw [entries_allow, Function.update_self] at he'
    cases he'
    exact ⟨TokenBucket.tokens_take_nonneg h.entry.1, TokenBucket.last_take_le h.entry.2,
      le_refl now, hnow⟩
  · rw [entries_allow, Function.update_of_ne hkey] at he'
    exact h key' e' he'

/-- **A request costs its key one token if it is allowed, and none otherwise.** -/
theorem level_allow_now : (p.allow r now key).2.level r key now =
    p.level r key now - if (p.allow r now key).1 then 1 else 0 := by
  rw [level, entries_allow, Function.update_self, level_eq_available]
  exact TokenBucket.available_take

/-- **What a key has left later**, after a request. -/
theorem level_allow_self (hrate : 0 ≤ r.rate) (hlater : now ≤ later) :
    (p.allow r now key).2.level r key later =
      if (p.allow r now key).1 then
        min (r.burst : K) (p.level r key now - 1 + r.rate * (later - now))
      else p.level r key later := by
  rw [level, entries_allow, Function.update_self, level_eq_available,
    ← available_entry hrate hlater]
  exact TokenBucket.available_take_later hlater

end Requests

/-! ## Runs -/

section Runs

variable [DecidableEq κ]

/-- The pool after an operation at a time. -/
def step (r : BucketRules K) (p : BucketPool κ K) (op : K × PoolOp κ) : BucketPool κ K :=
  match op.2 with
  | .allow key => (p.allow r op.1 key).2
  | .evict => p.evict r op.1

/-- The answers to the requests of a run. -/
def answers (r : BucketRules K) : BucketPool κ K → List (K × PoolOp κ) → List Bool
  | _, [] => []
  | p, (now, .allow key) :: ops => (p.allow r now key).1 :: answers r (p.allow r now key).2 ops
  | p, (now, .evict) :: ops => answers r (p.evict r now) ops

theorem answers_append (p : BucketPool κ K) (ops ops' : List (K × PoolOp κ)) :
    answers r p (ops ++ ops') = answers r p ops ++ answers r (ops.foldl (step r) p) ops' := by
  induction ops generalizing p with
  | nil => rfl
  | cons op ops ih =>
    obtain ⟨now, _ | _⟩ := op
    · rw [List.cons_append, answers, answers, ih]
      rfl
    · rw [List.cons_append, answers, answers, ih]
      rfl

variable [IsStrictOrderedRing K]

/-- **Eviction that never drops a bucket before it is full cannot be seen**: a pool that agrees with
another on all levels answers as the other does without the evictions. -/
theorem answers_eq_filter (hrate : 0 ≤ r.rate)
    (hfull : ∀ s ∈ clock, ∀ t ∈ clock, s < t - r.idle → (r.burst : K) ≤ r.rate * (t - s))
    {p q : BucketPool κ K} (hp : p.Kept clock now)
    (hagree : ∀ key t, now ≤ t → p.level r key t = q.level r key t)
    {ops : List (K × PoolOp κ)} (hsorted : ops.Pairwise fun o o' => o.1 ≤ o'.1)
    (hlater : ∀ o ∈ ops, now ≤ o.1) (hclock : ∀ o ∈ ops, o.1 ∈ clock) :
    answers r p ops = answers r q (ops.filter fun o => o.2 ≠ .evict) := by
  induction ops generalizing p q now with
  | nil => rfl
  | cons op ops ih =>
    obtain ⟨t, op⟩ := op
    rw [List.pairwise_cons] at hsorted
    have hnow : now ≤ t := hlater _ List.mem_cons_self
    have ht : t ∈ clock := hclock _ List.mem_cons_self
    have hrest : ∀ o ∈ ops, o.1 ∈ clock := fun o ho => hclock o (List.mem_cons_of_mem _ ho)
    cases op with
    | allow key =>
      have hok : (p.allow r t key).1 = (q.allow r t key).1 := by
        rw [Bool.eq_iff_iff, allow_eq_true_iff, allow_eq_true_iff, hagree key t hnow]
      have hagree' : ∀ key' t', t ≤ t' →
          (p.allow r t key).2.level r key' t' = (q.allow r t key).2.level r key' t' := by
        intro key' t' ht'
        by_cases hkey : key' = key
        · subst hkey
          rw [level_allow_self hrate ht', level_allow_self hrate ht', hok, hagree key' t hnow,
            hagree key' t' (hnow.trans ht')]
        · rw [level_allow_of_ne hkey, level_allow_of_ne hkey, hagree key' t' (hnow.trans ht')]
      rw [List.filter_cons_of_pos (by simp), answers, answers, hok,
        ih ((hp.mono hnow).allow ht key) hagree' hsorted.2 hsorted.1 hrest]
    | evict =>
      have hagree' : ∀ key' t', t ≤ t' → (p.evict r t).level r key' t' = q.level r key' t' := by
        intro key' t' ht'
        rw [level_evict hrate (hp.mono hnow) (fun s hs => hfull s hs t ht) ht',
          hagree key' t' (hnow.trans ht')]
      rw [List.filter_cons_of_neg (by simp), answers,
        ih ((hp.mono hnow).evict t) hagree' hsorted.2 hsorted.1 hrest]

/-- A number of requests at one time: they are all allowed exactly when there is so much left. -/
theorem answers_replicate_iff (n : ℕ) (hlevel : 0 ≤ p.level r key now) :
    answers r p (List.replicate n (now, .allow key)) = List.replicate n true ↔
      (n : K) ≤ p.level r key now := by
  induction n generalizing p with
  | zero => simpa [answers] using hlevel
  | succ n ih =>
    have hleft : (p.allow r now key).2.level r key now = _ := level_allow_now
    rw [List.replicate_succ, List.replicate_succ, answers, List.cons.injEq, allow_eq_true_iff,
      Nat.cast_succ]
    by_cases hone : 1 ≤ p.level r key now
    · rw [if_pos (allow_eq_true_iff.mpr hone)] at hleft
      rw [ih (by rw [hleft]; linarith), hleft, le_sub_iff_add_le]
      exact and_iff_right hone
    · have hn : (0 : K) ≤ n := Nat.cast_nonneg n
      exact iff_of_false (fun h => hone h.1) fun h => hone (by linarith)

/-- What a number of requests at one time leaves, if there is so much. -/
theorem level_foldl_replicate (n : ℕ) (hlevel : (n : K) ≤ p.level r key now) :
    ((List.replicate n (now, .allow key)).foldl (step r) p).level r key now =
      p.level r key now - n := by
  induction n generalizing p with
  | zero => rw [Nat.cast_zero, sub_zero]; rfl
  | succ n ih =>
    have hn : (0 : K) ≤ n := Nat.cast_nonneg n
    rw [Nat.cast_succ] at hlevel ⊢
    have hleft : (p.allow r now key).2.level r key now = p.level r key now - 1 := by
      rw [level_allow_now, if_pos (allow_eq_true_iff.mpr (by linarith))]
    have hstep : step r p (now, .allow key) = (p.allow r now key).2 := rfl
    rw [List.replicate_succ, List.foldl_cons, hstep, ih (by rw [hleft]; linarith), hleft]
    ring

theorem Kept.foldl_replicate (h : p.Kept clock now) (hnow : now ∈ clock) (n : ℕ) (key : κ) :
    ((List.replicate n (now, .allow key)).foldl (step r) p).Kept clock now := by
  induction n generalizing p with
  | zero => exact h
  | succ n ih => exact ih (h.allow hnow key)

/-- A burst of requests, an eviction after the idle time but before the bucket is full, and a burst
of requests again: the eviction shows. -/
theorem answers_ne_of_lt (hrate : 0 ≤ r.rate) (hidle : 0 ≤ r.idle) {s t : K}
    (hst : s < t - r.idle) (hlt : r.rate * (t - s) < r.burst) (key : κ) :
    answers r new (List.replicate r.burst (s, .allow key) ++ (t, .evict) ::
        List.replicate r.burst (t, .allow key)) ≠
      answers r new (List.replicate r.burst (s, .allow key) ++
        List.replicate r.burst (t, .allow key)) := by
  have hlevel : (new : BucketPool κ K).level r key s = r.burst := rfl
  have hempty := level_foldl_replicate (r := r) r.burst hlevel.ge
  have hkept : Kept {s} _ s := (kept_new (κ := κ) {s} s).foldl_replicate (r := r) rfl r.burst key
  rw [answers_append, answers_append, answers]
  generalize (List.replicate r.burst (s, PoolOp.allow key)).foldl (step r) new = p at hempty hkept
  rw [hlevel, sub_self] at hempty
  have hle : s ≤ t := by linarith
  have hdropped : (p.evict r t).level r key t = r.burst := by
    have hnone : (p.evict r t).entries key = none := by
      rw [entries_evict, Option.filter_eq_none_iff]
      intro e he
      obtain ⟨-, -, -, hlast⟩ := hkept key e he
      have hlast : e.last = s := hlast
      simp only [hlast, hst, not_true_eq_false, decide_false, Bool.false_eq_true, not_false_eq_true]
    rw [level, hnone]
  have hall := (answers_replicate_iff (r := r) r.burst (by rw [hdropped]; positivity)).mpr
    hdropped.ge
  rw [hall]
  intro hsame
  have hlevel' := level_le_add hrate hkept hle key
  have hburst := (answers_replicate_iff (r := r) r.burst
    (level_nonneg hrate (hkept.mono hle) key)).mp (List.append_cancel_left hsame).symm
  linarith

/-- **When eviction cannot be seen.** In all runs at non-decreasing times of a clock, a pool gives
the answers it gives without its evictions, if and only if any two times of the clock that are
further apart than the idle time are far enough apart for an empty bucket to fill up. -/
theorem answers_eq_iff [Nonempty κ] (hrate : 0 ≤ r.rate) (hidle : 0 ≤ r.idle) (clock : Set K) :
    (∀ ops : List (K × PoolOp κ), ops.Pairwise (fun o o' => o.1 ≤ o'.1) →
        (∀ o ∈ ops, o.1 ∈ clock) →
        answers r new ops = answers r new (ops.filter fun o => o.2 ≠ .evict)) ↔
      ∀ s ∈ clock, ∀ t ∈ clock, s < t - r.idle → (r.burst : K) ≤ r.rate * (t - s) := by
  constructor
  · intro hsame s hs t ht hst
    by_contra hlt
    have hle : s ≤ t := by linarith
    obtain ⟨key⟩ := ‹Nonempty κ›
    apply answers_ne_of_lt hrate hidle hst (not_le.mp hlt) key
    rw [hsame]
    · simp [List.filter_append]
    · simp [List.pairwise_append, List.pairwise_replicate, hle]
    · simp only [List.mem_append, List.mem_cons, List.mem_replicate]
      rintro o (⟨-, rfl⟩ | rfl | ⟨-, rfl⟩)
      exacts [hs, ht, ht]
  · intro hfull ops hsorted hclock
    cases ops with
    | nil => rfl
    | cons op ops =>
      have hnew : (new : BucketPool κ K).Kept clock op.1 := kept_new clock op.1
      refine answers_eq_filter hrate hfull hnew (fun _ _ _ => rfl) hsorted ?_ hclock
      intro o ho
      rcases List.mem_cons.mp ho with rfl | ho
      · exact le_refl _
      · exact (List.pairwise_cons.mp hsorted).1 o ho

end Runs

end BucketPool

end Foundation
