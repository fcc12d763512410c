import Mathlib.Data.Multiset.AddSub
import Mathlib.Logic.Relation
import Tally.RateLimit.Eviction

/-!
# Concurrent requests to the in-memory limiter

`Memory.Allow` holds the mutex while it looks up the entry of a key and notes the time, and asks the
bucket of the entry after it has let go. In between other requests look up or create entries, and
the janitor drops entries, possibly one that a request still points to. If no request takes longer
from the lookup to its bucket than a delay, and a bucket fills up in ten minutes less that delay,
none of this can be seen: the requests are answered as by a limiter that does each of them in one
step, at the time it asks its bucket, and never drops a bucket.

Entries stand for objects of the heap, and the map and the requests hold their addresses.

## Main definitions

* `AllowCall`: a request between the lookup and its bucket
* `ConcurrentLimiter`: the entries, the map, the requests and the answers
* `ConcurrentLimiter.Step`, `ConcurrentLimiter.Reachable`: the interleavings
* `ConcurrentLimiter.atomic`: the limiter that does each request in one step
* `ConcurrentLimiter.Inv`: the invariant of the interleavings

## Main results

* `ConcurrentLimiter.Step.inv`: every step keeps the invariant
* `limiter_linearizable`: requests are answered as if each were done in one step
-/

namespace Tally

open Foundation

namespace MemoryLimiter

variable {limit : Limit} {m : MemoryLimiter} {key : String} {now later : ℤ}

/-- The entry that a request finds or creates has what its key has left, then and later. -/
theorem available_entry (hrps : 0 ≤ limit.rps) (hlater : now ≤ later) :
    (m.entry limit now key).lim.available limit.rps limit.burst (seconds later) =
      m.level limit key later := by
  rw [← bucket_entry, ← level_toPool]
  exact BucketPool.available_entry hrps (seconds_mono hlater)

/-- What a key has left later, after a request. -/
theorem level_allow_later (hrps : 0 ≤ limit.rps) (hlater : now ≤ later) :
    (m.allow limit now key).2.level limit key later =
      if (m.allow limit now key).1 then
        min (limit.burst : ℚ)
          (m.level limit key now - 1 + limit.rps * (seconds later - seconds now))
      else m.level limit key later := by
  have hpool : (m.toPool.allow limit.rules (seconds now) key).2.level _ key _ = _ :=
    BucketPool.level_allow_self hrps (seconds_mono hlater)
  rwa [allow_toPool, level_toPool, level_toPool, level_toPool] at hpool

theorem answers_snoc (limit : Limit) (m : MemoryLimiter) (ops : List (ℤ × String)) (now : ℤ)
    (key : String) :
    m.answers limit ((ops ++ [(now, key)]).map fun o => (o.1, .allow o.2)) =
      m.answers limit (ops.map fun o => (o.1, .allow o.2)) ++
        [((ops.foldl (fun m o => (m.allow limit o.1 o.2).2) m).allow limit now key).1] := by
  induction ops generalizing m with
  | nil => rfl
  | cons o ops ih =>
    rw [List.cons_append, List.map_cons, List.map_cons, answers, answers, ih]
    rfl

end MemoryLimiter

/-- A request that has looked up its entry: the key, the address of the entry, and the time. -/
structure AllowCall where
  key : String
  entry : ℕ
  since : ℤ

/-- The entries by their addresses and the next free one, the map of the limiter, the requests
between lookup and bucket, the answers so far, and the time. -/
structure ConcurrentLimiter where
  heap : ℕ → Entry
  next : ℕ
  buckets : String → Option ℕ
  calls : Multiset AllowCall
  answers : List ((ℤ × String) × Bool)
  now : ℤ

namespace ConcurrentLimiter

/-- `NewMemory`, at a time. -/
def new (t : ℤ) : ConcurrentLimiter := ⟨fun _ => ⟨⟨0, 0⟩, 0⟩, 0, fun _ => none, 0, [], t⟩

/-- What `Memory.Allow` does under the mutex: it looks up the entry, creates one with a full bucket
if there is none, and notes the time. -/
def lookup (limit : Limit) (t : ℤ) (key : String) (s : ConcurrentLimiter) : ConcurrentLimiter :=
  match s.buckets key with
  | some a =>
    { s with
      heap := Function.update s.heap a ⟨(s.heap a).lim, t⟩
      calls := ⟨key, a, t⟩ ::ₘ s.calls
      now := t }
  | none =>
    { s with
      heap := Function.update s.heap s.next ⟨.full limit.burst (seconds t), t⟩
      next := s.next + 1
      buckets := Function.update s.buckets key (some s.next)
      calls := ⟨key, s.next, t⟩ ::ₘ s.calls
      now := t }

/-- What it does after: `e.lim.Allow()` on the entry it has looked up. -/
def take (limit : Limit) (t : ℤ) (call : AllowCall) (rest : Multiset AllowCall)
    (s : ConcurrentLimiter) : ConcurrentLimiter :=
  let (ok, lim) := (s.heap call.entry).lim.take limit.rps limit.burst (seconds t)
  { s with
    heap := Function.update s.heap call.entry ⟨lim, (s.heap call.entry).last⟩
    calls := rest
    answers := s.answers ++ [((t, call.key), ok)]
    now := t }

/-- A pass of `Memory.janitor` with a cutoff that it computed before it took the mutex. -/
def janitor (t cutoff : ℤ) (s : ConcurrentLimiter) : ConcurrentLimiter :=
  { s with
    buckets := fun key => (s.buckets key).filter fun a => ¬ (s.heap a).last < cutoff
    now := t }

/-- One step at a time not before the last one. No request takes longer than `delay`. -/
inductive Step (limit : Limit) (delay : ℤ) (s : ConcurrentLimiter) : ConcurrentLimiter → Prop
  | lookup (key : String) (t : ℤ) (later : s.now ≤ t) : Step limit delay s (s.lookup limit t key)
  | take (call : AllowCall) (rest : Multiset AllowCall) (t : ℤ) (later : s.now ≤ t)
      (calls : s.calls = call ::ₘ rest) (soon : t ≤ call.since + delay) :
      Step limit delay s (s.take limit t call rest)
  | janitor (t cutoff : ℤ) (later : s.now ≤ t) (idle : cutoff ≤ t - 600 * 1000000000) :
      Step limit delay s (s.janitor t cutoff)

def Reachable (limit : Limit) (delay : ℤ) (s : ConcurrentLimiter) : Prop :=
  ∃ t, Relation.ReflTransGen (Step limit delay) (new t) s

/-- The limiter that does the requests answered so far in one step each, and drops nothing. -/
def atomic (limit : Limit) (s : ConcurrentLimiter) : MemoryLimiter :=
  (s.answers.map Prod.fst).foldl (fun m o => (m.allow limit o.1 o.2).2) .new

/-- The entries that the map holds. -/
def limiter (s : ConcurrentLimiter) : MemoryLimiter := ⟨fun key => (s.buckets key).map s.heap⟩

/-- **The invariant of the interleavings.** -/
structure Inv (limit : Limit) (delay : ℤ) (s : ConcurrentLimiter) : Prop where
  /-- Every key has left what it has left when requests are done in one step. -/
  agrees : ∀ key t, s.now ≤ t → s.limiter.level limit key t = (s.atomic limit).level limit key t
  fresh : ∀ key a, s.buckets key = some a → a < s.next
  inj : ∀ key key' a, s.buckets key = some a → s.buckets key' = some a → key = key'
  /-- A bucket was asked at most the delay after the last lookup. -/
  entries : ∀ key a, s.buckets key = some a → 0 ≤ (s.heap a).lim.tokens ∧
    (s.heap a).last ≤ s.now ∧ (s.heap a).lim.last ≤ seconds s.now ∧
    (s.heap a).lim.last ≤ seconds ((s.heap a).last + delay)
  /-- A request that is not too late has the entry of its key. -/
  calls : ∀ call ∈ s.calls, s.now ≤ call.since + delay →
    s.buckets call.key = some call.entry ∧ call.since ≤ (s.heap call.entry).last
  answers : MemoryLimiter.new.answers limit
    ((s.answers.map Prod.fst).map fun o => (o.1, .allow o.2)) = s.answers.map Prod.snd

variable {limit : Limit} {delay : ℤ} {s s' : ConcurrentLimiter} {key : String} {a : ℕ} {t t' : ℤ}

theorem inv_new (limit : Limit) (delay t : ℤ) : (new t).Inv limit delay where
  agrees _ _ _ := rfl
  fresh _ _ ha := by cases ha
  inj _ _ _ ha := by cases ha
  entries _ _ ha := by cases ha
  calls call hcall := absurd hcall (Multiset.notMem_zero call)
  answers := rfl

theorem level_of_some (limit : Limit) (h : s.buckets key = some a) (t : ℤ) :
    s.limiter.level limit key t =
      (s.heap a).lim.available limit.rps limit.burst (seconds t) := by
  simp [limiter, MemoryLimiter.level, h]

theorem level_of_none (limit : Limit) (h : s.buckets key = none) (t : ℤ) :
    s.limiter.level limit key t = limit.burst := by
  simp [limiter, MemoryLimiter.level, h]

/-- What a key has left is settled by its bucket. -/
theorem level_congr (limit : Limit) (hbuckets : s'.buckets key = s.buckets key)
    (hlim : ∀ a, s.buckets key = some a → (s'.heap a).lim = (s.heap a).lim) (t : ℤ) :
    s'.limiter.level limit key t = s.limiter.level limit key t := by
  cases hb : s.buckets key with
  | none => rw [level_of_none limit hb, level_of_none limit (hbuckets.trans hb)]
  | some a =>
    rw [level_of_some limit hb, level_of_some limit (hbuckets.trans hb), hlim a hb]

/-- What is known of an entry stays true as time goes on. -/
theorem Inv.entries_later (h : s.Inv limit delay) (hlater : s.now ≤ t)
    (ha : s.buckets key = some a) : 0 ≤ (s.heap a).lim.tokens ∧ (s.heap a).last ≤ t ∧
      (s.heap a).lim.last ≤ seconds t ∧
      (s.heap a).lim.last ≤ seconds ((s.heap a).last + delay) := by
  obtain ⟨htokens, hle, hasked, hsoon⟩ := h.entries key a ha
  exact ⟨htokens, hle.trans hlater, hasked.trans (seconds_mono hlater), hsoon⟩

/-! ## The lookup -/

theorem lookup_of_some (limit : Limit) (t : ℤ) (h : s.buckets key = some a) :
    s.lookup limit t key =
      { s with
        heap := Function.update s.heap a ⟨(s.heap a).lim, t⟩
        calls := ⟨key, a, t⟩ ::ₘ s.calls
        now := t } := by
  simp only [lookup, h]

theorem lookup_of_none (limit : Limit) (t : ℤ) (h : s.buckets key = none) :
    s.lookup limit t key =
      { s with
        heap := Function.update s.heap s.next ⟨.full limit.burst (seconds t), t⟩
        next := s.next + 1
        buckets := Function.update s.buckets key (some s.next)
        calls := ⟨key, s.next, t⟩ ::ₘ s.calls
        now := t } := by
  simp only [lookup, h]

/-- A lookup of an entry that is there notes the time. -/
theorem Inv.lookup_some (h : s.Inv limit delay) (hlater : s.now ≤ t)
    (hb : s.buckets key = some a) : (s.lookup limit t key).Inv limit delay := by
  have hlim : ∀ b, (Function.update s.heap a ⟨(s.heap a).lim, t⟩ b).lim = (s.heap b).lim := by
    intro b
    by_cases hba : b = a
    · subst hba
      rw [Function.update_self]
    · rw [Function.update_of_ne hba]
  have hlast : ∀ b, (s.heap b).last ≤ s.now →
      (s.heap b).last ≤ (Function.update s.heap a ⟨(s.heap a).lim, t⟩ b).last ∧
        (Function.update s.heap a ⟨(s.heap a).lim, t⟩ b).last ≤ t := by
    intro b hle
    by_cases hba : b = a
    · subst hba
      rw [Function.update_self]
      exact ⟨hle.trans hlater, le_refl t⟩
    · rw [Function.update_of_ne hba]
      exact ⟨le_refl _, hle.trans hlater⟩
  rw [lookup_of_some limit t hb]
  refine ⟨fun key' t' ht' => ?_, h.fresh, h.inj, fun key' b hb' => ?_, fun call hcall halive => ?_,
    h.answers⟩
  · refine Eq.trans ?_ (h.agrees key' t' (hlater.trans ht'))
    refine level_congr limit ?_ ?_ t'
    · rfl
    · exact fun b _ => hlim b
  · obtain ⟨htokens, -, hasked, hsoon⟩ := h.entries_later hlater hb'
    obtain ⟨hnoted, hpast⟩ := hlast b (h.entries key' b hb').2.1
    have hmono : seconds ((s.heap b).last + delay) ≤
        seconds ((Function.update s.heap a ⟨(s.heap a).lim, t⟩ b).last + delay) :=
      seconds_mono (by omega)
    simp only [hlim]
    exact ⟨htokens, hpast, hasked, hsoon.trans hmono⟩
  · rcases Multiset.mem_cons.mp hcall with rfl | hcall
    · refine ⟨hb, ?_⟩
      simp only [Function.update_self]
      exact le_refl t
    · have halive : t ≤ call.since + delay := halive
      obtain ⟨hentry, hsince⟩ := h.calls call hcall (hlater.trans halive)
      have hle := (h.entries call.key call.entry hentry).2.1
      exact ⟨hentry, hsince.trans (hlast call.entry hle).1⟩

/-- A lookup without an entry creates one with a full bucket. -/
theorem Inv.lookup_none (h : s.Inv limit delay) (hrps : 0 ≤ limit.rps) (hdelay : 0 ≤ delay)
    (hlater : s.now ≤ t) (hb : s.buckets key = none) :
    (s.lookup limit t key).Inv limit delay := by
  have hold : ∀ key' b, s.buckets key' = some b →
      Function.update s.heap s.next ⟨.full limit.burst (seconds t), t⟩ b = s.heap b := by
    intro key' b hb'
    exact Function.update_of_ne (h.fresh key' b hb').ne _ _
  have hne : ∀ key' b, s.buckets key' = some b → key' ≠ key := by
    rintro key' b hb' rfl
    rw [hb] at hb'
    cases hb'
  have hcases : ∀ key' b, Function.update s.buckets key (some s.next) key' = some b →
      (key' = key ∧ b = s.next) ∨ s.buckets key' = some b := by
    intro key' b hb'
    by_cases hkey : key' = key
    · subst hkey
      rw [Function.update_self] at hb'
      exact .inl ⟨rfl, (Option.some.inj hb').symm⟩
    · rw [Function.update_of_ne hkey] at hb'
      exact .inr hb'
  rw [lookup_of_none limit t hb]
  refine ⟨fun key' t' ht' => ?_, fun key' b hb' => ?_, fun key₁ key₂ b h₁ h₂ => ?_,
    fun key' b hb' => ?_, fun call hcall halive => ?_, h.answers⟩
  · refine Eq.trans ?_ (h.agrees key' t' (hlater.trans ht'))
    by_cases hkey : key' = key
    · subst hkey
      have hentry : (s.limiter.entry limit t key').lim = .full limit.burst (seconds t) := by
        simp [MemoryLimiter.entry, limiter, hb]
      rw [level_of_some limit (a := s.next) (by exact Function.update_self ..)]
      simp only [Function.update_self]
      rw [← MemoryLimiter.available_entry hrps ht', hentry]
    · exact level_congr limit (Function.update_of_ne hkey _ _)
        (fun b hb' => congrArg Entry.lim (hold key' b hb')) t'
  · rcases hcases key' b hb' with ⟨-, rfl⟩ | hb'
    · exact Nat.lt_succ_self _
    · exact (h.fresh key' b hb').trans (Nat.lt_succ_self _)
  · rcases hcases key₁ b h₁ with ⟨hkey₁, hb₁⟩ | hold₁
    · rcases hcases key₂ b h₂ with ⟨hkey₂, -⟩ | hold₂
      · rw [hkey₁, hkey₂]
      · exact absurd (h.fresh key₂ b hold₂) (by omega)
    · rcases hcases key₂ b h₂ with ⟨-, hb₂⟩ | hold₂
      · exact absurd (h.fresh key₁ b hold₁) (by omega)
      · exact h.inj key₁ key₂ b hold₁ hold₂
  · rcases hcases key' b hb' with ⟨-, rfl⟩ | hb'
    · simp only [Function.update_self, TokenBucket.full]
      exact ⟨Nat.cast_nonneg _, le_refl t, le_refl _, seconds_mono (by omega)⟩
    · simp only [hold key' b hb']
      exact h.entries_later hlater hb'
  · rcases Multiset.mem_cons.mp hcall with rfl | hcall
    · simp only [Function.update_self]
      exact ⟨trivial, le_refl t⟩
    · have halive : t ≤ call.since + delay := halive
      obtain ⟨hentry, hsince⟩ := h.calls call hcall (hlater.trans halive)
      simp only [hold call.key call.entry hentry, Function.update_of_ne (hne _ _ hentry)]
      exact ⟨hentry, hsince⟩

/-! ## The bucket -/

theorem atomic_snoc (limit : Limit) (s : ConcurrentLimiter) (o : ℤ × String) (ok : Bool) :
    ((s.answers ++ [(o, ok)]).map Prod.fst).foldl (fun m o => (m.allow limit o.1 o.2).2) .new =
      ((s.atomic limit).allow limit o.1 o.2).2 := by
  rw [List.map_append, List.foldl_append]
  rfl

section Take

variable {call : AllowCall} {rest : Multiset AllowCall}

theorem heap_take_self : (s.take limit t call rest).heap call.entry =
    ⟨((s.heap call.entry).lim.take limit.rps limit.burst (seconds t)).2,
      (s.heap call.entry).last⟩ :=
  Function.update_self ..

theorem heap_take_of_ne {b : ℕ} (h : b ≠ call.entry) :
    (s.take limit t call rest).heap b = s.heap b := Function.update_of_ne h _ _

theorem last_heap_take (b : ℕ) : ((s.take limit t call rest).heap b).last = (s.heap b).last := by
  by_cases hb : b = call.entry
  · subst hb
    rw [heap_take_self]
  · rw [heap_take_of_ne hb]

/-- Both limiters have the same left for the key. -/
theorem Inv.take_eq_allow (h : s.Inv limit delay) (hlater : s.now ≤ t)
    (hentry : s.buckets call.key = some call.entry) :
    ((s.heap call.entry).lim.take limit.rps limit.burst (seconds t)).1 =
      ((s.atomic limit).allow limit t call.key).1 := by
  rw [Bool.eq_iff_iff, TokenBucket.take_eq_true_iff, MemoryLimiter.allow_eq_true_iff,
    ← h.agrees call.key t hlater, level_of_some limit hentry]

/-- What a request leaves its key is what it leaves it in one step. -/
theorem Inv.level_take (h : s.Inv limit delay) (hrps : 0 ≤ limit.rps) (hlater : s.now ≤ t)
    (hentry : s.buckets call.key = some call.entry) (key : String) (ht' : t ≤ t') :
    (s.take limit t call rest).limiter.level limit key t' =
      ((s.atomic limit).allow limit t call.key).2.level limit key t' := by
  by_cases hkey : key = call.key
  · subst hkey
    have hlevel := level_of_some limit hentry
    rw [level_of_some limit (a := call.entry) (by exact hentry), heap_take_self,
      TokenBucket.available_take_later (seconds_mono ht'),
      MemoryLimiter.level_allow_later hrps ht', h.take_eq_allow hlater hentry, ← hlevel, ← hlevel,
      h.agrees call.key t hlater, h.agrees call.key t' (hlater.trans ht')]
  · rw [MemoryLimiter.level_allow_of_ne hkey, ← h.agrees key t' (hlater.trans ht')]
    refine level_congr limit ?_ ?_ t'
    · rfl
    · intro b hb
      have hne : b ≠ call.entry := by
        rintro rfl
        exact hkey (h.inj key call.key call.entry hb hentry)
      rw [heap_take_of_ne hne]

/-- The bucket is asked within the delay of the lookup. -/
theorem Inv.entries_take (h : s.Inv limit delay) (hlater : s.now ≤ t)
    (hsince : call.since ≤ (s.heap call.entry).last) (hsoon : t ≤ call.since + delay) {b : ℕ}
    (hb : s.buckets key = some b) :
    0 ≤ ((s.take limit t call rest).heap b).lim.tokens ∧
      ((s.take limit t call rest).heap b).last ≤ t ∧
      ((s.take limit t call rest).heap b).lim.last ≤ seconds t ∧
      ((s.take limit t call rest).heap b).lim.last ≤
        seconds (((s.take limit t call rest).heap b).last + delay) := by
  obtain ⟨htokens, hle, hasked, hlast⟩ := h.entries_later hlater hb
  by_cases hcall : b = call.entry
  · subst hcall
    rw [heap_take_self]
    refine ⟨TokenBucket.tokens_take_nonneg htokens, hle, TokenBucket.last_take_le hasked, ?_⟩
    rcases TokenBucket.last_take limit.rps limit.burst (seconds t) (s.heap call.entry).lim with
      hnow | hsame
    · rw [hnow]
      exact seconds_mono (by simp only; omega)
    · rw [hsame]
      exact hlast
  · rw [heap_take_of_ne hcall]
    exact ⟨htokens, hle, hasked, hlast⟩

/-- **A request is answered as in one step**, and leaves its key what it leaves it there. -/
theorem Inv.take (h : s.Inv limit delay) (hrps : 0 ≤ limit.rps) (hlater : s.now ≤ t)
    (hcalls : s.calls = call ::ₘ rest) (hsoon : t ≤ call.since + delay) :
    (s.take limit t call rest).Inv limit delay := by
  have hmem : call ∈ s.calls := hcalls ▸ Multiset.mem_cons_self _ _
  obtain ⟨hentry, hsince⟩ := h.calls call hmem (hlater.trans hsoon)
  refine ⟨fun key t' ht' => ?_, h.fresh, h.inj,
    fun key b hb => h.entries_take hlater hsince hsoon hb, fun call' hcall' halive => ?_, ?_⟩
  · have hatomic : (s.take limit t call rest).atomic limit =
        ((s.atomic limit).allow limit t call.key).2 := atomic_snoc limit s (t, call.key) _
    rw [hatomic]
    exact h.level_take hrps hlater hentry key ht'
  · have halive : t ≤ call'.since + delay := halive
    have hcall' : call' ∈ s.calls := hcalls ▸ Multiset.mem_cons_of_mem hcall'
    obtain ⟨hentry', hsince'⟩ := h.calls call' hcall' (hlater.trans halive)
    exact ⟨hentry', hsince'.trans (last_heap_take call'.entry).ge⟩
  · have hsnoc := MemoryLimiter.answers_snoc limit .new (s.answers.map Prod.fst) t call.key
    have hanswers : (s.take limit t call rest).answers = s.answers ++ [((t, call.key),
        ((s.heap call.entry).lim.take limit.rps limit.burst (seconds t)).1)] := rfl
    rw [h.answers] at hsnoc
    rw [hanswers, h.take_eq_allow hlater hentry]
    simp only [List.map_append, List.map_singleton] at hsnoc ⊢
    exact hsnoc

end Take

/-! ## The janitor -/

/-- A bucket that the janitor drops has not been asked for ten minutes less the delay, so it is
full. -/
theorem Inv.level_of_dropped (h : s.Inv limit delay) (hrps : 0 ≤ limit.rps)
    (hfill : (limit.burst : ℚ) ≤ limit.rps * (600 - seconds delay)) {cutoff : ℤ}
    (hlater : s.now ≤ t) (hidle : cutoff ≤ t - 600 * 1000000000) (ht' : t ≤ t')
    (hb : s.buckets key = some a) (hdropped : (s.heap a).last < cutoff) :
    s.limiter.level limit key t' = limit.burst := by
  obtain ⟨htokens, -, hasked, hlast⟩ := h.entries_later (hlater.trans ht') hb
  have hidle' : (s.heap a).lim.last ≤ seconds t' - (600 - seconds delay) := by
    have hle : seconds ((s.heap a).last + delay) ≤ seconds (t' + delay - 600 * 1000000000) :=
      seconds_mono (by omega)
    have hsub : seconds (t' + delay - 600 * 1000000000) = seconds t' - (600 - seconds delay) := by
      unfold seconds
      push_cast
      ring
    linarith
  have hfull : (limit.burst : ℚ) ≤ limit.rps * (seconds t' - (s.heap a).lim.last) :=
    hfill.trans (mul_le_mul_of_nonneg_left (by linarith) hrps)
  rw [level_of_some limit hb]
  exact TokenBucket.available_of_idle htokens hasked hfull

/-- **The janitor drops only buckets that are full**, and none that a request still asks. -/
theorem Inv.janitor (h : s.Inv limit delay) (hrps : 0 ≤ limit.rps)
    (hdelay : delay ≤ 600 * 1000000000)
    (hfill : (limit.burst : ℚ) ≤ limit.rps * (600 - seconds delay)) {cutoff : ℤ}
    (hlater : s.now ≤ t) (hidle : cutoff ≤ t - 600 * 1000000000) :
    (s.janitor t cutoff).Inv limit delay := by
  have hkept : ∀ {key a}, (s.janitor t cutoff).buckets key = some a → s.buckets key = some a :=
    fun ha => (Option.filter_eq_some_iff.mp ha).1
  refine ⟨fun key t' ht' => ?_, fun key a ha => h.fresh key a (hkept ha),
    fun key key' a ha ha' => h.inj key key' a (hkept ha) (hkept ha'),
    fun key a ha => h.entries_later hlater (hkept ha), fun call hcall halive => ?_, h.answers⟩
  · have ht' : t ≤ t' := ht'
    show _ = (s.atomic limit).level limit key t'
    rw [← h.agrees key t' (hlater.trans ht')]
    by_cases hdropped : ∃ a, s.buckets key = some a ∧ (s.heap a).last < cutoff
    · obtain ⟨a, hb, hlast⟩ := hdropped
      rw [h.level_of_dropped hrps hfill hlater hidle ht' hb hlast]
      exact level_of_none limit (by simp [ConcurrentLimiter.janitor, hb, hlast]) t'
    · refine level_congr limit ?_ ?_ t'
      · show (s.buckets key).filter _ = s.buckets key
        cases hb : s.buckets key with
        | none => rfl
        | some a =>
          exact Option.filter_some_pos (decide_eq_true fun hlast => hdropped ⟨a, hb, hlast⟩)
      · exact fun _ _ => rfl
  · have halive : t ≤ call.since + delay := halive
    obtain ⟨hentry, hsince⟩ := h.calls call hcall (hlater.trans halive)
    refine ⟨Option.filter_eq_some_iff.mpr ⟨hentry, ?_⟩, hsince⟩
    simp only [decide_eq_true_eq]
    omega

/-- **Every step keeps the invariant.** -/
theorem Step.inv (hrps : 0 ≤ limit.rps) (hdelay : 0 ≤ delay) (hmax : delay ≤ 600 * 1000000000)
    (hfill : (limit.burst : ℚ) ≤ limit.rps * (600 - seconds delay))
    (hstep : Step limit delay s s') (h : s.Inv limit delay) : s'.Inv limit delay := by
  cases hstep with
  | lookup key t later =>
    cases hb : s.buckets key with
    | none => exact h.lookup_none hrps hdelay later hb
    | some a => exact h.lookup_some later hb
  | take call rest t later calls soon => exact h.take hrps later calls soon
  | janitor t cutoff later idle => exact h.janitor hrps hmax hfill later idle

end ConcurrentLimiter

/-- **Requests to the limiter are answered as if each were done in one step.** In every interleaving
of lookups, buckets asked and passes of the janitor, at non-decreasing times, in which a request
asks its bucket at most `delay` after its lookup, and a bucket fills up in ten minutes less that
delay: the answers are those of a limiter that does the requests one after the other, each at the
time it asks its bucket, and never drops a bucket. -/
theorem limiter_linearizable {limit : Limit} {delay : ℤ} {s : ConcurrentLimiter}
    (hrps : 0 ≤ limit.rps) (hdelay : 0 ≤ delay) (hmax : delay ≤ 600 * 1000000000)
    (hfill : (limit.burst : ℚ) ≤ limit.rps * (600 - seconds delay))
    (h : ConcurrentLimiter.Reachable limit delay s) :
    MemoryLimiter.new.answers limit
      ((s.answers.map Prod.fst).map fun o => (o.1, .allow o.2)) = s.answers.map Prod.snd := by
  obtain ⟨t, hrun⟩ := h
  have hinv : s.Inv limit delay := by
    induction hrun with
    | refl => exact ConcurrentLimiter.inv_new limit delay t
    | tail _ hstep ih => exact hstep.inv hrps hdelay hmax hfill ih
  exact hinv.answers

/-- One event a second with a burst of two: two requests look up their entry before the first of
them asks its bucket. -/
theorem limiter_linearizable_two_requests :
    (2 : ℚ) ≤ 1 * (600 - seconds 598000000000) ∧
    ∃ s, ConcurrentLimiter.Reachable ⟨1, 2⟩ 598000000000 s ∧
      s.answers.map Prod.fst = [(2, "k:1"), (3, "k:1")] ∧
      MemoryLimiter.new.answers ⟨1, 2⟩ [(2, .allow "k:1"), (3, .allow "k:1")] =
        s.answers.map Prod.snd := by
  have hfill : (2 : ℚ) ≤ 1 * (600 - seconds 598000000000) := by norm_num [seconds]
  let first : AllowCall := ⟨"k:1", 0, 0⟩
  let second : AllowCall := ⟨"k:1", 0, 1⟩
  let s₁ := (ConcurrentLimiter.new 0).lookup ⟨1, 2⟩ 0 "k:1"
  let s₂ := s₁.lookup ⟨1, 2⟩ 1 "k:1"
  let s₃ := s₂.take ⟨1, 2⟩ 2 first {second}
  let s := s₃.take ⟨1, 2⟩ 3 second 0
  have hstep₁ : ConcurrentLimiter.Step ⟨1, 2⟩ 598000000000 (.new 0) s₁ :=
    .lookup "k:1" 0 (by decide)
  have hstep₂ : ConcurrentLimiter.Step ⟨1, 2⟩ 598000000000 s₁ s₂ := .lookup "k:1" 1 (by decide)
  have hstep₃ : ConcurrentLimiter.Step ⟨1, 2⟩ 598000000000 s₂ s₃ :=
    .take first {second} 2 (by decide) (Multiset.cons_swap second first 0) (by decide)
  have hstep₄ : ConcurrentLimiter.Step ⟨1, 2⟩ 598000000000 s₃ s :=
    .take second 0 3 (by decide) rfl (by decide)
  have hs : ConcurrentLimiter.Reachable ⟨1, 2⟩ 598000000000 s :=
    ⟨0, .tail (.tail (.tail (.single hstep₁) hstep₂) hstep₃) hstep₄⟩
  refine ⟨hfill, s, hs, rfl, ?_⟩
  exact limiter_linearizable (by norm_num) (by norm_num) (by norm_num) (by exact_mod_cast hfill) hs

end Tally
