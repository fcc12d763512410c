import Mathlib.Data.List.Count
import Tally.Foundation.ExpiringCounters

/-!
# The limiter on Redis

`ratelimit.Redis`: a counter for each client key and second, shared by all instances, which a script
counts up and gives 1999 milliseconds to live. Its name ends in the time of day and carries no date,
so it is used again on every day. The label has a fixed length, so that names of different keys or
times of day are different whatever characters the keys have; and a counter outlives the scripts of
its second, which run at most 999 milliseconds late, but not the day.

Times are in nanoseconds. Redis keeps time in whole milliseconds, and runs one script at a time.

## Main definitions

* `windowKey`: the name of a counter
* `allowScript`: the script
* `RedisCall`, `redisAllow`: a call of `Redis.Allow`
* `answered`: the calls of a run with their answers

## Main results

* `windowKey_inj`: the name of a counter tells the client key and the time of day
* `separated_toHit`: the scripts of a second run while its counter lives, those of other days after
* `redis_windows_exact`: of the calls of a key in a second the first ones, up to the limit, are
  allowed
-/

namespace Tally

open Foundation

/-! ## The name of a counter -/

def twoDigits (n : ℕ) : List Char := [Nat.digitChar (n / 10), Nat.digitChar (n % 10)]

/-- `Format("15:04:05")` of a time in UTC, given in seconds. -/
def clockLabel (second : ℤ) : List Char :=
  let s := (second % 86400).toNat
  twoDigits (s / 3600) ++ ':' :: twoDigits (s / 60 % 60) ++ ':' :: twoDigits (s % 60)

/-- The name of the counter of a client key in a second. -/
def windowKey (key : String) (second : ℤ) : String :=
  "rl:" ++ key ++ ":" ++ String.ofList (clockLabel second)

example : windowKey "k:1" 86399 = "rl:k:1:23:59:59" := by decide +kernel

theorem twoDigits_inj {a b : ℕ} (ha : a < 100) (hb : b < 100) (h : twoDigits a = twoDigits b) :
    a = b := by
  have hdigit : ∀ i < 10, ∀ j < 10, Nat.digitChar i = Nat.digitChar j → i = j := by decide
  simp only [twoDigits, List.cons.injEq, and_true] at h
  have htens := hdigit (a / 10) (by omega) (b / 10) (by omega) h.1
  have hones := hdigit (a % 10) (by omega) (b % 10) (by omega) h.2
  omega

/-- The label tells the time of day. -/
theorem clockLabel_inj {s t : ℤ} (h : clockLabel s = clockLabel t) : s % 86400 = t % 86400 := by
  have hs : (s % 86400).toNat < 86400 := by omega
  have ht : (t % 86400).toNat < 86400 := by omega
  have heq : (s % 86400).toNat = (t % 86400).toNat := by
    simp only [clockLabel] at h
    generalize (s % 86400).toNat = a at h hs
    generalize (t % 86400).toNat = b at h ht
    obtain ⟨hrest, hsecond⟩ := List.append_inj h rfl
    obtain ⟨hhour, hminute⟩ := List.append_inj hrest rfl
    have h₁ := twoDigits_inj (by omega) (by omega) hhour
    have h₂ := twoDigits_inj (by omega) (by omega) (List.tail_eq_of_cons_eq hminute)
    have h₃ := twoDigits_inj (by omega) (by omega) (List.tail_eq_of_cons_eq hsecond)
    omega
  omega

/-- **The name of a counter tells the client key and the time of day.** -/
theorem windowKey_inj {key key' : String} {s t : ℤ} (h : windowKey key s = windowKey key' t) :
    key = key' ∧ s % 86400 = t % 86400 := by
  have hchars := congrArg String.toList h
  simp only [windowKey, String.toList_append, String.toList_ofList] at hchars
  obtain ⟨hkey, hlabel⟩ := List.append_inj' hchars rfl
  obtain ⟨hkey, -⟩ := List.append_inj' hkey rfl
  exact ⟨String.toList_inj.mp (List.append_cancel_left hkey), clockLabel_inj hlabel⟩

/-! ## Calls -/

/-- `allowScript`, at a time in milliseconds. -/
def allowScript (limit : ℕ) (now : ℤ) (key : String) (s : Counters String) :
    ℕ × Counters String :=
  let (n, s) := s.incr now key
  let s := if n = 1 then s.expire now 1999 key else s
  (if n ≤ limit then 1 else 0, s)

/-- What `Redis.Allow` makes of the reply: it fails open. -/
def allowedBy : Option ℕ → Bool
  | none => true
  | some n => n == 1

/-- A call of `Redis.Allow` by some instance: the client key, the time it takes from its clock, and
the time of Redis at which its script runs. -/
structure RedisCall where
  key : String
  now : ℤ
  ran : ℤ

namespace RedisCall

/-- The calendar second of a call. -/
def second (c : RedisCall) : ℤ := c.now / 1000000000

/-- The script runs within 999 milliseconds. -/
def Prompt (c : RedisCall) : Prop := c.now ≤ c.ran ∧ c.ran ≤ c.now + 999000000

/-- A call as a hit of the counter of its key and second. -/
def toHit (c : RedisCall) : Hit (String × ℤ) := ⟨c.ran / 1000000, c.key, c.second⟩

end RedisCall

/-- `Redis.Allow`, when Redis replies. -/
def redisAllow (limit : ℕ) (c : RedisCall) (s : Counters String) : Bool × Counters String :=
  let (n, s) := allowScript limit (c.ran / 1000000) (windowKey c.key c.second) s
  (allowedBy (some n), s)

/-- The calls of a run, in the order their scripts run, with their answers. -/
def answered (limit : ℕ) : Counters String → List RedisCall → List (RedisCall × Bool)
  | _, [] => []
  | s, c :: calls =>
    (c, (redisAllow limit c s).1) :: answered limit (redisAllow limit c s).2 calls

variable (limit : ℕ) {calls : List RedisCall}

/-- The script hits the counter, and compares the count with the limit. -/
theorem redisAllow_eq (limit : ℕ) (c : RedisCall) (s : Counters String) :
    redisAllow limit c s =
      (decide ((s.hit 1999 (c.ran / 1000000) (windowKey c.key c.second)).1 ≤ limit),
        (s.hit 1999 (c.ran / 1000000) (windowKey c.key c.second)).2) := by
  refine Prod.ext ?_ rfl
  show allowedBy (some (if _ ≤ limit then 1 else 0)) = decide (_ ≤ limit)
  split_ifs with hle
  · exact (decide_eq_true hle).symm
  · exact (decide_eq_false hle).symm

theorem answered_append_singleton (limit : ℕ) (calls : List RedisCall) (c : RedisCall) :
    answered limit .empty (calls ++ [c]) = answered limit .empty calls ++
      [(c, (redisAllow limit c
        (.after 1999 (fun w => windowKey w.1 w.2) (calls.map RedisCall.toHit))).1)] := by
  have hfrom : ∀ s, answered limit s (calls ++ [c]) = answered limit s calls ++
      [(c, (redisAllow limit c ((calls.map RedisCall.toHit).foldl (fun s h =>
        (s.hit 1999 h.time (windowKey h.window.1 h.window.2)).2) s)).1)] := by
    induction calls with
    | nil => exact fun s => rfl
    | cons c' calls ih =>
      intro s
      have hstep : (redisAllow limit c' s).2 =
          (s.hit 1999 (c'.ran / 1000000) (windowKey c'.key c'.second)).2 := by rw [redisAllow_eq]
      rw [List.cons_append, answered, answered, ih, hstep]
      rfl
  exact hfrom .empty

/-- **The scripts of a second run while its counter lives, and those of the same time on another day
after it has expired.** -/
theorem separated_toHit (hsorted : calls.Pairwise fun c c' => c.ran ≤ c'.ran)
    (hprompt : ∀ c ∈ calls, c.Prompt) :
    Counters.Separated 1999 (fun w => windowKey w.1 w.2) (calls.map RedisCall.toHit) := by
  rw [Counters.Separated, List.pairwise_map]
  refine hsorted.imp_of_mem fun {c c'} hc hc' hle => ?_
  obtain ⟨hlow, hhigh⟩ := hprompt c hc
  obtain ⟨hlow', hhigh'⟩ := hprompt c' hc'
  simp only [RedisCall.toHit, RedisCall.second]
  refine ⟨by omega, fun hsame => ?_, fun hother hlabel => ?_⟩
  · have hsecond : c.now / 1000000000 = c'.now / 1000000000 := congrArg Prod.snd hsame
    omega
  · obtain ⟨hkey, hday⟩ := windowKey_inj hlabel
    have hsecond : c.now / 1000000000 ≠ c'.now / 1000000000 := fun heq =>
      hother (Prod.ext hkey heq)
    omega

/-! ## Windows -/

/-- A call is allowed exactly when fewer than the limit of its key and second came before it. -/
theorem redisAllow_after {c : RedisCall}
    (hsep : Counters.Separated 1999 (fun w => windowKey w.1 w.2)
      ((calls ++ [c]).map RedisCall.toHit)) :
    (redisAllow limit c
        (.after 1999 (fun w => windowKey w.1 w.2) (calls.map RedisCall.toHit))).1 =
      decide (calls.countP (fun c' => c'.key = c.key ∧ c'.second = c.second) < limit) := by
  rw [List.map_append] at hsep
  have hcount := Counters.hit_after hsep
  have hwindow : (calls.map RedisCall.toHit).countP (fun h => h.window = c.toHit.window) =
      calls.countP fun c' => c'.key = c.key ∧ c'.second = c.second := by
    rw [List.countP_map]
    refine List.countP_congr fun c' _ => ?_
    simp only [Function.comp_apply, RedisCall.toHit, Prod.mk.injEq, decide_eq_true_eq]
  rw [hwindow] at hcount
  rw [redisAllow_eq]
  exact decide_eq_decide.mpr (by rw [← Nat.succ_le_iff, Nat.succ_eq_add_one, ← hcount]; rfl)

/-- **The answers to the calls of a key in a second**: the first ones up to the limit are allowed,
and no others. -/
theorem answers_of_window (hsorted : calls.Pairwise fun c c' => c.ran ≤ c'.ran)
    (hprompt : ∀ c ∈ calls, c.Prompt) (key : String) (second : ℤ) :
    ((answered limit .empty calls).filter fun a => a.1.key = key ∧ a.1.second = second).map
        Prod.snd =
      (List.range (calls.countP fun c => c.key = key ∧ c.second = second)).map
        fun i => decide (i < limit) := by
  induction calls using List.reverseRecOn with
  | nil => rfl
  | append_singleton calls c ih =>
    have hanswer := redisAllow_after limit (separated_toHit hsorted hprompt)
    have hinit := ih (List.pairwise_append.mp hsorted).1 fun c' hc' =>
      hprompt c' (List.mem_append_left _ hc')
    rw [answered_append_singleton, List.filter_append, List.map_append, hinit, hanswer,
      List.countP_append, List.countP_singleton]
    by_cases hown : c.key = key ∧ c.second = second
    · obtain ⟨rfl, rfl⟩ := hown
      rw [List.filter_cons_of_pos (by simp), if_pos (by simp), List.range_succ, List.map_append]
      rfl
    · rw [List.filter_cons_of_neg (by simpa using hown), if_neg (by simpa using hown)]
      simp

theorem countP_le_add {α : Type*} {p q r : α → Bool} {l : List α}
    (h : ∀ a ∈ l, p a = true → q a = true ∨ r a = true) : l.countP p ≤ l.countP q + l.countP r := by
  induction l with
  | nil => exact Nat.zero_le _
  | cons a l ih =>
    have hrest := ih fun b hb => h b (List.mem_cons_of_mem a hb)
    have ha : (if p a then 1 else 0) ≤ (if q a then 1 else 0) + if r a then 1 else 0 := by
      by_cases hp : p a = true
      · rcases h a List.mem_cons_self hp with hq | hr
        · simp [hp, hq]
        · simp [hp, hr]
      · simp [hp]
    rw [List.countP_cons, List.countP_cons, List.countP_cons]
    omega

theorem countP_range_lt (limit k : ℕ) :
    ((List.range k).map fun i => decide (i < limit)).countP id = min limit k := by
  induction k with
  | zero => simp
  | succ k ih =>
    rw [List.range_succ, List.map_append, List.countP_append, ih, List.map_singleton,
      List.countP_singleton]
    by_cases hk : k < limit <;> simp [hk] <;> omega

/-- The number of calls allowed for a key in a second. -/
theorem countP_of_window (hsorted : calls.Pairwise fun c c' => c.ran ≤ c'.ran)
    (hprompt : ∀ c ∈ calls, c.Prompt) (key : String) (second : ℤ) :
    ((answered limit .empty calls).countP fun a =>
        (a.1.key = key ∧ a.1.second = second) ∧ a.2 = true) =
      min limit (calls.countP fun c => c.key = key ∧ c.second = second) := by
  rw [← countP_range_lt, ← answers_of_window limit hsorted hprompt, List.countP_map,
    List.countP_filter]
  refine List.countP_congr fun a _ => ?_
  simp [and_comm]

/-- **The window limiter is exact.** In a run of calls by any instances, in the order their scripts
run, each within 999 milliseconds of the time of its call: of the calls of a key in a calendar
second exactly the first ones to run are allowed, up to the limit, whatever else is called; and at
most twice the limit is allowed for a key within any second of time. -/
theorem redis_windows_exact (hsorted : calls.Pairwise fun c c' => c.ran ≤ c'.ran)
    (hprompt : ∀ c ∈ calls, c.now ≤ c.ran ∧ c.ran ≤ c.now + 999000000) :
    (∀ (key : String) (second : ℤ),
      ((answered limit .empty calls).filter fun a => a.1.key = key ∧ a.1.second = second).map
          Prod.snd =
        (List.range (calls.countP fun c => c.key = key ∧ c.second = second)).map
          (fun i => decide (i < limit)) ∧
      ((answered limit .empty calls).countP fun a =>
          (a.1.key = key ∧ a.1.second = second) ∧ a.2 = true) =
        min limit (calls.countP fun c => c.key = key ∧ c.second = second)) ∧
    ∀ (key : String) (t : ℤ),
      ((answered limit .empty calls).countP fun a =>
        a.1.key = key ∧ t ≤ a.1.now ∧ a.1.now ≤ t + 1000000000 ∧ a.2 = true) ≤ 2 * limit := by
  refine ⟨fun key second => ⟨answers_of_window limit hsorted hprompt key second,
    countP_of_window limit hsorted hprompt key second⟩, fun key t => ?_⟩
  have hfirst := countP_of_window limit hsorted hprompt key (t / 1000000000)
  have hlast := countP_of_window limit hsorted hprompt key (t / 1000000000 + 1)
  have hsplit : ((answered limit .empty calls).countP fun a =>
        a.1.key = key ∧ t ≤ a.1.now ∧ a.1.now ≤ t + 1000000000 ∧ a.2 = true) ≤
      ((answered limit .empty calls).countP fun a =>
        (a.1.key = key ∧ a.1.second = t / 1000000000) ∧ a.2 = true) +
      ((answered limit .empty calls).countP fun a =>
        (a.1.key = key ∧ a.1.second = t / 1000000000 + 1) ∧ a.2 = true) := by
    refine countP_le_add fun a _ ha => ?_
    have hsecond : a.1.second = a.1.now / 1000000000 := rfl
    simp only [decide_eq_true_eq] at ha ⊢
    obtain ⟨hkey, hlow, hhigh, hok⟩ := ha
    by_cases hlt : a.1.second < t / 1000000000 + 1
    · exact .inl ⟨⟨hkey, by omega⟩, hok⟩
    · exact .inr ⟨⟨hkey, by omega⟩, hok⟩
  omega

/-- Two calls in one second, and one at the same time of the next day. -/
theorem redis_windows_exact_next_day :
    let calls : List RedisCall := [⟨"k:1", 0, 0⟩, ⟨"k:1", 1, 999000001⟩,
      ⟨"k:1", 86400000000000, 86400500000000⟩]
    calls.Pairwise (fun c c' => c.ran ≤ c'.ran) ∧
      (∀ c ∈ calls, c.now ≤ c.ran ∧ c.ran ≤ c.now + 999000000) ∧
      ((answered 1 .empty calls).countP fun a =>
          (a.1.key = "k:1" ∧ a.1.second = 0) ∧ a.2 = true) = 1 ∧
      ((answered 1 .empty calls).countP fun a =>
          (a.1.key = "k:1" ∧ a.1.second = 86400) ∧ a.2 = true) = 1 := by
  intro calls
  have hsorted : calls.Pairwise fun c c' => c.ran ≤ c'.ran := by decide
  have hprompt : ∀ c ∈ calls, c.now ≤ c.ran ∧ c.ran ≤ c.now + 999000000 := by decide
  have hexact := (redis_windows_exact 1 hsorted hprompt).1 "k:1"
  exact ⟨hsorted, hprompt, (hexact 0).2, (hexact 86400).2⟩

end Tally
