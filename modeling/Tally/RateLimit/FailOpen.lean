import Mathlib.Data.Multiset.Count
import Mathlib.Logic.Relation
import Tally.RateLimit.Redis

/-!
# The limiter on Redis when calls fail

`Redis.Allow` fails open: a call whose script gives no reply within 200 milliseconds is allowed. The
script of such a call may have run or not, and the client may have sent it again over another
connection, so that one call counts more than once; a copy of the script may run after the call has
returned, with an answer or without one. In every order of these steps a second allows a key at most
the limit and one event more for each call that failed, and no call is denied before scripts of its
key and second have run as often as the limit.

## Main definitions

* `RedisRequest`: a call of `Redis.Allow`
* `RedisLimiter`: Redis, the calls in flight with the replies for them, and the calls answered
* `RedisLimiter.Step`, `RedisLimiter.Reachable`: the runs
* `RedisLimiter.Inv`: the invariant of the runs

## Main results

* `RedisLimiter.Step.inv`: every step keeps the invariant
* `redis_fails_open`: what failures can add to the limit, and when a call is denied
-/

namespace Tally

open Foundation

/-- A call of `Redis.Allow`: the client key, and the time the instance takes from its clock. -/
structure RedisRequest where
  key : String
  now : ℤ
  deriving DecidableEq

/-- The client key and the calendar second of a call. -/
def RedisRequest.window (r : RedisRequest) : String × ℤ := (r.key, r.now / 1000000000)

/-- Redis, which the instances share: its counters, the runs of the script so far, the calls in
flight, each with the replies to it, and the answers. A reply is `none` when the client returned an
error. -/
structure RedisLimiter where
  counters : Counters String
  ran : List RedisCall
  flights : Multiset (RedisRequest × List ℕ)
  answers : List (RedisRequest × Option ℕ)

namespace RedisLimiter

def init : RedisLimiter := ⟨.empty, [], 0, []⟩

/-- The script of a call runs. -/
def run (limit : ℕ) (r : RedisRequest) (t : ℤ) (s : RedisLimiter) : RedisLimiter :=
  { s with
    counters := (allowScript limit (t / 1000000) (windowKey r.key (r.now / 1000000000))
      s.counters).2
    ran := s.ran ++ [⟨r.key, r.now, t⟩] }

/-- What the script of a call returns. -/
def reply (limit : ℕ) (r : RedisRequest) (t : ℤ) (s : RedisLimiter) : ℕ :=
  (allowScript limit (t / 1000000) (windowKey r.key (r.now / 1000000000)) s.counters).1

/-- The script of a call may run at a time: it is not earlier than the runs before, and within 999
milliseconds of the call. -/
def MayRun (r : RedisRequest) (t : ℤ) (s : RedisLimiter) : Prop :=
  (r.now ≤ t ∧ t ≤ r.now + 999000000) ∧ ∀ c ∈ s.ran, c.ran ≤ t

/-- One step of the instances or of Redis. -/
inductive Step (limit : ℕ) (s : RedisLimiter) : RedisLimiter → Prop
  | call (r : RedisRequest) : Step limit s { s with flights := (r, []) ::ₘ s.flights }
  /-- The client may send the script more than once. -/
  | script (r : RedisRequest) (replies : List ℕ) (rest : Multiset (RedisRequest × List ℕ)) (t : ℤ)
      (flight : s.flights = (r, replies) ::ₘ rest) (time : s.MayRun r t) :
      Step limit s
        { s.run limit r t with flights := (r, s.reply limit r t :: replies) ::ₘ rest }
  /-- A copy of the script runs whose reply reaches nobody, as after the call has returned. -/
  | late (r : RedisRequest) (t : ℤ) (time : s.MayRun r t) : Step limit s (s.run limit r t)
  | answer (r : RedisRequest) (replies : List ℕ) (rest : Multiset (RedisRequest × List ℕ)) (n : ℕ)
      (flight : s.flights = (r, replies) ::ₘ rest) (got : n ∈ replies) :
      Step limit s { s with flights := rest, answers := s.answers ++ [(r, some n)] }
  /-- The client returns an error, whatever Redis has done. -/
  | fail (r : RedisRequest) (replies : List ℕ) (rest : Multiset (RedisRequest × List ℕ))
      (flight : s.flights = (r, replies) ::ₘ rest) :
      Step limit s { s with flights := rest, answers := s.answers ++ [(r, none)] }

def Reachable (limit : ℕ) (s : RedisLimiter) : Prop := Relation.ReflTransGen (Step limit) init s

/-- The runs of the script for a key and a second. -/
def scripts (s : RedisLimiter) (w : String × ℤ) : ℕ := s.ran.countP fun c => c.toHit.window = w

/-- The calls of a key and a second that were allowed by a reply. -/
def granted (s : RedisLimiter) (w : String × ℤ) : ℕ :=
  s.answers.countP fun a => a.1.window = w ∧ a.2 = some 1

/-- The calls of a key and a second in flight with a reply that allows them. -/
def granting (s : RedisLimiter) (w : String × ℤ) : ℕ :=
  s.flights.countP fun f => f.1.window = w ∧ 1 ∈ f.2

/-- **The invariant of the runs.** -/
structure Inv (limit : ℕ) (s : RedisLimiter) : Prop where
  counters : s.counters = .after 1999 (fun w => windowKey w.1 w.2) (s.ran.map RedisCall.toHit)
  sorted : s.ran.Pairwise fun c c' => c.ran ≤ c'.ran
  prompt : ∀ c ∈ s.ran, c.Prompt
  grants : ∀ w, s.granted w + s.granting w ≤ min limit (s.scripts w)
  replies : ∀ f ∈ s.flights, ∀ n ∈ f.2, n = 1 ∨ (n = 0 ∧ limit ≤ s.scripts f.1.window)
  answers : ∀ a ∈ s.answers, ∀ n ∈ a.2, n = 1 ∨ (n = 0 ∧ limit ≤ s.scripts a.1.window)

variable {limit : ℕ} {s s' : RedisLimiter} {r : RedisRequest} {t : ℤ}

theorem inv_init (limit : ℕ) : init.Inv limit where
  counters := rfl
  sorted := .nil
  prompt _ hc := absurd hc List.not_mem_nil
  grants _ := Nat.zero_le _
  replies f hf := absurd hf (Multiset.notMem_zero f)
  answers _ ha := absurd ha List.not_mem_nil

theorem scripts_run (limit : ℕ) (r : RedisRequest) (t : ℤ) (s : RedisLimiter) (w : String × ℤ) :
    (s.run limit r t).scripts w = s.scripts w + if r.window = w then 1 else 0 := by
  have hwindow : (RedisCall.toHit ⟨r.key, r.now, t⟩).window = r.window := rfl
  simp only [scripts, run, List.countP_append, List.countP_singleton, hwindow, decide_eq_true_eq]

theorem scripts_le_run (limit : ℕ) (r : RedisRequest) (t : ℤ) (s : RedisLimiter)
    (w : String × ℤ) : s.scripts w ≤ (s.run limit r t).scripts w := by
  rw [scripts_run]
  exact Nat.le_add_right _ _

theorem Inv.sorted_run (h : s.Inv limit) (htime : s.MayRun r t) :
    (s.run limit r t).ran.Pairwise fun c c' => c.ran ≤ c'.ran := by
  refine List.pairwise_append.mpr ⟨h.sorted, List.pairwise_singleton _ _, fun c hc c' hc' => ?_⟩
  rw [List.mem_singleton.mp hc']
  exact htime.2 c hc

theorem Inv.prompt_run (h : s.Inv limit) (htime : s.MayRun r t) :
    ∀ c ∈ (s.run limit r t).ran, c.Prompt := by
  intro c hc
  rcases List.mem_append.mp hc with hc | hc
  · exact h.prompt c hc
  · rw [List.mem_singleton.mp hc]
    exact htime.1

/-- The counters after the script has run once more. -/
theorem Inv.counters_run (h : s.Inv limit) (r : RedisRequest) (t : ℤ) :
    (s.run limit r t).counters =
      .after 1999 (fun w => windowKey w.1 w.2) ((s.run limit r t).ran.map RedisCall.toHit) := by
  have hrun : (s.run limit r t).counters =
      (s.counters.hit 1999 (t / 1000000) (windowKey r.key (r.now / 1000000000))).2 := rfl
  have hran : (s.run limit r t).ran = s.ran ++ [⟨r.key, r.now, t⟩] := rfl
  rw [hrun, hran, h.counters, List.map_append, Counters.after, Counters.after, List.foldl_append]
  rfl

/-- **The script allows a call exactly when fewer than the limit ran before for its key and
second.** -/
theorem Inv.reply_eq (h : s.Inv limit) (htime : s.MayRun r t) :
    s.reply limit r t = if s.scripts r.window < limit then 1 else 0 := by
  have hsep : Counters.Separated 1999 (fun w : String × ℤ => windowKey w.1 w.2)
      ((s.ran ++ [(⟨r.key, r.now, t⟩ : RedisCall)]).map RedisCall.toHit) :=
    separated_toHit (h.sorted_run htime) (h.prompt_run htime)
  rw [List.map_append] at hsep
  have hhit := Counters.hit_after hsep
  rw [List.countP_map] at hhit
  have hcount : (allowScript limit (t / 1000000) (windowKey r.key (r.now / 1000000000))
      s.counters).1 = if s.scripts r.window + 1 ≤ limit then 1 else 0 := by
    rw [h.counters]
    exact congrArg (fun n => if n ≤ limit then 1 else 0) hhit
  rw [reply, hcount]
  rfl

/-- A window with a run of the script more: the bound on what it allows goes up if the run allows
its call. -/
theorem Inv.min_scripts_run (h : s.Inv limit) (htime : s.MayRun r t) :
    min limit ((s.run limit r t).scripts r.window) =
      min limit (s.scripts r.window) + s.reply limit r t := by
  rw [scripts_run, if_pos rfl, h.reply_eq htime]
  split_ifs <;> omega

/-- What was denied stays denied. -/
theorem Inv.denied_run (h : s.Inv limit) (r : RedisRequest) (t : ℤ) :
    (∀ f ∈ s.flights, ∀ n ∈ f.2,
      n = 1 ∨ (n = 0 ∧ limit ≤ (s.run limit r t).scripts f.1.window)) ∧
    ∀ a ∈ s.answers, ∀ n ∈ a.2,
      n = 1 ∨ (n = 0 ∧ limit ≤ (s.run limit r t).scripts a.1.window) := by
  have hle : ∀ w, s.scripts w ≤ (s.run limit r t).scripts w := scripts_le_run limit r t s
  refine ⟨fun f hf n hn => ?_, fun a ha n hn => ?_⟩
  · exact (h.replies f hf n hn).imp_right fun h0 => ⟨h0.1, h0.2.trans (hle _)⟩
  · exact (h.answers a ha n hn).imp_right fun h0 => ⟨h0.1, h0.2.trans (hle _)⟩

/-- The flights with one of them taken out. -/
theorem granting_of_flight {replies : List ℕ} {rest : Multiset (RedisRequest × List ℕ)}
    (hflight : s.flights = (r, replies) ::ₘ rest) (w : String × ℤ) :
    s.granting w = rest.countP (fun f => f.1.window = w ∧ 1 ∈ f.2) +
      if r.window = w ∧ 1 ∈ replies then 1 else 0 := by
  rw [granting, hflight, Multiset.countP_cons]

/-- A call begins. -/
theorem Inv.called (h : s.Inv limit) (r : RedisRequest) :
    Inv limit { s with flights := (r, []) ::ₘ s.flights } := by
  refine { h with grants := fun w => ?_, replies := fun f hf => ?_ }
  · have hgranting : granting { s with flights := (r, []) ::ₘ s.flights } w = s.granting w := by
      rw [granting, Multiset.countP_cons, if_neg (by simp)]
      rfl
    show s.granted w + granting { s with flights := (r, []) ::ₘ s.flights } w ≤ _
    rw [hgranting]
    exact h.grants w
  · rcases Multiset.mem_cons.mp hf with rfl | hf
    · exact fun n hn => absurd hn List.not_mem_nil
    · exact h.replies f hf

/-- What a run of the script allows is within the bound of its window. -/
theorem Inv.grants_script (h : s.Inv limit) {replies : List ℕ}
    {rest : Multiset (RedisRequest × List ℕ)} (hflight : s.flights = (r, replies) ::ₘ rest)
    (htime : s.MayRun r t) (w : String × ℤ) :
    s.granted w + (rest.countP (fun f => f.1.window = w ∧ 1 ∈ f.2) +
        if r.window = w ∧ 1 ∈ s.reply limit r t :: replies then 1 else 0) ≤
      min limit ((s.run limit r t).scripts w) := by
  have hold := h.grants w
  rw [granting_of_flight hflight] at hold
  by_cases hw : r.window = w
  · subst hw
    have hmin := h.min_scripts_run htime
    simp only [true_and, List.mem_cons] at hold ⊢
    by_cases hone : 1 ∈ replies
    · simp only [hone, or_true, if_true] at hold ⊢
      omega
    · simp only [hone, or_false, if_false] at hold ⊢
      split_ifs with hgrant <;> omega
  · have hsame : (s.run limit r t).scripts w = s.scripts w := by
      rw [scripts_run, if_neg hw, Nat.add_zero]
    simp only [hw, false_and, if_false] at hold ⊢
    rw [hsame]
    exact hold

/-- The script of a call in flight runs. -/
theorem Inv.script (h : s.Inv limit) {replies : List ℕ}
    {rest : Multiset (RedisRequest × List ℕ)} (hflight : s.flights = (r, replies) ::ₘ rest)
    (htime : s.MayRun r t) :
    Inv limit { s.run limit r t with flights := (r, s.reply limit r t :: replies) ::ₘ rest } := by
  obtain ⟨hreplies, hanswers⟩ := h.denied_run r t
  rw [hflight, Multiset.forall_mem_cons] at hreplies
  refine ⟨h.counters_run r t, h.sorted_run htime, h.prompt_run htime, fun w => ?_,
    Multiset.forall_mem_cons.mpr ⟨fun n hn => ?_, hreplies.2⟩, hanswers⟩
  · have hgranting : granting { s.run limit r t with
        flights := (r, s.reply limit r t :: replies) ::ₘ rest } w = _ := granting_of_flight rfl w
    show s.granted w + _ ≤ min limit ((s.run limit r t).scripts w)
    rw [hgranting]
    exact h.grants_script hflight htime w
  · rcases List.mem_cons.mp hn with rfl | hn
    · have hle := scripts_le_run limit r t s r.window
      rw [h.reply_eq htime]
      split_ifs with hlt
      · exact .inl rfl
      · exact .inr ⟨rfl, (not_lt.mp hlt).trans hle⟩
    · exact hreplies.1 n hn

/-- A script runs whose reply reaches nobody. -/
theorem Inv.late (h : s.Inv limit) (htime : s.MayRun r t) : (s.run limit r t).Inv limit := by
  obtain ⟨hreplies, hanswers⟩ := h.denied_run r t
  refine ⟨h.counters_run r t, h.sorted_run htime, h.prompt_run htime, fun w => ?_, hreplies,
    hanswers⟩
  have hle := scripts_le_run limit r t s w
  exact (h.grants w).trans (by omega)

/-- A call returns, with a reply it got or with an error: what a reply allows was counted while the
call was in flight. -/
theorem Inv.returned (h : s.Inv limit) {replies : List ℕ}
    {rest : Multiset (RedisRequest × List ℕ)} (hflight : s.flights = (r, replies) ::ₘ rest)
    {reply : Option ℕ} (hgot : ∀ n ∈ reply, n ∈ replies) :
    Inv limit { s with flights := rest, answers := s.answers ++ [(r, reply)] } := by
  have hreplies := h.replies
  rw [hflight, Multiset.forall_mem_cons] at hreplies
  refine { h with grants := fun w => ?_, replies := hreplies.2, answers := fun a ha => ?_ }
  · have hold := h.grants w
    rw [granting_of_flight hflight] at hold
    have hgranted : granted { s with flights := rest, answers := s.answers ++ [(r, reply)] } w =
        s.granted w + if r.window = w ∧ reply = some 1 then 1 else 0 := by
      simp [granted, List.countP_append, List.countP_singleton]
    have himp : (if r.window = w ∧ reply = some 1 then 1 else 0) ≤
        if r.window = w ∧ 1 ∈ replies then 1 else 0 := by
      by_cases hone : r.window = w ∧ reply = some 1
      · rw [if_pos hone, if_pos ⟨hone.1, hgot 1 hone.2⟩]
      · rw [if_neg hone]
        exact Nat.zero_le _
    show granted { s with flights := rest, answers := s.answers ++ [(r, reply)] } w +
      rest.countP _ ≤ _
    rw [hgranted]
    exact le_trans (by omega) hold
  · rcases List.mem_append.mp ha with ha | ha
    · exact h.answers a ha
    · rw [List.mem_singleton.mp ha]
      exact fun n hn => hreplies.1 n (hgot n hn)

/-- **Every step keeps the invariant.** -/
theorem Step.inv (hstep : Step limit s s') (h : s.Inv limit) : s'.Inv limit := by
  cases hstep with
  | call r => exact h.called r
  | script r replies rest t flight time => exact h.script flight time
  | late r t time => exact h.late time
  | answer r replies rest n flight got =>
    refine h.returned flight fun k hk => ?_
    rwa [← Option.some.inj hk]
  | fail r replies rest flight => exact h.returned flight nofun

theorem Reachable.inv (h : Reachable limit s) : s.Inv limit := by
  induction h with
  | refl => exact inv_init limit
  | tail _ hstep ih => exact hstep.inv ih

end RedisLimiter

/-- **Failures cost one event each, and deny nothing.** In every run of calls by any instances, in
which scripts run late, more than once for a call, after it has returned, or not at all, as long as
each runs within 999 milliseconds of its call: of the calls of a key in a calendar second at most
the limit is allowed, and one more for each of them that failed. A call that is denied had a reply,
and scripts of its key and second had run at least as often as the limit. -/
theorem redis_fails_open {limit : ℕ} {s : RedisLimiter} (h : RedisLimiter.Reachable limit s)
    (key : String) (second : ℤ) :
    (s.answers.countP fun a =>
        (a.1.key = key ∧ a.1.now / 1000000000 = second) ∧ allowedBy a.2 = true) ≤
      limit + s.answers.countP (fun a =>
        (a.1.key = key ∧ a.1.now / 1000000000 = second) ∧ a.2 = none) ∧
    ∀ a ∈ s.answers, (a.1.key = key ∧ a.1.now / 1000000000 = second) → allowedBy a.2 = false →
      a.2 = some 0 ∧ limit ≤ s.ran.countP fun c => c.key = key ∧ c.second = second := by
  have hinv := h.inv
  have hscripts : s.scripts (key, second) =
      s.ran.countP fun c => c.key = key ∧ c.second = second := by
    refine List.countP_congr fun c _ => ?_
    simp [RedisCall.toHit]
  constructor
  · have hgrants := hinv.grants (key, second)
    have hsplit : (s.answers.countP fun a =>
          (a.1.key = key ∧ a.1.now / 1000000000 = second) ∧ allowedBy a.2 = true) ≤
        s.granted (key, second) + s.answers.countP fun a =>
          (a.1.key = key ∧ a.1.now / 1000000000 = second) ∧ a.2 = none := by
      refine countP_le_add fun a _ ha => ?_
      simp only [decide_eq_true_eq] at ha ⊢
      obtain ⟨⟨hkey, hsecond⟩, hallowed⟩ := ha
      cases hreply : a.2 with
      | none => exact .inr ⟨⟨hkey, hsecond⟩, rfl⟩
      | some n =>
        rw [hreply] at hallowed
        exact .inl ⟨Prod.ext hkey hsecond, by simpa [allowedBy] using hallowed⟩
    omega
  · intro a ha hwindow hdenied
    cases hreply : a.2 with
    | none => simp [hreply, allowedBy] at hdenied
    | some n =>
      rcases hinv.answers a ha n hreply with rfl | ⟨rfl, hle⟩
      · simp [hreply, allowedBy] at hdenied
      · have hw : a.1.window = (key, second) := Prod.ext hwindow.1 hwindow.2
        rw [hw, hscripts] at hle
        exact ⟨rfl, hle⟩

/-- The limit is one: a call that the script allows, and one that fails. -/
theorem redis_fails_open_two_calls :
    let r : RedisRequest := ⟨"k:1", 0⟩
    ∃ s, RedisLimiter.Reachable 1 s ∧ s.answers = [(r, some 1), (r, none)] ∧
      (s.answers.countP fun a =>
        (a.1.key = "k:1" ∧ a.1.now / 1000000000 = 0) ∧ allowedBy a.2 = true) ≤
      1 + s.answers.countP fun a =>
        (a.1.key = "k:1" ∧ a.1.now / 1000000000 = 0) ∧ a.2 = none := by
  intro r
  let s₀ : RedisLimiter := { RedisLimiter.init with flights := {(r, []), (r, [])} }
  let s : RedisLimiter := { s₀.run 1 r 0 with flights := 0, answers := [(r, some 1), (r, none)] }
  have hreply : s₀.reply 1 r 0 = 1 := by decide +kernel
  have htime : s₀.MayRun r 0 := ⟨by decide, fun c hc => absurd hc List.not_mem_nil⟩
  have hs : RedisLimiter.Reachable 1 s := by
    refine .tail (.tail (.tail (.tail (.tail .refl (.call r)) (.call r))
      (.script r [] {(r, [])} 0 rfl htime)) (.answer r [1] {(r, [])} 1 ?_ List.mem_cons_self))
      (.fail r [] 0 rfl)
    exact congrArg (fun n => (r, [n]) ::ₘ {(r, [])}) hreply
  exact ⟨s, hs, rfl, (redis_fails_open hs "k:1" 0).1⟩

end Tally
