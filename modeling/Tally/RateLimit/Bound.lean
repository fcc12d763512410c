import Tally.Ingest.Storable
import Tally.RateLimit.Memory

/-!
# The events of a client

Both doors ask one limiter, as `main` wires them. `postEvent` takes a token for its one event;
`Publish` takes one token for a call, whatever the number of its events. So the limit bounds the
events of a client in every interval as long as every call of `Publish` carries at most one valid
event, and not otherwise.

## Main definitions

* `Op`, `Front.step`, `Front.run`: calls, passes of the janitor, and changes of the queue
* `enqueuedIn`: the events enqueued for a key in an interval
* `Within`: the bound, together with what the key has left

## Main results

* `Within.step`: a step whose call carries at most one valid event keeps the bound
* `client_events_bounded_iff`: the bound holds in all runs exactly when every call of `Publish`
  carries at most one valid event
-/

namespace Tally

variable {Q : Type}

/-- Both doors on one in-memory limiter. -/
def Wiring.limited (limit : Limit) (enqueue : Event → Q → Option EnqueueError × Q) :
    Wiring MemoryLimiter Q := ⟨some (MemoryLimiter.allow limit), enqueue⟩

/-- A step of the process, as far as its doors see it. -/
inductive Op (Q : Type) where
  /-- A call through one of the doors. -/
  | call (r : Request)
  /-- A pass of the janitor. -/
  | janitor
  /-- The workers or the producer change the queue. -/
  | queue (q : Q)

/-- One step at a time. -/
def Front.step (limit : Limit) (enqueue : Event → Q → Option EnqueueError × Q) (now : ℤ)
    (op : Op Q) (f : Front MemoryLimiter Q) : Front MemoryLimiter Q :=
  match op with
  | .call r => r.serve (.limited limit enqueue) now f
  | .janitor => { f with limiter := f.limiter.janitor now }
  | .queue q => { f with queue := q }

/-- A run: the steps with their times. -/
def Front.run (limit : Limit) (enqueue : Event → Q → Option EnqueueError × Q)
    (f : Front MemoryLimiter Q) (ops : List (ℤ × Op Q)) : Front MemoryLimiter Q :=
  ops.foldl (fun f op => f.step limit enqueue op.1 op.2) f

/-- The number of events enqueued for a key from `a` to `b`. -/
def enqueuedIn (key : String) (a b : ℤ) (sent : List Sent) : ℕ :=
  sent.countP fun s => s.key = key ∧ a ≤ s.time ∧ s.time ≤ b

/-! ## Counting -/

section Counting

variable {key : String} {a b now : ℤ} {sent new : List Sent}

theorem enqueuedIn_append :
    enqueuedIn key a b (sent ++ new) = enqueuedIn key a b sent + enqueuedIn key a b new :=
  List.countP_append

theorem enqueuedIn_eq_zero (h : ∀ s ∈ sent, s.time < a ∨ b < s.time) :
    enqueuedIn key a b sent = 0 := by
  rw [enqueuedIn, List.countP_eq_zero]
  intro s hs
  have := h s hs
  simp only [decide_eq_true_eq]
  omega

/-- Beyond the last event the end of the interval does not matter. -/
theorem enqueuedIn_of_le (hpast : ∀ s ∈ sent, s.time ≤ now) (hb : now ≤ b) :
    enqueuedIn key a b sent = enqueuedIn key a now sent := by
  apply List.countP_congr
  intro s hs
  have := hpast s hs
  simp only [decide_eq_true_eq]
  exact and_congr_right fun _ => by omega

theorem enqueuedIn_at (hnew : ∀ s ∈ new, s.time = now) (ha : a ≤ now) :
    enqueuedIn key a now new = new.countP fun s => s.key = key := by
  apply List.countP_congr
  intro s hs
  have := hnew s hs
  simp only [decide_eq_true_eq]
  exact and_iff_left (by omega)

end Counting

/-! ## The bound -/

section Bound

variable {limit : Limit} {key : String} {now t : ℤ} {f f' : Front MemoryLimiter Q}

/-- **The bound of a key at a time.** The events of every interval are within the burst and the
rate, and what was sent since `a` together with what is left is within what was gained since. -/
structure Within (limit : Limit) (key : String) (now : ℤ) (f : Front MemoryLimiter Q) : Prop where
  kept : f.limiter.Kept now
  past : ∀ s ∈ f.sent, s.time ≤ now
  spent : ∀ a ≤ now, enqueuedIn key a now f.sent + f.limiter.level limit key now ≤
    limit.burst + limit.rps * (seconds now - seconds a)
  bound : ∀ a b, a ≤ b →
    (enqueuedIn key a b f.sent : ℚ) ≤ limit.burst + limit.rps * (seconds b - seconds a)

/-- Before the first call. -/
theorem within_start (hrps : 0 ≤ limit.rps) (q : Q) :
    Within limit key now (.start MemoryLimiter.new q) := by
  have hgain : ∀ a b, a ≤ b → 0 ≤ limit.rps * (seconds b - seconds a) := fun a b hab =>
    mul_nonneg hrps (sub_nonneg.mpr (seconds_mono hab))
  have hnone : ∀ a b, enqueuedIn key a b (Front.start MemoryLimiter.new q).sent = 0 :=
    fun _ _ => rfl
  refine ⟨MemoryLimiter.kept_new now, fun s hs => absurd hs List.not_mem_nil, fun a ha => ?_,
    fun a b hab => ?_⟩
  · have hle : MemoryLimiter.new.level limit key now ≤ limit.burst := MemoryLimiter.level_le_burst
    have := hgain a now ha
    rw [hnone, Nat.cast_zero, zero_add]
    exact hle.trans (by linarith)
  · have := hgain a b hab
    rw [hnone, Nat.cast_zero]
    positivity

/-- The bound is kept while nothing happens. -/
theorem Within.wait (h : Within limit key now f) (hrps : 0 ≤ limit.rps) (ht : now ≤ t) :
    Within limit key t f := by
  have hpast : ∀ s ∈ f.sent, s.time ≤ t := fun s hs => (h.past s hs).trans ht
  refine ⟨h.kept.mono ht, hpast, fun a ha => ?_, h.bound⟩
  rcases le_or_gt a now with hnow | hnow
  · have hspent := h.spent a hnow
    have hlevel := MemoryLimiter.level_le_add hrps h.kept ht key
    rw [enqueuedIn_of_le h.past ht]
    linarith
  · have hlevel : f.limiter.level limit key t ≤ limit.burst := MemoryLimiter.level_le_burst
    have hgain : 0 ≤ limit.rps * (seconds t - seconds a) :=
      mul_nonneg hrps (sub_nonneg.mpr (seconds_mono ha))
    rw [enqueuedIn_eq_zero fun s hs => .inl ((h.past s hs).trans_lt hnow), Nat.cast_zero]
    linarith

/-- Between two states of the front, the events sent for the key cost it at least a token each. -/
structure Charged (limit : Limit) (key : String) (now : ℤ) (new : List Sent)
    (f f' : Front MemoryLimiter Q) : Prop where
  kept : f'.limiter.Kept now
  sent : f'.sent = f.sent ++ new
  time : ∀ s ∈ new, s.time = now
  cost : (new.countP fun s => s.key = key) + f'.limiter.level limit key now ≤
    f.limiter.level limit key now

/-- **A step that is charged for its events keeps the bound.** -/
theorem Within.charge {new : List Sent} (h : Within limit key now f) (hrps : 0 ≤ limit.rps)
    (hc : Charged limit key now new f f') : Within limit key now f' := by
  have hpast : ∀ s ∈ f'.sent, s.time ≤ now := by
    intro s hs
    rcases List.mem_append.mp (hc.sent ▸ hs) with hs | hs
    · exact h.past s hs
    · exact (hc.time s hs).le
  have hspent : ∀ a ≤ now, enqueuedIn key a now f'.sent + f'.limiter.level limit key now ≤
      limit.burst + limit.rps * (seconds now - seconds a) := by
    intro a ha
    have hold := h.spent a ha
    have hcost := hc.cost
    rw [hc.sent, enqueuedIn_append, enqueuedIn_at hc.time ha, Nat.cast_add]
    linarith
  refine ⟨hc.kept, hpast, hspent, fun a b hab => ?_⟩
  rcases lt_or_ge b now with hb | hb
  · have hafter : ∀ s ∈ new, s.time < a ∨ b < s.time := fun s hs =>
      .inr (hb.trans_eq (hc.time s hs).symm)
    rw [hc.sent, enqueuedIn_append, enqueuedIn_eq_zero hafter, add_zero]
    exact h.bound a b hab
  · have hgain : ∀ {s t : ℤ}, s ≤ t → 0 ≤ limit.rps * (seconds t - seconds s) := fun hst =>
      mul_nonneg hrps (sub_nonneg.mpr (seconds_mono hst))
    rcases le_or_gt a now with ha | ha
    · have hlevel := MemoryLimiter.level_nonneg hrps hc.kept key
      have hab := hspent a ha
      have := hgain hb
      rw [enqueuedIn_of_le hpast hb]
      linarith
    · have := hgain hab
      rw [enqueuedIn_eq_zero fun s hs => .inl ((hpast s hs).trans_lt ha), Nat.cast_zero]
      positivity

end Bound

/-! ## Steps -/

section Steps

variable {limit : Limit} {enqueue : Event → Q → Option EnqueueError × Q} {key : String} {now : ℤ}
  {f : Front MemoryLimiter Q}

/-- What the limiter answers to a call. -/
theorem allow_limited (f : Front MemoryLimiter Q) :
    f.allow (.limited limit enqueue) now key = ((f.limiter.allow limit now key).1,
      { f with limiter := (f.limiter.allow limit now key).2 }) := by
  rw [Front.allow, Wiring.limited]

theorem countP_key_map (key key' : String) (now : ℤ) (es : List Event) :
    (es.map fun e => (⟨key', now, e⟩ : Sent)).countP (fun s => s.key = key) =
      if key' = key then es.length else 0 := by
  rw [List.countP_map]
  split_ifs with hkey
  · exact List.countP_eq_length.mpr fun e _ => decide_eq_true hkey
  · exact List.countP_eq_zero.mpr fun e _ => by simpa using hkey

/-- **A call that carries at most one valid event is charged for it.** -/
theorem exists_charged_call (hkept : f.limiter.Kept now) (r : Request)
    (hone : (r.events now).length ≤ 1) (key : String) :
    ∃ new, Charged limit key now new f (f.step limit enqueue now (.call r)) := by
  obtain ⟨es, hlen, hsends⟩ : ∃ es : List Event,
      (es.length : ℚ) ≤ (if (f.limiter.allow limit now r.key).1 then 1 else 0) ∧
        Sends now r.key es { f with limiter := (f.limiter.allow limit now r.key).2 }
          (f.step limit enqueue now (.call r)) := by
    cases hok : (f.limiter.allow limit now r.key).1 with
    | false =>
      exact ⟨[], by simp, r.serve_denied (by rw [allow_limited, hok])⟩
    | true =>
      obtain ⟨es, hpre, -, hsends⟩ := r.serve_allowed (w := .limited limit enqueue)
        (f := f) (by rw [allow_limited, hok])
      refine ⟨es, ?_, hsends⟩
      simpa using hpre.length_le.trans hone
  refine ⟨_, ?_, hsends.sent, ?_, ?_⟩
  · rw [hsends.limiter]
    exact hkept.allow r.key
  · intro s hs
    obtain ⟨e, -, rfl⟩ := List.mem_map.mp hs
    rfl
  · rw [hsends.limiter, countP_key_map]
    by_cases hkey : key = r.key
    · subst hkey
      rw [if_pos rfl, MemoryLimiter.level_allow_self]
      linarith
    · rw [if_neg (Ne.symm hkey), MemoryLimiter.level_allow_of_ne hkey, Nat.cast_zero, zero_add]

/-- The calls of a step carry at most one valid event each. -/
def Op.Single (now : ℤ) : Op Q → Prop
  | .call r => (r.events now).length ≤ 1
  | _ => True

/-- **A step whose call carries at most one valid event keeps the bound.** -/
theorem Within.step (h : Within limit key now f) (hrps : 0 ≤ limit.rps)
    (hevict : (limit.burst : ℚ) ≤ 600 * limit.rps) {op : Op Q} (hop : op.Single now) :
    Within limit key now (f.step limit enqueue now op) := by
  cases op with
  | call r =>
    obtain ⟨new, hc⟩ := exists_charged_call h.kept r hop key
    exact h.charge hrps hc
  | janitor =>
    have hlevel := MemoryLimiter.level_janitor hrps hevict h.kept key
    have hc : Charged limit key now [] f (f.step limit enqueue now .janitor) :=
      ⟨h.kept.janitor now, (List.append_nil _).symm, by simp, by simpa [Front.step] using hlevel.le⟩
    exact h.charge hrps hc
  | queue q =>
    have hc : Charged limit key now [] f (f.step limit enqueue now (.queue q)) :=
      ⟨h.kept, (List.append_nil _).symm, by simp, by simp [Front.step]⟩
    exact h.charge hrps hc

/-- **A run whose calls carry at most one valid event each keeps the bound.** -/
theorem Within.run {ops : List (ℤ × Op Q)} (h : Within limit key now f) (hrps : 0 ≤ limit.rps)
    (hevict : (limit.burst : ℚ) ≤ 600 * limit.rps) (hafter : ∀ o ∈ ops, now ≤ o.1)
    (hsorted : ops.Pairwise fun o o' => o.1 ≤ o'.1) (hops : ∀ o ∈ ops, o.2.Single o.1) :
    ∃ t, Within limit key t (f.run limit enqueue ops) := by
  induction ops generalizing f now with
  | nil => exact ⟨now, h⟩
  | cons o ops ih =>
    obtain ⟨hfirst, hrest⟩ := List.pairwise_cons.mp hsorted
    have hwait := h.wait hrps (hafter o List.mem_cons_self)
    have hstep : Within limit key o.1 (f.step limit enqueue o.1 o.2) :=
      hwait.step hrps hevict (hops o List.mem_cons_self)
    exact ih hstep hfirst hrest fun o' ho' => hops o' (List.mem_cons_of_mem o ho')

/-- A call of a client with a token left, on a queue that accepts everything, sends all its valid
events for that token. -/
theorem step_call_accepting (hacc : (Wiring.limited limit enqueue).Accepting) {r : Request}
    (hlevel : 1 ≤ f.limiter.level limit r.key now) :
    (f.step limit enqueue now (.call r)).sent =
        f.sent ++ (r.events now).map (⟨r.key, now, ·⟩) ∧
      (f.step limit enqueue now (.call r)).limiter.level limit r.key now =
        f.limiter.level limit r.key now - 1 := by
  have hok := MemoryLimiter.allow_eq_true_iff.mpr hlevel
  obtain ⟨es, -, hall, hsends⟩ := r.serve_allowed (w := .limited limit enqueue)
    (f := f) (by rw [allow_limited, hok])
  refine ⟨by rw [← hall hacc]; exact hsends.sent, ?_⟩
  rw [Front.step, hsends.limiter, MemoryLimiter.level_allow_self, if_pos hok]

theorem run_snoc (f : Front MemoryLimiter Q) (ops : List (ℤ × Op Q)) (o : ℤ × Op Q) :
    f.run limit enqueue (ops ++ [o]) = (f.run limit enqueue ops).step limit enqueue o.1 o.2 :=
  List.foldl_append

/-- A burst of equal calls at one time: as many as there are tokens, each with all its events. -/
theorem run_replicate (hacc : (Wiring.limited limit enqueue).Accepting) (now : ℤ) (q : Q)
    (r : Request) {n : ℕ} (hn : n ≤ limit.burst) :
    enqueuedIn r.key now now (Front.run limit enqueue (.start .new q)
        (List.replicate n (now, .call r))).sent = n * (r.events now).length ∧
      (Front.run limit enqueue (.start .new q)
        (List.replicate n (now, .call r))).limiter.level limit r.key now = limit.burst - n := by
  induction n with
  | zero => exact ⟨by simp [Front.run, Front.start, enqueuedIn], (sub_zero _).symm⟩
  | succ n ih =>
    obtain ⟨hcount, hlevel⟩ := ih (by omega)
    have hone : (1 : ℚ) ≤ limit.burst - n := by
      have : ((n + 1 : ℕ) : ℚ) ≤ limit.burst := by exact_mod_cast hn
      push_cast at this
      linarith
    rw [← hlevel] at hone
    obtain ⟨hsent, hlevel'⟩ := step_call_accepting hacc hone
    rw [List.replicate_succ', run_snoc, hsent, hlevel', hlevel, enqueuedIn_append, hcount,
      enqueuedIn_at (fun s hs => ?_) le_rfl, countP_key_map, if_pos rfl]
    · refine ⟨by ring, ?_⟩
      push_cast
      ring
    · obtain ⟨e, -, rfl⟩ := List.mem_map.mp hs
      rfl

end Steps

/-! ## The bound in all runs -/

theorem Request.length_events_http (now : ℤ) (r : HttpRequest) :
    ((Request.http r).events now).length ≤ 1 := by
  rw [Request.events]
  cases r.body with
  | none => exact Nat.zero_le 1
  | some req =>
    by_cases hvalid : req.eventId = "" ∨ req.name = ""
    · simp [hvalid]
    · simp [hvalid]

theorem Request.length_events_grpc (now : ℤ) (r : GrpcRequest) :
    ((Request.grpc r).events now).length =
      r.events.countP fun pe => pe.eventId ≠ "" ∧ pe.name ≠ "" := by
  rw [Request.events, validEvents, List.length_map, ← List.countP_eq_length_filter]
  apply List.countP_congr
  intro pe _
  rw [Option.isNone_iff_eq_none, PublishEvent.reason_eq_none_iff, decide_eq_true_iff]

/-- **The limit bounds the events of a client exactly when no call of `Publish` carries two.** Take
any set of `Publish` requests. In every run of calls through both doors, janitor passes and changes
of the queue, at non-decreasing times and with the calls of `Publish` from that set, the number of
events enqueued for a key in an interval is at most the burst plus the rate times its length, if
and only if each request of the set has at most one event with an id and a name. -/
theorem client_events_bounded_iff (limit : Limit) (hrps : 1 ≤ limit.rps)
    (hburst : 1 ≤ limit.burst) (hevict : (limit.burst : ℚ) ≤ 600 * limit.rps)
    (published : Set GrpcRequest) :
    (∀ (Q : Type) (enqueue : Event → Q → Option EnqueueError × Q) (q : Q)
        (ops : List (ℤ × Op Q)), ops.Pairwise (fun o o' => o.1 ≤ o'.1) →
        (∀ now r, (now, .call (.grpc r)) ∈ ops → r ∈ published) →
        ∀ (key : String) (a b : ℤ), a ≤ b →
          (enqueuedIn key a b (Front.run limit enqueue (.start .new q) ops).sent : ℚ) ≤
            limit.burst + limit.rps * (seconds b - seconds a)) ↔
      ∀ r ∈ published, (r.events.countP fun pe => pe.eventId ≠ "" ∧ pe.name ≠ "") ≤ 1 := by
  have hnonneg : 0 ≤ limit.rps := zero_le_one.trans hrps
  constructor
  · intro hbounded r hr
    let ops : List (ℤ × Op (List Event)) := List.replicate limit.burst (0, .call (.grpc r))
    have hpublished : ∀ now r', (now, .call (.grpc r')) ∈ ops → r' ∈ published := by
      intro now r' hmem
      cases (List.mem_replicate.mp hmem).2
      exact hr
    have hcall := hbounded _ Wiring.unlimited.enqueue [] ops
      (List.pairwise_replicate.mpr (.inr le_rfl)) hpublished r.clientKey 0 0 le_rfl
    have hacc : (Wiring.limited limit Wiring.unlimited.enqueue).Accepting :=
      Wiring.unlimited_accepting
    have hcount := (run_replicate hacc 0 [] (.grpc r) (le_refl limit.burst)).1
    rw [Request.length_events_grpc] at hcount
    rw [sub_self, mul_zero, add_zero] at hcall
    -- the interval has length zero, so the burst is all that is allowed
    have hle : limit.burst * (r.events.countP fun pe => pe.eventId ≠ "" ∧ pe.name ≠ "") ≤
        limit.burst * 1 := by
      rw [← hcount, mul_one]
      exact_mod_cast hcall
    exact Nat.le_of_mul_le_mul_left hle hburst
  · intro hone Q enqueue q ops hsorted hpublished key a b hab
    have hops : ∀ o ∈ ops, o.2.Single o.1 := by
      rintro ⟨now, op⟩ ho
      cases op with
      | call r =>
        cases r with
        | http r => exact Request.length_events_http now r
        | grpc r => exact (Request.length_events_grpc now r).trans_le (hone r (hpublished now r ho))
      | janitor => trivial
      | queue q => trivial
    have hstart : ∃ now, ∀ o ∈ ops, now ≤ o.1 := by
      cases ops with
      | nil => exact ⟨0, by simp⟩
      | cons o ops =>
        refine ⟨o.1, fun o' ho' => ?_⟩
        rcases List.mem_cons.mp ho' with rfl | ho'
        · exact le_rfl
        · exact (List.pairwise_cons.mp hsorted).1 o' ho'
    obtain ⟨now, hnow⟩ := hstart
    obtain ⟨t, hwithin⟩ := (within_start hnonneg q).run hnonneg hevict hnow hsorted hops
    exact hwithin.bound a b hab

/-- A call of `postEvent` and one of `Publish` by one client, half a second apart, with room for
both. -/
theorem client_events_bounded_iff_both_doors :
    let r : HttpRequest := ⟨"k1", "203.0.113.7:4711", some ⟨"e1", "buy_click", "u1", none⟩⟩
    let g : GrpcRequest := ⟨["k1"], none, [⟨"e2", "buy_click", "u1", []⟩, ⟨"e3", "", "u1", []⟩]⟩
    let f := Front.run ⟨2, 1⟩ Wiring.unlimited.enqueue (.start .new [])
      [(0, .call (.http r)), (500000000, .call (.grpc g))]
    f.sent.map (fun s => s.event.eventId) = ["e1", "e2"] ∧
      (enqueuedIn "k1" 0 500000000 f.sent : ℚ) ≤ 1 + 2 * (seconds 500000000 - seconds 0) := by
  intro r g f
  have hone : ∀ r ∈ ({g} : Set GrpcRequest),
      (r.events.countP fun pe => pe.eventId ≠ "" ∧ pe.name ≠ "") ≤ 1 := by
    simp only [Set.mem_singleton_iff, forall_eq]
    decide
  have hbound := (client_events_bounded_iff ⟨2, 1⟩ (by norm_num) (by norm_num) (by norm_num)
    {g}).mpr hone _ Wiring.unlimited.enqueue []
    [(0, .call (.http r)), (500000000, .call (.grpc g))] (by simp) (by simp) "k1" 0 500000000
    (by norm_num)
  exact ⟨by decide +kernel, by simpa using hbound⟩

/-- **One call of `Publish` passes the limit with all its events.** The burst is one event and the
rate one per second, and a client's first call carries two: both are enqueued at once. -/
theorem publish_exceeds_limit :
    let pe : String → PublishEvent := fun id => ⟨id, "buy_click", "u1", []⟩
    let r : GrpcRequest := ⟨["k1"], none, [pe "e1", pe "e2"]⟩
    let f := Front.run ⟨1, 1⟩ Wiring.unlimited.enqueue (.start .new []) [(0, .call (.grpc r))]
    ¬ ((enqueuedIn "k1" 0 0 f.sent : ℚ) ≤ 1 + 1 * (seconds 0 - seconds 0)) := by
  decide +kernel

end Tally
