import Tally.Foundation.Noninterference
import Tally.RateLimit.Bound

/-!
# Clients on one limiter

A client of the HTTP door is an API key, or an address when there is none. The limiter does not
know which of the two it is asked for: `ClientKey` returns the text of either, so a client without a
key shares its bucket with whoever sends its address as a key. Apart from such a coincidence the
traffic of other clients leaves the answers to a client as they are, through any number of janitor
passes.

## Main definitions

* `Client`, `HttpRequest.client`: who sends a request
* `HttpOp`: the calls of `postEvent`, janitor passes and changes of the queue
* `HttpOp.decision`: whether a call of a client is answered 429

## Main results

* `unwinding_decision`: with other keys, the calls of others do not interfere
* `decisions_isolated_iff`: the decisions for a client depend on its own calls only, exactly when no
  other client has its text as a key or an address
-/

namespace Tally

open Foundation

variable {Q : Type}

/-- A client of the HTTP door. -/
inductive Client where
  | key (text : String)
  | ip (text : String)
  deriving DecidableEq

/-- What the limiter sees of a client. -/
def Client.text : Client → String
  | .key text => text
  | .ip text => text

/-- Who sends a request: its API key, or its address when it has none. -/
def HttpRequest.client (r : HttpRequest) : Client :=
  if r.apiKey ≠ "" then .key r.apiKey else .ip (hostOrAddr r.remoteAddr)

theorem HttpRequest.clientKey_eq (r : HttpRequest) : r.clientKey = r.client.text := by
  unfold clientKey client
  split_ifs <;> rfl

/-- A step of the HTTP ingest path. -/
inductive HttpOp (Q : Type) where
  | call (r : HttpRequest)
  | janitor
  | queue (q : Q)

namespace HttpOp

/-- The step as one of the whole process. -/
def toOp : HttpOp Q → Op Q
  | .call r => .call (.http r)
  | .janitor => .janitor
  | .queue q => .queue q

/-- The front after a step at a time. -/
def step (limit : Limit) (enqueue : Event → Q → Option EnqueueError × Q) (o : ℤ × HttpOp Q)
    (f : Front MemoryLimiter Q) : Front MemoryLimiter Q := f.step limit enqueue o.1 o.2.toOp

/-- Whether a call of the client is answered 429. -/
def decision (limit : Limit) (enqueue : Event → Q → Option EnqueueError × Q) (c : Client)
    (o : ℤ × HttpOp Q) (f : Front MemoryLimiter Q) : Option Bool :=
  match o.2 with
  | .call r =>
    if r.client = c then some ((postEvent (.limited limit enqueue) o.1 r f).1.status == 429)
    else none
  | _ => none

/-- A step that is the same in two runs with the same requests of a client: one of them, or a pass
of the janitor. -/
def Shared (c : Client) : HttpOp Q → Prop
  | .call r => r.client = c
  | .janitor => True
  | .queue _ => False

instance (c : Client) : DecidablePred (Shared (Q := Q) c) := fun o => by
  unfold Shared
  cases o <;> infer_instance

end HttpOp

/-! ## One key of the limiter -/

/-- What the limiter answers for a key, and what it then keeps for it, depends on its bucket. -/
theorem MemoryLimiter.allow_congr (limit : Limit) (now : ℤ) {key : String} {m m' : MemoryLimiter}
    (h : m.buckets key = m'.buckets key) :
    (m.allow limit now key).1 = (m'.allow limit now key).1 ∧
      (m.allow limit now key).2.buckets key = (m'.allow limit now key).2.buckets key := by
  have hentry : m.entry limit now key = m'.entry limit now key := by
    unfold entry
    rw [h]
  rw [allow_buckets, allow_buckets, Function.update_self, Function.update_self, hentry, allow,
    allow, hentry]
  exact ⟨rfl, rfl⟩

section Calls

variable {limit : Limit} {enqueue : Event → Q → Option EnqueueError × Q} {now : ℤ}

/-- A call is answered 429 exactly when the limiter says no. -/
theorem status_postEvent (f : Front MemoryLimiter Q) (r : HttpRequest) :
    ((postEvent (.limited limit enqueue) now r f).1.status == 429) =
      !(f.limiter.allow limit now r.clientKey).1 := by
  rw [postEvent, allow_limited]
  cases (f.limiter.allow limit now r.clientKey).1 with
  | false => rfl
  | true =>
    cases r.body with
    | none => rfl
    | some req =>
      dsimp only
      split_ifs
      · rfl
      · rfl
      · rcases Front.offer _ _ _ _ _ with ⟨_ | _ | _ | _ | _, f'⟩ <;> rfl

/-- A call leaves the limiter as its question left it. -/
theorem limiter_step_call (f : Front MemoryLimiter Q) (r : HttpRequest) :
    (HttpOp.step limit enqueue (now, .call r) f).limiter =
      (f.limiter.allow limit now r.clientKey).2 := by
  cases hok : (f.limiter.allow limit now r.clientKey).1 with
  | false =>
    exact ((Request.http r).serve_denied (w := .limited limit enqueue)
      (by rw [allow_limited]; exact Prod.ext hok rfl)).limiter
  | true =>
    obtain ⟨es, -, -, hsends⟩ := (Request.http r).serve_allowed (w := .limited limit enqueue)
      (f := f) (by rw [allow_limited]; exact Prod.ext hok rfl)
    exact hsends.limiter

/-- **With other keys, the calls of others do not interfere**: the bucket of the client's text is
all that its answers depend on. -/
theorem unwinding_decision (limit : Limit) (enqueue : Event → Q → Option EnqueueError × Q)
    (c : Client) :
    Unwinding (HttpOp.step limit enqueue) (HttpOp.decision limit enqueue c) (fun o => o.2.Shared c)
      (fun o => ∀ r, o.2 = .call r → r.client ≠ c → r.clientKey ≠ c.text)
      (fun f g => f.limiter.buckets c.text = g.limiter.buckets c.text) where
  own_step := by
    rintro ⟨now, op⟩ f g hshared hfg
    cases op with
    | call r =>
      have hkey : r.clientKey = c.text := by
        rw [r.clientKey_eq]
        exact congrArg Client.text hshared
      rw [← hkey] at hfg ⊢
      obtain ⟨hok, hbucket⟩ := MemoryLimiter.allow_congr limit now hfg
      rw [limiter_step_call, limiter_step_call]
      refine ⟨?_, hbucket⟩
      simp only [HttpOp.decision, status_postEvent, hok]
    | janitor =>
      refine ⟨rfl, ?_⟩
      simp only [HttpOp.step, HttpOp.toOp, Front.step, MemoryLimiter.janitor_buckets, hfg]
    | queue q => cases hshared
  other_step := by
    rintro ⟨now, op⟩ f g hshared hother hfg
    cases op with
    | call r =>
      have hne : c.text ≠ r.clientKey := (hother r rfl hshared).symm
      refine ⟨if_neg hshared, ?_⟩
      rw [limiter_step_call, MemoryLimiter.allow_buckets, Function.update_of_ne hne]
      exact hfg
    | janitor => exact absurd trivial hshared
    | queue q => exact ⟨rfl, hfg⟩

/-- Without a burst every call is answered 429, and nothing can change that. -/
theorem unwinding_decision_of_burst (hburst : limit.burst = 0)
    (enqueue : Event → Q → Option EnqueueError × Q) (c : Client) :
    Unwinding (HttpOp.step limit enqueue) (HttpOp.decision limit enqueue c) (fun o => o.2.Shared c)
      (fun _ => True) (fun _ _ => True) where
  own_step := by
    rintro ⟨now, op⟩ f g hshared -
    refine ⟨?_, trivial⟩
    have hdenied : ∀ (m : MemoryLimiter) (key : String), (m.allow limit now key).1 = false := by
      intro m key
      have hlevel : m.level limit key now ≤ limit.burst := MemoryLimiter.level_le_burst
      rw [← Bool.not_eq_true, MemoryLimiter.allow_eq_true_iff]
      rw [hburst, Nat.cast_zero] at hlevel
      linarith
    cases op with
    | call r => simp only [HttpOp.decision, status_postEvent, hdenied]
    | janitor => rfl
    | queue q => cases hshared
  other_step := by
    rintro ⟨now, op⟩ f g hshared - -
    refine ⟨?_, trivial⟩
    cases op with
    | call r => exact if_neg hshared
    | janitor => rfl
    | queue q => rfl

/-- Calls of another client show nothing of themselves. -/
theorem observe_replicate_call {c : Client} {r : HttpRequest} (hr : r.client ≠ c) (n : ℕ)
    (f : Front MemoryLimiter Q) (ops : List (ℤ × HttpOp Q)) :
    observe (HttpOp.step limit enqueue) (HttpOp.decision limit enqueue c) f
        (List.replicate n (now, .call r) ++ ops) =
      observe (HttpOp.step limit enqueue) (HttpOp.decision limit enqueue c)
        (f.run limit enqueue (List.replicate n (now, .call (.http r)))) ops := by
  induction n generalizing f with
  | zero => rfl
  | succ n ih =>
    have hnone : HttpOp.decision limit enqueue c (now, .call r) f = none := if_neg hr
    rw [List.replicate_succ, List.cons_append, observe, hnone, ih]
    rfl

end Calls

/-! ## Isolation -/

/-- The decisions for a client in a run from a new limiter. -/
def decisions (limit : Limit) (enqueue : Event → Q → Option EnqueueError × Q) (c : Client) (q : Q)
    (ops : List (ℤ × HttpOp Q)) : List Bool :=
  observe (HttpOp.step limit enqueue) (HttpOp.decision limit enqueue c) (.start .new q) ops

/-- The first request has as its key the address of the second, which has no key. -/
def KeyIsAddress (r s : HttpRequest) : Prop :=
  r.apiKey ≠ "" ∧ s.apiKey = "" ∧ r.apiKey = hostOrAddr s.remoteAddr

/-- Different clients have one text when the key of one is the address of the other. -/
theorem clientKey_eq_iff_of_ne {r s : HttpRequest} (hne : r.client ≠ s.client) :
    r.clientKey = s.clientKey ↔ KeyIsAddress r s ∨ KeyIsAddress s r := by
  unfold HttpRequest.client at hne
  unfold HttpRequest.clientKey KeyIsAddress
  by_cases hr : r.apiKey = "" <;> by_cases hs : s.apiKey = ""
  · simp only [hr, hs, ne_eq, not_true, if_false, Client.ip.injEq] at hne
    simp [hr, hs, hne]
  · have hcomm : hostOrAddr r.remoteAddr = s.apiKey ↔ s.apiKey = hostOrAddr r.remoteAddr := eq_comm
    simpa [hr, hs] using hcomm
  · simp [hr, hs]
  · simp only [hr, hs, ne_eq, not_false_eq_true, if_true, Client.key.injEq] at hne
    simp [hr, hs, hne]

theorem KeyIsAddress.client_ne {r s : HttpRequest} (h : KeyIsAddress r s) :
    r.client ≠ s.client := by
  obtain ⟨hr, hs, -⟩ := h
  simp [HttpRequest.client, hr, hs]

/-- A client with the same text that calls as often as the burst allows, just before a request,
has it denied; without these calls it is let through. -/
theorem decisions_of_clientKey_eq {limit : Limit} (hburst : limit.burst ≠ 0)
    {r own : HttpRequest} (hne : r.client ≠ own.client) (hkey : r.clientKey = own.clientKey) :
    decisions limit Wiring.unlimited.enqueue own.client []
        (List.replicate limit.burst (0, .call r) ++ [(0, .call own)]) = [true] ∧
      decisions limit Wiring.unlimited.enqueue own.client [] [(0, .call own)] = [false] := by
  have hshow : ∀ f : Front MemoryLimiter (List Event),
      observe (HttpOp.step limit Wiring.unlimited.enqueue)
          (HttpOp.decision limit Wiring.unlimited.enqueue own.client) f [(0, .call own)] =
        [!(f.limiter.allow limit 0 own.clientKey).1] := by
    intro f
    have hdecision : HttpOp.decision limit Wiring.unlimited.enqueue own.client (0, .call own) f =
        some (!(f.limiter.allow limit 0 own.clientKey).1) := by
      simp only [HttpOp.decision, if_true, status_postEvent]
    rw [observe, hdecision]
    rfl
  have hone : (1 : ℚ) ≤ limit.burst := by exact_mod_cast Nat.one_le_iff_ne_zero.mpr hburst
  constructor
  · have hacc : (Wiring.limited limit Wiring.unlimited.enqueue).Accepting :=
      Wiring.unlimited_accepting
    have hlevel := (run_replicate hacc 0 [] (.http r) (le_refl limit.burst)).2
    rw [sub_self] at hlevel
    rw [decisions, observe_replicate_call hne, hshow, ← hkey, List.singleton_inj,
      Bool.not_eq_true', ← Bool.not_eq_true, MemoryLimiter.allow_eq_true_iff]
    exact not_le.mpr (hlevel.trans_lt zero_lt_one)
  · rw [decisions, hshow, List.singleton_inj, Bool.not_eq_false', MemoryLimiter.allow_eq_true_iff]
    exact hone

/-- **The decisions for a client depend on its own requests only, if and only if no other client's
key is its address and no other client's address is its key.** Take any client, by one of its
requests, and any set of requests of others. In any two runs of calls, janitor passes and changes of
the queue, at non-decreasing times, with the same requests of the client and janitor passes at the
same times and with other calls from that set, the answers 429 and not 429 to the client are the
same, exactly then; a burst of zero denies everything. -/
theorem decisions_isolated_iff (limit : Limit) (own : HttpRequest) (others : Set HttpRequest) :
    (∀ (Q : Type) (enqueue : Event → Q → Option EnqueueError × Q) (q : Q)
        (ops ops' : List (ℤ × HttpOp Q)), ops.Pairwise (fun o o' => o.1 ≤ o'.1) →
        ops'.Pairwise (fun o o' => o.1 ≤ o'.1) →
        (∀ now r, (now, .call r) ∈ ops ++ ops' → r.client ≠ own.client → r ∈ others) →
        ops.filter (fun o => o.2.Shared own.client) =
          ops'.filter (fun o => o.2.Shared own.client) →
        decisions limit enqueue own.client q ops = decisions limit enqueue own.client q ops') ↔
      limit.burst = 0 ∨ ∀ r ∈ others, ¬ KeyIsAddress r own ∧ ¬ KeyIsAddress own r := by
  constructor
  · intro hsame
    refine or_iff_not_imp_left.mpr fun hburst r hr => not_or.mp fun hclash => ?_
    have hne : r.client ≠ own.client := hclash.elim (·.client_ne) (·.client_ne.symm)
    have hkey := (clientKey_eq_iff_of_ne hne).mpr hclash
    obtain ⟨hdenied, hallowed⟩ := decisions_of_clientKey_eq hburst hne hkey
    have hmem : ∀ now r', (now, HttpOp.call r') ∈
        (List.replicate limit.burst ((0 : ℤ), HttpOp.call (Q := List Event) r) ++
          [(0, .call own)]) ++ [(0, .call own)] → r'.client ≠ own.client → r' ∈ others := by
      intro now r' hmem hne'
      simp only [List.mem_append, List.mem_replicate, List.mem_singleton, Prod.mk.injEq,
        HttpOp.call.injEq] at hmem
      rcases hmem with (⟨-, -, rfl⟩ | ⟨-, rfl⟩) | ⟨-, rfl⟩
      · exact hr
      · exact absurd rfl hne'
      · exact absurd rfl hne'
    have hruns := hsame _ Wiring.unlimited.enqueue []
      (List.replicate limit.burst (0, .call r) ++ [(0, .call own)]) [(0, .call own)]
      (by simp [List.pairwise_append, List.pairwise_replicate]) (List.pairwise_singleton _ _) hmem
      (by simp [List.filter_append, HttpOp.Shared, hne])
    rw [hdenied, hallowed] at hruns
    cases hruns
  · rintro (hburst | hdistinct) Q enqueue q ops ops' - - hothers hshared
    · exact (unwinding_decision_of_burst hburst enqueue own.client).observe_eq trivial
        (fun _ _ => trivial) (fun _ _ => trivial) hshared
    · have hmay : ∀ o ∈ ops ++ ops', ∀ r, o.2 = .call r → r.client ≠ own.client →
          r.clientKey ≠ own.client.text := by
        rintro ⟨now, op⟩ ho r rfl hne
        rw [← own.clientKey_eq, Ne, clientKey_eq_iff_of_ne hne, not_or]
        exact hdistinct r (hothers now r ho hne)
      exact (unwinding_decision limit enqueue own.client).observe_eq rfl
        (fun o ho => hmay o (List.mem_append_left _ ho))
        (fun o ho => hmay o (List.mem_append_right _ ho)) hshared

/-- **A client is denied for the calls of another**, which sends the address of the first as its API
key: the burst is one event, and the other client's call comes first. -/
theorem denied_by_key_of_address :
    let own : HttpRequest := ⟨"", "203.0.113.7:4711", some ⟨"e1", "buy_click", "u1", none⟩⟩
    let other : HttpRequest :=
      ⟨"203.0.113.7", "198.51.100.9:4711", some ⟨"e2", "buy_click", "u2", none⟩⟩
    other.client ≠ own.client ∧
      decisions ⟨1, 1⟩ Wiring.unlimited.enqueue own.client [] [(0, .call other), (0, .call own)] =
        [true] ∧
      decisions ⟨1, 1⟩ Wiring.unlimited.enqueue own.client [] [(0, .call own)] = [false] := by
  decide +kernel

end Tally
