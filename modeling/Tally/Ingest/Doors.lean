import Tally.Store.Event

/-!
# The front doors

`Handler.postEvent` and `Server.Publish`: the client a request is charged to, its validation, and
what the answers and the counters are for each outcome of `Enqueue`. Both doors work on one
limiter and one queue, which are parameters here. A call happens at one time. The body of an HTTP
request is what `encoding/json` makes of its first megabyte, `none` if that is an error; the
latency histogram is left out.

## Main definitions

* `splitHost`: the host of `net.SplitHostPort`
* `HttpRequest.clientKey`, `GrpcRequest.clientKey`: the client a request is charged to
* `Wiring`, `Front`: the limiter and the queue, and their states with the counters
* `postEvent`, `publish`: the two doors
* `Request`, `Request.serve`: a call through either of them
* `Request.events`: the events of a request that pass its validation

## Main results

* `Request.serve_denied`: a call that is rate limited sends nothing
* `Request.serve_allowed`: any other call sends a prefix of its valid events, and all of them when
  the queue accepts everything
* `Request.events_valid`: a valid event has an id and a name
-/

namespace Tally

/-! ## The client -/

/-- The position of the last occurrence of a character. -/
def lastIndex (c : Char) (cs : List Char) : Option ℕ :=
  (cs.reverse.findIdx? (· == c)).map fun i => cs.length - 1 - i

/-- The host of `net.SplitHostPort`, or `none` for an error. -/
def splitHost (hostport : String) : Option String :=
  let cs := hostport.toList
  match lastIndex ':' cs with
  | none => none
  | some i =>
    if cs.head? = some '[' then
      match cs.findIdx? (· == ']') with
      | none => none
      | some close =>
        if close + 1 ≠ i ∨ '[' ∈ cs.drop 1 ∨ ']' ∈ cs.drop (close + 1) then none
        else some (String.ofList ((cs.take close).drop 1))
    else if ':' ∈ cs.take i ∨ '[' ∈ cs ∨ ']' ∈ cs then none
    else some (String.ofList (cs.take i))

/-- The host of an address, or the address itself if it has none. -/
def hostOrAddr (addr : String) : String := (splitHost addr).getD addr

/-- `eventRequest`. -/
structure EventRequest where
  eventId : String
  name : String
  distinctId : String
  properties : Option (List (String × Json))

/-- A `POST /v1/events`. A missing header is empty. -/
structure HttpRequest where
  apiKey : String
  remoteAddr : String
  body : Option EventRequest

/-- `ratelimit.ClientKey`. -/
def HttpRequest.clientKey (r : HttpRequest) : String :=
  if r.apiKey ≠ "" then r.apiKey else hostOrAddr r.remoteAddr

/-- `tallypb.Event`. -/
structure PublishEvent where
  eventId : String
  name : String
  distinctId : String
  properties : List (String × String)

/-- A call of `Publish`: the values of its `x-api-key` metadata, the address of its peer if it is
known, and the events of its `PublishRequest`. -/
structure GrpcRequest where
  apiKeys : List String
  peer : Option String
  events : List PublishEvent

/-- `clientKey` of `internal/grpcingest`. -/
def GrpcRequest.clientKey (r : GrpcRequest) : String :=
  -- only the first value counts
  match r.apiKeys with
  | key :: _ => if key ≠ "" then key else peerKey
  | [] => peerKey
where
  peerKey : String :=
    match r.peer with
    | some addr => hostOrAddr addr
    | none => "unknown"

example : hostOrAddr "203.0.113.7:4711" = "203.0.113.7" := by decide +kernel

example : hostOrAddr "[2001:db8::1]:443" = "2001:db8::1" := by decide +kernel

example : hostOrAddr "2001:db8::1" = "2001:db8::1" := by decide +kernel

/-! ## The limiter, the queue and the counters -/

/-- The errors of `Enqueue`: `ErrFull`, `ErrClosed`, `ErrUnavailable`, and any other. -/
inductive EnqueueError where
  | full
  | closed
  | unavailable
  | other

/-- The labels of the counter `EventsRejected`. -/
inductive RejectLabel where
  | rateLimited
  | invalid
  | queueFull
  | shutdown
  | notIngest
  deriving DecidableEq

/-- The label under which an error of `Enqueue` is counted. -/
def EnqueueError.label : EnqueueError → Option RejectLabel
  | .full => some .queueFull
  | .closed => some .shutdown
  | .unavailable => some .notIngest
  | .other => none

/-- The limiter and the queue of both doors: `Allow` at a time, absent when rate limiting is
disabled, and `Enqueue`. -/
structure Wiring (L Q : Type) where
  allow : Option (ℤ → String → L → Bool × L)
  enqueue : Event → Q → Option EnqueueError × Q

/-- An event the queue took, with the client it was sent by and the time of the call. -/
structure Sent where
  key : String
  time : ℤ
  event : Event

/-- The states of the limiter and the queue, the counters `EventsAccepted` and `EventsRejected`,
and the events the queue took so far. -/
structure Front (L Q : Type) where
  limiter : L
  queue : Q
  accepted : ℕ
  rejected : RejectLabel → ℕ
  sent : List Sent

variable {L Q : Type}

namespace Front

/-- Before the first call. -/
def start (l : L) (q : Q) : Front L Q := ⟨l, q, 0, fun _ => 0, []⟩

/-- Counts a rejected event or call. -/
def reject (label : RejectLabel) (f : Front L Q) : Front L Q :=
  { f with rejected := Function.update f.rejected label (f.rejected label + 1) }

/-- Counts an event the queue did not take. -/
def rejectError (err : EnqueueError) (f : Front L Q) : Front L Q :=
  match err.label with
  | some label => f.reject label
  | none => f

/-- Asks the limiter whether the client may go on. -/
def allow (w : Wiring L Q) (now : ℤ) (key : String) (f : Front L Q) : Bool × Front L Q :=
  match w.allow with
  | none => (true, f)
  | some ask =>
    let (ok, l) := ask now key f.limiter
    (ok, { f with limiter := l })

/-- Offers an event to the queue, and counts the outcome. -/
def offer (w : Wiring L Q) (now : ℤ) (key : String) (e : Event) (f : Front L Q) :
    Option EnqueueError × Front L Q :=
  match w.enqueue e f.queue with
  | (none, q) =>
    (none, { f with queue := q, accepted := f.accepted + 1, sent := f.sent ++ [⟨key, now, e⟩] })
  | (some err, q) => (some err, { f with queue := q }.rejectError err)

end Front

/-! ## HTTP -/

/-- A reply: the status, its text, and the header `Retry-After`. -/
structure HttpReply where
  status : ℕ
  text : String
  retryAfter : Option String

/-- The event of a request. -/
def EventRequest.toEvent (req : EventRequest) (now : ℤ) : Event :=
  ⟨req.eventId, req.name, req.distinctId, req.properties, now⟩

/-- `Handler.postEvent`. -/
def postEvent (w : Wiring L Q) (now : ℤ) (r : HttpRequest) (f : Front L Q) :
    HttpReply × Front L Q :=
  match f.allow w now r.clientKey with
  | (false, f) => (⟨429, "rate limit exceeded", some "1"⟩, f.reject .rateLimited)
  | (true, f) =>
    match r.body with
    | none => (⟨400, "invalid JSON body", none⟩, f.reject .invalid)
    | some req =>
      if req.eventId = "" then (⟨400, "event_id is required", none⟩, f.reject .invalid)
      else if req.name = "" then (⟨400, "name is required", none⟩, f.reject .invalid)
      else
        match f.offer w now r.clientKey (req.toEvent now) with
        | (none, f) => (⟨202, "\x7b\"status\":\"accepted\"\x7d", none⟩, f)
        | (some .full, f) => (⟨503, "overloaded, retry shortly", some "1"⟩, f)
        | (some .closed, f) => (⟨503, "shutting down", none⟩, f)
        | (some .unavailable, f) =>
          (⟨503, "this instance does not accept events (worker mode)", none⟩, f)
        | (some .other, f) => (⟨500, "failed to accept event", none⟩, f)

/-! ## gRPC -/

/-- The status codes `Publish` answers with. -/
inductive GrpcCode where
  | resourceExhausted
  | unavailable
  | internal

/-- A gRPC status error. -/
structure GrpcError where
  code : GrpcCode
  message : String

/-- `tallypb.RejectedEvent`. -/
structure RejectedEvent where
  index : Int32
  reason : String

/-- `tallypb.PublishResponse`. -/
structure PublishResponse where
  accepted : Int32
  rejected : List RejectedEvent

/-- Why an event is rejected, if it is. -/
def PublishEvent.reason (pe : PublishEvent) : Option String :=
  if pe.eventId = "" then some "event_id is required"
  else if pe.name = "" then some "name is required"
  else none

theorem PublishEvent.reason_eq_none_iff {pe : PublishEvent} :
    pe.reason = none ↔ pe.eventId ≠ "" ∧ pe.name ≠ "" := by
  unfold PublishEvent.reason
  split_ifs with hid hname <;> simp [*]

/-- The event of a request. Its properties are never nil. -/
def PublishEvent.toEvent (pe : PublishEvent) (now : ℤ) : Event :=
  ⟨pe.eventId, pe.name, pe.distinctId, some (pe.properties.map fun p => (p.1, .str p.2)), now⟩

/-- The error with which `Publish` answers an error of `Enqueue`, after `accepted` events. -/
def publishError (accepted : Int32) : EnqueueError → GrpcError
  | .full => ⟨.resourceExhausted, "queue full after accepting " ++ toString accepted ++
      " events; retry the batch (storage dedupes by event_id)"⟩
  | .closed => ⟨.unavailable, "shutting down"⟩
  | .unavailable => ⟨.unavailable, "this instance does not accept events (worker mode)"⟩
  | .other => ⟨.internal, "failed to accept event"⟩

/-- The loop of `Publish` over its events, from index `i` on. -/
def publishLoop (w : Wiring L Q) (now : ℤ) (key : String) :
    ℕ → List PublishEvent → PublishResponse → Front L Q →
      Except GrpcError PublishResponse × Front L Q
  | _, [], resp, f => (.ok resp, f)
  | i, pe :: rest, resp, f =>
    -- a rejected event does not stop the loop
    match pe.reason with
    | some reason =>
      let rejected := resp.rejected ++ [⟨Int32.ofNat i, reason⟩]
      publishLoop w now key (i + 1) rest { resp with rejected := rejected } (f.reject .invalid)
    | none =>
      match f.offer w now key (pe.toEvent now) with
      | (none, f) =>
        publishLoop w now key (i + 1) rest { resp with accepted := resp.accepted + 1 } f
      -- an error of the queue fails the whole call; what was sent stays sent
      | (some err, f) => (.error (publishError resp.accepted err), f)

/-- `Server.Publish`. -/
def publish (w : Wiring L Q) (now : ℤ) (r : GrpcRequest) (f : Front L Q) :
    Except GrpcError PublishResponse × Front L Q :=
  match f.allow w now r.clientKey with
  | (false, f) =>
    (.error ⟨.resourceExhausted, "rate limit exceeded, retry later"⟩, f.reject .rateLimited)
  | (true, f) => publishLoop w now r.clientKey 0 r.events ⟨0, []⟩ f

/-! ## What a call sends -/

/-- The events that pass the validation of `Publish`. -/
def validEvents (now : ℤ) (pes : List PublishEvent) : List Event :=
  (pes.filter fun pe => pe.reason.isNone).map (PublishEvent.toEvent · now)

theorem validEvents_cons_of_some {now : ℤ} {pe : PublishEvent} {pes : List PublishEvent}
    {reason : String} (h : pe.reason = some reason) :
    validEvents now (pe :: pes) = validEvents now pes := by simp [validEvents, h]

theorem validEvents_cons_of_none {now : ℤ} {pe : PublishEvent} {pes : List PublishEvent}
    (h : pe.reason = none) :
    validEvents now (pe :: pes) = pe.toEvent now :: validEvents now pes := by
  simp [validEvents, h]

/-- A call through one of the doors. -/
inductive Request where
  | http (r : HttpRequest)
  | grpc (r : GrpcRequest)

namespace Request

/-- The client a call is charged to. -/
def key : Request → String
  | .http r => r.clientKey
  | .grpc r => r.clientKey

/-- The front after a call. -/
def serve (w : Wiring L Q) (now : ℤ) (r : Request) (f : Front L Q) : Front L Q :=
  match r with
  | .http r => (postEvent w now r f).2
  | .grpc r => (publish w now r f).2

/-- The events of a call that pass its validation. -/
def events (now : ℤ) : Request → List Event
  | .http r =>
    match r.body with
    | none => []
    | some req => if req.eventId = "" ∨ req.name = "" then [] else [req.toEvent now]
  | .grpc r => validEvents now r.events

end Request

/-- Between two states of the front the queue took the events `es` of a client, and the limiter
was not asked. -/
structure Sends (now : ℤ) (key : String) (es : List Event) (f f' : Front L Q) : Prop where
  limiter : f'.limiter = f.limiter
  accepted : f'.accepted = f.accepted + es.length
  sent : f'.sent = f.sent ++ es.map (⟨key, now, ·⟩)

/-- The queue takes every event. -/
def Wiring.Accepting (w : Wiring L Q) : Prop := ∀ e q, (w.enqueue e q).1 = none

variable {w : Wiring L Q} {now : ℤ} {key : String} {f f' f'' : Front L Q}

/-- The limiter does not touch the queue. -/
@[simp] theorem Front.allow_sent (f : Front L Q) : (f.allow w now key).2.sent = f.sent := by
  unfold Front.allow
  cases w.allow <;> rfl

theorem Sends.refl (f : Front L Q) : Sends now key [] f f := ⟨rfl, rfl, by simp⟩

theorem Sends.trans {es es' : List Event} (h : Sends now key es f f')
    (h' : Sends now key es' f' f'') : Sends now key (es ++ es') f f'' := by
  refine ⟨h'.limiter.trans h.limiter, ?_, ?_⟩
  · rw [h'.accepted, h.accepted, List.length_append, Nat.add_assoc]
  · rw [h'.sent, h.sent, List.map_append, List.append_assoc]

/-- Counting a rejection sends nothing. -/
theorem Sends.reject (label : RejectLabel) (f : Front L Q) :
    Sends now key [] f (f.reject label) := ⟨rfl, rfl, (List.append_nil _).symm⟩

theorem Sends.rejectError (err : EnqueueError) (f : Front L Q) :
    Sends now key [] f (f.rejectError err) := by
  unfold Front.rejectError
  cases err.label with
  | some label => exact .reject label f
  | none => exact .refl f

/-- An offer sends the event, or fails with an error of a queue that does not accept
everything. -/
theorem Front.offer_cases (w : Wiring L Q) (now : ℤ) (key : String) (e : Event) (f : Front L Q) :
    (∃ f', f.offer w now key e = (none, f') ∧ Sends now key [e] f f') ∨
      ∃ err f', f.offer w now key e = (some err, f') ∧ ¬ w.Accepting ∧ Sends now key [] f f' := by
  unfold Front.offer
  rcases hq : w.enqueue e f.queue with ⟨_ | err, q⟩
  · exact .inl ⟨_, rfl, rfl, rfl, rfl⟩
  · refine .inr ⟨err, _, rfl, fun h => ?_, ?_⟩
    · simpa [hq] using h e f.queue
    · have hqueue : Sends now key [] f { f with queue := q } :=
        ⟨rfl, rfl, (List.append_nil _).symm⟩
      exact hqueue.trans (.rejectError err _)

/-- One round of the loop of `Publish`: an invalid event is reported, any other is sent, and the
loop goes on; or the queue does not take the event, and the whole call fails. -/
theorem publishLoop_cons_cases (pe : PublishEvent) (pes : List PublishEvent) (i : ℕ)
    (resp : PublishResponse) (f : Front L Q) :
    (∃ reason, pe.reason = some reason ∧
      publishLoop w now key i (pe :: pes) resp f = publishLoop w now key (i + 1) pes
        { resp with rejected := resp.rejected ++ [⟨Int32.ofNat i, reason⟩] } (f.reject .invalid)) ∨
    (∃ f', pe.reason = none ∧ Sends now key [pe.toEvent now] f f' ∧
      publishLoop w now key i (pe :: pes) resp f =
        publishLoop w now key (i + 1) pes { resp with accepted := resp.accepted + 1 } f') ∨
    ∃ err f', pe.reason = none ∧ ¬ w.Accepting ∧ Sends now key [] f f' ∧
      publishLoop w now key i (pe :: pes) resp f = (.error err, f') := by
  rw [publishLoop]
  cases hreason : pe.reason with
  | some reason => exact .inl ⟨reason, rfl, rfl⟩
  | none =>
    rcases f.offer_cases w now key (pe.toEvent now) with
      ⟨f', hoffer, hsends⟩ | ⟨err, f', hoffer, hrefuses, hsends⟩
    · exact .inr (.inl ⟨f', rfl, hsends, by simp only [hoffer]⟩)
    · refine .inr (.inr ⟨publishError resp.accepted err, f', rfl, hrefuses, hsends, ?_⟩)
      simp only [hoffer]

/-- **The loop of `Publish` sends a prefix of the valid events**, and all of them when the queue
accepts everything. -/
theorem publishLoop_sends (pes : List PublishEvent) (i : ℕ) (resp : PublishResponse)
    (f : Front L Q) :
    ∃ es, es <+: validEvents now pes ∧ (w.Accepting → es = validEvents now pes) ∧
      Sends now key es f (publishLoop w now key i pes resp f).2 := by
  induction pes generalizing i resp f with
  | nil => exact ⟨[], List.prefix_rfl, fun _ => rfl, .refl f⟩
  | cons pe pes ih =>
    rcases publishLoop_cons_cases pe pes i resp f with ⟨reason, hreason, hloop⟩ |
      ⟨f', hreason, hsends, hloop⟩ | ⟨err, f', hreason, hrefuses, hsends, hloop⟩
    · rw [hloop, validEvents_cons_of_some hreason]
      obtain ⟨es, hpre, hall, hrest⟩ := ih (i + 1) _ (f.reject .invalid)
      exact ⟨es, hpre, hall, (Sends.reject .invalid f).trans hrest⟩
    · rw [hloop, validEvents_cons_of_none hreason]
      obtain ⟨es, hpre, hall, hrest⟩ := ih (i + 1) _ f'
      refine ⟨pe.toEvent now :: es, List.cons_prefix_cons.mpr ⟨rfl, hpre⟩, fun hacc => ?_,
        hsends.trans hrest⟩
      rw [hall hacc]
    · rw [hloop]
      exact ⟨[], List.nil_prefix, fun hacc => absurd hacc hrefuses, hsends⟩

/-- `postEvent` sends the event of a valid body if the queue takes it. -/
theorem postEvent_sends {r : HttpRequest} (hallow : f.allow w now r.clientKey = (true, f')) :
    ∃ es, es <+: Request.events now (.http r) ∧
      (w.Accepting → es = Request.events now (.http r)) ∧
      Sends now r.clientKey es f' (postEvent w now r f).2 := by
  rw [postEvent, hallow, Request.events]
  cases r.body with
  | none => exact ⟨[], List.nil_prefix, fun _ => rfl, .reject .invalid f'⟩
  | some req =>
    by_cases hid : req.eventId = ""
    · simp only [hid, true_or, if_true]
      exact ⟨[], List.nil_prefix, fun _ => rfl, .reject .invalid f'⟩
    by_cases hname : req.name = ""
    · simp only [hname, or_true, if_true, if_neg hid]
      exact ⟨[], List.nil_prefix, fun _ => rfl, .reject .invalid f'⟩
    simp only [hid, hname, or_false, if_false]
    rcases f'.offer_cases w now r.clientKey (req.toEvent now) with
      ⟨f'', hoffer, hsends⟩ | ⟨err, f'', hoffer, hrefuses, hsends⟩
    · rw [hoffer]
      exact ⟨[_], List.prefix_rfl, fun _ => rfl, hsends⟩
    · rw [hoffer]
      refine ⟨[], List.nil_prefix, fun hacc => absurd hacc hrefuses, ?_⟩
      cases err <;> exact hsends

namespace Request

/-- **A call that is rate limited sends nothing.** -/
theorem serve_denied (r : Request) (hallow : f.allow w now r.key = (false, f')) :
    Sends now r.key [] f' (r.serve w now f) := by
  cases r with
  | http r =>
    rw [serve, postEvent, show f.allow w now r.clientKey = (false, f') from hallow]
    exact .reject .rateLimited f'
  | grpc r =>
    rw [serve, publish, show f.allow w now r.clientKey = (false, f') from hallow]
    exact .reject .rateLimited f'

/-- **A call that is not rate limited sends a prefix of its valid events**, and all of them when
the queue accepts everything. -/
theorem serve_allowed (r : Request) (hallow : f.allow w now r.key = (true, f')) :
    ∃ es, es <+: r.events now ∧ (w.Accepting → es = r.events now) ∧
      Sends now r.key es f' (r.serve w now f) := by
  cases r with
  | http r => exact postEvent_sends hallow
  | grpc r =>
    rw [serve, publish, show f.allow w now r.clientKey = (true, f') from hallow]
    exact publishLoop_sends r.events 0 ⟨0, []⟩ f'

/-- The events of a call have an id and a name. -/
theorem events_valid {r : Request} {e : Event} (he : e ∈ r.events now) :
    e.eventId ≠ "" ∧ e.name ≠ "" := by
  cases r with
  | http r =>
    rw [events] at he
    cases hbody : r.body with
    | none => simp [hbody] at he
    | some req =>
      rw [hbody] at he
      by_cases hvalid : req.eventId = "" ∨ req.name = ""
      · simp [hvalid] at he
      · simp only [if_neg hvalid, List.mem_singleton] at he
        subst he
        exact not_or.mp hvalid
  | grpc r =>
    obtain ⟨pe, hpe, rfl⟩ := List.mem_map.mp he
    have hreason : pe.reason = none := by simpa using (List.mem_filter.mp hpe).2
    unfold PublishEvent.reason at hreason
    split_ifs at hreason with hid hname
    exact ⟨hid, hname⟩

end Request

end Tally
