import Tally.Metrics.Counters
import Tally.Pipeline.Memory

/-!
# The process with its handlers and counters

The memory pipeline as the whole process runs it: request handlers that go through `postEvent` and
`Publish` event by event, and the counters they and `onFlush` raise. A handler is what is left of
its call; an event that is enqueued is counted in the same step, and so is the outcome of a flush.
The limiter may answer anything. Every attempt to insert has its outcome, out of a set of outcomes
that may happen, and the attempts of the batches dropped are kept.

## Main definitions

* `Handler`, `Handler.finish`: what is left of a call, and the call run to its end
* `postStart`, `publishStart`, `publishRound`: what a call does before it enqueues its next event
* `Service`: the pipeline, the handlers, the counters and the attempts
* `Service.Step`, `Service.Reachable`: the interleavings

## Main results

* `postEvent_eq_finish`, `publish_eq_finish`, `publishLoop_eq_finish`: a handler alone is the door
  it serves
* `Service.Step.pipe`, `Service.Reachable.pipe`: the process runs the pipeline
-/

namespace Tally

/-- What is left of a call: nothing; an `Enqueue` to begin, or past its check, and the rest of the
call if it returns nil; the loop of `Publish` from an index on. -/
inductive Handler where
  | idle
  | enqueue (door : Door) (e : Event) (next : Handler)
  | send (door : Door) (e : Event) (next : Handler)
  | publish (now : ℤ) (index : ℕ) (rest : List PublishEvent) (resp : PublishResponse)

/-- The call is one of `Publish`. -/
def Handler.InPublish : Handler → Prop
  | .idle => False
  | .enqueue door _ _ => door = .grpc
  | .send door _ _ => door = .grpc
  | .publish _ _ _ _ => True

/-- `postEvent` up to `Enqueue`, with the answer of the limiter: the label under which the request
is rejected, if it is, and the rest of the call. -/
def postStart (now : ℤ) (r : HttpRequest) (allowed : Bool) : Option RejectLabel × Handler :=
  if !allowed then (some .rateLimited, .idle)
  else
    match r.body with
    | none => (some .invalid, .idle)
    | some req =>
      if req.eventId = "" then (some .invalid, .idle)
      else if req.name = "" then (some .invalid, .idle)
      else (none, .enqueue .http (req.toEvent now) .idle)

/-- `Publish` up to its loop. -/
def publishStart (now : ℤ) (r : GrpcRequest) (allowed : Bool) : Option RejectLabel × Handler :=
  if !allowed then (some .rateLimited, .idle) else (none, .publish now 0 r.events ⟨0, []⟩)

/-- One round of the loop of `Publish`: the response is returned at its end, an invalid event is
rejected, and any other is to be enqueued. -/
def publishRound (now : ℤ) (index : ℕ) (rest : List PublishEvent) (resp : PublishResponse) :
    Option RejectLabel × Handler :=
  match rest with
  | [] => (none, .idle)
  | pe :: rest =>
    match pe.reason with
    | some reason =>
      let rejected := resp.rejected ++ [⟨Int32.ofNat index, reason⟩]
      (some .invalid, .publish now (index + 1) rest { resp with rejected := rejected })
    | none =>
      let resp := { resp with accepted := resp.accepted + 1 }
      (none, .enqueue .grpc (pe.toEvent now) (.publish now (index + 1) rest resp))

/-! ## A handler alone is the door it serves -/

section Doors

variable {L Q : Type}

/-- Counts a rejection, if there is one. -/
def Front.count (label : Option RejectLabel) (f : Front L Q) : Front L Q :=
  match label with
  | some label => f.reject label
  | none => f

/-- The rest of a call with nothing in between. -/
def Handler.finish (w : Wiring L Q) (key : String) : Handler → Front L Q → Front L Q
  | .idle, f => f
  | .enqueue _ e next, f | .send _ e next, f =>
    match f.offer w e.ts key e with
    | (none, f) => next.finish w key f
    | (some _, f) => f
  | .publish now index rest resp, f => (publishLoop w now key index rest resp f).2

variable (w : Wiring L Q) (now : ℤ) (f : Front L Q)

/-- **`postEvent` is its beginning and the rest of the call.** -/
theorem postEvent_eq_finish (r : HttpRequest) :
    let (allowed, f₁) := f.allow w now r.clientKey
    let (label, handler) := postStart now r allowed
    (postEvent w now r f).2 = handler.finish w r.clientKey (f₁.count label) := by
  rw [postEvent]
  rcases f.allow w now r.clientKey with ⟨_ | _, f₁⟩
  · rfl
  cases hbody : r.body with
  | none => simp [postStart, hbody, Handler.finish, Front.count]
  | some req =>
    by_cases hid : req.eventId = ""
    · simp [postStart, hbody, hid, Handler.finish, Front.count]
    by_cases hname : req.name = ""
    · simp [postStart, hbody, hid, hname, Handler.finish, Front.count]
    simp only [postStart, hbody, hid, hname, if_false, Bool.not_true, Bool.false_eq_true]
    show _ = Handler.finish w _ _ f₁
    rw [Handler.finish]
    show _ = match f₁.offer w now r.clientKey (req.toEvent now) with
      | (none, f) => f
      | (some _, f) => f
    rcases f₁.offer w now r.clientKey (req.toEvent now) with ⟨_ | _ | _ | _ | _, f₂⟩ <;> rfl

/-- **`Publish` is its beginning and the rest of the call.** -/
theorem publish_eq_finish (r : GrpcRequest) :
    let (allowed, f₁) := f.allow w now r.clientKey
    let (label, handler) := publishStart now r allowed
    (publish w now r f).2 = handler.finish w r.clientKey (f₁.count label) := by
  rw [publish]
  rcases f.allow w now r.clientKey with ⟨_ | _, f₁⟩ <;> rfl

/-- **The loop of `Publish` is a round and the rest of the call.** -/
theorem publishLoop_eq_finish (key : String) (index : ℕ) (rest : List PublishEvent)
    (resp : PublishResponse) :
    let (label, handler) := publishRound now index rest resp
    (publishLoop w now key index rest resp f).2 = handler.finish w key (f.count label) := by
  cases rest with
  | nil => rfl
  | cons pe rest =>
    rw [publishLoop]
    cases hreason : pe.reason with
    | some reason => simp only [publishRound, hreason, Handler.finish, Front.count]
    | none =>
      simp only [publishRound, hreason, Handler.finish, Front.count]
      show _ = match f.offer w now key (pe.toEvent now) with | (none, f) => _ | (some _, f) => f
      rcases f.offer w now key (pe.toEvent now) with ⟨_ | err, f₁⟩ <;> rfl

end Doors

/-- The process: the pipeline, the handlers, the counters, the outcomes of the attempts of the
flush each worker is in, and the batches dropped with the outcomes of their attempts. -/
structure Service (p : Pool) (ι : Type*) where
  pipe : MemoryPipeline p
  handlers : ι → Handler
  metrics : Metrics
  attempts : Fin p.workers → List Outcome
  drops : List (List Event × List Outcome)

namespace Service

variable {p : Pool} {ι : Type*} [DecidableEq ι]

/-- The process when it starts. -/
def init (p : Pool) (ι : Type*) (st : Store) : Service p ι :=
  ⟨.init p st, fun _ => .idle, .zero, fun _ => [], []⟩

def setHandler (s : Service p ι) (i : ι) (h : Handler) : Service p ι :=
  { s with handlers := Function.update s.handlers i h }

/-- A handler goes on, with the label of a rejection if there is one. -/
def advance (s : Service p ι) (i : ι) (result : Option RejectLabel × Handler) : Service p ι :=
  { s.setHandler i result.2 with metrics := s.metrics.count result.1 }

/-- One step of the process. The outcomes an attempt to insert may have are a parameter. -/
inductive Step (c : Postgres) (size : ℕ) (may : Outcome → Prop) (s : Service p ι) :
    Service p ι → Prop
  /-- A request arrives at the HTTP door. -/
  | http (i : ι) (now : ℤ) (r : HttpRequest) (allowed : Bool) (idle : s.handlers i = .idle) :
      Step c size may s (s.advance i (postStart now r allowed))
  /-- A call arrives at the gRPC door. -/
  | grpc (i : ι) (now : ℤ) (r : GrpcRequest) (allowed : Bool) (idle : s.handlers i = .idle)
      (runs : s.pipe.main.grpcRuns = true) :
      Step c size may s (s.advance i (publishStart now r allowed))
  /-- `Publish` comes to its next event. -/
  | next (i : ι) (now : ℤ) (index : ℕ) (rest : List PublishEvent) (resp : PublishResponse)
      (handler : s.handlers i = .publish now index rest resp) :
      Step c size may s (s.advance i (publishRound now index rest resp))
  /-- `Enqueue` finds the flag set: `ErrClosed`. -/
  | closed (i : ι) (door : Door) (e : Event) (next : Handler)
      (handler : s.handlers i = .enqueue door e next) (set : s.pipe.main.flag = true) :
      Step c size may s (s.advance i (some .shutdown, .idle))
  /-- `Enqueue` finds the flag unset. -/
  | check (i : ι) (door : Door) (e : Event) (next : Handler)
      (handler : s.handlers i = .enqueue door e next) (unset : s.pipe.main.flag = false)
      (runs : door = .grpc → s.pipe.main.grpcRuns = true) :
      Step c size may s { s.setHandler i (.send door e next) with
        pipe := { s.pipe with calls := (door, e) ::ₘ s.pipe.calls } }
  /-- The send finds room, or meets a worker: nil, and the event is counted. -/
  | sent (i : ι) (door : Door) (e : Event) (next : Handler) (pipe : MemoryPipeline p)
      (handler : s.handlers i = .send door e next) (step : MemoryPipeline.Step c size s.pipe pipe)
      (call : s.pipe.calls = (door, e) ::ₘ pipe.calls)
      (accepted : pipe.accepted = s.pipe.accepted ++ [e]) :
      Step c size may s { s.setHandler i next with pipe := pipe, metrics := s.metrics.accept }
  /-- The send finds the channel full: `ErrFull`. -/
  | full (i : ι) (door : Door) (e : Event) (next : Handler) (calls : Multiset (Door × Event))
      (handler : s.handlers i = .send door e next) (call : s.pipe.calls = (door, e) ::ₘ calls)
      (isOpen : s.pipe.main.chanClosed = false) (noRoom : size ≤ s.pipe.buf.length) :
      Step c size may s { s.advance i (some .queueFull, .idle) with
        pipe := { s.pipe with calls := calls } }
  /-- The send finds the channel closed: it panics, and the handler is gone. -/
  | panics (i : ι) (door : Door) (e : Event) (next : Handler) (calls : Multiset (Door × Event))
      (handler : s.handlers i = .send door e next) (call : s.pipe.calls = (door, e) ::ₘ calls)
      (isClosed : s.pipe.main.chanClosed = true) :
      Step c size may s { s.setHandler i .idle with pipe := { s.pipe with calls := calls } }
  /-- An attempt of a flush returns: the flush is reported. -/
  | flushOk (j : Fin p.workers) (batch : List Event) (n : ℕ) (last : Bool) (k : ℕ) (st : Store)
      (worker : s.pipe.workers j = .flushing batch n last)
      (attempt : Attempted c batch s.pipe.store (.ok k) st) (possible : may (.ok k)) :
      Step c size may s { s with
        pipe := s.pipe.endFlush j batch last (.ok batch k) st
        metrics := s.metrics.onFlush (.ok batch k)
        attempts := Function.update s.attempts j [] }
  /-- An attempt of a flush fails, and another one follows. -/
  | flushRetry (j : Fin p.workers) (batch : List Event) (n : ℕ) (last : Bool) (o : Outcome)
      (st : Store) (worker : s.pipe.workers j = .flushing batch n last)
      (attempt : Attempted c batch s.pipe.store o st) (possible : may o) (error : o.answer = none)
      (again : (Policy.flush p.maxRetries).retry n) :
      Step c size may s { s with
        pipe := { s.pipe.setWorker j (.flushing batch (n + 1) last) with store := st }
        attempts := Function.update s.attempts j (s.attempts j ++ [o]) }
  /-- The last attempt of a flush fails: the batch is dropped, and the flush is reported. -/
  | flushDrop (j : Fin p.workers) (batch : List Event) (n : ℕ) (last : Bool) (o : Outcome)
      (st : Store) (worker : s.pipe.workers j = .flushing batch n last)
      (attempt : Attempted c batch s.pipe.store o st) (possible : may o) (error : o.answer = none)
      (stop : (Policy.flush p.maxRetries).giveUp n) :
      Step c size may s { s with
        pipe := s.pipe.endFlush j batch last (.dropped batch) st
        metrics := s.metrics.onFlush (.dropped batch)
        attempts := Function.update s.attempts j []
        drops := s.drops ++ [(batch, s.attempts j ++ [o])] }
  /-- A worker receives, ticks or finds the channel drained, or `main` goes on: `Enqueue` and
  `InsertBatch` have no part in it. `GracefulStop` returns when every call of `Publish` has. -/
  | internal (pipe : MemoryPipeline p) (step : MemoryPipeline.Step c size s.pipe pipe)
      (calls : pipe.calls = s.pipe.calls) (accepted : pipe.accepted = s.pipe.accepted)
      (flushes : pipe.flushes = s.pipe.flushes) (store : pipe.store = s.pipe.store)
      (flushing : ∀ j batch n last, s.pipe.workers j = .flushing batch n last →
        pipe.workers j = .flushing batch n last)
      (quiet : pipe.main.grpcRuns = s.pipe.main.grpcRuns ∨ ∀ i, ¬ (s.handlers i).InPublish) :
      Step c size may s { s with pipe := pipe }

/-- The states of the process, started on the tables `st`. -/
def Reachable (c : Postgres) (size : ℕ) (may : Outcome → Prop) (st : Store) (s : Service p ι) :
    Prop :=
  Relation.ReflTransGen (Step c size may) (init p ι st) s

/-! ## The process runs the pipeline -/

variable {c : Postgres} {size : ℕ} {may : Outcome → Prop} {st : Store} {s s' : Service p ι}

/-- **A step of the process is a step of the pipeline, or leaves it as it is.** -/
theorem Step.pipe (h : Step c size may s s') :
    s'.pipe = s.pipe ∨ MemoryPipeline.Step c size s.pipe s'.pipe := by
  cases h with
  | http i now r allowed idle => exact .inl rfl
  | grpc i now r allowed idle runs => exact .inl rfl
  | next i now index rest resp handler => exact .inl rfl
  | closed i door e next handler set => exact .inl rfl
  | check i door e next handler unset runs => exact .inr (.check door e unset runs)
  | sent i door e next pipe handler step call accepted => exact .inr step
  | full i door e next calls handler call isOpen noRoom =>
    exact .inr (.full door e calls call isOpen noRoom)
  | panics i door e next calls handler call isClosed =>
    exact .inr (.panics door e calls call isClosed)
  | flushOk j batch n last k st worker attempt possible =>
    exact .inr (.flushOk j batch n last k st worker attempt.attempt)
  | flushRetry j batch n last o st worker attempt possible error again =>
    exact .inr (.flushRetry j batch n last st worker (error ▸ attempt.attempt) again)
  | flushDrop j batch n last o st worker attempt possible error stop =>
    exact .inr (.flushDrop j batch n last st worker (error ▸ attempt.attempt) stop)
  | internal pipe step calls accepted flushes store flushing quiet => exact .inr step

/-- **The states of the process are states of the pipeline.** -/
theorem Reachable.pipe (h : Reachable c size may st s) :
    MemoryPipeline.Reachable c size st s.pipe := by
  induction h with
  | refl => exact .refl
  | tail _ hstep ih =>
    rcases hstep.pipe with heq | hpipe
    · rw [heq]
      exact ih
    · exact ih.tail hpipe

end Service

end Tally
