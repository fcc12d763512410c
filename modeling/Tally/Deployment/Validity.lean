import Tally.Ingest.Storable
import Tally.Pipeline.Conservation
import Tally.Pipeline.Service
import Tally.Queue.CrashSafety
import Tally.Queue.Record

/-!
# Validity of the stored events

Several processes on one database: those in memory mode, the doors in front of a topic, and the
consumers of the topic. Both doors refuse an event without an id or a name, so that nothing else is
in a queue, in a batch or in a record of a producer. `Run` does not check: whatever decodes is
inserted. The stored events are valid as long as every other record on the topic that decodes, and
that Postgres can store, has a string under the key of the id and under that of the name, of which
the last one is not empty.

## Main definitions

* `Deployment`, `Deployment.Step`, `Deployment.Reachable`: the processes, and the interleavings
* `Event.Named`, `Service.Named`, `Broker.Carries`: what the events and records have
* `CarriesEvent`: the condition on a record

## Main results

* `Service.Step.named`, `Broker.Step.carries`, `Deployment.Step.inv`: the steps keep it
* `stored_events_named_iff`: the stored events are valid exactly when the records carry events
-/

namespace Tally

/-! ## Rows -/

/-- The event has an id and a name. -/
def Event.Named (e : Event) : Prop := e.eventId ≠ "" ∧ e.name ≠ ""

/-- The rows have ids and names. -/
def Store.Named (st : Store) : Prop := ∀ r ∈ st.events, r.eventId ≠ "" ∧ r.name ≠ ""

/-- The rows an attempt adds are those of events without U+0000. -/
theorem Attempt.mem_events {c : Postgres} {events : List Event} {st st' : Store} {res : Option ℕ}
    (h : Attempt c events st res st') {r : Row} (hr : r ∈ st'.events) :
    r ∈ st.events ∨ ∃ e ∈ events, e.NulFree ∧ e.toRow = r := by
  have heffect : ∀ (own : Batch c) (n : ℕ), own.events = events →
      insertBatch c st own.events own.order = .ok (st', n) →
      r ∈ st.events ∨ ∃ e ∈ events, e.NulFree ∧ e.toRow = r := by
    rintro own n rfl hok
    obtain ⟨haccepts, happlied, -⟩ := insertBatch_eq_ok_iff.mp hok
    rw [happlied.events_eq] at hr
    rcases List.mem_append.mp hr with hr | hr
    · exact .inl hr
    · obtain ⟨e, he, hrow⟩ := own.mem_order.mp ((Foundation.fresh_sublist _ _ _).subset hr)
      exact .inr ⟨e, he, Postgres.nulFree (haccepts.events e he), hrow⟩
  cases h with
  | ok own hown hok => exact heffect own _ hown hok
  | rollback => exact .inl hr
  | lostAck own hown hok => exact heffect own _ hown hok

theorem Attempt.named {c : Postgres} {events : List Event} {st st' : Store} {res : Option ℕ}
    (h : Attempt c events st res st') (hst : st.Named)
    (hevents : ∀ e ∈ events, e.NulFree → e.Named) : st'.Named := by
  intro r hr
  rcases h.mem_events hr with hr | ⟨e, he, hfree, rfl⟩
  · exact hst r hr
  · exact hevents e he hfree

/-! ## The memory mode -/

/-- The events still to be enqueued are named. -/
def Handler.Named : Handler → Prop
  | .idle => True
  | .enqueue _ e next => e.Named ∧ next.Named
  | .send _ e next => e.Named ∧ next.Named
  | .publish _ _ _ _ => True

theorem named_postStart (now : ℤ) (r : HttpRequest) (allowed : Bool) :
    (postStart now r allowed).2.Named := by
  unfold postStart
  cases allowed with
  | false => trivial
  | true =>
    cases r.body with
    | none => trivial
    | some req =>
      by_cases hid : req.eventId = ""
      · simp [hid, Handler.Named]
      by_cases hname : req.name = ""
      · simp [hid, hname, Handler.Named]
      simp only [hid, hname, if_false, Bool.not_true, Bool.false_eq_true]
      exact ⟨⟨hid, hname⟩, trivial⟩

theorem named_publishStart (now : ℤ) (r : GrpcRequest) (allowed : Bool) :
    (publishStart now r allowed).2.Named := by
  cases allowed <;> trivial

theorem named_publishRound (now : ℤ) (index : ℕ) (rest : List PublishEvent)
    (resp : PublishResponse) : (publishRound now index rest resp).2.Named := by
  cases rest with
  | nil => trivial
  | cons pe rest =>
    unfold publishRound
    cases hreason : pe.reason with
    | some reason => simp [hreason, Handler.Named]
    | none =>
      simp only [hreason]
      exact ⟨PublishEvent.reason_eq_none_iff.mp hreason, trivial⟩

namespace MemoryPipeline

variable {p : Pool} {c : Postgres} {size : ℕ} {s s' : MemoryPipeline p}

/-- The events in the process are named. -/
structure Named (s : MemoryPipeline p) : Prop where
  buf : ∀ e ∈ s.buf, e.Named
  calls : ∀ call ∈ s.calls, call.2.Named
  workers : ∀ i, ∀ e ∈ (s.workers i).batch, e.Named

/-- A worker goes on with named events. -/
theorem Named.setWorker (h : s.Named) {i : Fin p.workers} {w : Worker}
    (hw : ∀ e ∈ w.batch, e.Named) : ∀ j, ∀ e ∈ (Function.update s.workers i w j).batch, e.Named :=
  forall_update (fun w => ∀ e ∈ w.batch, e.Named) h.workers hw

theorem Named.batch (h : s.Named) {i : Fin p.workers} {w : Worker} (worker : s.workers i = w) :
    ∀ e ∈ w.batch, e.Named := worker ▸ h.workers i

/-- **A step keeps the events named**, if those that arrive are. -/
theorem Step.named (hstep : Step c size s s') (h : s.Named)
    (hcalls : ∀ call ∈ s'.calls, call.2.Named) : s'.Named := by
  have hreceive : ∀ {i : Fin p.workers} {batch : List Event} {e : Event},
      s.workers i = .waiting batch → e.Named →
      ∀ j, ∀ e' ∈ (Function.update s.workers i (.receive p batch e) j).batch, e'.Named := by
    intro i batch e worker he
    refine h.setWorker fun e' he' => ?_
    rw [Worker.batch_receive] at he'
    rcases List.mem_append.mp he' with he' | he'
    · exact h.batch worker e' he'
    · rwa [List.mem_singleton.mp he']
  cases hstep with
  | send door e calls call isOpen room =>
    refine ⟨fun e' he' => ?_, hcalls, h.workers⟩
    rcases List.mem_append.mp he' with he' | he'
    · exact h.buf e' he'
    · rw [List.mem_singleton.mp he']
      exact h.calls (door, e) (call ▸ Multiset.mem_cons_self _ _)
  | handoff door e calls i batch call isOpen empty worker =>
    exact ⟨h.buf, hcalls, hreceive worker (h.calls (door, e) (call ▸ Multiset.mem_cons_self _ _))⟩
  | receive i batch e rest worker head =>
    have hbuf : ∀ e' ∈ e :: rest, e'.Named := head ▸ h.buf
    exact ⟨fun e' he' => hbuf e' (List.mem_cons_of_mem e he'), hcalls,
      hreceive worker (hbuf e List.mem_cons_self)⟩
  | tick i batch worker =>
    refine ⟨h.buf, hcalls, h.setWorker ?_⟩
    rw [Worker.batch_flush]
    exact h.batch worker
  | drained i batch worker isClosed empty =>
    refine ⟨h.buf, hcalls, h.setWorker ?_⟩
    rw [Worker.batch_flush]
    exact h.batch worker
  | flushOk i batch n last k st worker attempt =>
    exact ⟨h.buf, hcalls, h.setWorker (by simp)⟩
  | flushRetry i batch n last st worker attempt again =>
    have hbatch := h.batch worker
    exact ⟨h.buf, hcalls, h.setWorker hbatch⟩
  | flushDrop i batch n last st worker attempt stop =>
    exact ⟨h.buf, hcalls, h.setWorker (by simp)⟩
  | _ => exact ⟨h.buf, hcalls, h.workers⟩

/-- **A step stores named events only.** -/
theorem Step.named_store (hstep : Step c size s s') (h : s.Named) (hst : s.store.Named) :
    s'.store.Named := by
  cases hstep with
  | flushOk i batch n last k st worker attempt =>
    exact attempt.named hst fun e he _ => h.batch worker e he
  | flushRetry i batch n last st worker attempt again =>
    exact attempt.named hst fun e he _ => h.batch worker e he
  | flushDrop i batch n last st worker attempt stop =>
    exact attempt.named hst fun e he _ => h.batch worker e he
  | _ => exact hst

end MemoryPipeline

namespace Service

variable {p : Pool} {ι : Type*} {c : Postgres} {size : ℕ} {may : Outcome → Prop}
  {s s' : Service p ι}

/-- The events in the process, and those its handlers still have to enqueue, are named. -/
structure Named (s : Service p ι) : Prop where
  handlers : ∀ i, (s.handlers i).Named
  pipe : s.pipe.Named

theorem Named.handler (h : s.Named) {i : ι} {next : Handler} (handler : s.handlers i = next) :
    next.Named := handler ▸ h.handlers i

/-- The process with the tables as they are now. -/
def withStore (s : Service p ι) (st : Store) : Service p ι :=
  { s with pipe := { s.pipe with store := st } }

theorem Named.withStore (h : s.Named) (st : Store) : (s.withStore st).Named :=
  ⟨h.handlers, h.pipe.buf, h.pipe.calls, h.pipe.workers⟩

theorem named_init (p : Pool) (st : Store) : (init p ι st).Named where
  handlers _ := trivial
  pipe := ⟨by simp [init, MemoryPipeline.init], by simp [init, MemoryPipeline.init],
    fun _ _ he => absurd he List.not_mem_nil⟩

variable [DecidableEq ι]

/-- A handler goes on with named events. -/
theorem Named.setHandler (h : s.Named) {i : ι} {next : Handler} (hnext : next.Named) :
    ∀ j, (Function.update s.handlers i next j).Named :=
  (Function.forall_update_iff s.handlers fun _ next => next.Named).mpr
    ⟨hnext, fun j _ => h.handlers j⟩

/-- **A step keeps the events named.** -/
theorem Step.named (hstep : Step c size may s s') (h : s.Named) : s'.Named := by
  cases hstep with
  | http i now r allowed idle => exact ⟨h.setHandler (named_postStart now r allowed), h.pipe⟩
  | grpc i now r allowed idle runs =>
    exact ⟨h.setHandler (named_publishStart now r allowed), h.pipe⟩
  | next i now index rest resp handler =>
    exact ⟨h.setHandler (named_publishRound now index rest resp), h.pipe⟩
  | closed i door e next handler set => exact ⟨h.setHandler trivial, h.pipe⟩
  | check i door e next handler unset runs =>
    have hnext : e.Named ∧ next.Named := h.handler handler
    refine ⟨h.setHandler hnext, h.pipe.buf, fun call hcall => ?_, h.pipe.workers⟩
    rcases Multiset.mem_cons.mp hcall with rfl | hcall
    · exact hnext.1
    · exact h.pipe.calls call hcall
  | sent i door e next pipe handler step call accepted =>
    have hnext : e.Named ∧ next.Named := h.handler handler
    refine ⟨h.setHandler hnext.2, step.named h.pipe fun x hx => ?_⟩
    exact h.pipe.calls x (MemoryPipeline.mem_of_calls_eq call hx)
  | full i door e next calls handler call isOpen noRoom =>
    refine ⟨h.setHandler trivial, h.pipe.buf, fun x hx => ?_, h.pipe.workers⟩
    exact h.pipe.calls x (MemoryPipeline.mem_of_calls_eq call hx)
  | panics i door e next calls handler call isClosed =>
    refine ⟨h.setHandler trivial, h.pipe.buf, fun x hx => ?_, h.pipe.workers⟩
    exact h.pipe.calls x (MemoryPipeline.mem_of_calls_eq call hx)
  | flushOk j batch n last k st worker attempt possible =>
    exact ⟨h.handlers, h.pipe.buf, h.pipe.calls, h.pipe.setWorker (by simp)⟩
  | flushRetry j batch n last o st worker attempt possible error again =>
    have hbatch := h.pipe.batch worker
    exact ⟨h.handlers, h.pipe.buf, h.pipe.calls, h.pipe.setWorker hbatch⟩
  | flushDrop j batch n last o st worker attempt possible error stop =>
    exact ⟨h.handlers, h.pipe.buf, h.pipe.calls, h.pipe.setWorker (by simp)⟩
  | internal pipe step calls accepted flushes store flushing quiet =>
    exact ⟨h.handlers, step.named h.pipe (calls ▸ h.pipe.calls)⟩

/-- **A step stores named events only.** -/
theorem Step.named_store (hstep : Step c size may s s') (h : s.Named)
    (hst : s.pipe.store.Named) : s'.pipe.store.Named := by
  rcases hstep.pipe with heq | hpipe
  · rwa [heq]
  · exact hpipe.named_store h.pipe hst

end Service

/-! ## The Kafka mode -/

namespace Broker

variable {ι π : Type*} [DecidableEq ι] {c : Postgres} {unmarshal : List UInt8 → Option Event}
  {batchSize : ℕ} {good : List UInt8 → Prop} {s s' : Broker ι π}

/-- The records on the topic and those being inserted have a property. -/
structure Carries (good : List UInt8 → Prop) (s : Broker ι π) : Prop where
  logs : ∀ p, ∀ value ∈ s.logs p, good value
  inserting : ∀ i recs n, (s.consumers i).loop = .inserting recs n → ∀ r ∈ recs, good r.value

/-- A consumer goes on with such records. -/
theorem Carries.setConsumer (h : s.Carries good) {i : ι} {k : Consumer π}
    (hk : ∀ recs n, k.loop = .inserting recs n → ∀ r ∈ recs, good r.value) :
    ∀ j recs n, ((s.setConsumer i k).consumers j).loop = .inserting recs n →
      ∀ r ∈ recs, good r.value :=
  (Function.forall_update_iff s.consumers fun _ k =>
    ∀ recs n, k.loop = .inserting recs n → ∀ r ∈ recs, good r.value).mpr
    ⟨hk, fun j _ => h.inserting j⟩

variable [DecidableEq π]

/-- **A step keeps the property**, if the records that arrive have it. -/
theorem Step.carries (hstep : Step c unmarshal batchSize s s') (h : s.Carries good)
    (hlogs : ∀ p, ∀ value ∈ s'.logs p, good value) : s'.Carries good := by
  refine ⟨hlogs, ?_⟩
  cases hstep with
  | produce p value => exact h.inserting
  | poll i takes polling distinct available bounded some_records =>
    refine h.setConsumer ?_
    rintro recs n hloop r hr
    cases hloop
    obtain ⟨-, -, -, -, -, -, hget⟩ := mem_polled.mp hr
    exact h.logs _ _ (List.mem_of_getElem? hget)
  | insertOk i recs n k st inserting attempt =>
    exact h.setConsumer fun recs n hloop => by cases hloop
  | insertRetry i recs n st inserting attempt again =>
    refine h.setConsumer ?_
    rintro recs n hloop
    cases hloop
    exact h.inserting i _ _ inserting
  | commit i recs effective committing =>
    exact h.setConsumer fun recs n hloop => by cases hloop
  | stop i => exact h.setConsumer fun recs n hloop => by cases hloop
  | start i stopped => exact h.setConsumer fun recs n hloop => by cases hloop
  | assign i p => exact h.setConsumer (h.inserting i)
  | revoke i p => exact h.setConsumer (h.inserting i)

/-- **A step stores named events only**, if the records that decode and can be stored have them. -/
theorem Step.named_store (hstep : Step c unmarshal batchSize s s')
    (h : s.Carries fun value => ∀ e, unmarshal value = some e → e.NulFree → e.Named)
    (hst : s.store.Named) : s'.store.Named := by
  have hattempt : ∀ {i : ι} {recs : List (Record π)} {n : ℕ} {res : Option ℕ} {st : Store},
      (s.consumers i).loop = .inserting recs n →
      Attempt c (decodeRecords unmarshal recs) s.store res st → st.Named := by
    intro i recs n res st inserting attempt
    refine attempt.named hst fun e he hfree => ?_
    obtain ⟨r, hr, hdecode⟩ := List.mem_filterMap.mp he
    exact h.inserting i recs n inserting r hr e hdecode hfree
  cases hstep with
  | insertOk i recs n k st inserting attempt => exact hattempt inserting attempt
  | insertRetry i recs n st inserting attempt again => exact hattempt inserting attempt
  | _ => exact hst

end Broker

/-! ## The processes together -/

/-- Processes in memory mode, the consumers of a topic, and the tables they share. What a process
remembers of the tables is not looked at. -/
structure Deployment (p : Pool) (κ ι ν π : Type*) where
  services : κ → Service p ι
  broker : Broker ν π
  store : Store

namespace Deployment

variable {p : Pool} {κ ι ν π : Type*}

/-- Nothing has started: empty tables, and an empty topic. -/
def init (p : Pool) (κ ι ν π : Type*) : Deployment p κ ι ν π :=
  ⟨fun _ => .init p ι .empty, .init ν (fun _ => []) .empty, .empty⟩

variable [DecidableEq π]

/-- A record arrives on a partition. -/
def produce (d : Deployment p κ ι ν π) (partition : π) (value : List UInt8) :
    Deployment p κ ι ν π :=
  { d with broker := { d.broker with
      logs := Function.update d.broker.logs partition (d.broker.logs partition ++ [value]) } }

variable {conv : Conversions} {d d' : Deployment p κ ι ν π}

/-- A record whose event, if it has one that can be stored, is named. -/
def Harmless (conv : Conversions) (value : List UInt8) : Prop :=
  ∀ e, unmarshal conv value = some e → e.NulFree → e.Named

/-- The events in the processes, on the topic and in the tables are named. -/
structure Inv (conv : Conversions) (d : Deployment p κ ι ν π) : Prop where
  services : ∀ k, (d.services k).Named
  broker : d.broker.Carries (Harmless conv)
  store : d.store.Named

theorem Inv.produce (h : d.Inv conv) {value : List UInt8} (hvalue : Harmless conv value)
    (partition : π) : (d.produce partition value).Inv conv := by
  refine ⟨h.services, ⟨?_, h.broker.inserting⟩, h.store⟩
  refine (Function.forall_update_iff d.broker.logs fun _ log => ∀ v ∈ log, Harmless conv v).mpr
    ⟨fun v hv => ?_, fun q _ => h.broker.logs q⟩
  rcases List.mem_append.mp hv with hv | hv
  · exact h.broker.logs partition v hv
  · rwa [List.mem_singleton.mp hv]

variable [DecidableEq κ] [DecidableEq ι] [DecidableEq ν]

/-- One step. Other producers may write the given values to the topic. -/
inductive Step (c : Postgres) (conv : Conversions) (size batchSize : ℕ) (may : Outcome → Prop)
    (values : Set (List UInt8)) (d : Deployment p κ ι ν π) : Deployment p κ ι ν π → Prop
  /-- A step of a process in memory mode. -/
  | memory (k : κ) (s : Service p ι)
      (step : Service.Step c size may ((d.services k).withStore d.store) s) :
      Step c conv size batchSize may values d
        { d with services := Function.update d.services k s, store := s.pipe.store }
  /-- A step of a consumer, its group or its client. -/
  | consume (b : Broker ν π)
      (step : Broker.Step c (unmarshal conv) batchSize { d.broker with store := d.store } b)
      (logs : b.logs = d.broker.logs) :
      Step c conv size batchSize may values d { d with broker := b, store := b.store }
  /-- The record of an event that a door hands to `KafkaProducer.Enqueue` arrives on the topic. Its
  properties come from a JSON body or are the texts of a gRPC map, so that JSON can produce them. -/
  | enqueue (now : ℤ) (r : Request) (e : Event) (value : List UInt8) (partition : π)
      (valid : e ∈ r.events now) (decoded : e.Decoded conv) (record : e.record conv = some value) :
      Step c conv size batchSize may values d (d.produce partition value)
  /-- Any other record arrives on the topic. -/
  | other (value : List UInt8) (partition : π) (external : value ∈ values) :
      Step c conv size batchSize may values d (d.produce partition value)

/-- The states reached from the beginning. -/
def Reachable (c : Postgres) (conv : Conversions) (size batchSize : ℕ) (may : Outcome → Prop)
    (values : Set (List UInt8)) (d : Deployment p κ ι ν π) : Prop :=
  Relation.ReflTransGen (Step c conv size batchSize may values) (init p κ ι ν π) d

variable {c : Postgres} {size batchSize : ℕ} {may : Outcome → Prop} {values : Set (List UInt8)}

/-- **A step keeps the events named**, if the records of other producers are harmless. -/
theorem Step.inv (hstep : Step c conv size batchSize may values d d')
    (hvalues : ∀ value ∈ values, Harmless conv value) (h : d.Inv conv) : d'.Inv conv := by
  cases hstep with
  | memory k s step =>
    have hk := (h.services k).withStore d.store
    refine ⟨?_, h.broker, step.named_store hk h.store⟩
    exact (Function.forall_update_iff d.services fun _ s => s.Named).mpr
      ⟨step.named hk, fun j _ => h.services j⟩
  | consume b step logs =>
    have hb : Broker.Carries (Harmless conv) { d.broker with store := d.store } :=
      ⟨h.broker.logs, h.broker.inserting⟩
    exact ⟨h.services, step.carries hb (logs ▸ h.broker.logs), step.named_store hb h.store⟩
  | enqueue now r e value partition valid decoded record =>
    refine h.produce (fun e' he' _ => ?_) partition
    rw [unmarshal_record decoded record] at he'
    obtain rfl := Option.some.inj he'
    exact Request.events_valid valid
  | other value partition external => exact h.produce (hvalues value external) partition

theorem Reachable.inv (h : Reachable c conv size batchSize may values d)
    (hvalues : ∀ value ∈ values, Harmless conv value) : d.Inv conv := by
  induction h with
  | refl =>
    refine ⟨fun _ => Service.named_init p .empty, ⟨?_, ?_⟩, ?_⟩
    · exact fun _ _ hvalue => absurd hvalue List.not_mem_nil
    · exact fun _ _ _ hloop => by cases hloop
    · exact fun _ hr => absurd hr List.not_mem_nil
  | tail _ hstep ih => exact hstep.inv hvalues ih

end Deployment

/-! ## Records without an event -/

/-- A consumer stores the event of any record that decodes to one without U+0000. -/
theorem exists_stored_of_unmarshal {conv : Conversions} {value : List UInt8} {e : Event}
    {values : Set (List UInt8)} (hvalue : value ∈ values) (hdecode : unmarshal conv value = some e)
    (hfree : e.NulFree) :
    ∃ d : Deployment (.new ⟨1, 2, 0⟩) Unit Unit Unit Unit,
      Deployment.Reachable .bytewise conv 10 1 (fun _ => True) values d ∧
        e.toRow ∈ d.store.events := by
  have htakes : Postgres.bytewise.Takes e := Postgres.takes_iff.mpr ⟨hfree, rfl, rfl⟩
  obtain ⟨st, n, hst⟩ := exists_insertBatch_eq_ok (Batch.accepts_single htakes .empty)
    allDecode_empty
  let recs : List (Record Unit) := [⟨(), 0, value⟩]
  have hattempt : Attempt .bytewise (decodeRecords (unmarshal conv) recs) .empty (some n) st := by
    refine .ok (.single _ e) ?_ hst
    simp [decodeRecords, recs, hdecode, Batch.single]
  have hproduced : Deployment.Reachable .bytewise conv 10 1 (fun _ => True) values
      ((Deployment.init (.new ⟨1, 2, 0⟩) Unit Unit Unit Unit).produce () value) :=
    .single (.other value () hvalue)
  have hstarted := hproduced.tail (.consume _ (.start () rfl) rfl)
  have hassigned := hstarted.tail (.consume _ (.assign () ()) rfl)
  have hpolled := hassigned.tail (.consume _ (.poll () [((), 1)] rfl (by simp)
    (fun t ht => by
      obtain rfl := List.mem_singleton.mp ht
      exact ⟨0, rfl, le_refl 1⟩)
    (show recs.length ≤ 1 from le_refl 1) (show recs ≠ [] by simp [recs])) rfl)
  have hinserted := hpolled.tail (.consume _ (.insertOk () recs 1 n st rfl hattempt) rfl)
  refine ⟨_, hinserted, ?_⟩
  show e.toRow ∈ st.events
  rw [(insertBatch_eq_ok_iff.mp hst).2.1.events_eq]
  exact List.mem_singleton_self e.toRow

/-- The record decodes, to an event without U+0000. -/
def Storable (conv : Conversions) (value : List UInt8) : Prop :=
  ∃ e, unmarshal conv value = some e ∧ e.NulFree

/-- The record has a string under the key of the id and under that of the name, of which the last
one is not empty. -/
def CarriesEvent (value : List UInt8) : Prop :=
  ∃ ms, recordMembers value = some ms ∧ lastString .eventId "" ms ≠ "" ∧ lastString .name "" ms ≠ ""

/-- What a record carries is what its event has. -/
theorem carriesEvent_iff_named {conv : Conversions} {value : List UInt8} {e : Event}
    (h : unmarshal conv value = some e) : CarriesEvent value ↔ e.Named := by
  obtain ⟨ms, hms, hid, hname⟩ := strings_of_unmarshal h
  unfold CarriesEvent Event.Named
  rw [hid, hname, hms]
  simp

/-- **The stored events have ids and names exactly when the records of other producers carry
events.** Take processes in memory mode, doors in front of a topic and consumers of the topic, on
one database, and let other producers write records with the given values. Every row in every state
that any interleaving reaches from empty tables has an id and a name, if and only if every one of
these values that decodes and can be stored has a string under the key of the id, and one under that
of the name, of which the last is not empty. -/
theorem stored_events_named_iff (conv : Conversions) (values : Set (List UInt8)) :
    (∀ (c : Postgres) (p : Pool) (κ ι ν π : Type) [DecidableEq κ] [DecidableEq ι] [DecidableEq ν]
        [DecidableEq π] (size batchSize : ℕ) (may : Outcome → Prop) (d : Deployment p κ ι ν π),
        Deployment.Reachable c conv size batchSize may values d →
          ∀ r ∈ d.store.events, r.eventId ≠ "" ∧ r.name ≠ "") ↔
      ∀ value ∈ values, Storable conv value → CarriesEvent value := by
  constructor
  · rintro h value hvalue ⟨e, hdecode, hfree⟩
    rw [carriesEvent_iff_named hdecode]
    obtain ⟨d, hd, hrow⟩ := exists_stored_of_unmarshal hvalue hdecode hfree
    exact h .bytewise _ Unit Unit Unit Unit 10 1 _ d hd e.toRow hrow
  · intro h c p κ ι ν π _ _ _ _ size batchSize may d hd
    refine (hd.inv fun value hvalue e hdecode hfree => ?_).store
    exact (carriesEvent_iff_named hdecode).mp (h value hvalue ⟨e, hdecode, hfree⟩)

/-- **A record that is an empty object is stored**, as an event without an id and a name. -/
theorem empty_object_is_stored :
    ∃ d : Deployment (.new ⟨1, 2, 0⟩) Unit Unit Unit Unit,
      Deployment.Reachable .bytewise .refusing 10 1 (fun _ => True) {[0x7b, 0x7d]} d ∧
        ∃ r ∈ d.store.events, r.eventId = "" ∧ r.name = "" := by
  have hdecode : unmarshal .refusing [0x7b, 0x7d] = some .zero := rfl
  have hfree : Event.zero.NulFree := ⟨rfl, rfl, rfl, rfl⟩
  obtain ⟨d, hd, hrow⟩ := exists_stored_of_unmarshal (Set.mem_singleton _) hdecode hfree
  exact ⟨d, hd, _, hrow, rfl, rfl⟩

end Tally
