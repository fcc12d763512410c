import Mathlib.Tactic.Abel
import Tally.Queue.Drain
import Tally.Queue.Producer

/-!
# Delivery through Kafka

Any number of ingest processes with a `KafkaProducer` each, one topic, and the consumers. `Enqueue`
returns nil once its record is in the client's buffer, so an accepted event may still be lost: the
promise reports an error for a record that could not be produced, as for one that is too large,
`Close` closes the client 15 seconds after its flush began whatever is left, a call that comes later
returns nil and its promise gets the error, and the buffer of a killed process is gone. A record
whose promise reports an error may have been written nevertheless. In every other case the record is
on the topic, and stored once its offset is committed.

## Main definitions

* `IngestProcess`: a producer, and what became of the records it held
* `IngestProcess.Step`: calls, acknowledgements, failures, `Close`, and the end of the process
* `Delivery`, `Delivery.Step`, `Delivery.Reachable`: the processes, the topic and the consumers

## Main results

* `IngestProcess.Step.inv`: accepted records are buffered, acknowledged or lost
* `Delivery.Reachable.inv`: acknowledged records are on the topic, which holds accepted ones only
* `accepted_events_accounted`: where an accepted event is
* `drained_ids`: what is stored in the end
-/

namespace Tally

/-! ## Ingest processes -/

/-- An ingest process: its producer, whether the client is closed, the records the broker
acknowledged, and those whose promise got an error or that ended with the process. -/
structure IngestProcess where
  producer : Producer
  closed : Bool
  acked : Multiset ProduceRecord
  lost : Multiset ProduceRecord

namespace IngestProcess

def init : IngestProcess := ⟨.new, false, 0, 0⟩

/-- One step of a process, with the record it writes to the topic. Which records are small enough
for the client and the broker is a parameter. -/
inductive Step (conv : Conversions) (topic : String) (maxBuf : ℕ) (fits : ProduceRecord → Bool)
    (s : IngestProcess) : Option ProduceRecord → IngestProcess → Prop
  /-- A step of a call of `Enqueue`, for an event of a request. A closed client buffers nothing. -/
  | call (after : Producer) (step : Producer.Step conv topic maxBuf s.producer after)
      (kept : s.producer.buffered ≤ after.buffered)
      (isOpen : s.closed = true → after.buffered = s.producer.buffered)
      (decoded : ∀ e ∈ after.calls, e ∈ s.producer.calls ∨ e.Decoded conv) :
      Step conv topic maxBuf fits s none { s with producer := after }
  /-- The broker acknowledges a record of a size it takes. -/
  | ack (record : ProduceRecord) (buffered : Multiset ProduceRecord)
      (held : s.producer.buffered = record ::ₘ buffered) (size : fits record = true) :
      Step conv topic maxBuf fits s (some record)
        { s with
          producer := { s.producer with buffered := buffered }
          acked := record ::ₘ s.acked }
  /-- The promise of a record gets an error; the record may have been written. -/
  | fail (record : ProduceRecord) (buffered : Multiset ProduceRecord) (written : Bool)
      (held : s.producer.buffered = record ::ₘ buffered)
      (size : written = true → fits record = true) :
      Step conv topic maxBuf fits s (if written then some record else none)
        { s with
          producer := { s.producer with buffered := buffered }
          lost := record ::ₘ s.lost }
  /-- `Close`: after the flush or its timeout, what is still buffered fails. -/
  | close :
      Step conv topic maxBuf fits s none
        { s with
          producer := { s.producer with buffered := 0 }
          closed := true
          lost := s.producer.buffered + s.lost }
  /-- A call enters `Produce` of a closed client: nil, and the promise gets an error. -/
  | late (e : Event) (calls : Multiset Event) (record : ProduceRecord) (isClosed : s.closed = true)
      (call : s.producer.calls = e ::ₘ calls)
      (marshalled : e.produceRecord conv topic = some record) :
      Step conv topic maxBuf fits s none
        { s with
          producer := { s.producer with
            calls := calls
            returned := s.producer.returned ++ [(e, none)] }
          lost := record ::ₘ s.lost }
  /-- A call blocked in `Produce` of a client that was closed: the same. -/
  | lateBlocked (e : Event) (record : ProduceRecord)
      (blocked : Multiset (Event × ProduceRecord)) (isClosed : s.closed = true)
      (waiting : s.producer.blocked = (e, record) ::ₘ blocked) :
      Step conv topic maxBuf fits s none
        { s with
          producer := { s.producer with
            blocked := blocked
            returned := s.producer.returned ++ [(e, none)] }
          lost := record ::ₘ s.lost }
  /-- The process is killed, and started again. -/
  | kill :
      Step conv topic maxBuf fits s none
        { s with
          producer := { s.producer with buffered := 0, calls := 0, blocked := 0 }
          closed := false
          lost := s.producer.buffered + s.lost }

/-- `Enqueue` returned nil for the event. -/
def Accepted (s : IngestProcess) (e : Event) : Prop := (e, none) ∈ s.producer.returned

/-- The record of a call that returned nil. -/
def acceptedRecord (conv : Conversions) (topic : String) :
    Event × Option EnqueueError → Option ProduceRecord
  | (e, none) => e.produceRecord conv topic
  | (_, some _) => none

/-- The records of the calls that returned nil. -/
def acceptedRecords (conv : Conversions) (topic : String) (s : IngestProcess) :
    Multiset ProduceRecord := s.producer.returned.filterMap (acceptedRecord conv topic)

/-- **The invariant of a process.** -/
structure Inv (conv : Conversions) (topic : String) (s : IngestProcess) : Prop where
  conserved : s.acceptedRecords conv topic = s.producer.buffered + s.acked + s.lost
  calls : ∀ e ∈ s.producer.calls, e.Decoded conv
  blocked : ∀ x ∈ s.producer.blocked, x.1.Decoded conv ∧ x.1.produceRecord conv topic = some x.2
  accepted : ∀ e, s.Accepted e → e.Decoded conv ∧ ∃ record, e.produceRecord conv topic = some record

variable {conv : Conversions} {topic : String} {maxBuf : ℕ} {fits : ProduceRecord → Bool}
  {s s' : IngestProcess} {written : Option ProduceRecord} {record : ProduceRecord}

theorem inv_init (conv : Conversions) (topic : String) : init.Inv conv topic where
  conserved := by simp [acceptedRecords, init, Producer.new]
  calls e he := absurd he (Multiset.notMem_zero e)
  blocked x hx := absurd hx (Multiset.notMem_zero x)
  accepted e he := absurd he List.not_mem_nil

/-- A call that returned nil adds its record. -/
theorem toList_acceptedRecord {e : Event} {record : ProduceRecord}
    (h : e.produceRecord conv topic = some record) :
    ((acceptedRecord conv topic (e, none)).toList : Multiset ProduceRecord) = {record} := by
  rw [acceptedRecord, h]
  rfl

/-- One more call has returned. -/
theorem Inv.returned (h : s.Inv conv topic) {producer : Producer} {closed : Bool}
    {acked lost : Multiset ProduceRecord} {x : Event × Option EnqueueError}
    (hreturned : producer.returned = s.producer.returned ++ [x])
    (hconserved : producer.buffered + acked + lost = s.producer.buffered + s.acked + s.lost +
      ((acceptedRecord conv topic x).toList : Multiset ProduceRecord))
    (hcalls : ∀ e ∈ producer.calls, e ∈ s.producer.calls ∨ e.Decoded conv)
    (hblocked : ∀ y ∈ producer.blocked, y ∈ s.producer.blocked)
    (hx : x.2 = none →
      x.1.Decoded conv ∧ ∃ record, x.1.produceRecord conv topic = some record) :
    Inv conv topic ⟨producer, closed, acked, lost⟩ where
  conserved := by
    have hlast : [x].filterMap (acceptedRecord conv topic) =
        (acceptedRecord conv topic x).toList := by
      cases hrecord : acceptedRecord conv topic x <;> simp [hrecord]
    have hold := h.conserved
    simp only [acceptedRecords] at hold ⊢
    rw [hconserved, ← hold, hreturned, List.filterMap_append, hlast, Multiset.coe_add]
  calls e he := (hcalls e he).elim (h.calls e) id
  blocked y hy := h.blocked y (hblocked y hy)
  accepted e he := by
    rw [Accepted, hreturned] at he
    rcases List.mem_append.mp he with hold | hnew
    · exact h.accepted e hold
    · obtain rfl := List.mem_singleton.mp hnew
      exact hx rfl

/-- No call has returned. -/
theorem Inv.pending (h : s.Inv conv topic) {producer : Producer} {closed : Bool}
    {acked lost : Multiset ProduceRecord} (hreturned : producer.returned = s.producer.returned)
    (hconserved : producer.buffered + acked + lost = s.producer.buffered + s.acked + s.lost)
    (hcalls : ∀ e ∈ producer.calls, e ∈ s.producer.calls ∨ e.Decoded conv)
    (hblocked : ∀ y ∈ producer.blocked, y ∈ s.producer.blocked ∨
      y.1.Decoded conv ∧ y.1.produceRecord conv topic = some y.2) :
    Inv conv topic ⟨producer, closed, acked, lost⟩ where
  conserved := by
    have hold := h.conserved
    simp only [acceptedRecords] at hold ⊢
    rw [hconserved, ← hold, hreturned]
  calls e he := (hcalls e he).elim (h.calls e) id
  blocked y hy := (hblocked y hy).elim (h.blocked y) id
  accepted e he := h.accepted e (by rwa [Accepted, hreturned] at he)

/-- A step of a call keeps the invariant. -/
theorem Inv.call (h : s.Inv conv topic) {after : Producer}
    (hstep : Producer.Step conv topic maxBuf s.producer after)
    (kept : s.producer.buffered ≤ after.buffered)
    (hcalls : ∀ e ∈ after.calls, e ∈ s.producer.calls ∨ e.Decoded conv) :
    Inv conv topic { s with producer := after } := by
  have hmem : ∀ {e : Event} {calls : Multiset Event}, s.producer.calls = e ::ₘ calls →
      e.Decoded conv := fun hcall => h.calls _ (hcall ▸ Multiset.mem_cons_self _ _)
  cases hstep with
  | full e noRoom => exact h.returned rfl (by simp [acceptedRecord]) hcalls (fun _ => id) nofun
  | check e room => exact h.pending rfl rfl hcalls fun _ => .inl
  | marshalError e calls call error =>
    exact h.returned rfl (by simp [acceptedRecord]) hcalls (fun _ => id) nofun
  | produce e calls record call marshalled room =>
    refine h.returned rfl ?_ hcalls (fun _ => id) fun _ => ⟨hmem call, record, marshalled⟩
    simp only [toList_acceptedRecord marshalled, ← Multiset.singleton_add]
    abel
  | block e calls record call marshalled noRoom =>
    refine h.pending rfl rfl hcalls fun y hy => ?_
    rcases Multiset.mem_cons.mp hy with rfl | hold
    · exact .inr ⟨hmem call, marshalled⟩
    · exact .inl hold
  | unblock e record blocked waiting room =>
    obtain ⟨hdec, hrecord⟩ := h.blocked (e, record) (waiting ▸ Multiset.mem_cons_self _ _)
    refine h.returned rfl ?_ hcalls (fun y hy => ?_) fun _ => ⟨hdec, record, hrecord⟩
    · simp only [toList_acceptedRecord hrecord, ← Multiset.singleton_add]
      abel
    · rw [waiting]
      exact Multiset.mem_cons_of_mem hy
  | complete record buffered held =>
    rw [held] at kept
    exact absurd (Multiset.card_le_card kept) (by simp)

/-- **Every step keeps the invariant of the process.** -/
theorem Step.inv (hstep : Step conv topic maxBuf fits s written s') (h : s.Inv conv topic) :
    s'.Inv conv topic := by
  cases hstep with
  | call after step kept isOpen decoded => exact h.call step kept decoded
  | ack record buffered held size =>
    refine h.pending rfl ?_ (fun _ => .inl) fun _ => .inl
    rw [held, ← Multiset.singleton_add, ← Multiset.singleton_add]
    abel
  | fail record buffered written held size =>
    refine h.pending rfl ?_ (fun _ => .inl) fun _ => .inl
    rw [held, ← Multiset.singleton_add, ← Multiset.singleton_add]
    abel
  | close =>
    refine h.pending rfl ?_ (fun _ => .inl) fun _ => .inl
    dsimp only
    abel
  | late e calls record isClosed call marshalled =>
    have hcalls : ∀ e' ∈ calls, e' ∈ s.producer.calls := fun e' he' => by
      rw [call]
      exact Multiset.mem_cons_of_mem he'
    have hdec := h.calls e (call ▸ Multiset.mem_cons_self _ _)
    refine h.returned rfl ?_ (fun e' he' => .inl (hcalls e' he')) (fun _ => id)
      fun _ => ⟨hdec, record, marshalled⟩
    rw [toList_acceptedRecord marshalled, ← Multiset.singleton_add]
    abel
  | lateBlocked e record blocked isClosed waiting =>
    obtain ⟨hdec, hrecord⟩ := h.blocked (e, record) (waiting ▸ Multiset.mem_cons_self _ _)
    refine h.returned rfl ?_ (fun _ => .inl) (fun y hy => ?_) fun _ => ⟨hdec, record, hrecord⟩
    · rw [toList_acceptedRecord hrecord, ← Multiset.singleton_add]
      abel
    · rw [waiting]
      exact Multiset.mem_cons_of_mem hy
  | kill =>
    refine h.pending rfl ?_ (fun e he => absurd he (Multiset.notMem_zero e))
      fun y hy => absurd hy (Multiset.notMem_zero y)
    dsimp only
    abel

/-- A buffered record is that of an accepted event. -/
theorem Inv.accepted_of_buffered (h : s.Inv conv topic) (hheld : record ∈ s.producer.buffered) :
    ∃ e, s.Accepted e ∧ e.produceRecord conv topic = some record := by
  have hmem : record ∈ s.acceptedRecords conv topic := by
    rw [h.conserved, add_assoc]
    exact Multiset.mem_add.mpr (.inl hheld)
  obtain ⟨⟨e, res⟩, hx, hrecord⟩ := List.mem_filterMap.mp (Multiset.mem_coe.mp hmem)
  cases res with
  | none => exact ⟨e, hx, hrecord⟩
  | some err => cases hrecord

/-- A process writes only records it has accepted. -/
theorem Step.written_accepted (hstep : Step conv topic maxBuf fits s (some record) s')
    (h : s.Inv conv topic) :
    ∃ e, s.Accepted e ∧ e.produceRecord conv topic = some record := by
  refine h.accepted_of_buffered ?_
  generalize hw : some record = w at hstep
  cases hstep with
  | ack record' buffered held size =>
    obtain rfl := Option.some.inj hw
    rw [held]
    exact Multiset.mem_cons_self _ _
  | fail record' buffered written held size =>
    split_ifs at hw
    obtain rfl := Option.some.inj hw
    rw [held]
    exact Multiset.mem_cons_self _ _
  | _ => cases hw

/-- An accepted event stays accepted. -/
theorem Step.accepted (hstep : Step conv topic maxBuf fits s written s') {e : Event}
    (h : s.Accepted e) : s'.Accepted e := by
  cases hstep with
  | call after step kept isOpen decoded =>
    cases step with
    | check => exact h
    | block => exact h
    | complete => exact h
    | _ => exact List.mem_append_left _ h
  | late => exact List.mem_append_left _ h
  | lateBlocked => exact List.mem_append_left _ h
  | _ => exact h

/-- What a process has acknowledged, it has acknowledged before or writes now. -/
theorem Step.acked (hstep : Step conv topic maxBuf fits s written s') {record : ProduceRecord}
    (h : record ∈ s'.acked) : record ∈ s.acked ∨ written = some record := by
  cases hstep with
  | ack record' buffered held size =>
    rcases Multiset.mem_cons.mp h with rfl | hold
    · exact .inr rfl
    · exact .inl hold
  | _ => exact .inl h

end IngestProcess

/-! ## The processes, the topic and the consumers -/

/-- A record is appended to the partition of its key. -/
def Broker.write {ι π : Type*} [DecidableEq π] (partition : List UInt8 → π) (s : Broker ι π) :
    Option ProduceRecord → Broker ι π
  | none => s
  | some record =>
    { s with
      logs := Function.update s.logs (partition record.key)
        (s.logs (partition record.key) ++ [record.value]) }

/-- The ingest processes, and the topic with its consumers and the tables. -/
structure Delivery (κ ι π : Type*) where
  ingest : κ → IngestProcess
  broker : Broker ι π

namespace Delivery

variable {κ ι π : Type*} [DecidableEq ι] [DecidableEq π]

/-- Nothing accepted, an empty topic and empty tables. -/
def init (κ ι π : Type*) : Delivery κ ι π := ⟨fun _ => .init, .init ι (fun _ => []) .empty⟩

/-- How the parts of the system are set up: the conversions, the topic, the size of the buffers, the
records that are small enough, the partition of a key, the database and the batch size of the
consumers. -/
structure Setup (π : Type*) where
  conv : Conversions
  topic : String
  maxBuf : ℕ
  fits : ProduceRecord → Bool
  partition : List UInt8 → π
  postgres : Postgres
  batchSize : ℕ

/-- One step of a process, or of the consumers. -/
inductive Step [DecidableEq κ] (u : Setup π) (s : Delivery κ ι π) : Delivery κ ι π → Prop
  | ingest (k : κ) (written : Option ProduceRecord) (after : IngestProcess)
      (step : IngestProcess.Step u.conv u.topic u.maxBuf u.fits (s.ingest k) written after) :
      Step u s ⟨Function.update s.ingest k after, s.broker.write u.partition written⟩
  | consume (after : Broker ι π)
      (step : Broker.Step u.postgres (unmarshal u.conv) u.batchSize s.broker after)
      (quiet : after.logs = s.broker.logs) : Step u s { s with broker := after }

def Reachable [DecidableEq κ] (u : Setup π) (s : Delivery κ ι π) : Prop :=
  Relation.ReflTransGen (Step u) (init κ ι π) s

/-- **The invariant of the system.** -/
structure Inv (u : Setup π) (s : Delivery κ ι π) : Prop where
  processes : ∀ k, (s.ingest k).Inv u.conv u.topic
  acked : ∀ k, ∀ record ∈ (s.ingest k).acked, record.value ∈ s.broker.logs (u.partition record.key)
  origin : ∀ p, ∀ value ∈ s.broker.logs p, ∃ k e record, (s.ingest k).Accepted e ∧
    e.produceRecord u.conv u.topic = some record ∧ record.value = value
  broker : Broker.Reachable u.postgres (unmarshal u.conv) u.batchSize (fun _ => []) .empty s.broker

omit [DecidableEq ι] in
theorem mem_write {b : Broker ι π} {partition : List UInt8 → π} {written : Option ProduceRecord}
    {p : π} {value : List UInt8} :
    value ∈ (b.write partition written).logs p ↔ value ∈ b.logs p ∨
      ∃ record, written = some record ∧ partition record.key = p ∧ record.value = value := by
  cases written with
  | none => simp [Broker.write]
  | some record =>
    by_cases hp : p = partition record.key
    · subst hp
      simp [Broker.write, eq_comm]
    · simp [Broker.write, Function.update_of_ne hp, Ne.symm hp]

theorem inv_init (u : Setup π) : (init κ ι π).Inv u where
  processes _ := IngestProcess.inv_init _ _
  acked _ record hrecord := absurd hrecord (Multiset.notMem_zero record)
  origin _ _ hvalue := absurd hvalue List.not_mem_nil
  broker := .refl

variable {u : Setup π} {s s' : Delivery κ ι π}

/-- **Every step keeps the invariant of the system.** -/
theorem Step.inv [DecidableEq κ] (hstep : Step u s s') (h : s.Inv u) : s'.Inv u := by
  cases hstep with
  | ingest k written after step =>
    refine ⟨?_, ?_, fun p value hvalue => ?_, ?_⟩
    · exact (Function.forall_update_iff s.ingest fun _ t => t.Inv u.conv u.topic).mpr
        ⟨step.inv (h.processes k), fun j _ => h.processes j⟩
    · refine (Function.forall_update_iff s.ingest fun _ t => ∀ record ∈ t.acked,
        record.value ∈ (s.broker.write u.partition written).logs (u.partition record.key)).mpr
          ⟨fun record hrecord => mem_write.mpr ?_, fun j _ record hrecord =>
            mem_write.mpr (.inl (h.acked j record hrecord))⟩
      rcases step.acked hrecord with hold | hnew
      · exact .inl (h.acked k record hold)
      · exact .inr ⟨record, hnew, rfl, rfl⟩
    · have hkeep : ∀ j e, (s.ingest j).Accepted e →
          (Function.update s.ingest k after j).Accepted e := by
        intro j e he
        by_cases hj : j = k
        · subst hj
          rw [Function.update_self]
          exact step.accepted he
        · rwa [Function.update_of_ne hj]
      rcases mem_write.mp hvalue with hold | ⟨record, rfl, -, rfl⟩
      · obtain ⟨j, e, record, he, hrecord, hval⟩ := h.origin p value hold
        exact ⟨j, e, record, hkeep j e he, hrecord, hval⟩
      · obtain ⟨e, he, hrecord⟩ := step.written_accepted (h.processes k)
        exact ⟨k, e, record, hkeep k e he, hrecord, rfl⟩
    · cases written with
      | none => exact h.broker
      | some record => exact h.broker.tail (.produce _ _)
  | consume after step quiet =>
    exact ⟨h.processes, by simpa only [quiet] using h.acked, by simpa only [quiet] using h.origin,
      h.broker.tail step⟩

/-- **The invariant holds in every state reached.** -/
theorem Reachable.inv [DecidableEq κ] (h : Reachable u s) : s.Inv u := by
  induction h with
  | refl => exact inv_init u
  | tail _ hstep ih => exact hstep.inv ih

/-- The record of an accepted event decodes to the event. -/
theorem Inv.unmarshal_record (h : s.Inv u) {k : κ} {e : Event} {record : ProduceRecord}
    (he : (s.ingest k).Accepted e) (hrecord : e.produceRecord u.conv u.topic = some record) :
    unmarshal u.conv record.value = some e := by
  obtain ⟨value, hvalue, rfl⟩ := Option.map_eq_some_iff.mp hrecord
  exact Tally.unmarshal_record ((h.processes k).accepted e he).1 hvalue

/-- The events on the topic are accepted ones. -/
theorem Inv.accepted_of_onTopic (h : s.Inv u) {e : Event}
    (he : OnTopic (unmarshal u.conv) s.broker.logs e) : ∃ k, (s.ingest k).Accepted e := by
  obtain ⟨p, value, hvalue, hdecode⟩ := he
  obtain ⟨k, e', record, haccepted, hrecord, rfl⟩ := h.origin p value hvalue
  rw [h.unmarshal_record haccepted hrecord] at hdecode
  obtain rfl := Option.some.inj hdecode
  exact ⟨k, haccepted⟩

/-- A row is that of an accepted event. -/
theorem Inv.accepted_of_mem_events (h : s.Inv u) {r : Row} (hr : r ∈ s.broker.store.events) :
    ∃ k e, (s.ingest k).Accepted e ∧ e.toRow = r := by
  obtain ⟨e, he, rfl⟩ := h.broker.fed.exists_of_mem_events hr
  obtain ⟨k, hk⟩ := h.accepted_of_onTopic he.onTopic
  exact ⟨k, e, hk, rfl⟩

theorem Inv.accepted_of_mem_ids (h : s.Inv u) {id : String} (hid : id ∈ s.broker.store.ids) :
    ∃ k e, (s.ingest k).Accepted e ∧ e.eventId = id := by
  obtain ⟨r, hr, rfl⟩ := List.mem_map.mp hid
  obtain ⟨k, e, he, rfl⟩ := h.accepted_of_mem_events hr
  exact ⟨k, e, he, rfl⟩

/-- An accepted record is buffered, acknowledged or lost. -/
theorem Inv.accounted (h : s.Inv u) {k : κ} {e : Event} {record : ProduceRecord}
    (he : (s.ingest k).Accepted e) (hrecord : e.produceRecord u.conv u.topic = some record) :
    record ∈ (s.ingest k).producer.buffered ∨ record ∈ (s.ingest k).acked ∨
      record ∈ (s.ingest k).lost := by
  have hmem : record ∈ (s.ingest k).acceptedRecords u.conv u.topic :=
    Multiset.mem_coe.mpr (List.mem_filterMap.mpr ⟨(e, none), he, hrecord⟩)
  rw [(h.processes k).conserved] at hmem
  rcases Multiset.mem_add.mp hmem with hmem | hlost
  · rcases Multiset.mem_add.mp hmem with hbuffered | hacked
    · exact .inl hbuffered
    · exact .inr (.inl hacked)
  · exact .inr (.inr hlost)

/-- In a drained topic every accepted event is stored whose record is neither buffered nor lost. -/
theorem Inv.mem_ids_of_drained (h : s.Inv u) (hdrained : s.broker.Drained) {k : κ} {e : Event}
    {record : ProduceRecord} (he : (s.ingest k).Accepted e)
    (hrecord : e.produceRecord u.conv u.topic = some record)
    (hempty : (s.ingest k).producer.buffered = 0) (hlost : record ∉ (s.ingest k).lost) :
    e.eventId ∈ s.broker.store.ids := by
  rcases h.accounted he hrecord with hbuffered | hacked | hlost'
  · rw [hempty] at hbuffered
    exact absurd hbuffered (Multiset.notMem_zero _)
  · exact h.broker.mem_ids_of_drained Store.sound_empty hdrained
      ⟨_, _, h.acked k record hacked, h.unmarshal_record he hrecord⟩
  · exact absurd hlost' hlost

/-- If moreover nothing was lost, the stored ids are the accepted ones. -/
theorem Inv.mem_ids_iff (h : s.Inv u) (hempty : ∀ k, (s.ingest k).producer.buffered = 0)
    (hlost : ∀ k, (s.ingest k).lost = 0) (hdrained : s.broker.Drained) (id : String) :
    id ∈ s.broker.store.ids ↔ ∃ k e, (s.ingest k).Accepted e ∧ e.eventId = id := by
  refine ⟨h.accepted_of_mem_ids, ?_⟩
  rintro ⟨k, e, he, rfl⟩
  obtain ⟨-, record, hrecord⟩ := (h.processes k).accepted e he
  refine h.mem_ids_of_drained hdrained he hrecord (hempty k) ?_
  rw [hlost k]
  exact Multiset.notMem_zero _

/-! ## Delivery can be completed -/

section Progress

variable [DecidableEq κ]

/-- A step in which no call begins or goes on. -/
def QuietStep (u : Setup π) (s s' : Delivery κ ι π) : Prop :=
  Step u s s' ∧ ∀ k, (s'.ingest k).producer.calls = (s.ingest k).producer.calls

/-- The system gets from `s` to `s'` while nothing is accepted and nothing is lost. -/
structure Delivers (u : Setup π) (s s' : Delivery κ ι π) : Prop where
  quiet : Relation.ReflTransGen (QuietStep u) s s'
  returned : ∀ k, (s'.ingest k).producer.returned = (s.ingest k).producer.returned
  lost : ∀ k, (s'.ingest k).lost = (s.ingest k).lost
  buffered : ∀ k, (s'.ingest k).producer.buffered ≤ (s.ingest k).producer.buffered

theorem Delivers.refl (s : Delivery κ ι π) : Delivers u s s :=
  ⟨.refl, fun _ => rfl, fun _ => rfl, fun _ => le_refl _⟩

theorem Delivers.trans {s'' : Delivery κ ι π} (h : Delivers u s s') (h' : Delivers u s' s'') :
    Delivers u s s'' :=
  ⟨h.quiet.trans h'.quiet, fun k => (h'.returned k).trans (h.returned k),
    fun k => (h'.lost k).trans (h.lost k), fun k => (h'.buffered k).trans (h.buffered k)⟩

theorem Delivers.run (h : Delivers u s s') : Relation.ReflTransGen (Step u) s s' := by
  have hquiet := h.quiet
  clear h
  induction hquiet with
  | refl => exact .refl
  | tail _ hstep ih => exact ih.tail hstep.1

/-- The broker acknowledges one record. -/
theorem delivers_ack {k : κ} {record : ProduceRecord} {buffered : Multiset ProduceRecord}
    (held : (s.ingest k).producer.buffered = record ::ₘ buffered) (hfits : u.fits record = true) :
    ∃ s', Delivers u s s' ∧ (s'.ingest k).producer.buffered = buffered := by
  refine ⟨_, ⟨.single ⟨.ingest k _ _ (.ack record buffered held hfits), fun j => ?_⟩,
    fun j => ?_, fun j => ?_, fun j => ?_⟩, by simp⟩
  all_goals
    by_cases hj : j = k
    · subst hj
      simp [held, Multiset.le_cons_self]
    · simp [Function.update_of_ne hj]

/-- The buffer of a process is flushed, record by record. -/
theorem delivers_flush (k : κ)
    (hfits : ∀ record ∈ (s.ingest k).producer.buffered, u.fits record = true) :
    ∃ s', Delivers u s s' ∧ (s'.ingest k).producer.buffered = 0 := by
  induction hbuffered : (s.ingest k).producer.buffered using Multiset.induction_on
    generalizing s with
  | empty => exact ⟨s, .refl s, hbuffered⟩
  | cons record buffered ih =>
    rw [hbuffered] at hfits
    obtain ⟨s₁, h₁, hrest⟩ := delivers_ack hbuffered (hfits _ (Multiset.mem_cons_self _ _))
    obtain ⟨s₂, h₂, hempty⟩ := ih (s := s₁)
      (fun record hr => hfits record (Multiset.mem_cons_of_mem (hrest ▸ hr))) hrest
    exact ⟨s₂, h₁.trans h₂, hempty⟩

/-- All buffers are flushed. -/
theorem delivers_flushAll [Finite κ]
    (hfits : ∀ k, ∀ record ∈ (s.ingest k).producer.buffered, u.fits record = true) :
    ∃ s', Delivers u s s' ∧ ∀ k, (s'.ingest k).producer.buffered = 0 := by
  have := Fintype.ofFinite κ
  have hall : ∀ ks : Finset κ, ∃ s', Delivers u s s' ∧
      ∀ k ∈ ks, (s'.ingest k).producer.buffered = 0 := by
    intro ks
    induction ks using Finset.induction_on with
    | empty => exact ⟨s, .refl s, fun k hk => absurd hk (Finset.notMem_empty k)⟩
    | insert k ks _ ih =>
      obtain ⟨s₁, h₁, hks⟩ := ih
      obtain ⟨s₂, h₂, hk⟩ := delivers_flush (u := u) (s := s₁) k
        fun record hr => hfits k record (Multiset.mem_of_le (h₁.buffered k) hr)
      refine ⟨s₂, h₁.trans h₂, fun k' hk' => ?_⟩
      rcases Finset.mem_insert.mp hk' with rfl | hold
      · exact hk
      · exact Multiset.le_zero.mp (hks k' hold ▸ h₂.buffered k')
  obtain ⟨s', hs', hempty⟩ := hall Finset.univ
  exact ⟨s', hs', fun k => hempty k (Finset.mem_univ k)⟩

/-- The consumers go on by themselves. -/
theorem delivers_consume {b : Broker ι π}
    (h : Relation.ReflTransGen (Broker.Step u.postgres (unmarshal u.conv) u.batchSize) s.broker b)
    (hlogs : b.logs = s.broker.logs) : Delivers u s { s with broker := b } := by
  refine ⟨?_, fun _ => rfl, fun _ => rfl, fun _ => le_refl _⟩
  induction h with
  | refl => exact .refl
  | @tail b₁ b₂ hrun hstep ih =>
    have hquiet : b₁.logs = s.broker.logs := by
      funext p
      have hle := hstep.logs_grow p
      rw [hlogs] at hle
      exact ((Broker.logs_grow hrun p).eq_of_length_le hle.length_le).symm
    exact (ih hquiet).tail ⟨.consume b₂ hstep (hlogs.trans hquiet.symm), fun _ => rfl⟩

/-- The event can get all the way: Postgres takes it, and its record is small enough. -/
def Setup.Passes (u : Setup π) (e : Event) : Prop :=
  (e.NulFree ∧ u.postgres.WithinLimits e) ∧
    ∀ record, e.produceRecord u.conv u.topic = some record → u.fits record = true

/-- **The buffers can be emptied and the topic drained** from every state, if every accepted event
can get all the way. -/
theorem Reachable.completes [Finite κ] [Nonempty ι] [Finite π] (h : Reachable u s)
    (hbatch : 1 ≤ u.batchSize) (hall : ∀ k e, (s.ingest k).Accepted e → u.Passes e) :
    ∃ s', Delivers u s s' ∧ (∀ k, (s'.ingest k).producer.buffered = 0) ∧ s'.broker.Drained := by
  have hfits : ∀ k, ∀ record ∈ (s.ingest k).producer.buffered, u.fits record = true := by
    intro k record hrecord
    obtain ⟨e, he, hproduce⟩ := (h.inv.processes k).accepted_of_buffered hrecord
    exact (hall k e he).2 record hproduce
  obtain ⟨s₁, h₁, hempty⟩ := delivers_flushAll hfits
  have hinv : s₁.Inv u := Reachable.inv (h.trans h₁.run)
  have htakes : ∀ e, OnTopic (unmarshal u.conv) s₁.broker.logs e → u.postgres.Takes e := by
    intro e he
    obtain ⟨k, hk⟩ := hinv.accepted_of_onTopic he
    rw [IngestProcess.Accepted, h₁.returned k] at hk
    exact Postgres.takes_iff.mpr (hall k e hk).1
  obtain ⟨b, hb, hdrained⟩ := hinv.broker.below.drains hbatch htakes
    (hinv.broker.fed.allDecode allDecode_empty)
  exact ⟨_, h₁.trans (delivers_consume hb.run hb.logs), hempty, hdrained⟩

end Progress

end Delivery

section Results

variable {κ ι π : Type*} [DecidableEq κ] [DecidableEq ι] [DecidableEq π]
  {u : Delivery.Setup π} {s : Delivery κ ι π}

/-- **Where an accepted event is.** In every state that any number of ingest processes and consumers
reach, with failures, closes and kills at any point, the records of the events a process accepted
are those it still buffers, those acknowledged and those lost, each as often as it was accepted. A
record that is neither buffered nor lost is on the partition of its key, and its event is stored
once its offset is committed. -/
theorem accepted_events_accounted (h : Delivery.Reachable u s) (k : κ) :
    (s.ingest k).acceptedRecords u.conv u.topic =
      (s.ingest k).producer.buffered + (s.ingest k).acked + (s.ingest k).lost ∧
    ∀ e, (s.ingest k).Accepted e → ∃ record, e.produceRecord u.conv u.topic = some record ∧
      (record ∈ (s.ingest k).producer.buffered ∨ record ∈ (s.ingest k).lost ∨
        ∃ o, (s.broker.logs (u.partition record.key))[o]? = some record.value ∧
          (o < s.broker.committed (u.partition record.key) → e.eventId ∈ s.broker.store.ids)) := by
  have hinv := h.inv
  refine ⟨(hinv.processes k).conserved, fun e he => ?_⟩
  obtain ⟨-, record, hrecord⟩ := (hinv.processes k).accepted e he
  refine ⟨record, hrecord, ?_⟩
  rcases hinv.accounted he hrecord with hbuffered | hacked | hlost
  · exact .inl hbuffered
  · obtain ⟨o, ho, hvalue⟩ := List.mem_iff_getElem.mp (hinv.acked k record hacked)
    have hget := List.getElem?_eq_some_iff.mpr ⟨ho, hvalue⟩
    refine .inr (.inr ⟨o, hget, fun hcommitted => ?_⟩)
    obtain ⟨value, hget', hstored⟩ :=
      (hinv.broker.inv Store.sound_empty).committed _ o hcommitted
    obtain rfl := Option.some.inj (hget.symm.trans hget')
    exact hstored e (hinv.unmarshal_record he hrecord)
  · exact .inr (.inl hlost)

/-- **What is stored in the end.** When every buffer is empty and the topic is drained, each row is
that of an accepted event, and every accepted event whose record is not lost is stored. So if
nothing was lost, the stored ids are exactly the accepted ones, each once. -/
theorem drained_ids (h : Delivery.Reachable u s)
    (hempty : ∀ k, (s.ingest k).producer.buffered = 0) (hdrained : s.broker.Drained) :
    s.broker.store.ids.Nodup ∧
    (∀ id ∈ s.broker.store.ids, ∃ k e, (s.ingest k).Accepted e ∧ e.eventId = id) ∧
    (∀ k e record, (s.ingest k).Accepted e → e.produceRecord u.conv u.topic = some record →
      record ∉ (s.ingest k).lost → e.eventId ∈ s.broker.store.ids) ∧
    ((∀ k, (s.ingest k).lost = 0) →
      ∀ id, id ∈ s.broker.store.ids ↔ ∃ k e, (s.ingest k).Accepted e ∧ e.eventId = id) := by
  have hinv := h.inv
  refine ⟨(hinv.broker.inv Store.sound_empty).sound.nodup, fun id => hinv.accepted_of_mem_ids,
    fun k e record he hrecord hlost => ?_, fun hlost => hinv.mem_ids_iff hempty hlost hdrained⟩
  exact hinv.mem_ids_of_drained hdrained he hrecord (hempty k) hlost

/-- **Delivery can be completed from every state**, if every accepted event is free of U+0000 and
within the limits of Postgres and its record is small enough for Kafka: some further run in which
nothing more is accepted or lost empties the buffers and drains the topic, and stores every accepted
event whose record was not lost before. -/
theorem delivery_completes [Finite κ] [Nonempty ι] [Finite π] (hbatch : 1 ≤ u.batchSize)
    (h : Delivery.Reachable u s) (hall : ∀ k e, (s.ingest k).Accepted e → u.Passes e) :
    ∃ s', Relation.ReflTransGen (Delivery.Step u) s s' ∧
      (∀ k, (s'.ingest k).producer.returned = (s.ingest k).producer.returned ∧
        (s'.ingest k).lost = (s.ingest k).lost ∧ (s'.ingest k).producer.buffered = 0) ∧
      s'.broker.Drained ∧
      ∀ k e record, (s.ingest k).Accepted e → e.produceRecord u.conv u.topic = some record →
        record ∉ (s.ingest k).lost → e.eventId ∈ s'.broker.store.ids := by
  obtain ⟨s', hs', hempty, hdrained⟩ := h.completes hbatch hall
  have hinv : s'.Inv u := Delivery.Reachable.inv (h.trans hs'.run)
  refine ⟨s', hs'.run, fun k => ⟨hs'.returned k, hs'.lost k, hempty k⟩, hdrained, ?_⟩
  intro k e record he hrecord hlost
  refine hinv.mem_ids_of_drained hdrained (k := k) ?_ hrecord (hempty k) ?_
  · rwa [IngestProcess.Accepted, hs'.returned k]
  · rwa [hs'.lost k]

/-- One process, one partition and one consumer. -/
def epochSetup : Delivery.Setup Unit :=
  ⟨.epoch, "tally.events", 1, fun _ => true, fun _ => (), .bytewise, 1000⟩

/-- A click is accepted, and still in the buffer. -/
theorem exists_reachable_click :
    ∃ s : Delivery Unit Unit Unit, Delivery.Reachable epochSetup s ∧
      (s.ingest ()).producer.returned = [(epochClick, none)] ∧ (s.ingest ()).lost = 0 ∧
      ∀ k e, (s.ingest k).Accepted e → epochSetup.Passes e := by
  have hsome : (epochClick.produceRecord .epoch "tally.events").isSome := rfl
  obtain ⟨record, hrecord⟩ := Option.isSome_iff_exists.mp hsome
  have hdec : epochClick.Decoded .epoch := trivial
  let s₀ : Delivery Unit Unit Unit := .init Unit Unit Unit
  let checked : Producer := ⟨0, {epochClick}, 0, []⟩
  let s₁ : Delivery Unit Unit Unit :=
    ⟨Function.update s₀.ingest () ⟨checked, false, 0, 0⟩, s₀.broker⟩
  have hchecked : Delivery.Step epochSetup s₀ s₁ :=
    .ingest () none _ (.call checked (.check epochClick (show 0 < 1 by decide)) (le_refl _) nofun
      fun e he => .inr (by
        obtain rfl := Multiset.mem_singleton.mp he
        exact hdec))
  have hproduced : Delivery.Step epochSetup s₁ _ :=
    .ingest () none _ (.call _ (.produce epochClick 0 record rfl hrecord (show 0 < 1 by decide))
      (Multiset.zero_le _) nofun fun e he => absurd he (Multiset.notMem_zero e))
  refine ⟨_, (Relation.ReflTransGen.single hchecked).tail hproduced, rfl, rfl, fun _ e he => ?_⟩
  obtain ⟨rfl, -⟩ := Prod.mk.inj (List.mem_singleton.mp he)
  have htakes : Postgres.bytewise.Takes epochClick := by decide +kernel
  exact ⟨Postgres.takes_iff.mp htakes, fun _ _ => rfl⟩

/-- The buffered click. -/
theorem accepted_events_accounted_click :
    ∃ s : Delivery Unit Unit Unit, Delivery.Reachable epochSetup s ∧
      (s.ingest ()).Accepted epochClick ∧
      (s.ingest ()).acceptedRecords .epoch "tally.events" =
        (s.ingest ()).producer.buffered + (s.ingest ()).acked + (s.ingest ()).lost := by
  obtain ⟨s, hs, hreturned, -, -⟩ := exists_reachable_click
  refine ⟨s, hs, ?_, (accepted_events_accounted hs ()).1⟩
  rw [IngestProcess.Accepted, hreturned]
  exact List.mem_singleton_self _

/-- The click is acknowledged, inserted and committed. -/
theorem drained_ids_click :
    ∃ s : Delivery Unit Unit Unit, Delivery.Reachable epochSetup s ∧
      (∀ k, (s.ingest k).producer.buffered = 0) ∧ s.broker.Drained ∧
      ∀ id, id ∈ s.broker.store.ids ↔ id = "e1" := by
  obtain ⟨s, hs, hreturned, hlost, hall⟩ := exists_reachable_click
  obtain ⟨s', hs', hempty, hdrained⟩ := hs.completes (by decide) hall
  refine ⟨s', hs.trans hs'.run, hempty, hdrained, fun id => ?_⟩
  rw [(drained_ids (hs.trans hs'.run) hempty hdrained).2.2.2 (fun k => (hs'.lost k).trans hlost) id]
  simp [IngestProcess.Accepted, hs'.returned, hreturned, epochClick, eq_comm]

/-- The buffered click can still be stored. -/
theorem delivery_completes_click :
    ∃ s s' : Delivery Unit Unit Unit, Delivery.Reachable epochSetup s ∧
      (∀ k e, (s.ingest k).Accepted e → epochSetup.Passes e) ∧
      Relation.ReflTransGen (Delivery.Step epochSetup) s s' ∧ s'.broker.Drained := by
  obtain ⟨s, hs, -, -, hall⟩ := exists_reachable_click
  obtain ⟨s', hrun, -, hdrained, -⟩ := delivery_completes (by decide) hs hall
  exact ⟨s, s', hs, hall, hrun, hdrained⟩

end Results

end Tally
