import Mathlib.Logic.Relation
import Tally.Worker.Retry

/-!
# Kafka consumers

Any number of `KafkaConsumer.Run` loops in one consumer group. A loop polls records, inserts their
events until an attempt succeeds, and only then commits the offsets. Records are any bytes; those
`json.Unmarshal` refuses are skipped, and which ones those are is a parameter. Of the broker and
its client only this is used: a poll returns consecutive records of a partition from the
consumer's position on, an assigned partition starts at its committed offset, and `CommitRecords`
commits one past the highest offset given of each partition. Positions and assignments may change
at any moment, so a consumer may insert and commit records of a partition it has lost.

## Main definitions

* `Record`, `fetched`: the records a poll returns of a partition
* `Loop`, `Consumer`: a `Run` loop and its client's positions
* `Broker`: the partitions, the committed offsets, the consumers and the tables
* `Broker.Step`, `Broker.Reachable`: the interleavings, with crashes at any point
-/

namespace Tally

/-- A record of a partition, with its offset. -/
structure Record (π : Type*) where
  partition : π
  offset : ℕ
  value : List UInt8

/-- The `n` records of a partition from offset `q` on. -/
def fetched {π : Type*} (log : List (List UInt8)) (partition : π) (q n : ℕ) : List (Record π) :=
  (((log.drop q).take n).zipIdx q).map fun (value, offset) => ⟨partition, offset, value⟩

/-- Where a `Run` loop is: returned or killed; polling; at an attempt to insert the events of the
records polled; about to commit them. -/
inductive Loop (π : Type*) where
  | stopped
  | polling
  | inserting (recs : List (Record π)) (attempt : ℕ)
  | committing (recs : List (Record π))

/-- A loop and the positions of its client, `none` for a partition not assigned to it. -/
structure Consumer (π : Type*) where
  pos : π → Option ℕ
  loop : Loop π

/-- The topic's partitions, the offsets the group has committed, the consumers and the tables. -/
structure Broker (ι π : Type*) where
  logs : π → List (List UInt8)
  committed : π → ℕ
  consumers : ι → Consumer π
  store : Store

/-- The events of the records that decode. -/
def decodeRecords {π : Type*} (unmarshal : List UInt8 → Option Event) (recs : List (Record π)) :
    List Event := recs.filterMap fun r => unmarshal r.value

/-- The highest offset of a partition among the records. -/
def highest {π : Type*} [DecidableEq π] (recs : List (Record π)) (p : π) : Option ℕ :=
  ((recs.filter fun r => r.partition = p).map Record.offset).max?

namespace Broker

variable {ι π : Type*} [DecidableEq ι] [DecidableEq π]

/-- Topics with any records, consumers not yet started, and nothing committed. -/
def init (ι : Type*) (logs : π → List (List UInt8)) (st : Store) : Broker ι π :=
  ⟨logs, fun _ => 0, fun _ => ⟨fun _ => none, .stopped⟩, st⟩

def setConsumer (s : Broker ι π) (i : ι) (k : Consumer π) : Broker ι π :=
  { s with consumers := Function.update s.consumers i k }

/-- The records of a poll that takes `n` records of each listed partition. -/
def polled (s : Broker ι π) (i : ι) (takes : List (π × ℕ)) : List (Record π) :=
  takes.flatMap fun (p, n) =>
    match (s.consumers i).pos p with
    | none => []
    | some q => fetched (s.logs p) p q n

/-- The positions after such a poll. -/
def advancePos (pos : π → Option ℕ) (takes : List (π × ℕ)) (p : π) : Option ℕ :=
  (pos p).map fun q => q + (takes.lookup p).getD 0

/-- The offsets after `CommitRecords`, where the commit of a partition takes effect or not. -/
def commitRecords (committed : π → ℕ) (recs : List (Record π)) (effective : π → Bool) (p : π) : ℕ :=
  match highest recs p with
  | none => committed p
  | some offset => if effective p then offset + 1 else committed p

/-- One step of the system. -/
inductive Step (c : Postgres) (unmarshal : List UInt8 → Option Event) (batchSize : ℕ)
    (s : Broker ι π) : Broker ι π → Prop
  /-- A record is produced. -/
  | produce (p : π) (value : List UInt8) :
      Step c unmarshal batchSize s
        { s with logs := Function.update s.logs p (s.logs p ++ [value]) }
  /-- `PollRecords` returns records. -/
  | poll (i : ι) (takes : List (π × ℕ)) (polling : (s.consumers i).loop = .polling)
      (distinct : (takes.map Prod.fst).Nodup)
      (available : ∀ t ∈ takes, ∃ q, (s.consumers i).pos t.1 = some q ∧
        q + t.2 ≤ (s.logs t.1).length)
      (bounded : (s.polled i takes).length ≤ batchSize) (some_records : s.polled i takes ≠ []) :
      Step c unmarshal batchSize s (s.setConsumer i
        ⟨advancePos (s.consumers i).pos takes, .inserting (s.polled i takes) 1⟩)
  /-- An attempt to insert succeeds. -/
  | insertOk (i : ι) (recs : List (Record π)) (n k : ℕ) (st : Store)
      (inserting : (s.consumers i).loop = .inserting recs n)
      (attempt : Attempt c (decodeRecords unmarshal recs) s.store (some k) st) :
      Step c unmarshal batchSize s
        { s.setConsumer i ⟨(s.consumers i).pos, .committing recs⟩ with store := st }
  /-- An attempt to insert fails, rolled back or not, and the loop tries again. -/
  | insertRetry (i : ι) (recs : List (Record π)) (n : ℕ) (st : Store)
      (inserting : (s.consumers i).loop = .inserting recs n)
      (attempt : Attempt c (decodeRecords unmarshal recs) s.store none st)
      (again : Policy.run.retry n) :
      Step c unmarshal batchSize s
        { s.setConsumer i ⟨(s.consumers i).pos, .inserting recs (n + 1)⟩ with store := st }
  /-- The offsets are committed; where this fails they stay, and the loop polls again. -/
  | commit (i : ι) (recs : List (Record π)) (effective : π → Bool)
      (committing : (s.consumers i).loop = .committing recs) :
      Step c unmarshal batchSize s
        { s.setConsumer i ⟨(s.consumers i).pos, .polling⟩ with
          committed := commitRecords s.committed recs effective }
  /-- A loop returns on a cancelled context, or its process is killed. -/
  | stop (i : ι) : Step c unmarshal batchSize s (s.setConsumer i ⟨fun _ => none, .stopped⟩)
  /-- A loop is started, with nothing assigned. -/
  | start (i : ι) (stopped : (s.consumers i).loop = .stopped) :
      Step c unmarshal batchSize s (s.setConsumer i ⟨fun _ => none, .polling⟩)
  /-- A partition is assigned to a consumer, from its committed offset on. -/
  | assign (i : ι) (p : π) :
      Step c unmarshal batchSize s (s.setConsumer i
        ⟨Function.update (s.consumers i).pos p (some (s.committed p)), (s.consumers i).loop⟩)
  /-- A partition is taken from a consumer. -/
  | revoke (i : ι) (p : π) :
      Step c unmarshal batchSize s (s.setConsumer i
        ⟨Function.update (s.consumers i).pos p none, (s.consumers i).loop⟩)

/-- The states reached from the given partitions and tables. -/
def Reachable (c : Postgres) (unmarshal : List UInt8 → Option Event) (batchSize : ℕ)
    (logs : π → List (List UInt8)) (st : Store) (s : Broker ι π) : Prop :=
  Relation.ReflTransGen (Step c unmarshal batchSize) (init ι logs st) s

end Broker

end Tally
