import Tally.Pipeline.Accounting
import Tally.Queue.Kafka

/-!
# The counters against the tables

The count of a report is that of the last attempt. When an attempt is committed and reports an error
all the same, as when the timeout fires during the commit, the rows it inserted are counted by no
report: the next attempt finds them stored, or there is none and the batch counts as dropped. As
long as an error means that the attempt was rolled back, the counters agree with the tables, in both
modes.

## Main definitions

* `KafkaProcess`, `KafkaProcess.Step`: a `Run` loop with its counters
* `Service.Agrees`: the counters of the memory mode agree with the tables

## Main results

* `Service.Step.agrees`, `KafkaProcess.Step.agrees`: a step with truthful errors keeps the agreement
* `metrics_agree_with_storage`: the counters agree in every run with truthful errors
-/

namespace Tally

/-! ## The Kafka mode -/

/-- A process whose `Run` loop is the one consumer, with its counters. -/
structure KafkaProcess (π : Type*) where
  broker : Broker Unit π
  metrics : Metrics

namespace KafkaProcess

variable {π : Type*} [DecidableEq π]

/-- The process when it starts, on a topic with any records. -/
def init (logs : π → List (List UInt8)) (st : Store) : KafkaProcess π :=
  ⟨.init Unit logs st, .zero⟩

/-- One step of the process. The outcomes an attempt to insert may have are a parameter. -/
inductive Step (c : Postgres) (unmarshal : List UInt8 → Option Event) (batchSize : ℕ)
    (may : Outcome → Prop) (s : KafkaProcess π) : KafkaProcess π → Prop
  /-- An attempt to insert returns: the flush is reported. -/
  | insertOk (recs : List (Record π)) (n k : ℕ) (st : Store)
      (inserting : (s.broker.consumers ()).loop = .inserting recs n)
      (attempt : Attempted c (decodeRecords unmarshal recs) s.broker.store (.ok k) st)
      (possible : may (.ok k)) :
      Step c unmarshal batchSize may s
        ⟨{ s.broker.setConsumer () ⟨(s.broker.consumers ()).pos, .committing recs⟩ with
            store := st }, s.metrics.onFlush (.ok (decodeRecords unmarshal recs) k)⟩
  /-- An attempt to insert fails, and the loop waits for the next one. -/
  | insertRetry (recs : List (Record π)) (n : ℕ) (o : Outcome) (st : Store)
      (inserting : (s.broker.consumers ()).loop = .inserting recs n)
      (attempt : Attempted c (decodeRecords unmarshal recs) s.broker.store o st)
      (possible : may o) (error : o.answer = none) :
      Step c unmarshal batchSize may s
        ⟨{ s.broker.setConsumer () ⟨(s.broker.consumers ()).pos, .inserting recs (n + 1)⟩ with
            store := st }, s.metrics⟩
  /-- Anything else, `InsertBatch` apart. A loop that waits for its next attempt may be cancelled,
  which nothing reports. -/
  | other (broker : Broker Unit π) (step : Broker.Step c unmarshal batchSize s.broker broker)
      (store : broker.store = s.broker.store)
      (inserting : ∀ recs n, (s.broker.consumers ()).loop = .inserting recs n →
        (broker.consumers ()).loop = .inserting recs n ∨ (broker.consumers ()).loop = .stopped) :
      Step c unmarshal batchSize may s ⟨broker, s.metrics⟩

/-- The states of the process. -/
def Reachable (c : Postgres) (unmarshal : List UInt8 → Option Event) (batchSize : ℕ)
    (may : Outcome → Prop) (logs : π → List (List UInt8)) (st : Store) (s : KafkaProcess π) :
    Prop :=
  Relation.ReflTransGen (Step c unmarshal batchSize may) (init logs st) s

variable {c : Postgres} {unmarshal : List UInt8 → Option Event} {batchSize : ℕ}
  {may : Outcome → Prop} {logs : π → List (List UInt8)} {st : Store} {s s' : KafkaProcess π}

/-- **A step of the process is a step of the consumer.** -/
theorem Step.broker (h : Step c unmarshal batchSize may s s') :
    Broker.Step c unmarshal batchSize s.broker s'.broker := by
  cases h with
  | insertOk recs n k st inserting attempt possible =>
    exact .insertOk () recs n k st inserting attempt.attempt
  | insertRetry recs n o st inserting attempt possible error =>
    exact .insertRetry () recs n st inserting (error ▸ attempt.attempt) trivial
  | other broker step store inserting => exact step

theorem Reachable.broker (h : Reachable c unmarshal batchSize may logs st s) :
    Broker.Reachable c unmarshal batchSize logs st s.broker := by
  induction h with
  | refl => exact .refl
  | tail _ hstep ih => exact ih.tail hstep.broker

/-- The counters agree with the tables: nothing is dropped in this mode. -/
structure Agrees (s : KafkaProcess π) : Prop where
  inserted : s.metrics.inserted = s.broker.store.events.length
  dropped : s.metrics.dropped = 0

/-- **A step with truthful errors keeps the agreement.** -/
theorem Step.agrees (h : Step c unmarshal batchSize Outcome.Truthful s s') (hs : s.Agrees) :
    s'.Agrees := by
  cases h with
  | insertOk recs n k st inserting attempt possible =>
    refine ⟨?_, hs.dropped⟩
    show s.metrics.inserted + (k : ℤ) = st.events.length
    rw [hs.inserted, attempt.length_events.1]
    rfl
  | insertRetry recs n o st inserting attempt possible error =>
    obtain rfl := attempt.eq_of_truthful error possible
    exact ⟨hs.inserted, hs.dropped⟩
  | other broker step store inserting => exact ⟨store ▸ hs.inserted, hs.dropped⟩

theorem Reachable.agrees
    (h : Reachable c unmarshal batchSize Outcome.Truthful logs .empty s) : s.Agrees := by
  induction h with
  | refl => exact ⟨rfl, rfl⟩
  | tail _ hstep ih => exact hstep.agrees ih

end KafkaProcess

/-! ## The memory mode -/

namespace Service

variable {p : Pool} {ι : Type*}

/-- The counters agree with the tables, and no attempt of a dropped batch was committed. -/
structure Agrees (s : Service p ι) : Prop where
  inserted : s.metrics.inserted = s.pipe.store.events.length
  dropped : s.metrics.dropped = ((s.drops.map fun d => d.1.length).sum : ℕ)
  notStored : ∀ d ∈ s.drops, ∀ o ∈ d.2, ¬ o.Commits
  attempts : ∀ j, ∀ o ∈ s.attempts j, ¬ o.Commits

theorem agrees_init (p : Pool) : (init p ι .empty).Agrees :=
  ⟨rfl, rfl, fun _ hd => absurd hd List.not_mem_nil, fun _ _ ho => absurd ho List.not_mem_nil⟩

/-- The agreement is about the tables, the counters of flushes and the attempts only. -/
theorem Agrees.congr {s s' : Service p ι} (h : s.Agrees)
    (hins : s'.metrics.inserted = s.metrics.inserted)
    (hdrop : s'.metrics.dropped = s.metrics.dropped) (hstore : s'.pipe.store = s.pipe.store)
    (hatt : s'.attempts = s.attempts) (hdrops : s'.drops = s.drops) : s'.Agrees :=
  ⟨by rw [hins, hstore, h.inserted], by rw [hdrop, hdrops, h.dropped], hdrops ▸ h.notStored,
    hatt ▸ h.attempts⟩

theorem Agrees.advance [DecidableEq ι] {s : Service p ι} (h : s.Agrees) (i : ι)
    (result : Option RejectLabel × Handler) : (s.advance i result).Agrees := by
  refine h.congr ?_ ?_ rfl rfl rfl
  all_goals
    rw [Service.advance]
    cases result.1 <;> rfl

/-- The attempts of a worker change; those of the others stay. -/
theorem Agrees.forall_update {s : Service p ι} (h : s.Agrees) {j : Fin p.workers}
    {outcomes : List Outcome} (hout : ∀ o ∈ outcomes, ¬ o.Commits) :
    ∀ i, ∀ o ∈ Function.update s.attempts j outcomes i, ¬ o.Commits :=
  (Function.forall_update_iff s.attempts fun _ outcomes => ∀ o ∈ outcomes, ¬ o.Commits).mpr
    ⟨hout, fun i _ => h.attempts i⟩

/-- The attempts of a flush up to one that failed and was rolled back. -/
theorem Agrees.snoc {s : Service p ι} (h : s.Agrees) {j : Fin p.workers} {o : Outcome}
    (ho : o.Truthful) (herr : o.answer = none) : ∀ o' ∈ s.attempts j ++ [o], ¬ o'.Commits := by
  intro o' ho'
  rcases List.mem_append.mp ho' with hold | hnew
  · exact h.attempts j o' hold
  · obtain rfl := List.mem_singleton.mp hnew
    exact Outcome.not_commits_of_truthful ho herr

variable [DecidableEq ι] {c : Postgres} {size : ℕ} {s s' : Service p ι}

/-- **A step with truthful errors keeps the agreement.** -/
theorem Step.agrees (h : Step c size Outcome.Truthful s s') (hs : s.Agrees) : s'.Agrees := by
  cases h with
  | http i now r allowed idle => exact hs.advance i _
  | grpc i now r allowed idle runs => exact hs.advance i _
  | next i now index rest resp handler => exact hs.advance i _
  | closed i door e next handler set => exact hs.advance i _
  | check i door e next handler unset runs => exact hs.congr rfl rfl rfl rfl rfl
  | sent i door e next pipe handler step call accepted =>
    exact hs.congr rfl rfl (step.of_accepted accepted).2 rfl rfl
  | full i door e next calls handler call isOpen noRoom =>
    exact (hs.advance i (some .queueFull, .idle)).congr rfl rfl rfl rfl rfl
  | panics i door e next calls handler call isClosed => exact hs.congr rfl rfl rfl rfl rfl
  | flushOk j batch n last k st worker attempt possible =>
    refine ⟨?_, hs.dropped, hs.notStored, hs.forall_update (by simp)⟩
    show s.metrics.inserted + (k : ℤ) = st.events.length
    rw [hs.inserted, attempt.length_events.1]
    rfl
  | flushRetry j batch n last o st worker attempt possible error again =>
    obtain rfl := attempt.eq_of_truthful error possible
    exact ⟨hs.inserted, hs.dropped, hs.notStored, hs.forall_update (hs.snoc possible error)⟩
  | flushDrop j batch n last o st worker attempt possible error stop =>
    obtain rfl := attempt.eq_of_truthful error possible
    refine ⟨hs.inserted, ?_, fun d hd => ?_, hs.forall_update (by simp)⟩
    · show s.metrics.dropped + (batch.length : ℤ) = _
      rw [hs.dropped, List.map_append, List.sum_append]
      simp
    · rcases List.mem_append.mp hd with hold | hnew
      · exact hs.notStored d hold
      · obtain rfl := List.mem_singleton.mp hnew
        exact hs.snoc possible error
  | internal pipe step calls accepted flushes store flushing quiet =>
    exact hs.congr rfl rfl store rfl rfl

theorem Reachable.agrees (h : Reachable c size Outcome.Truthful .empty s) : s.Agrees := by
  induction h with
  | refl => exact agrees_init p
  | tail _ hstep ih => exact hstep.agrees ih

end Service

/-- **The counters agree with the tables in every run in which an error of `InsertBatch` means that
it was rolled back.** Started on empty tables, with no other writer, in the memory mode and in the
Kafka mode: the counter of inserted events is the number of rows, and the events counted as dropped
are those of batches none of whose attempts was committed. -/
theorem metrics_agree_with_storage (c : Postgres) :
    (∀ (p : Pool) (ι : Type) [DecidableEq ι] (size : ℕ) (s : Service p ι),
      Service.Reachable c size Outcome.Truthful .empty s →
      s.metrics.inserted = s.pipe.store.events.length ∧
      s.metrics.dropped = ((s.drops.map fun d => d.1.length).sum : ℕ) ∧
      ∀ d ∈ s.drops, ∀ o ∈ d.2, ¬ o.Commits) ∧
    ∀ (π : Type) [DecidableEq π] (unmarshal : List UInt8 → Option Event) (batchSize : ℕ)
      (logs : π → List (List UInt8)) (s : KafkaProcess π),
      KafkaProcess.Reachable c unmarshal batchSize Outcome.Truthful logs .empty s →
      s.metrics.inserted = s.broker.store.events.length ∧ s.metrics.dropped = 0 := by
  constructor
  · intro p ι _ size s h
    exact ⟨h.agrees.inserted, h.agrees.dropped, h.agrees.notStored⟩
  · intro π _ unmarshal batchSize logs s h
    exact ⟨h.agrees.inserted, h.agrees.dropped⟩

/-- A click is stored by the first attempt, and counted. -/
theorem metrics_agree_one_click :
    ∃ s : Service (.new ⟨1, 2, 0⟩) Unit,
      Service.Reachable .bytewise 10 Outcome.Truthful .empty s ∧
      s.pipe.store.events.length = 1 ∧ s.metrics.inserted = 1 := by
  obtain ⟨s, j, hs, hflushing, -, hstore, -⟩ := exists_flushing_click Outcome.Truthful
  obtain ⟨st, n, hst⟩ :=
    exists_insertBatch_eq_ok (Batch.accepts_single takes_click _) allDecode_empty
  have hstored := hs.tail (.flushOk j [click] 1 false n st hflushing
    ⟨.single _ click, rfl, hstore ▸ hst⟩ trivial)
  have hrows : st.events.length = 1 := by
    rw [(insertBatch_eq_ok_iff.mp hst).2.1.events_eq]
    rfl
  refine ⟨_, hstored, hrows, ?_⟩
  have hagree := ((metrics_agree_with_storage .bytewise).1 _ _ _ _ hstored).1
  rw [hagree]
  exact_mod_cast hrows

/-- A click is stored by an attempt that times out, and counted as a duplicate by the next one: a
row is stored, no flush is in progress, and no event is counted as inserted. -/
theorem inserted_misses_lost_ack :
    ∃ s : Service (.new ⟨1, 2, 0⟩) Unit,
      Service.Reachable .bytewise 10 (fun _ => True) .empty s ∧
      (∀ j, s.pipe.workers j = .waiting []) ∧
      s.pipe.store.events.length = 1 ∧ s.metrics.inserted = 0 := by
  obtain ⟨s, j, hs, hflushing, -, hstore, hins⟩ := exists_flushing_click fun _ => True
  obtain ⟨st, n, hst⟩ :=
    exists_insertBatch_eq_ok (Batch.accepts_single takes_click _) allDecode_empty
  have hagain : insertBatch .bytewise st (Batch.single .bytewise click).events
      (Batch.single .bytewise click).order = .ok (st, 0) :=
    insertBatch_absorbed hst (show insertBatches .bytewise st [] = .ok (st, 0) from rfl)
      fun _ he => he
  have hlost := hs.tail (.flushRetry j [click] 1 false (.lostAck n) st hflushing
    ⟨.single _ click, rfl, hstore ▸ hst⟩ trivial rfl (show 1 < 3 by decide))
  have hreported := hlost.tail (.flushOk j [click] 2 false 0 st (Function.update_self _ _ _)
    ⟨.single _ click, rfl, hagain⟩ trivial)
  refine ⟨_, hreported, fun i => ?_, ?_, ?_⟩
  · obtain rfl : i = j := Subsingleton.elim (α := Fin 1) i j
    exact Function.update_self _ _ _
  · show st.events.length = 1
    rw [(insertBatch_eq_ok_iff.mp hst).2.1.events_eq]
    rfl
  · show s.metrics.inserted + 0 = 0
    rw [hins, add_zero]

end Tally
