import Mathlib.Data.Fintype.Sets
import Mathlib.Data.Finite.Defs
import Tally.Ingest.Storable
import Tally.Queue.CrashSafety
import Tally.Worker.Fed

/-!
# Draining the topic

When the committed offsets have reached the ends of the partitions, the tables hold the topic: the
ids of its events, and where an id determines its event, exactly the tables that any other run of
`InsertBatch` on the topic's events leaves. Crashes, redeliveries, lost answers and rebalances on
the way leave no trace.

The way there may be blocked. A record whose event Postgres refuses, one with a U+0000 for one, is
decoded, and fails every batch it is in, so no consumer gets past it: the batch is tried until the
consumer stops, and the next one starts at the committed offset again. A row that no index takes
blocks the way as well, unless it is skipped as a duplicate.

## Main definitions

* `OnTopic`: the event of a record on the topic
* `Broker.Drained`: every offset is committed
* `refusedRecord`, `limit`: a record that fails its batch, and the records before the first one
* `Consumer.Below`, `Broker.Below`: no consumer gets past the limits

## Main results

* `Broker.Reachable.fed`: the tables are fed the events before the limits
* `Broker.Below.reaches`, `Broker.Below.drains`: the limits can be reached from every state
* `drained_tables`: the tables at the end
* `refused_record_stops_partition`: a record that fails its batch stops its partition
* `drainable_iff`: the topic can be drained exactly when Postgres takes its events
-/

namespace Tally

variable {ι π : Type*} {c : Postgres} {unmarshal : List UInt8 → Option Event}

/-! ## The topic -/

/-- The event of a record on the topic. -/
def OnTopic (unmarshal : List UInt8 → Option Event) (logs : π → List (List UInt8)) (e : Event) :
    Prop := ∃ p, ∃ value ∈ logs p, unmarshal value = some e

/-- Every offset is committed. -/
def Broker.Drained (s : Broker ι π) : Prop := ∀ p, s.committed p = (s.logs p).length

/-- The record decodes, and Postgres refuses its event. -/
def refusedRecord (c : Postgres) (unmarshal : List UInt8 → Option Event) (value : List UInt8) :
    Bool := (unmarshal value).any c.refuses

/-- The number of records before the first that fails its batch. -/
def limit (c : Postgres) (unmarshal : List UInt8 → Option Event) (log : List (List UInt8)) : ℕ :=
  log.findIdx (refusedRecord c unmarshal)

/-- The event of a record before the limit of its partition. -/
def BeforeLimit (c : Postgres) (unmarshal : List UInt8 → Option Event)
    (logs : π → List (List UInt8)) (e : Event) : Prop :=
  ∃ p o value, o < limit c unmarshal (logs p) ∧ (logs p)[o]? = some value ∧ unmarshal value = some e

theorem refusedRecord_eq_false_iff {value : List UInt8} :
    refusedRecord c unmarshal value = false ↔
      ∀ e, unmarshal value = some e → c.refuses e = false := by
  unfold refusedRecord
  cases unmarshal value with
  | none => simp
  | some e => simp

theorem limit_le_length (c : Postgres) (unmarshal : List UInt8 → Option Event)
    (log : List (List UInt8)) : limit c unmarshal log ≤ log.length := List.findIdx_le_length

theorem limit_le_of_refused {log : List (List UInt8)} {o : ℕ} {value : List UInt8}
    (hvalue : log[o]? = some value) (href : refusedRecord c unmarshal value = true) :
    limit c unmarshal log ≤ o := by
  obtain ⟨hlt, rfl⟩ := List.getElem?_eq_some_iff.mp hvalue
  by_contra hle
  have hnot := List.not_of_lt_findIdx (not_le.mp hle)
  rw [href] at hnot
  cases hnot

/-- The record at the limit, if there is one, fails its batch. -/
theorem refusedRecord_limit {log : List (List UInt8)} {value : List UInt8}
    (hvalue : log[limit c unmarshal log]? = some value) :
    refusedRecord c unmarshal value = true := by
  obtain ⟨hlt, rfl⟩ := List.getElem?_eq_some_iff.mp hvalue
  exact List.findIdx_getElem

theorem refuses_eq_false_of_lt_limit {log : List (List UInt8)} {o : ℕ} {value : List UInt8}
    {e : Event} (ho : o < limit c unmarshal log) (hvalue : log[o]? = some value)
    (he : unmarshal value = some e) : c.refuses e = false := by
  have hfree : refusedRecord c unmarshal value = false := by
    by_contra href
    have hle := limit_le_of_refused hvalue (eq_true_of_ne_false href)
    omega
  exact refusedRecord_eq_false_iff.mp hfree e he

/-- A topic that grows at its end keeps its limit, or moves it on. -/
theorem limit_mono {log log' : List (List UInt8)} (h : log <+: log') :
    limit c unmarshal log ≤ limit c unmarshal log' := by
  obtain ⟨more, rfl⟩ := h
  unfold limit
  rw [List.findIdx_append]
  split_ifs with hfound
  · exact le_refl _
  · exact List.findIdx_le_length.trans (Nat.le_add_left _ _)

theorem limit_eq_length_iff {log : List (List UInt8)} :
    limit c unmarshal log = log.length ↔ ∀ value ∈ log, refusedRecord c unmarshal value = false :=
  List.findIdx_eq_length

theorem BeforeLimit.mono {logs logs' : π → List (List UInt8)} (hlogs : ∀ p, logs p <+: logs' p)
    {e : Event} (h : BeforeLimit c unmarshal logs e) : BeforeLimit c unmarshal logs' e := by
  obtain ⟨p, o, value, ho, hvalue, he⟩ := h
  exact ⟨p, o, value, lt_of_lt_of_le ho (limit_mono (hlogs p)),
    getElem?_eq_of_grows (hlogs p) hvalue, he⟩

theorem BeforeLimit.onTopic {logs : π → List (List UInt8)} {e : Event}
    (h : BeforeLimit c unmarshal logs e) : OnTopic unmarshal logs e := by
  obtain ⟨p, o, value, -, hvalue, he⟩ := h
  exact ⟨p, value, List.mem_of_getElem? hvalue, he⟩

/-! ## No consumer gets past the limits -/

/-- A record that fails its batch is among those being inserted. -/
def Consumer.Wedged (c : Postgres) (unmarshal : List UInt8 → Option Event) (k : Consumer π) :
    Prop :=
  match k.loop with
  | .inserting recs _ => ∃ r ∈ recs, refusedRecord c unmarshal r.value = true
  | _ => False

/-- A consumer that is not wedged is before the limits, and so are the records it works on. -/
structure Consumer.Below (c : Postgres) (unmarshal : List UInt8 → Option Event)
    (logs : π → List (List UInt8)) (k : Consumer π) : Prop where
  pos : ∀ p q, k.pos p = some q → k.Wedged c unmarshal ∨ q ≤ limit c unmarshal (logs p)
  inserting : ∀ recs n, k.loop = .inserting recs n → ∀ r ∈ recs,
    k.Wedged c unmarshal ∨ (logs r.partition)[r.offset]? = some r.value ∧
      r.offset < limit c unmarshal (logs r.partition)
  committing : ∀ recs, k.loop = .committing recs → ∀ r ∈ recs,
    r.offset < limit c unmarshal (logs r.partition)

namespace Consumer

variable {logs logs' : π → List (List UInt8)} {k : Consumer π}

theorem Below.mono (h : k.Below c unmarshal logs) (hlogs : ∀ p, logs p <+: logs' p) :
    k.Below c unmarshal logs' where
  pos p q hq := (h.pos p q hq).imp id fun hle => hle.trans (limit_mono (hlogs p))
  inserting recs n hl r hr := (h.inserting recs n hl r hr).imp id fun hbelow =>
    ⟨getElem?_eq_of_grows (hlogs _) hbelow.1, lt_of_lt_of_le hbelow.2 (limit_mono (hlogs _))⟩
  committing recs hl r hr :=
    lt_of_lt_of_le (h.committing recs hl r hr) (limit_mono (hlogs r.partition))

theorem below_idle (c : Postgres) (unmarshal : List UInt8 → Option Event)
    (logs : π → List (List UInt8)) {loop : Loop π} (hloop : loop = .stopped ∨ loop = .polling) :
    Consumer.Below c unmarshal logs ⟨fun _ => none, loop⟩ where
  pos p q hq := by cases hq
  inserting recs n hl := by rcases hloop with rfl | rfl <;> cases hl
  committing recs hl := by rcases hloop with rfl | rfl <;> cases hl

/-- A consumer whose records Postgres does not refuse is not wedged. -/
theorem Below.of_inserting (h : k.Below c unmarshal logs) {recs : List (Record π)} {n : ℕ}
    (hloop : k.loop = .inserting recs n)
    (href : ∀ e ∈ decodeRecords unmarshal recs, c.refuses e = false) :
    (∀ p q, k.pos p = some q → q ≤ limit c unmarshal (logs p)) ∧
      ∀ r ∈ recs, (logs r.partition)[r.offset]? = some r.value ∧
        r.offset < limit c unmarshal (logs r.partition) := by
  have hfree : ¬ k.Wedged c unmarshal := by
    simp only [Wedged, hloop]
    rintro ⟨r, hr, htrue⟩
    have hfalse : refusedRecord c unmarshal r.value = false :=
      refusedRecord_eq_false_iff.mpr fun e he => href e (List.mem_filterMap.mpr ⟨r, hr, he⟩)
    rw [hfalse] at htrue
    cases htrue
  exact ⟨fun p q hq => (h.pos p q hq).resolve_left hfree,
    fun r hr => (h.inserting recs n hloop r hr).resolve_left hfree⟩

theorem Below.reassign [DecidableEq π] (h : k.Below c unmarshal logs) {p : π} {pos : Option ℕ}
    (hpos : ∀ q, pos = some q → q ≤ limit c unmarshal (logs p)) :
    Consumer.Below c unmarshal logs ⟨Function.update k.pos p pos, k.loop⟩ := by
  refine ⟨fun p' q hq => ?_, h.inserting, h.committing⟩
  dsimp only at hq
  by_cases hp : p' = p
  · subst hp
    rw [Function.update_self] at hq
    exact .inr (hpos q hq)
  · rw [Function.update_of_ne hp] at hq
    exact h.pos p' q hq

end Consumer

namespace Broker

variable {batchSize : ℕ} {logs : π → List (List UInt8)} {st : Store} {s s' : Broker ι π}

/-- **No offset past a limit is committed or about to be.** -/
structure Below (c : Postgres) (unmarshal : List UInt8 → Option Event) (s : Broker ι π) : Prop where
  committed : ∀ p, s.committed p ≤ limit c unmarshal (s.logs p)
  consumers : ∀ i, (s.consumers i).Below c unmarshal s.logs

theorem below_init (ι : Type*) (c : Postgres) (unmarshal : List UInt8 → Option Event)
    (logs : π → List (List UInt8)) (st : Store) : (init ι logs st).Below c unmarshal where
  committed _ := Nat.zero_le _
  consumers _ := Consumer.below_idle _ _ _ (.inl rfl)

/-- One consumer changes. -/
theorem Below.setConsumer [DecidableEq ι] (h : s.Below c unmarshal) {i : ι} {k : Consumer π}
    {st : Store} {committed : π → ℕ}
    (hcommitted : ∀ p, committed p ≤ limit c unmarshal (s.logs p))
    (hk : k.Below c unmarshal s.logs) :
    Below c unmarshal { s.setConsumer i k with store := st, committed := committed } where
  committed := hcommitted
  consumers := (Function.forall_update_iff s.consumers fun _ k =>
    k.Below c unmarshal s.logs).mpr ⟨hk, fun j _ => h.consumers j⟩

/-- A poll that gets past a limit has taken the record at it, which fails the batch. -/
theorem below_poll [DecidableEq π] {i : ι} {takes : List (π × ℕ)}
    (h : (s.consumers i).Below c unmarshal s.logs) (polling : (s.consumers i).loop = .polling)
    (available : ∀ t ∈ takes, ∃ q, (s.consumers i).pos t.1 = some q ∧
      q + t.2 ≤ (s.logs t.1).length) :
    Consumer.Below c unmarshal s.logs
      ⟨advancePos (s.consumers i).pos takes, .inserting (s.polled i takes) 1⟩ := by
  have hold : ∀ p q, (s.consumers i).pos p = some q → q ≤ limit c unmarshal (s.logs p) := by
    intro p q hq
    refine (h.pos p q hq).resolve_left fun hw => ?_
    simp [Consumer.Wedged, polling] at hw
  have hpast : ∀ p n q, (p, n) ∈ takes → (s.consumers i).pos p = some q →
      limit c unmarshal (s.logs p) < q + n → ∃ r ∈ s.polled i takes,
        refusedRecord c unmarshal r.value = true := by
    intro p n q ht hq hlt
    obtain ⟨q', hq', hlen⟩ := available (p, n) ht
    obtain rfl : q' = q := Option.some.inj (hq'.symm.trans hq)
    dsimp only at hlen
    have hget : (s.logs p)[limit c unmarshal (s.logs p)]? =
        some (s.logs p)[limit c unmarshal (s.logs p)] := List.getElem?_eq_getElem (by omega)
    exact ⟨⟨p, _, _⟩, mem_polled.mpr ⟨n, q', ht, hq, hold p q' hq, hlt, hget⟩,
      refusedRecord_limit hget⟩
  refine ⟨fun p q' hq' => ?_, fun recs n hl r hr => ?_, fun recs hl => by cases hl⟩
  · obtain ⟨q, hq, rfl⟩ := Option.map_eq_some_iff.mp hq'
    by_cases hle : q + (takes.lookup p).getD 0 ≤ limit c unmarshal (s.logs p)
    · exact .inr hle
    · cases ht : takes.lookup p with
      | none =>
        rw [ht, Option.getD_none] at hle
        exact absurd (hold p q hq) hle
      | some n =>
        rw [ht, Option.getD_some] at hle
        obtain ⟨l₁, l₂, htakes, -⟩ := List.lookup_eq_some_iff.mp ht
        exact .inl (hpast p n q (by simp [htakes]) hq (not_le.mp hle))
  · cases hl
    obtain ⟨n, q, ht, hq, -, hlt, hget⟩ := mem_polled.mp hr
    by_cases hoff : r.offset < limit c unmarshal (s.logs r.partition)
    · exact .inr ⟨hget, hoff⟩
    · exact .inl (hpast _ n q ht hq (by omega))

section Steps

variable [DecidableEq ι] [DecidableEq π]

/-- Records stay where they are. -/
theorem Step.logs_grow (hstep : Step c unmarshal batchSize s s') (p : π) :
    s.logs p <+: s'.logs p := by
  cases hstep with
  | produce p' value =>
    exact (Function.forall_update_iff s.logs fun p log => s.logs p <+: log).mpr
      ⟨List.prefix_append _ _, fun _ _ => List.prefix_rfl⟩ p
  | _ => exact List.prefix_rfl

theorem logs_grow (h : Relation.ReflTransGen (Step c unmarshal batchSize) s s') (p : π) :
    s.logs p <+: s'.logs p := by
  induction h with
  | refl => exact List.prefix_rfl
  | tail _ hstep ih => exact ih.trans (hstep.logs_grow p)

/-- **Every step keeps the consumers before the limits.** -/
theorem Step.below (hstep : Step c unmarshal batchSize s s') (h : s.Below c unmarshal) :
    s'.Below c unmarshal := by
  have hgrow := hstep.logs_grow
  cases hstep with
  | produce p value =>
    exact ⟨fun p' => (h.committed p').trans (limit_mono (hgrow p')),
      fun i => (h.consumers i).mono hgrow⟩
  | poll i takes polling distinct available bounded some_records =>
    exact h.setConsumer h.committed (below_poll (h.consumers i) polling available)
  | insertOk i recs n k st inserting attempt =>
    have href : ∀ e ∈ decodeRecords unmarshal recs, c.refuses e = false := by
      cases attempt with
      | ok own hown effect =>
        rw [← hown]
        exact (insertBatch_eq_ok_iff.mp effect).1.events
    obtain ⟨hpos, hrecs⟩ := (h.consumers i).of_inserting inserting href
    refine h.setConsumer h.committed ⟨fun p q hq => .inr (hpos p q hq), fun _ _ hl => ?_,
      fun _ hl r hr => ?_⟩
    · cases hl
    · cases hl
      exact (hrecs r hr).2
  | insertRetry i recs n st inserting attempt again =>
    have hk := h.consumers i
    refine h.setConsumer h.committed ⟨fun p q hq => ?_, fun _ _ hl r hr => ?_,
      fun _ hl => by cases hl⟩
    · simpa only [Consumer.Wedged, inserting] using hk.pos p q hq
    · cases hl
      simpa only [Consumer.Wedged, inserting] using hk.inserting recs n inserting r hr
  | commit i recs effective committing =>
    have hk := h.consumers i
    refine h.setConsumer (fun p => ?_) ⟨fun p q hq => ?_, fun _ _ hl => (by cases hl),
      fun _ hl => by cases hl⟩
    · unfold commitRecords
      split
      · exact h.committed p
      · rename_i offset hhigh
        split_ifs
        · obtain ⟨r, hr, rfl, rfl⟩ := highest_eq_some hhigh
          exact hk.committing recs committing r hr
        · exact h.committed p
    · simpa only [Consumer.Wedged, committing] using hk.pos p q hq
  | stop i => exact h.setConsumer h.committed (Consumer.below_idle _ _ _ (.inl rfl))
  | start i stopped => exact h.setConsumer h.committed (Consumer.below_idle _ _ _ (.inr rfl))
  | assign i p =>
    refine h.setConsumer h.committed ((h.consumers i).reassign fun q hq => ?_)
    obtain rfl := Option.some.inj hq
    exact h.committed p
  | revoke i p => exact h.setConsumer h.committed ((h.consumers i).reassign fun q hq => by cases hq)

/-- **A step feeds the tables events before the limits only.** -/
theorem Step.fed (hstep : Step c unmarshal batchSize s s') (h : s.Below c unmarshal) :
    Fed c (BeforeLimit c unmarshal s.logs) s.store s'.store := by
  have hrecs : ∀ i recs n, (s.consumers i).loop = .inserting recs n →
      (∀ e ∈ decodeRecords unmarshal recs, c.refuses e = false) →
      ∀ e ∈ decodeRecords unmarshal recs, BeforeLimit c unmarshal s.logs e := by
    intro i recs n inserting href e he
    obtain ⟨r, hr, hre⟩ := List.mem_filterMap.mp he
    obtain ⟨hget, hlt⟩ := ((h.consumers i).of_inserting inserting href).2 r hr
    exact ⟨r.partition, r.offset, r.value, hlt, hget, hre⟩
  cases hstep with
  | insertOk i recs n k st inserting attempt => exact attempt.fed (hrecs i recs n inserting)
  | insertRetry i recs n st inserting attempt again => exact attempt.fed (hrecs i recs n inserting)
  | _ => exact .refl c _ _

theorem Reachable.below (h : Reachable c unmarshal batchSize logs st s) : s.Below c unmarshal := by
  induction h with
  | refl => exact below_init ι c unmarshal logs st
  | tail _ hstep ih => exact hstep.below ih

/-- **The tables are fed the events before the limits.** -/
theorem Reachable.fed (h : Reachable c unmarshal batchSize logs st s) :
    Fed c (BeforeLimit c unmarshal s.logs) st s.store := by
  induction h with
  | refl => exact .refl c _ st
  | tail hreach hstep ih =>
    have hgrow : ∀ e, BeforeLimit c unmarshal _ e → BeforeLimit c unmarshal _ e :=
      fun e => BeforeLimit.mono hstep.logs_grow
    exact (ih.mono hgrow).trans ((hstep.fed (Reachable.below hreach)).mono hgrow)

/-- In a drained topic every event is stored. -/
theorem Reachable.mem_ids_of_drained (h : Reachable c unmarshal batchSize logs st s)
    (hst : st.Sound) (hdrained : s.Drained) {e : Event} (he : OnTopic unmarshal s.logs e) :
    e.eventId ∈ s.store.ids := by
  obtain ⟨p, value, hvalue, he⟩ := he
  obtain ⟨o, ho, rfl⟩ := List.mem_iff_getElem.mp hvalue
  obtain ⟨value', hget, hstored⟩ := (h.inv hst).committed p o (by rw [hdrained p]; exact ho)
  rw [List.getElem?_eq_getElem ho] at hget
  obtain rfl := Option.some.inj hget
  exact hstored e he

/-! ## The limits can be reached -/

/-- The group gets from `s` to `s'` while nothing is produced, and the sketches stay readable. -/
structure Advances (c : Postgres) (unmarshal : List UInt8 → Option Event) (batchSize : ℕ)
    (s s' : Broker ι π) : Prop where
  run : Relation.ReflTransGen (Step c unmarshal batchSize) s s'
  logs : s'.logs = s.logs
  decode : AllDecode s.store.uniques → AllDecode s'.store.uniques

theorem Advances.refl (s : Broker ι π) : Advances c unmarshal batchSize s s := ⟨.refl, rfl, id⟩

theorem Advances.trans {s'' : Broker ι π} (h : Advances c unmarshal batchSize s s')
    (h' : Advances c unmarshal batchSize s' s'') : Advances c unmarshal batchSize s s'' :=
  ⟨h.run.trans h'.run, h'.logs.trans h.logs, h'.decode ∘ h.decode⟩

omit [DecidableEq π] in
theorem setConsumer_setConsumer (s : Broker ι π) (i : ι) (k k' : Consumer π) :
    (s.setConsumer i k).setConsumer i k' = s.setConsumer i k' := by
  simp only [setConsumer, Function.update_idem]

omit [DecidableEq π] in
theorem setConsumer_self (s : Broker ι π) (i : ι) (k : Consumer π) :
    (s.setConsumer i k).consumers i = k := Function.update_self ..

/-- A consumer with one partition, from its committed offset on, after a restart. -/
def resumed (s : Broker ι π) (i : ι) (p : π) (loop : Loop π) : Broker ι π :=
  s.setConsumer i ⟨Function.update (fun _ => none) p (some (s.committed p)), loop⟩

/-- A restart, from any state. -/
theorem reaches_resumed (c : Postgres) (unmarshal : List UInt8 → Option Event) (batchSize : ℕ)
    (s : Broker ι π) (i : ι) (p : π) :
    Relation.ReflTransGen (Step c unmarshal batchSize) s (s.resumed i p .polling) := by
  have hstop : Step c unmarshal batchSize s (s.setConsumer i ⟨fun _ => none, .stopped⟩) := .stop i
  have hstart : Step c unmarshal batchSize (s.setConsumer i ⟨fun _ => none, .stopped⟩) _ :=
    .start i (by rw [setConsumer_self])
  rw [setConsumer_setConsumer] at hstart
  have hassign : Step c unmarshal batchSize (s.setConsumer i ⟨fun _ => none, .polling⟩) _ :=
    .assign i p
  rw [setConsumer_setConsumer, setConsumer_self] at hassign
  exact ((Relation.ReflTransGen.single hstop).tail hstart).tail hassign

omit [DecidableEq ι] [DecidableEq π] in
/-- A poll of the next record of a partition. -/
theorem polled_one {i : ι} {p : π} {q : ℕ} (hq : (s.consumers i).pos p = some q)
    (hlt : q < (s.logs p).length) : s.polled i [(p, 1)] = [⟨p, q, (s.logs p)[q]⟩] := by
  have hdrop : ((s.logs p).drop q).take 1 = [(s.logs p)[q]] :=
    List.take_one_drop_eq_of_lt_length hlt
  simp [polled, hq, fetched, hdrop]

/-- **The next record of a partition**, if it does not fail its batch, is inserted and committed by
a consumer that is restarted for it. -/
theorem exists_commit_next (hbatch : 1 ≤ batchSize) (i : ι) {p : π}
    (hrows : ∀ e, OnTopic unmarshal s.logs e → c.refusesRow e.toRow = false)
    (hdec : AllDecode s.store.uniques) (hlt : s.committed p < limit c unmarshal (s.logs p)) :
    ∃ s', Advances c unmarshal batchSize s s' ∧
      s'.committed = Function.update s.committed p (s.committed p + 1) := by
  have hlen := lt_of_lt_of_le hlt (limit_le_length c unmarshal (s.logs p))
  let r : Record π := ⟨p, s.committed p, (s.logs p)[s.committed p]⟩
  have hget : (s.logs p)[s.committed p]? = some r.value := List.getElem?_eq_getElem hlen
  have hpolled : (s.resumed i p .polling).polled i [(p, 1)] = [r] :=
    polled_one (s := s.resumed i p .polling) (by simp [resumed, setConsumer_self]) hlen
  let pos := advancePos ((s.resumed i p .polling).consumers i).pos [(p, 1)]
  have hpoll : Step c unmarshal batchSize (s.resumed i p .polling) _ :=
    .poll i [(p, 1)] (by rw [resumed, setConsumer_self]) (by simp) (fun t ht => by
      obtain rfl := List.mem_singleton.mp ht
      exact ⟨s.committed p, by simp [resumed, setConsumer_self], hlen⟩)
    (by rw [hpolled]; exact hbatch) (by rw [hpolled]; exact List.cons_ne_nil _ _)
  rw [hpolled, resumed, setConsumer_setConsumer] at hpoll
  have htakes : ∀ e ∈ (Batch.ofEvents c (decodeRecords unmarshal [r])).events, c.Takes e := by
    intro e he
    obtain ⟨r', hr', hre⟩ := List.mem_filterMap.mp he
    obtain rfl := List.mem_singleton.mp hr'
    exact ⟨refuses_eq_false_of_lt_limit hlt hget hre,
      hrows e ⟨p, r.value, List.mem_of_getElem? hget, hre⟩⟩
  obtain ⟨st, n, hst⟩ := exists_insertBatch_eq_ok (Batch.accepts htakes s.store) hdec
  have hinsert : Step c unmarshal batchSize (s.setConsumer i ⟨pos, .inserting [r] 1⟩) _ :=
    .insertOk i [r] 1 n st (by rw [setConsumer_self]) (.ok _ rfl hst)
  rw [setConsumer_setConsumer, setConsumer_self] at hinsert
  have hcommit : Step c unmarshal batchSize
      { s.setConsumer i ⟨pos, .committing [r]⟩ with store := st } _ :=
    .commit i [r] (fun _ => true) (congrArg Consumer.loop (setConsumer_self s i _))
  have hresumed := reaches_resumed c unmarshal batchSize s i p
  refine ⟨_, ⟨((hresumed.tail hpoll).tail hinsert).tail hcommit, rfl,
    (insertBatch_eq_ok_iff.mp hst).2.1.uniques.allDecode⟩, ?_⟩
  funext p'
  by_cases hp : p = p'
  · subst hp
    simp [commitRecords, highest, r]
  · simp [commitRecords, highest, r, hp, Function.update_of_ne (Ne.symm hp), setConsumer]

/-- A partition up to its limit, record by record. -/
theorem exists_commit_limit (hbatch : 1 ≤ batchSize) (i : ι) (p : π)
    (hrows : ∀ e, OnTopic unmarshal s.logs e → c.refusesRow e.toRow = false)
    (hdec : AllDecode s.store.uniques) (hle : s.committed p ≤ limit c unmarshal (s.logs p)) :
    ∃ s', Advances c unmarshal batchSize s s' ∧
      s'.committed = Function.update s.committed p (limit c unmarshal (s.logs p)) := by
  -- by induction on the number of records left
  induction hleft : limit c unmarshal (s.logs p) - s.committed p generalizing s with
  | zero =>
    obtain heq : s.committed p = limit c unmarshal (s.logs p) := by omega
    exact ⟨s, .refl s, by rw [← heq, Function.update_eq_self]⟩
  | succ left ih =>
    have hlt : s.committed p < limit c unmarshal (s.logs p) := by omega
    obtain ⟨s₁, h₁, hcommitted⟩ := exists_commit_next hbatch i hrows hdec hlt
    have hp : s₁.committed p = s.committed p + 1 := by rw [hcommitted, Function.update_self]
    obtain ⟨s₂, h₂, hlimit⟩ := ih (s := s₁) (h₁.logs ▸ hrows) (h₁.decode hdec)
      (by rw [h₁.logs]; omega) (by rw [h₁.logs]; omega)
    refine ⟨s₂, h₁.trans h₂, ?_⟩
    rw [hlimit, h₁.logs, hcommitted, Function.update_idem]

/-- **The limits can be reached from every state**, by restarts of a single consumer. -/
theorem Below.reaches [Finite π] (h : s.Below c unmarshal) (hbatch : 1 ≤ batchSize) (i : ι)
    (hrows : ∀ e, OnTopic unmarshal s.logs e → c.refusesRow e.toRow = false)
    (hdec : AllDecode s.store.uniques) :
    ∃ s', Advances c unmarshal batchSize s s' ∧
      ∀ p, s'.committed p = limit c unmarshal (s.logs p) := by
  have := Fintype.ofFinite π
  have hall : ∀ ps : Finset π, ∃ s', Advances c unmarshal batchSize s s' ∧
      ∀ p, s'.committed p = if p ∈ ps then limit c unmarshal (s.logs p) else s.committed p := by
    intro ps
    induction ps using Finset.induction_on with
    | empty => exact ⟨s, .refl s, fun p => by simp⟩
    | insert p ps hp ih =>
      obtain ⟨s₁, h₁, hcommitted⟩ := ih
      obtain ⟨s₂, h₂, hlimit⟩ := exists_commit_limit hbatch i p (h₁.logs ▸ hrows)
        (h₁.decode hdec)
        (by rw [hcommitted, if_neg hp, h₁.logs]; exact h.committed p)
      refine ⟨s₂, h₁.trans h₂, fun p' => ?_⟩
      rw [hlimit, h₁.logs]
      by_cases hp' : p' = p
      · subst hp'
        simp
      · rw [Function.update_of_ne hp', hcommitted]
        simp [hp']
  obtain ⟨s', hs', hcommitted⟩ := hall Finset.univ
  exact ⟨s', hs', fun p => by rw [hcommitted, if_pos (Finset.mem_univ p)]⟩

/-- **A topic whose events Postgres takes can be drained**, from every state. -/
theorem Below.drains [Finite π] [Nonempty ι] (h : s.Below c unmarshal) (hbatch : 1 ≤ batchSize)
    (htakes : ∀ e, OnTopic unmarshal s.logs e → c.Takes e) (hdec : AllDecode s.store.uniques) :
    ∃ s', Advances c unmarshal batchSize s s' ∧ s'.Drained := by
  obtain ⟨s', hs', hcommitted⟩ := h.reaches hbatch (Classical.arbitrary ι)
    (fun e he => (htakes e he).2) hdec
  refine ⟨s', hs', fun p => ?_⟩
  rw [hcommitted, hs'.logs, limit_eq_length_iff]
  intro value hvalue
  exact refusedRecord_eq_false_iff.mpr fun e he => (htakes e ⟨p, value, hvalue, he⟩).1

end Steps

end Broker

/-! ## The end of the topic -/

section Results

variable [DecidableEq ι] [DecidableEq π] {batchSize : ℕ}
  {logs : π → List (List UInt8)} {st : Store} {s : Broker ι π}

/-- **A drained topic is what the tables hold.** In every state that polls, attempts, commits,
crashes, rebalances and restarts reach from empty tables, if every offset is committed then the
stored ids are those of the records that decode, each once. Where an id determines its event on the
topic, the rows, the rollups and the sketches are those of any run of `InsertBatch` that delivers
the events of the topic, in any batches and any order. -/
theorem drained_tables (h : Broker.Reachable c unmarshal batchSize logs .empty s)
    (hdrained : s.Drained) :
    s.store.ids.Nodup ∧
    (∀ id, id ∈ s.store.ids ↔ ∃ e, OnTopic unmarshal s.logs e ∧ e.eventId = id) ∧
    ((∀ e e', OnTopic unmarshal s.logs e → OnTopic unmarshal s.logs e' → e.eventId = e'.eventId →
        e = e') →
      ∀ (bs : List (Batch c)) (st : Store) (n : ℕ), insertBatches c .empty bs = .ok (st, n) →
        (∀ e, e ∈ delivered bs ↔ OnTopic unmarshal s.logs e) →
        s.store.events.Perm st.events ∧ s.store.counts = st.counts ∧
          s.store.uniques = st.uniques) := by
  have hfed : Fed c (OnTopic unmarshal s.logs) .empty s.store :=
    h.fed.mono fun e => BeforeLimit.onTopic
  have hall : ∀ e, OnTopic unmarshal s.logs e → e.eventId ∈ s.store.ids := fun e =>
    h.mem_ids_of_drained Store.sound_empty hdrained
  refine ⟨(hfed.sound Store.sound_empty).nodup, fun id => ⟨fun hid => ?_, ?_⟩,
    fun hid bs st n hrun hset => hfed.congr hall hid hrun hset⟩
  · exact (hfed.mem_ids hid).resolve_left List.not_mem_nil
  · rintro ⟨e, he, rfl⟩
    exact hall e he

/-- A topic with a record that does not decode and the same click twice, drained. -/
theorem drained_tables_click_twice :
    let e : Event := ⟨"e1", "buy_click", "u1", none, 0⟩
    let unmarshal : List UInt8 → Option Event := fun value => if value = [1] then some e else none
    ∃ s : Broker Unit Unit,
      Broker.Reachable .bytewise unmarshal 1000 (fun _ => [[0], [1], [1]]) .empty s ∧ s.Drained ∧
        ∀ id, id ∈ s.store.ids ↔ id = "e1" := by
  intro e unmarshal
  have htakes : Postgres.bytewise.Takes e := by decide +kernel
  let s₀ : Broker Unit Unit := .init Unit (fun _ => [[0], [1], [1]]) .empty
  obtain ⟨s, hs, hcommitted⟩ : ∃ s, Broker.Advances .bytewise unmarshal 1000 s₀ s ∧
      ∀ p, s.committed p = limit .bytewise unmarshal (s₀.logs p) :=
    (Broker.below_init Unit .bytewise unmarshal _ .empty).reaches (by decide) () (fun _ _ => rfl)
      allDecode_empty
  have hlogs : s.logs = fun _ => [[0], [1], [1]] := hs.logs
  have hdrained : s.Drained := fun p => by
    rw [hcommitted, hlogs]
    exact limit_eq_length_iff.mpr
      (by simp [s₀, Broker.init, refusedRecord, unmarshal, htakes.1])
  refine ⟨s, hs.run, hdrained, fun id => ?_⟩
  rw [(drained_tables hs.run hdrained).2.1 id, hlogs]
  simp [OnTopic, unmarshal, e, eq_comm]

/-- **A record that Postgres refuses stops its partition for good.** In every state that is reached,
if Postgres refuses the event of a record, as it does each with a U+0000, then the offset of the
record is never passed, by whichever consumer and after however many restarts, and every row stored
since is that of a record of another partition or of one before it. -/
theorem refused_record_stops_partition (h : Broker.Reachable c unmarshal batchSize logs st s)
    {p : π} {o : ℕ} {value : List UInt8} {e : Event} (hvalue : (s.logs p)[o]? = some value)
    (he : unmarshal value = some e) (href : c.refuses e = true) :
    s.committed p ≤ o ∧
    ∀ r ∈ s.store.events, r ∈ st.events ∨ ∃ p' o' value' e', (s.logs p')[o']? = some value' ∧
      unmarshal value' = some e' ∧ e'.toRow = r ∧ (p' = p → o' < o) := by
  have hrecord : refusedRecord c unmarshal value = true := by
    rw [refusedRecord, he, Option.any_some, href]
  have hlimit := limit_le_of_refused hvalue hrecord
  refine ⟨(h.below.committed p).trans hlimit, fun r hr => ?_⟩
  rcases h.fed.mem_events hr with hold | ⟨e', ⟨p', o', value', ho', hvalue', he'⟩, rfl⟩
  · exact .inl hold
  · refine .inr ⟨p', o', value', e', hvalue', he', rfl, ?_⟩
    rintro rfl
    exact lt_of_lt_of_le ho' hlimit

/-- An event whose name is the character U+0000 and a click behind it are polled together, and the
first attempt fails. -/
theorem refused_record_stops_click :
    let nul : Event := ⟨"e1", "\x00", "u1", none, 0⟩
    let click : Event := ⟨"e2", "buy_click", "u2", none, 0⟩
    let unmarshal : List UInt8 → Option Event :=
      fun value => if value = [0] then some nul else some click
    ¬ nul.NulFree ∧ ∃ s : Broker Unit Unit,
      Broker.Reachable .bytewise unmarshal 1000 (fun _ => [[0], [1]]) .empty s ∧
        (s.consumers ()).loop = .inserting [⟨(), 0, [0]⟩, ⟨(), 1, [1]⟩] 2 ∧
        s.committed () ≤ 0 ∧ click.toRow ∉ s.store.events := by
  intro nul click unmarshal
  have href : Postgres.bytewise.refuses nul = true := by decide +kernel
  have hnul : ¬ nul.NulFree := by
    rw [← Event.hasNul_eq_false_iff]
    decide +kernel
  let s₀ : Broker Unit Unit := .init Unit (fun _ => [[0], [1]]) .empty
  have hstarted : Broker.Reachable .bytewise unmarshal 1000 (fun _ => [[0], [1]]) .empty
      (s₀.setConsumer () ⟨fun _ => none, .polling⟩) := .single (.start () rfl)
  have hassigned := hstarted.tail (.assign () ())
  have hpolled := hassigned.tail (.poll () [((), 2)] rfl (by simp)
    (fun t ht => by
      obtain rfl := List.mem_singleton.mp ht
      exact ⟨0, rfl, le_refl 2⟩)
    (show 2 ≤ 1000 by decide) (List.cons_ne_nil _ _))
  have hfailed := hpolled.tail (.insertRetry () [⟨(), 0, [0]⟩, ⟨(), 1, [1]⟩] 1 .empty rfl .rollback
    trivial)
  obtain ⟨hcommitted, hrows⟩ := refused_record_stops_partition (p := ()) (o := 0) (e := nul)
    hfailed rfl rfl href
  refine ⟨hnul, _, hfailed, rfl, hcommitted, fun hrow => ?_⟩
  rcases hrows click.toRow hrow with hold | ⟨_, o, _, _, _, _, _, ho⟩
  · exact absurd hold List.not_mem_nil
  · exact absurd (ho rfl) (Nat.not_lt_zero o)

/-- In a drained topic Postgres has taken every event, where an id determines its event. -/
theorem Broker.Reachable.takes_of_drained
    (h : Broker.Reachable c unmarshal batchSize logs .empty s) (hdrained : s.Drained)
    (hid : ∀ e e', OnTopic unmarshal s.logs e → OnTopic unmarshal s.logs e' →
      e.eventId = e'.eventId → e = e') {e : Event} (he : OnTopic unmarshal s.logs e) :
    c.Takes e := by
  obtain ⟨p, value, hvalue, hdecode⟩ := id he
  have hlimit : limit c unmarshal (s.logs p) = (s.logs p).length :=
    le_antisymm (limit_le_length _ _ _) ((hdrained p).symm.le.trans (h.below.committed p))
  have hfree := limit_eq_length_iff.mp hlimit value hvalue
  refine ⟨refusedRecord_eq_false_iff.mp hfree e hdecode, ?_⟩
  obtain ⟨r, hr, hrid⟩ := List.mem_map.mp (h.mem_ids_of_drained Store.sound_empty hdrained he)
  obtain ⟨e', he', rfl⟩ := h.fed.exists_of_mem_events hr
  obtain rfl := hid e' e he'.onTopic he hrid
  exact h.fed.refusesRow_eq_false hr

/-- **The topic can be drained exactly when Postgres takes its events.** From every state reached
from empty tables, whatever the consumers are doing, some further run without new records commits
every offset, if and only if every event on the topic is free of U+0000 and within the limits of
Postgres, where an id determines its event on the topic. -/
theorem drainable_iff [Nonempty ι] [Finite π] (hbatch : 1 ≤ batchSize)
    (h : Broker.Reachable c unmarshal batchSize logs .empty s)
    (hid : ∀ e e', OnTopic unmarshal s.logs e → OnTopic unmarshal s.logs e' →
      e.eventId = e'.eventId → e = e') :
    (∃ s', Relation.ReflTransGen (Broker.Step c unmarshal batchSize) s s' ∧ s'.logs = s.logs ∧
        s'.Drained) ↔
      ∀ e, OnTopic unmarshal s.logs e → e.NulFree ∧ c.WithinLimits e := by
  simp only [← Postgres.takes_iff]
  constructor
  · rintro ⟨s', hrun, hlogs, hdrained⟩ e he
    have hreach : Broker.Reachable c unmarshal batchSize logs .empty s' := h.trans hrun
    rw [← hlogs] at hid he
    exact hreach.takes_of_drained hdrained hid he
  · intro htakes
    obtain ⟨s', hs', hdrained⟩ :=
      h.below.drains hbatch htakes (h.fed.allDecode allDecode_empty)
    exact ⟨s', hs'.run, hs'.logs, hdrained⟩

/-- A topic with one click, before any consumer has started. -/
theorem drainable_click :
    let e : Event := ⟨"e1", "buy_click", "u1", none, 0⟩
    let s : Broker Unit Unit := .init Unit (fun _ => [[1]]) .empty
    1 ≤ 1000 ∧ ∃ s', Relation.ReflTransGen (Broker.Step .bytewise (fun _ => some e) 1000) s s' ∧
      s'.logs = s.logs ∧ s'.Drained := by
  intro e s
  have htakes : Postgres.bytewise.Takes e := by decide +kernel
  have hs : Broker.Reachable .bytewise (fun _ => some e) 1000 (fun _ => [[1]]) .empty s := .refl
  have honly : ∀ e', OnTopic (fun _ => some e) s.logs e' → e' = e := by
    rintro e' ⟨p, value, -, he⟩
    exact (Option.some.inj he).symm
  refine ⟨by decide, (drainable_iff (by decide) hs ?_).mpr ?_⟩
  · intro e₁ e₂ h₁ h₂ _
    rw [honly e₁ h₁, honly e₂ h₂]
  · intro e' he'
    rw [honly e' he']
    exact Postgres.takes_iff.mp htakes

end Results

end Tally
