import Mathlib.Algebra.Order.BigOperators.Group.Finset
import Tally.Foundation.Descent
import Tally.Queue.Drain

/-!
# The consumers catch up

`Run` tries a batch until it is inserted, and polls again. A calm group is one that nothing disturbs
but attempts that fail: no record is produced, no loop stops and no partition moves. Every poll
shortens what its consumer has before it, so a calm group whose attempts fail finitely often does
finitely many steps; and as long as a record of a partition it serves is not stored, some loop can
go on. Commits need not take effect for this: an offset that stays behind delivers its records
again after a restart, and they are stored already.

## Main definitions

* `backlog`, `Broker.workLeft`: what is left to the loops
* `Calm`, `Calm.Step`: a calm group and its steps
* `Broker.Serves`: a loop that runs, with the partition assigned to it

## Main results

* `Calm.Step.stepsLeft_lt`: every step lowers what is left
* `Calm.Ready.exists_step`: until all is stored, some loop can go on
* `consumers_catch_up`: a calm group stores the whole topic
-/

namespace Tally

open Foundation

variable {ι π : Type*} {unmarshal : List UInt8 → Option Event}

/-! ## What is left -/

/-- The records before a client, on the partitions assigned to it. -/
def backlog [Fintype π] (logs : π → List (List UInt8)) (pos : π → Option ℕ) : ℕ :=
  ∑ p, (pos p).elim 0 fun q => (logs p).length - q

/-- The steps to the next poll. -/
def Loop.left : Loop π → ℕ
  | .stopped | .polling => 0
  | .committing _ => 1
  | .inserting _ _ => 2

/-- The steps that are left to a loop, at most: three for a record. -/
def Consumer.workLeft [Fintype π] (logs : π → List (List UInt8)) (k : Consumer π) : ℕ :=
  3 * backlog logs k.pos + k.loop.left

def Broker.workLeft [Fintype ι] [Fintype π] (s : Broker ι π) : ℕ :=
  ∑ i, (s.consumers i).workLeft s.logs

theorem lookup_eq_some_of_mem [DecidableEq π] {takes : List (π × ℕ)} {p : π} {n : ℕ}
    (hdistinct : (takes.map Prod.fst).Nodup) (h : (p, n) ∈ takes) : takes.lookup p = some n := by
  obtain ⟨l₁, l₂, rfl⟩ := List.append_of_mem h
  refine List.lookup_eq_some_iff.mpr ⟨l₁, l₂, rfl, fun t ht => ?_⟩
  rw [List.map_append, List.nodup_append] at hdistinct
  have hne := hdistinct.2.2 t.1 (List.mem_map_of_mem ht) p (by simp)
  simpa using hne.symm

/-- **A poll shortens the backlog.** -/
theorem Broker.backlog_polled [Fintype π] [DecidableEq π] {s : Broker ι π} {i : ι}
    {takes : List (π × ℕ)} (hdistinct : (takes.map Prod.fst).Nodup)
    (havailable : ∀ t ∈ takes, ∃ q, (s.consumers i).pos t.1 = some q ∧
      q + t.2 ≤ (s.logs t.1).length) (hsome : s.polled i takes ≠ []) :
    backlog s.logs (advancePos (s.consumers i).pos takes) <
      backlog s.logs (s.consumers i).pos := by
  obtain ⟨r, hr⟩ := List.exists_mem_of_ne_nil _ hsome
  obtain ⟨n, q, ht, hq, hle, hlt, -⟩ := mem_polled.mp hr
  obtain ⟨q', hq', hlen⟩ := havailable _ ht
  obtain rfl : q' = q := Option.some.inj (hq'.symm.trans hq)
  refine Finset.sum_lt_sum (fun p _ => ?_) ⟨r.partition, Finset.mem_univ _, ?_⟩
  · cases hp : (s.consumers i).pos p with
    | none => simp [advancePos, hp]
    | some q =>
      simp only [advancePos, hp, Option.map_some, Option.elim_some]
      omega
  · simp only [advancePos, hq, lookup_eq_some_of_mem hdistinct ht, Option.map_some,
      Option.elim_some, Option.getD_some]
    dsimp only at hlen
    omega

/-! ## Calm groups -/

/-- A group, and the number of attempts to insert that may still fail. -/
structure Calm (ι π : Type*) where
  broker : Broker ι π
  failures : ℕ

namespace Calm

variable [DecidableEq ι] [DecidableEq π] {c : Postgres} {batchSize : ℕ} {s s' : Calm ι π}

/-- The steps of the loops themselves. -/
inductive Step (c : Postgres) (unmarshal : List UInt8 → Option Event) (batchSize : ℕ)
    (s : Calm ι π) : Calm ι π → Prop
  /-- `PollRecords` returns records. -/
  | poll (i : ι) (takes : List (π × ℕ)) (polling : (s.broker.consumers i).loop = .polling)
      (distinct : (takes.map Prod.fst).Nodup)
      (available : ∀ t ∈ takes, ∃ q, (s.broker.consumers i).pos t.1 = some q ∧
        q + t.2 ≤ (s.broker.logs t.1).length)
      (bounded : (s.broker.polled i takes).length ≤ batchSize)
      (some_records : s.broker.polled i takes ≠ []) :
      Step c unmarshal batchSize s
        ⟨s.broker.setConsumer i ⟨Broker.advancePos (s.broker.consumers i).pos takes,
          .inserting (s.broker.polled i takes) 1⟩, s.failures⟩
  /-- An attempt to insert succeeds. -/
  | insertOk (i : ι) (recs : List (Record π)) (n k : ℕ) (st : Store)
      (inserting : (s.broker.consumers i).loop = .inserting recs n)
      (attempt : Attempt c (decodeRecords unmarshal recs) s.broker.store (some k) st) :
      Step c unmarshal batchSize s
        ⟨{ s.broker.setConsumer i ⟨(s.broker.consumers i).pos, .committing recs⟩ with
          store := st }, s.failures⟩
  /-- An attempt to insert fails, one of those that may. -/
  | insertRetry (i : ι) (recs : List (Record π)) (n : ℕ) (st : Store) (failures : ℕ)
      (inserting : (s.broker.consumers i).loop = .inserting recs n)
      (attempt : Attempt c (decodeRecords unmarshal recs) s.broker.store none st)
      (may_fail : s.failures = failures + 1) :
      Step c unmarshal batchSize s
        ⟨{ s.broker.setConsumer i ⟨(s.broker.consumers i).pos, .inserting recs (n + 1)⟩ with
          store := st }, failures⟩
  /-- The offsets are committed, or not. -/
  | commit (i : ι) (recs : List (Record π)) (effective : π → Bool)
      (committing : (s.broker.consumers i).loop = .committing recs) :
      Step c unmarshal batchSize s
        ⟨{ s.broker.setConsumer i ⟨(s.broker.consumers i).pos, .polling⟩ with
          committed := Broker.commitRecords s.broker.committed recs effective }, s.failures⟩

/-- They are steps of the group. -/
theorem Step.broker (h : Step c unmarshal batchSize s s') :
    Broker.Step c unmarshal batchSize s.broker s'.broker := by
  cases h with
  | poll i takes polling distinct available bounded some_records =>
    exact .poll i takes polling distinct available bounded some_records
  | insertOk i recs n k st inserting attempt => exact .insertOk i recs n k st inserting attempt
  | insertRetry i recs n st failures inserting attempt may_fail =>
    exact .insertRetry i recs n st inserting attempt trivial
  | commit i recs effective committing => exact .commit i recs effective committing

theorem Step.logs (h : Step c unmarshal batchSize s s') : s'.broker.logs = s.broker.logs := by
  cases h <;> rfl

/-- The steps that are left, at most. -/
def stepsLeft [Fintype ι] [Fintype π] (s : Calm ι π) : ℕ := s.broker.workLeft + s.failures

omit [DecidableEq π] in
/-- One consumer changes, and what is left to it and the failures to come are less. -/
theorem stepsLeft_lt_of_update [Fintype ι] [Fintype π] {i : ι} {k : Consumer π}
    (hlogs : s'.broker.logs = s.broker.logs)
    (hconsumers : s'.broker.consumers = Function.update s.broker.consumers i k)
    (hk : k.workLeft s.broker.logs + s'.failures <
      (s.broker.consumers i).workLeft s.broker.logs + s.failures) :
    s'.stepsLeft < s.stepsLeft := by
  have hnew := Finset.add_sum_erase Finset.univ
    (fun j => (Function.update s.broker.consumers i k j).workLeft s.broker.logs)
    (Finset.mem_univ i)
  have hold := Finset.add_sum_erase Finset.univ
    (fun j => (s.broker.consumers j).workLeft s.broker.logs) (Finset.mem_univ i)
  have hothers : ∀ j ∈ Finset.univ.erase i,
      (Function.update s.broker.consumers i k j).workLeft s.broker.logs =
        (s.broker.consumers j).workLeft s.broker.logs :=
    fun j hj => by rw [Function.update_of_ne (Finset.ne_of_mem_erase hj)]
  rw [Finset.sum_congr rfl hothers, Function.update_self] at hnew
  unfold stepsLeft Broker.workLeft
  rw [hlogs, hconsumers]
  omega

/-- **Every step lowers what is left.** -/
theorem Step.stepsLeft_lt [Fintype ι] [Fintype π] (h : Step c unmarshal batchSize s s') :
    s'.stepsLeft < s.stepsLeft := by
  cases h with
  | poll i takes polling distinct available bounded some_records =>
    refine stepsLeft_lt_of_update (i := i) ?_ rfl ?_
    · rfl
    · have hbacklog := Broker.backlog_polled distinct available some_records
      simp only [Consumer.workLeft, polling, Loop.left]
      omega
  | insertOk i recs n k st inserting attempt =>
    refine stepsLeft_lt_of_update (i := i) ?_ rfl ?_
    · rfl
    · simp only [Consumer.workLeft, inserting, Loop.left]
      omega
  | insertRetry i recs n st failures inserting attempt may_fail =>
    refine stepsLeft_lt_of_update (i := i) ?_ rfl ?_
    · rfl
    · simp only [Consumer.workLeft, inserting, Loop.left]
      omega
  | commit i recs effective committing =>
    refine stepsLeft_lt_of_update (i := i) ?_ rfl ?_
    · rfl
    · simp only [Consumer.workLeft, committing, Loop.left]
      omega

end Calm

/-- The loop runs, and the partition is assigned to its client. -/
def Broker.Serves (s : Broker ι π) (i : ι) (p : π) : Prop :=
  (s.consumers i).loop ≠ .stopped ∧ ((s.consumers i).pos p).isSome

/-- The event of every record on the topic is stored. -/
def Broker.AllStored (unmarshal : List UInt8 → Option Event) (s : Broker ι π) : Prop :=
  ∀ e, OnTopic unmarshal s.logs e → e.eventId ∈ s.store.ids

namespace Calm

variable [DecidableEq ι] [DecidableEq π] {c : Postgres} {batchSize : ℕ}
  {logs : π → List (List UInt8)} {s s' : Calm ι π}

/-- A group on its way: every partition is served, and Postgres takes every event of the topic. -/
structure Ready (c : Postgres) (unmarshal : List UInt8 → Option Event) (batchSize : ℕ)
    (logs : π → List (List UInt8)) (s : Calm ι π) : Prop where
  reachable : Broker.Reachable c unmarshal batchSize logs .empty s.broker
  serves : ∀ p, ∃ i, s.broker.Serves i p
  takes : ∀ e, OnTopic unmarshal s.broker.logs e → c.Takes e

/-- A loop that runs keeps running, and keeps its partitions. -/
theorem Step.serves (hstep : Step c unmarshal batchSize s s') {i : ι} {p : π}
    (h : s.broker.Serves i p) : s'.broker.Serves i p := by
  obtain ⟨hloop, hpos⟩ := h
  have hset : ∀ (j : ι) (k : Consumer π), k.loop ≠ .stopped →
      (∀ p, ((s.broker.consumers j).pos p).isSome → (k.pos p).isSome) →
      (Function.update s.broker.consumers j k i).loop ≠ .stopped ∧
        ((Function.update s.broker.consumers j k i).pos p).isSome := by
    intro j k hk hkeeps
    by_cases hij : i = j
    · subst hij
      rw [Function.update_self]
      exact ⟨hk, hkeeps p hpos⟩
    · rw [Function.update_of_ne hij]
      exact ⟨hloop, hpos⟩
  cases hstep with
  | poll j takes =>
    exact hset j _ (fun hk => by cases hk) fun p hp => by simpa [Broker.advancePos] using hp
  | insertOk j recs => exact hset j _ (fun hk => by cases hk) fun _ hp => hp
  | insertRetry j recs => exact hset j _ (fun hk => by cases hk) fun _ hp => hp
  | commit j recs => exact hset j _ (fun hk => by cases hk) fun _ hp => hp

theorem Ready.step (h : s.Ready c unmarshal batchSize logs)
    (hstep : Step c unmarshal batchSize s s') : s'.Ready c unmarshal batchSize logs where
  reachable := h.reachable.tail hstep.broker
  serves p := (h.serves p).imp fun _ => hstep.serves
  takes e he := h.takes e (hstep.logs ▸ he)

theorem descends [Fintype ι] [Fintype π] (c : Postgres) (unmarshal : List UInt8 → Option Event)
    (batchSize : ℕ) (logs : π → List (List UInt8)) :
    Descends (Step (ι := ι) c unmarshal batchSize) (Ready c unmarshal batchSize logs)
      stepsLeft where
  keeps h hstep := h.step hstep
  lowers _ hstep := hstep.stepsLeft_lt

/-- Between polls a loop can always go on. -/
theorem Ready.exists_step_of_busy (h : s.Ready c unmarshal batchSize logs) {i : ι}
    (hrun : (s.broker.consumers i).loop ≠ .stopped)
    (hbusy : (s.broker.consumers i).loop ≠ .polling) :
    ∃ s', Step c unmarshal batchSize s s' := by
  cases hloop : (s.broker.consumers i).loop with
  | stopped => exact absurd hloop hrun
  | polling => exact absurd hloop hbusy
  | committing recs => exact ⟨_, .commit i recs (fun _ => true) hloop⟩
  | inserting recs n =>
    have hinv := (h.reachable.inv Store.sound_empty).consumers i
    have htakes : ∀ e ∈ (Batch.ofEvents c (decodeRecords unmarshal recs)).events, c.Takes e := by
      intro e he
      obtain ⟨r, hr, hre⟩ := List.mem_filterMap.mp he
      obtain ⟨hget, -⟩ := hinv.inserting recs n hloop r hr
      exact h.takes e ⟨r.partition, r.value, List.mem_of_getElem? hget, hre⟩
    obtain ⟨st, k, hst⟩ := exists_insertBatch_eq_ok (Batch.accepts htakes s.broker.store)
      (h.reachable.fed.allDecode allDecode_empty)
    exact ⟨_, .insertOk i recs n k st hloop (.ok _ rfl hst)⟩

/-- **Until all is stored, some loop can go on.** -/
theorem Ready.exists_step (h : s.Ready c unmarshal batchSize logs) (hbatch : 1 ≤ batchSize)
    (hleft : ¬ s.broker.AllStored unmarshal) : ∃ s', Step c unmarshal batchSize s s' := by
  simp only [Broker.AllStored, not_forall] at hleft
  obtain ⟨e, ⟨p, value, hvalue, he⟩, hnew⟩ := hleft
  obtain ⟨i, hrun, hpos⟩ := h.serves p
  by_cases hloop : (s.broker.consumers i).loop = .polling
  · obtain ⟨q, hq⟩ := Option.isSome_iff_exists.mp hpos
    obtain ⟨o, ho, rfl⟩ := List.mem_iff_getElem.mp hvalue
    have hqo : q ≤ o := by
      by_contra hlt
      rcases ((h.reachable.inv Store.sound_empty).consumers i).pos p q hq o (not_le.mp hlt) with
        ⟨value, hget, hstored⟩ | hflight
      · rw [List.getElem?_eq_getElem ho] at hget
        exact hnew (hstored e (Option.some.inj hget ▸ he))
      · simp [Consumer.InFlight, hloop] at hflight
    have hlt : q < (s.broker.logs p).length := lt_of_le_of_lt hqo ho
    have hpolled := Broker.polled_one hq hlt
    refine ⟨_, .poll i [(p, 1)] hloop (by simp) (fun t ht => ?_) ?_ ?_⟩
    · obtain rfl := List.mem_singleton.mp ht
      exact ⟨q, hq, hlt⟩
    · rw [hpolled]
      exact hbatch
    · rw [hpolled]
      exact List.cons_ne_nil _ _
  · exact h.exists_step_of_busy hrun hloop

end Calm

/-- **A group that nothing disturbs stores the whole topic.** From every state reached from empty
tables in which every partition is assigned to a loop that runs, and in which every event of the
topic is free of U+0000 and within the limits of Postgres, let a number of attempts to insert fail,
with or without effect, and let commits take effect or not. Every run of the loops is bounded by
`Calm.stepsLeft`, three steps for each record before a client and one for each failure. A run that
has not stored the event of every record has a next step, and can be continued until all are
stored. -/
theorem consumers_catch_up [Fintype ι] [Fintype π] [DecidableEq ι] [DecidableEq π] {c : Postgres}
    {batchSize : ℕ} {logs : π → List (List UInt8)} {s : Calm ι π} (hbatch : 1 ≤ batchSize)
    (h : Broker.Reachable c unmarshal batchSize logs .empty s.broker)
    (hserves : ∀ p, ∃ i, s.broker.Serves i p)
    (hall : ∀ e, OnTopic unmarshal s.broker.logs e → e.NulFree ∧ c.WithinLimits e) :
    (∀ (n : ℕ) (run : ℕ → Calm ι π), run 0 = s →
      (∀ i < n, Calm.Step c unmarshal batchSize (run i) (run (i + 1))) → n ≤ s.stepsLeft) ∧
    ∀ s', Relation.ReflTransGen (Calm.Step c unmarshal batchSize) s s' →
      s'.broker.logs = s.broker.logs ∧
      (s'.broker.AllStored unmarshal ∨ ∃ s'', Calm.Step c unmarshal batchSize s' s'') ∧
      ∃ s'', Relation.ReflTransGen (Calm.Step c unmarshal batchSize) s' s'' ∧
        s''.broker.AllStored unmarshal := by
  have hready : s.Ready c unmarshal batchSize logs :=
    ⟨h, hserves, fun e he => Postgres.takes_iff.mpr (hall e he)⟩
  have hdescends := Calm.descends (ι := ι) c unmarshal batchSize logs
  have hstep : ∀ s', s'.Ready c unmarshal batchSize logs → ¬ s'.broker.AllStored unmarshal →
      ∃ s'', Calm.Step (ι := ι) c unmarshal batchSize s' s'' :=
    fun s' hs' => hs'.exists_step hbatch
  refine ⟨fun n run hrun hsteps => ?_, fun s' hs' => ?_⟩
  · subst hrun
    exact hdescends.length_le hready hsteps
  · have hrun : s'.Ready c unmarshal batchSize logs ∧ s'.broker.logs = s.broker.logs := by
      induction hs' with
      | refl => exact ⟨hready, rfl⟩
      | tail _ hnext ih => exact ⟨ih.1.step hnext, hnext.logs.trans ih.2⟩
    exact ⟨hrun.2, or_iff_not_imp_left.mpr (hstep s' hrun.1),
      hdescends.exists_final hstep hrun.1⟩

/-- A click on a topic with one partition, and a consumer that has it assigned. Two attempts may
fail. -/
theorem consumers_catch_up_click :
    let e : Event := ⟨"e1", "buy_click", "u1", none, 0⟩
    let s : Calm Unit Unit :=
      ⟨⟨fun _ => [[1]], fun _ => 0, fun _ => ⟨fun _ => some 0, .polling⟩, .empty⟩, 2⟩
    Broker.Reachable .bytewise (fun _ => some e) 1000 (fun _ => [[1]]) .empty s.broker ∧
    (∀ run : ℕ → Calm Unit Unit, run 0 = s →
      ¬ ∀ i < 6, Calm.Step .bytewise (fun _ => some e) 1000 (run i) (run (i + 1))) ∧
    ∃ s', Relation.ReflTransGen (Calm.Step .bytewise (fun _ => some e) 1000) s s' ∧
      "e1" ∈ s'.broker.store.ids := by
  intro e s
  have htakes : Postgres.bytewise.Takes e := by decide +kernel
  have hreach : Broker.Reachable .bytewise (fun _ => some e) 1000 (fun _ => [[1]]) .empty
      s.broker := by
    have hstarted : Broker.Reachable .bytewise (fun _ => some e) 1000 (fun _ => [[1]]) .empty
        ((Broker.init Unit (fun _ : Unit => [[1]]) .empty).setConsumer ()
          ⟨fun _ => none, .polling⟩) := .single (.start () rfl)
    exact hstarted.tail (.assign () ())
  have hserves : ∀ p, ∃ i, s.broker.Serves i p := fun _ => ⟨(), nofun, rfl⟩
  obtain ⟨hbound, hruns⟩ := consumers_catch_up (s := s) (by decide) hreach hserves
    (by rintro e' ⟨p, value, -, he⟩; exact Option.some.inj he ▸ Postgres.takes_iff.mp htakes)
  have hleft : s.stepsLeft = 5 := by decide
  obtain ⟨-, -, s', hs', hstored⟩ := hruns s .refl
  have htopic : OnTopic (fun _ => some e) s'.broker.logs e := by
    rw [(hruns s' hs').1]
    exact ⟨(), [1], List.mem_singleton_self _, rfl⟩
  refine ⟨hreach, fun run hrun hsteps => ?_, s', hs', hstored e htopic⟩
  have hle := hbound 6 run hrun hsteps
  omega

end Tally
