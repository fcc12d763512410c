import Tally.Store.Replay

/-!
# The retry loops

`Pool.flush` and `KafkaConsumer.Run` insert a batch again after a failed attempt. An attempt that
reports an error may have been rolled back, or may have taken effect before the error (the
timeout fires while the commit is on its way). Other workers commit their batches in between. A
committed batch absorbs its replays, so whatever the pattern of outcomes, the tables end as if
the batch had been applied at most once, and exactly once when the loop ends without error.

## Main definitions

* `Attempt`: one call of `InsertBatch`, its answer, and the tables after it
* `Policy`: after which failed attempts a loop goes on or gives up
* `Policy.flush`, `Policy.run`: the loops of `Pool.flush` and `KafkaConsumer.Run`
* `RetryLoop`: the runs of a loop, with the commits of other workers

## Main results

* `RetryLoop.absorbed`: once the batch is committed, a loop does nothing more
* `replays_absorbed`: replays have no effect, and loops apply a batch at most once
-/

namespace Tally

/-- One call of `InsertBatch` on `events`: the count returned, or `none` for an error, and the
tables after it. The order in which Postgres inserts the rows may differ from call to call. -/
inductive Attempt (c : Postgres) (events : List Event) (st : Store) : Option ℕ → Store → Prop
  /-- The call succeeds. -/
  | ok (own : Batch c) {st' : Store} {n : ℕ} (own_events : own.events = events)
      (effect : insertBatch c st own.events own.order = .ok (st', n)) :
      Attempt c events st (some n) st'
  /-- The call fails and is rolled back. -/
  | rollback : Attempt c events st none st
  /-- The call takes effect and reports an error. -/
  | lostAck (own : Batch c) {st' : Store} {n : ℕ} (own_events : own.events = events)
      (effect : insertBatch c st own.events own.order = .ok (st', n)) :
      Attempt c events st none st'

/-- What a loop may do after its failed attempt number `n`. -/
structure Policy where
  retry : ℕ → Prop
  giveUp : ℕ → Prop

/-- `Pool.flush`: `MaxRetries` attempts, numbered from 1. -/
def Policy.flush (maxRetries : ℕ) : Policy := ⟨fun n => n < maxRetries, fun n => ¬ n < maxRetries⟩

/-- `KafkaConsumer.Run`: after a failed attempt the loop waits for the next one, unless the
context is cancelled meanwhile. -/
def Policy.run : Policy := ⟨fun _ => True, fun _ => True⟩

/-- How a loop ended. -/
inductive LoopEnd where
  /-- Without error, with the count of its last attempt. -/
  | returned (inserted : ℕ)
  /-- With an error. -/
  | gaveUp
  /-- Not at all: the process is killed, or the loop still runs. -/
  | unfinished

/-- The runs of a loop from its attempt number `n` on: the batches other workers commit meanwhile,
how the loop ends, and the tables then. What one attempt may answer and do is a parameter. -/
inductive RetryLoop (c : Postgres) (attempts : Store → Option ℕ → Store → Prop) (policy : Policy) :
    ℕ → Store → List (Batch c) → LoopEnd → Store → Prop
  | other {n : ℕ} {st st₁ st' : Store} {k : ℕ} {others : List (Batch c)} {res : LoopEnd}
      (b : Batch c) (commit : insertBatch c st b.events b.order = .ok (st₁, k))
      (rest : RetryLoop c attempts policy n st₁ others res st') :
      RetryLoop c attempts policy n st (b :: others) res st'
  | done {n : ℕ} {st st' : Store} {k : ℕ} (attempt : attempts st (some k) st') :
      RetryLoop c attempts policy n st [] (.returned k) st'
  | retry {n : ℕ} {st st₁ st' : Store} {others : List (Batch c)} {res : LoopEnd}
      (attempt : attempts st none st₁) (again : policy.retry n)
      (rest : RetryLoop c attempts policy (n + 1) st₁ others res st') :
      RetryLoop c attempts policy n st others res st'
  | giveUp {n : ℕ} {st st' : Store} (attempt : attempts st none st')
      (stop : policy.giveUp n) : RetryLoop c attempts policy n st [] .gaveUp st'
  | unfinished {n : ℕ} {st : Store} : RetryLoop c attempts policy n st [] .unfinished st

variable {c : Postgres}

/-! ## An attempt -/

namespace Attempt

variable {events : List Event} {st st' : Store} {res : Option ℕ}

/-- No attempt loses a stored event. -/
theorem ids_subset (h : Attempt c events st res st') {id : String} (hid : id ∈ st.ids) :
    id ∈ st'.ids := by
  cases h with
  | ok own _ effect => exact (mem_ids_of_insertBatch effect).mpr (.inl hid)
  | rollback => exact hid
  | lostAck own _ effect => exact (mem_ids_of_insertBatch effect).mpr (.inl hid)

/-- A successful attempt stores its events. -/
theorem mem_ids {k : ℕ} (h : Attempt c events st (some k) st') {e : Event} (he : e ∈ events) :
    e.eventId ∈ st'.ids := by
  cases h with
  | ok own hown effect =>
    exact (mem_ids_of_insertBatch effect).mpr (.inr ⟨e, by rwa [hown], rfl⟩)

theorem sound (h : Attempt c events st res st') (hst : st.Sound) : st'.Sound := by
  cases h with
  | ok own _ effect => exact (insertBatch_eq_ok_iff.mp effect).2.1.sound hst
  | rollback => exact hst
  | lostAck own _ effect => exact (insertBatch_eq_ok_iff.mp effect).2.1.sound hst

end Attempt

/-! ## After the batch is committed -/

/-- The batch was committed at some point, and others since. -/
def CommittedSince (c : Postgres) (events : List Event) (st : Store) : Prop :=
  ∃ (own : Batch c) (before after : Store) (others : List (Batch c)) (n k : ℕ),
    own.events = events ∧ insertBatch c before own.events own.order = .ok (after, n) ∧
      insertBatches c after others = .ok (st, k)

/-- It stays committed while others commit. -/
theorem CommittedSince.other {events : List Event} {st st' : Store} {b : Batch c} {k : ℕ}
    (h : CommittedSince c events st) (hb : insertBatch c st b.events b.order = .ok (st', k)) :
    CommittedSince c events st' := by
  obtain ⟨own, before, after, others, n, m, hown, heffect, hothers⟩ := h
  refine ⟨own, before, after, others ++ [b], n, m + k, hown, heffect, ?_⟩
  exact insertBatches_snoc_eq_ok_iff.mpr ⟨st, m, k, hothers, hb, rfl⟩

/-- **A further attempt has no effect**, whatever it reports. -/
theorem CommittedSince.attempt_eq {events : List Event} {st st' : Store} {res : Option ℕ}
    (h : CommittedSince c events st) (ha : Attempt c events st res st') : st' = st := by
  obtain ⟨own, before, after, others, n, m, hown, heffect, hothers⟩ := h
  have habsorbed : ∀ again : Batch c, again.events = events →
      insertBatch c st again.events again.order = .ok (st, 0) := fun again hagain =>
    insertBatch_absorbed heffect hothers fun e he => by rwa [hown, ← hagain]
  cases ha with
  | ok again hagain hok =>
    rw [habsorbed again hagain] at hok
    exact (Prod.mk.inj (Except.ok.inj hok)).1.symm
  | rollback => rfl
  | lostAck again hagain hok =>
    rw [habsorbed again hagain] at hok
    exact (Prod.mk.inj (Except.ok.inj hok)).1.symm

/-- **Once the batch is committed, a loop does nothing more**: the tables change by the commits
of the others only. -/
theorem RetryLoop.absorbed {policy : Policy} {events : List Event} {n : ℕ} {st st' : Store}
    {others : List (Batch c)} {res : LoopEnd}
    (h : RetryLoop c (Attempt c events) policy n st others res st')
    (hc : CommittedSince c events st) : ∃ k, insertBatches c st others = .ok (st', k) := by
  induction h with
  | other b commit rest ih =>
    obtain ⟨k, hk⟩ := ih (hc.other commit)
    exact ⟨_, insertBatches_cons_eq_ok_iff.mpr ⟨_, _, k, commit, hk, rfl⟩⟩
  | done attempt =>
    obtain rfl := hc.attempt_eq attempt
    exact ⟨0, rfl⟩
  | retry attempt again rest ih =>
    obtain rfl := hc.attempt_eq attempt
    exact ih hc
  | giveUp attempt stop =>
    obtain rfl := hc.attempt_eq attempt
    exact ⟨0, rfl⟩
  | unfinished => exact ⟨0, rfl⟩

/-! ## A whole loop -/

/-- The tables are as if the batch had been applied once, among the batches of the others. -/
def AppliedOnce (c : Postgres) (events : List Event) (st : Store) (others : List (Batch c))
    (st' : Store) : Prop :=
  ∃ (own : Batch c) (before after : List (Batch c)) (n : ℕ), own.events = events ∧
    others = before ++ after ∧ insertBatches c st (before ++ own :: after) = .ok (st', n)

theorem AppliedOnce.other {events : List Event} {st st₁ st' : Store} {b : Batch c}
    {others : List (Batch c)} {k : ℕ} (hb : insertBatch c st b.events b.order = .ok (st₁, k))
    (h : AppliedOnce c events st₁ others st') : AppliedOnce c events st (b :: others) st' := by
  obtain ⟨own, before, after, n, hown, rfl, hrun⟩ := h
  exact ⟨own, b :: before, after, k + n, hown, rfl,
    insertBatches_cons_eq_ok_iff.mpr ⟨st₁, k, n, hb, hrun, rfl⟩⟩

/-- The first attempt that takes effect is the one application. -/
theorem AppliedOnce.of_effect {events : List Event} {st st₁ st' : Store} {own : Batch c}
    {others : List (Batch c)} {n k : ℕ} (hown : own.events = events)
    (heffect : insertBatch c st own.events own.order = .ok (st₁, n))
    (hrest : insertBatches c st₁ others = .ok (st', k)) : AppliedOnce c events st others st' :=
  ⟨own, [], others, n + k, hown, rfl,
    insertBatches_cons_eq_ok_iff.mpr ⟨st₁, n, k, heffect, hrest, rfl⟩⟩

/-- **A loop applies its batch at most once**, and exactly once when it ends without error. -/
theorem RetryLoop.appliedOnce {policy : Policy} {events : List Event} {n : ℕ} {st st' : Store}
    {others : List (Batch c)} {res : LoopEnd}
    (h : RetryLoop c (Attempt c events) policy n st others res st') :
    AppliedOnce c events st others st' ∨
      (∃ k, insertBatches c st others = .ok (st', k)) ∧ ∀ k, res ≠ .returned k := by
  induction h with
  | other b commit rest ih =>
    rcases ih with honce | ⟨⟨k, hk⟩, hres⟩
    · exact .inl (honce.other commit)
    · exact .inr ⟨⟨_, insertBatches_cons_eq_ok_iff.mpr ⟨_, _, k, commit, hk, rfl⟩⟩, hres⟩
  | done attempt =>
    cases attempt with
    | ok own hown heffect => exact .inl (.of_effect hown heffect rfl)
  | retry attempt again rest ih =>
    cases attempt with
    | rollback => exact ih
    | lostAck own hown heffect =>
      -- from here on the batch is committed, and the loop only replays it
      obtain ⟨k, hk⟩ := rest.absorbed ⟨own, _, _, [], _, 0, hown, heffect, rfl⟩
      exact .inl (.of_effect hown heffect hk)
  | giveUp attempt stop =>
    cases attempt with
    | rollback => exact .inr ⟨⟨0, rfl⟩, fun k hk => by cases hk⟩
    | lostAck own hown heffect => exact .inl (.of_effect hown heffect rfl)
  | unfinished => exact .inr ⟨⟨0, rfl⟩, fun k hk => by cases hk⟩

/-- **Replays are absorbed, and retry loops apply a batch at most once.** Once a batch has been
committed and any others since, a list of its events, in any order and with any repetition,
inserts nothing and changes no table. Hence a loop that retries the batch, under any policy and
any pattern of outcomes, with any commits of other workers in between, leaves the tables as if the
batch had been applied at most once, and exactly once when it ends without error. -/
theorem replays_absorbed (c : Postgres) :
    (∀ (st st₁ st₂ : Store) (b b' : Batch c) (others : List (Batch c)) (n k : ℕ),
      insertBatch c st b.events b.order = .ok (st₁, n) →
      insertBatches c st₁ others = .ok (st₂, k) → (∀ e ∈ b'.events, e ∈ b.events) →
      insertBatch c st₂ b'.events b'.order = .ok (st₂, 0)) ∧
    ∀ (policy : Policy) (events : List Event) (st st' : Store) (others : List (Batch c))
      (res : LoopEnd), RetryLoop c (Attempt c events) policy 1 st others res st' →
      (AppliedOnce c events st others st' ∨ ∃ k, insertBatches c st others = .ok (st', k)) ∧
      ∀ k, res = .returned k → AppliedOnce c events st others st' := by
  refine ⟨fun st st₁ st₂ b b' others n k hb ho hsub => insertBatch_absorbed hb ho hsub, ?_⟩
  intro policy events st st' others res h
  rcases h.appliedOnce with honce | ⟨hnone, hres⟩
  · exact ⟨.inl honce, fun _ _ => honce⟩
  · exact ⟨.inr hnone, fun k hk => absurd hk (hres k)⟩

/-- A flush whose first attempt takes effect but times out, and whose second attempt, after a
commit of another worker, succeeds. -/
theorem replays_absorbed_lost_ack :
    let e : Event := ⟨"e1", "buy_click", "u1", none, 0⟩
    let e' : Event := ⟨"e1", "page_view", "u2", none, 0⟩
    ∃ st', RetryLoop .bytewise (Attempt .bytewise [e]) (.flush 3) 1 .empty [.single _ e']
        (.returned 0) st' ∧
      AppliedOnce .bytewise [e] .empty [.single _ e'] st' := by
  intro e e'
  have htakes : Postgres.bytewise.Takes e := by decide +kernel
  have htakes' : Postgres.bytewise.Takes e' := by decide +kernel
  obtain ⟨st₁, n₁, h₁⟩ := exists_insertBatch_eq_ok (Batch.accepts_single htakes _) allDecode_empty
  have hdec₁ := (insertBatch_eq_ok_iff.mp h₁).2.1.uniques.allDecode allDecode_empty
  obtain ⟨st₂, n₂, h₂⟩ := exists_insertBatch_eq_ok (Batch.accepts_single htakes' _) hdec₁
  have hothers : insertBatches .bytewise st₁ [.single _ e'] = .ok (st₂, n₂) :=
    insertBatches_cons_eq_ok_iff.mpr ⟨st₂, n₂, 0, h₂, rfl, rfl⟩
  have h₃ := (replays_absorbed .bytewise).1 _ _ _ _ (.single _ e) _ _ _ h₁ hothers fun _ he => he
  have hloop : RetryLoop .bytewise (Attempt .bytewise [e]) (.flush 3) 1 .empty [.single _ e']
      (.returned 0) st₂ :=
    have hagain : 1 < 3 := by decide
    .retry (.lostAck _ rfl h₁) hagain (.other _ h₂ (.done (.ok (.single _ e) rfl h₃)))
  exact ⟨st₂, hloop, ((replays_absorbed .bytewise).2 _ _ _ _ _ _ hloop).2 0 rfl⟩

end Tally
