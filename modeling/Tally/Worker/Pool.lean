import Tally.Worker.Retry

/-!
# The worker pool

`internal/worker`: the configuration with its defaults, the state of one worker goroutine, and
what a receive, a tick and the end of a flush do to it. A worker collects events until its batch
is full or a tick comes, and is busy with the retry loop of `flush` in between. The flush interval
only decides when ticks come, which may be at any time here, and the duration a flush reports is
left out.

## Main definitions

* `Config`, `Pool`, `Pool.new`: the configuration and its defaults
* `FlushInfo`: what `OnFlush` is told
* `Worker`, `Worker.receive`, `Worker.flush`, `Worker.flushed`: a worker goroutine
* `Worker.WellSized`: its batch is within bounds

## Main results

* `Worker.wellSized_receive`, `Worker.wellSized_flush`: the bounds are kept
-/

namespace Tally

/-- `worker.Config` as it is passed in. -/
structure Config where
  workers : ℤ
  batchSize : ℤ
  maxRetries : ℤ

/-- The configuration of a pool, after the defaults. -/
structure Pool where
  workers : ℕ
  batchSize : ℕ
  maxRetries : ℕ
  workers_pos : 0 < workers
  batchSize_pos : 0 < batchSize
  maxRetries_pos : 0 < maxRetries

/-- A field of the configuration, or its default where it is not positive. -/
def orDefault (value : ℤ) (default : ℕ) : ℕ := if value ≤ 0 then default else value.toNat

theorem orDefault_pos (value : ℤ) {default : ℕ} (h : 0 < default) :
    0 < orDefault value default := by
  unfold orDefault
  split_ifs
  · exact h
  · omega

/-- `worker.New`. -/
def Pool.new (cfg : Config) : Pool where
  workers := orDefault cfg.workers 4
  batchSize := orDefault cfg.batchSize 1000
  maxRetries := orDefault cfg.maxRetries 3
  workers_pos := orDefault_pos _ (by decide)
  batchSize_pos := orDefault_pos _ (by decide)
  maxRetries_pos := orDefault_pos _ (by decide)

/-- `worker.FlushInfo`; `err` says that `Err` is not nil. -/
structure FlushInfo where
  batchSize : ℕ
  inserted : ℤ
  duplicates : ℤ
  err : Bool

/-- The report of a flush whose last attempt returned a count. -/
def FlushInfo.ok (events : List Event) (inserted : ℕ) : FlushInfo :=
  ⟨events.length, inserted, events.length - inserted, false⟩

/-- The report of a flush that dropped its batch. -/
def FlushInfo.dropped (events : List Event) : FlushInfo := ⟨events.length, 0, 0, true⟩

/-- A worker goroutine: waiting in `select` with a partial batch, in attempt `attempt` of a flush,
or returned. The flush of a closed queue is the last one. -/
inductive Worker where
  | waiting (batch : List Event)
  | flushing (batch : List Event) (attempt : ℕ) (last : Bool)
  | exited

namespace Worker

/-- The events a worker holds. -/
def batch : Worker → List Event
  | .waiting batch => batch
  | .flushing batch _ _ => batch
  | .exited => []

/-- After a flush the worker goes back to `select`, or returns. -/
def flushed (last : Bool) : Worker := if last then .exited else .waiting []

/-- `flush`: nothing to do for an empty batch, else the first attempt. -/
def flush (batch : List Event) (last : Bool) : Worker :=
  if batch.length = 0 then flushed last else .flushing batch 1 last

/-- A received event is appended, and a full batch is flushed. -/
def receive (p : Pool) (batch : List Event) (e : Event) : Worker :=
  if p.batchSize ≤ (batch ++ [e]).length then flush (batch ++ [e]) false
  else .waiting (batch ++ [e])

/-- A partial batch is below the batch size, and a batch being flushed is neither empty nor above
it. -/
def WellSized (p : Pool) : Worker → Prop
  | .waiting batch => batch.length < p.batchSize
  | .flushing batch _ _ => 1 ≤ batch.length ∧ batch.length ≤ p.batchSize
  | .exited => True

@[simp] theorem batch_flushed (last : Bool) : (flushed last).batch = [] := by
  cases last <;> rfl

@[simp] theorem batch_flush (events : List Event) (last : Bool) :
    (flush events last).batch = events := by
  unfold flush
  split_ifs with h
  · rw [batch_flushed, List.length_eq_zero_iff.mp h]
  · rfl

@[simp] theorem batch_receive (p : Pool) (events : List Event) (e : Event) :
    (receive p events e).batch = events ++ [e] := by
  unfold receive
  split_ifs
  · exact batch_flush _ _
  · rfl

theorem wellSized_flushed (p : Pool) (last : Bool) : (flushed last).WellSized p := by
  cases last
  · exact p.batchSize_pos
  · trivial

theorem wellSized_flush {p : Pool} {events : List Event} (h : events.length ≤ p.batchSize)
    (last : Bool) : (flush events last).WellSized p := by
  unfold flush
  split_ifs with hnil
  · exact wellSized_flushed p last
  · exact ⟨Nat.one_le_iff_ne_zero.mpr hnil, h⟩

theorem wellSized_receive {p : Pool} {events : List Event} (h : (waiting events).WellSized p)
    (e : Event) : (receive p events e).WellSized p := by
  have hlen : (events ++ [e]).length = events.length + 1 := List.length_append
  have hlt : events.length < p.batchSize := h
  unfold receive
  split_ifs with hfull
  · exact wellSized_flush (by omega) false
  · exact not_le.mp hfull

/-- The worker found the queue closed and drained. -/
def Ending : Worker → Prop
  | .waiting _ => False
  | .flushing _ _ last => last = true
  | .exited => True

@[simp] theorem ending_flushed (last : Bool) : (flushed last).Ending ↔ last = true := by
  cases last <;> simp [flushed, Ending]

@[simp] theorem ending_flush (events : List Event) (last : Bool) :
    (flush events last).Ending ↔ last = true := by
  unfold flush
  split_ifs
  · exact ending_flushed last
  · rfl

theorem not_ending_receive (p : Pool) (events : List Event) (e : Event) :
    ¬ (receive p events e).Ending := by
  unfold receive
  split_ifs
  · simp
  · exact id

end Worker

end Tally
