import Mathlib.Algebra.BigOperators.Group.Finset.Basic
import Mathlib.Algebra.Order.BigOperators.Group.Multiset
import Tally.Worker.Pool

/-!
# The memory pipeline

The process with `QUEUE=memory`: request handlers that enqueue on a bounded channel, workers that
drain it, and `main` that shuts down. `Enqueue` is two steps, the check of the closed flag and the
non-blocking send, so `Close` may fall between them. Handlers of requests that `Shutdown` gave up
on may enqueue at any moment, also after the close; `GracefulStop` waits for the calls of the gRPC
server.

## Main definitions

* `Main`: how far `main` has come
* `MemoryPipeline`: the queue, the calls in flight, the workers, the tables and the record of what
  was accepted and flushed
* `MemoryPipeline.Step`, `MemoryPipeline.Reachable`: the interleavings
-/

namespace Tally

/-- The two front doors. -/
inductive Door where
  | http
  | grpc
  deriving DecidableEq

/-- How far `main` has come: serving; `Shutdown` returned, at its deadline or before;
`GracefulStop` returned; `Close` set the flag; `Close` closed the channel; `Wait` returned. -/
inductive Main where
  | serving
  | httpStopped
  | grpcStopped
  | closing
  | closed
  | done

/-- The flag `closed` of the queue. -/
def Main.flag : Main → Bool
  | .closing | .closed | .done => true
  | _ => false

/-- The channel of the queue is closed. -/
def Main.chanClosed : Main → Bool
  | .closed | .done => true
  | _ => false

/-- The gRPC server may run calls. -/
def Main.grpcRuns : Main → Bool
  | .serving | .httpStopped => true
  | _ => false

/-- The process: the channel's buffer, the `Enqueue` calls between check and send, the workers,
`main`, the tables, the events for which `Enqueue` returned nil and the flushes reported through
`OnFlush`, with their batches. -/
structure MemoryPipeline (p : Pool) where
  buf : List Event
  calls : Multiset (Door × Event)
  workers : Fin p.workers → Worker
  main : Main
  store : Store
  accepted : List Event
  flushes : List (List Event × FlushInfo)

namespace MemoryPipeline

variable {p : Pool}

/-- The process when it starts. -/
def init (p : Pool) (st : Store) : MemoryPipeline p :=
  ⟨[], 0, fun _ => .waiting [], .serving, st, [], []⟩

def setWorker (s : MemoryPipeline p) (i : Fin p.workers) (w : Worker) : MemoryPipeline p :=
  { s with workers := Function.update s.workers i w }

@[simp] theorem setWorker_buf (s : MemoryPipeline p) (i : Fin p.workers) (w : Worker) :
    (s.setWorker i w).buf = s.buf := rfl

@[simp] theorem setWorker_accepted (s : MemoryPipeline p) (i : Fin p.workers) (w : Worker) :
    (s.setWorker i w).accepted = s.accepted := rfl

/-- A worker that goes on from `select` touches no other worker's flush. -/
theorem flushing_setWorker {s : MemoryPipeline p} {i : Fin p.workers} {batch : List Event}
    {w : Worker} (waiting : s.workers i = .waiting batch) (j : Fin p.workers) (batch' : List Event)
    (n : ℕ) (last : Bool) (h : s.workers j = .flushing batch' n last) :
    (s.setWorker i w).workers j = .flushing batch' n last := by
  have hne : j ≠ i := by
    rintro rfl
    rw [waiting] at h
    cases h
  exact (Function.update_of_ne hne w s.workers).trans h

/-- A flush ends: it is reported, and the worker goes on. -/
def endFlush (s : MemoryPipeline p) (i : Fin p.workers) (batch : List Event) (last : Bool)
    (info : FlushInfo) (st : Store) : MemoryPipeline p :=
  { s.setWorker i (.flushed last) with
    store := st
    flushes := s.flushes ++ [(batch, info)] }

/-- One step of the process, for a queue of the given size. -/
inductive Step (c : Postgres) (size : ℕ) (s : MemoryPipeline p) : MemoryPipeline p → Prop
  /-- `Enqueue` finds the flag unset. -/
  | check (door : Door) (e : Event) (unset : s.main.flag = false)
      (runs : door = .grpc → s.main.grpcRuns = true) :
      Step c size s { s with calls := (door, e) ::ₘ s.calls }
  /-- The send finds room: nil. -/
  | send (door : Door) (e : Event) (calls : Multiset (Door × Event))
      (call : s.calls = (door, e) ::ₘ calls) (isOpen : s.main.chanClosed = false)
      (room : s.buf.length < size) :
      Step c size s
        { s with buf := s.buf ++ [e], calls := calls, accepted := s.accepted ++ [e] }
  /-- The send meets a worker waiting on the empty channel: nil. -/
  | handoff (door : Door) (e : Event) (calls : Multiset (Door × Event)) (i : Fin p.workers)
      (batch : List Event) (call : s.calls = (door, e) ::ₘ calls)
      (isOpen : s.main.chanClosed = false) (empty : s.buf = [])
      (worker : s.workers i = .waiting batch) :
      Step c size s
        { s.setWorker i (.receive p batch e) with
          calls := calls
          accepted := s.accepted ++ [e] }
  /-- The send finds the channel full: `ErrFull`. -/
  | full (door : Door) (e : Event) (calls : Multiset (Door × Event))
      (call : s.calls = (door, e) ::ₘ calls) (isOpen : s.main.chanClosed = false)
      (noRoom : size ≤ s.buf.length) : Step c size s { s with calls := calls }
  /-- The send finds the channel closed: it panics, and the handler is gone. -/
  | panics (door : Door) (e : Event) (calls : Multiset (Door × Event))
      (call : s.calls = (door, e) ::ₘ calls) (isClosed : s.main.chanClosed = true) :
      Step c size s { s with calls := calls }
  /-- A worker receives an event. -/
  | receive (i : Fin p.workers) (batch : List Event) (e : Event) (rest : List Event)
      (worker : s.workers i = .waiting batch) (head : s.buf = e :: rest) :
      Step c size s { s.setWorker i (.receive p batch e) with buf := rest }
  /-- A worker's ticker fires. -/
  | tick (i : Fin p.workers) (batch : List Event) (worker : s.workers i = .waiting batch) :
      Step c size s (s.setWorker i (.flush batch false))
  /-- A worker finds the channel closed and drained. -/
  | drained (i : Fin p.workers) (batch : List Event) (worker : s.workers i = .waiting batch)
      (isClosed : s.main.chanClosed = true) (empty : s.buf = []) :
      Step c size s (s.setWorker i (.flush batch true))
  /-- An attempt of a flush returns. -/
  | flushOk (i : Fin p.workers) (batch : List Event) (n : ℕ) (last : Bool) (k : ℕ) (st : Store)
      (worker : s.workers i = .flushing batch n last)
      (attempt : Attempt c batch s.store (some k) st) :
      Step c size s (s.endFlush i batch last (.ok batch k) st)
  /-- An attempt of a flush fails, and another one follows. -/
  | flushRetry (i : Fin p.workers) (batch : List Event) (n : ℕ) (last : Bool) (st : Store)
      (worker : s.workers i = .flushing batch n last)
      (attempt : Attempt c batch s.store none st) (again : (Policy.flush p.maxRetries).retry n) :
      Step c size s { s.setWorker i (.flushing batch (n + 1) last) with store := st }
  /-- The last attempt of a flush fails, and the batch is dropped. -/
  | flushDrop (i : Fin p.workers) (batch : List Event) (n : ℕ) (last : Bool) (st : Store)
      (worker : s.workers i = .flushing batch n last)
      (attempt : Attempt c batch s.store none st) (stop : (Policy.flush p.maxRetries).giveUp n) :
      Step c size s (s.endFlush i batch last (.dropped batch) st)
  /-- `Shutdown` returns. -/
  | httpStop (main : s.main = .serving) : Step c size s { s with main := .httpStopped }
  /-- `GracefulStop` returns: no gRPC call is in flight. -/
  | grpcStop (main : s.main = .httpStopped) (quiet : ∀ call ∈ s.calls, call.1 ≠ .grpc) :
      Step c size s { s with main := .grpcStopped }
  /-- `Close` sets the flag. -/
  | setFlag (main : s.main = .grpcStopped) : Step c size s { s with main := .closing }
  /-- `Close` closes the channel. -/
  | closeChan (main : s.main = .closing) : Step c size s { s with main := .closed }
  /-- `Wait` returns: every worker has. -/
  | wait (main : s.main = .closed) (exited : ∀ i, s.workers i = .exited) :
      Step c size s { s with main := .done }

/-- The states of the process, started on the tables `st`. -/
def Reachable (c : Postgres) (size : ℕ) (st : Store) (s : MemoryPipeline p) : Prop :=
  Relation.ReflTransGen (Step c size) (init p st) s

end MemoryPipeline

end Tally
