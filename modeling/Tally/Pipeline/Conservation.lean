import Mathlib.Algebra.BigOperators.Group.Finset.Piecewise
import Mathlib.Tactic.Abel
import Tally.Pipeline.Memory

/-!
# The memory pipeline loses nothing

An accepted event is in the channel, in the batch of a worker, or in a flushed batch, and in one
place as often as it was accepted. A worker returns only when the channel is closed and drained,
so when `Wait` returns everything accepted has been flushed.

## Main definitions

* `MemoryPipeline.held`, `MemoryPipeline.flushed`: the events in the workers' batches and in the
  flushed batches
* `MemoryPipeline.Inv`: the invariant

## Main results

* `MemoryPipeline.Step.inv`, `MemoryPipeline.Reachable.inv`: the invariant holds in every state
* `accepted_events_are_flushed`: what holds when `Wait` returns
-/

namespace Tally

namespace MemoryPipeline

variable {p : Pool} {c : Postgres} {size : ℕ} {st : Store} {s s' : MemoryPipeline p}

/-- The events in the batches of the workers. -/
def held (s : MemoryPipeline p) : Multiset Event := ∑ i, ((s.workers i).batch : Multiset Event)

/-- The events of the flushed batches. -/
def flushed (s : MemoryPipeline p) : Multiset Event := (s.flushes.flatMap Prod.fst : List Event)

/-- One worker's batch is replaced. -/
theorem held_setWorker (s : MemoryPipeline p) (i : Fin p.workers) (w : Worker) :
    (s.setWorker i w).held + (s.workers i).batch = s.held + w.batch := by
  have hupd : ∀ j, ((Function.update s.workers i w j).batch : Multiset Event) =
      Function.update (fun j => ((s.workers j).batch : Multiset Event)) i w.batch j := fun j => by
    by_cases hj : j = i
    · subst hj
      simp
    · simp [Function.update_of_ne hj]
  have hsplit := Finset.add_sum_erase Finset.univ
    (fun j => ((s.workers j).batch : Multiset Event)) (Finset.mem_univ i)
  simp only [held, setWorker, hupd]
  rw [Finset.sum_update_of_mem (Finset.mem_univ i), ← hsplit, Finset.sdiff_singleton_eq_erase]
  abel

theorem held_setWorker_append (s : MemoryPipeline p) {i : Fin p.workers} {w : Worker}
    {more : List Event} (h : w.batch = (s.workers i).batch ++ more) :
    (s.setWorker i w).held = s.held + more := by
  have hheld := s.held_setWorker i w
  rw [h, ← Multiset.coe_add] at hheld
  refine add_right_cancel (b := ((s.workers i).batch : Multiset Event)) (hheld.trans ?_)
  abel

theorem held_setWorker_same (s : MemoryPipeline p) {i : Fin p.workers} {w : Worker}
    (h : w.batch = (s.workers i).batch) : (s.setWorker i w).held = s.held := by
  have hheld := s.held_setWorker i w
  rw [h] at hheld
  exact add_right_cancel hheld

/-- **The invariant of the process.** -/
structure Inv (s : MemoryPipeline p) : Prop where
  conserved : (s.accepted : Multiset Event) = s.buf + s.held + s.flushed
  wellSized : ∀ i, (s.workers i).WellSized p
  flushes : ∀ f ∈ s.flushes, 1 ≤ f.1.length ∧ f.1.length ≤ p.batchSize ∧
    f.2.batchSize = f.1.length ∧ (f.2.err = false → ∀ e ∈ f.1, e.eventId ∈ s.store.ids)
  drained : ∀ i, (s.workers i).Ending → s.main.chanClosed = true ∧ s.buf = []
  quiet : s.main.grpcRuns = false → ∀ call ∈ s.calls, call.1 ≠ .grpc
  done : s.main = .done → ∀ i, s.workers i = .exited

theorem inv_init (p : Pool) (st : Store) : (init p st).Inv where
  conserved := by simp [init, held, flushed, Worker.batch]
  wellSized _ := p.batchSize_pos
  flushes f hf := absurd hf List.not_mem_nil
  drained _ hi := absurd hi id
  quiet _ call hcall := absurd hcall (Multiset.notMem_zero call)
  done hdone := by cases hdone

/-- A flush ends: its batch moves from the worker to the flushed ones. -/
theorem conserved_endFlush (h : s.Inv) {i : Fin p.workers} {batch : List Event} {n : ℕ}
    {last : Bool} (worker : s.workers i = .flushing batch n last) (info : FlushInfo) (st : Store) :
    ((s.endFlush i batch last info st).accepted : Multiset Event) =
      (s.endFlush i batch last info st).buf + (s.endFlush i batch last info st).held +
        (s.endFlush i batch last info st).flushed := by
  have hheld := s.held_setWorker i (.flushed last)
  rw [worker, Worker.batch_flushed, Multiset.coe_nil, add_zero] at hheld
  have hflushed : (s.endFlush i batch last info st).flushed = s.flushed + batch := by
    simp [endFlush, flushed]
  rw [hflushed]
  show (s.accepted : Multiset Event) = s.buf + (s.setWorker i (.flushed last)).held + _
  rw [h.conserved, ← hheld]
  show _ + (_ + (batch : Multiset Event)) + _ = _
  abel

/-- A worker other than the one that changes keeps its properties. -/
theorem forall_update (P : Worker → Prop) (h : ∀ i, P (s.workers i)) {i : Fin p.workers}
    {w : Worker} (hw : P w) : ∀ j, P (Function.update s.workers i w j) :=
  (Function.forall_update_iff s.workers fun _ w => P w).mpr ⟨hw, fun j _ => h j⟩

theorem Inv.endFlush (h : s.Inv) {i : Fin p.workers} {batch : List Event} {n : ℕ}
    {last : Bool} (worker : s.workers i = .flushing batch n last) {info : FlushInfo} {st : Store}
    (hsize : info.batchSize = batch.length) (hids : ∀ id ∈ s.store.ids, id ∈ st.ids)
    (hok : info.err = false → ∀ e ∈ batch, e.eventId ∈ st.ids) :
    (s.endFlush i batch last info st).Inv where
  conserved := conserved_endFlush h worker info st
  wellSized := forall_update (Worker.WellSized p) h.wellSized (Worker.wellSized_flushed p last)
  flushes f hf := by
    rcases List.mem_append.mp hf with hold | hnew
    · obtain ⟨hpos, hle, hlen, hstored⟩ := h.flushes f hold
      exact ⟨hpos, hle, hlen, fun hnil e he => hids _ (hstored hnil e he)⟩
    · obtain rfl := List.mem_singleton.mp hnew
      have hw := h.wellSized i
      rw [worker] at hw
      exact ⟨hw.1, hw.2, hsize, hok⟩
  drained := by
    refine forall_update (fun w => w.Ending → s.main.chanClosed = true ∧ s.buf = []) h.drained
      fun hlast => h.drained i ?_
    rw [worker]
    exact (Worker.ending_flushed last).mp hlast
  quiet := h.quiet
  done hdone := by
    have hexit := h.done hdone i
    rw [worker] at hexit
    cases hexit

/-- A worker goes on, with or without an event, while no flush ends. -/
theorem Inv.setWorker (h : s.Inv) {i : Fin p.workers} {w : Worker} {buf accepted : List Event}
    {calls : Multiset (Door × Event)} {st : Store} (hrun : s.workers i ≠ .exited)
    (hcons : (accepted : Multiset Event) = buf + (s.setWorker i w).held + s.flushed)
    (hw : w.WellSized p) (hids : ∀ id ∈ s.store.ids, id ∈ st.ids)
    (hbuf : s.main.chanClosed = true ∧ s.buf = [] → buf = [])
    (hend : w.Ending → s.main.chanClosed = true ∧ buf = [])
    (hcalls : ∀ call ∈ calls, call ∈ s.calls) :
    Inv { s.setWorker i w with
      buf := buf, accepted := accepted, calls := calls, store := st } where
  conserved := hcons
  wellSized := forall_update (Worker.WellSized p) h.wellSized hw
  flushes f hf := by
    obtain ⟨hpos, hle, hlen, hstored⟩ := h.flushes f hf
    exact ⟨hpos, hle, hlen, fun hnil e he => hids _ (hstored hnil e he)⟩
  drained := forall_update (fun w => w.Ending → s.main.chanClosed = true ∧ buf = [])
    (fun j hj => ⟨(h.drained j hj).1, hbuf (h.drained j hj)⟩) hend
  quiet hm call hcall := h.quiet hm call (hcalls call hcall)
  done hdone := absurd (h.done hdone i) hrun

/-- A waiting worker takes an event, from the buffer or straight from its sender. -/
theorem Inv.receive (h : s.Inv) {i : Fin p.workers} {batch : List Event}
    (worker : s.workers i = .waiting batch) (e : Event) {buf accepted : List Event}
    {calls : Multiset (Door × Event)}
    (hcons : (accepted : Multiset Event) = buf + (s.held + ([e] : List Event)) + s.flushed)
    (hbuf : s.main.chanClosed = true ∧ s.buf = [] → buf = [])
    (hcalls : ∀ call ∈ calls, call ∈ s.calls) :
    Inv { s.setWorker i (.receive p batch e) with
      buf := buf, accepted := accepted, calls := calls } := by
  have hw := h.wellSized i
  rw [worker] at hw
  have hheld : (s.setWorker i (.receive p batch e)).held = s.held + ([e] : List Event) :=
    s.held_setWorker_append (by rw [Worker.batch_receive, worker]; rfl)
  refine h.setWorker (by simp [worker]) ?_ (Worker.wellSized_receive hw e) (fun _ hid => hid) hbuf
    (fun hend => absurd hend (Worker.not_ending_receive p batch e)) hcalls
  rw [hheld, hcons]

/-- A waiting worker begins a flush: its last one only when the channel is closed and drained. -/
theorem Inv.beginFlush (h : s.Inv) {i : Fin p.workers} {batch : List Event}
    (worker : s.workers i = .waiting batch) (last : Bool)
    (hlast : last = true → s.main.chanClosed = true ∧ s.buf = []) :
    (s.setWorker i (.flush batch last)).Inv := by
  have hw := h.wellSized i
  rw [worker] at hw
  have hheld : (s.setWorker i (.flush batch last)).held = s.held :=
    s.held_setWorker_same (by rw [Worker.batch_flush, worker]; rfl)
  refine h.setWorker (by simp [worker]) ?_ (Worker.wellSized_flush (le_of_lt hw) last)
    (fun _ hid => hid) (fun hd => hd.2) (fun hend => hlast (by simpa using hend)) fun _ hx => hx
  rw [hheld, h.conserved]

/-- `main` goes on: a closed channel stays closed, and the gRPC server stops when it is quiet. -/
theorem Inv.setMain (h : s.Inv) {main : Main}
    (hchan : s.main.chanClosed = true → main.chanClosed = true)
    (hquiet : main.grpcRuns = false → ∀ call ∈ s.calls, call.1 ≠ .grpc)
    (hdone : main = .done → ∀ i, s.workers i = .exited) :
    Inv { s with main := main } where
  conserved := h.conserved
  wellSized := h.wellSized
  flushes := h.flushes
  drained i hi := ⟨hchan (h.drained i hi).1, (h.drained i hi).2⟩
  quiet := hquiet
  done := hdone

theorem mem_of_calls_eq {x : Door × Event} {calls : Multiset (Door × Event)}
    (h : s.calls = x ::ₘ calls) {y : Door × Event} (hy : y ∈ calls) : y ∈ s.calls :=
  h ▸ Multiset.mem_cons_of_mem hy

/-- **Every step keeps the invariant.** -/
theorem Step.inv (hstep : Step c size s s') (h : s.Inv) : s'.Inv := by
  cases hstep with
  | check door e unset runs =>
    refine ⟨h.conserved, h.wellSized, h.flushes, h.drained, fun hm call hcall => ?_, h.done⟩
    rcases Multiset.mem_cons.mp hcall with rfl | hold
    · intro hdoor
      rw [runs hdoor] at hm
      cases hm
    · exact h.quiet hm call hold
  | send door e calls call isOpen room =>
    refine ⟨?_, h.wellSized, h.flushes, fun i hi => ?_,
      fun hm x hx => h.quiet hm x (mem_of_calls_eq call hx), h.done⟩
    · show ((s.accepted ++ [e] : List Event) : Multiset Event) =
        ((s.buf ++ [e] : List Event) : Multiset Event) + s.held + s.flushed
      rw [← Multiset.coe_add, ← Multiset.coe_add, h.conserved]
      abel
    · rw [(h.drained i hi).1] at isOpen
      cases isOpen
  | handoff door e calls i batch call isOpen empty worker =>
    refine h.receive worker e ?_ (fun hd => hd.2) fun x hx => mem_of_calls_eq call hx
    rw [← Multiset.coe_add, h.conserved, setWorker_buf]
    abel
  | full door e calls call isOpen noRoom =>
    exact ⟨h.conserved, h.wellSized, h.flushes, h.drained,
      fun hm x hx => h.quiet hm x (mem_of_calls_eq call hx), h.done⟩
  | panics door e calls call isClosed =>
    exact ⟨h.conserved, h.wellSized, h.flushes, h.drained,
      fun hm x hx => h.quiet hm x (mem_of_calls_eq call hx), h.done⟩
  | receive i batch e rest worker head =>
    refine h.receive worker e ?_ (fun hd => ?_) fun _ hx => hx
    · have hbuf : (s.buf : Multiset Event) = rest + ([e] : List Event) := by
        rw [head, ← Multiset.cons_coe, Multiset.coe_singleton, add_comm, Multiset.singleton_add]
      rw [setWorker_accepted, h.conserved, hbuf]
      abel
    · rw [hd.2] at head
      cases head
  | tick i batch worker => exact h.beginFlush worker false (by simp)
  | drained i batch worker isClosed empty =>
    exact h.beginFlush worker true fun _ => ⟨isClosed, empty⟩
  | flushOk i batch n last k st worker attempt =>
    exact h.endFlush worker rfl (fun _ hid => attempt.ids_subset hid)
      fun _ e he => attempt.mem_ids he
  | flushRetry i batch n last st worker attempt again =>
    have hw := h.wellSized i
    have hd := h.drained i
    rw [worker] at hw hd
    have hheld := s.held_setWorker_same (i := i) (w := .flushing batch (n + 1) last)
      (by rw [worker]; rfl)
    refine h.setWorker (by simp [worker]) ?_ hw (fun _ hid => attempt.ids_subset hid)
      (fun hd => hd.2) hd fun _ hx => hx
    rw [hheld, setWorker_accepted, setWorker_buf, h.conserved]
  | flushDrop i batch n last st worker attempt stop =>
    exact h.endFlush worker rfl (fun _ hid => attempt.ids_subset hid)
      fun herr => absurd herr (by simp [FlushInfo.dropped])
  | httpStop main =>
    exact h.setMain (by simp [main, Main.chanClosed]) (by simp [Main.grpcRuns]) (by simp)
  | grpcStop main quiet =>
    exact h.setMain (by simp [main, Main.chanClosed]) (fun _ => quiet) (by simp)
  | setFlag main =>
    have hquiet := h.quiet (by simp [main, Main.grpcRuns])
    exact h.setMain (by simp [main, Main.chanClosed]) (fun _ => hquiet) (by simp)
  | closeChan main =>
    have hquiet := h.quiet (by simp [main, Main.grpcRuns])
    exact h.setMain (fun _ => rfl) (fun _ => hquiet) (by simp)
  | wait main exited =>
    have hquiet := h.quiet (by simp [main, Main.grpcRuns])
    exact h.setMain (fun _ => rfl) (fun _ => hquiet) fun _ => exited

/-- **The invariant holds in every state reached.** -/
theorem Reachable.inv (h : Reachable c size st s) : s.Inv := by
  induction h with
  | refl => exact inv_init p st
  | tail _ hstep ih => exact hstep.inv ih

/-- No gRPC call meets the closed channel: only handlers `Shutdown` gave up on can panic. -/
theorem Reachable.panics_http (h : Reachable c size st s) (hclosed : s.main.chanClosed = true)
    {call : Door × Event} (hcall : call ∈ s.calls) : call.1 = .http := by
  have hruns : s.main.grpcRuns = false := by
    cases hmain : s.main <;> simp_all [Main.chanClosed, Main.grpcRuns]
  have hne := h.inv.quiet hruns call hcall
  cases hdoor : call.1 with
  | http => rfl
  | grpc => exact absurd hdoor hne

end MemoryPipeline

/-- **The memory pipeline loses nothing and invents nothing.** When `Wait` returns, the events for
which `Enqueue` returned nil are those of the flushed batches, counted with multiplicity; every
flushed batch has between one and `BatchSize` events; and each was stored, or was reported through
`OnFlush` with an error. -/
theorem accepted_events_are_flushed {p : Pool} {c : Postgres} {size : ℕ} {st : Store}
    {s : MemoryPipeline p} (h : MemoryPipeline.Reachable c size st s) (hdone : s.main = .done) :
    s.accepted.Perm (s.flushes.flatMap Prod.fst) ∧
    (∀ f ∈ s.flushes, 1 ≤ f.1.length ∧ f.1.length ≤ p.batchSize) ∧
    ∀ f ∈ s.flushes, f.2.batchSize = f.1.length ∧
      (f.2.err = true ∨ f.2.err = false ∧ ∀ e ∈ f.1, e.eventId ∈ s.store.ids) := by
  have hinv := h.inv
  have hexit := hinv.done hdone
  refine ⟨?_, fun f hf => ⟨(hinv.flushes f hf).1, (hinv.flushes f hf).2.1⟩, fun f hf => ?_⟩
  · have hbuf : s.buf = [] :=
      (hinv.drained ⟨0, p.workers_pos⟩ (by rw [hexit]; trivial)).2
    have hheld : s.held = 0 := by simp [MemoryPipeline.held, hexit, Worker.batch]
    have hcons := hinv.conserved
    rw [hbuf, hheld, Multiset.coe_nil, zero_add, zero_add] at hcons
    exact Multiset.coe_eq_coe.mp hcons
  · obtain ⟨-, -, hlen, hstored⟩ := hinv.flushes f hf
    refine ⟨hlen, ?_⟩
    cases herr : f.2.err with
    | true => exact .inl rfl
    | false => exact .inr ⟨rfl, hstored herr⟩

/-- Two clicks are past the check when the process shuts down: one is sent and flushed, the send of
the other meets the closed channel. -/
theorem accepted_events_are_flushed_two_clicks :
    let e₁ : Event := ⟨"e1", "buy_click", "u1", none, 0⟩
    ∃ s : MemoryPipeline (.new ⟨1, 2, 0⟩), MemoryPipeline.Reachable .bytewise 10 .empty s ∧
      s.main = .done ∧ s.accepted = [e₁] ∧ s.accepted.Perm (s.flushes.flatMap Prod.fst) := by
  intro e₁
  let e₂ : Event := ⟨"e2", "buy_click", "u2", none, 0⟩
  have htakes : Postgres.bytewise.Takes e₁ := by decide +kernel
  obtain ⟨st, n, hst⟩ := exists_insertBatch_eq_ok (Batch.accepts_single htakes _) allDecode_empty
  let p : Pool := .new ⟨1, 2, 0⟩
  let i : Fin p.workers := ⟨0, p.workers_pos⟩
  have hone : ∀ j : Fin p.workers, j = i := fun j => Subsingleton.elim (α := Fin 1) j i
  have hsent : MemoryPipeline.Reachable .bytewise 10 .empty
      (⟨[e₁], {(.http, e₂)}, fun _ => .waiting [], .serving, .empty, [e₁], []⟩ :
        MemoryPipeline p) :=
    .tail (.tail (.single (.check .http e₂ rfl (by simp))) (.check .http e₁ rfl (by simp)))
      (.send .http e₁ {(.http, e₂)} rfl rfl (by decide))
  have hclosed : MemoryPipeline.Reachable .bytewise 10 .empty
      (⟨[e₁], {(.http, e₂)}, fun _ => .waiting [], .closed, .empty, [e₁], []⟩ : MemoryPipeline p) :=
    .tail (.tail (.tail (.tail hsent (.httpStop rfl)) (.grpcStop rfl (by simp))) (.setFlag rfl))
      (.closeChan rfl)
  have hpanic := hclosed.tail (.panics .http e₂ 0 rfl rfl)
  have hreceived := hpanic.tail (.receive i [] e₁ [] rfl rfl)
  have hdrained := hreceived.tail (.drained i [e₁] rfl rfl rfl)
  have hflushed := hdrained.tail (.flushOk i [e₁] 1 true n st rfl (.ok (.single _ e₁) rfl hst))
  have hdone := hflushed.tail (.wait rfl fun j => by
    rw [hone j]
    rfl)
  exact ⟨_, hdone, rfl, rfl, (accepted_events_are_flushed hdone rfl).1⟩

end Tally
