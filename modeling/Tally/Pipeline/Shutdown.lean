import Tally.Foundation.Descent
import Tally.Pipeline.Conservation

/-!
# The memory pipeline shuts down

Once the channel is closed nothing more is accepted, and what is left to do is bounded: the events
in the channel are received once each, a batch is tried at most `MaxRetries` times, and a worker
returns when the channel is drained. Ticks of workers with an empty batch change nothing. So after
`Close` every run comes to its end after a bounded number of steps, however the attempts of the
flushes come out, and the end is that `Wait` has returned.

## Main definitions

* `Worker.stepsLeft`, `MemoryPipeline.stepsLeft`: a bound of the steps that are left
* `MemoryPipeline.Moves`: a step that changes the state

## Main results

* `MemoryPipeline.descends`: every step after the close lowers the bound
* `MemoryPipeline.exists_moves`: something is left to do until `Wait` has returned
* `shutdown_terminates`: every run after the close ends, with `Wait` returned
-/

namespace Tally

open Foundation

/-- The steps that a worker has before it after the close, if it receives nothing more: the attempts
of a flush, and its return. -/
def Worker.stepsLeft (p : Pool) : Worker → ℕ
  | .waiting batch => if batch.length = 0 then 1 else p.maxRetries + 2
  | .flushing _ attempt last => p.maxRetries - attempt + 1 + if last then 0 else 1
  | .exited => 0

namespace MemoryPipeline

variable {p : Pool} {c : Postgres} {size : ℕ} {s s' : MemoryPipeline p}

/-- The steps that are left after the close. An event in the channel is received, and may be the
first of a batch. -/
def stepsLeft (s : MemoryPipeline p) : ℕ :=
  (p.maxRetries + 2) * s.buf.length + ∑ i, (s.workers i).stepsLeft p + s.calls.card +
    match s.main with
    | .done => 0
    | _ => 1

/-- A step that changes the state. -/
def Moves (c : Postgres) (size : ℕ) (s s' : MemoryPipeline p) : Prop := Step c size s s' ∧ s' ≠ s

theorem sum_setWorker (s : MemoryPipeline p) (i : Fin p.workers) (w : Worker) :
    ∑ j, ((s.setWorker i w).workers j).stepsLeft p + (s.workers i).stepsLeft p =
      ∑ j, (s.workers j).stepsLeft p + w.stepsLeft p := by
  have hupd : ∀ j, ((s.setWorker i w).workers j).stepsLeft p =
      Function.update (fun j => (s.workers j).stepsLeft p) i (w.stepsLeft p) j := fun j => by
    by_cases hj : j = i
    · subst hj
      simp [setWorker]
    · simp [setWorker, Function.update_of_ne hj]
  simp only [hupd]
  have hsplit := Finset.add_sum_erase Finset.univ (fun j => (s.workers j).stepsLeft p)
    (Finset.mem_univ i)
  rw [Finset.sum_update_of_mem (Finset.mem_univ i), Finset.sdiff_singleton_eq_erase]
  omega

/-- The close is for good. -/
theorem chanClosed_of_step (hstep : Step c size s s') (h : s.main.chanClosed = true) :
    s'.main.chanClosed = true := by
  cases hstep with
  | httpStop main => rw [main] at h; cases h
  | grpcStop main quiet => rw [main] at h; cases h
  | setFlag main => rw [main] at h; cases h
  | closeChan main => rfl
  | wait main exited => rfl
  | _ => exact h

/-- A worker goes on, and has fewer steps before it. -/
theorem stepsLeft_setWorker {i : Fin p.workers} {w : Worker} {st : Store}
    {flushes : List (List Event × FlushInfo)}
    (hw : w.stepsLeft p < (s.workers i).stepsLeft p) :
    stepsLeft { s.setWorker i w with store := st, flushes := flushes } < s.stepsLeft := by
  have hsum := s.sum_setWorker i w
  unfold stepsLeft
  simp only [setWorker] at hsum ⊢
  omega

theorem stepsLeft_flush {batch : List Event} (hne : batch.length ≠ 0) (last : Bool) :
    (Worker.flush batch last).stepsLeft p < (Worker.waiting batch).stepsLeft p := by
  have hpos := p.maxRetries_pos
  simp only [Worker.flush, if_neg hne, Worker.stepsLeft]
  split_ifs <;> omega

theorem stepsLeft_flushed (p : Pool) (batch : List Event) (n : ℕ) (last : Bool) :
    (Worker.flushed last).stepsLeft p < (Worker.flushing batch n last).stepsLeft p := by
  cases last <;> simp [Worker.flushed, Worker.stepsLeft]

theorem stepsLeft_receive (p : Pool) (batch : List Event) (e : Event) :
    (Worker.receive p batch e).stepsLeft p < (Worker.waiting batch).stepsLeft p +
      (p.maxRetries + 2) := by
  have hne : (batch ++ [e]).length ≠ 0 := by simp
  have hflush := stepsLeft_flush (p := p) hne false
  unfold Worker.receive
  have hwaiting : (Worker.waiting (batch ++ [e])).stepsLeft p = p.maxRetries + 2 := by
    rw [Worker.stepsLeft, if_neg hne]
  have hpos : 0 < (Worker.waiting batch).stepsLeft p := by
    rw [Worker.stepsLeft]
    split_ifs <;> omega
  split_ifs <;> omega

theorem flag_of_chanClosed {m : Main} (h : m.chanClosed = true) : m.flag = true := by
  cases m <;> first | rfl | cases h

/-- **Every step after the close that changes the state lowers the bound.** -/
theorem stepsLeft_lt (hmoves : Moves c size s s') (h : s.main.chanClosed = true) :
    s'.stepsLeft < s.stepsLeft := by
  obtain ⟨hstep, hne⟩ := hmoves
  cases hstep with
  | check door e unset runs =>
    rw [flag_of_chanClosed h] at unset
    cases unset
  | send door e calls call isOpen room =>
    rw [h] at isOpen
    cases isOpen
  | handoff door e calls i batch call isOpen empty worker =>
    rw [h] at isOpen
    cases isOpen
  | full door e calls call isOpen noRoom =>
    rw [h] at isOpen
    cases isOpen
  | panics door e calls call isClosed => simp [stepsLeft, call]
  | receive i batch e rest worker head =>
    have hsum := s.sum_setWorker i (.receive p batch e)
    have hworker := stepsLeft_receive p batch e
    rw [worker] at hsum
    simp only [stepsLeft, head, List.length_cons, Nat.mul_add, setWorker] at hsum ⊢
    omega
  | tick i batch worker =>
    have hbatch : batch.length ≠ 0 := by
      intro hnil
      refine hne ?_
      have hsame : Worker.flush batch false = s.workers i := by
        rw [worker, Worker.flush, if_pos hnil, List.length_eq_zero_iff.mp hnil]
        rfl
      rw [setWorker, hsame, Function.update_eq_self]
    exact stepsLeft_setWorker (by rw [worker]; exact stepsLeft_flush hbatch false)
  | drained i batch worker isClosed empty =>
    refine stepsLeft_setWorker ?_
    rw [worker]
    by_cases hnil : batch.length = 0
    · simp [Worker.flush, hnil, Worker.flushed, Worker.stepsLeft]
    · exact stepsLeft_flush hnil true
  | flushOk i batch n last k st worker attempt =>
    exact stepsLeft_setWorker (by rw [worker]; exact stepsLeft_flushed p batch n last)
  | flushRetry i batch n last st worker attempt again =>
    refine stepsLeft_setWorker ?_
    have hagain : n < p.maxRetries := again
    rw [worker]
    simp only [Worker.stepsLeft]
    omega
  | flushDrop i batch n last st worker attempt stop =>
    exact stepsLeft_setWorker (by rw [worker]; exact stepsLeft_flushed p batch n last)
  | httpStop main => rw [main] at h; cases h
  | grpcStop main quiet => rw [main] at h; cases h
  | setFlag main => rw [main] at h; cases h
  | closeChan main => rw [main] at h; cases h
  | wait main exited => simp [stepsLeft, main]

theorem descends (c : Postgres) (size : ℕ) :
    Descends (Moves c size) (fun s : MemoryPipeline p => s.main.chanClosed = true) stepsLeft where
  keeps h hmoves := chanClosed_of_step hmoves.1 h
  lowers h hmoves := stepsLeft_lt hmoves h

/-- A step after which a worker is in another state. -/
theorem moves_of_worker {i : Fin p.workers} (hstep : Step c size s s')
    (hne : s'.workers i ≠ s.workers i) : Moves c size s s' :=
  ⟨hstep, fun heq => hne (by rw [heq])⟩

/-- **Until `Wait` has returned, something is left to do**, whatever the database answers. -/
theorem exists_moves (c : Postgres) (size : ℕ) (h : s.main.chanClosed = true)
    (hdone : s.main ≠ .done) : ∃ s', Moves c size s s' := by
  have hmain : s.main = .closed := by
    cases hm : s.main <;> simp_all [Main.chanClosed]
  by_cases hexited : ∀ i, s.workers i = .exited
  · refine ⟨_, .wait hmain hexited, fun heq => ?_⟩
    have hclosed := congrArg MemoryPipeline.main heq
    rw [hmain] at hclosed
    cases hclosed
  obtain ⟨i, hi⟩ := not_forall.mp hexited
  cases hw : s.workers i with
  | exited => exact absurd hw hi
  | flushing batch n last =>
    by_cases hagain : n < p.maxRetries
    · refine ⟨_, moves_of_worker (.flushRetry i batch n last s.store hw .rollback hagain)
        (i := i) ?_⟩
      simp [setWorker, hw]
    · refine ⟨_, moves_of_worker (.flushDrop i batch n last s.store hw .rollback hagain)
        (i := i) ?_⟩
      cases last <;> simp [endFlush, setWorker, hw, Worker.flushed]
  | waiting batch =>
    cases hbuf : s.buf with
    | nil =>
      refine ⟨_, moves_of_worker (.drained i batch hw h hbuf) (i := i) fun heq => ?_⟩
      have hending : (Worker.flush batch true).Ending := (Worker.ending_flush batch true).mpr rfl
      simp only [setWorker, Function.update_self, hw] at heq
      rw [heq] at hending
      exact hending
    | cons e rest =>
      refine ⟨_, .receive i batch e rest hw hbuf, fun heq => ?_⟩
      have hlen := congrArg (fun t => t.buf.length) heq
      simp [hbuf] at hlen

end MemoryPipeline

/-- **The shutdown ends.** From every state in which the channel is closed, every run of steps that
change the state is bounded by `stepsLeft`, however the attempts to insert come out and whatever
`MaxRetries` is. A run that has not come to the return of `Wait` has a next step, and can be
continued until `Wait` returns. -/
theorem shutdown_terminates {p : Pool} (c : Postgres) (size : ℕ) {s : MemoryPipeline p}
    (h : s.main.chanClosed = true) :
    (∀ (n : ℕ) (run : ℕ → MemoryPipeline p), run 0 = s →
      (∀ i < n, MemoryPipeline.Moves c size (run i) (run (i + 1))) → n ≤ s.stepsLeft) ∧
    ∀ s', Relation.ReflTransGen (MemoryPipeline.Step c size) s s' →
      (s'.main = .done ∨ ∃ s'', MemoryPipeline.Moves c size s' s'') ∧
      ∃ s'', Relation.ReflTransGen (MemoryPipeline.Moves c size) s' s'' ∧ s''.main = .done := by
  have hdescends := MemoryPipeline.descends (p := p) c size
  refine ⟨fun n run hrun hmoves => ?_, fun s' hs' => ?_⟩
  · subst hrun
    exact hdescends.length_le h hmoves
  · have hclosed : s'.main.chanClosed = true := by
      induction hs' with
      | refl => exact h
      | tail _ hstep ih => exact MemoryPipeline.chanClosed_of_step hstep ih
    have hnext : ∀ s : MemoryPipeline p, s.main.chanClosed = true → ¬ s.main = .done →
        ∃ s', MemoryPipeline.Moves c size s s' := fun s h hdone =>
      MemoryPipeline.exists_moves c size h hdone
    refine ⟨?_, hdescends.exists_final hnext hclosed⟩
    by_cases hdone : s'.main = .done
    · exact .inl hdone
    · exact .inr (hnext s' hclosed hdone)

/-- One worker, a closed channel with a click in it, and one attempt for each batch. -/
theorem shutdown_terminates_click :
    let s : MemoryPipeline (.new ⟨1, 2, 1⟩) :=
      ⟨[⟨"e1", "buy_click", "u1", none, 0⟩], 0, fun _ => .waiting [], .closed, .empty, [], []⟩
    s.main.chanClosed = true ∧ s.stepsLeft = 5 ∧
      ∃ s', Relation.ReflTransGen (MemoryPipeline.Moves .bytewise 10) s s' ∧ s'.main = .done := by
  intro s
  exact ⟨rfl, by decide, ((shutdown_terminates .bytewise 10 rfl).2 s .refl).2⟩

end Tally
