import Mathlib.Algebra.BigOperators.Ring.Finset
import Tally.Pipeline.Conservation
import Tally.Pipeline.Service

/-!
# The counters of the process balance

Every accepted event is counted once more when its batch is reported, as inserted, as a duplicate or
as dropped; until then it is in the channel or in the batch of a worker. The counters are raised by
the handlers and by `onFlush`, the events are moved by the pipeline, and one step does both or
neither.

## Main definitions

* `Service.Balanced`: the counters are those of what was accepted and flushed

## Main results

* `Service.Step.counts`: what one step counts
* `Service.Reachable.balanced`: the counters balance in every state
* `events_accounted`: the events accepted are counted as flushed, or still in the process
-/

namespace Tally

namespace MemoryPipeline

variable {p : Pool} {c : Postgres} {size : ℕ} {s s' : MemoryPipeline p}

/-- A step that accepts an event reports no flush, and leaves the tables as they are. -/
theorem Step.of_accepted (h : Step c size s s') {e : Event}
    (haccepted : s'.accepted = s.accepted ++ [e]) :
    s'.flushes = s.flushes ∧ s'.store = s.store := by
  have hne : s'.accepted ≠ s.accepted := by
    rw [haccepted]
    simp
  cases h with
  | send door e calls call isOpen room => exact ⟨rfl, rfl⟩
  | handoff door e calls i batch call isOpen empty worker => exact ⟨rfl, rfl⟩
  | _ => exact absurd rfl hne

theorem card_held (s : MemoryPipeline p) : s.held.card = ∑ i, (s.workers i).batch.length := by
  simp [held, Multiset.card_sum]

/-- Every accepted event is in the channel, with a worker, or in a flushed batch. -/
theorem Inv.length_accepted (h : s.Inv) : s.accepted.length =
    s.buf.length + ∑ i, (s.workers i).batch.length + s.flushed.card := by
  have hcard := congrArg Multiset.card h.conserved
  simpa [card_held] using hcard

theorem flushed_congr (h : s'.flushes = s.flushes) : s'.flushed = s.flushed := by
  unfold flushed
  rw [h]

theorem card_flushed_append {batch : List Event} {info : FlushInfo}
    (h : s'.flushes = s.flushes ++ [(batch, info)]) :
    s'.flushed.card = s.flushed.card + batch.length := by
  unfold flushed
  rw [h]
  simp

end MemoryPipeline

namespace Service

variable {p : Pool} {ι : Type*}

/-- **The counters are those of what was accepted and flushed.** -/
structure Balanced (s : Service p ι) : Prop where
  accepted : s.metrics.accepted = s.pipe.accepted.length
  flushed : s.metrics.inserted + s.metrics.duplicate + s.metrics.dropped = s.pipe.flushed.card
  reports : ∀ f ∈ s.pipe.flushes, f.2.Reports f.1

theorem balanced_init (p : Pool) (st : Store) : (init p ι st).Balanced where
  accepted := rfl
  flushed := by simp [init, Metrics.zero, MemoryPipeline.init, MemoryPipeline.flushed]
  reports f hf := absurd hf List.not_mem_nil

variable [DecidableEq ι] {c : Postgres} {size : ℕ} {may : Outcome → Prop} {st : Store}
  {s s' : Service p ι}

/-- **What one step counts**: an event that is accepted, a flush that is reported, or at most a
rejection. -/
theorem Step.counts (h : Step c size may s s') :
    (∃ e, s'.metrics = s.metrics.accept ∧ s'.pipe.accepted = s.pipe.accepted ++ [e] ∧
      s'.pipe.flushes = s.pipe.flushes) ∨
    (∃ batch info, info.Reports batch ∧ s'.metrics = s.metrics.onFlush info ∧
      s'.pipe.accepted = s.pipe.accepted ∧
      s'.pipe.flushes = s.pipe.flushes ++ [(batch, info)]) ∨
    ∃ label, s'.metrics = s.metrics.count label ∧ s'.pipe.accepted = s.pipe.accepted ∧
      s'.pipe.flushes = s.pipe.flushes := by
  cases h with
  | http i now r allowed idle => exact .inr (.inr ⟨_, rfl, rfl, rfl⟩)
  | grpc i now r allowed idle runs => exact .inr (.inr ⟨_, rfl, rfl, rfl⟩)
  | next i now index rest resp handler => exact .inr (.inr ⟨_, rfl, rfl, rfl⟩)
  | closed i door e next handler set => exact .inr (.inr ⟨some .shutdown, rfl, rfl, rfl⟩)
  | check i door e next handler unset runs => exact .inr (.inr ⟨none, rfl, rfl, rfl⟩)
  | sent i door e next pipe handler step call accepted =>
    exact .inl ⟨e, rfl, accepted, (step.of_accepted accepted).1⟩
  | full i door e next calls handler call isOpen noRoom =>
    exact .inr (.inr ⟨some .queueFull, rfl, rfl, rfl⟩)
  | panics i door e next calls handler call isClosed => exact .inr (.inr ⟨none, rfl, rfl, rfl⟩)
  | flushOk j batch n last k st worker attempt possible =>
    exact .inr (.inl ⟨batch, _, attempt.reports, rfl, rfl, rfl⟩)
  | flushRetry j batch n last o st worker attempt possible error again =>
    exact .inr (.inr ⟨none, rfl, rfl, rfl⟩)
  | flushDrop j batch n last o st worker attempt possible error stop =>
    exact .inr (.inl ⟨batch, _, .inl rfl, rfl, rfl, rfl⟩)
  | internal pipe step calls accepted flushes store flushing quiet =>
    exact .inr (.inr ⟨none, rfl, accepted, flushes⟩)

/-- **No step lowers a counter.** -/
theorem Step.metrics_le (h : Step c size may s s') : s.metrics.Le s'.metrics := by
  rcases h.counts with ⟨e, hm, -, -⟩ | ⟨batch, info, hinfo, hm, -, -⟩ | ⟨label, hm, -, -⟩
  · exact hm ▸ s.metrics.le_accept
  · exact hm ▸ hinfo.le_onFlush s.metrics
  · exact hm ▸ s.metrics.le_count label

/-- **Every step keeps the counters balanced.** -/
theorem Step.balanced (h : Step c size may s s') (hs : s.Balanced) : s'.Balanced := by
  rcases h.counts with ⟨e, hm, hacc, hfl⟩ | ⟨batch, info, hinfo, hm, hacc, hfl⟩ |
    ⟨label, hm, hacc, hfl⟩
  · refine ⟨?_, ?_, hfl ▸ hs.reports⟩
    · rw [hm, hacc, List.length_append, ← hs.accepted]
      rfl
    · rw [hm, MemoryPipeline.flushed_congr hfl, ← hs.flushed]
      rfl
  · refine ⟨?_, ?_, fun f hf => ?_⟩
    · rw [hm, hacc, Metrics.accepted_onFlush, hs.accepted]
    · rw [hm, hinfo.sum_onFlush, hs.flushed,
        MemoryPipeline.card_flushed_append hfl]
      push_cast
      rfl
    · rcases List.mem_append.mp (hfl ▸ hf) with hold | hnew
      · exact hs.reports f hold
      · obtain rfl := List.mem_singleton.mp hnew
        exact hinfo
  · have hcount : s'.metrics.accepted = s.metrics.accepted ∧
        s'.metrics.inserted = s.metrics.inserted ∧ s'.metrics.duplicate = s.metrics.duplicate ∧
        s'.metrics.dropped = s.metrics.dropped := by
      rw [hm]
      cases label <;> exact ⟨rfl, rfl, rfl, rfl⟩
    obtain ⟨h₁, h₂, h₃, h₄⟩ := hcount
    refine ⟨?_, ?_, hfl ▸ hs.reports⟩
    · rw [h₁, hacc, hs.accepted]
    · rw [h₂, h₃, h₄, MemoryPipeline.flushed_congr hfl, hs.flushed]

/-- **The counters balance in every state.** -/
theorem Reachable.balanced (h : Reachable c size may st s) : s.Balanced := by
  induction h with
  | refl => exact balanced_init p st
  | tail _ hstep ih => exact hstep.balanced ih

end Service

/-- **The events accepted are counted as inserted, duplicate or dropped, or are still in the
process.** In every state of the process, the counter of accepted events is the sum of the three
counters raised by `onFlush`, the depth of the queue and the sizes of the workers' batches; no
report has a negative number of duplicates, and no step lowers a counter. A batch in a flush counts
with its worker. -/
theorem events_accounted {p : Pool} {ι : Type*} [DecidableEq ι] {c : Postgres} {size : ℕ}
    {may : Outcome → Prop} {st : Store} {s : Service p ι}
    (h : Service.Reachable c size may st s) :
    (s.metrics.accepted : ℤ) = s.metrics.inserted + s.metrics.duplicate + s.metrics.dropped +
        s.pipe.buf.length + ∑ j, ((s.pipe.workers j).batch.length : ℤ) ∧
      (∀ f ∈ s.pipe.flushes, 0 ≤ f.2.duplicates) ∧
      ∀ s', Service.Step c size may s s' → s.metrics.Le s'.metrics := by
  have hbal := h.balanced
  refine ⟨?_, fun f hf => (hbal.reports f hf).nonneg.2, fun s' hstep => hstep.metrics_le⟩
  have hlen := h.pipe.inv.length_accepted
  rw [hbal.accepted, hbal.flushed, hlen]
  push_cast
  omega

/-- A click of one user. -/
def click : Event := ⟨"e1", "buy_click", "u1", none, 0⟩

theorem takes_click : Postgres.bytewise.Takes click := by decide +kernel

/-- A click is posted, received, and in the flush of a tick. -/
theorem exists_flushing_click (may : Outcome → Prop) :
    ∃ (s : Service (.new ⟨1, 2, 0⟩) Unit) (j : Fin (Pool.new ⟨1, 2, 0⟩).workers),
      Service.Reachable .bytewise 10 may .empty s ∧ s.pipe.workers j = .flushing [click] 1 false ∧
      s.pipe.accepted = [click] ∧ s.pipe.store = .empty ∧ s.metrics.inserted = 0 := by
  let p : Pool := .new ⟨1, 2, 0⟩
  let j : Fin p.workers := ⟨0, p.workers_pos⟩
  let r : HttpRequest := ⟨"", "203.0.113.7:4711", some ⟨"e1", "buy_click", "u1", none⟩⟩
  have hposted : Service.Reachable .bytewise 10 may .empty
      ((Service.init p Unit .empty).advance () (postStart 0 r true)) :=
    .single (.http () 0 r true rfl)
  have hchecked := hposted.tail (.check () .http click .idle rfl rfl (by simp))
  have hsent := hchecked.tail (.sent () .http click .idle _ rfl
    (.send .http click 0 rfl rfl (by decide)) rfl rfl)
  have hreceived := hsent.tail (.internal _ (.receive j [] click [] rfl rfl) rfl rfl rfl rfl
    (MemoryPipeline.flushing_setWorker rfl) (.inl rfl))
  have hticked := hreceived.tail (.internal _ (.tick j [click] rfl) rfl rfl rfl rfl
    (MemoryPipeline.flushing_setWorker rfl) (.inl rfl))
  exact ⟨_, j, hticked, rfl, rfl, rfl, rfl⟩

/-- A click is posted, received, flushed on a tick and stored. -/
theorem events_accounted_one_click :
    ∃ s : Service (.new ⟨1, 2, 0⟩) Unit,
      Service.Reachable .bytewise 10 (fun _ => True) .empty s ∧ s.pipe.accepted = [click] ∧
      (s.metrics.accepted : ℤ) = s.metrics.inserted + s.metrics.duplicate + s.metrics.dropped +
        s.pipe.buf.length + ∑ j, ((s.pipe.workers j).batch.length : ℤ) := by
  obtain ⟨s, j, hs, hflushing, haccepted, hstore, -⟩ := exists_flushing_click fun _ => True
  obtain ⟨st, n, hst⟩ :=
    exists_insertBatch_eq_ok (Batch.accepts_single takes_click _) allDecode_empty
  have hflushed := hs.tail (.flushOk j [click] 1 false n st hflushing
    ⟨.single _ click, rfl, hstore ▸ hst⟩ trivial)
  exact ⟨_, hflushed, haccepted, (events_accounted hflushed).1⟩

end Tally
