import Tally.Ingest.Doors
import Tally.Worker.Pool

/-!
# The counters

`internal/metrics`, as far as it counts events, and `onFlush` of `main`, which feeds the reports of
flushes into it. A report tells only what the last attempt of a flush answered; what the attempts
did to the tables is recorded by their outcomes.

## Main definitions

* `Metrics`, `Metrics.onFlush`, `Metrics.Le`: the counters, a report, and counters that only grow
* `FlushInfo.Reports`: a report a flush may give of its batch
* `Outcome`, `Attempted`: what became of one call of `InsertBatch`

## Main results

* `FlushInfo.Reports.le_onFlush`, `FlushInfo.Reports.sum_onFlush`: a report raises the counters by
  the size of its batch
* `Attempted.reports`: a successful attempt makes a report
-/

namespace Tally

/-- The counters of events. A Prometheus counter is a float, exact up to `2 ^ 53`. -/
structure Metrics where
  accepted : ℕ
  rejected : RejectLabel → ℕ
  inserted : ℤ
  duplicate : ℤ
  dropped : ℤ

namespace Metrics

/-- The counters when the process starts. -/
def zero : Metrics := ⟨0, fun _ => 0, 0, 0, 0⟩

/-- Counts an event that was enqueued. -/
def accept (m : Metrics) : Metrics := { m with accepted := m.accepted + 1 }

/-- Counts a rejected event or call. -/
def reject (label : RejectLabel) (m : Metrics) : Metrics :=
  { m with rejected := Function.update m.rejected label (m.rejected label + 1) }

/-- Counts a rejection, if there is one. -/
def count (label : Option RejectLabel) (m : Metrics) : Metrics :=
  match label with
  | some label => m.reject label
  | none => m

/-- `onFlush`. -/
def onFlush (fi : FlushInfo) (m : Metrics) : Metrics :=
  if fi.err then { m with dropped := m.dropped + fi.batchSize }
  else { m with inserted := m.inserted + fi.inserted, duplicate := m.duplicate + fi.duplicates }

/-- Every counter of `m` is at most that of `m'`. -/
structure Le (m m' : Metrics) : Prop where
  accepted : m.accepted ≤ m'.accepted
  rejected : ∀ label, m.rejected label ≤ m'.rejected label
  inserted : m.inserted ≤ m'.inserted
  duplicate : m.duplicate ≤ m'.duplicate
  dropped : m.dropped ≤ m'.dropped

theorem Le.refl (m : Metrics) : m.Le m :=
  ⟨le_rfl, fun _ => le_rfl, le_rfl, le_rfl, le_rfl⟩

theorem le_accept (m : Metrics) : m.Le m.accept := { Le.refl m with accepted := Nat.le_succ _ }

theorem le_reject (m : Metrics) (label : RejectLabel) : m.Le (m.reject label) := by
  refine { Le.refl m with rejected := fun l => ?_ }
  unfold reject
  by_cases h : l = label
  · subst h
    simp
  · simp [Function.update_of_ne h]

theorem le_count (m : Metrics) (label : Option RejectLabel) : m.Le (m.count label) := by
  cases label with
  | none => exact .refl m
  | some label => exact m.le_reject label

@[simp] theorem accepted_onFlush (fi : FlushInfo) (m : Metrics) :
    (m.onFlush fi).accepted = m.accepted := by
  unfold onFlush
  split_ifs <;> rfl

end Metrics

/-! ## Reports -/

/-- A report of a batch: it was dropped, or the last attempt inserted at most all of it. -/
def FlushInfo.Reports (fi : FlushInfo) (batch : List Event) : Prop :=
  fi = .dropped batch ∨ ∃ k ≤ batch.length, fi = .ok batch k

namespace FlushInfo.Reports

variable {fi : FlushInfo} {batch : List Event}

theorem nonneg (h : fi.Reports batch) : 0 ≤ fi.inserted ∧ 0 ≤ fi.duplicates := by
  rcases h with rfl | ⟨k, hk, rfl⟩
  · exact ⟨le_rfl, le_rfl⟩
  · have hk' : (k : ℤ) ≤ batch.length := by exact_mod_cast hk
    exact ⟨Int.natCast_nonneg k, by simpa [FlushInfo.ok] using hk'⟩

/-- **A report lowers no counter.** -/
theorem le_onFlush (h : fi.Reports batch) (m : Metrics) : m.Le (m.onFlush fi) := by
  obtain ⟨hins, hdup⟩ := h.nonneg
  unfold Metrics.onFlush
  split_ifs
  · exact { Metrics.Le.refl m with dropped := by simp }
  · exact { Metrics.Le.refl m with
      inserted := by simpa using hins
      duplicate := by simpa using hdup }

/-- **A report accounts for its whole batch.** -/
theorem sum_onFlush (h : fi.Reports batch) (m : Metrics) :
    (m.onFlush fi).inserted + (m.onFlush fi).duplicate + (m.onFlush fi).dropped =
      m.inserted + m.duplicate + m.dropped + batch.length := by
  rcases h with rfl | ⟨k, hk, rfl⟩
  · simp only [Metrics.onFlush, FlushInfo.dropped, if_true]
    omega
  · simp only [Metrics.onFlush, FlushInfo.ok, Bool.false_eq_true, if_false]
    omega

end FlushInfo.Reports

/-! ## Attempts -/

/-- What became of one call of `InsertBatch`: it returned a count, it failed and was rolled back, or
it was committed with a count that the caller never learned. -/
inductive Outcome where
  | ok (inserted : ℕ)
  | rolledBack
  | lostAck (inserted : ℕ)

namespace Outcome

/-- The count returned, or `none` for an error. -/
def answer : Outcome → Option ℕ
  | .ok n => some n
  | .rolledBack => none
  | .lostAck _ => none

/-- The transaction was committed. -/
def Commits : Outcome → Prop
  | .ok _ => True
  | .rolledBack => False
  | .lostAck _ => True

/-- An error means that the transaction was rolled back. -/
def Truthful : Outcome → Prop
  | .ok _ => True
  | .rolledBack => True
  | .lostAck _ => False

theorem not_commits_of_truthful {o : Outcome} (h : o.Truthful) (herr : o.answer = none) :
    ¬ o.Commits := by
  cases o with
  | ok n => cases herr
  | rolledBack => exact id
  | lostAck n => exact absurd h id

end Outcome

/-- A call of `InsertBatch` on `events` with the given outcome, and the tables after it. -/
def Attempted (c : Postgres) (events : List Event) (st : Store) (o : Outcome) (st' : Store) :
    Prop :=
  match o with
  | .ok n | .lostAck n => ∃ own : Batch c, own.events = events ∧
      insertBatch c st own.events own.order = .ok (st', n)
  | .rolledBack => st' = st

namespace Attempted

variable {c : Postgres} {events : List Event} {st st' : Store} {o : Outcome}

/-- What the caller sees of a call. -/
theorem attempt (h : Attempted c events st o st') : Attempt c events st o.answer st' := by
  cases o with
  | ok n =>
    obtain ⟨own, hown, heffect⟩ := h
    exact .ok own hown heffect
  | rolledBack =>
    obtain rfl : st' = st := h
    exact .rollback
  | lostAck n =>
    obtain ⟨own, hown, heffect⟩ := h
    exact .lostAck own hown heffect

/-- A successful call returns the number of rows it added, at most one per event. -/
theorem length_events {n : ℕ} (h : Attempted c events st (.ok n) st') :
    st'.events.length = st.events.length + n ∧ n ≤ events.length := by
  obtain ⟨own, rfl, heffect⟩ := h
  obtain ⟨-, happ, rfl⟩ := insertBatch_eq_ok_iff.mp heffect
  refine ⟨by rw [happ.events_eq, List.length_append], ?_⟩
  have hle := (Foundation.fresh_sublist Row.eventId st.events own.order).length_le
  rwa [own.perm.length_eq, List.length_map] at hle

/-- **A successful attempt makes a report.** -/
theorem reports {n : ℕ} (h : Attempted c events st (.ok n) st') :
    (FlushInfo.ok events n).Reports events := .inr ⟨n, h.length_events.2, rfl⟩

/-- An error that is truthful leaves the tables as they were. -/
theorem eq_of_truthful (h : Attempted c events st o st') (herr : o.answer = none)
    (ho : o.Truthful) : st' = st := by
  cases o with
  | ok n => cases herr
  | rolledBack => exact h
  | lostAck n => exact absurd ho id

end Attempted

end Tally
