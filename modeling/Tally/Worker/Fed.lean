import Tally.Store.Described
import Tally.Worker.Retry

/-!
# What the tables are fed

The tables of a system of workers and consumers change by calls of `InsertBatch` only, so what a
system stores is settled by which events these calls are made of. `Fed` keeps track of a property
of those events along a run; whether an attempt reported its effect plays no part.

## Main definitions

* `Fed c P st st'`: the tables `st'` are left by calls on events that satisfy `P`

## Main results

* `Attempt.fed`: an attempt feeds the tables its own events
* `Fed.mem_ids`: every row is an old one or that of such an event
* `Fed.describes`: the tables describe the stored ones of these events
* `Fed.congr`: fed every event of a set, the tables are settled by the set
-/

namespace Tally

open Foundation

/-- The tables `st'` are left by a run of `InsertBatch` from `st` on events that satisfy `P`. -/
def Fed (c : Postgres) (P : Event → Prop) (st st' : Store) : Prop :=
  ∃ (bs : List (Batch c)) (n : ℕ), insertBatches c st bs = .ok (st', n) ∧ ∀ e ∈ delivered bs, P e

variable {c : Postgres} {P Q : Event → Prop} {st st₁ st₂ : Store}

namespace Fed

theorem refl (c : Postgres) (P : Event → Prop) (st : Store) : Fed c P st st :=
  ⟨[], 0, rfl, fun _ he => absurd he List.not_mem_nil⟩

theorem mono (h : Fed c P st st₁) (hPQ : ∀ e, P e → Q e) : Fed c Q st st₁ := by
  obtain ⟨bs, n, hrun, hP⟩ := h
  exact ⟨bs, n, hrun, fun e he => hPQ e (hP e he)⟩

theorem trans (h : Fed c P st st₁) (h' : Fed c P st₁ st₂) : Fed c P st st₂ := by
  obtain ⟨bs, n, hrun, hP⟩ := h
  obtain ⟨bs', n', hrun', hP'⟩ := h'
  refine ⟨bs ++ bs', n + n', insertBatches_append_eq_ok_iff.mpr ⟨st₁, n, n', hrun, hrun', rfl⟩, ?_⟩
  rw [delivered, List.flatMap_append]
  exact fun e he => (List.mem_append.mp he).elim (hP e) (hP' e)

/-- One call. -/
theorem of_insertBatch {b : Batch c} {n : ℕ}
    (h : insertBatch c st b.events b.order = .ok (st₁, n))
    (hP : (∀ e ∈ b.events, c.refuses e = false) → ∀ e ∈ b.events, P e) : Fed c P st st₁ := by
  refine ⟨[b], n, insertBatches_cons_eq_ok_iff.mpr ⟨st₁, n, 0, h, rfl, rfl⟩, ?_⟩
  rw [delivered, List.flatMap_cons, List.flatMap_nil, List.append_nil]
  exact hP (insertBatch_eq_ok_iff.mp h).1.events

theorem sound (h : Fed c P st st₁) (hst : st.Sound) : st₁.Sound := by
  obtain ⟨bs, n, hrun, -⟩ := h
  exact (insertBatches_applied hrun).1.sound hst

theorem allDecode (h : Fed c P st st₁) (hst : AllDecode st.uniques) : AllDecode st₁.uniques := by
  obtain ⟨bs, n, hrun, -⟩ := h
  exact (insertBatches_applied hrun).1.uniques.allDecode hst

/-- **Every row is an old one, or that of an event with the property.** -/
theorem mem_events (h : Fed c P st st₁) {r : Row} (hr : r ∈ st₁.events) :
    r ∈ st.events ∨ ∃ e, P e ∧ e.toRow = r := by
  obtain ⟨bs, n, hrun, hP⟩ := h
  rw [(insertBatches_applied hrun).1.events_eq] at hr
  rcases List.mem_append.mp hr with hold | hnew
  · exact .inl hold
  · obtain ⟨e, he, rfl⟩ := mem_flatMap_order.mp ((fresh_sublist _ _ _).subset hnew)
    exact .inr ⟨e, hP e he, rfl⟩

/-- From empty tables, every row is that of an event with the property. -/
theorem exists_of_mem_events (h : Fed c P .empty st) {r : Row} (hr : r ∈ st.events) :
    ∃ e, P e ∧ e.toRow = r :=
  (h.mem_events hr).resolve_left List.not_mem_nil

theorem mem_ids (h : Fed c P st st₁) {id : String} (hid : id ∈ st₁.ids) :
    id ∈ st.ids ∨ ∃ e, P e ∧ e.eventId = id := by
  obtain ⟨r, hr, rfl⟩ := List.mem_map.mp hid
  rcases h.mem_events hr with hold | ⟨e, he, rfl⟩
  · exact .inl (List.mem_map_of_mem hold)
  · exact .inr ⟨e, he, rfl⟩

/-- From empty tables, no row is one that Postgres refuses. -/
theorem refusesRow_eq_false (h : Fed c P .empty st) {r : Row} (hr : r ∈ st.events) :
    c.refusesRow r = false := by
  obtain ⟨bs, n, hrun, -⟩ := h
  exact (refusesRow_eq_false_of_insertBatches hrun hr).resolve_left List.not_mem_nil

theorem ids_subset (h : Fed c P st st₁) {id : String} (hid : id ∈ st.ids) : id ∈ st₁.ids := by
  obtain ⟨bs, n, hrun, -⟩ := h
  exact (insertBatches_applied hrun).1.mem_ids.mpr (.inl hid)

/-- **The tables describe the stored events**, where an id determines its event. -/
theorem describes (h : Fed c P .empty st) (hinj : {e | P e}.InjOn Event.eventId) :
    st.Describes {e | P e ∧ e.eventId ∈ st.ids} := by
  obtain ⟨bs, n, hrun, hP⟩ := h
  have hdelivered : {e | P e ∧ e.eventId ∈ st.ids} = {e | e ∈ delivered bs} := by
    refine Set.ext fun e => ⟨?_, fun he => ⟨hP e he, mem_ids_of_delivered hrun he⟩⟩
    rintro ⟨he, hid⟩
    obtain ⟨e', he', hre⟩ := exists_delivered_of_mem_ids hrun hid
    rwa [← hinj (hP e' he') he hre]
  rw [hdelivered]
  exact describes_delivered hrun (hinj.mono hP)

/-- With all of them stored, the tables describe the events with the property. -/
theorem describes_all (h : Fed c P .empty st) (hinj : {e | P e}.InjOn Event.eventId)
    (hall : ∀ e, P e → e.eventId ∈ st.ids) : st.Describes {e | P e} := by
  have hsame : {e | P e ∧ e.eventId ∈ st.ids} = {e | P e} :=
    Set.ext fun e => and_iff_left_of_imp (hall e)
  exact hsame ▸ h.describes hinj

/-- **The tables are settled by the set of events**, when all of it is stored and an id determines
its event: they agree with those of any run that delivers the set. -/
theorem congr (h : Fed c P .empty st) (hall : ∀ e, P e → e.eventId ∈ st.ids)
    (hid : ∀ e e', P e → P e' → e.eventId = e'.eventId → e = e') {bs : List (Batch c)} {n : ℕ}
    (hrun : insertBatches c .empty bs = .ok (st₁, n)) (hset : ∀ e, e ∈ delivered bs ↔ P e) :
    st.events.Perm st₁.events ∧ st.counts = st₁.counts ∧ st.uniques = st₁.uniques := by
  have hinj : {e | P e}.InjOn Event.eventId := fun e he e' he' => hid e e' he he'
  have hfed : Fed c P .empty st₁ := ⟨bs, n, hrun, fun e => (hset e).mp⟩
  have hall' : ∀ e, P e → e.eventId ∈ st₁.ids := fun e he =>
    mem_ids_of_delivered hrun ((hset e).mpr he)
  exact (h.describes_all hinj hall).unique (hfed.describes_all hinj hall')

end Fed

/-- **An attempt feeds the tables its own events**, and none that Postgres refuses. -/
theorem Attempt.fed {events : List Event} {res : Option ℕ} (h : Attempt c events st res st₁)
    (hP : (∀ e ∈ events, c.refuses e = false) → ∀ e ∈ events, P e) : Fed c P st st₁ := by
  cases h with
  | ok own hown effect =>
    subst hown
    exact .of_insertBatch effect hP
  | rollback => exact .refl c P st
  | lostAck own hown effect =>
    subst hown
    exact .of_insertBatch effect hP

end Tally
