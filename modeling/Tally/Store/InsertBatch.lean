import Tally.Foundation.FirstWins
import Tally.Store.Uniques

/-!
# Inserting a batch

`insertBatchSQL` and `Store.InsertBatch`, run alone on the committed tables of a healthy
database. The rows of a batch are inserted in `event_id` order; among rows of one id Postgres may
use any order, so a batch comes with the order used. `Applied` states the effect of a batch
without its order of execution, and composes: a run of batches has the effect of one batch with
all the rows.

## Main definitions

* `insertBatchSQL`, `insertBatch`: the statement and the transaction
* `Batch c`: a batch together with an order Postgres may use for its rows
* `insertBatches`: a run of successful calls, with the sum of the counts returned
* `Postgres.Accepts`: nothing in a batch is refused
* `Applied c st rows events st'`: the effect of inserting `rows` and folding `events`
* `Store.Sound`: unique ids, and rollups that count the rows

## Main results

* `insertBatch_eq_ok_iff`: when a call succeeds, and what it does
* `insertBatches_applied`: a run has the effect of one batch
* `insertBatch_inserted`: the count returned
* `Applied.sound`: raw events and rollups agree
-/

namespace Tally

open Foundation Hll

/-! ## The statement and the transaction -/

/-- The CTE of `insertBatchSQL` on the rows in the order in which they are inserted: the rows not
skipped as duplicates, and the rollups of those rows only. -/
def insertBatchSQL (c : Postgres) (st : Store) (order : List Row) : Store × ℕ :=
  let inserted := fresh Row.eventId st.events order
  ({ st with
      events := st.events ++ inserted
      counts := upsertAll st.counts (groupCount Row.countKey c.countLe inserted) },
    inserted.length)

/-- `Store.InsertBatch` on a healthy database, with the order in which its rows are inserted. It
fails as a whole if an event is refused, or a row that is not skipped. -/
def insertBatch (c : Postgres) (st : Store) (events : List Event) (order : List Row) :
    Except InsertError (Store × ℕ) :=
  -- no transaction is opened for an empty batch
  if events.length = 0 then .ok (st, 0)
  else if events.any c.refuses || (fresh Row.eventId st.events order).any c.refusesRow then
    .error .refused
  else
    let (st₁, inserted) := insertBatchSQL c st order
    match updateUniques st₁.uniques events with
    | .error err => .error err
    | .ok uniques => .ok ({ st₁ with uniques := uniques }, inserted)

/-- A batch of events and an order of its rows that `ORDER BY event_id` allows. -/
structure Batch (c : Postgres) where
  events : List Event
  order : List Row
  perm : order.Perm (events.map Event.toRow)
  sorted : order.Pairwise fun r s => c.le r.eventId s.eventId

/-- Two rows in `ORDER BY event_id` order. -/
def Row.idLe (c : Postgres) (r s : Row) : Prop := c.le r.eventId s.eventId

instance (c : Postgres) : DecidableRel (Row.idLe c) := fun r s =>
  inferInstanceAs (Decidable (c.le r.eventId s.eventId))

/-- A batch of events, in some order of its rows. -/
def Batch.ofEvents (c : Postgres) (events : List Event) : Batch c where
  events := events
  order := (events.map Event.toRow).insertionSort (Row.idLe c)
  perm := List.perm_insertionSort _ _
  sorted :=
    have : Std.Total (Row.idLe c) := ⟨fun r s => c.le_total r.eventId s.eventId⟩
    have : IsTrans Row (Row.idLe c) := ⟨fun _ _ _ => c.le_trans⟩
    List.pairwise_insertionSort (Row.idLe c) _

/-- A batch of one event. -/
def Batch.single (c : Postgres) (e : Event) : Batch c :=
  ⟨[e], [e.toRow], .refl _, List.pairwise_singleton _ _⟩

/-- The events of a run of batches. -/
def delivered {c : Postgres} (bs : List (Batch c)) : List Event := bs.flatMap Batch.events

/-- A run of successful calls, with the sum of the counts they return. -/
def insertBatches (c : Postgres) : Store → List (Batch c) → Except InsertError (Store × ℕ)
  | st, [] => .ok (st, 0)
  | st, b :: bs =>
    match insertBatch c st b.events b.order with
    | .error err => .error err
    | .ok (st₁, n) =>
      match insertBatches c st₁ bs with
      | .error err => .error err
      | .ok (st₂, k) => .ok (st₂, n + k)

/-! ## The effect of a batch -/

/-- Postgres refuses none of the events, and none of the rows that are not skipped. -/
structure Postgres.Accepts (c : Postgres) (st : Store) (events : List Event) (order : List Row) :
    Prop where
  events : ∀ e ∈ events, c.refuses e = false
  rows : ∀ r ∈ fresh Row.eventId st.events order, c.refusesRow r = false

/-- **The effect of inserting rows and folding events.** -/
structure Applied (c : Postgres) (st : Store) (rows : List Row) (events : List Event)
    (st' : Store) : Prop where
  events_eq : st'.events = st.events ++ fresh Row.eventId st.events rows
  counts_eq : st'.counts =
    upsertAll st.counts (groupCount Row.countKey c.countLe (fresh Row.eventId st.events rows))
  uniques : Folded st.uniques events st'.uniques

variable {c : Postgres}

theorem Batch.mem_order {b : Batch c} {r : Row} : r ∈ b.order ↔ ∃ e ∈ b.events, e.toRow = r := by
  rw [b.perm.mem_iff, List.mem_map]

/-- The statement followed by the fold, as the transaction runs them. -/
theorem applied_iff {st st' : Store} {rows : List Row} {events : List Event} :
    Applied c st rows events st' ↔
      ∃ u, updateUniques st.uniques events = .ok u ∧
        st' = { (insertBatchSQL c st rows).1 with uniques := u } := by
  constructor
  · intro h
    exact ⟨st'.uniques, updateUniques_eq_ok_iff.mpr h.uniques,
      Store.ext h.events_eq h.counts_eq rfl⟩
  · rintro ⟨u, hu, rfl⟩
    exact ⟨rfl, rfl, updateUniques_eq_ok_iff.mp hu⟩

theorem Postgres.accepts_iff {st : Store} {events : List Event} {order : List Row} :
    c.Accepts st events order ↔
      (events.any c.refuses || (fresh Row.eventId st.events order).any c.refusesRow) = false := by
  simp only [Bool.or_eq_false_iff, List.any_eq_false, Bool.not_eq_true]
  exact ⟨fun h => ⟨h.events, h.rows⟩, fun h => ⟨h.1, h.2⟩⟩

/-- A batch of events that Postgres takes is accepted on any tables. -/
theorem Batch.accepts {b : Batch c} (h : ∀ e ∈ b.events, c.Takes e) (st : Store) :
    c.Accepts st b.events b.order where
  events e he := (h e he).1
  rows r hr := by
    obtain ⟨e, he, rfl⟩ := b.mem_order.mp ((fresh_sublist Row.eventId st.events b.order).subset hr)
    exact (h e he).2

theorem Batch.accepts_single {e : Event} (h : c.Takes e) (st : Store) :
    c.Accepts st (single c e).events (single c e).order :=
  (single c e).accepts (fun _ he => List.mem_singleton.mp he ▸ h) st

/-- **When a call succeeds, and what it does.** -/
theorem insertBatch_eq_ok_iff {st st' : Store} {b : Batch c} {n : ℕ} :
    insertBatch c st b.events b.order = .ok (st', n) ↔
      c.Accepts st b.events b.order ∧ Applied c st b.order b.events st' ∧
        n = (fresh Row.eventId st.events b.order).length := by
  by_cases hnil : b.events = []
  · have horder : b.order = [] := by simpa [hnil] using b.perm
    rw [insertBatch, if_pos (by rw [hnil]; rfl), Postgres.accepts_iff, applied_iff, hnil, horder]
    constructor
    · intro h
      obtain ⟨rfl, rfl⟩ := Prod.mk.inj (Except.ok.inj h)
      exact ⟨rfl, ⟨st.uniques, rfl, by simp [insertBatchSQL, groupCount, upsertAll]⟩, rfl⟩
    · rintro ⟨-, ⟨u, hu, rfl⟩, rfl⟩
      cases hu
      simp [insertBatchSQL, groupCount, upsertAll]
  · have hlen : b.events.length ≠ 0 := by simpa using hnil
    have hu : (insertBatchSQL c st b.order).1.uniques = st.uniques := rfl
    rw [insertBatch, if_neg hlen, Postgres.accepts_iff, applied_iff]
    split_ifs with href
    · simp [href]
    · simp only [hu, href, true_and]
      cases hup : updateUniques st.uniques b.events with
      | error err =>
        constructor
        · intro h
          cases h
        · rintro ⟨⟨u, hok, -⟩, -⟩
          cases hok
      | ok u =>
        constructor
        · intro h
          obtain ⟨rfl, rfl⟩ := Prod.mk.inj (Except.ok.inj h)
          exact ⟨⟨u, rfl, rfl⟩, rfl⟩
        · rintro ⟨⟨u', hok, rfl⟩, rfl⟩
          cases hok
          rfl

/-- A call succeeds when Postgres accepts the batch and the sketches it reads decode. -/
theorem exists_insertBatch_eq_ok {st : Store} {b : Batch c}
    (haccepts : c.Accepts st b.events b.order) (hdec : AllDecode st.uniques) :
    ∃ st' n, insertBatch c st b.events b.order = .ok (st', n) := by
  obtain ⟨u, hu⟩ := exists_updateUniques_eq_ok b.events fun k _ => hdec k
  exact ⟨_, _, insertBatch_eq_ok_iff.mpr ⟨haccepts, applied_iff.mpr ⟨u, hu, rfl⟩, rfl⟩⟩

namespace Applied

theorem nil (c : Postgres) (st : Store) : Applied c st [] [] st :=
  ⟨by simp, by simp [groupCount, upsertAll], Folded.nil _⟩

/-- **Effects compose.** -/
theorem append {st st₁ st₂ : Store} {rows more : List Row} {events more' : List Event}
    (h : Applied c st rows events st₁) (h' : Applied c st₁ more more' st₂) :
    Applied c st (rows ++ more) (events ++ more') st₂ := by
  refine ⟨?_, ?_, h.uniques.append h'.uniques⟩
  · rw [h'.events_eq, h.events_eq, fresh_append, List.append_assoc]
  · rw [h'.counts_eq, h.counts_eq, h.events_eq, upsertAll_groupCount_append, fresh_append]

/-- The effect determines the tables. -/
theorem unique {st st₁ st₂ : Store} {rows : List Row} {events : List Event}
    (h : Applied c st rows events st₁) (h' : Applied c st rows events st₂) : st₁ = st₂ :=
  Store.ext (h.events_eq.trans h'.events_eq.symm) (h.counts_eq.trans h'.counts_eq.symm)
    (h.uniques.congr h'.uniques fun _ _ => Iff.rfl)

theorem mem_ids {st st' : Store} {rows : List Row} {events : List Event}
    (h : Applied c st rows events st') {id : String} :
    id ∈ st'.ids ↔ id ∈ st.ids ∨ id ∈ rows.map Row.eventId := by
  rw [Store.ids, h.events_eq]
  exact mem_map_append_fresh Row.eventId st.events rows id

end Applied

/-! ## Runs -/

/-- A run is empty, or a call followed by a run. -/
theorem insertBatches_cons_eq_ok_iff {st st₂ : Store} {b : Batch c} {bs : List (Batch c)} {n : ℕ} :
    insertBatches c st (b :: bs) = .ok (st₂, n) ↔
      ∃ st₁ n₁ n₂, insertBatch c st b.events b.order = .ok (st₁, n₁) ∧
        insertBatches c st₁ bs = .ok (st₂, n₂) ∧ n = n₁ + n₂ := by
  rw [insertBatches]
  cases h : insertBatch c st b.events b.order with
  | error err => simp
  | ok p =>
    obtain ⟨st₁, n₁⟩ := p
    cases h' : insertBatches c st₁ bs with
    | error err =>
      simp only [h', reduceCtorEq, false_iff]
      rintro ⟨_, _, _, he, hr, -⟩
      obtain ⟨rfl, rfl⟩ := Prod.mk.inj (Except.ok.inj he)
      rw [h'] at hr
      cases hr
    | ok q =>
      obtain ⟨st₂', n₂⟩ := q
      simp only [h', Except.ok.injEq, Prod.mk.injEq]
      constructor
      · rintro ⟨rfl, rfl⟩
        exact ⟨st₁, n₁, n₂, ⟨rfl, rfl⟩, h', rfl⟩
      · rintro ⟨_, _, _, ⟨rfl, rfl⟩, hr, rfl⟩
        rw [h'] at hr
        obtain ⟨rfl, rfl⟩ := Prod.mk.inj (Except.ok.inj hr)
        exact ⟨rfl, rfl⟩

theorem insertBatches_append_eq_ok_iff {st st₂ : Store} {as bs : List (Batch c)} {n : ℕ} :
    insertBatches c st (as ++ bs) = .ok (st₂, n) ↔
      ∃ st₁ n₁ n₂, insertBatches c st as = .ok (st₁, n₁) ∧
        insertBatches c st₁ bs = .ok (st₂, n₂) ∧ n = n₁ + n₂ := by
  induction as generalizing st n with
  | nil =>
    simp only [List.nil_append, insertBatches, Except.ok.injEq, Prod.mk.injEq]
    constructor
    · exact fun h => ⟨st, 0, n, ⟨rfl, rfl⟩, h, (Nat.zero_add n).symm⟩
    · rintro ⟨_, _, n₂, ⟨rfl, rfl⟩, h, rfl⟩
      rwa [Nat.zero_add]
  | cons a as ih =>
    rw [List.cons_append]
    simp only [insertBatches_cons_eq_ok_iff, ih]
    constructor
    · rintro ⟨st₀, k, _, ha, ⟨st₁, n₁, n₂, has, hbs, rfl⟩, rfl⟩
      exact ⟨st₁, k + n₁, n₂, ⟨st₀, k, n₁, ha, has, rfl⟩, hbs, (Nat.add_assoc _ _ _).symm⟩
    · rintro ⟨st₁, _, n₂, ⟨st₀, k, n₁, ha, has, rfl⟩, hbs, rfl⟩
      exact ⟨st₀, k, n₁ + n₂, ha, ⟨st₁, n₁, n₂, has, hbs, rfl⟩, Nat.add_assoc _ _ _⟩

theorem insertBatches_snoc_eq_ok_iff {st st₂ : Store} {bs : List (Batch c)} {b : Batch c} {n : ℕ} :
    insertBatches c st (bs ++ [b]) = .ok (st₂, n) ↔
      ∃ st₁ n₁ n₂, insertBatches c st bs = .ok (st₁, n₁) ∧
        insertBatch c st₁ b.events b.order = .ok (st₂, n₂) ∧ n = n₁ + n₂ := by
  rw [insertBatches_append_eq_ok_iff]
  constructor
  · rintro ⟨st₁, n₁, _, h₁, hlast, rfl⟩
    obtain ⟨_, n₂, _, hb, hnil, rfl⟩ := insertBatches_cons_eq_ok_iff.mp hlast
    obtain ⟨rfl, rfl⟩ := Prod.mk.inj (Except.ok.inj hnil)
    exact ⟨st₁, n₁, n₂, h₁, hb, rfl⟩
  · rintro ⟨st₁, n₁, n₂, h₁, hb, rfl⟩
    exact ⟨st₁, n₁, n₂, h₁,
      insertBatches_cons_eq_ok_iff.mpr ⟨st₂, n₂, 0, hb, rfl, rfl⟩, rfl⟩

/-- **A run has the effect of one batch** with all its rows, and its counts sum to the number of
rows inserted. -/
theorem insertBatches_applied {st st' : Store} {bs : List (Batch c)} {n : ℕ}
    (h : insertBatches c st bs = .ok (st', n)) :
    Applied c st (bs.flatMap Batch.order) (delivered bs) st' ∧
      n = (fresh Row.eventId st.events (bs.flatMap Batch.order)).length := by
  induction bs generalizing st n with
  | nil =>
    obtain ⟨rfl, rfl⟩ := Prod.mk.inj (Except.ok.inj h)
    exact ⟨Applied.nil c st, rfl⟩
  | cons b bs ih =>
    obtain ⟨st₁, n₁, n₂, hb, hbs, rfl⟩ := insertBatches_cons_eq_ok_iff.mp h
    obtain ⟨-, happ, rfl⟩ := insertBatch_eq_ok_iff.mp hb
    obtain ⟨happs, rfl⟩ := ih hbs
    rw [delivered, List.flatMap_cons, List.flatMap_cons]
    refine ⟨happ.append happs, ?_⟩
    rw [fresh_append, List.length_append, ← happ.events_eq]

/-- A run of successful calls has no event that Postgres refuses. -/
theorem refuses_eq_false_of_insertBatches {st st' : Store} {bs : List (Batch c)} {n : ℕ}
    (h : insertBatches c st bs = .ok (st', n)) : ∀ e ∈ delivered bs, c.refuses e = false := by
  induction bs generalizing st n with
  | nil => exact fun e he => absurd he List.not_mem_nil
  | cons b bs ih =>
    obtain ⟨st₁, n₁, n₂, hb, hbs, rfl⟩ := insertBatches_cons_eq_ok_iff.mp h
    intro e he
    rw [delivered, List.flatMap_cons] at he
    rcases List.mem_append.mp he with hfirst | hrest
    · exact (insertBatch_eq_ok_iff.mp hb).1.events e hfirst
    · exact ih hbs e hrest

/-- Nor does it insert a row that Postgres refuses. -/
theorem refusesRow_eq_false_of_insertBatches {st st' : Store} {bs : List (Batch c)} {n : ℕ}
    (h : insertBatches c st bs = .ok (st', n)) {r : Row} (hr : r ∈ st'.events) :
    r ∈ st.events ∨ c.refusesRow r = false := by
  induction bs generalizing st n with
  | nil =>
    obtain ⟨rfl, rfl⟩ := Prod.mk.inj (Except.ok.inj h)
    exact .inl hr
  | cons b bs ih =>
    obtain ⟨st₁, n₁, n₂, hb, hbs, rfl⟩ := insertBatches_cons_eq_ok_iff.mp h
    obtain ⟨haccepts, happ, -⟩ := insertBatch_eq_ok_iff.mp hb
    rcases ih hbs with hold | htaken
    · rw [happ.events_eq] at hold
      exact (List.mem_append.mp hold).imp id (haccepts.rows r)
    · exact .inr htaken

/-- A run of calls with events that Postgres takes succeeds. -/
theorem exists_insertBatches_eq_ok {st : Store} (bs : List (Batch c))
    (htakes : ∀ e ∈ delivered bs, c.Takes e) (hdec : AllDecode st.uniques) :
    ∃ st' n, insertBatches c st bs = .ok (st', n) := by
  induction bs generalizing st with
  | nil => exact ⟨st, 0, rfl⟩
  | cons b bs ih =>
    rw [delivered, List.flatMap_cons] at htakes
    obtain ⟨st₁, n₁, hb⟩ := exists_insertBatch_eq_ok
      (b.accepts (fun e he => htakes e (List.mem_append_left _ he)) st) hdec
    have hdec₁ := (insertBatch_eq_ok_iff.mp hb).2.1.uniques.allDecode hdec
    obtain ⟨st₂, n₂, hbs⟩ := ih (fun e he => htakes e (List.mem_append_right _ he)) hdec₁
    exact ⟨st₂, n₁ + n₂, insertBatches_cons_eq_ok_iff.mpr ⟨st₁, n₁, n₂, hb, hbs, rfl⟩⟩

/-! ## Raw events and rollups -/

/-- Event ids are unique, and the rollups count the rows by name and minute. -/
structure Store.Sound (st : Store) : Prop where
  nodup : st.ids.Nodup
  counts : CountsBy Row.countKey st.events st.counts

theorem Store.sound_empty : Store.empty.Sound := ⟨List.nodup_nil, countsBy_nil _⟩

/-- **Raw events and rollups agree** after a batch if they did before. -/
theorem Applied.sound {st st' : Store} {rows : List Row} {events : List Event}
    (h : Applied c st rows events st') (hs : st.Sound) : st'.Sound := by
  constructor
  · rw [Store.ids, h.events_eq]
    exact nodup_map_append_fresh Row.eventId hs.nodup rows
  · rw [h.events_eq, h.counts_eq]
    exact hs.counts.upsertAll c.countLe _

/-- They agree after a run from empty tables. -/
theorem sound_of_insertBatches {st : Store} {bs : List (Batch c)} {n : ℕ}
    (h : insertBatches c .empty bs = .ok (st, n)) : st.Sound :=
  (insertBatches_applied h).1.sound Store.sound_empty

theorem map_eventId_order (b : Batch c) :
    (b.order.map Row.eventId).toFinset = (b.events.map Event.eventId).toFinset := by
  have hp := b.perm.map Row.eventId
  rw [List.map_map] at hp
  exact List.toFinset_eq_of_perm _ _ hp

/-- **The count returned** is the number of distinct event ids of the batch not stored before,
whatever the order of the rows of one id. -/
theorem insertBatch_inserted {st st' : Store} {b : Batch c} {n : ℕ}
    (h : insertBatch c st b.events b.order = .ok (st', n)) :
    n = ((b.events.map Event.eventId).toFinset \ st.ids.toFinset).card := by
  obtain ⟨-, -, rfl⟩ := insertBatch_eq_ok_iff.mp h
  rw [length_fresh, map_eventId_order]
  rfl

/-- The events of a batch are stored once it is. -/
theorem mem_ids_of_insertBatch {st st' : Store} {b : Batch c} {n : ℕ}
    (h : insertBatch c st b.events b.order = .ok (st', n)) {id : String} :
    id ∈ st'.ids ↔ id ∈ st.ids ∨ ∃ e ∈ b.events, e.eventId = id := by
  rw [(insertBatch_eq_ok_iff.mp h).2.1.mem_ids, List.mem_map]
  constructor
  · rintro (hid | ⟨r, hr, rfl⟩)
    · exact .inl hid
    · obtain ⟨e, he, rfl⟩ := b.mem_order.mp hr
      exact .inr ⟨e, he, rfl⟩
  · rintro (hid | ⟨e, he, rfl⟩)
    · exact .inl hid
    · exact .inr ⟨e.toRow, b.mem_order.mpr ⟨e, he, rfl⟩, rfl⟩

end Tally
