import Tally.Store.InsertBatch

/-!
# Sketches against the stored events

The rollups count the rows actually inserted, while `updateUniques` folds the whole batch,
duplicates included. So the sketches describe the stored events only as long as every duplicate
repeats what the stored rows already say: a retry across midnight, or one that carries another
user, leaves a mark no row of `events` accounts for. `Covered` is the exact condition on a batch
and the tables before it.

## Main definitions

* `rowIds`: the distinct ids of the stored rows of a name and day
* `UniquesExact`: every sketch is that of the stored rows
* `NewIn`: the row is new to the table and the first of its id in the batch
* `Covered`: each distinct id of a batch is accounted for by a stored or new row

## Main results

* `Applied.uniquesExact_iff`: one batch keeps the sketches exact if and only if it is covered
* `uniquesExact_run_iff`: the sketches are exact throughout a run if and only if each of its
  batches is covered
-/

namespace Tally

open Foundation Hll

/-- The non-empty distinct ids of the rows of a name and day. -/
def rowIds (rows : List Row) (k : UniqueKey) : List String :=
  (rows.filter fun r => r.distinctId ≠ "" ∧ r.uniqueKey = k).map Row.distinctId

/-- **The sketches describe exactly the stored events**: each is the sketch of the distinct ids
of the rows of its name and day, and there is none where there are no such rows. -/
def UniquesExact (st : Store) : Prop :=
  ∀ k, st.uniques.lookup k =
    if rowIds st.events k = [] then none
    else some (Sketch.new.addAll (rowIds st.events k)).bytes

/-- The row is of an id not stored, and the first of its id in the batch. -/
def NewIn {c : Postgres} (st : Store) (b : Batch c) (r : Row) : Prop :=
  r.eventId ∉ st.ids ∧
    ∃ before after, b.order = before ++ r :: after ∧ r.eventId ∉ before.map Row.eventId

/-- The value `w` selects the register of `v` with at least its rank; a value accounts for
itself. -/
def AccountsFor (w v : String) : Prop :=
  index (hash64 w) = index (hash64 v) ∧ rank (hash64 v) ≤ rank (hash64 w)

/-- Every event of the batch with a distinct id has a row of its name and day, stored or new,
whose distinct id accounts for its own. -/
def Covered {c : Postgres} (st : Store) (b : Batch c) : Prop :=
  ∀ e ∈ b.events, e.distinctId ≠ "" → ∃ r, (r ∈ st.events ∨ NewIn st b r) ∧
    r.distinctId ≠ "" ∧ r.uniqueKey = e.uniqueKey ∧ AccountsFor r.distinctId e.distinctId

variable {c : Postgres}

theorem mem_rowIds {rows : List Row} {k : UniqueKey} {v : String} :
    v ∈ rowIds rows k ↔ ∃ r ∈ rows, r.distinctId ≠ "" ∧ r.uniqueKey = k ∧ r.distinctId = v := by
  simp only [rowIds, List.mem_map, List.mem_filter, decide_eq_true_eq]
  constructor
  · rintro ⟨r, ⟨hr, hne, hk⟩, hv⟩
    exact ⟨r, hr, hne, hk, hv⟩
  · rintro ⟨r, hr, hne, hk, hv⟩
    exact ⟨r, ⟨hr, hne, hk⟩, hv⟩

theorem rowIds_append (rows more : List Row) (k : UniqueKey) :
    rowIds (rows ++ more) k = rowIds rows k ++ rowIds more k := by
  simp [rowIds]

theorem uniquesExact_empty : UniquesExact Store.empty := fun k => by
  simp [Store.empty, rowIds]

/-- In an exact table, the sketch found at a key is that of its rows, also when there are none. -/
theorem UniquesExact.sketchAt {st : Store} (h : UniquesExact st) (k : UniqueKey) :
    sketchAt st.uniques k = .ok (Sketch.new.addAll (rowIds st.events k)) := by
  unfold Tally.sketchAt
  rw [h k]
  split_ifs with hk
  · rw [hk]
    rfl
  · exact Sketch.fromBytes_bytes _

/-- The rows a batch inserts are rows of its events. -/
theorem rowIds_fresh_subset {st : Store} (b : Batch c) (k : UniqueKey) {v : String}
    (h : v ∈ rowIds (fresh Row.eventId st.events b.order) k) : v ∈ idsFor b.events k := by
  obtain ⟨r, hr, hne, hk, rfl⟩ := mem_rowIds.mp h
  obtain ⟨e, he, rfl⟩ := b.mem_order.mp ((fresh_sublist _ _ _).subset hr)
  rw [Event.uniqueKey_toRow] at hk
  exact mem_idsFor.mpr ⟨e, he, hne, hk, rfl⟩

/-- At one key, the sketch stays that of the rows exactly when each distinct id folded into it is
accounted for by a row. -/
theorem Applied.lookup_eq_iff {st st' : Store} {b : Batch c}
    (h : Applied c st b.order b.events st') (hex : UniquesExact st) (k : UniqueKey) :
    (st'.uniques.lookup k =
      if rowIds st'.events k = [] then none
      else some (Sketch.new.addAll (rowIds st'.events k)).bytes) ↔
    ∀ v ∈ idsFor b.events k, ∃ w ∈ rowIds st'.events k, AccountsFor w v := by
  have hrows : rowIds st'.events k =
      rowIds st.events k ++ rowIds (fresh Row.eventId st.events b.order) k := by
    rw [h.events_eq, rowIds_append]
  by_cases hk : idsFor b.events k = []
  · have hfresh : rowIds (fresh Row.eventId st.events b.order) k = [] :=
      List.eq_nil_iff_forall_not_mem.mpr fun v hv => by
        simpa [hk] using rowIds_fresh_subset b k hv
    rw [(h.uniques k).1 hk, hrows, hfresh, List.append_nil, hk]
    simpa using hex k
  · obtain ⟨s, hs, hl⟩ := (h.uniques k).2 hk
    obtain rfl : Sketch.new.addAll (rowIds st.events k) = s :=
      Except.ok.inj ((hex.sketchAt k).symm.trans hs)
    have hset : (Sketch.new.addAll (rowIds st.events k)).addAll (idsFor b.events k) =
        (Sketch.new.addAll (rowIds st'.events k)).addAll (idsFor b.events k) := by
      rw [← Sketch.addAll_append, ← Sketch.addAll_append]
      refine Sketch.addAll_congr _ fun v => ?_
      rw [hrows]
      simp only [List.mem_append]
      have hsub : v ∈ rowIds (fresh Row.eventId st.events b.order) k → v ∈ idsFor b.events k :=
        rowIds_fresh_subset b k
      tauto
    have hself : (Sketch.new.addAll (rowIds st.events k)).addAll (idsFor b.events k) =
        Sketch.new.addAll (rowIds st'.events k) ↔
        ∀ v ∈ idsFor b.events k, ∃ w ∈ rowIds st'.events k, AccountsFor w v := by
      rw [hset, Sketch.addAll_eq_self_iff]
      simp only [Sketch.mark_le_addAll_new_iff, AccountsFor]
    rw [hl, ← hself]
    split_ifs with hnil
    · simp only [false_iff]
      rw [hself]
      intro hall
      obtain ⟨v, hv⟩ := List.exists_mem_of_ne_nil _ hk
      obtain ⟨w, hw, -⟩ := hall v hv
      simp [hnil] at hw
    · simp only [Option.some.injEq]
      exact Sketch.bytes_injective.eq_iff

/-- **One batch keeps the sketches exact if and only if it is covered.** -/
theorem Applied.uniquesExact_iff {st st' : Store} {b : Batch c}
    (h : Applied c st b.order b.events st') (hex : UniquesExact st) :
    UniquesExact st' ↔ Covered st b := by
  have hnew : ∀ r, r ∈ st'.events ↔ r ∈ st.events ∨ NewIn st b r := fun r => by
    rw [h.events_eq, List.mem_append, mem_fresh_iff_first]
    rfl
  have hpoint : UniquesExact st' ↔
      ∀ k, ∀ v ∈ idsFor b.events k, ∃ w ∈ rowIds st'.events k, AccountsFor w v :=
    forall_congr' (h.lookup_eq_iff hex)
  rw [hpoint]
  constructor
  · intro hall e he hne
    obtain ⟨w, hw, hacc⟩ := hall e.uniqueKey e.distinctId (mem_idsFor.mpr ⟨e, he, hne, rfl, rfl⟩)
    obtain ⟨r, hr, hrne, hrk, rfl⟩ := mem_rowIds.mp hw
    exact ⟨r, (hnew r).mp hr, hrne, hrk, hacc⟩
  · intro hcov k v hv
    obtain ⟨e, he, hne, rfl, rfl⟩ := mem_idsFor.mp hv
    obtain ⟨r, hr, hrne, hrk, hacc⟩ := hcov e he hne
    exact ⟨r.distinctId, mem_rowIds.mpr ⟨r, (hnew r).mpr hr, hrne, hrk, rfl⟩, hacc⟩

/-! ## Runs -/

/-- **The sketches are exact throughout a run from empty tables if and only if each of its
batches is covered** by the tables before it. -/
theorem uniquesExact_run_iff (c : Postgres) (bs : List (Batch c)) :
    (∀ done st n, done <+: bs → insertBatches c .empty done = .ok (st, n) → UniquesExact st) ↔
    ∀ done b st n st' n', done ++ [b] <+: bs → insertBatches c .empty done = .ok (st, n) →
      insertBatch c st b.events b.order = .ok (st', n') → Covered st b := by
  constructor
  · intro h done b st n st' n' hpre hrun hb
    have hex := h done st n ((List.prefix_append done [b]).trans hpre) hrun
    have hex' := h (done ++ [b]) st' (n + n') hpre
      (insertBatches_snoc_eq_ok_iff.mpr ⟨st, n, n', hrun, hb, rfl⟩)
    exact ((insertBatch_eq_ok_iff.mp hb).2.1.uniquesExact_iff hex).mp hex'
  · intro h done
    -- by induction from the end of the run: a prefix of a prefix is one
    induction done using List.reverseRecOn with
    | nil =>
      intro st n _ hrun
      obtain ⟨rfl, rfl⟩ := Prod.mk.inj (Except.ok.inj hrun)
      exact uniquesExact_empty
    | append_singleton done b ih =>
      intro st' n' hpre hrun
      obtain ⟨st, n₁, n₂, hdone, hb, rfl⟩ := insertBatches_snoc_eq_ok_iff.mp hrun
      have hex := ih st n₁ ((List.prefix_append done [b]).trans hpre) hdone
      exact ((insertBatch_eq_ok_iff.mp hb).2.1.uniquesExact_iff hex).mpr
        (h done b st n₁ st' n₂ hpre hdone hb)

/-- A click of one user, and its retry on the next UTC day: the retry is skipped as a duplicate
but leaves a sketch for a day on which no event is stored. -/
theorem not_uniquesExact_retry_across_midnight :
    let e : Event := ⟨"e1", "buy_click", "u1", none, 86399000000000⟩
    let retry : Event := { e with ts := 86401000000000 }
    ∃ st n, insertBatches .bytewise .empty
        [Batch.single .bytewise e, Batch.single .bytewise retry] = .ok (st, n) ∧
      ¬ UniquesExact st := by
  intro e retry
  have htakes : Postgres.bytewise.Takes e := by decide +kernel
  have htakes' : Postgres.bytewise.Takes retry := by decide +kernel
  obtain ⟨st, n, hrun⟩ := exists_insertBatches_eq_ok
    [Batch.single .bytewise e, Batch.single .bytewise retry]
    (by simp [delivered, Batch.single, htakes, htakes']) allDecode_empty
  refine ⟨st, n, hrun, fun hex => ?_⟩
  obtain ⟨happ, -⟩ := insertBatches_applied hrun
  have hevents : st.events = [e.toRow] := by
    rw [happ.events_eq]
    rfl
  have hids : idsFor [e, retry] ⟨"buy_click", 1⟩ = ["u1"] := by decide +kernel
  have hrows : rowIds [e.toRow] ⟨"buy_click", 1⟩ = [] := by decide +kernel
  obtain ⟨s, -, hl⟩ := (happ.uniques ⟨"buy_click", 1⟩).2 (by
    show idsFor [e, retry] ⟨"buy_click", 1⟩ ≠ []
    rw [hids]
    simp)
  have hnone := hex ⟨"buy_click", 1⟩
  rw [hevents, hrows, if_pos rfl, hl] at hnone
  cases hnone

end Tally
