import Tally.Txn.Serial

/-!
# The tables under concurrency

What holds of the committed tables in every state that any interleaving of `InsertBatch`
transactions reaches, whichever of them abort and wherever.

## Main results

* `rollups_agree`: raw events and rollups never disagree
* `uniques_eq_max`: no update of a sketch is lost
-/

namespace Tally

open Foundation Hll

/-- Unique ids and correct rollups are kept by every interleaving. -/
theorem Sys.Reachable.sound {ι : Type*} [DecidableEq ι] {c : Postgres} {work : ι → Work}
    {st : Store} {s : Sys ι} (h : Reachable c work st s) (hst : st.Sound) : s.store.Sound :=
  h.inv.serial.applied.sound hst

/-- The rows of a name in a minute, counted. -/
theorem Store.Sound.countP {st : Store} (h : st.Sound) (name : String) (minute : ℤ) :
    (st.counts.lookup ⟨name, minute⟩).getD 0 =
      st.events.countP fun r => r.name = name ∧ truncMinute r.ts = minute := by
  rw [h.counts.getD_lookup, List.count_eq_countP, List.countP_map]
  refine List.countP_congr fun r _ => ?_
  simp [Row.countKey]

/-- **Raw events and rollups never disagree.** In every committed state reached from empty tables
by concurrent calls, event ids are unique, a rollup row counts the events of its name and minute,
and none counts nothing. And a successful call run alone returns the number of distinct event ids
of the batch not stored before, whatever the order of the rows of one id. -/
theorem rollups_agree {ι : Type*} [DecidableEq ι] {c : Postgres} {batch : ι → Batch c}
    {s : Sys ι} (h : Sys.Reachable c (fun i => (batch i).work) .empty s) :
    s.store.ids.Nodup ∧
    (∀ name minute, (s.store.counts.lookup ⟨name, minute⟩).getD 0 =
      s.store.events.countP fun r => r.name = name ∧ truncMinute r.ts = minute) ∧
    (∀ k, s.store.counts.lookup k ≠ some 0) ∧
    ∀ (st st' : Store) (b : Batch c) (n : ℕ), insertBatch c st b.events b.order = .ok (st', n) →
      n = ((b.events.map Event.eventId).toFinset \ st.ids.toFinset).card ∧
        n ≤ b.events.length := by
  have hsound := h.sound Store.sound_empty
  refine ⟨hsound.nodup, hsound.countP, hsound.counts.lookup_ne_some_zero, fun st st' b n hb => ?_⟩
  have hn := insertBatch_inserted hb
  refine ⟨hn, ?_⟩
  calc n ≤ (b.events.map Event.eventId).toFinset.card := by
        rw [hn]
        exact Finset.card_le_card Finset.sdiff_subset
    _ ≤ (b.events.map Event.eventId).length := List.toFinset_card_le _
    _ = b.events.length := List.length_map _

/-- Two senders of one event id under two names: the first to commit is counted. -/
theorem rollups_agree_two_senders :
    let batch : Bool → Batch .bytewise := fun i =>
      .single _ ⟨"e1", if i then "buy_click" else "page_view", "u1", none, 0⟩
    ∃ s : Sys Bool, Sys.Reachable .bytewise (fun i => (batch i).work) .empty s ∧
      s.log = [true, false] ∧ s.store.ids.Nodup ∧
      ∀ k, s.store.counts.lookup k ≠ some 0 := by
  intro batch
  have htakes : ∀ e ∈ delivered ([true, false].map batch), Postgres.bytewise.Takes e := by
    decide +kernel
  obtain ⟨st, n, hrun⟩ := exists_insertBatches_eq_ok _ htakes allDecode_empty
  obtain ⟨s, hs, -, hlog, -⟩ := Sys.reachable_of_insertBatches (by decide) hrun
  obtain ⟨hnd, -, hpos, -⟩ := rollups_agree hs
  exact ⟨s, hs, hlog, hnd, hpos⟩

/-- **No update of a sketch is lost.** Transactions that fold batches into the sketches interleave
statement by statement, and any of them abort at any point. Where no committed transaction has a
distinct id, the sketch is the initial one; elsewhere it is, register by register, the maximum of
the initial sketch and of the distinct ids of the committed transactions. -/
theorem uniques_eq_max {ι : Type*} [DecidableEq ι] {c : Postgres} {work : ι → Work} {st : Store}
    {s : Sys ι} (h : Sys.Reachable c work st s) (k : UniqueKey) :
    ((∀ i, (s.txn i).phase = .committed → idsFor (work i).events k = []) →
      s.store.uniques.lookup k = st.uniques.lookup k) ∧
    ((∃ i, (s.txn i).phase = .committed ∧ idsFor (work i).events k ≠ []) →
      ∃ initial final : Sketch, sketchAt st.uniques k = .ok initial ∧
        s.store.uniques.lookup k = some final.bytes ∧
        ∀ j, IsGreatest (insert (initial.regs j) {x | ∃ v,
          (∃ i, (s.txn i).phase = .committed ∧ v ∈ idsFor (work i).events k) ∧
            x = (Sketch.new.add v).regs j}) (final.regs j)) := by
  have hinv := h.inv
  have hfold := hinv.serial.applied.uniques k
  have hids : ∀ v, v ∈ idsFor (s.log.flatMap fun i => (work i).events) k ↔
      ∃ i, (s.txn i).phase = .committed ∧ v ∈ idsFor (work i).events k := by
    intro v
    simp only [mem_idsFor, List.mem_flatMap, hinv.mem_log]
    constructor
    · rintro ⟨e, ⟨i, hi, he⟩, hv⟩
      exact ⟨i, hi, e, he, hv⟩
    · rintro ⟨i, hi, e, he, hv⟩
      exact ⟨e, ⟨i, hi, he⟩, hv⟩
  constructor
  · intro hnone
    refine hfold.1 (List.eq_nil_iff_forall_not_mem.mpr fun v hv => ?_)
    obtain ⟨i, hi, hv⟩ := (hids v).mp hv
    simp [hnone i hi] at hv
  · rintro ⟨i, hi, hne⟩
    obtain ⟨v, hv⟩ := List.exists_mem_of_ne_nil _ hne
    obtain ⟨initial, hinit, hl⟩ := hfold.2 (List.ne_nil_of_mem ((hids v).mpr ⟨i, hi, hv⟩))
    refine ⟨initial, _, hinit, hl, fun j => ?_⟩
    have hmax := initial.isGreatest_regs_addAll
      (idsFor (s.log.flatMap fun i => (work i).events) k) j
    simp only [hids] at hmax
    exact hmax

/-- Two users of one sketch: the row is created, and holds both once both have committed. -/
theorem uniques_eq_max_two_users :
    let batch : Bool → Batch .bytewise := fun i =>
      .single _ ⟨if i then "e1" else "e2", "buy_click", if i then "u1" else "u2", none, 0⟩
    ∃ s : Sys Bool, Sys.Reachable .bytewise (fun i => (batch i).work) .empty s ∧
      (∀ i, (s.txn i).phase = .committed) ∧ ∃ final : Sketch,
        s.store.uniques.lookup ⟨"buy_click", 0⟩ = some final.bytes ∧
        ∀ j, (Sketch.new.add "u1").regs j ≤ final.regs j ∧
          (Sketch.new.add "u2").regs j ≤ final.regs j := by
  intro batch
  have htakes : ∀ e ∈ delivered ([true, false].map batch), Postgres.bytewise.Takes e := by
    decide +kernel
  obtain ⟨st, n, hrun⟩ := exists_insertBatches_eq_ok _ htakes allDecode_empty
  obtain ⟨s, hs, -, hlog, -⟩ := Sys.reachable_of_insertBatches (by decide) hrun
  have hall : ∀ i, (s.txn i).phase = .committed := fun i =>
    (hs.inv.mem_log i).mp (by rw [hlog]; cases i <;> decide)
  have hids : ∀ i, idsFor (batch i).work.events ⟨"buy_click", 0⟩ = [if i then "u1" else "u2"] := by
    decide
  have hne : ∃ i, (s.txn i).phase = .committed ∧
      idsFor (batch i).work.events ⟨"buy_click", 0⟩ ≠ [] := ⟨true, hall true, by rw [hids]; simp⟩
  obtain ⟨initial, final, -, hl, hmax⟩ := (uniques_eq_max hs ⟨"buy_click", 0⟩).2 hne
  refine ⟨s, hs, hall, final, hl, fun j => ⟨?_, ?_⟩⟩
  · exact (hmax j).2 (.inr ⟨"u1", ⟨true, hall true, by rw [hids]; simp⟩, rfl⟩)
  · exact (hmax j).2 (.inr ⟨"u2", ⟨false, hall false, by rw [hids]; simp⟩, rfl⟩)

end Tally
