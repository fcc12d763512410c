import Tally.Hll.Estimate
import Tally.Store.Queries

/-!
# Today against the UTC day

`updateUniques` files a distinct id under the UTC date of its event, and the documentation of both
queries speaks of the UTC day. The queries ask for the session's day, and the rollup query has no
upper bound: an event between the two midnights, or ahead of the clock of the database, is counted
on the wrong day. The condition is exact for a set of timestamps, which the events of a run may
carry.

## Main definitions

* `utcDay`: the UTC date of a time

## Main results

* `mem_events_of_insertBatches`, `sketchAt_of_insertBatches`: the rows and sketches of a run from
  empty tables
* `today_is_utc_day_iff`: both queries speak of the UTC day of now, in every run over a set of
  timestamps, exactly when the session's day selects the same timestamps as the UTC day
-/

namespace Tally

open Foundation Hll

variable {c : Postgres} {bs : List (Batch c)} {st : Store} {n : ℕ}

/-- The rows of a run from empty tables are rows of its events. -/
theorem mem_events_of_insertBatches (h : insertBatches c .empty bs = .ok (st, n)) {r : Row}
    (hr : r ∈ st.events) : ∃ e ∈ delivered bs, e.toRow = r := by
  rw [(insertBatches_applied h).1.events_eq] at hr
  have hmem := (fresh_sublist _ _ _).subset (List.nil_append _ ▸ hr)
  obtain ⟨b, hb, hr⟩ := List.mem_flatMap.mp hmem
  obtain ⟨e, he, rfl⟩ := b.mem_order.mp hr
  exact ⟨e, List.mem_flatMap.mpr ⟨b, hb, he⟩, rfl⟩

/-- The sketches of a run from empty tables are those of its distinct ids. -/
theorem sketchAt_of_insertBatches (h : insertBatches c .empty bs = .ok (st, n)) (k : UniqueKey) :
    sketchAt st.uniques k = .ok (Sketch.new.addAll (idsFor (delivered bs) k)) :=
  (insertBatches_applied h).1.uniques.sketchAt (by simp [Store.empty, sketchAt])

/-- The sketch query estimates the distinct ids delivered for the session's date. -/
theorem uniquesTodaySQL_of_insertBatches (h : insertBatches c .empty bs = .ok (st, n))
    (tz : TimeZone) (now : ℤ) (name : String) :
    uniquesTodaySQL Sketch.estimate tz now st name =
      .ok (Sketch.new.addAll (idsFor (delivered bs) ⟨name, tz.currentDate now⟩)).estimate := by
  rw [uniquesTodaySQL_eq Sketch.estimate_new, sketchAt_of_insertBatches h, Except.map]

/-- No row of a run from empty tables has a name with the character U+0000. -/
theorem containsNul_of_insertBatches (h : insertBatches c .empty bs = .ok (st, n)) :
    ∀ r ∈ st.events, containsNul r.name = false := by
  intro r hr
  obtain ⟨e, he, rfl⟩ := mem_events_of_insertBatches h hr
  exact c.containsNul_name (refuses_eq_false_of_insertBatches h e he)

/-- Nor has a sketch of users. -/
theorem containsNul_of_idsFor (h : insertBatches c .empty bs = .ok (st, n)) {k : UniqueKey}
    (hne : idsFor (delivered bs) k ≠ []) : containsNul k.name = false := by
  obtain ⟨v, hv⟩ := List.exists_mem_of_ne_nil _ hne
  obtain ⟨e, he, -, rfl, -⟩ := mem_idsFor.mp hv
  exact c.containsNul_name (refuses_eq_false_of_insertBatches h e he)

/-- The number returned for a name that is refused is that of the sketch it would have, which is
empty. -/
theorem returned_uniquesToday (h : insertBatches c .empty bs = .ok (st, n)) (tz : TimeZone)
    (now : ℤ) (name : String) :
    uniquesTodaySQL Sketch.estimate tz now st name =
      .ok (returned (uniquesToday Sketch.estimate tz now st name)) := by
  have hsql := uniquesTodaySQL_of_insertBatches h tz now name
  unfold uniquesToday
  cases hname : containsNul name with
  | false => rw [withName_of_nulFree hname, hsql, returned]
  | true =>
    have hids : idsFor (delivered bs) ⟨name, tz.currentDate now⟩ = [] := by
      by_contra hne
      rw [containsNul_of_idsFor h hne] at hname
      cases hname
    rw [hsql, hids, withName, if_pos hname, returned, Sketch.addAll, List.foldl_nil,
      Sketch.estimate_new]

/-- The UTC date of a time in microseconds. -/
def utcDay (ts : ℤ) : ℤ := ts / 86400000000

/-- The click of a user at a time. -/
def clickAt (t : ℤ) : Event := ⟨"e1", "buy_click", "u1", none, t⟩

/-- A run of one click. -/
theorem exists_run_clickAt (t : ℤ) :
    ∃ st n, insertBatches .bytewise .empty [Batch.single .bytewise (clickAt t)] = .ok (st, n) ∧
      st.events = [(clickAt t).toRow] := by
  have htakes : Postgres.bytewise.Takes (clickAt t) := by
    have h0 : Postgres.bytewise.Takes (clickAt 0) := by decide +kernel
    exact h0
  obtain ⟨st, n, h⟩ := exists_insertBatches_eq_ok [Batch.single .bytewise (clickAt t)]
    (by simp [delivered, Batch.single, htakes]) allDecode_empty
  refine ⟨st, n, h, ?_⟩
  rw [(insertBatches_applied h).1.events_eq]
  rfl

theorem idsFor_clickAt (t day : ℤ) :
    idsFor [clickAt t] ⟨"buy_click", day⟩ = if utcDay (t / 1000) = day then ["u1"] else [] := by
  have hday : (clickAt t).uniqueKey = ⟨"buy_click", utcDay (t / 1000)⟩ :=
    (clickAt t).uniqueKey_toRow.symm
  have hname : (clickAt t).distinctId ≠ "" := show "u1" ≠ "" by decide
  rw [idsFor, List.filter_cons, hday]
  split_ifs with hkey hd hd
  · rfl
  · simp [hd] at hkey
  · simp [hd, hname] at hkey
  · rfl

/-- The one click is counted if it is at or after the session's midnight. -/
theorem countTodaySQL_clickAt {t : ℤ} (hevents : st.events = [(clickAt t).toRow])
    (hsound : st.Sound) (tz : TimeZone) (now : ℤ) :
    countTodaySQL tz now st "buy_click" = if tz.dayStart now ≤ t / 1000 then 1 else 0 := by
  have hname : (clickAt t).toRow.name = "buy_click" := rfl
  have hts : (clickAt t).toRow.ts = t / 1000 := rfl
  rw [hsound.countTodaySQL_eq, hevents]
  simp only [List.countP_singleton, hname, hts, true_and, decide_eq_true_eq]

theorem countP_clickAt {t : ℤ} (hevents : st.events = [(clickAt t).toRow]) (now : ℤ) :
    st.events.countP (fun r => r.name = "buy_click" ∧ utcDay r.ts = utcDay now) =
      if utcDay (t / 1000) = utcDay now then 1 else 0 := by
  have hname : (clickAt t).toRow.name = "buy_click" := rfl
  have hts : (clickAt t).toRow.ts = t / 1000 := rfl
  rw [hevents]
  simp only [List.countP_singleton, hname, hts, true_and, decide_eq_true_eq]

/-- The estimates of two days tell whether the one click is on them. -/
theorem estimate_clickAt_eq_iff (t day day' : ℤ) :
    (Sketch.new.addAll (idsFor [clickAt t] ⟨"buy_click", day⟩)).estimate =
        (Sketch.new.addAll (idsFor [clickAt t] ⟨"buy_click", day'⟩)).estimate ↔
      (utcDay (t / 1000) = day ↔ utcDay (t / 1000) = day') := by
  have hne : (Sketch.new.addAll ["u1"]).estimate ≠
      (Sketch.new.addAll ([] : List String)).estimate := by
    rw [Sketch.addAll, Sketch.addAll, List.foldl_nil, Sketch.estimate_new]
    exact Sketch.estimate_new_add_ne_zero "u1"
  rw [idsFor_clickAt, idsFor_clickAt]
  split_ifs with h₁ h₂ h₂
  · exact iff_of_true rfl (iff_of_true h₁ h₂)
  · exact iff_of_false hne fun h => h₂ (h.mp h₁)
  · exact iff_of_false hne.symm fun h => h₁ (h.mpr h₂)
  · exact iff_of_true rfl (iff_of_false h₁ h₂)

/-- The two days of a run: the count is that of the UTC day when the session's midnight separates
the same timestamps, and the estimate when the session's date selects the same timestamps. -/
theorem today_eq_of_forall {tz : TimeZone} {now : ℤ}
    (h : insertBatches c .empty bs = .ok (st, n))
    (hcount : ∀ e ∈ delivered bs,
      tz.dayStart now ≤ e.ts / 1000 ↔ utcDay (e.ts / 1000) = utcDay now)
    (hunique : ∀ e ∈ delivered bs,
      utcDay (e.ts / 1000) = tz.currentDate now ↔ utcDay (e.ts / 1000) = utcDay now)
    (name : String) :
    countTodaySQL tz now st name =
        st.events.countP (fun r => r.name = name ∧ utcDay r.ts = utcDay now) ∧
      uniquesTodaySQL Sketch.estimate tz now st name =
        (sketchAt st.uniques ⟨name, utcDay now⟩).map Sketch.estimate := by
  have hsound := sound_of_insertBatches h
  constructor
  · rw [hsound.countTodaySQL_eq]
    refine List.countP_congr fun r hr => ?_
    obtain ⟨e, he, rfl⟩ := mem_events_of_insertBatches h hr
    have hts : e.toRow.ts = e.ts / 1000 := rfl
    simp only [hts, hcount e he]
  · have hids : ∀ v, v ∈ idsFor (delivered bs) ⟨name, tz.currentDate now⟩ ↔
        v ∈ idsFor (delivered bs) ⟨name, utcDay now⟩ := by
      intro v
      have hkey : ∀ e ∈ delivered bs, e.uniqueKey = ⟨name, tz.currentDate now⟩ ↔
          e.uniqueKey = ⟨name, utcDay now⟩ := by
        intro e he
        have hday : e.uniqueKey = ⟨e.name, utcDay (e.ts / 1000)⟩ := e.uniqueKey_toRow.symm
        simp only [hday, UniqueKey.mk.injEq, hunique e he]
      simp only [mem_idsFor]
      refine exists_congr fun e => and_congr_right fun he => and_congr_right fun _ => ?_
      rw [hkey e he]
    rw [uniquesTodaySQL_of_insertBatches h, sketchAt_of_insertBatches h, Except.map,
      Sketch.addAll_congr _ hids]

/-- **Both queries speak of the UTC day of now, in every run whose events carry timestamps of
`stamps`, if and only if each of these timestamps is at or after the session's midnight exactly
when it is on the UTC day of now, and has the session's date as its UTC date exactly when it is
on that day.** The numbers are those of every name; with a name that contains U+0000, which no row
can have, there is an error beside them. -/
theorem today_is_utc_day_iff (tz : TimeZone) (now : ℤ) (stamps : Set ℤ) :
    (∀ (c : Postgres) (bs : List (Batch c)) (st : Store) (n : ℕ),
      (∀ e ∈ delivered bs, e.ts ∈ stamps) → insertBatches c .empty bs = .ok (st, n) →
      ∀ name,
        returned (countToday tz now st name) =
            st.events.countP (fun r => r.name = name ∧ utcDay r.ts = utcDay now) ∧
          .ok (returned (uniquesToday Sketch.estimate tz now st name)) =
            (sketchAt st.uniques ⟨name, utcDay now⟩).map Sketch.estimate ∧
          (containsNul name = false → ∀ reason, countToday tz now st name ≠ .error reason ∧
            uniquesToday Sketch.estimate tz now st name ≠ .error reason)) ↔
    ∀ t ∈ stamps,
      (tz.dayStart now ≤ t / 1000 ↔ utcDay (t / 1000) = utcDay now) ∧
      (utcDay (t / 1000) = tz.currentDate now ↔ utcDay (t / 1000) = utcDay now) := by
  constructor
  · intro h t ht
    obtain ⟨st, n, hrun, hevents⟩ := exists_run_clickAt t
    have hts : ∀ e ∈ delivered [Batch.single .bytewise (clickAt t)], e.ts ∈ stamps := by
      simpa [delivered, Batch.single, clickAt]
    obtain ⟨hcount, hunique, -⟩ := h .bytewise _ st n hts hrun "buy_click"
    have hsound := sound_of_insertBatches hrun
    rw [hsound.returned_countToday (containsNul_of_insertBatches hrun)] at hcount
    rw [← returned_uniquesToday hrun] at hunique
    constructor
    · rw [countTodaySQL_clickAt hevents hsound, countP_clickAt hevents] at hcount
      split_ifs at hcount with h₁ h₂ h₂
      · exact iff_of_true h₁ h₂
      · exact iff_of_false h₁ h₂
    · have hdel : delivered [Batch.single .bytewise (clickAt t)] = [clickAt t] := rfl
      rw [uniquesTodaySQL_of_insertBatches hrun, sketchAt_of_insertBatches hrun, hdel] at hunique
      exact (estimate_clickAt_eq_iff t _ _).mp (Except.ok.inj hunique)
  · intro h c bs st n hstamps hrun name
    obtain ⟨hcount, hunique⟩ := today_eq_of_forall hrun (fun e he => (h e.ts (hstamps e he)).1)
      (fun e he => (h e.ts (hstamps e he)).2) name
    have hreturned := returned_uniquesToday hrun tz now name
    refine ⟨?_, hreturned.symm.trans hunique, fun hname reason => ⟨?_, ?_⟩⟩
    · rw [(sound_of_insertBatches hrun).returned_countToday (containsNul_of_insertBatches hrun),
        hcount]
    · rw [countToday, withName_of_nulFree hname]
      intro herror
      cases herror
    · rw [uniquesToday, withName_of_nulFree hname, hreturned]
      intro herror
      cases herror

/-- A click at four in the afternoon, UTC, is counted as one of the next UTC day at one in the
morning, in a session nine hours ahead. -/
theorem countToday_counts_yesterday :
    let e := clickAt 57600000000000
    let now := 90000000000
    ∃ st n, insertBatches .bytewise .empty [Batch.single .bytewise e] = .ok (st, n) ∧
      countToday (.fixed 540) now st "buy_click" = .ok 1 ∧
      st.events.countP (fun r => r.name = "buy_click" ∧ utcDay r.ts = utcDay now) = 0 := by
  intro e now
  obtain ⟨st, n, hrun, hevents⟩ := exists_run_clickAt 57600000000000
  have hsound := sound_of_insertBatches hrun
  have hname : containsNul "buy_click" = false := by decide
  refine ⟨st, n, hrun, ?_, ?_⟩
  · rw [countToday, withName_of_nulFree hname, countTodaySQL_clickAt hevents hsound]
    rfl
  · rw [countP_clickAt hevents]
    rfl

end Tally
