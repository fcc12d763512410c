import Mathlib.Order.Bounds.Basic
import Tally.Store.Today

/-!
# The chart of the dashboard

The columns `render` builds from the series of the last fifteen minutes. The series has the rollup
rows from the minute of now less fifteen on; `render` sums them by the millisecond of their minute,
and looks up sixteen minutes, counted back from the clock of the browser. The start of a minute is
found with `setSeconds(0, 0)`, which goes through the local time and back: a local time that occurs
twice is taken for its first occurrence.

## Main definitions

* `BrowserZone`, `BrowserZone.setSeconds`: the time zone of the browser
* `byMinute`, `bucket`, `cols`: what `render` does with the series
* `minuteStart`: the start of one of the sixteen minutes

## Main results

* `Store.Sound.lookup_byMinute`: what is summed at a millisecond
* `BrowserZone.setSeconds_eq_iff`: when the seconds are cleared without leaving the minute
* `Store.Sound.cols_eq`, `Store.Sound.existsUnique_bucket`: the columns, when they are found
* `chart_exact_iff`: when the columns are the stored events of the sixteen minutes
-/

namespace Tally

open Foundation

/-! ## The clock of the browser -/

/-- The time zone of a browser, in milliseconds. The offsets are whole minutes east of UTC, and
change at whole minutes. The instant of a local time is the first at which clocks show it, as
`UTC(t)` has it in ECMAScript; that of a local time that is skipped is any. -/
structure BrowserZone where
  offset : ℤ → ℤ
  instant : ℤ → ℤ
  offset_minute : ∀ t, offset (t / 60000 * 60000) = offset t
  isLeast_instant : ∀ t, IsLeast {s | s + offset s * 60000 = t + offset t * 60000}
    (instant (t + offset t * 60000))

namespace BrowserZone

variable (zone : BrowserZone)

/-- `LocalTime(t)`: the local time at an instant. -/
def localTime (t : ℤ) : ℤ := t + zone.offset t * 60000

/-- `setSeconds(0, 0)`: clears the seconds of the local time. -/
def setSeconds (t : ℤ) : ℤ := zone.instant (zone.localTime t / 60000 * 60000)

/-- A zone that never changes its offset. -/
def fixed (minutes : ℤ) : BrowserZone where
  offset _ := minutes
  instant t := t - minutes * 60000
  offset_minute _ := rfl
  isLeast_instant t := by
    constructor
    · show t + minutes * 60000 - minutes * 60000 + minutes * 60000 = t + minutes * 60000
      omega
    · intro s (hs : s + minutes * 60000 = t + minutes * 60000)
      omega

/-- Clearing the seconds of the local time is clearing them in UTC. -/
theorem localTime_minute (t : ℤ) :
    zone.localTime t / 60000 * 60000 = zone.localTime (t / 60000 * 60000) := by
  unfold localTime
  rw [zone.offset_minute]
  omega

/-- **The seconds are cleared without leaving the minute, if and only if the local time of its start
does not occur earlier.** -/
theorem setSeconds_eq_iff (t : ℤ) :
    zone.setSeconds t = t / 60000 * 60000 ↔
      ∀ s, zone.localTime s = zone.localTime (t / 60000 * 60000) → t / 60000 * 60000 ≤ s := by
  have hleast : IsLeast {s | zone.localTime s = zone.localTime (t / 60000 * 60000)}
      (zone.setSeconds t) := by
    rw [setSeconds, localTime_minute]
    exact zone.isLeast_instant (t / 60000 * 60000)
  constructor
  · intro h s hs
    rw [← h]
    exact hleast.2 hs
  · intro h
    exact hleast.unique ⟨rfl, fun s hs => h s hs⟩

end BrowserZone

/-! ## The columns -/

/-- `render`: the counts of all names, by the millisecond of the minute. -/
def byMinute (series : List MinutePoint) : Finmap fun _ : ℤ => ℕ :=
  upsertAll ∅ (series.map fun p => (p.minute / 1000, p.count))

/-- `render`: the minute `i` minutes ago. -/
def bucket (zone : BrowserZone) (now : ℤ) (i : ℕ) : ℤ := zone.setSeconds (now - i * 60000)

/-- `render`: the columns of the chart, from `Date.now()` and the series. -/
def cols (zone : BrowserZone) (now : ℤ) (series : List MinutePoint) : List ℕ :=
  (List.range 16).reverse.map fun i => ((byMinute series).lookup (bucket zone now i)).getD 0

variable {c : Postgres} {now : ℤ} {st : Store}

/-- The points of a series that satisfy `p` sum to the stored rows in their minutes. -/
theorem Store.Sound.sum_series_eq (h : st.Sound) (window : ℤ)
    (points : OrderBy (seriesPoints now window st) (MinutePoint.le c)) (p : ℤ → Prop)
    [DecidablePred p] :
    ((series points).map fun q => if p q.minute then q.count else 0).sum =
      st.events.countP fun r =>
        truncMinute now - window * 60000000 ≤ truncMinute r.ts ∧ p (truncMinute r.ts) := by
  have hwhere := h.counts.sumWhere_eq fun k : CountKey =>
    truncMinute now - window * 60000000 ≤ k.minute ∧ p k.minute
  rw [sumWhere, ← Finset.filter_filter, Finset.sum_filter] at hwhere
  rw [series, points.sum_map_toList, seriesPoints, Multiset.map_map]
  exact hwhere

/-- **What is summed at a millisecond**: the rows of the minute that starts there, within the
window. -/
theorem Store.Sound.lookup_byMinute (h : st.Sound)
    (points : OrderBy (seriesPoints now 15 st) (MinutePoint.le c)) (key : ℤ) :
    ((byMinute (series points)).lookup key).getD 0 =
      st.events.countP fun r => truncMinute now - 15 * 60000000 ≤ truncMinute r.ts ∧
        truncMinute r.ts / 1000 = key := by
  rw [byMinute, getD_lookup_upsertAll, Finmap.lookup_empty, List.map_map, Option.getD_none,
    Nat.zero_add]
  exact h.sum_series_eq 15 points fun minute => minute / 1000 = key

/-! ## The sixteen minutes -/

/-- The start of the minute that contains the time `i` minutes before now, in milliseconds. -/
def minuteStart (now : ℤ) (i : ℕ) : ℤ := truncMinute (now - i * 60000000) / 1000

theorem minuteStart_mul (now : ℤ) (i : ℕ) :
    minuteStart now i * 1000 = truncMinute (now - i * 60000000) := by
  unfold minuteStart truncMinute
  omega

/-- **A bucket is the start of its minute, if and only if the local time there does not occur
earlier.** -/
theorem bucket_eq_iff (zone : BrowserZone) (now : ℤ) (i : ℕ) :
    bucket zone (now / 1000) i = minuteStart now i ↔
      ∀ s, zone.localTime s = zone.localTime (minuteStart now i) → minuteStart now i ≤ s := by
  have hstart : (now / 1000 - i * 60000) / 60000 * 60000 = minuteStart now i := by
    unfold minuteStart truncMinute
    omega
  rw [bucket, ← hstart]
  exact zone.setSeconds_eq_iff (now / 1000 - i * 60000)

section Columns

variable {zone : BrowserZone} {points : OrderBy (seriesPoints now 15 st) (MinutePoint.le c)}

/-- A column that is found has the rows of its minute. -/
theorem Store.Sound.cols_eq (h : st.Sound)
    (hbucket : ∀ i < 16, bucket zone (now / 1000) i = minuteStart now i) :
    cols zone (now / 1000) (series points) = (List.range 16).reverse.map fun i : ℕ =>
      st.events.countP fun r => truncMinute r.ts = truncMinute (now - i * 60000000) := by
  refine List.map_congr_left fun i hi => ?_
  have hi : i < 16 := List.mem_range.mp (List.mem_reverse.mp hi)
  rw [h.lookup_byMinute, hbucket i hi]
  refine List.countP_congr fun r _ => ?_
  have hstart := minuteStart_mul now i
  simp only [decide_eq_true_eq]
  unfold truncMinute at *
  omega

/-- Each point of the series up to now is in one column. -/
theorem Store.Sound.existsUnique_bucket (h : st.Sound)
    (hbucket : ∀ i < 16, bucket zone (now / 1000) i = minuteStart now i) {p : MinutePoint}
    (hp : p ∈ series points) (hle : p.minute ≤ truncMinute now) :
    ∃! i, i < 16 ∧ bucket zone (now / 1000) i = p.minute / 1000 := by
  obtain ⟨k, hk, rfl⟩ := Multiset.mem_map.mp (points.mem_toList.mp hp)
  obtain ⟨hkeys, hge⟩ := Finset.mem_filter.mp (Finset.mem_val.mp hk)
  rw [h.counts.keys_eq, List.mem_toFinset] at hkeys
  obtain ⟨r, -, rfl⟩ := List.mem_map.mp hkeys
  simp only [Row.countKey] at hge hle ⊢
  refine ⟨((truncMinute now - truncMinute r.ts) / 60000000).toNat, ⟨?_, ?_⟩, ?_⟩
  · omega
  · rw [hbucket _ (by omega)]
    unfold minuteStart truncMinute at *
    omega
  · rintro i ⟨hi, heq⟩
    rw [hbucket i hi] at heq
    unfold minuteStart truncMinute at *
    omega

/-- A click at the start of a minute is in the column of this minute only if the bucket is that
start. -/
theorem bucket_eq_of_click {i : ℕ}
    (hevents : st.events = [(clickAt (truncMinute (now - i * 60000000) * 1000)).toRow])
    (hsound : st.Sound)
    (hcol : ((byMinute (series points)).lookup (bucket zone (now / 1000) i)).getD 0 =
      st.events.countP fun r => truncMinute r.ts = truncMinute (now - i * 60000000)) :
    bucket zone (now / 1000) i = minuteStart now i := by
  have hts : (clickAt (truncMinute (now - i * 60000000) * 1000)).toRow.ts =
      truncMinute (now - i * 60000000) := Int.mul_ediv_cancel _ (by decide)
  have hminute : truncMinute (truncMinute (now - i * 60000000)) =
      truncMinute (now - i * 60000000) := by
    unfold truncMinute
    omega
  rw [hsound.lookup_byMinute, hevents, List.countP_singleton, List.countP_singleton, hts,
    hminute] at hcol
  by_contra hne
  have hother : truncMinute (now - i * 60000000) / 1000 ≠ bucket zone (now / 1000) i := Ne.symm hne
  simp [hother] at hcol

end Columns

/-- **The columns are the stored events of the sixteen minutes up to now, whatever their names, and
each point of the series in these minutes is in one column, for every run: if and only if the local
time of the start of none of these minutes occurs earlier in the time zone of the browser.** -/
theorem chart_exact_iff (zone : BrowserZone) (now : ℤ) :
    (∀ (c : Postgres) (bs : List (Batch c)) (st : Store) (n : ℕ),
      insertBatches c .empty bs = .ok (st, n) →
      ∀ points : OrderBy (seriesPoints now 15 st) (MinutePoint.le c),
        cols zone (now / 1000) (series points) = ((List.range 16).reverse.map fun i : ℕ =>
          st.events.countP fun r => truncMinute r.ts = truncMinute (now - i * 60000000)) ∧
        ∀ p ∈ series points, p.minute ≤ truncMinute now →
          ∃! i, i < 16 ∧ bucket zone (now / 1000) i = p.minute / 1000) ↔
    ∀ i < 16, ∀ s,
      zone.localTime s = zone.localTime (minuteStart now i) → minuteStart now i ≤ s := by
  constructor
  · intro h i hi
    obtain ⟨st, n, hrun, hevents⟩ := exists_run_clickAt (truncMinute (now - i * 60000000) * 1000)
    obtain ⟨points⟩ := OrderBy.nonempty (seriesPoints now 15 st) (MinutePoint.le .bytewise)
    have hcols := List.map_inj_left.mp (h .bytewise _ st n hrun points).1 i
      (List.mem_reverse.mpr (List.mem_range.mpr hi))
    exact (bucket_eq_iff zone now i).mp
      (bucket_eq_of_click hevents (sound_of_insertBatches hrun) hcols)
  · intro h c bs st n hrun points
    have hsound := sound_of_insertBatches hrun
    have hbucket : ∀ i < 16, bucket zone (now / 1000) i = minuteStart now i := fun i hi =>
      (bucket_eq_iff zone now i).mpr (h i hi)
    exact ⟨hsound.cols_eq hbucket, fun p hp hle => hsound.existsUnique_bucket hbucket hp hle⟩

/-- In a zone that never changes its offset the chart is always right. -/
theorem cols_fixed {bs : List (Batch c)} {n : ℕ} (h : insertBatches c .empty bs = .ok (st, n))
    (minutes : ℤ) (points : OrderBy (seriesPoints now 15 st) (MinutePoint.le c)) :
    cols (.fixed minutes) (now / 1000) (series points) = (List.range 16).reverse.map fun i : ℕ =>
      st.events.countP fun r => truncMinute r.ts = truncMinute (now - i * 60000000) := by
  refine (sound_of_insertBatches h).cols_eq fun i _ => ?_
  refine (bucket_eq_iff _ now i).mpr fun s hs => ?_
  simp only [BrowserZone.localTime, BrowserZone.fixed] at hs
  omega

/-- The end of daylight saving time in New York, on the fifth of November 2023 at six o'clock
UTC. -/
def BrowserZone.fallBack : BrowserZone where
  offset t := if t < 1699164000000 then -240 else -300
  instant t := if t < 1699149600000 then t + 14400000 else t + 18000000
  offset_minute t := by
    have hminute : t / 60000 * 60000 < 1699164000000 ↔ t < 1699164000000 := by omega
    simp only [hminute]
  isLeast_instant t := by
    constructor
    · simp only [Set.mem_ofPred_eq]
      split_ifs <;> omega
    · intro s hs
      simp only [Set.mem_ofPred_eq] at hs
      split_ifs at hs ⊢ <;> omega

/-- At half past six UTC a click of this minute is in no column: the local time, half past one, has
been before. -/
theorem chart_empty_in_repeated_hour :
    let now := 1699165800000000
    ∃ st n, ∃ points : OrderBy (seriesPoints now 15 st) (MinutePoint.le .bytewise),
      insertBatches .bytewise .empty [Batch.single .bytewise (clickAt (now * 1000))] =
        .ok (st, n) ∧
      cols .fallBack (now / 1000) (series points) = List.replicate 16 0 ∧
      st.events.countP (fun r => truncMinute r.ts = truncMinute now) = 1 := by
  intro now
  obtain ⟨st, n, hrun, hevents⟩ := exists_run_clickAt (now * 1000)
  have hsound := sound_of_insertBatches hrun
  obtain ⟨points⟩ := OrderBy.nonempty (seriesPoints now 15 st) (MinutePoint.le .bytewise)
  refine ⟨st, n, points, hrun, ?_, ?_⟩
  · simp only [cols, hsound.lookup_byMinute, hevents]
    decide
  · rw [hevents]
    decide

end Tally
