import Mathlib.Algebra.BigOperators.Finprod
import Tally.Ingest.Doors
import Tally.Store.Today

/-!
# The headline of the dashboard

`getStats`, and the number `render` shows under "Events today, across all event types": the sum of
the counts of `totals_today`. The sum of all counts is the number of rows counted today, whatever
the names; `TotalsToday` returns the twenty largest, so the headline is the true total up to twenty
names and less beyond.

## Main definitions

* `getStats`: the answer of `/v1/stats`
* `headline`: the number shown

## Main results

* `finsum_countToday`: the counts of all names sum to the rows counted today
* `headline_eq_total_iff`: the headline is the total exactly up to twenty names
-/

namespace Tally

open Foundation Hll

/-- The body of an answer of `/v1/stats`. -/
structure Stats where
  totalsToday : List NameCount
  uniquesToday : List NameCount
  series : List MinutePoint

section Handler

variable {c : Postgres} {tz : TimeZone} {now : ℤ} {st : Store}

/-- `Handler.getStats`, on a healthy database: the totals and the series cannot fail. -/
def getStats (estimate : Sketch → ℕ) (totals : OrderBy (todayGroups tz now st).val NameCount.ge)
    (uniques : OrderBy (todaySketches tz now st) fun _ _ => True)
    (points : OrderBy (seriesPoints now 15 st) (MinutePoint.le c)) : Except HttpReply Stats :=
  match uniquesTodayAll estimate uniques with
  | .error _ => .error ⟨500, "failed to query uniques", none⟩
  | .ok uniques => .ok ⟨totalsToday totals, uniques, series points⟩

/-- `render`: the sum of all totals. -/
def headline (stats : Stats) : ℕ := stats.totalsToday.foldl (fun a t => a + t.count) 0

/-- With sketches that decode, `/v1/stats` answers. -/
theorem exists_getStats_eq_ok (estimate : Sketch → ℕ)
    (totals : OrderBy (todayGroups tz now st).val NameCount.ge)
    (uniques : OrderBy (todaySketches tz now st) fun _ _ => True)
    (points : OrderBy (seriesPoints now 15 st) (MinutePoint.le c)) (h : AllDecode st.uniques) :
    ∃ stats, getStats estimate totals uniques points = .ok stats ∧
      stats.totalsToday = totalsToday totals := by
  have hrow : ∀ row ∈ uniques.toList, ∃ s, Sketch.fromBytes row.2 = .ok s := by
    intro row hrow
    obtain ⟨k, hk, rfl⟩ := Multiset.mem_map.mp (uniques.mem_toList.mp hrow)
    have hmem : k ∈ st.uniques := Finmap.mem_keys.mp (Finset.mem_filter.mp hk).1
    obtain ⟨raw, hraw⟩ := Finmap.mem_iff.mp hmem
    obtain ⟨s, hs⟩ := h k
    refine ⟨s, ?_⟩
    simpa [sketchAt, hraw] using hs
  have hall : ∃ out, uniquesTodayAll estimate uniques = .ok out := by
    unfold uniquesTodayAll
    generalize uniques.toList = rows at hrow
    induction rows with
    | nil => exact ⟨[], rfl⟩
    | cons row rows ih =>
      obtain ⟨s, hs⟩ := hrow row List.mem_cons_self
      obtain ⟨out, hout⟩ := ih fun row' h' => hrow row' (List.mem_cons_of_mem _ h')
      refine ⟨⟨row.1, estimate s⟩ :: out, ?_⟩
      simp only [List.mapM_cons, hs, hout, Bind.bind, Except.bind, Pure.pure, Except.pure]
  obtain ⟨out, hout⟩ := hall
  exact ⟨⟨totalsToday totals, out, series points⟩, by rw [getStats, hout], rfl⟩

end Handler

variable {c : Postgres} {tz : TimeZone} {now : ℤ} {st : Store}

theorem headline_eq_sum (stats : Stats) :
    headline stats = (stats.totalsToday.map NameCount.count).sum := by
  rw [headline, List.sum_eq_foldl, List.foldl_map]

/-- **The counts of all names sum to the rows counted today.** -/
theorem finsum_countToday (h : st.Sound)
    (hfree : ∀ r ∈ st.events, containsNul r.name = false) :
    ∑ᶠ name, returned (countToday tz now st name) =
      st.events.countP fun r => tz.dayStart now ≤ r.ts := by
  calc ∑ᶠ name, returned (countToday tz now st name)
      = ∑ᶠ name, (todayNames tz now st).count name := finsum_congr fun name => by
        rw [h.returned_countToday hfree, h.countTodaySQL_eq_count]
    _ = ∑ name ∈ (todayNames tz now st).toFinset, (todayNames tz now st).count name := by
        refine finsum_eq_sum_of_support_subset _ fun name hname => ?_
        simpa [List.count_eq_zero] using hname
    _ = st.events.countP fun r => tz.dayStart now ≤ r.ts := by
        rw [List.sum_toFinset_count_eq_length, todayNames, List.length_map,
          ← List.countP_eq_length_filter]

/-- The groups of the totals: as many as names, all positive, with the sum of all counts. -/
theorem Store.Sound.todayGroups_spec (h : st.Sound) (tz : TimeZone) (now : ℤ) :
    (todayGroups tz now st).card = (todayNames tz now st).toFinset.card ∧
      (∀ g ∈ todayGroups tz now st, 0 < g.count) ∧
      ((todayGroups tz now st).val.map NameCount.count).sum =
        st.events.countP fun r => tz.dayStart now ≤ r.ts := by
  have hinj : Function.Injective fun name =>
      (⟨name, (todayNames tz now st).count name⟩ : NameCount) := fun a b hab =>
    congrArg NameCount.name hab
  rw [h.todayGroups_eq]
  refine ⟨Finset.card_image_of_injective _ hinj, fun g hg => ?_, ?_⟩
  · obtain ⟨name, hname, rfl⟩ := Finset.mem_image.mp hg
    exact List.count_pos_iff.mpr (List.mem_toFinset.mp hname)
  · show ∑ g ∈ _, NameCount.count g = _
    rw [Finset.sum_image fun a _ b _ hab => hinj hab, List.sum_toFinset_count_eq_length, todayNames,
      List.length_map, ← List.countP_eq_length_filter]

/-- The sum of the totals is the number of rows counted today exactly up to twenty names. -/
theorem sum_totalsToday_eq_iff (h : st.Sound)
    (totals : OrderBy (todayGroups tz now st).val NameCount.ge) :
    ((totalsToday totals).map NameCount.count).sum =
        st.events.countP (fun r => tz.dayStart now ≤ r.ts) ↔
      (todayNames tz now st).toFinset.card ≤ 20 := by
  obtain ⟨hcard, hpos, hsum⟩ := h.todayGroups_spec tz now
  rw [← hsum, ← hcard]
  exact totals.sum_take_eq_iff hpos 20

/-- **The headline is the total of all names, and accounts for every row counted today, if and
only if the rows counted today have at most twenty names.** -/
theorem headline_eq_total_iff {bs : List (Batch c)} {n : ℕ}
    (h : insertBatches c .empty bs = .ok (st, n)) (tz : TimeZone) (now : ℤ)
    (totals : OrderBy (todayGroups tz now st).val NameCount.ge)
    (uniques : OrderBy (todaySketches tz now st) fun _ _ => True)
    (points : OrderBy (seriesPoints now 15 st) (MinutePoint.le c)) :
    (∃ stats, getStats Sketch.estimate totals uniques points = .ok stats ∧
      headline stats = ∑ᶠ name, returned (countToday tz now st name) ∧
      headline stats = st.events.countP fun r => tz.dayStart now ≤ r.ts) ↔
    ((st.events.filter fun r => tz.dayStart now ≤ r.ts).map Row.name).toFinset.card ≤ 20 := by
  obtain ⟨happ, -⟩ := insertBatches_applied h
  have hsound := sound_of_insertBatches h
  obtain ⟨stats, hstats, htotals⟩ := exists_getStats_eq_ok Sketch.estimate totals uniques points
    (happ.uniques.allDecode allDecode_empty)
  have hiff := sum_totalsToday_eq_iff hsound totals
  rw [← htotals, ← headline_eq_sum] at hiff
  rw [finsum_countToday hsound (containsNul_of_insertBatches h)]
  constructor
  · rintro ⟨stats', hstats', heq, -⟩
    obtain rfl : stats = stats' := Except.ok.inj (hstats.symm.trans hstats')
    exact hiff.mp heq
  · intro hle
    exact ⟨stats, hstats, hiff.mpr hle, hiff.mpr hle⟩

/-- One click today. -/
theorem headline_eq_total_one_click :
    ∃ st n, ∃ totals : OrderBy (todayGroups .utc 0 st).val NameCount.ge,
      ∃ uniques : OrderBy (todaySketches .utc 0 st) fun _ _ => True,
      ∃ points : OrderBy (seriesPoints 0 15 st) (MinutePoint.le .bytewise),
      insertBatches .bytewise .empty [Batch.single .bytewise (clickAt 0)] = .ok (st, n) ∧
      ∃ stats, getStats Sketch.estimate totals uniques points = .ok stats ∧
        headline stats = ∑ᶠ name, returned (countToday .utc 0 st name) ∧
        headline stats = st.events.countP fun r => TimeZone.utc.dayStart 0 ≤ r.ts := by
  obtain ⟨st, n, hrun, hevents⟩ := exists_run_clickAt 0
  obtain ⟨totals⟩ := OrderBy.nonempty (todayGroups .utc 0 st).val NameCount.ge
  obtain ⟨uniques⟩ := OrderBy.nonempty_unordered (todaySketches .utc 0 st)
  obtain ⟨points⟩ := OrderBy.nonempty (seriesPoints 0 15 st) (MinutePoint.le .bytewise)
  refine ⟨st, n, totals, uniques, points, hrun, ?_⟩
  refine (headline_eq_total_iff hrun .utc 0 totals uniques points).mpr ?_
  rw [hevents]
  decide

/-- An event of each of the names `a` to `u`, with its name as its id. -/
def letterEvents : List Event :=
  (List.range 21).map fun i =>
    let letter := String.singleton (Char.ofNat (97 + i))
    ⟨letter, letter, "", none, 0⟩

/-- Twenty-one events of different names are shown as twenty. -/
theorem headline_drops_a_name :
    ∃ st n, ∃ totals : OrderBy (todayGroups .utc 0 st).val NameCount.ge,
      ∃ uniques : OrderBy (todaySketches .utc 0 st) fun _ _ => True,
      ∃ points : OrderBy (seriesPoints 0 15 st) (MinutePoint.le .bytewise), ∃ stats,
      insertBatches .bytewise .empty (letterEvents.map (Batch.single .bytewise)) = .ok (st, n) ∧
      getStats Sketch.estimate totals uniques points = .ok stats ∧
      headline stats = 20 ∧ ∑ᶠ name, returned (countToday .utc 0 st name) = 21 := by
  have htakes : ∀ e ∈ letterEvents, Postgres.bytewise.Takes e := by decide +kernel
  obtain ⟨st, n, hrun⟩ := exists_insertBatches_eq_ok (letterEvents.map (Batch.single .bytewise))
    (by simpa [delivered, Batch.single, List.flatMap_map] using htakes) allDecode_empty
  obtain ⟨happ, -⟩ := insertBatches_applied hrun
  have hevents : st.events = letterEvents.map Event.toRow := by
    rw [happ.events_eq]
    rfl
  have hsound := sound_of_insertBatches hrun
  have hnames : todayNames .utc 0 st = letterEvents.map Event.name := by
    rw [todayNames, hevents]
    decide
  have hnodup : (todayNames .utc 0 st).Nodup := by
    rw [hnames]
    decide
  obtain ⟨totals⟩ := OrderBy.nonempty (todayGroups .utc 0 st).val NameCount.ge
  obtain ⟨uniques⟩ := OrderBy.nonempty_unordered (todaySketches .utc 0 st)
  obtain ⟨points⟩ := OrderBy.nonempty (seriesPoints 0 15 st) (MinutePoint.le .bytewise)
  obtain ⟨stats, hstats, htotals⟩ := exists_getStats_eq_ok Sketch.estimate totals uniques points
    (happ.uniques.allDecode allDecode_empty)
  refine ⟨st, n, totals, uniques, points, stats, hrun, hstats, ?_, ?_⟩
  · have hone : ∀ g ∈ totalsToday totals, g.count = 1 := by
      intro g hg
      have hgroup : g ∈ todayGroups .utc 0 st := totals.mem_toList.mp (List.mem_of_mem_take hg)
      rw [hsound.todayGroups_eq] at hgroup
      obtain ⟨name, hname, rfl⟩ := Finset.mem_image.mp hgroup
      exact List.count_eq_one_of_mem hnodup (List.mem_toFinset.mp hname)
    have hlength : (totalsToday totals).length = 20 := by
      have hcard := (hsound.todayGroups_spec .utc 0).1
      rw [List.toFinset_card_of_nodup hnodup, hnames] at hcard
      rw [totalsToday, List.length_take, totals.length_toList, Finset.card_val, hcard]
      rfl
    rw [headline_eq_sum, htotals, List.map_congr_left hone, List.map_const', List.sum_replicate,
      hlength]
    rfl
  · rw [finsum_countToday hsound (containsNul_of_insertBatches hrun), hevents]
    decide

end Tally
