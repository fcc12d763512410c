import Tally.Dashboard.Headline
import Tally.Hll.Bounds

/-!
# The dashboard while events come in

`/v1/stats` runs three queries one after the other, and the page asks for it every two seconds,
while batches are committed in between. Rows are only added, so until the session's midnight the
counts of all names only grow; the headline is the sum of the twenty largest, and this grows with
the counts. A name leaves the table only for others that have no less. The estimates of the table
are those of `/v1/uniques`, name by name, and are there for the names that have users.

## Main definitions

* `getStatsOver`: the handler, with each query at its own time on the tables there are then

## Main results

* `countTodaySQL_mono`: counts grow until midnight
* `headline_never_drops`: so does the headline, and what leaves the table is outnumbered
* `uniques_agree`: the estimates of all names are those of one name each
-/

namespace Tally

open Foundation Hll

/-- `Handler.getStats`, whose queries read the tables one after the other: each at its own time, and
with what is committed until then. -/
def getStatsOver {c : Postgres} {tz : TimeZone} {now₁ now₂ now₃ : ℤ} {st₁ st₂ st₃ : Store}
    (estimate : Sketch → ℕ) (totals : OrderBy (todayGroups tz now₁ st₁).val NameCount.ge)
    (uniques : OrderBy (todaySketches tz now₂ st₂) fun _ _ => True)
    (points : OrderBy (seriesPoints now₃ 15 st₃) (MinutePoint.le c)) : Except HttpReply Stats :=
  match uniquesTodayAll estimate uniques with
  | .error _ => .error ⟨500, "failed to query uniques", none⟩
  | .ok uniques => .ok ⟨totalsToday totals, uniques, series points⟩

/-- With nothing committed in between it is `getStats`. -/
theorem getStatsOver_self {c : Postgres} {tz : TimeZone} {now : ℤ} {st : Store}
    (estimate : Sketch → ℕ) (totals : OrderBy (todayGroups tz now st).val NameCount.ge)
    (uniques : OrderBy (todaySketches tz now st) fun _ _ => True)
    (points : OrderBy (seriesPoints now 15 st) (MinutePoint.le c)) :
    getStatsOver estimate totals uniques points = getStats estimate totals uniques points := rfl

section Stats

variable {c : Postgres} {tz : TimeZone} {now₁ now₂ now₃ : ℤ} {st₁ st₂ st₃ : Store}

theorem uniquesToday_of_getStatsOver {estimate : Sketch → ℕ}
    {totals : OrderBy (todayGroups tz now₁ st₁).val NameCount.ge}
    {uniques : OrderBy (todaySketches tz now₂ st₂) fun _ _ => True}
    {points : OrderBy (seriesPoints now₃ 15 st₃) (MinutePoint.le c)} {stats : Stats}
    (h : getStatsOver estimate totals uniques points = .ok stats) :
    uniquesTodayAll estimate uniques = .ok stats.uniquesToday := by
  unfold getStatsOver at h
  split at h
  · cases h
  next out hout =>
    cases h
    exact hout

theorem totalsToday_of_getStatsOver {estimate : Sketch → ℕ}
    {totals : OrderBy (todayGroups tz now₁ st₁).val NameCount.ge}
    {uniques : OrderBy (todaySketches tz now₂ st₂) fun _ _ => True}
    {points : OrderBy (seriesPoints now₃ 15 st₃) (MinutePoint.le c)} {stats : Stats}
    (h : getStatsOver estimate totals uniques points = .ok stats) :
    stats.totalsToday = totalsToday totals := by
  unfold getStatsOver at h
  split at h
  · cases h
  · cases h
    rfl

end Stats

/-! ## Totals -/

section Totals

variable {c : Postgres} {tz : TimeZone} {now now' : ℤ} {st st' : Store} {bs' : List (Batch c)}
  {n' : ℕ}

/-- **Counts grow until midnight.** -/
theorem countTodaySQL_mono (hst : st.Sound) (h : insertBatches c st bs' = .ok (st', n'))
    (hday : tz.dayStart now = tz.dayStart now') (name : String) :
    countTodaySQL tz now st name ≤ countTodaySQL tz now' st' name := by
  have happ := (insertBatches_applied h).1
  rw [hst.countTodaySQL_eq, (happ.sound hst).countTodaySQL_eq, happ.events_eq, List.countP_append,
    hday]
  exact Nat.le_add_right _ _

/-- A name that has a count keeps it. -/
theorem mem_todayNames_mono (h : insertBatches c st bs' = .ok (st', n'))
    (hday : tz.dayStart now = tz.dayStart now') {name : String}
    (hname : name ∈ todayNames tz now st) : name ∈ todayNames tz now' st' := by
  have happ := (insertBatches_applied h).1
  rw [todayNames, happ.events_eq, List.filter_append, List.map_append]
  rw [todayNames, hday] at hname
  exact List.mem_append_left _ hname

theorem mem_todayGroups_iff (hst : st.Sound) {g : NameCount} :
    g ∈ todayGroups tz now st ↔
      g.name ∈ todayNames tz now st ∧ g.count = countTodaySQL tz now st g.name := by
  rw [hst.todayGroups_eq, Finset.mem_image]
  constructor
  · rintro ⟨name, hname, rfl⟩
    exact ⟨List.mem_toFinset.mp hname, (hst.countTodaySQL_eq_count tz now name).symm⟩
  · rintro ⟨hname, hcount⟩
    refine ⟨g.name, List.mem_toFinset.mpr hname, ?_⟩
    rw [← hst.countTodaySQL_eq_count, ← hcount]

/-- After a run from empty tables no group has a name with a U+0000. -/
theorem containsNul_of_mem_todayGroups {bs : List (Batch c)} {n : ℕ}
    (h : insertBatches c .empty bs = .ok (st, n)) {g : NameCount}
    (hg : g ∈ todayGroups tz now st) : containsNul g.name = false := by
  have hname := ((mem_todayGroups_iff (sound_of_insertBatches h)).mp hg).1
  obtain ⟨r, hr, hrow⟩ := List.mem_map.mp hname
  exact hrow ▸ containsNul_of_insertBatches h r (List.mem_filter.mp hr).1

theorem mem_totalsToday {totals : OrderBy (todayGroups tz now st).val NameCount.ge}
    {g : NameCount} (hg : g ∈ totalsToday totals) : g ∈ todayGroups tz now st :=
  totals.mem_toList.mp (List.mem_of_mem_take hg)

/-- The names of the table are different. -/
theorem nodup_totalsToday (totals : OrderBy (todayGroups tz now st).val NameCount.ge) :
    (totalsToday totals).Nodup := by
  have hall : totals.toList.Nodup := by
    rw [← Multiset.coe_nodup, totals.coe_toList]
    exact (todayGroups tz now st).nodup
  exact hall.sublist (List.take_sublist 20 _)

/-- **The sum of the twenty largest grows with the counts.** -/
theorem sum_totalsToday_mono (hst : st.Sound) (h : insertBatches c st bs' = .ok (st', n'))
    (hday : tz.dayStart now = tz.dayStart now')
    (totals : OrderBy (todayGroups tz now st).val NameCount.ge)
    (totals' : OrderBy (todayGroups tz now' st').val NameCount.ge) :
    ((totalsToday totals).map NameCount.count).sum ≤
      ((totalsToday totals').map NameCount.count).sum := by
  have hst' := (insertBatches_applied h).1.sound hst
  let later : NameCount → NameCount := fun g => ⟨g.name, countTodaySQL tz now' st' g.name⟩
  have hinj : ∀ g ∈ totalsToday totals, ∀ g' ∈ totalsToday totals, later g = later g' → g = g' := by
    intro g hg g' hg' heq
    have hname : (later g).name = (later g').name := congrArg NameCount.name heq
    have hcount := ((mem_todayGroups_iff hst).mp (mem_totalsToday hg)).2
    have hcount' := ((mem_todayGroups_iff hst).mp (mem_totalsToday hg')).2
    have hname : g.name = g'.name := hname
    rw [hname, ← hcount'] at hcount
    cases g
    cases g'
    cases hname
    cases hcount
    rfl
  have hle : (((totalsToday totals).map later : List NameCount) : Multiset NameCount) ≤
      (todayGroups tz now' st').val := by
    refine (Multiset.le_iff_subset ?_).mpr fun g hg => ?_
    · exact Multiset.coe_nodup.mpr (List.Nodup.map_on hinj (nodup_totalsToday totals))
    · obtain ⟨g₀, hg₀, rfl⟩ := List.mem_map.mp (Multiset.mem_coe.mp hg)
      have hname := ((mem_todayGroups_iff hst).mp (mem_totalsToday hg₀)).1
      exact (mem_todayGroups_iff hst').mpr ⟨mem_todayNames_mono h hday hname, rfl⟩
  have hcard : Multiset.card (((totalsToday totals).map later : List NameCount) :
      Multiset NameCount) ≤ 20 := by
    simp [totalsToday]
  calc ((totalsToday totals).map NameCount.count).sum
      ≤ ((totalsToday totals).map fun g => (later g).count).sum := by
        refine List.sum_le_sum fun g hg => ?_
        have hcount := ((mem_todayGroups_iff hst).mp (mem_totalsToday hg)).2
        rw [hcount]
        exact countTodaySQL_mono hst h hday g.name
    _ = ((((totalsToday totals).map later : List NameCount) : Multiset NameCount).map
          NameCount.count).sum := by simp [Function.comp_def]
    _ ≤ ((totalsToday totals').map NameCount.count).sum :=
        totals'.sum_le_sum_take (fun _ _ hge => hge) hle hcard

/-- **What leaves the table is outnumbered**: a name of the table is in the later one, or twenty
others are that have no less. -/
theorem mem_or_outnumbered (hst : st.Sound) (h : insertBatches c st bs' = .ok (st', n'))
    (hday : tz.dayStart now = tz.dayStart now')
    {totals : OrderBy (todayGroups tz now st).val NameCount.ge}
    (totals' : OrderBy (todayGroups tz now' st').val NameCount.ge) {g : NameCount}
    (hg : g ∈ totalsToday totals) :
    (∃ g' ∈ totalsToday totals', g'.name = g.name ∧ g.count ≤ g'.count) ∨
      ((totalsToday totals').length = 20 ∧ ∀ g' ∈ totalsToday totals', g.count ≤ g'.count) := by
  have hst' := (insertBatches_applied h).1.sound hst
  obtain ⟨hname, hcount⟩ := (mem_todayGroups_iff hst).mp (mem_totalsToday hg)
  have hgrows := countTodaySQL_mono hst h hday g.name
  rw [← hcount] at hgrows
  have hgroup : (⟨g.name, countTodaySQL tz now' st' g.name⟩ : NameCount) ∈ totals'.toList :=
    totals'.mem_toList.mpr
      ((mem_todayGroups_iff hst').mpr ⟨mem_todayNames_mono h hday hname, rfl⟩)
  have hsorted := totals'.pairwise
  rw [← List.take_append_drop 20 totals'.toList] at hgroup hsorted
  rcases List.mem_append.mp hgroup with hkept | hcut
  · exact .inl ⟨_, hkept, rfl, hgrows⟩
  · refine .inr ⟨?_, fun g' hg' => ?_⟩
    · have hlen : 20 < totals'.toList.length := by
        have hpos := List.length_pos_of_mem hcut
        rw [List.length_drop] at hpos
        omega
      rw [totalsToday, List.length_take]
      omega
    · exact hgrows.trans ((List.pairwise_append.mp hsorted).2.2 g' hg' _ hcut)

end Totals

/-- **The headline never goes down before the session's midnight.** Two answers of `/v1/stats` on
one day of the session, with any batches committed in between and while the queries of either run:
the headline of the second is at least that of the first. A name of the first table is in the second
with no smaller count, or the second has twenty others, none of which has a smaller count. -/
theorem headline_never_drops {c : Postgres} {bs bs' : List (Batch c)} {n n' : ℕ}
    {tz : TimeZone} {now now' now₂ now₃ now₂' now₃' : ℤ} {st st' st₂ st₃ st₂' st₃' : Store}
    (h : insertBatches c .empty bs = .ok (st, n)) (h' : insertBatches c st bs' = .ok (st', n'))
    (hday : tz.dayStart now = tz.dayStart now')
    {totals : OrderBy (todayGroups tz now st).val NameCount.ge}
    {uniques : OrderBy (todaySketches tz now₂ st₂) fun _ _ => True}
    {points : OrderBy (seriesPoints now₃ 15 st₃) (MinutePoint.le c)}
    {totals' : OrderBy (todayGroups tz now' st').val NameCount.ge}
    {uniques' : OrderBy (todaySketches tz now₂' st₂') fun _ _ => True}
    {points' : OrderBy (seriesPoints now₃' 15 st₃') (MinutePoint.le c)} {stats stats' : Stats}
    (hstats : getStatsOver Sketch.estimate totals uniques points = .ok stats)
    (hstats' : getStatsOver Sketch.estimate totals' uniques' points' = .ok stats') :
    headline stats ≤ headline stats' ∧
    ∀ g ∈ stats.totalsToday,
      (∃ g' ∈ stats'.totalsToday, g'.name = g.name ∧ g.count ≤ g'.count) ∨
      (stats'.totalsToday.length = 20 ∧ ∀ g' ∈ stats'.totalsToday, g.count ≤ g'.count) := by
  have hsound := sound_of_insertBatches h
  rw [headline_eq_sum, headline_eq_sum, totalsToday_of_getStatsOver hstats,
    totalsToday_of_getStatsOver hstats']
  exact ⟨sum_totalsToday_mono hsound h' hday totals totals', fun g hg =>
    mem_or_outnumbered hsound h' hday totals' hg⟩

/-- One click, and another one of the next minute. -/
theorem headline_never_drops_two_clicks :
    ∃ st st' n n' stats stats', ∃ totals : OrderBy (todayGroups .utc 0 st).val NameCount.ge,
      ∃ uniques : OrderBy (todaySketches .utc 0 st) fun _ _ => True,
      ∃ points : OrderBy (seriesPoints 0 15 st) (MinutePoint.le .bytewise),
      ∃ totals' : OrderBy (todayGroups .utc 60000000 st').val NameCount.ge,
      ∃ uniques' : OrderBy (todaySketches .utc 60000000 st') fun _ _ => True,
      ∃ points' : OrderBy (seriesPoints 60000000 15 st') (MinutePoint.le .bytewise),
      insertBatches .bytewise .empty [Batch.single .bytewise (clickAt 0)] = .ok (st, n) ∧
      insertBatches .bytewise st
        [Batch.single .bytewise ⟨"e2", "buy_click", "u1", none, 60000000000⟩] = .ok (st', n') ∧
      getStatsOver Sketch.estimate totals uniques points = .ok stats ∧
      getStatsOver Sketch.estimate totals' uniques' points' = .ok stats' ∧
      headline stats ≤ headline stats' := by
  obtain ⟨st, n, hrun, -⟩ := exists_run_clickAt 0
  have hdec := (insertBatches_applied hrun).1.uniques.allDecode allDecode_empty
  obtain ⟨st', n', hrun'⟩ := exists_insertBatches_eq_ok
    [Batch.single .bytewise ⟨"e2", "buy_click", "u1", none, 60000000000⟩] (by decide +kernel) hdec
  have hdec' := (insertBatches_applied hrun').1.uniques.allDecode hdec
  obtain ⟨totals⟩ := OrderBy.nonempty (todayGroups .utc 0 st).val NameCount.ge
  obtain ⟨uniques⟩ := OrderBy.nonempty_unordered (todaySketches .utc 0 st)
  obtain ⟨points⟩ := OrderBy.nonempty (seriesPoints 0 15 st) (MinutePoint.le .bytewise)
  obtain ⟨totals'⟩ := OrderBy.nonempty (todayGroups .utc 60000000 st').val NameCount.ge
  obtain ⟨uniques'⟩ := OrderBy.nonempty_unordered (todaySketches .utc 60000000 st')
  obtain ⟨points'⟩ := OrderBy.nonempty (seriesPoints 60000000 15 st') (MinutePoint.le .bytewise)
  obtain ⟨stats, hstats, -⟩ := exists_getStats_eq_ok Sketch.estimate totals uniques points hdec
  obtain ⟨stats', hstats', -⟩ := exists_getStats_eq_ok Sketch.estimate totals' uniques' points'
    hdec'
  rw [← getStatsOver_self] at hstats hstats'
  exact ⟨st, st', n, n', stats, stats', totals, uniques, points, totals', uniques', points', hrun,
    hrun', hstats, hstats', (headline_never_drops hrun hrun' rfl hstats hstats').1⟩

/-! ## Unique users -/

section Uniques

variable {estimate : Sketch → ℕ}

/-- The loop over the rows: a name and an estimate for each. -/
theorem mapM_uniques {rows : List (String × List Byte)} {out : List NameCount}
    (h : (rows.mapM fun (name, raw) =>
      match Sketch.fromBytes raw with
      | .error reason => Except.error (name, reason)
      | .ok sketch => .ok (⟨name, estimate sketch⟩ : NameCount)) = .ok out) :
    out.map NameCount.name = rows.map Prod.fst ∧
      ∀ u ∈ out, ∃ row ∈ rows, ∃ s, Sketch.fromBytes row.2 = .ok s ∧ u = ⟨row.1, estimate s⟩ := by
  induction rows generalizing out with
  | nil =>
    cases h
    exact ⟨rfl, fun u hu => absurd hu List.not_mem_nil⟩
  | cons row rows ih =>
    rw [List.mapM_cons] at h
    cases hrow : Sketch.fromBytes row.2 with
    | error reason => simp [hrow, bind, Except.bind] at h
    | ok s =>
      simp only [hrow, bind, Except.bind, pure, Except.pure] at h
      split at h
      · cases h
      next us hus =>
        cases h
        obtain ⟨hnames, hrows⟩ := ih hus
        refine ⟨by rw [List.map_cons, List.map_cons, hnames], fun u hu => ?_⟩
        rcases List.mem_cons.mp hu with rfl | hu
        · exact ⟨row, List.mem_cons_self, s, hrow, rfl⟩
        · obtain ⟨row', hrow', hfits⟩ := hrows u hu
          exact ⟨row', List.mem_cons_of_mem _ hrow', hfits⟩

variable {tz : TimeZone} {now : ℤ} {st : Store}

/-- The rows of the query are the sketches of the session's date. -/
theorem mem_todaySketches_iff (uniques : OrderBy (todaySketches tz now st) fun _ _ => True)
    {name : String} {raw : List Byte} :
    (name, raw) ∈ uniques.toList ↔ st.uniques.lookup ⟨name, tz.currentDate now⟩ = some raw := by
  rw [uniques.mem_toList, todaySketches, Multiset.mem_map]
  constructor
  · rintro ⟨k, hk, heq⟩
    obtain ⟨hmem, hdate⟩ := Finset.mem_filter.mp hk
    obtain ⟨raw', hraw'⟩ := Finmap.mem_iff.mp (Finmap.mem_keys.mp hmem)
    cases heq
    have hkey : (⟨k.name, tz.currentDate now⟩ : UniqueKey) = k := by rw [← hdate]
    rw [hkey, hraw', Option.getD_some]
  · intro hlookup
    refine ⟨⟨name, tz.currentDate now⟩, Finset.mem_filter.mpr ⟨?_, rfl⟩, ?_⟩
    · exact Finmap.mem_keys.mpr (Finmap.mem_of_lookup_eq_some hlookup)
    · rw [hlookup, Option.getD_some]

/-- The names of the rows are different. -/
theorem nodup_todaySketches (uniques : OrderBy (todaySketches tz now st) fun _ _ => True) :
    (uniques.toList.map Prod.fst).Nodup := by
  rw [← Multiset.coe_nodup, ← Multiset.map_coe, uniques.coe_toList, todaySketches,
    Multiset.map_map]
  refine Multiset.Nodup.map_on (fun k hk l hl hname => ?_) (Finset.nodup _)
  have hk := (Finset.mem_filter.mp hk).2
  have hl := (Finset.mem_filter.mp hl).2
  cases k
  cases l
  cases hname
  cases hk.trans hl.symm
  rfl

/-- What the query answers: a name and its estimate for each row. -/
theorem mem_uniquesTodayAll {uniques : OrderBy (todaySketches tz now st) fun _ _ => True}
    {out : List NameCount} (h : uniquesTodayAll estimate uniques = .ok out) :
    out.map NameCount.name = uniques.toList.map Prod.fst ∧
      ∀ u ∈ out, ∃ s, st.uniques.lookup ⟨u.name, tz.currentDate now⟩ = some (Sketch.bytes s) ∧
        u.count = estimate s := by
  obtain ⟨hnames, hrows⟩ := mapM_uniques h
  refine ⟨hnames, fun u hu => ?_⟩
  obtain ⟨row, hrow, s, hs, rfl⟩ := hrows u hu
  refine ⟨s, ?_, rfl⟩
  rw [Sketch.bytes_of_fromBytes hs]
  exact (mem_todaySketches_iff uniques).mp hrow

/-- An estimate of the answer is that of the query of its name. -/
theorem uniquesTodaySQL_of_mem {uniques : OrderBy (todaySketches tz now st) fun _ _ => True}
    {out : List NameCount} (h : uniquesTodayAll estimate uniques = .ok out) {u : NameCount}
    (hu : u ∈ out) : uniquesTodaySQL estimate tz now st u.name = .ok u.count := by
  obtain ⟨s, hlookup, hcount⟩ := (mem_uniquesTodayAll h).2 u hu
  simp [uniquesTodaySQL, hlookup, Sketch.fromBytes_bytes, hcount]

/-- A name that is not in the answer has no row, and the query of the name answers zero. -/
theorem uniquesTodaySQL_of_not_mem {uniques : OrderBy (todaySketches tz now st) fun _ _ => True}
    {out : List NameCount} (h : uniquesTodayAll estimate uniques = .ok out) {name : String}
    (hname : name ∉ out.map NameCount.name) : uniquesTodaySQL estimate tz now st name = .ok 0 := by
  have hnone : st.uniques.lookup ⟨name, tz.currentDate now⟩ = none := by
    by_contra hsome
    obtain ⟨raw, hraw⟩ := Option.ne_none_iff_exists'.mp hsome
    refine hname ?_
    rw [(mem_uniquesTodayAll h).1]
    exact List.mem_map.mpr ⟨_, (mem_todaySketches_iff uniques).mpr hraw, rfl⟩
  simp [uniquesTodaySQL, hnone]

/-- **The query of a name answers with its entry in the answer for all names**, wherever it is
found there. -/
theorem uniquesToday_eq_find {uniques : OrderBy (todaySketches tz now st) fun _ _ => True}
    {out l : List NameCount} (h : uniquesTodayAll estimate uniques = .ok out) (hl : l.Perm out)
    {name : String} (hname : containsNul name = false) :
    uniquesToday estimate tz now st name =
      .ok (((l.find? fun u => u.name = name).map NameCount.count).getD 0) := by
  rw [uniquesToday, withName_of_nulFree hname]
  cases hfind : l.find? fun u => u.name = name with
  | none =>
    refine uniquesTodaySQL_of_not_mem h fun hmem => ?_
    obtain ⟨u, hu, rfl⟩ := List.mem_map.mp hmem
    exact absurd (List.find?_eq_none.mp hfind u (hl.mem_iff.mpr hu)) (by simp)
  | some u =>
    obtain rfl : u.name = name := by simpa using List.find?_some hfind
    exact uniquesTodaySQL_of_mem h (hl.mem_iff.mp (List.mem_of_find?_eq_some hfind))

/-- With sketches that decode, the query answers. -/
theorem exists_uniquesTodayAll_eq_ok (estimate : Sketch → ℕ)
    (uniques : OrderBy (todaySketches tz now st) fun _ _ => True) (h : AllDecode st.uniques) :
    ∃ out, uniquesTodayAll estimate uniques = .ok out := by
  obtain ⟨totals⟩ := OrderBy.nonempty (todayGroups tz now st).val NameCount.ge
  obtain ⟨points⟩ := OrderBy.nonempty (seriesPoints now 15 st) (MinutePoint.le .bytewise)
  obtain ⟨stats, hstats, -⟩ := exists_getStats_eq_ok estimate totals uniques points h
  unfold getStats at hstats
  split at hstats
  · cases hstats
  next out hout => exact ⟨out, hout⟩

end Uniques

/-- **The estimates of all names are those of one name each.** After every run from empty tables,
`UniquesTodayAll` answers, each name once, with what `UniquesToday` answers for it, and this is zero
for every other name without a U+0000. The names are those that users of the session's date have,
and none of them is estimated as zero. -/
theorem uniques_agree {c : Postgres} {bs : List (Batch c)} {st : Store} {n : ℕ}
    (h : insertBatches c .empty bs = .ok (st, n)) (tz : TimeZone) (now : ℤ)
    (uniques : OrderBy (todaySketches tz now st) fun _ _ => True) :
    ∃ out, uniquesTodayAll Sketch.estimate uniques = .ok out ∧
      (out.map NameCount.name).Nodup ∧
      (∀ u ∈ out, 0 < u.count ∧
        uniquesToday Sketch.estimate tz now st u.name = .ok u.count) ∧
      ∀ name, (name ∈ out.map NameCount.name ↔
          idsFor (delivered bs) ⟨name, tz.currentDate now⟩ ≠ []) ∧
        (name ∉ out.map NameCount.name → containsNul name = false →
          uniquesToday Sketch.estimate tz now st name = .ok 0) := by
  have hfold := (insertBatches_applied h).1.uniques
  obtain ⟨out, hout⟩ := exists_uniquesTodayAll_eq_ok Sketch.estimate uniques
    (hfold.allDecode allDecode_empty)
  obtain ⟨hnames, hrows⟩ := mem_uniquesTodayAll hout
  have hsketch : ∀ name s, st.uniques.lookup ⟨name, tz.currentDate now⟩ = some (Sketch.bytes s) →
      idsFor (delivered bs) ⟨name, tz.currentDate now⟩ ≠ [] ∧
        s = Sketch.new.addAll (idsFor (delivered bs) ⟨name, tz.currentDate now⟩) := by
    intro name s hlookup
    have hrun := sketchAt_of_insertBatches h ⟨name, tz.currentDate now⟩
    simp only [sketchAt, hlookup, Sketch.fromBytes_bytes] at hrun
    refine ⟨fun hnone => ?_, Except.ok.inj hrun⟩
    rw [(hfold ⟨name, tz.currentDate now⟩).1 hnone] at hlookup
    cases hlookup
  refine ⟨out, hout, hnames ▸ nodup_todaySketches uniques, fun u hu => ⟨?_, ?_⟩,
    fun name => ⟨?_, fun hname hnul => ?_⟩⟩
  · obtain ⟨s, hlookup, hcount⟩ := hrows u hu
    obtain ⟨hne, rfl⟩ := hsketch u.name s hlookup
    rw [hcount, Nat.pos_iff_ne_zero]
    exact (Sketch.estimate_addAll_eq_zero_iff _).not.mpr hne
  · obtain ⟨s, hlookup, -⟩ := hrows u hu
    have hnul := containsNul_of_idsFor h (hsketch u.name s hlookup).1
    rw [uniquesToday, withName_of_nulFree hnul, uniquesTodaySQL_of_mem hout hu]
  · rw [hnames, List.mem_map]
    constructor
    · rintro ⟨row, hrow, rfl⟩
      intro hnone
      have hlookup := (mem_todaySketches_iff uniques).mp hrow
      rw [(hfold ⟨row.1, tz.currentDate now⟩).1 hnone] at hlookup
      cases hlookup
    · intro hne
      obtain ⟨s, -, hlookup⟩ := (hfold ⟨name, tz.currentDate now⟩).2 hne
      exact ⟨_, (mem_todaySketches_iff uniques).mpr hlookup, rfl⟩
  · rw [uniquesToday, withName_of_nulFree hnul, uniquesTodaySQL_of_not_mem hout hname]

/-- One click of one user. -/
theorem uniques_agree_one_click :
    ∃ st n, ∃ uniques : OrderBy (todaySketches .utc 0 st) fun _ _ => True, ∃ out,
      insertBatches .bytewise .empty [Batch.single .bytewise (clickAt 0)] = .ok (st, n) ∧
      uniquesTodayAll Sketch.estimate uniques = .ok out ∧ "buy_click" ∈ out.map NameCount.name := by
  obtain ⟨st, n, hrun, -⟩ := exists_run_clickAt 0
  obtain ⟨uniques⟩ := OrderBy.nonempty_unordered (todaySketches .utc 0 st)
  obtain ⟨out, hout, -, -, hall⟩ := uniques_agree hrun .utc 0 uniques
  exact ⟨st, n, uniques, out, hrun, hout, (hall "buy_click").1.mpr (by decide)⟩

end Tally
