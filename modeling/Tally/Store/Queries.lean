import Tally.Foundation.OrderBy
import Tally.Store.InsertBatch

/-!
# The queries of today

The read side of `internal/store`. What "today" is, is decided by Postgres: `date_trunc('day',
now())` and `current_date` are both taken in the time zone of the session, from the clock of the
database. The rollup query has a lower bound only, and the two totals differ in that one of them is
limited to twenty names.

## Main definitions

* `TimeZone`, `TimeZone.dayStart`, `TimeZone.currentDate`: the session's midnight and date
* `countToday`, `uniquesToday`: the count and the unique users of one name, with the refusal of a
  name that contains U+0000
* `totalsToday`, `uniquesTodayAll`, `series`: the queries behind the dashboard

## Main results

* `Store.Sound.countTodaySQL_eq`: the rollup query counts the rows from the session's midnight
* `uniquesTodaySQL_eq`: the sketch query estimates the sketch of the session's date
* `Store.Sound.todayGroups_eq`: the groups of the totals are the names counted, with their counts
-/

namespace Tally

open Foundation Hll

/-! ## The session's day -/

/-- A session time zone, with offsets in minutes east of UTC. Nothing is assumed of how the two
offsets are related. -/
structure TimeZone where
  /-- The offset at an instant. -/
  offset : ℤ → ℤ
  /-- The offset Postgres gives a local time, also one that is skipped or repeated. -/
  resolve : ℤ → ℤ

namespace TimeZone

/-- A zone that never changes its offset. -/
def fixed (minutes : ℤ) : TimeZone := ⟨fun _ => minutes, fun _ => minutes⟩

def utc : TimeZone := fixed 0

/-- The local time at an instant. -/
def localTime (tz : TimeZone) (now : ℤ) : ℤ := now + tz.offset now * 60000000

/-- `date_trunc('day', now())`: the instant of the last local midnight. -/
def dayStart (tz : TimeZone) (now : ℤ) : ℤ :=
  let midnight := tz.localTime now / 86400000000 * 86400000000
  midnight - tz.resolve midnight * 60000000

/-- `current_date`: the local date. -/
def currentDate (tz : TimeZone) (now : ℤ) : ℤ := tz.localTime now / 86400000000

/-- The session's midnight is at a whole minute. -/
theorem le_truncMinute_iff (tz : TimeZone) (now ts : ℤ) :
    tz.dayStart now ≤ truncMinute ts ↔ tz.dayStart now ≤ ts := by
  simp only [dayStart, truncMinute]
  omega

end TimeZone

/-! ## One name -/

/-- The error of Postgres for a text parameter with the character U+0000. -/
def nulError : String := "ERROR: invalid byte sequence for encoding \"UTF8\": 0x00 (SQLSTATE 22021)"

/-- The answer to a query whose parameter is the name. -/
def withName (name : String) (answer : Except String ℕ) : Except String ℕ :=
  if containsNul name then .error nulError else answer

/-- The number a query returns, which is zero beside an error. -/
def returned : Except String ℕ → ℕ
  | .ok n => n
  | .error _ => 0

/-- The statement of `CountToday`, for a name that Postgres takes. -/
def countTodaySQL (tz : TimeZone) (now : ℤ) (st : Store) (name : String) : ℕ :=
  sumWhere (fun k => k.name = name ∧ tz.dayStart now ≤ k.minute) st.counts

/-- `Store.CountToday`. -/
def countToday (tz : TimeZone) (now : ℤ) (st : Store) (name : String) : Except String ℕ :=
  withName name (.ok (countTodaySQL tz now st name))

/-- The statement of `UniquesToday` and the estimate of the sketch, for a name that Postgres
takes. -/
def uniquesTodaySQL (estimate : Sketch → ℕ) (tz : TimeZone) (now : ℤ) (st : Store)
    (name : String) : Except String ℕ :=
  match st.uniques.lookup ⟨name, tz.currentDate now⟩ with
  -- `pgx.ErrNoRows`
  | none => .ok 0
  | some raw =>
    match Sketch.fromBytes raw with
    | .error reason => .error reason
    | .ok sketch => .ok (estimate sketch)

/-- `Store.UniquesToday`, with the estimate of a sketch. -/
def uniquesToday (estimate : Sketch → ℕ) (tz : TimeZone) (now : ℤ) (st : Store) (name : String) :
    Except String ℕ := withName name (uniquesTodaySQL estimate tz now st name)

@[simp] theorem withName_of_nulFree {name : String} (h : containsNul name = false)
    (answer : Except String ℕ) : withName name answer = answer := by
  rw [withName, h, if_neg Bool.false_ne_true]

/-- **The rollup query counts the stored rows of its name from the session's midnight on.** -/
theorem Store.Sound.countTodaySQL_eq {st : Store} (h : st.Sound) (tz : TimeZone) (now : ℤ)
    (name : String) :
    countTodaySQL tz now st name =
      st.events.countP fun r => r.name = name ∧ tz.dayStart now ≤ r.ts := by
  rw [countTodaySQL, h.counts.sumWhere_eq]
  refine List.countP_congr fun r _ => ?_
  simp only [Row.countKey, tz.le_truncMinute_iff]

/-- **The sketch query estimates the sketch of the session's date**: with no row, that of an empty
sketch. -/
theorem uniquesTodaySQL_eq {estimate : Sketch → ℕ} (hnew : estimate Sketch.new = 0) (tz : TimeZone)
    (now : ℤ) (st : Store) (name : String) :
    uniquesTodaySQL estimate tz now st name =
      (sketchAt st.uniques ⟨name, tz.currentDate now⟩).map estimate := by
  unfold uniquesTodaySQL sketchAt
  cases st.uniques.lookup ⟨name, tz.currentDate now⟩ with
  | none => rw [Except.map, hnew]
  | some raw =>
    cases h : Sketch.fromBytes raw with
    | error reason => simp only [h, Except.map]
    | ok s => simp only [h, Except.map]

/-- The number returned for a name is that of the statement also where the name is refused: no row
has it. -/
theorem Store.Sound.returned_countToday {st : Store} (h : st.Sound)
    (hfree : ∀ r ∈ st.events, containsNul r.name = false) (tz : TimeZone) (now : ℤ)
    (name : String) : returned (countToday tz now st name) = countTodaySQL tz now st name := by
  unfold countToday
  cases hname : containsNul name with
  | false => rw [withName_of_nulFree hname, returned]
  | true =>
    rw [withName, if_pos hname, returned, h.countTodaySQL_eq, eq_comm, List.countP_eq_zero]
    intro r hr hcount
    have hrow := hfree r hr
    rw [(of_decide_eq_true hcount).1, hname] at hrow
    cases hrow

/-! ## All names -/

structure NameCount where
  name : String
  count : ℕ
  deriving DecidableEq

structure MinutePoint where
  name : String
  minute : ℤ
  count : ℕ

/-- The groups of `TotalsToday`: each name with a rollup row from the session's midnight on, and
the sum of those rows. -/
def todayGroups (tz : TimeZone) (now : ℤ) (st : Store) : Finset NameCount :=
  ((st.counts.keys.filter fun k => tz.dayStart now ≤ k.minute).image CountKey.name).image
    fun name => ⟨name, countTodaySQL tz now st name⟩

/-- `ORDER BY 2 DESC`: names with equal counts come in any order. -/
def NameCount.ge (a b : NameCount) : Prop := b.count ≤ a.count

/-- `Store.TotalsToday`, from the groups in an order Postgres may return them. -/
def totalsToday {tz : TimeZone} {now : ℤ} {st : Store}
    (groups : OrderBy (todayGroups tz now st).val NameCount.ge) : List NameCount :=
  groups.toList.take 20

/-- The rows of `UniquesTodayAll`: the sketches of the session's date. -/
def todaySketches (tz : TimeZone) (now : ℤ) (st : Store) : Multiset (String × List Byte) :=
  (st.uniques.keys.filter fun k => k.day = tz.currentDate now).val.map
    fun k => (k.name, (st.uniques.lookup k).getD [])

/-- `Store.UniquesTodayAll`, with its rows in no particular order: one corrupt sketch fails the
query. -/
def uniquesTodayAll (estimate : Sketch → ℕ) {tz : TimeZone} {now : ℤ} {st : Store}
    (rows : OrderBy (todaySketches tz now st) fun _ _ => True) :
    Except (String × String) (List NameCount) :=
  rows.toList.mapM fun (name, raw) =>
    match Sketch.fromBytes raw with
    -- `corrupt sketch for %s: %w`
    | .error reason => .error (name, reason)
    | .ok sketch => .ok ⟨name, estimate sketch⟩

/-- The rows of `Series` for a window of minutes. -/
def seriesPoints (now window : ℤ) (st : Store) : Multiset MinutePoint :=
  (st.counts.keys.filter fun k => truncMinute now - window * 60000000 ≤ k.minute).val.map
    fun k => ⟨k.name, k.minute, (st.counts.lookup k).getD 0⟩

/-- `ORDER BY minute ASC, name ASC`. -/
def MinutePoint.le (c : Postgres) (p q : MinutePoint) : Prop :=
  if p.minute = q.minute then c.le p.name q.name else p.minute < q.minute

/-- `Store.Series`. -/
def series {c : Postgres} {now window : ℤ} {st : Store}
    (points : OrderBy (seriesPoints now window st) (MinutePoint.le c)) : List MinutePoint :=
  points.toList

/-- The names of the stored rows from the session's midnight on. -/
def todayNames (tz : TimeZone) (now : ℤ) (st : Store) : List String :=
  (st.events.filter fun r => tz.dayStart now ≤ r.ts).map Row.name

theorem Store.Sound.countTodaySQL_eq_count {st : Store} (h : st.Sound) (tz : TimeZone) (now : ℤ)
    (name : String) : countTodaySQL tz now st name = (todayNames tz now st).count name := by
  rw [h.countTodaySQL_eq, todayNames, List.count, List.countP_map, List.countP_filter]
  refine List.countP_congr fun r _ => ?_
  simp

/-- **The groups of the totals are the names counted, with their counts.** -/
theorem Store.Sound.todayGroups_eq {st : Store} (h : st.Sound) (tz : TimeZone) (now : ℤ) :
    todayGroups tz now st = (todayNames tz now st).toFinset.image
      fun name => ⟨name, (todayNames tz now st).count name⟩ := by
  have hnames : (st.counts.keys.filter fun k => tz.dayStart now ≤ k.minute).image CountKey.name =
      (todayNames tz now st).toFinset := by
    ext name
    simp only [h.counts.keys_eq, todayNames, Finset.mem_image, Finset.mem_filter, List.mem_toFinset,
      List.mem_map, List.mem_filter, decide_eq_true_eq]
    constructor
    · rintro ⟨k, ⟨⟨r, hr, rfl⟩, hle⟩, rfl⟩
      exact ⟨r, ⟨hr, (tz.le_truncMinute_iff now r.ts).mp hle⟩, rfl⟩
    · rintro ⟨r, ⟨hr, hle⟩, rfl⟩
      exact ⟨r.countKey, ⟨⟨r, hr, rfl⟩, (tz.le_truncMinute_iff now r.ts).mpr hle⟩, rfl⟩
  rw [todayGroups, hnames]
  exact Finset.image_congr fun name _ => by rw [h.countTodaySQL_eq_count]

/-! ## Results there are -/

instance : Std.Total NameCount.ge := ⟨fun a b => Nat.le_total b.count a.count⟩

instance : IsTrans NameCount NameCount.ge := ⟨fun _ _ _ hab hbc => Nat.le_trans hbc hab⟩

instance (c : Postgres) : Std.Total (MinutePoint.le c) := ⟨fun p q => by
  unfold MinutePoint.le
  rcases lt_trichotomy p.minute q.minute with h | h | h
  · exact .inl (by rwa [if_neg h.ne])
  · rw [if_pos h, if_pos h.symm]
    exact c.le_total p.name q.name
  · exact .inr (by rwa [if_neg h.ne])⟩

instance (c : Postgres) : IsTrans MinutePoint (MinutePoint.le c) := ⟨fun p q s hpq hqs => by
  unfold MinutePoint.le at *
  split_ifs at * with h₁ h₂ h₃
  · exact c.le_trans hpq hqs
  all_goals omega⟩

end Tally
