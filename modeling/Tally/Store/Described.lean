import Mathlib.Data.Set.Card
import Tally.Store.Replay
import Tally.Store.Today

/-!
# What the tables say

What the tables are for, in terms of a set of events and of nothing else: a row for each event, the
number of events of each name in each minute, and for each name and day the sketch of its users.
Batches, orders and duplicates do not occur. The set settles the tables but for the order of the
rows, and the queries answer questions about the set.

## Main definitions

* `usersOf E k`: the users of a name on a day
* `Sketch.IsOf s users`: the registers of `s` are those the users select
* `Store.Describes st E`: the tables say what there is to say about the events of `E`

## Main results

* `Store.Describes.unique`: the set settles the tables
* `Store.Describes.countToday_eq`, `Store.Describes.uniquesToday_eq`: the queries on the set
* `describes_delivered`: a run of `InsertBatch` describes the events delivered
-/

namespace Tally

open Foundation Hll

/-- The users of a name on a day. -/
def usersOf (E : Set Event) (k : UniqueKey) : Set String :=
  {v | ∃ e ∈ E, e.distinctId ≠ "" ∧ e.uniqueKey = k ∧ e.distinctId = v}

/-- Each register of the sketch is the greatest that a user selects, and zero if none does. -/
def Hll.Sketch.IsOf (s : Sketch) (users : Set String) : Prop :=
  ∀ i, IsGreatest (insert (Sketch.new.regs i) {x | ∃ v ∈ users, x = (Sketch.new.add v).regs i})
    (s.regs i)

/-- **The tables describe a set of events**, in which an id determines its event. -/
structure Store.Describes (st : Store) (E : Set Event) : Prop where
  injOn : E.InjOn Event.eventId
  once : st.ids.Nodup
  rows : ∀ r, r ∈ st.events ↔ ∃ e ∈ E, e.toRow = r
  counts : ∀ k n, st.counts.lookup k = some n ↔ 0 < n ∧ {e ∈ E | e.toRow.countKey = k}.ncard = n
  noUsers : ∀ k, usersOf E k = ∅ → st.uniques.lookup k = none
  users : ∀ k, (usersOf E k).Nonempty →
    ∃ s : Sketch, s.IsOf (usersOf E k) ∧ st.uniques.lookup k = some s.bytes

/-! ## Sketches of sets -/

theorem Hll.Sketch.isOf_addAll {users : Set String} {vs : List String}
    (h : ∀ v, v ∈ vs ↔ v ∈ users) : (Sketch.new.addAll vs).IsOf users := by
  intro i
  have hgreatest := Sketch.isGreatest_regs_addAll Sketch.new vs i
  simpa only [h] using hgreatest

theorem Hll.Sketch.IsOf.unique {users : Set String} {s t : Sketch} (hs : s.IsOf users)
    (ht : t.IsOf users) : s = t := by
  ext i
  rw [(hs i).unique (ht i)]

namespace Store

variable {st st' : Store} {E : Set Event}

/-! ## Counting rows and counting events -/

/-- Rows are counted as events are. -/
theorem countP_eq_ncard (hinj : E.InjOn Event.eventId) (hnodup : st.ids.Nodup)
    (hrows : ∀ r, r ∈ st.events ↔ ∃ e ∈ E, e.toRow = r) (p : Row → Prop) [DecidablePred p] :
    st.events.countP p = {e ∈ E | p e.toRow}.ncard := by
  classical
  have hinjRow : {e ∈ E | p e.toRow}.InjOn Event.toRow := by
    intro e he e' he' heq
    exact hinj he.1 he'.1 (congrArg Row.eventId heq)
  have himage : Event.toRow '' {e ∈ E | p e.toRow} = ((st.events.filter p).toFinset : Set Row) := by
    ext r
    simp only [Set.mem_image, Set.mem_ofPred_eq, List.coe_toFinset, List.mem_filter,
      decide_eq_true_eq, hrows]
    constructor
    · rintro ⟨e, ⟨he, hp⟩, rfl⟩
      exact ⟨⟨e, he, rfl⟩, hp⟩
    · rintro ⟨⟨e, he, rfl⟩, hp⟩
      exact ⟨e, ⟨he, hp⟩, rfl⟩
  have hfilter : (st.events.filter p).Nodup := (List.Nodup.of_map _ hnodup).filter _
  rw [← hinjRow.ncard_image, himage, Set.ncard_coe_finset,
    List.toFinset_card_of_nodup hfilter, List.countP_eq_length_filter]

theorem count_countKey (hinj : E.InjOn Event.eventId) (hnodup : st.ids.Nodup)
    (hrows : ∀ r, r ∈ st.events ↔ ∃ e ∈ E, e.toRow = r) (k : CountKey) :
    (st.events.map Row.countKey).count k = {e ∈ E | e.toRow.countKey = k}.ncard := by
  rw [List.count, List.countP_map, ← countP_eq_ncard hinj hnodup hrows fun r => r.countKey = k]
  exact List.countP_congr fun r _ => by simp

/-- The rollups count the events exactly if they count the rows. -/
theorem countsBy_iff (hinj : E.InjOn Event.eventId) (hnodup : st.ids.Nodup)
    (hrows : ∀ r, r ∈ st.events ↔ ∃ e ∈ E, e.toRow = r) :
    CountsBy Row.countKey st.events st.counts ↔
      ∀ k n, st.counts.lookup k = some n ↔
        0 < n ∧ {e ∈ E | e.toRow.countKey = k}.ncard = n := by
  refine forall_congr' fun k => ?_
  rw [Option.ext_iff]
  refine forall_congr' fun n => iff_congr Iff.rfl ?_
  rw [← count_countKey hinj hnodup hrows]
  split_ifs with hk
  · have hpos := List.count_pos_iff.mpr hk
    rw [Option.some.injEq]
    omega
  · have hzero := List.count_eq_zero_of_not_mem hk
    simp only [false_iff]
    omega

namespace Describes

theorem sound (h : st.Describes E) : st.Sound :=
  ⟨h.once, (countsBy_iff h.injOn h.once h.rows).mpr h.counts⟩

/-- **The set settles the tables**, but for the order of the rows. -/
theorem unique (h : st.Describes E) (h' : st'.Describes E) :
    st.events.Perm st'.events ∧ st.counts = st'.counts ∧ st.uniques = st'.uniques := by
  refine ⟨?_, Finmap.ext_lookup fun k => ?_, Finmap.ext_lookup fun k => ?_⟩
  · refine (List.perm_ext_iff_of_nodup (.of_map _ h.once) (.of_map _ h'.once)).mpr fun r => ?_
    rw [h.rows, h'.rows]
  · exact Option.ext fun n => by rw [h.counts, h'.counts]
  · rcases (usersOf E k).eq_empty_or_nonempty with hnone | hsome
    · rw [h.noUsers k hnone, h'.noUsers k hnone]
    · obtain ⟨s, hs, hlookup⟩ := h.users k hsome
      obtain ⟨t, ht, hlookup'⟩ := h'.users k hsome
      rw [hlookup, hlookup', hs.unique ht]

/-! ## The queries -/

/-- **`CountToday` is the number of events** of the name from the session's midnight on. -/
theorem countToday_eq (h : st.Describes E) (tz : TimeZone) (now : ℤ) {name : String}
    (hname : containsNul name = false) :
    countToday tz now st name =
      .ok {e ∈ E | e.name = name ∧ tz.dayStart now ≤ e.toRow.ts}.ncard := by
  have hcount := countP_eq_ncard h.injOn h.once h.rows fun r =>
    r.name = name ∧ tz.dayStart now ≤ r.ts
  rw [countToday, withName_of_nulFree hname, h.sound.countTodaySQL_eq]
  exact congrArg Except.ok hcount

/-- **`UniquesToday` is the estimate of the sketch** of the users of the session's date. -/
theorem uniquesToday_eq (h : st.Describes E) (tz : TimeZone) (now : ℤ) {name : String}
    (hname : containsNul name = false) :
    ∃ s : Sketch, s.IsOf (usersOf E ⟨name, tz.currentDate now⟩) ∧
      uniquesToday Sketch.estimate tz now st name = .ok s.estimate := by
  rw [uniquesToday, withName_of_nulFree hname, uniquesTodaySQL_eq Sketch.estimate_new]
  unfold sketchAt
  rcases (usersOf E ⟨name, tz.currentDate now⟩).eq_empty_or_nonempty with hnone | hsome
  · refine ⟨Sketch.new.addAll [], Sketch.isOf_addAll fun v => ?_, ?_⟩
    · rw [hnone]
      simp
    · rw [h.noUsers _ hnone]
      rfl
  · obtain ⟨s, hs, hlookup⟩ := h.users _ hsome
    refine ⟨s, hs, ?_⟩
    simp only [hlookup, Sketch.fromBytes_bytes, Except.map]

end Describes

end Store

/-! ## Runs of `InsertBatch` -/

section Runs

variable {c : Postgres} {bs : List (Batch c)} {st st' : Store} {n : ℕ}

theorem mem_ids_of_delivered (h : insertBatches c st bs = .ok (st', n)) {e : Event}
    (he : e ∈ delivered bs) : e.eventId ∈ st'.ids := by
  refine (insertBatches_applied h).1.mem_ids.mpr (.inr ?_)
  exact List.mem_map_of_mem (mem_flatMap_order.mpr ⟨e, he, rfl⟩)

theorem exists_delivered_of_mem_ids (h : insertBatches c .empty bs = .ok (st, n)) {id : String}
    (hid : id ∈ st.ids) : ∃ e ∈ delivered bs, e.eventId = id := by
  obtain ⟨r, hr, rfl⟩ := List.mem_map.mp hid
  obtain ⟨e, he, rfl⟩ := mem_events_of_insertBatches h hr
  exact ⟨e, he, rfl⟩

/-- **The tables a run leaves describe the events delivered**, in whatever batches, orders and
repetitions, where an id determines its event. -/
theorem describes_delivered (h : insertBatches c .empty bs = .ok (st, n))
    (hinj : {e | e ∈ delivered bs}.InjOn Event.eventId) :
    st.Describes {e | e ∈ delivered bs} := by
  have hsound := sound_of_insertBatches h
  have hfold := (insertBatches_applied h).1.uniques
  have hrows : ∀ r, r ∈ st.events ↔ ∃ e ∈ {e | e ∈ delivered bs}, e.toRow = r := by
    refine fun r => ⟨mem_events_of_insertBatches h, ?_⟩
    rintro ⟨e, he, rfl⟩
    obtain ⟨r, hr, hre⟩ := List.mem_map.mp (mem_ids_of_delivered h he)
    obtain ⟨e', he', rfl⟩ := mem_events_of_insertBatches h hr
    rwa [← hinj he' he hre]
  have husers : ∀ k v, v ∈ idsFor (delivered bs) k ↔ v ∈ usersOf {e | e ∈ delivered bs} k :=
    fun k v => mem_idsFor
  refine ⟨hinj, hsound.nodup, hrows,
    (Store.countsBy_iff hinj hsound.nodup hrows).mp hsound.counts, fun k hnone => ?_,
    fun k ⟨v, hv⟩ => ?_⟩
  · refine (hfold k).1 (List.eq_nil_iff_forall_not_mem.mpr fun v hv => ?_)
    exact Set.eq_empty_iff_forall_notMem.mp hnone v ((husers k v).mp hv)
  · obtain ⟨s, hs, hlookup⟩ := (hfold k).2 (List.ne_nil_of_mem ((husers k v).mpr hv))
    obtain rfl : Sketch.new = s := by simpa [Store.empty, sketchAt] using hs
    exact ⟨_, Sketch.isOf_addAll (husers k), hlookup⟩

end Runs

end Tally
