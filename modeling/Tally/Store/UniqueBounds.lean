import Tally.Hll.Bounds
import Tally.Store.Today

/-!
# Bounds of the unique users

What `UniquesToday` shows of the users whose events were delivered, in every run and for any ids,
also ones that are chosen to collide. It shows at least as many as the registers they fall in, and
zero exactly when there are none. As long as the users leave enough registers empty, it shows little
more than there are, and up to 127 users never one too many.

## Main results

* `uniquesToday_bounds`: what is shown, from below and from above
-/

namespace Tally

open Foundation Hll

/-- Up to 127 users the bound is less than one user off. -/
theorem linearBound_lt {n : ℕ} (hn : n ≤ 127) : linearBound n + 0.5 < n + 1 := by
  have hcast : (n : ℝ) ≤ 127 := by exact_mod_cast hn
  have hnonneg : (0 : ℝ) ≤ n := Nat.cast_nonneg n
  rw [linearBound_eq, Sketch.cast_m]
  have hsquare : (n : ℝ) ^ 2 / (2 * 16384) ≤ 127 ^ 2 / (2 * 16384) := by gcongr
  have hcube : (n : ℝ) ^ 3 / (16384 * (16384 - n)) ≤ 127 ^ 3 / (16384 * (16384 - 127)) := by
    gcongr
  norm_num at hsquare hcube ⊢
  linarith

/-- **What `UniquesToday` shows.** After every run from empty tables, for every name without a
U+0000, time zone of the session and time: the query answers, with at least the number of registers
that the users of the session's date fall in, and with zero exactly when there are none. If they are
at most 11657, it shows at most `n + n² / 2m + n³ / (m (m - n)) + 1 / 2` for `n` users, where `m` is
the number of registers; and at most `n` if they are at most 127. -/
theorem uniquesToday_bounds {c : Postgres} {bs : List (Batch c)} {st : Store} {n : ℕ}
    (h : insertBatches c .empty bs = .ok (st, n)) (tz : TimeZone) (now : ℤ) {name : String}
    (hname : containsNul name = false) :
    let users := (idsFor (delivered bs) ⟨name, tz.currentDate now⟩).toFinset
    ∃ shown, uniquesToday Sketch.estimate tz now st name = .ok shown ∧
      (users.image fun v => index (Hll.hash64 v)).card ≤ shown ∧ (shown = 0 ↔ users = ∅) ∧
      (users.card ≤ 11657 → (shown : ℝ) ≤ users.card + users.card ^ 2 / (2 * m) +
        users.card ^ 3 / (m * (m - users.card)) + 0.5) ∧
      (users.card ≤ 127 → shown ≤ users.card) := by
  intro users
  have hquery := uniquesTodaySQL_of_insertBatches h tz now name
  generalize hids : idsFor (delivered bs) ⟨name, tz.currentDate now⟩ = ids at hquery
  have husers : users = ids.toFinset := congrArg List.toFinset hids
  have hhigh : users.card ≤ 11657 →
      ((Sketch.new.addAll ids).estimate : ℝ) ≤ linearBound users.card + 0.5 := by
    rw [husers]
    exact Sketch.estimate_addAll_le
  rw [uniquesToday, withName_of_nulFree hname]
  refine ⟨(Sketch.new.addAll ids).estimate, hquery, ?_, ?_, ?_, fun hfew => ?_⟩
  · rw [husers, ← Sketch.occupied_addAll]
    exact (Sketch.valid_addAll ids).occupied_le_estimate
  · rw [husers, Sketch.estimate_addAll_eq_zero_iff, List.toFinset_eq_empty_iff]
  · rw [← linearBound_eq]
    exact hhigh
  · have hbound := (hhigh (hfew.trans (by decide))).trans_lt (linearBound_lt hfew)
    exact Nat.lt_succ_iff.mp (by exact_mod_cast hbound)

/-- One click of one user is shown as one user. -/
theorem uniquesToday_bounds_one_click :
    ∃ st n, insertBatches .bytewise .empty [Batch.single .bytewise (clickAt 0)] = .ok (st, n) ∧
      ∃ shown, uniquesToday Sketch.estimate .utc 0 st "buy_click" = .ok shown ∧ shown ≤ 1 ∧
        shown ≠ 0 := by
  obtain ⟨st, n, hrun, -⟩ := exists_run_clickAt 0
  have hname : containsNul "buy_click" = false := by decide
  obtain ⟨shown, hshown, -, hzero, -, hfew⟩ := uniquesToday_bounds hrun .utc 0 hname
  refine ⟨st, n, hrun, shown, hshown, hfew (by decide), fun h0 => ?_⟩
  exact absurd (hzero.mp h0) (by decide)

end Tally
