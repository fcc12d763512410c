import Mathlib.Data.Finmap
import Mathlib.Data.List.Sort
import Mathlib.Algebra.BigOperators.Group.Finset.Basic
import Mathlib.Algebra.GroupWithZero.Nat

/-!
# Grouped additive upserts

A rollup table keeps one number per key. A batch of rows is grouped by key and counted, and each
group's count is added to the row of its key, which is created when missing. The order of the
groups is immaterial to the result but is kept: it is the order in which the rows of the table
are touched.

## Main definitions

* `upsertAdd`, `upsertAll`: add to one row, and to the rows of a list of groups
* `groupCount f r rows`: the groups of `rows` by `f`, in the order `r`
* `CountsBy f rows t`: the table `t` counts `rows` by `f`, with a row per nonempty group only
* `tableSum t`, `sumWhere p t`: the sum over the table, and over the keys that satisfy `p`

## Main results

* `getD_lookup_upsertAll`, `lookup_upsertAll_groupCount`: the effect of groups, and of a batch, on
  one key
* `CountsBy.upsertAll`: counting is kept by a batch
* `CountsBy.tableSum_eq`, `CountsBy.sumWhere_eq`: a table that counts rows sums to their number
-/

namespace Foundation

variable {α κ : Type*} [DecidableEq κ]

/-- Add `n` to the row of `k`, creating it when missing. -/
def upsertAdd (t : Finmap fun _ : κ => ℕ) (k : κ) (n : ℕ) : Finmap fun _ : κ => ℕ :=
  t.insert k ((t.lookup k).getD 0 + n)

/-- Add each group's count to its row. -/
def upsertAll (t : Finmap fun _ : κ => ℕ) (groups : List (κ × ℕ)) : Finmap fun _ : κ => ℕ :=
  groups.foldl (fun t g => upsertAdd t g.1 g.2) t

/-- The distinct keys of `rows` under `f`, in the order `r`, each with its number of rows. -/
def groupCount (f : α → κ) (r : κ → κ → Prop) [DecidableRel r] (rows : List α) : List (κ × ℕ) :=
  ((rows.map f).dedup.insertionSort r).map fun k => (k, (rows.map f).count k)

theorem lookup_upsertAdd (t : Finmap fun _ : κ => ℕ) (k k' : κ) (n : ℕ) :
    (upsertAdd t k n).lookup k' =
      if k' = k then some ((t.lookup k).getD 0 + n) else t.lookup k' := by
  unfold upsertAdd
  split_ifs with h
  · rw [h, Finmap.lookup_insert]
  · rw [Finmap.lookup_insert_of_ne _ h]

/-- A row no group names is untouched. -/
theorem lookup_upsertAll_of_not_mem (t : Finmap fun _ : κ => ℕ) {groups : List (κ × ℕ)} {k : κ}
    (h : k ∉ groups.map Prod.fst) : (upsertAll t groups).lookup k = t.lookup k := by
  induction groups generalizing t with
  | nil => rfl
  | cons g groups ih =>
    rw [List.map_cons, List.mem_cons, not_or] at h
    rw [upsertAll, List.foldl_cons, ← upsertAll, ih _ h.2, lookup_upsertAdd, if_neg h.1]

/-- Groups with distinct keys act on distinct rows. -/
theorem lookup_upsertAll_of_mem (t : Finmap fun _ : κ => ℕ) {groups : List (κ × ℕ)}
    (hnd : (groups.map Prod.fst).Nodup) {g : κ × ℕ} (hg : g ∈ groups) :
    (upsertAll t groups).lookup g.1 = some ((t.lookup g.1).getD 0 + g.2) := by
  induction groups generalizing t with
  | nil => simp at hg
  | cons g' groups ih =>
    obtain ⟨hg', hnd⟩ := List.nodup_cons.mp hnd
    rw [upsertAll, List.foldl_cons, ← upsertAll]
    rcases List.mem_cons.mp hg with rfl | hg
    · rw [lookup_upsertAll_of_not_mem _ hg', lookup_upsertAdd, if_pos rfl]
    · have hne : g.1 ≠ g'.1 := fun he => hg' (he ▸ List.mem_map_of_mem hg)
      rw [ih _ hnd hg, lookup_upsertAdd, if_neg hne]

/-- Groups that may share keys: a row grows by the sum of its groups. -/
theorem getD_lookup_upsertAll (t : Finmap fun _ : κ => ℕ) (groups : List (κ × ℕ)) (k : κ) :
    ((upsertAll t groups).lookup k).getD 0 =
      (t.lookup k).getD 0 + (groups.map fun g => if g.1 = k then g.2 else 0).sum := by
  induction groups generalizing t with
  | nil => rfl
  | cons g groups ih =>
    rw [upsertAll, List.foldl_cons, ← upsertAll, ih, lookup_upsertAdd, List.map_cons, List.sum_cons]
    by_cases hk : k = g.1
    · rw [if_pos hk, if_pos hk.symm, hk, Option.getD_some, Nat.add_assoc]
    · rw [if_neg hk, if_neg (Ne.symm hk), Nat.zero_add]

section Groups

variable (f : α → κ) (r : κ → κ → Prop) [DecidableRel r]

theorem map_fst_groupCount (rows : List α) :
    (groupCount f r rows).map Prod.fst = (rows.map f).dedup.insertionSort r := by
  simp [groupCount, Function.comp_def]

theorem nodup_groupCount (rows : List α) : ((groupCount f r rows).map Prod.fst).Nodup := by
  rw [map_fst_groupCount]
  exact (List.perm_insertionSort r _).nodup_iff.mpr (List.nodup_dedup _)

theorem mem_map_fst_groupCount (rows : List α) (k : κ) :
    k ∈ (groupCount f r rows).map Prod.fst ↔ k ∈ rows.map f := by
  rw [map_fst_groupCount, (List.perm_insertionSort r _).mem_iff, List.mem_dedup]

/-- **A batch at one key** adds the number of its rows there, and touches no other row. -/
theorem lookup_upsertAll_groupCount (t : Finmap fun _ : κ => ℕ) (rows : List α) (k : κ) :
    (upsertAll t (groupCount f r rows)).lookup k =
      if k ∈ rows.map f then some ((t.lookup k).getD 0 + (rows.map f).count k)
      else t.lookup k := by
  have hmem := mem_map_fst_groupCount f r rows k
  split_ifs with h
  · obtain ⟨g, hg, rfl⟩ := List.mem_map.mp (hmem.mpr h)
    have hn : g.2 = (rows.map f).count g.1 := by
      obtain ⟨k, -, rfl⟩ := List.mem_map.mp hg
      rfl
    rw [lookup_upsertAll_of_mem t (nodup_groupCount f r rows) hg, hn]
  · exact lookup_upsertAll_of_not_mem t (hmem.not.mpr h)

/-- Batches compose. -/
theorem upsertAll_groupCount_append (t : Finmap fun _ : κ => ℕ) (rows more : List α) :
    upsertAll (upsertAll t (groupCount f r rows)) (groupCount f r more) =
      upsertAll t (groupCount f r (rows ++ more)) := by
  refine Finmap.ext_lookup fun k => ?_
  simp only [lookup_upsertAll_groupCount, List.map_append, List.mem_append, List.count_append]
  -- both sides count row by row: split on which of the two batches has the key
  by_cases hm : k ∈ more.map f <;> by_cases hr : k ∈ rows.map f
  · simp [hm, hr, add_assoc]
  · simp [hm, hr, List.count_eq_zero_of_not_mem hr]
  · simp [hm, hr, List.count_eq_zero_of_not_mem hm]
  · simp [hm, hr]

/-- The order of the rows is immaterial. -/
theorem upsertAll_groupCount_perm (t : Finmap fun _ : κ => ℕ) {rows rows' : List α}
    (h : rows.Perm rows') :
    upsertAll t (groupCount f r rows) = upsertAll t (groupCount f r rows') := by
  refine Finmap.ext_lookup fun k => ?_
  simp only [lookup_upsertAll_groupCount, (h.map f).mem_iff, (h.map f).count_eq]

/-- The table `t` counts `rows` by `f`: a row per nonempty group, and no other. -/
def CountsBy (rows : List α) (t : Finmap fun _ : κ => ℕ) : Prop :=
  ∀ k, t.lookup k = if k ∈ rows.map f then some ((rows.map f).count k) else none

theorem countsBy_nil : CountsBy f [] (∅ : Finmap fun _ : κ => ℕ) := fun k => by simp

variable {f}

/-- **Counting is kept by a batch.** -/
theorem CountsBy.upsertAll {rows : List α} {t : Finmap fun _ : κ => ℕ} (h : CountsBy f rows t)
    (more : List α) : CountsBy f (rows ++ more) (upsertAll t (groupCount f r more)) := by
  intro k
  rw [lookup_upsertAll_groupCount, h k]
  simp only [List.map_append, List.mem_append, List.count_append]
  by_cases hm : k ∈ more.map f <;> by_cases hr : k ∈ rows.map f
  · simp [hm, hr]
  · simp [hm, hr, List.count_eq_zero_of_not_mem hr]
  · simp [hm, hr, List.count_eq_zero_of_not_mem hm]
  · simp [hm, hr]

theorem CountsBy.getD_lookup {rows : List α} {t : Finmap fun _ : κ => ℕ} (h : CountsBy f rows t)
    (k : κ) : (t.lookup k).getD 0 = (rows.map f).count k := by
  rw [h k]
  split_ifs with hk
  · rfl
  · exact (List.count_eq_zero_of_not_mem hk).symm

theorem CountsBy.lookup_ne_some_zero {rows : List α} {t : Finmap fun _ : κ => ℕ}
    (h : CountsBy f rows t) (k : κ) : t.lookup k ≠ some 0 := by
  rw [h k]
  split_ifs with hk
  · simpa using List.count_eq_zero.not.mpr (not_not.mpr hk)
  · simp

end Groups

/-- The sum of all the rows of a table. -/
def tableSum (t : Finmap fun _ : κ => ℕ) : ℕ := ∑ k ∈ t.keys, (t.lookup k).getD 0

/-- The sum of the rows of a table whose keys satisfy `p`. -/
def sumWhere (p : κ → Prop) [DecidablePred p] (t : Finmap fun _ : κ => ℕ) : ℕ :=
  ∑ k ∈ t.keys with p k, (t.lookup k).getD 0

/-- The keys of a table that counts rows are the groups of the rows. -/
theorem CountsBy.keys_eq {f : α → κ} {rows : List α} {t : Finmap fun _ : κ => ℕ}
    (h : CountsBy f rows t) : t.keys = (rows.map f).toFinset := by
  ext k
  rw [Finmap.mem_keys, ← Finmap.lookup_isSome, h k, List.mem_toFinset]
  split_ifs with hk <;> simp [hk]

/-- **A table that counts rows sums to the number of rows in the groups summed over.** -/
theorem CountsBy.sumWhere_eq {f : α → κ} {rows : List α} {t : Finmap fun _ : κ => ℕ}
    (h : CountsBy f rows t) (p : κ → Prop) [DecidablePred p] :
    sumWhere p t = rows.countP fun r => p (f r) := by
  have hgroups : (rows.map f).toFinset.filter p = ((rows.map f).filter p).toFinset := by
    ext k
    simp
  calc sumWhere p t = ∑ k ∈ ((rows.map f).filter p).toFinset, ((rows.map f).filter p).count k := by
        rw [sumWhere, h.keys_eq, hgroups]
        refine Finset.sum_congr rfl fun k hk => ?_
        have hp : p k := by simpa using (List.mem_filter.mp (List.mem_toFinset.mp hk)).2
        rw [h.getD_lookup, List.count_filter (by simpa using hp)]
    _ = rows.countP fun r => p (f r) := by
        rw [List.sum_toFinset_count_eq_length, ← List.countP_eq_length_filter, List.countP_map]
        rfl

/-- **A table that counts rows sums to their number.** -/
theorem CountsBy.tableSum_eq {f : α → κ} {rows : List α} {t : Finmap fun _ : κ => ℕ}
    (h : CountsBy f rows t) : tableSum t = rows.length := by
  calc tableSum t = ∑ k ∈ (rows.map f).toFinset, (rows.map f).count k := by
        rw [tableSum, h.keys_eq]
        exact Finset.sum_congr rfl fun k _ => h.getD_lookup k
    _ = rows.length := by rw [List.sum_toFinset_count_eq_length, List.length_map]

end Foundation
