import Mathlib.Data.List.Dedup
import Mathlib.Data.Finset.Card
import Mathlib.Data.Finset.Dedup
import Mathlib.Data.List.Perm.Basic

/-!
# First-wins insertion into a keyed table

A table with a unique key receives rows one at a time; a row whose key is already there, in the
table or among the rows received before it, is skipped. `fresh key table rows` lists the rows
that get in. Insertion in several batches is insertion of the concatenation, so what a run of
batches adds is a single `fresh`.

## Main definitions

* `fresh key table rows`: the rows of `rows` that enter `table`

## Main results

* `fresh_append`: batches compose
* `nodup_map_fresh`, `toFinset_map_fresh`: the keys entered are new, distinct, and all of them
* `mem_fresh_iff`: on rows determined by their keys, `fresh` is a set
* `fresh_congr`: only the membership of the incoming keys in the table matters
-/

namespace Foundation

variable {α κ : Type*} [DecidableEq κ]

/-- The rows of a list that enter a table with the unique key `key`, first come first served. -/
def fresh (key : α → κ) : List α → List α → List α
  | _, [] => []
  | table, r :: rows =>
    if key r ∈ table.map key then fresh key table rows
    else r :: fresh key (table ++ [r]) rows

variable (key : α → κ)

@[simp] theorem fresh_nil (table : List α) : fresh key table [] = [] := rfl

theorem fresh_cons_of_mem {table : List α} {r : α} (h : key r ∈ table.map key) (rows : List α) :
    fresh key table (r :: rows) = fresh key table rows := if_pos h

theorem fresh_cons_of_not_mem {table : List α} {r : α} (h : key r ∉ table.map key)
    (rows : List α) :
    fresh key table (r :: rows) = r :: fresh key (table ++ [r]) rows := if_neg h

/-- **Batches compose**: inserting `rows` and then `more` is inserting their concatenation. -/
theorem fresh_append (table rows more : List α) :
    fresh key table (rows ++ more) =
      fresh key table rows ++ fresh key (table ++ fresh key table rows) more := by
  induction rows generalizing table with
  | nil => simp
  | cons r rows ih =>
    by_cases h : key r ∈ table.map key
    · rw [List.cons_append, fresh_cons_of_mem key h, fresh_cons_of_mem key h, ih]
    · rw [List.cons_append, fresh_cons_of_not_mem key h, fresh_cons_of_not_mem key h, ih]
      simp

/-- One more row enters exactly when its key is neither in the table nor among the rows
entered so far. -/
theorem fresh_snoc (table rows : List α) (r : α) :
    fresh key table (rows ++ [r]) =
      if key r ∈ (table ++ fresh key table rows).map key then fresh key table rows
      else fresh key table rows ++ [r] := by
  rw [fresh_append]
  split_ifs with h
  · rw [fresh_cons_of_mem key h, fresh_nil, List.append_nil]
  · rw [fresh_cons_of_not_mem key h, fresh_nil]

theorem fresh_sublist (table rows : List α) : (fresh key table rows).Sublist rows := by
  induction rows generalizing table with
  | nil => simp
  | cons r rows ih =>
    by_cases h : key r ∈ table.map key
    · rw [fresh_cons_of_mem key h]
      exact (ih table).cons r
    · rw [fresh_cons_of_not_mem key h]
      exact (ih _).cons_cons r

/-- The keys after the insertion are those of the table and those of the incoming rows. -/
theorem mem_map_append_fresh (table rows : List α) (k : κ) :
    k ∈ (table ++ fresh key table rows).map key ↔ k ∈ table.map key ∨ k ∈ rows.map key := by
  induction rows generalizing table with
  | nil => simp
  | cons r rows ih =>
    by_cases h : key r ∈ table.map key
    · rw [fresh_cons_of_mem key h, ih, List.map_cons, List.mem_cons]
      constructor
      · exact Or.imp_right Or.inr
      · rintro (hk | rfl | hk)
        exacts [.inl hk, .inl h, .inr hk]
    · have hs := ih (table ++ [r])
      rw [fresh_cons_of_not_mem key h]
      simp only [List.map_append, List.map_cons, List.map_nil, List.mem_append, List.mem_cons,
        List.not_mem_nil, or_false] at hs ⊢
      tauto

/-- A row that enters has a key the table did not have. -/
theorem key_notMem_of_mem_fresh {table rows : List α} {r : α} (h : r ∈ fresh key table rows) :
    key r ∉ table.map key := by
  induction rows generalizing table with
  | nil => simp at h
  | cons s rows ih =>
    by_cases hs : key s ∈ table.map key
    · rw [fresh_cons_of_mem key hs] at h
      exact ih h
    · rw [fresh_cons_of_not_mem key hs] at h
      rcases List.mem_cons.mp h with rfl | h
      · exact hs
      · intro hr
        exact ih h (by simp only [List.map_append, List.mem_append]; exact .inl hr)

theorem nodup_map_fresh (table rows : List α) : ((fresh key table rows).map key).Nodup := by
  induction rows generalizing table with
  | nil => simp
  | cons r rows ih =>
    by_cases h : key r ∈ table.map key
    · rw [fresh_cons_of_mem key h]
      exact ih table
    · rw [fresh_cons_of_not_mem key h, List.map_cons, List.nodup_cons]
      refine ⟨fun hr => ?_, ih _⟩
      obtain ⟨s, hs, he⟩ := List.mem_map.mp hr
      exact key_notMem_of_mem_fresh key hs (by simp [he])

/-- A table whose keys are distinct keeps them distinct. -/
theorem nodup_map_append_fresh {table : List α} (h : (table.map key).Nodup) (rows : List α) :
    ((table ++ fresh key table rows).map key).Nodup := by
  rw [List.map_append, List.nodup_append]
  refine ⟨h, nodup_map_fresh key table rows, ?_⟩
  rintro k hk _ hk' rfl
  obtain ⟨r, hr, rfl⟩ := List.mem_map.mp hk'
  exact key_notMem_of_mem_fresh key hr hk

/-- **The keys entered** are the incoming keys the table did not have. -/
theorem toFinset_map_fresh (table rows : List α) :
    ((fresh key table rows).map key).toFinset =
      (rows.map key).toFinset \ (table.map key).toFinset := by
  ext k
  have hm := mem_map_append_fresh key table rows k
  simp only [List.mem_toFinset, Finset.mem_sdiff]
  rw [List.map_append, List.mem_append] at hm
  constructor
  · intro hk
    obtain ⟨r, hr, rfl⟩ := List.mem_map.mp hk
    exact ⟨List.mem_map_of_mem ((fresh_sublist key table rows).subset hr),
      key_notMem_of_mem_fresh key hr⟩
  · rintro ⟨hk, hnot⟩
    exact (hm.mpr (.inr hk)).resolve_left hnot

/-- The number of rows entered is the number of distinct new keys, in whatever order the rows
come. -/
theorem length_fresh (table rows : List α) :
    (fresh key table rows).length =
      ((rows.map key).toFinset \ (table.map key).toFinset).card := by
  rw [← toFinset_map_fresh, List.toFinset_card_of_nodup (nodup_map_fresh key table rows),
    List.length_map]

/-- Only the membership of the incoming keys in the table matters. -/
theorem fresh_congr {table table' rows : List α}
    (h : ∀ r ∈ rows, (key r ∈ table.map key ↔ key r ∈ table'.map key)) :
    fresh key table rows = fresh key table' rows := by
  induction rows generalizing table table' with
  | nil => rfl
  | cons r rows ih =>
    have hr := h r List.mem_cons_self
    have ht : ∀ s ∈ rows, (key s ∈ table.map key ↔ key s ∈ table'.map key) :=
      fun s hs => h s (List.mem_cons_of_mem r hs)
    by_cases hm : key r ∈ table.map key
    · rw [fresh_cons_of_mem key hm, fresh_cons_of_mem key (hr.mp hm), ih ht]
    · rw [fresh_cons_of_not_mem key hm, fresh_cons_of_not_mem key (fun hn => hm (hr.mpr hn))]
      congr 1
      refine ih fun s hs => ?_
      simp only [List.map_append, List.mem_append]
      rw [ht s hs]

/-- Rows whose keys are all in the table add nothing. -/
theorem fresh_eq_nil {table rows : List α} (h : ∀ r ∈ rows, key r ∈ table.map key) :
    fresh key table rows = [] := by
  induction rows with
  | nil => rfl
  | cons r rows ih =>
    rw [fresh_cons_of_mem key (h r List.mem_cons_self)]
    exact ih fun s hs => h s (List.mem_cons_of_mem r hs)

/-- The rows entered are those with a new key that are the first of their key. -/
theorem mem_fresh_iff_first {table rows : List α} {r : α} :
    r ∈ fresh key table rows ↔ key r ∉ table.map key ∧
      ∃ before after, rows = before ++ r :: after ∧ key r ∉ before.map key := by
  constructor
  · intro h
    refine ⟨key_notMem_of_mem_fresh key h, ?_⟩
    induction rows generalizing table with
    | nil => simp at h
    | cons s rows ih =>
      by_cases hs : key s ∈ table.map key
      · rw [fresh_cons_of_mem key hs] at h
        obtain ⟨before, after, rfl, hb⟩ := ih h
        have hne : key r ≠ key s := fun he => key_notMem_of_mem_fresh key h (he ▸ hs)
        exact ⟨s :: before, after, rfl, by simpa [hne] using hb⟩
      · rw [fresh_cons_of_not_mem key hs] at h
        rcases List.mem_cons.mp h with rfl | h
        · exact ⟨[], rows, rfl, by simp⟩
        · obtain ⟨before, after, rfl, hb⟩ := ih h
          have hne : key r ≠ key s := fun he =>
            key_notMem_of_mem_fresh key h (by simp [he])
          exact ⟨s :: before, after, rfl, by simpa [hne] using hb⟩
  · rintro ⟨hnew, before, after, rfl, hb⟩
    have hr : key r ∉ (table ++ fresh key table before).map key := by
      rw [mem_map_append_fresh, not_or]
      exact ⟨hnew, hb⟩
    rw [fresh_append, fresh_cons_of_not_mem key hr]
    exact List.mem_append_right _ List.mem_cons_self

/-- **On rows determined by their keys** the rows entered are a set: those with a new key. -/
theorem mem_fresh_iff {table rows : List α}
    (hinj : ∀ r ∈ rows, ∀ s ∈ rows, key r = key s → r = s) (r : α) :
    r ∈ fresh key table rows ↔ r ∈ rows ∧ key r ∉ table.map key := by
  constructor
  · intro h
    exact ⟨(fresh_sublist key table rows).subset h, key_notMem_of_mem_fresh key h⟩
  · rintro ⟨hr, hnew⟩
    have hk : key r ∈ (table ++ fresh key table rows).map key :=
      (mem_map_append_fresh key table rows _).mpr (.inr (List.mem_map_of_mem hr))
    rw [List.map_append, List.mem_append] at hk
    obtain ⟨s, hs, he⟩ := List.mem_map.mp (hk.resolve_left hnew)
    rwa [← hinj s ((fresh_sublist key table rows).subset hs) r hr he]

/-- Two deliveries of the same set of rows, determined by their keys, enter the same rows up to
order. -/
theorem fresh_perm {table rows rows' : List α} (hset : ∀ r, r ∈ rows ↔ r ∈ rows')
    (hinj : ∀ r ∈ rows, ∀ s ∈ rows, key r = key s → r = s) :
    (fresh key table rows).Perm (fresh key table rows') := by
  have hinj' : ∀ r ∈ rows', ∀ s ∈ rows', key r = key s → r = s :=
    fun r hr s hs => hinj r ((hset r).mpr hr) s ((hset s).mpr hs)
  refine (List.perm_ext_iff_of_nodup (.of_map key (nodup_map_fresh key table rows))
    (.of_map key (nodup_map_fresh key table rows'))).mpr fun r => ?_
  rw [mem_fresh_iff key hinj, mem_fresh_iff key hinj', hset]

end Foundation
