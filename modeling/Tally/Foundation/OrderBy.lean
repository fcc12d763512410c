import Mathlib.Algebra.BigOperators.Group.Multiset.Basic
import Mathlib.Algebra.GroupWithZero.Nat
import Mathlib.Data.List.Sort

/-!
# Ordered query results

The rows of a query come as a list in which rows that compare equal may stand in any order. What is
said of such a result holds for every order allowed; that there is one makes it say something. A
result cut to its first `n` rows keeps the sum of positive weights exactly when nothing is cut.

## Main definitions

* `OrderBy rows r`: a list of `rows` sorted by `r`

## Main results

* `OrderBy.nonempty`, `OrderBy.nonempty_unordered`: rows can be sorted by a total and transitive
  relation, and come in some order when nothing is asked
* `OrderBy.sum_take_eq_iff`: cutting the result changes the sum of positive weights
* `OrderBy.sum_le_sum_take`: rows sorted by falling weight begin with the heaviest
-/

namespace Foundation

variable {α : Type*} {rows : Multiset α} {r : α → α → Prop}

/-- A list of the rows that sorting by `r` allows. -/
structure OrderBy (rows : Multiset α) (r : α → α → Prop) where
  toList : List α
  coe_toList : (toList : Multiset α) = rows
  pairwise : toList.Pairwise r

namespace OrderBy

/-- Rows can be sorted by a total and transitive relation. -/
theorem nonempty (rows : Multiset α) (r : α → α → Prop) [Std.Total r] [IsTrans α r] :
    Nonempty (OrderBy rows r) := by
  classical
  obtain ⟨l, rfl⟩ := Quot.exists_rep rows
  exact ⟨l.insertionSort r, Multiset.coe_eq_coe.mpr (List.perm_insertionSort r l),
    List.pairwise_insertionSort r l⟩

/-- Rows in no particular order come in some order. -/
theorem nonempty_unordered (rows : Multiset α) : Nonempty (OrderBy rows fun _ _ => True) := by
  obtain ⟨l, rfl⟩ := Quot.exists_rep rows
  exact ⟨l, rfl, List.pairwise_of_forall fun _ _ => trivial⟩

theorem mem_toList (o : OrderBy rows r) {a : α} : a ∈ o.toList ↔ a ∈ rows := by
  rw [← Multiset.mem_coe, o.coe_toList]

theorem length_toList (o : OrderBy rows r) : o.toList.length = rows.card := by
  rw [← Multiset.coe_card, o.coe_toList]

theorem sum_map_toList (o : OrderBy rows r) (w : α → ℕ) :
    (o.toList.map w).sum = (rows.map w).sum := by
  have h := congrArg (fun m => (Multiset.map w m).sum) o.coe_toList
  simpa using h

/-- **The first `n` rows have the whole of a positive weight exactly when there are no others.** -/
theorem sum_take_eq_iff (o : OrderBy rows r) {w : α → ℕ} (hpos : ∀ a ∈ rows, 0 < w a) (n : ℕ) :
    ((o.toList.take n).map w).sum = (rows.map w).sum ↔ rows.card ≤ n := by
  have hsplit : ((o.toList.take n).map w).sum + ((o.toList.drop n).map w).sum =
      (rows.map w).sum := by
    rw [← List.sum_append, ← List.map_append, List.take_append_drop, o.sum_map_toList]
  have hzero : ((o.toList.drop n).map w).sum = 0 ↔ o.toList.drop n = [] := by
    rw [List.sum_eq_zero_iff_forall_eq_nat, List.eq_nil_iff_forall_not_mem]
    constructor
    · intro h a ha
      have hw := h (w a) (List.mem_map_of_mem ha)
      have := hpos a (o.mem_toList.mp (List.mem_of_mem_drop ha))
      omega
    · intro h b hb
      obtain ⟨a, ha, -⟩ := List.mem_map.mp hb
      exact absurd ha (h a)
  rw [← o.length_toList, ← List.drop_eq_nil_iff, ← hzero]
  omega

theorem sum_map_le_take {w : α → ℕ} {l t : List α} (hl : l.Pairwise fun a b => w b ≤ w a)
    (ht : List.Subperm t l) {n : ℕ} (hn : t.length ≤ n) :
    (t.map w).sum ≤ ((l.take n).map w).sum := by
  classical
  induction l generalizing t n with
  | nil =>
    rw [List.subperm_nil.mp ht]
    exact Nat.zero_le _
  | cons a l ih =>
    obtain ⟨ha, hl⟩ := List.pairwise_cons.mp hl
    cases n with
    | zero =>
      rw [List.length_eq_zero_iff.mp (Nat.le_zero.mp hn)]
      exact Nat.zero_le _
    | succ n =>
      rw [List.take_succ_cons, List.map_cons, List.sum_cons]
      have hrest : List.Subperm (t.erase a) l := by simpa using ht.erase a
      by_cases hat : a ∈ t
      · have hperm := List.perm_cons_erase hat
        have hlen := hperm.length_eq
        rw [List.length_cons] at hlen
        rw [(hperm.map w).sum_eq, List.map_cons, List.sum_cons]
        exact Nat.add_le_add_left (ih hl hrest (by omega)) _
      · rw [List.erase_of_not_mem hat] at hrest
        cases t with
        | nil => exact Nat.zero_le _
        | cons b t =>
          have hb : w b ≤ w a := ha b (hrest.subset List.mem_cons_self)
          have hbelow := ih hl ((List.subperm_cons_self).trans hrest) (Nat.le_of_succ_le_succ hn)
          rw [List.map_cons, List.sum_cons]
          omega

/-- **Rows sorted by falling weight begin with the heaviest**: the first `n` weigh at least as much
as any other `n`. -/
theorem sum_le_sum_take (o : OrderBy rows r) {w : α → ℕ} (hr : ∀ a b, r a b → w b ≤ w a)
    {t : Multiset α} (ht : t ≤ rows) {n : ℕ} (hn : t.card ≤ n) :
    (t.map w).sum ≤ ((o.toList.take n).map w).sum := by
  obtain ⟨l, rfl⟩ := Quot.exists_rep t
  have hsub : List.Subperm l o.toList := by
    rw [← Multiset.coe_le, o.coe_toList]
    exact ht
  have hle := sum_map_le_take (w := w) (o.pairwise.imp fun {a b} h => hr a b h) hsub hn
  simpa using hle

end OrderBy

end Foundation
