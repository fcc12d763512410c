import Mathlib.Tactic.Tauto
import Tally.Hll.Statistic

/-!
# Sketches assembled in any way

A sketch may be built by adding values one at a time, by merging sketches built elsewhere, and by
storing and restoring it at any point. `Assembly` is a tree of such operations. Its result is the
sketch of the set of the values added anywhere in it, since adding is joining a mark, merging is
joining, and restoring what was stored is the identity. `Merge` works in place on one of two
objects, which may be the same one; `mergeAt` is its loop on a heap of sketches.

## Main definitions

* `Assembly`, `Assembly.values`, `Assembly.eval`: trees of operations
* `mergeAt`: the loop of `Merge` on a heap

## Main results

* `Assembly.eval_eq`: the result of a tree
* `mergeAt_eq`: the loop changes the receiver only
* `sketch_depends_on_values`: a sketch depends only on the set of values
-/

namespace Tally.Hll

open Sketch

/-! ## Trees of operations -/

/-- A tree of operations on sketches. -/
inductive Assembly (V : Type) where
  | new
  | add (t : Assembly V) (value : V)
  | merge (t other : Assembly V)
  /-- `FromBytes` of `Bytes`. -/
  | restore (t : Assembly V)

variable {V : Type} [GoString V]

namespace Assembly

/-- The values added anywhere in a tree. -/
def values {V : Type} : Assembly V → List V
  | .new => []
  | .add t v => v :: t.values
  | .merge t u => t.values ++ u.values
  | .restore t => t.values

/-- The sketch a tree builds, or the error of a restore. -/
def eval : Assembly V → Except String Sketch
  | .new => .ok Sketch.new
  | .add t v => do
    let s ← t.eval
    return s.add v
  | .merge t u => do
    let s ← t.eval
    let other ← u.eval
    return s.merge other
  | .restore t => do
    let s ← t.eval
    fromBytes s.bytes

/-- **The result of a tree** is the join of the marks of its values. -/
theorem eval_eq [DecidableEq V] (t : Assembly V) : t.eval = .ok (t.values.toFinset.sup mark) := by
  induction t with
  | new => rfl
  | add t v ih =>
    rw [eval, ih, values, List.toFinset_cons, Finset.sup_insert, sup_comm,
      ← Sketch.add_eq_sup]
    rfl
  | merge t u iht ihu =>
    rw [eval, iht, ihu, values, List.toFinset_append, Finset.sup_union, ← merge_eq_sup]
    rfl
  | restore t ih =>
    rw [eval, ih, values]
    simp only [Bind.bind, Except.bind]
    rw [fromBytes_bytes]

end Assembly

theorem new_addAll_eq_sup [DecidableEq V] (vs : List V) :
    new.addAll vs = vs.toFinset.sup mark := by
  rw [addAll_eq_sup, new_eq_bot, bot_sup_eq]

/-! ## `Merge` in place -/

section Heap

variable {Loc : Type} [DecidableEq Loc]

/-- One round of the loop of `Merge`: register `i` of `other` is written to `s` if it is larger. -/
def mergeRegister (s other : Loc) (heap : Loc → Sketch) (i : Fin m) : Loc → Sketch :=
  if (heap other).regs i > (heap s).regs i then
    Function.update heap s ⟨Function.update (heap s).regs i ((heap other).regs i)⟩
  else heap

/-- `Merge` of the sketch at `other` into the one at `s`, which may be the same. -/
def mergeAt (s other : Loc) (heap : Loc → Sketch) : Loc → Sketch :=
  (List.finRange m).foldl (mergeRegister s other) heap

variable {s other : Loc} {heap : Loc → Sketch}

/-- A round leaves the other objects alone. -/
theorem mergeRegister_of_ne (i : Fin m) {l : Loc} (hl : l ≠ s) :
    mergeRegister s other heap i l = heap l := by
  unfold mergeRegister
  split_ifs
  · exact Function.update_of_ne hl _ _
  · rfl

/-- A round raises one register of the receiver. -/
theorem regs_mergeRegister (i j : Fin m) :
    (mergeRegister s other heap i s).regs j =
      if j = i then (heap s).regs j ⊔ (heap other).regs j else (heap s).regs j := by
  unfold mergeRegister
  by_cases hj : j = i
  · subst hj
    rw [if_pos rfl]
    split_ifs with hgt
    · rw [Function.update_self]
      exact (Function.update_self _ _ _).trans (sup_of_le_right hgt.le).symm
    · exact (sup_of_le_left (not_lt.mp hgt)).symm
  · rw [if_neg hj]
    split_ifs
    · rw [Function.update_self]
      exact Function.update_of_ne hj _ _
    · rfl

/-- What a round reads of `other` is what it was before, also when `other` is the receiver. -/
theorem regs_mergeRegister_other {i j : Fin m} (hj : j ≠ i) :
    (mergeRegister s other heap i other).regs j = (heap other).regs j := by
  by_cases ho : other = s
  · subst ho
    rw [regs_mergeRegister, if_neg hj]
  · rw [mergeRegister_of_ne i ho]

theorem foldl_mergeRegister_of_ne (is : List (Fin m)) {l : Loc} (hl : l ≠ s) :
    is.foldl (mergeRegister s other) heap l = heap l := by
  induction is generalizing heap with
  | nil => rfl
  | cons i is ih => rw [List.foldl_cons, ih, mergeRegister_of_ne i hl]

/-- The rounds over distinct registers raise each of them once. -/
theorem regs_foldl_mergeRegister {is : List (Fin m)} (hnd : is.Nodup) (j : Fin m) :
    (is.foldl (mergeRegister s other) heap s).regs j =
      if j ∈ is then (heap s).regs j ⊔ (heap other).regs j else (heap s).regs j := by
  induction is generalizing heap with
  | nil => rfl
  | cons i is ih =>
    obtain ⟨hi, hnd⟩ := List.nodup_cons.mp hnd
    rw [List.foldl_cons, ih hnd, regs_mergeRegister]
    by_cases hj : j = i
    · subst hj
      rw [if_neg hi, if_pos rfl, if_pos List.mem_cons_self]
    · rw [if_neg hj, regs_mergeRegister_other hj]
      simp only [List.mem_cons, hj, false_or]

/-- **`Merge` changes the receiver only.** -/
theorem mergeAt_eq (s other : Loc) (heap : Loc → Sketch) :
    mergeAt s other heap = Function.update heap s ((heap s).merge (heap other)) := by
  funext l
  by_cases hl : l = s
  · subst hl
    ext1
    funext j
    rw [Function.update_self, regs_merge, mergeAt,
      regs_foldl_mergeRegister (List.nodup_finRange m), if_pos (List.mem_finRange j)]
  · rw [Function.update_of_ne hl, mergeAt, foldl_mergeRegister_of_ne _ hl]

end Heap

/-! ## The set of values -/

/-- **A sketch depends only on the set of values, however it was assembled.** Every tree of
operations on Go strings succeeds, and gives the registers of an empty sketch to which the values of
any list with the same members were added. Merging is commutative, associative and idempotent; the
sketches of two lists merge to that of their concatenation; and in place, `Merge` leaves `other`,
and everything else but its receiver, unchanged. -/
theorem sketch_depends_on_values :
    (∀ (V : Type) [GoString V] (t : Assembly V) (vs : List V), (∀ v, v ∈ vs ↔ v ∈ t.values) →
      t.eval = .ok (new.addAll vs)) ∧
    (∀ s t : Sketch, s.merge t = t.merge s) ∧
    (∀ s t u : Sketch, (s.merge t).merge u = s.merge (t.merge u)) ∧
    (∀ s : Sketch, s.merge s = s) ∧
    (∀ (V : Type) [GoString V] (xs ys : List V),
      (new.addAll xs).merge (new.addAll ys) = new.addAll (xs ++ ys)) ∧
    ∀ (Loc : Type) [DecidableEq Loc] (s other : Loc) (heap : Loc → Sketch),
      mergeAt s other heap s = (heap s).merge (heap other) ∧
      mergeAt s other heap other = heap other ∧
      ∀ l, l ≠ s → mergeAt s other heap l = heap l := by
  classical
  refine ⟨fun V _ t vs hset => ?_, sup_comm, sup_assoc, sup_idem, fun V _ xs ys => ?_,
    fun Loc _ s other heap => ⟨?_, ?_, fun l hl => ?_⟩⟩
  · have hvalues : vs.toFinset = t.values.toFinset := by
      ext v
      simp [hset]
    rw [t.eval_eq, new_addAll_eq_sup, hvalues]
  · rw [merge_eq_sup, new_addAll_eq_sup, new_addAll_eq_sup, new_addAll_eq_sup,
      List.toFinset_append, Finset.sup_union]
  · rw [mergeAt_eq, Function.update_self]
  · rw [mergeAt_eq]
    by_cases ho : other = s
    · rw [ho, Function.update_self]
      exact sup_idem _
    · exact Function.update_of_ne ho _ _
  · rw [mergeAt_eq, Function.update_of_ne hl]

/-- Two sketches built apart, one of them stored and restored, and merged. -/
theorem sketch_depends_on_values_two_users :
    (Assembly.merge (.add .new "u1") (.restore (.add (.add .new "u2") "u1"))).eval =
      .ok (new.addAll ["u2", "u1", "u2"]) :=
  sketch_depends_on_values.1 String _ _ fun v => by
    simp only [Assembly.values, List.mem_append, List.mem_cons, List.not_mem_nil, or_false]
    tauto

end Tally.Hll
