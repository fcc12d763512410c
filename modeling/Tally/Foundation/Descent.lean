import Mathlib.Data.Nat.Notation
import Mathlib.Logic.Relation

/-!
# Runs that descend

A measure that every step of a relation lowers bounds the length of the runs, and if only final
states have no step, every run can be continued to a final state. Both hold from the states of an
invariant that the steps keep.

## Main definitions

* `Descends r P μ`: the steps of `r` keep `P` and lower `μ`

## Main results

* `Descends.length_le`: a run is no longer than the measure of its first state
* `Descends.exists_final`: a run can be continued to a final state
-/

namespace Foundation

variable {α : Type*}

/-- From the states that satisfy `P`, every step keeps `P` and lowers the measure. -/
structure Descends (r : α → α → Prop) (P : α → Prop) (μ : α → ℕ) : Prop where
  keeps : ∀ {a b}, P a → r a b → P b
  lowers : ∀ {a b}, P a → r a b → μ b < μ a

variable {r : α → α → Prop} {P : α → Prop} {μ : α → ℕ}

/-- **A run is no longer than the measure of its first state.** -/
theorem Descends.length_le (h : Descends r P μ) {n : ℕ} {run : ℕ → α} (hP : P (run 0))
    (hrun : ∀ i < n, r (run i) (run (i + 1))) : n ≤ μ (run 0) := by
  have hall : ∀ i ≤ n, P (run i) ∧ i + μ (run i) ≤ μ (run 0) := by
    intro i
    induction i with
    | zero => exact fun _ => ⟨hP, by omega⟩
    | succ i ih =>
      intro hi
      obtain ⟨hPi, hle⟩ := ih (by omega)
      have hstep := hrun i (by omega)
      have hlt := h.lowers hPi hstep
      exact ⟨h.keeps hPi hstep, by omega⟩
  have hlast := (hall n (Nat.le_refl n)).2
  omega

/-- **A run can be continued to a final state**, if every other state has a step. -/
theorem Descends.exists_final (h : Descends r P μ) {final : α → Prop}
    (hstep : ∀ a, P a → ¬ final a → ∃ b, r a b) {a : α} (ha : P a) :
    ∃ b, Relation.ReflTransGen r a b ∧ final b := by
  induction hμ : μ a using Nat.strongRecOn generalizing a with
  | ind m ih =>
    by_cases hfinal : final a
    · exact ⟨a, .refl, hfinal⟩
    · obtain ⟨b, hab⟩ := hstep a ha hfinal
      obtain ⟨c, hbc, hc⟩ := ih (μ b) (hμ ▸ h.lowers ha hab) (h.keeps ha hab) rfl
      exact ⟨c, .head hab hbc, hc⟩

end Foundation
