import Mathlib.Logic.Relation
import Mathlib.Order.WellFoundedSet

/-!
# Lock ordering

Agents that hold locks and wait for each other. If an agent that waits always waits for a lock
above all those it holds, in one strict order of all locks, then the wait-for graph has no cycle,
and following it, when only finitely many agents wait, ends at one that does not.

## Main results

* `LockOrdered.acyclic`: no agent waits for itself through others
* `LockOrdered.exists_not_waiting`: every agent leads to one that does not wait
-/

namespace Foundation

variable {α κ : Type*}

/-- An agent that waits for another waits for a lock the other holds, and which is above every
lock it holds itself. -/
structure LockOrdered (r : κ → κ → Prop) (waits : α → α → Prop) (holds : α → κ → Prop) :
    Prop where
  irrefl : ∀ k, ¬ r k k
  trans : ∀ k l m, r k l → r l m → r k m
  above : ∀ a b, waits a b → ∃ k, holds b k ∧ ∀ l, holds a l → r l k

namespace LockOrdered

variable {r : κ → κ → Prop} {waits : α → α → Prop} {holds : α → κ → Prop}

/-- The order holds along every chain of waiting agents. -/
theorem above_of_transGen (h : LockOrdered r waits holds) {a b : α}
    (hab : Relation.TransGen waits a b) : ∃ k, holds b k ∧ ∀ l, holds a l → r l k := by
  induction hab with
  | single hw => exact h.above _ _ hw
  -- the lock found so far is held by the agent that waits next, so the new one is above it
  | tail _ hw ih =>
    obtain ⟨k, hk, hbelow⟩ := ih
    obtain ⟨k', hk', hbelow'⟩ := h.above _ _ hw
    exact ⟨k', hk', fun l hl => h.trans _ _ _ (hbelow l hl) (hbelow' k hk)⟩

/-- **No agent waits for itself through others.** -/
theorem acyclic (h : LockOrdered r waits holds) (a : α) : ¬ Relation.TransGen waits a a := by
  intro hcycle
  obtain ⟨k, hk, hbelow⟩ := h.above_of_transGen hcycle
  exact h.irrefl k (hbelow k hk)

/-- **Every agent leads to one that does not wait**, when only finitely many do. -/
theorem exists_not_waiting (h : LockOrdered r waits holds) (hfin : {a | ∃ b, waits a b}.Finite)
    (a : α) : ∃ b, Relation.ReflTransGen waits a b ∧ ∀ c, ¬ waits b c := by
  by_cases ha : ∃ b, waits a b
  · have htrans : IsTrans α fun b a => Relation.TransGen waits a b :=
      ⟨fun _ _ _ h₁ h₂ => h₂.trans h₁⟩
    have hirrefl : Std.Irrefl fun b a => Relation.TransGen waits a b := ⟨h.acyclic⟩
    have horder : IsStrictOrder α fun b a => Relation.TransGen waits a b := { }
    have hwf : Set.WellFoundedOn {a | ∃ b, waits a b} fun b a => Relation.TransGen waits a b :=
      hfin.wellFoundedOn
    apply hwf.induction (P := fun a => ∃ b, Relation.ReflTransGen waits a b ∧ ∀ c, ¬ waits b c) ha
    rintro a ⟨b, hab⟩ ih
    by_cases hb : ∃ c, waits b c
    · obtain ⟨c, hbc, hc⟩ := ih b hb (.single hab)
      exact ⟨c, .head hab hbc, hc⟩
    · exact ⟨b, .single hab, not_exists.mp hb⟩
  · exact ⟨a, .refl, not_exists.mp ha⟩

end LockOrdered

end Foundation
