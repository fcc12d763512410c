import Mathlib.Data.List.Basic

/-!
# Noninterference by unwinding

A machine takes actions and shows an observer some of its answers. Actions that are not the
observer's do not interfere with it when a relation between states is kept by the observer's
actions taken on both sides, and by any other action taken on one side: the observer then sees what
it would see in the run without the other actions, so that two runs with the same actions of the
observer look the same.

## Main definitions

* `observe step out s as`: what a run shows
* `Unwinding step out own may agree`: the relation between states

## Main results

* `Unwinding.observe_eq_purge`: the actions of others can be left out
* `Unwinding.observe_eq`: runs with the same own actions look the same
-/

namespace Foundation

variable {σ α β : Type*} {step : α → σ → σ} {out : α → σ → Option β}

/-- What a run shows: the answers to its actions, where there are any. -/
def observe (step : α → σ → σ) (out : α → σ → Option β) : σ → List α → List β
  | _, [] => []
  | s, a :: as => (out a s).toList ++ observe step out (step a s) as

/-- A relation between states that look the same to an observer, in runs of actions that `may` be
taken. -/
structure Unwinding (step : α → σ → σ) (out : α → σ → Option β) (own may : α → Prop)
    (agree : σ → σ → Prop) : Prop where
  /-- An own action shows the same, and keeps the relation. -/
  own_step : ∀ {a s t}, own a → agree s t → out a s = out a t ∧ agree (step a s) (step a t)
  /-- Any other action shows nothing, and leads to a state that looks the same. -/
  other_step : ∀ {a s t}, ¬ own a → may a → agree s t → out a s = none ∧ agree (step a s) t

namespace Unwinding

variable {own may : α → Prop} [DecidablePred own] {agree : σ → σ → Prop}

/-- **The actions of others can be left out.** -/
theorem observe_eq_purge (h : Unwinding step out own may agree) {s t : σ} (hst : agree s t)
    {as : List α} (has : ∀ a ∈ as, may a) :
    observe step out s as = observe step out t (as.filter own) := by
  induction as generalizing s t with
  | nil => rfl
  | cons a as ih =>
    have hrest : ∀ b ∈ as, may b := fun b hb => has b (List.mem_cons_of_mem a hb)
    by_cases ha : own a
    · obtain ⟨hout, hstep⟩ := h.own_step ha hst
      rw [List.filter_cons_of_pos (by simpa using ha), observe, observe, hout, ih hstep hrest]
    · obtain ⟨hout, hstep⟩ := h.other_step ha (has a List.mem_cons_self) hst
      rw [List.filter_cons_of_neg (by simpa using ha), observe, hout, ih hstep hrest]
      rfl

/-- **Runs with the same own actions look the same.** -/
theorem observe_eq (h : Unwinding step out own may agree) {s : σ} (hs : agree s s)
    {as bs : List α} (has : ∀ a ∈ as, may a) (hbs : ∀ b ∈ bs, may b)
    (hown : as.filter own = bs.filter own) : observe step out s as = observe step out s bs := by
  rw [h.observe_eq_purge hs has, h.observe_eq_purge hs hbs, hown]

end Unwinding

end Foundation
