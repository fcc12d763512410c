import Tally.Foundation.LockOrder
import Tally.Txn.Serial

/-!
# Transactions never deadlock

The locks of an `InsertBatch` transaction have one global order: event ids before rollup rows
before sketch rows; event ids and rollup rows in the order of Postgres' `ORDER BY`, sketch rows in
the order of `sort.Slice`. The two orders need not agree on names, since they never order the same
kind of lock. A transaction that waits does so for a lock above all those it holds.

## Main definitions

* `Lock`, `Lock.Lt`: the locks and their order
* `Txn.Holds`: the locks a transaction holds

## Main results

* `Sys.Reachable.lockOrdered`: waiting respects the order
* `transactions_never_deadlock`: the wait-for graph has no cycle, and every unfinished transaction
  leads to one that can go on
-/

namespace Tally

open Foundation Hll

/-- What `InsertBatch` locks: an event id by inserting it, a rollup row, a sketch row. -/
inductive Lock where
  | id (eventId : String)
  | roll (k : CountKey)
  | sketch (k : UniqueKey)

/-- The order in which a transaction takes its locks. -/
def Lock.Lt (c : Postgres) : Lock → Lock → Prop
  | .id a, .id b => c.le a b ∧ a ≠ b
  | .id _, _ => True
  | .roll k, .roll l => c.countLe k l ∧ k ≠ l
  | .roll _, .sketch _ => True
  | .sketch k, .sketch l => k.less l
  | _, _ => False

/-! ## The orders -/

namespace Postgres

variable (c : Postgres)

theorem countLe_total (k l : CountKey) : c.countLe k l ∨ c.countLe l k := by
  unfold countLe
  by_cases h : k.name = l.name
  · simp only [h, if_true]
    exact Int.le_total ..
  · rw [if_neg h, if_neg (Ne.symm h)]
    exact c.le_total ..

theorem countLe_antisymm {k l : CountKey} (h : c.countLe k l) (h' : c.countLe l k) : k = l := by
  unfold countLe at h h'
  by_cases hn : k.name = l.name
  · rw [if_pos hn] at h
    rw [if_pos hn.symm] at h'
    cases k
    cases l
    simp_all only [CountKey.mk.injEq, true_and]
    exact Int.le_antisymm h h'
  · rw [if_neg hn] at h
    rw [if_neg (Ne.symm hn)] at h'
    exact absurd (c.le_antisymm h h') hn

theorem countLe_trans {k l n : CountKey} (h : c.countLe k l) (h' : c.countLe l n) :
    c.countLe k n := by
  unfold countLe at h h' ⊢
  by_cases hkl : k.name = l.name
  · by_cases hln : l.name = n.name
    · rw [if_pos hkl] at h
      rw [if_pos hln] at h'
      rw [if_pos (hkl.trans hln)]
      exact Int.le_trans h h'
    · rw [if_neg hln] at h'
      rwa [hkl, if_neg hln]
  · rw [if_neg hkl] at h
    by_cases hln : l.name = n.name
    · rwa [← hln, if_neg hkl]
    · rw [if_neg hln] at h'
      have hkn : k.name ≠ n.name := fun he => hkl (c.le_antisymm h (he ▸ h'))
      rw [if_neg hkn]
      exact c.le_trans h h'

end Postgres

namespace UniqueKey

theorem less_irrefl (k : UniqueKey) : ¬ k.less k := by simp [less]

theorem less_trans {k l n : UniqueKey} (h : k.less l) (h' : l.less n) : k.less n := by
  unfold less at h h' ⊢
  by_cases hkl : k.name = l.name
  · by_cases hln : l.name = n.name
    · simp only [hkl, hln, ne_eq, not_true_eq_false, if_false] at h h' ⊢
      exact lt_trans h h'
    · simpa [hkl, hln] using h'
  · by_cases hln : l.name = n.name
    · simpa [← hln, hkl] using h
    · rw [if_pos hkl] at h
      rw [if_pos hln] at h'
      rw [if_pos (lt_trans h h').ne]
      exact lt_trans h h'

theorem less_of_not_less {k l : UniqueKey} (h : ¬ l.less k) (hne : k ≠ l) : k.less l := by
  unfold less at h ⊢
  by_cases hn : k.name = l.name
  · rw [if_neg (not_not.mpr hn.symm), not_lt] at h
    rw [if_neg (not_not.mpr hn)]
    refine lt_of_le_of_ne h fun hd => hne ?_
    cases k
    cases l
    exact (UniqueKey.mk.injEq ..).mpr ⟨hn, hd⟩
  · rw [if_pos (Ne.symm hn), not_lt] at h
    rw [if_pos hn]
    exact lt_of_le_of_ne h hn

end UniqueKey

theorem Lock.lt_irrefl (c : Postgres) (k : Lock) : ¬ Lt c k k := by
  cases k <;> simp [Lt, UniqueKey.less_irrefl]

theorem Lock.lt_trans (c : Postgres) (k l n : Lock) (h : Lt c k l) (h' : Lt c l n) :
    Lt c k n := by
  cases k <;> cases l <;> cases n <;> simp only [Lt] at h h' ⊢
  · exact ⟨c.le_trans h.1 h'.1, fun he => h.2 (c.le_antisymm h.1 (he ▸ h'.1))⟩
  · exact ⟨c.countLe_trans h.1 h'.1, fun he => h.2 (c.countLe_antisymm h.1 (he ▸ h'.1))⟩
  · exact UniqueKey.less_trans h h'

/-! ## The lists of locks -/

/-- The groups of the rollup upsert are in `ORDER BY name, minute` order. -/
theorem pairwise_groupCount (c : Postgres) (rows : List Row) :
    ((groupCount Row.countKey c.countLe rows).map Prod.fst).Pairwise c.countLe := by
  rw [map_fst_groupCount]
  have : Std.Total c.countLe := ⟨c.countLe_total⟩
  have : IsTrans CountKey c.countLe := ⟨fun _ _ _ => c.countLe_trans⟩
  exact List.pairwise_insertionSort _ _

/-- The keys of `updateUniques` are strictly sorted. -/
theorem pairwise_uniqueKeys (events : List Event) :
    (uniqueKeys events).Pairwise UniqueKey.less := by
  have : Std.Total fun k l : UniqueKey => ¬ l.less k :=
    ⟨fun k l => or_iff_not_imp_left.mpr fun h h' =>
      UniqueKey.less_irrefl k (UniqueKey.less_trans h' (not_not.mp h))⟩
  have : IsTrans UniqueKey fun k l => ¬ l.less k := by
    refine ⟨fun k l n hkl hln hnk => ?_⟩
    by_cases he : k = l
    · exact hln (he ▸ hnk)
    · exact hln (UniqueKey.less_trans hnk (UniqueKey.less_of_not_less hkl he))
  have hsorted : (uniqueKeys events).Pairwise fun k l => ¬ l.less k :=
    List.pairwise_insertionSort _ _
  exact (hsorted.and (nodup_uniqueKeys events)).imp fun h => UniqueKey.less_of_not_less h.1 h.2

/-! ## Waiting -/

/-- The locks a transaction holds. -/
def Txn.Holds (t : Txn) : Lock → Prop
  | .id x => x ∈ t.rows.map Row.eventId
  | .roll k => k ∈ t.rolls
  | .sketch k => t.HoldsSketch k

theorem pairwise_append_cons {α : Type*} {r : α → α → Prop} {l₁ l₂ : List α} {a : α}
    (h : (l₁ ++ a :: l₂).Pairwise r) {b : α} (hb : b ∈ l₁) : r b a :=
  (List.pairwise_append.mp h).2.2 b hb a List.mem_cons_self

theorem Txn.Inv.above_sketch {c : Postgres} {st : Store} {w : Work} {t u : Txn}
    (h : t.Inv c st w) (hex : t.Exclusive u) {k : UniqueKey} {todo : List UniqueKey} {stage : Stage}
    (hphase : t.phase = .folding (k :: todo) stage) (hu : u.HoldsSketch k) (l : Lock)
    (hl : t.Holds l) : Lock.Lt c l (.sketch k) := by
  obtain ⟨-, rowsDone, groupsDone, keysDone, hp, hph⟩ := h
  simp only [AtPhase, hphase] at hph
  cases l with
  | id x => trivial
  | roll l => trivial
  | sketch l =>
    rcases hp.held l hl with hdone | hcur
    · have hsorted := pairwise_uniqueKeys w.events
      rw [hph.2.2.1] at hsorted
      exact pairwise_append_cons hsorted hdone
    · obtain rfl : k = l := by simpa [current, hphase] using hcur
      exact absurd hu (hex.sketches k hl)

/-- **A transaction waits for a lock above all it holds.** -/
theorem Txn.Inv.exists_above {c : Postgres} {st : Store} {b : Batch c} {t u : Txn}
    (h : t.Inv c st b.work) (hex : t.Exclusive u) (hc : t.conflicts u) :
    ∃ k, u.Holds k ∧ ∀ l, t.Holds l → Lock.Lt c l k := by
  have ⟨_, rowsDone, groupsDone, keysDone, hp, hph⟩ := h
  unfold Txn.conflicts at hc
  unfold AtPhase at hph
  split at hc
  -- waiting to insert a row: it holds ids of rows before it, and nothing else yet
  next r todo hphase =>
    simp only [hphase] at hph
    obtain ⟨horder, rfl, rfl⟩ := hph
    refine ⟨.id r.eventId, hc, fun l hl => ?_⟩
    cases l with
    | id x =>
      obtain ⟨r', hr', rfl⟩ := List.mem_map.mp hl
      have hdone : r' ∈ rowsDone := (fresh_sublist _ _ _).subset (hp.rows ▸ hr')
      have hsorted := b.sorted
      rw [show b.order = _ from horder] at hsorted
      exact ⟨pairwise_append_cons hsorted hdone, fun he => hex.rows r' hr' (he ▸ hc)⟩
    | roll k => exact absurd (hp.mem_rolls k hl) List.not_mem_nil
    | sketch k => simpa [Txn.current, hphase] using hp.held k hl
  next k n todo hphase =>
    simp only [hphase] at hph
    obtain ⟨-, hg, rfl⟩ := hph
    refine ⟨.roll k, hc, fun l hl => ?_⟩
    cases l with
    | id x => trivial
    | roll l =>
      have hsorted := pairwise_groupCount c t.rows
      rw [hg, List.map_append] at hsorted
      exact ⟨pairwise_append_cons hsorted (hp.mem_rolls l hl), fun he => hex.rolls l hl (he ▸ hc)⟩
    | sketch k => simpa [Txn.current, hphase] using hp.held k hl
  next k todo hphase => exact ⟨.sketch k, .inl hc, h.above_sketch hex hphase (.inl hc)⟩
  next k todo hphase => exact ⟨.sketch k, hc, h.above_sketch hex hphase hc⟩
  next => exact absurd hc id

/-- **Waiting respects the order of the locks** in every state reached. -/
theorem Sys.Reachable.lockOrdered {ι : Type*} [DecidableEq ι] {c : Postgres}
    {batch : ι → Batch c} {st : Store} {s : Sys ι}
    (h : Reachable c (fun i => (batch i).work) st s) :
    LockOrdered (Lock.Lt c) s.WaitsFor fun i => (s.txn i).Holds where
  irrefl := Lock.lt_irrefl c
  trans := Lock.lt_trans c
  above i j hw := (h.inv.txn i hw.2.1).exists_above (h.inv.exclusive i j hw.1 hw.2.1 hw.2.2.1)
    hw.2.2.2

/-- Only finitely many transactions have begun, and only those wait. -/
theorem Sys.Reachable.finite_waiting {ι : Type*} [DecidableEq ι] {c : Postgres}
    {work : ι → Work} {st : Store} {s : Sys ι} (h : Reachable c work st s) :
    {i | ∃ j, s.WaitsFor i j}.Finite := by
  have hbegun : {i | s.txn i ≠ .init}.Finite := by
    induction h with
    | refl => simp [Sys.init]
    | @tail s s' _ hstep ih =>
      have hone : ∃ i, ∀ j, j ≠ i → s'.txn j = s.txn j := by
        cases hstep with
        | advance i _ _ => exact ⟨i, fun j hj => set_txn_of_ne _ hj _⟩
        | commit i _ _ => exact ⟨i, fun j hj => commit_txn_of_ne _ hj⟩
        | abort i _ => exact ⟨i, fun j hj => set_txn_of_ne _ hj _⟩
      obtain ⟨i, hi⟩ := hone
      refine (ih.insert i).subset fun j hj => ?_
      by_cases hji : j = i
      · exact .inl hji
      · have hbegun : s'.txn j ≠ .init := hj
        rw [hi j hji] at hbegun
        exact .inr hbegun
  refine hbegun.subset ?_
  rintro i ⟨j, hw⟩ hinit
  have hc := hw.2.2.2
  rw [hinit] at hc
  exact hc

/-- **`InsertBatch` transactions never deadlock each other.** In every state that any interleaving
reaches, the wait-for graph has no cycle, and from every unfinished transaction it leads to an
unfinished one that waits for no other. -/
theorem transactions_never_deadlock {ι : Type*} [DecidableEq ι] {c : Postgres}
    {batch : ι → Batch c} {st : Store} {s : Sys ι}
    (h : Sys.Reachable c (fun i => (batch i).work) st s) :
    (∀ i, ¬ Relation.TransGen s.WaitsFor i i) ∧
    ∀ i, (s.txn i).Active → ∃ j, Relation.ReflTransGen s.WaitsFor i j ∧ (s.txn j).Active ∧
      ∀ k, ¬ s.WaitsFor j k := by
  refine ⟨h.lockOrdered.acyclic, fun i hi => ?_⟩
  obtain ⟨j, hij, hj⟩ := h.lockOrdered.exists_not_waiting h.finite_waiting i
  refine ⟨j, hij, ?_, hj⟩
  induction hij with
  | refl => exact hi
  | tail _ hw _ => exact hw.2.2.1

/-- Two transactions of one event id: the second waits for the first, which goes on. -/
theorem transactions_never_deadlock_same_id :
    let batch : Bool → Batch .bytewise := fun _ => .single _ ⟨"e1", "buy_click", "u1", none, 0⟩
    ∃ s : Sys Bool, Sys.Reachable .bytewise (fun i => (batch i).work) .empty s ∧
      s.WaitsFor false true ∧ ∃ j, Relation.ReflTransGen s.WaitsFor false j ∧
        (s.txn j).Active ∧ ∀ k, ¬ s.WaitsFor j k := by
  intro batch
  let r : Row := ⟨"e1", "buy_click", "u1", .obj [], 0⟩
  let t₁ : Txn := { Txn.init with phase := .inserting [r] }
  let t₂ : Txn := { Txn.init with phase := .inserting [], rows := [r] }
  have href : (batch true).work.events.any Postgres.bytewise.refuses = false := by decide +kernel
  have hadv₁ : Txn.init.advance .bytewise .empty (batch true).work = t₁ := by
    simp only [Txn.advance, Txn.init, href]
    rfl
  have hadv₂ : t₁.advance .bytewise .empty (batch true).work = t₂ := by
    simp [Txn.advance, t₁, t₂, Txn.init, Store.ids, Store.empty, Postgres.bytewise]
  let s₁ := (Sys.init Bool .empty).set true t₁
  let s₂ := s₁.set true t₂
  let s₃ := s₂.set false t₁
  have hstep₁ : Sys.Step .bytewise (fun i => (batch i).work) (Sys.init Bool .empty) s₁ :=
    Sys.Step.of_advance_eq trivial (fun j hw => hw.2.2.2) hadv₁
  have hstep₂ : Sys.Step .bytewise (fun i => (batch i).work) s₁ s₂ :=
    Sys.Step.of_advance_eq trivial (fun j hw => by
      cases j
      · exact List.not_mem_nil hw.2.2.2
      · exact hw.1 rfl) hadv₂
  have hstep₃ : Sys.Step .bytewise (fun i => (batch i).work) s₂ s₃ :=
    Sys.Step.of_advance_eq trivial (fun j hw => hw.2.2.2) hadv₁
  have hs : Sys.Reachable .bytewise (fun i => (batch i).work) .empty s₃ :=
    .tail (.tail (.single hstep₁) hstep₂) hstep₃
  have hwait : s₃.WaitsFor false true := ⟨by decide, trivial, trivial, List.mem_singleton_self _⟩
  exact ⟨s₃, hs, hwait, (transactions_never_deadlock hs).2 false trivial⟩

end Tally
