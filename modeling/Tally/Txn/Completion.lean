import Mathlib.Algebra.Order.BigOperators.Group.Finset
import Tally.Foundation.Descent
import Tally.Txn.Deadlock

/-!
# Transactions complete

Concurrent `InsertBatch` transactions are serializable with what they return: run one after the
other in the order of their commits, the calls leave the same tables and return the same counts. And
they come to an end: every action brings a transaction closer to its commit, whatever the others do,
and as there is no deadlock some transaction can always act. Unless Postgres refuses an event or a
stored sketch does not decode, only a failure from outside aborts a transaction, so without failures
all of them commit.

## Main definitions

* `callAll`: calls one after the other, with the counts they return
* `Txn.inserted`: the count that `InsertBatch` returns
* `Txn.actionsLeft`, `Sys.actionsLeft`: a bound of the actions that are left
* `Sys.Moves`: a step that changes the state
* `Sys.Acts`: a step of a database without failures

## Main results

* `transactions_serializable`: tables and counts are those of the calls in commit order
* `Sys.descends`: every step lowers the bound
* `transactions_commit`: without failures every transaction commits
-/

namespace Tally

open Foundation Hll

/-! ## Counts -/

/-- Calls one after the other: the tables they leave, and the counts they return. -/
def callAll (c : Postgres) : Store → List (Batch c) → Except InsertError (Store × List ℕ)
  | st, [] => .ok (st, [])
  | st, b :: bs =>
    match insertBatch c st b.events b.order with
    | .error err => .error err
    | .ok (st₁, n) =>
      match callAll c st₁ bs with
      | .error err => .error err
      | .ok (st₂, ns) => .ok (st₂, n :: ns)

theorem callAll_snoc {c : Postgres} {st st₁ st₂ : Store} {bs : List (Batch c)} {b : Batch c}
    {ns : List ℕ} {n : ℕ} (h : callAll c st bs = .ok (st₁, ns))
    (hb : insertBatch c st₁ b.events b.order = .ok (st₂, n)) :
    callAll c st (bs ++ [b]) = .ok (st₂, ns ++ [n]) := by
  induction bs generalizing st ns with
  | nil =>
    obtain ⟨rfl, rfl⟩ := Prod.mk.inj (Except.ok.inj h)
    simp [callAll, hb]
  | cons b' bs ih =>
    rw [callAll] at h
    split at h
    · cases h
    next st' n' hb' =>
      split at h
      · cases h
      next st'' ns' hbs =>
        obtain ⟨rfl, rfl⟩ := Prod.mk.inj (Except.ok.inj h)
        simp [callAll, hb', ih hbs]

/-- The count of the rows it inserted, which `InsertBatch` returns after the commit. -/
def Txn.inserted (t : Txn) : ℕ := t.rows.length

namespace Sys

variable {ι : Type*} [DecidableEq ι] {c : Postgres} {batch : ι → Batch c} {st : Store}
  {s s' : Sys ι}

/-- A change of a transaction that has not committed leaves the counts of the others. -/
theorem Inv.map_inserted_set {work : ι → Work} (h : s.Inv c work st) {i : ι} (t : Txn)
    (hi : (s.txn i).Active) :
    (s.set i t).log.map (fun j => ((s.set i t).txn j).inserted) =
      s.log.map fun j => (s.txn j).inserted := by
  refine List.map_congr_left fun j hj => ?_
  have hji : j ≠ i := fun he => hi.ne_committed ((h.mem_log i).mp (he ▸ hj))
  rw [set_txn_of_ne s hji]

/-- The counts of the committed transactions are those of the calls in commit order. -/
theorem Reachable.callAll (h : Reachable c (fun i => (batch i).work) st s) :
    callAll c st (s.log.map batch) = .ok (s.store, s.log.map fun i => (s.txn i).inserted) := by
  induction h with
  | refl => rfl
  | @tail s _ hs hstep ih =>
    have hinv := Reachable.inv hs
    cases hstep with
    | advance i active free =>
      rw [hinv.map_inserted_set _ active]
      exact ih
    | abort i active =>
      rw [hinv.map_inserted_set _ active]
      exact ih
    | commit i stage ready =>
      have hact : (s.txn i).Active := by simp [Txn.Active, ready]
      have htxn := hinv.txn i hact
      have hcall : insertBatch c s.store (batch i).events (batch i).order =
          .ok (s.store.commit (s.txn i), (s.txn i).inserted) := by
        refine insertBatch_eq_ok_iff.mpr ⟨htxn.accepts ready, htxn.applied ready, ?_⟩
        rw [Txn.inserted, htxn.rows_eq ready]
        rfl
      have hcounts : (s.commit i).log.map (fun j => ((s.commit i).txn j).inserted) =
          (s.log.map fun j => (s.txn j).inserted) ++ [(s.txn i).inserted] := by
        have hold : ∀ j ∈ s.log, ((s.commit i).txn j).inserted = (s.txn j).inserted := by
          intro j hj
          have hji : j ≠ i := fun he => hact.ne_committed ((hinv.mem_log i).mp (he ▸ hj))
          rw [commit_txn_of_ne s hji]
        rw [show (s.commit i).log = s.log ++ [i] from rfl, List.map_append,
          List.map_congr_left hold, List.map_singleton, commit_txn_self]
        rfl
      rw [hcounts, show (s.commit i).log = s.log ++ [i] from rfl, List.map_append,
        List.map_singleton]
      exact callAll_snoc ih hcall

end Sys

/-- **Concurrent calls are serializable, with what they return.** In every state that any
interleaving reaches, whichever transactions abort and wherever, the calls of the committed ones in
the order of their commits, one after the other, leave the committed tables, and return the counts
that the concurrent ones return. -/
theorem transactions_serializable {ι : Type*} [DecidableEq ι] {c : Postgres}
    {batch : ι → Batch c} {st : Store} {s : Sys ι}
    (h : Sys.Reachable c (fun i => (batch i).work) st s) :
    callAll c st (s.log.map batch) = .ok (s.store, s.log.map fun i => (s.txn i).inserted) ∧
      s.log.Nodup ∧ ∀ i, i ∈ s.log ↔ (s.txn i).phase = .committed :=
  ⟨h.callAll, h.inv.nodup, h.inv.mem_log⟩

/-- Two senders of one event id under two names, in the order of their commits. -/
theorem transactions_serializable_two_senders :
    let batch : Bool → Batch .bytewise := fun i =>
      .single _ ⟨"e1", if i then "buy_click" else "page_view", "u1", none, 0⟩
    ∃ s : Sys Bool, Sys.Reachable .bytewise (fun i => (batch i).work) .empty s ∧
      callAll .bytewise .empty [batch true, batch false] =
        .ok (s.store, [(s.txn true).inserted, (s.txn false).inserted]) := by
  intro batch
  have htakes : ∀ e ∈ delivered ([true, false].map batch), Postgres.bytewise.Takes e := by
    decide +kernel
  obtain ⟨st, n, hrun⟩ := exists_insertBatches_eq_ok _ htakes allDecode_empty
  obtain ⟨s, hs, -, hlog, -⟩ := Sys.reachable_of_insertBatches (by decide) hrun
  have hcalls := (transactions_serializable hs).1
  rw [hlog] at hcalls
  exact ⟨s, hs, hcalls⟩

/-! ## Progress -/

/-- The statements of a round that are left, and the commit. -/
def Stage.left : Stage → ℕ
  | .ensure => 3
  | .lock => 2
  | .write _ => 1

/-- The actions that are left to a transaction, at most. A row that is inserted may make a group of
its own. -/
def Txn.actionsLeft (w : Work) (t : Txn) : ℕ :=
  match t.phase with
  | .start => 2 * w.order.length + t.rows.length + 3 * (uniqueKeys w.events).length + 6
  | .inserting todo => 2 * todo.length + t.rows.length + 3 * (uniqueKeys w.events).length + 5
  | .rolling todo => todo.length + 3 * (uniqueKeys w.events).length + 4
  | .folding todo stage => 3 * todo.length + stage.left
  | .committed | .aborted => 0

theorem length_groupCount_le (c : Postgres) (rows : List Row) :
    (groupCount Row.countKey c.countLe rows).length ≤ rows.length := by
  have hdedup := (List.dedup_sublist (rows.map Row.countKey)).length_le
  simpa [groupCount] using hdedup

namespace Txn

variable {c : Postgres} {st : Store} {w : Work} {t : Txn}

/-- A transaction that has not ended has its end before it. -/
theorem Active.actionsLeft_pos (h : t.Active) (w : Work) : 0 < t.actionsLeft w := by
  unfold Active at h
  unfold actionsLeft
  split at h
  · exact absurd h id
  · exact absurd h id
  · split
    any_goals omega
    · next todo stage _ => cases stage <;> simp [Stage.left]
    all_goals simp_all

/-- **Every action brings a transaction closer to its end**, unless only the commit is left. -/
theorem actionsLeft_advance (hact : t.Active) (hunready : ∀ stage, t.phase ≠ .folding [] stage) :
    (t.advance c st w).actionsLeft w < t.actionsLeft w := by
  have habort : t.abort.actionsLeft w < t.actionsLeft w := hact.actionsLeft_pos w
  cases hphase : t.phase with
  | start =>
    simp only [advance, hphase]
    split_ifs
    · exact habort
    · simp [actionsLeft, hphase]
  | inserting todo =>
    cases todo with
    | nil =>
      have hgroups := length_groupCount_le c t.rows
      simp only [advance, hphase, actionsLeft, List.length_nil]
      omega
    | cons r todo =>
      simp only [advance, hphase]
      split_ifs
      · simp only [actionsLeft, hphase, List.length_cons]
        omega
      · exact habort
      · simp only [actionsLeft, hphase, List.length_cons, List.length_append, List.length_nil]
        omega
  | rolling todo =>
    cases todo with
    | nil => simp [advance, hphase, actionsLeft, Stage.left]
    | cons g todo => simp [advance, hphase, actionsLeft]
  | folding todo stage =>
    cases todo with
    | nil => exact absurd hphase (hunready stage)
    | cons k todo =>
      cases stage with
      | ensure => simp [advance, hphase, actionsLeft, Stage.left]
      | lock =>
        simp only [advance, hphase]
        split
        · exact habort
        · split
          · exact habort
          · simp [hphase, actionsLeft, Stage.left]
      | write sketch =>
        simp only [advance, hphase, actionsLeft, Stage.left, List.length_cons]
        omega
  | committed => exact absurd hphase hact.ne_committed
  | aborted => simp [Active, hphase] at hact

/-- **No action aborts a transaction**, if Postgres refuses none of its events and the sketches it
reads decode. -/
theorem Inv.advance_active (h : t.Inv c st w) (hact : t.Active)
    (hok : ∀ e ∈ w.events, c.refuses e = false) (hrows : ∀ r ∈ w.order, c.refusesRow r = false)
    (hdec : AllDecode st.uniques) : (t.advance c st w).Active := by
  cases hphase : t.phase with
  | start =>
    have href : w.events.any c.refuses = false := by simpa using hok
    simp only [Txn.advance, hphase, href]
    exact trivial
  | inserting todo =>
    cases todo with
    | nil => simp [Txn.advance, hphase, Active]
    | cons r todo =>
      obtain ⟨-, rowsDone, groupsDone, keysDone, -, hph⟩ := h
      simp only [AtPhase, hphase] at hph
      have hrow : c.refusesRow r = false := hrows r (by simp [hph.1])
      simp only [Txn.advance, hphase, hrow, Bool.false_eq_true, if_false]
      split_ifs <;> simp [Active]
  | rolling todo => cases todo <;> simp [Txn.advance, hphase, Active]
  | folding todo stage =>
    cases todo with
    | nil => simpa [Txn.advance, hphase] using hact
    | cons k todo =>
      cases stage with
      | ensure => simp [Txn.advance, hphase, Active]
      | lock =>
        obtain ⟨raw, hraw, hread⟩ := (h.ensured hphase).lookup
        obtain ⟨sketch, hsketch⟩ := hdec k
        simp [Txn.advance, hphase, hraw, hread, hsketch, Active]
      | write sketch => simp [Txn.advance, hphase, Active]
  | committed => exact absurd hphase hact.ne_committed
  | aborted => simp [Active, hphase] at hact

end Txn

namespace Sys

variable {ι : Type*} [DecidableEq ι] {c : Postgres} {work : ι → Work} {st : Store} {s s' : Sys ι}

/-- A step that changes the state. -/
def Moves (c : Postgres) (work : ι → Work) (s s' : Sys ι) : Prop := Step c work s s' ∧ s' ≠ s

/-- A step of a database without failures: an action of a transaction that has more to do than to
commit, or a commit. -/
inductive Acts (c : Postgres) (work : ι → Work) (s : Sys ι) : Sys ι → Prop
  | advance (i : ι) (active : (s.txn i).Active) (free : ∀ j, ¬ s.WaitsFor i j)
      (unready : ∀ stage, (s.txn i).phase ≠ .folding [] stage) :
      Acts c work s (s.set i ((s.txn i).advance c s.store (work i)))
  | commit (i : ι) (stage : Stage) (ready : (s.txn i).phase = .folding [] stage) :
      Acts c work s (s.commit i)

theorem Acts.step (h : Acts c work s s') : Step c work s s' := by
  cases h with
  | advance i active free unready => exact .advance i active free
  | commit i stage ready => exact .commit i stage ready

/-- The actions that are left to all transactions, at most. -/
def actionsLeft [Fintype ι] (work : ι → Work) (s : Sys ι) : ℕ :=
  ∑ i, (s.txn i).actionsLeft (work i)

/-- One transaction goes on, and the others stay. -/
theorem actionsLeft_lt [Fintype ι] {i : ι} (hother : ∀ j, j ≠ i → s'.txn j = s.txn j)
    (hlt : (s'.txn i).actionsLeft (work i) < (s.txn i).actionsLeft (work i)) :
    s'.actionsLeft work < s.actionsLeft work := by
  refine Finset.sum_lt_sum (fun j _ => ?_) ⟨i, Finset.mem_univ i, hlt⟩
  by_cases hj : j = i
  · rw [hj]
    exact hlt.le
  · rw [hother j hj]

theorem actionsLeft_commit [Fintype ι] {i : ι} {stage : Stage}
    (hready : (s.txn i).phase = .folding [] stage) :
    (s.commit i).actionsLeft work < s.actionsLeft work := by
  refine actionsLeft_lt (fun j hj => commit_txn_of_ne s hj) ?_
  rw [commit_txn_self]
  exact Txn.Active.actionsLeft_pos (by simp [Txn.Active, hready]) (work i)

/-- **Every step lowers the bound**, aborts included. -/
theorem descends [Fintype ι] (c : Postgres) (work : ι → Work) :
    Descends (Moves c work) (fun _ => True) (actionsLeft work) where
  keeps _ _ := trivial
  lowers {s s'} _ hmoves := by
    obtain ⟨hstep, hne⟩ := hmoves
    cases hstep with
    | advance i active free =>
      refine actionsLeft_lt (fun j hj => set_txn_of_ne s hj _) ?_
      rw [set_txn_self]
      refine Txn.actionsLeft_advance active fun stage hready => hne ?_
      have hsame : (s.txn i).advance c s.store (work i) = s.txn i := by
        simp only [Txn.advance, hready]
      rw [hsame, Sys.set, Function.update_eq_self]
    | commit i stage ready => exact actionsLeft_commit ready
    | abort i active =>
      refine actionsLeft_lt (fun j hj => set_txn_of_ne s hj _) ?_
      rw [set_txn_self]
      exact active.actionsLeft_pos (work i)

/-- **Some transaction can act** as long as one has not ended. -/
theorem Reachable.exists_acts {batch : ι → Batch c}
    (h : Reachable c (fun i => (batch i).work) st s) {i : ι} (hi : (s.txn i).Active) :
    ∃ s', Acts c (fun i => (batch i).work) s s' := by
  obtain ⟨j, hij, hfree⟩ := h.lockOrdered.exists_not_waiting h.finite_waiting i
  have hj : (s.txn j).Active := by
    induction hij with
    | refl => exact hi
    | tail _ hw _ => exact hw.2.2.1
  by_cases hready : ∃ stage, (s.txn j).phase = .folding [] stage
  · obtain ⟨stage, hready⟩ := hready
    exact ⟨_, .commit j stage hready⟩
  · exact ⟨_, .advance j hj hfree fun stage h => hready ⟨stage, h⟩⟩

/-- Reached from the tables `st` without failures. -/
def Healthy (c : Postgres) (work : ι → Work) (st : Store) (s : Sys ι) : Prop :=
  Relation.ReflTransGen (Acts c work) (init ι st) s

theorem Healthy.reachable (h : Healthy c work st s) : Reachable c work st s := by
  induction h with
  | refl => exact .refl
  | tail _ hacts ih => exact ih.tail hacts.step

/-- **Without failures no transaction is aborted.** -/
theorem Healthy.active_or_committed (h : Healthy c work st s)
    (hok : ∀ i, ∀ e ∈ (work i).events, c.refuses e = false)
    (hrows : ∀ i, ∀ r ∈ (work i).order, c.refusesRow r = false) (hdec : AllDecode st.uniques)
    (i : ι) :
    (s.txn i).Active ∨ (s.txn i).phase = .committed := by
  induction h with
  | refl => exact .inl trivial
  | @tail s _ hs hacts ih =>
    have hinv := Reachable.inv (Healthy.reachable hs)
    cases hacts with
    | advance j active free unready =>
      by_cases hij : i = j
      · subst hij
        rw [set_txn_self]
        exact .inl ((hinv.txn i active).advance_active active (hok i) (hrows i)
          (hinv.serial.applied.uniques.allDecode hdec))
      · rw [set_txn_of_ne s hij]
        exact ih
    | commit j stage ready =>
      by_cases hij : i = j
      · subst hij
        rw [commit_txn_self]
        exact .inr rfl
      · rw [commit_txn_of_ne s hij]
        exact ih

end Sys

/-- **Without failures every transaction commits.** Transactions of any batches whose
events Postgres takes, over tables whose sketches decode. Every run, with or without aborts, takes
a bounded number of steps. From every state reached without failures some transaction can act until
all have committed, so every run without failures leads there, and then the tables are those of the
calls in commit order, each batch called once. -/
theorem transactions_commit {ι : Type*} [Fintype ι] [DecidableEq ι] {c : Postgres}
    {batch : ι → Batch c} {st : Store} {s : Sys ι}
    (hok : ∀ i, ∀ e ∈ (batch i).events, c.Takes e) (hdec : AllDecode st.uniques)
    (h : Sys.Healthy c (fun i => (batch i).work) st s) :
    (∀ (n : ℕ) (run : ℕ → Sys ι), run 0 = s →
      (∀ i < n, Sys.Moves c (fun i => (batch i).work) (run i) (run (i + 1))) →
      n ≤ s.actionsLeft fun i => (batch i).work) ∧
    ((∀ i, (s.txn i).phase = .committed) ∨ ∃ s', Sys.Acts c (fun i => (batch i).work) s s') ∧
    ∃ s', Relation.ReflTransGen (Sys.Acts c fun i => (batch i).work) s s' ∧
      (∀ i, (s'.txn i).phase = .committed) ∧ s'.log.Perm Finset.univ.toList ∧
      ∃ n, insertBatches c st (s'.log.map batch) = .ok (s'.store, n) := by
  have hnext : ∀ s, Sys.Healthy c (fun i => (batch i).work) st s →
      ¬ (∀ i, (s.txn i).phase = .committed) → ∃ s', Sys.Acts c (fun i => (batch i).work) s s' := by
    intro s hs hopen
    obtain ⟨i, hi⟩ := not_forall.mp hopen
    have hrows : ∀ i, ∀ r ∈ (batch i).order, c.refusesRow r = false := fun i r hr => by
      obtain ⟨e, he, rfl⟩ := (batch i).mem_order.mp hr
      exact (hok i e he).2
    have hactive := hs.active_or_committed (fun i e he => (hok i e he).1) hrows hdec i
    exact hs.reachable.exists_acts (hactive.resolve_right hi)
  have hdescends : Descends (Sys.Acts c fun i => (batch i).work)
      (Sys.Healthy c (fun i => (batch i).work) st) (Sys.actionsLeft fun i => (batch i).work) := by
    refine ⟨fun hs hacts => hs.tail hacts, fun {s s'} _ hacts => ?_⟩
    cases hacts with
    | advance i active free unready =>
      refine Sys.actionsLeft_lt (fun j hj => Sys.set_txn_of_ne s hj _) ?_
      rw [Sys.set_txn_self]
      exact Txn.actionsLeft_advance active unready
    | commit i stage ready => exact Sys.actionsLeft_commit ready
  refine ⟨fun n run hrun hmoves => ?_, ?_, ?_⟩
  · subst hrun
    exact (Sys.descends c _).length_le trivial hmoves
  · by_cases hall : ∀ i, (s.txn i).phase = .committed
    · exact .inl hall
    · exact .inr (hnext s h hall)
  · obtain ⟨s', hs', hall⟩ := hdescends.exists_final hnext h
    have hreach := Sys.Healthy.reachable (h.trans hs')
    refine ⟨s', hs', hall, ?_, hreach.insertBatches⟩
    refine (List.perm_ext_iff_of_nodup hreach.inv.nodup (Finset.nodup_toList _)).mpr fun i => ?_
    simp [hreach.inv.mem_log, hall]

/-- Two transactions of one event id, which wait for each other's row: both commit. -/
theorem transactions_commit_same_id :
    let batch : Bool → Batch .bytewise := fun _ => .single _ ⟨"e1", "buy_click", "u1", none, 0⟩
    (∀ i, ∀ e ∈ (batch i).events, Postgres.bytewise.Takes e) ∧ AllDecode Store.empty.uniques ∧
      ∃ s : Sys Bool, Sys.Healthy .bytewise (fun i => (batch i).work) .empty s ∧
        ∀ i, (s.txn i).phase = .committed := by
  intro batch
  have hok : ∀ i, ∀ e ∈ (batch i).events, Postgres.bytewise.Takes e := by decide +kernel
  obtain ⟨s, hs, hall, -⟩ := (transactions_commit hok allDecode_empty .refl).2.2
  exact ⟨hok, allDecode_empty, s, hs, hall⟩

end Tally
