import Mathlib.Logic.Relation
import Tally.Store.InsertBatch

/-!
# Concurrent InsertBatch transactions

Any number of `InsertBatch` transactions interleaved under READ COMMITTED, action by action: one
row of the inserting CTE, one group of the rollup upsert, one statement of a round of
`updateUniques`. A transaction keeps its uncommitted rows to itself until it ends, and a row it
has written or locked makes the others wait:

* inserting an event id that another unfinished transaction inserted waits for its end; a
  committed id is skipped without a lock;
* the rollup upsert and `SELECT .. FOR UPDATE` wait for the row and then work on its latest
  committed version;
* `INSERT .. ON CONFLICT DO NOTHING` waits for another's uncommitted version of the row, and does
  nothing, without a lock, when a committed row is there.

The insertion of the rows ends before the first upsert, as its `GROUP BY` forces.

## Main definitions

* `Work`: what a transaction inserts and folds
* `Txn`, `Phase`, `Stage`: a transaction, its uncommitted rows and its next action
* `Txn.conflicts`: the next action of a transaction needs a row another one holds
* `Txn.advance`: the next action, when nothing conflicts
* `Sys`, `Step`, `Reachable`: the interleavings, with aborts at any point
-/

namespace Tally

open Foundation Hll

/-- What a transaction has to do: the rows of its CTE in the order of insertion, and the batch it
folds into the sketches. `updateUniques` alone is the work with no rows. -/
structure Work where
  order : List Row
  events : List Event

def Batch.work {c : Postgres} (b : Batch c) : Work := ⟨b.order, b.events⟩

/-- The statements of a round of `updateUniques`: the insert, the locking read, the update with
the sketch read. -/
inductive Stage where
  | ensure
  | lock
  | write (sketch : Sketch)

/-- How far a transaction has come. -/
inductive Phase where
  | start
  | inserting (todo : List Row)
  | rolling (todo : List (CountKey × ℕ))
  | folding (todo : List UniqueKey) (stage : Stage)
  | committed
  | aborted

/-- A transaction: its phase, its uncommitted rows in the three tables, and the sketch rows it
locked. -/
structure Txn where
  phase : Phase
  rows : List Row
  rolls : Counts
  sketches : Uniques
  locked : Finset UniqueKey

namespace Txn

def init : Txn := ⟨.start, [], ∅, ∅, ∅⟩

/-- The transaction has not ended. -/
def Active (t : Txn) : Prop :=
  match t.phase with
  | .committed | .aborted => False
  | _ => True

instance (t : Txn) : Decidable t.Active := by
  unfold Active
  split <;> infer_instance

/-- The transaction ended without effect. -/
def abort (t : Txn) : Txn := { t with phase := .aborted }

/-- The next action of `t` needs a row that `u` holds. -/
def conflicts (t u : Txn) : Prop :=
  match t.phase with
  -- an uncommitted row of the same id makes the insert wait
  | .inserting (r :: _) => r.eventId ∈ u.rows.map Row.eventId
  | .rolling ((k, _) :: _) => k ∈ u.rolls
  -- the insert waits for an uncommitted version of the row, the locking read also for a lock on it
  | .folding (k :: _) .ensure => k ∈ u.sketches
  | .folding (k :: _) .lock => k ∈ u.sketches ∨ k ∈ u.locked
  | _ => False

/-- The next action of a transaction on the committed tables, when nothing conflicts. Its own
uncommitted versions shadow the committed ones. -/
def advance (c : Postgres) (st : Store) (w : Work) (t : Txn) : Txn :=
  match t.phase with
  | .start =>
    if w.events.any c.refuses then t.abort
    else { t with phase := .inserting w.order }
  | .inserting [] => { t with phase := .rolling (groupCount Row.countKey c.countLe t.rows) }
  | .inserting (r :: todo) =>
    if r.eventId ∈ st.ids ∨ r.eventId ∈ t.rows.map Row.eventId then
      { t with phase := .inserting todo }
    else if c.refusesRow r then t.abort
    else { t with phase := .inserting todo, rows := t.rows ++ [r] }
  | .rolling [] => { t with phase := .folding (uniqueKeys w.events) .ensure }
  | .rolling ((k, n) :: todo) =>
    { t with
      phase := .rolling todo
      rolls := t.rolls.insert k (((t.rolls ∪ st.counts).lookup k).getD 0 + n) }
  | .folding [] _ => t
  | .folding (k :: todo) .ensure =>
    { t with
      phase := .folding (k :: todo) .lock
      sketches :=
        if k ∈ t.sketches ∪ st.uniques then t.sketches
        else t.sketches.insert k Sketch.new.bytes }
  | .folding (k :: todo) .lock =>
    -- the locking read sees the latest committed version, or its own
    match (t.sketches ∪ st.uniques).lookup k with
    | none => t.abort
    | some raw =>
      match Sketch.fromBytes raw with
      | .error _ => t.abort
      | .ok sketch =>
        { t with phase := .folding (k :: todo) (.write sketch), locked := insert k t.locked }
  | .folding (k :: todo) (.write sketch) =>
    { t with
      phase := .folding todo .ensure
      sketches := t.sketches.insert k (sketch.addAll (idsFor w.events k)).bytes }
  | .committed => t
  | .aborted => t

/-- A transaction that has not begun is in nobody's way. -/
theorem not_conflicts_init (t : Txn) : ¬ t.conflicts init := by
  unfold conflicts
  split <;> simp [init, Finmap.notMem_empty]

theorem advance_phase_write {c : Postgres} {st : Store} {w : Work} {t : Txn} {k : UniqueKey}
    {todo : List UniqueKey} {sketch : Sketch}
    (h : t.phase = .folding (k :: todo) (.write sketch)) :
    (t.advance c st w).phase = .folding todo .ensure := by
  simp only [advance, h]

theorem Active.ne_committed {t : Txn} (h : t.Active) : t.phase ≠ .committed := by
  intro hp
  simp [Active, hp] at h

/-- Only a commit commits. -/
theorem advance_ne_committed {c : Postgres} {st : Store} {w : Work} {t : Txn} (h : t.Active) :
    (t.advance c st w).phase ≠ .committed := by
  have hne := h.ne_committed
  unfold advance
  split
  any_goals split
  any_goals split
  all_goals simp_all [abort]

end Txn

/-- The tables after the commit of a transaction. -/
def Store.commit (st : Store) (t : Txn) : Store :=
  ⟨st.events ++ t.rows, t.rolls ∪ st.counts, t.sketches ∪ st.uniques⟩

/-- The committed tables, the transactions, and the commits so far. -/
structure Sys (ι : Type*) where
  store : Store
  txn : ι → Txn
  log : List ι

namespace Sys

variable {ι : Type*} [DecidableEq ι]

def init (ι : Type*) (st : Store) : Sys ι := ⟨st, fun _ => .init, []⟩

def set (s : Sys ι) (i : ι) (t : Txn) : Sys ι := { s with txn := Function.update s.txn i t }

def commit (s : Sys ι) (i : ι) : Sys ι :=
  ⟨s.store.commit (s.txn i), Function.update s.txn i { s.txn i with phase := .committed },
    s.log ++ [i]⟩

/-- Transaction `i` waits for the end of transaction `j`. -/
def WaitsFor (s : Sys ι) (i j : ι) : Prop :=
  i ≠ j ∧ (s.txn i).Active ∧ (s.txn j).Active ∧ (s.txn i).conflicts (s.txn j)

/-- One step of the database: an action of a transaction that waits for no other, a commit, or
the abort of a transaction at any point. -/
inductive Step (c : Postgres) (work : ι → Work) (s : Sys ι) : Sys ι → Prop
  | advance (i : ι) (active : (s.txn i).Active) (free : ∀ j, ¬ s.WaitsFor i j) :
      Step c work s (s.set i ((s.txn i).advance c s.store (work i)))
  | commit (i : ι) (stage : Stage) (ready : (s.txn i).phase = .folding [] stage) :
      Step c work s (s.commit i)
  | abort (i : ι) (active : (s.txn i).Active) : Step c work s (s.set i (s.txn i).abort)

theorem Step.of_advance_eq {c : Postgres} {work : ι → Work} {s : Sys ι} {i : ι} {t : Txn}
    (active : (s.txn i).Active) (free : ∀ j, ¬ s.WaitsFor i j)
    (h : (s.txn i).advance c s.store (work i) = t) : Step c work s (s.set i t) := by
  subst h
  exact .advance i active free

/-- The states reached from the tables `st` by any interleaving. -/
def Reachable (c : Postgres) (work : ι → Work) (st : Store) (s : Sys ι) : Prop :=
  Relation.ReflTransGen (Step c work) (init ι st) s

@[simp] theorem set_store (s : Sys ι) (i : ι) (t : Txn) : (s.set i t).store = s.store := rfl

@[simp] theorem set_log (s : Sys ι) (i : ι) (t : Txn) : (s.set i t).log = s.log := rfl

@[simp] theorem set_txn_self (s : Sys ι) (i : ι) (t : Txn) : (s.set i t).txn i = t :=
  Function.update_self ..

theorem set_txn_of_ne (s : Sys ι) {i j : ι} (h : j ≠ i) (t : Txn) :
    (s.set i t).txn j = s.txn j := Function.update_of_ne h ..

theorem commit_txn_self (s : Sys ι) (i : ι) :
    (s.commit i).txn i = { s.txn i with phase := .committed } := Function.update_self ..

theorem commit_txn_of_ne (s : Sys ι) {i j : ι} (h : j ≠ i) : (s.commit i).txn j = s.txn j :=
  Function.update_of_ne h _ _

end Sys

end Tally
