import Tally.Txn.Invariant

/-!
# Commits are sequential

The committed tables are at every moment those of a sequential run of the committed transactions,
in commit order. Conversely every sequential run of `InsertBatch` is one of the interleavings.

## Main definitions

* `Serial`: the tables after the transactions of a log, one after the other
* `Sys.Inv`: the invariant of the interleavings

## Main results

* `Sys.Step.inv`, `Sys.Reachable.inv`: the invariant holds in every state reached
* `Sys.Reachable.insertBatches`: the committed tables are those of a run of `InsertBatch`
* `Sys.reachable_of_insertBatches`: such runs are interleavings
-/

namespace Tally

open Foundation Hll

/-- The tables after the transactions of a log, run one after the other. -/
inductive Serial {ι : Type*} (c : Postgres) (work : ι → Work) (st : Store) :
    List ι → Store → Prop
  | nil : Serial c work st [] st
  | snoc {log : List ι} {st₁ st₂ : Store} (i : ι) (before : Serial c work st log st₁)
      (accepted : c.Accepts st₁ (work i).events (work i).order)
      (applied : Applied c st₁ (work i).order (work i).events st₂) :
      Serial c work st (log ++ [i]) st₂

namespace Sys

variable {ι : Type*} [DecidableEq ι] {c : Postgres} {work : ι → Work} {st : Store} {s s' : Sys ι}

/-- **The invariant of the interleavings.** -/
structure Inv (c : Postgres) (work : ι → Work) (st : Store) (s : Sys ι) : Prop where
  serial : Serial c work st s.log s.store
  mem_log : ∀ i, i ∈ s.log ↔ (s.txn i).phase = .committed
  nodup : s.log.Nodup
  txn : ∀ i, (s.txn i).Active → (s.txn i).Inv c s.store (work i)
  exclusive : ∀ i j, i ≠ j → (s.txn i).Active → (s.txn j).Active →
    Txn.Exclusive (s.txn i) (s.txn j)

omit [DecidableEq ι] in
theorem inv_init (c : Postgres) (work : ι → Work) (st : Store) : (init ι st).Inv c work st where
  serial := .nil
  mem_log i := by simp [init, Txn.init]
  nodup := List.nodup_nil
  txn i _ := Txn.inv_init c st (work i)
  exclusive i j _ _ _ := ⟨fun r hr => by simp [init, Txn.init] at hr,
    fun k hk => absurd hk Finmap.notMem_empty,
    fun k hk => absurd hk (by simp [init, Txn.init, Txn.HoldsSketch, Finmap.notMem_empty])⟩

/-- One transaction changes, and the tables do not. -/
theorem Inv.set (h : s.Inv c work st) {i : ι} {t : Txn} (hi : (s.txn i).phase ≠ .committed)
    (ht : t.phase ≠ .committed) (hinv : t.Active → t.Inv c s.store (work i))
    (hex : t.Active → ∀ j, j ≠ i → (s.txn j).Active → Txn.Exclusive t (s.txn j)) :
    (s.set i t).Inv c work st where
  serial := h.serial
  mem_log j := by
    by_cases hj : j = i
    · subst hj
      simp [h.mem_log j, hi, ht]
    · simp [h.mem_log j, set_txn_of_ne s hj]
  nodup := h.nodup
  txn j hact := by
    by_cases hj : j = i
    · subst hj
      rw [set_txn_self] at hact ⊢
      exact hinv hact
    · rw [set_txn_of_ne s hj] at hact ⊢
      exact h.txn j hact
  exclusive j k hjk hj hk := by
    by_cases hji : j = i
    · subst hji
      rw [set_txn_self] at hj ⊢
      rw [set_txn_of_ne s hjk.symm] at hk ⊢
      exact hex hj k hjk.symm hk
    · rw [set_txn_of_ne s hji] at hj ⊢
      by_cases hki : k = i
      · subst hki
        rw [set_txn_self] at hk ⊢
        exact (hex hk j hji hj).symm
      · rw [set_txn_of_ne s hki] at hk ⊢
        exact h.exclusive j k hjk hj hk

theorem Inv.commit (h : s.Inv c work st) {i : ι} {stage : Stage}
    (hready : (s.txn i).phase = .folding [] stage) : (s.commit i).Inv c work st := by
  have hact : (s.txn i).Active := by simp [Txn.Active, hready]
  have hinv := h.txn i hact
  have hlog : i ∉ s.log := by simp [h.mem_log i, hready]
  have hdone : ¬ ((s.commit i).txn i).Active := by simp [commit_txn_self, Txn.Active]
  refine ⟨?_, fun j => ?_, ?_, fun j hj => ?_, fun j k hjk hj hk => ?_⟩
  · exact .snoc i h.serial (hinv.accepts hready) (hinv.applied hready)
  · by_cases hj : j = i
    · subst hj
      simp [Sys.commit]
    · simp [Sys.commit, hj, h.mem_log j]
  · exact List.nodup_append.mpr ⟨h.nodup, List.nodup_singleton i, by
      rintro j hj _ hi rfl
      exact hlog (List.mem_singleton.mp hi ▸ hj)⟩
  · have hji : j ≠ i := fun he => hdone (he ▸ hj)
    rw [commit_txn_of_ne s hji] at hj ⊢
    exact (h.txn j hj).commit_other (h.exclusive j i hji hj hact)
  · have hji : j ≠ i := fun he => hdone (he ▸ hj)
    have hki : k ≠ i := fun he => hdone (he ▸ hk)
    rw [commit_txn_of_ne s hji] at hj ⊢
    rw [commit_txn_of_ne s hki] at hk ⊢
    exact h.exclusive j k hjk hj hk

/-- **Every step keeps the invariant.** -/
theorem Step.inv (hstep : Step c work s s') (h : s.Inv c work st) : s'.Inv c work st := by
  cases hstep with
  | advance i active free =>
    refine h.set (Txn.Active.ne_committed active) (Txn.advance_ne_committed active)
      (h.txn i active).advance fun _ j hji hj => ?_
    have hfree : ¬ (s.txn i).conflicts (s.txn j) := fun hc => free j ⟨hji.symm, active, hj, hc⟩
    exact (h.exclusive i j hji.symm active hj).advance hfree (h.txn i active) (h.txn j hj)
  | commit i stage ready => exact h.commit ready
  | abort i active =>
    exact h.set (Txn.Active.ne_committed active) (by simp [Txn.abort])
      (fun hact => absurd hact id) fun hact => absurd hact id

/-- **The invariant holds in every state reached.** -/
theorem Reachable.inv (h : Reachable c work st s) : s.Inv c work st := by
  induction h with
  | refl => exact inv_init c work st
  | tail _ hstep ih => exact hstep.inv ih

/-! ## The sequential runs -/

end Sys

namespace Serial

variable {ι : Type*} {c : Postgres} {work : ι → Work} {st st' : Store} {log : List ι}

/-- A sequential run has the effect of one batch with all its rows and events. -/
theorem applied (h : Serial c work st log st') :
    Applied c st (log.flatMap fun i => (work i).order) (log.flatMap fun i => (work i).events)
      st' := by
  induction h with
  | nil => exact Applied.nil c st
  | snoc i _ _ happ ih =>
    simp only [List.flatMap_append, List.flatMap_singleton]
    exact ih.append happ

/-- A sequential run of `InsertBatch` transactions is a run of `InsertBatch` calls. -/
theorem insertBatches {batch : ι → Batch c}
    (h : Serial c (fun i => (batch i).work) st log st') :
    ∃ n, insertBatches c st (log.map batch) = .ok (st', n) := by
  induction h with
  | nil => exact ⟨0, rfl⟩
  | snoc i _ hok happ ih =>
    obtain ⟨n, hn⟩ := ih
    rw [List.map_append, List.map_singleton]
    exact ⟨_, insertBatches_snoc_eq_ok_iff.mpr
      ⟨_, n, _, hn, insertBatch_eq_ok_iff.mpr ⟨hok, happ, rfl⟩, rfl⟩⟩

end Serial

namespace Txn

variable {c : Postgres} {st : Store} {w : Work} {t : Txn}

/-- The actions of a transaction nobody interferes with. -/
def Runs (c : Postgres) (st : Store) (w : Work) : Txn → Txn → Prop :=
  Relation.ReflTransGen fun t t' => t.Active ∧ t' = t.advance c st w

theorem Runs.head {t' : Txn} (hact : t.Active) (h : Runs c st w (t.advance c st w) t') :
    Runs c st w t t' := Relation.ReflTransGen.head ⟨hact, rfl⟩ h

/-- The next row, if it is not skipped, is one that is new to the committed tables. -/
theorem Inv.mem_fresh {r : Row} {todo : List Row} (h : Inv c st w t)
    (hphase : t.phase = .inserting (r :: todo))
    (hnew : ¬ (r.eventId ∈ st.ids ∨ r.eventId ∈ t.rows.map Row.eventId)) :
    r ∈ fresh Row.eventId st.events w.order := by
  obtain ⟨-, rowsDone, groupsDone, keysDone, hp, hph⟩ := h
  simp only [AtPhase, hphase] at hph
  have hrows := fresh_snoc Row.eventId st.events rowsDone r
  simp only [← hp.rows, List.map_append, List.mem_append] at hrows
  rw [hph.1, List.append_cons, fresh_append, hrows.trans (if_neg hnew)]
  simp

theorem runs_inserting {todo : List Row} (h : Inv c st w t) (hphase : t.phase = .inserting todo)
    (hrows : ∀ r ∈ fresh Row.eventId st.events w.order, c.refusesRow r = false) :
    ∃ t', Runs c st w t t' ∧ t'.phase = .inserting [] := by
  induction todo generalizing t with
  | nil => exact ⟨t, .refl, hphase⟩
  | cons r todo ih =>
    have hnext : (t.advance c st w).phase = .inserting todo := by
      simp only [advance, hphase]
      split_ifs with hdup href
      · rfl
      · rw [hrows r (h.mem_fresh hphase hdup)] at href
        cases href
      · rfl
    have hinv := h.advance_inserting hphase (by simp [Active, hnext])
    obtain ⟨t', hruns, ht'⟩ := ih hinv hnext
    exact ⟨t', hruns.head (by simp [Active, hphase]), ht'⟩

theorem runs_rolling (c : Postgres) (st : Store) (w : Work) {t : Txn}
    {todo : List (CountKey × ℕ)} (hphase : t.phase = .rolling todo) :
    ∃ t', Runs c st w t t' ∧ t'.phase = .rolling [] := by
  induction todo generalizing t with
  | nil => exact ⟨t, .refl, hphase⟩
  | cons g todo ih =>
    obtain ⟨t', hruns, ht'⟩ := ih (t := t.advance c st w) (by simp only [advance, hphase])
    exact ⟨t', hruns.head (by simp [Active, hphase]), ht'⟩

/-- The locking read finds the committed sketch, which decodes, and the update follows. -/
theorem runs_lock {k : UniqueKey} {todo : List UniqueKey} (h : Inv c st w t)
    (hphase : t.phase = .folding (k :: todo) .lock) (hdec : ∃ s, sketchAt st.uniques k = .ok s) :
    ∃ t', Runs c st w t t' ∧ Inv c st w t' ∧ t'.phase = .folding todo .ensure := by
  obtain ⟨sketch, hsketch⟩ := hdec
  obtain ⟨raw, hraw, hread⟩ := h.ensured hphase |>.lookup
  have hwrite : (t.advance c st w).phase = .folding (k :: todo) (.write sketch) := by
    simp only [advance, hphase, hraw, hread, hsketch]
  have hinv := h.advance_lock hphase (by simp [Active, hwrite])
  refine ⟨_, ?_, hinv.advance_write hwrite, advance_phase_write hwrite⟩
  exact Runs.head (by simp [Active, hphase]) (Runs.head (by simp [Active, hwrite]) .refl)

theorem runs_folding {todo : List UniqueKey} (h : Inv c st w t)
    (hphase : t.phase = .folding todo .ensure)
    (hdec : ∀ k ∈ todo, ∃ s, sketchAt st.uniques k = .ok s) :
    ∃ t', Runs c st w t t' ∧ t'.phase = .folding [] .ensure := by
  induction todo generalizing t with
  | nil => exact ⟨t, .refl, hphase⟩
  | cons k todo ih =>
    have hlock : (t.advance c st w).phase = .folding (k :: todo) .lock := by
      simp only [advance, hphase]
    obtain ⟨t₁, hruns, h₁, hphase₁⟩ :=
      runs_lock (h.advance_ensure hphase) hlock (hdec k List.mem_cons_self)
    obtain ⟨t', hruns', ht'⟩ := ih h₁ hphase₁ fun k' hk' => hdec k' (List.mem_cons_of_mem k hk')
    exact ⟨t', (hruns.trans hruns').head (by simp [Active, hphase]), ht'⟩

theorem Inv.runs {t' : Txn} (h : Inv c st w t) (hruns : Runs c st w t t') (hact : t'.Active) :
    Inv c st w t' := by
  induction hruns with
  | refl => exact h
  | tail _ hstep ih =>
    obtain ⟨hact', rfl⟩ := hstep
    exact (ih hact').advance hact

/-- **A transaction nobody interferes with comes to its commit** if Postgres accepts its batch and
the sketches it reads decode. -/
theorem runs_init (hok : c.Accepts st w.events w.order)
    (hdec : ∀ k ∈ uniqueKeys w.events, ∃ s, sketchAt st.uniques k = .ok s) :
    ∃ t', Runs c st w init t' ∧ Inv c st w t' ∧ t'.phase = .folding [] .ensure := by
  have hstart : (init.advance c st w).phase = .inserting w.order := by
    have href : w.events.any c.refuses = false := by simpa using hok.events
    simp only [advance, init, href]
    rfl
  have hinv₁ := (inv_init c st w).advance (by simp [Active, hstart])
  obtain ⟨t₁, hr₁, hp₁⟩ := runs_inserting hinv₁ hstart hok.rows
  have hroll : (t₁.advance c st w).phase =
      .rolling (groupCount Row.countKey c.countLe t₁.rows) := by
    simp only [advance, hp₁]
  obtain ⟨t₂, hr₂, hp₂⟩ := runs_rolling c st w hroll
  have hfold : (t₂.advance c st w).phase = .folding (uniqueKeys w.events) .ensure := by
    simp only [advance, hp₂]
  have hruns : Runs c st w init (t₂.advance c st w) :=
    (Runs.head (by simp [Active, init]) hr₁).trans <|
      (Runs.head (by simp [Active, hp₁]) hr₂).trans <| Runs.head (by simp [Active, hp₂]) .refl
  have hinv := (inv_init c st w).runs hruns (by simp [Active, hfold])
  obtain ⟨t₃, hr₃, hp₃⟩ := runs_folding hinv hfold hdec
  have hall := hruns.trans hr₃
  exact ⟨t₃, hall, (inv_init c st w).runs hall (by simp [Active, hp₃]), hp₃⟩

end Txn

namespace Sys

variable {ι : Type*} [DecidableEq ι] {c : Postgres} {st : Store}

/-- **The committed tables are those of a run of `InsertBatch`** on the committed batches in
commit order. -/
theorem Reachable.insertBatches {batch : ι → Batch c} {s : Sys ι}
    (h : Reachable c (fun i => (batch i).work) st s) :
    ∃ n, insertBatches c st (s.log.map batch) = .ok (s.store, n) := h.inv.serial.insertBatches

/-- While no other transaction has begun, one acts as it does alone. -/
theorem steps_of_runs (work : ι → Work) {s : Sys ι} {i : ι} {t : Txn}
    (hother : ∀ j, j ≠ i → (s.txn j).Active → s.txn j = .init)
    (h : Txn.Runs c s.store (work i) (s.txn i) t) :
    Relation.ReflTransGen (Step c work) s (s.set i t) := by
  induction h with
  | refl => rw [Sys.set, Function.update_eq_self]
  | @tail t _ _ hstep ih =>
    obtain ⟨hact, rfl⟩ := hstep
    have hfree : ∀ j, ¬ (s.set i t).WaitsFor i j := by
      rintro j ⟨hij, -, hj, hc⟩
      rw [set_txn_of_ne s hij.symm] at hj hc
      rw [hother j hij.symm hj] at hc
      exact Txn.not_conflicts_init _ hc
    have hset : (s.set i t).set i (t.advance c s.store (work i)) =
        s.set i (t.advance c s.store (work i)) := by simp [Sys.set]
    rw [← hset]
    exact ih.tail (.of_advance_eq (by rwa [set_txn_self]) hfree (by rw [set_txn_self, set_store]))

/-- **Every run of `InsertBatch` is an interleaving.** -/
theorem reachable_of_insertBatches {batch : ι → Batch c} {log : List ι} {st' : Store} {n : ℕ}
    (hnd : log.Nodup) (h : Tally.insertBatches c st (log.map batch) = .ok (st', n)) :
    ∃ s : Sys ι, Reachable c (fun i => (batch i).work) st s ∧ s.store = st' ∧ s.log = log ∧
      ∀ i, i ∉ log → s.txn i = .init := by
  induction log using List.reverseRecOn generalizing st' n with
  | nil =>
    obtain ⟨rfl, rfl⟩ := Prod.mk.inj (Except.ok.inj h)
    exact ⟨init ι st, .refl, rfl, rfl, fun _ _ => rfl⟩
  | append_singleton log i ih =>
    rw [List.map_append, List.map_singleton] at h
    obtain ⟨st₁, n₁, n₂, hlog, hlast, -⟩ := insertBatches_snoc_eq_ok_iff.mp h
    obtain ⟨hok, happ, -⟩ := insertBatch_eq_ok_iff.mp hlast
    have hnd' := List.nodup_append.mp hnd
    obtain ⟨s, hs, rfl, rfl, hinit⟩ := ih hnd'.1 hlog
    have hi : i ∉ s.log := fun hm => hnd'.2.2 i hm i (List.mem_singleton_self i) rfl
    obtain ⟨t, hruns, hinv, hphase⟩ := Txn.runs_init (c := c) (w := (batch i).work) hok
      fun k hk => ((happ.uniques k).2 (mem_uniqueKeys.mp hk)).imp fun _ => And.left
    have hother : ∀ j, j ≠ i → (s.txn j).Active → s.txn j = .init := fun j _ hact =>
      hinit j fun hm => hact.ne_committed ((hs.inv.mem_log j).mp hm)
    rw [← hinit i hi] at hruns
    have hsteps := steps_of_runs (fun i => (batch i).work) hother hruns
    have hready : ((s.set i t).txn i).phase = .folding [] .ensure := by rwa [set_txn_self]
    refine ⟨(s.set i t).commit i, (hs.trans hsteps).tail (.commit i .ensure hready), ?_, rfl, ?_⟩
    -- the commit and the call have the same effect, and the effect fixes the tables
    · show s.store.commit ((s.set i t).txn i) = st'
      rw [set_txn_self]
      exact (hinv.applied hphase).unique happ
    · intro j hj
      have hji : j ≠ i := fun he => hj (List.mem_append_right _ (List.mem_singleton.mpr he))
      rw [commit_txn_of_ne _ hji, set_txn_of_ne _ hji]
      exact hinit j fun hm => hj (List.mem_append_left _ hm)

end Sys

end Tally
