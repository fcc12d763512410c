import Tally.Txn.Basic

/-!
# What a transaction has done

The invariant of an unfinished transaction, in terms of the committed tables as they are now. The
ids it inserted and the rows it wrote or locked cannot change under it, and the ids it skipped
stay stored. So a commit has the effect of the whole `InsertBatch` run alone on the tables it
commits to, whatever others committed since the transaction began.

## Main definitions

* `Txn.Inv`: what an unfinished transaction has done
* `Txn.Exclusive`: two transactions hold no row in common

## Main results

* `Txn.Inv.advance`, `Txn.Exclusive.advance`: an action of a transaction keeps both
* `Txn.Inv.commit_other`: a commit of another transaction invalidates nothing
* `Txn.Inv.applied`: a commit has the effect of the batch
-/

namespace Tally

open Foundation Hll

namespace Txn

/-- The transaction wrote or locked the sketch row of `k`. -/
def HoldsSketch (t : Txn) (k : UniqueKey) : Prop := k ∈ t.sketches ∨ k ∈ t.locked

/-- The sketch row the current round of `updateUniques` is about. -/
def current (t : Txn) : Option UniqueKey :=
  match t.phase with
  | .folding (k :: _) _ => some k
  | _ => none

/-- The row of `k` is there: committed, or new and uncommitted. -/
def Ensured (st : Store) (t : Txn) (k : UniqueKey) : Prop :=
  (k ∉ t.sketches ∧ k ∈ st.uniques) ∨
    (t.sketches.lookup k = some Sketch.new.bytes ∧ k ∉ st.uniques)

/-- The current round, statement by statement. -/
def AtStage (st : Store) (t : Txn) (k : UniqueKey) : Stage → Prop
  | .ensure => k ∉ t.sketches ∧ k ∉ t.locked
  | .lock => Ensured st t k ∧ k ∉ t.locked
  -- nobody else can write the row now, so the sketch read stays the committed one
  | .write sketch => Ensured st t k ∧ sketchAt st.uniques k = .ok sketch ∧ k ∈ t.locked

/-- Where a transaction stands after the rows, groups and keys it is done with. -/
def AtPhase (c : Postgres) (st : Store) (w : Work) (t : Txn) (rowsDone : List Row)
    (groupsDone : List (CountKey × ℕ)) (keysDone : List UniqueKey) : Prop :=
  match t.phase with
  | .start => rowsDone = [] ∧ groupsDone = [] ∧ keysDone = []
  | .inserting todo => w.order = rowsDone ++ todo ∧ groupsDone = [] ∧ keysDone = []
  | .rolling todo =>
    w.order = rowsDone ∧ groupCount Row.countKey c.countLe t.rows = groupsDone ++ todo ∧
      keysDone = []
  | .folding todo stage =>
    w.order = rowsDone ∧ groupCount Row.countKey c.countLe t.rows = groupsDone ∧
      uniqueKeys w.events = keysDone ++ todo ∧ ∀ k ∈ todo.head?, AtStage st t k stage
  | _ => False

/-- What a transaction has done, in terms of the committed tables as they are now. -/
structure Progress (st : Store) (w : Work) (t : Txn) (rowsDone : List Row)
    (groupsDone : List (CountKey × ℕ)) (keysDone : List UniqueKey) : Prop where
  rows : t.rows = fresh Row.eventId st.events rowsDone
  rolled : ∀ g ∈ groupsDone, t.rolls.lookup g.1 = some ((st.counts.lookup g.1).getD 0 + g.2)
  mem_rolls : ∀ k ∈ t.rolls, k ∈ groupsDone.map Prod.fst
  folded : ∀ k ∈ keysDone, ∃ s, sketchAt st.uniques k = .ok s ∧
    t.sketches.lookup k = some (s.addAll (idsFor w.events k)).bytes
  held : ∀ k, t.HoldsSketch k → k ∈ keysDone ∨ t.current = some k

/-- Postgres has refused no event of the batch, and none of the rows inserted. -/
structure Cleared (c : Postgres) (w : Work) (t : Txn) : Prop where
  events : t.phase ≠ .start → ∀ e ∈ w.events, c.refuses e = false
  rows : ∀ r ∈ t.rows, c.refusesRow r = false

/-- **The invariant of an unfinished transaction.** -/
def Inv (c : Postgres) (st : Store) (w : Work) (t : Txn) : Prop :=
  Cleared c w t ∧
    ∃ rowsDone groupsDone keysDone,
      Progress st w t rowsDone groupsDone keysDone ∧ AtPhase c st w t rowsDone groupsDone keysDone

/-- Two transactions hold no row in common. -/
structure Exclusive (t u : Txn) : Prop where
  rows : ∀ r ∈ t.rows, r.eventId ∉ u.rows.map Row.eventId
  rolls : ∀ k ∈ t.rolls, k ∉ u.rolls
  sketches : ∀ k, t.HoldsSketch k → ¬ u.HoldsSketch k

theorem Exclusive.symm {t u : Txn} (h : Exclusive t u) : Exclusive u t where
  rows r hr hm := by
    obtain ⟨r', hr', he⟩ := List.mem_map.mp hm
    exact h.rows r' hr' (he ▸ List.mem_map_of_mem hr)
  rolls k hk hk' := h.rolls k hk' hk
  sketches k hk hk' := h.sketches k hk' hk

variable {c : Postgres} {st : Store} {w w' : Work} {t u : Txn}

theorem inv_init (c : Postgres) (st : Store) (w : Work) : Inv c st w init :=
  ⟨⟨fun h => absurd rfl h, fun r hr => absurd hr List.not_mem_nil⟩, [], [], [],
    ⟨rfl, by simp, fun k hk => absurd hk Finmap.notMem_empty, by simp,
      fun k hk => hk.elim (absurd · Finmap.notMem_empty) (absurd · (Finset.notMem_empty k))⟩,
    ⟨rfl, rfl, rfl⟩⟩

/-- A locked row has been written, or is committed. -/
theorem Inv.mem_of_locked (h : Inv c st w t) {k : UniqueKey} (hk : k ∈ t.locked) :
    k ∈ t.sketches ∨ k ∈ st.uniques := by
  obtain ⟨-, rowsDone, groupsDone, keysDone, hp, hph⟩ := h
  rcases hp.held k (.inr hk) with hd | hc
  · obtain ⟨s, -, hl⟩ := hp.folded k hd
    exact .inl (Finmap.mem_of_lookup_eq_some hl)
  · unfold current at hc
    split at hc
    · rename_i k' todo stage hphase
      obtain rfl : k' = k := Option.some.inj hc
      simp only [AtPhase, hphase] at hph
      have hst := hph.2.2.2 k' rfl
      cases stage with
      | ensure => exact absurd hk hst.2
      | lock => exact absurd hk hst.2
      | write sketch =>
        rcases hst.1 with ⟨-, hm⟩ | ⟨hl, -⟩
        · exact .inr hm
        · exact .inl (Finmap.mem_of_lookup_eq_some hl)
    · cases hc

theorem Inv.ensured (h : Inv c st w t) {k : UniqueKey} {todo : List UniqueKey}
    (hphase : t.phase = .folding (k :: todo) .lock) : Ensured st t k := by
  obtain ⟨-, rowsDone, groupsDone, keysDone, -, hph⟩ := h
  simp only [AtPhase, hphase] at hph
  exact (hph.2.2.2 k rfl).1

theorem Inv.mem_locked_of_write (h : Inv c st w t) {k : UniqueKey} {todo : List UniqueKey}
    {sketch : Sketch} (hphase : t.phase = .folding (k :: todo) (.write sketch)) : k ∈ t.locked := by
  obtain ⟨-, rowsDone, groupsDone, keysDone, -, hph⟩ := h
  simp only [AtPhase, hphase] at hph
  exact (hph.2.2.2 k rfl).2.2

/-! ## Another transaction commits -/

/-- A sketch row the committing transaction does not hold keeps its version. -/
theorem lookup_commit_uniques {k : UniqueKey} (h : k ∉ u.sketches) :
    (st.commit u).uniques.lookup k = st.uniques.lookup k := Finmap.lookup_union_right h

theorem mem_commit_uniques {k : UniqueKey} (h : k ∈ st.uniques) : k ∈ (st.commit u).uniques :=
  Finmap.mem_union.mpr (.inr h)

theorem Ensured.commit_other {k : UniqueKey} (h : Ensured st t k) (hex : Exclusive t u) :
    Ensured (st.commit u) t k := by
  rcases h with ⟨hn, hm⟩ | ⟨hl, hn⟩
  · exact .inl ⟨hn, mem_commit_uniques hm⟩
  · refine .inr ⟨hl, fun hm => ?_⟩
    have hu : k ∉ u.sketches := fun hk =>
      hex.sketches k (.inl (Finmap.mem_of_lookup_eq_some hl)) (.inl hk)
    rcases Finmap.mem_union.mp hm with hk | hk
    exacts [hu hk, hn hk]

theorem AtStage.commit_other {k : UniqueKey} {stage : Stage} (h : AtStage st t k stage)
    (hex : Exclusive t u) : AtStage (st.commit u) t k stage := by
  cases stage with
  | ensure => exact h
  | lock => exact ⟨h.1.commit_other hex, h.2⟩
  | write sketch =>
    have hu : k ∉ u.sketches := fun hk => hex.sketches k (.inr h.2.2) (.inl hk)
    exact ⟨h.1.commit_other hex,
      (sketchAt_congr (lookup_commit_uniques hu)).trans h.2.1, h.2.2⟩

/-- The ids a transaction is done with are stored or its own, so the rows it inserts are the same
before and after the commit of another. -/
theorem fresh_commit_other {rowsDone : List Row}
    (hrows : t.rows = fresh Row.eventId st.events rowsDone) (hex : Exclusive t u) :
    fresh Row.eventId (st.commit u).events rowsDone = fresh Row.eventId st.events rowsDone := by
  refine (fresh_congr Row.eventId fun r hr => ?_).symm
  show _ ↔ r.eventId ∈ (st.events ++ u.rows).map Row.eventId
  rw [List.map_append, List.mem_append]
  refine ⟨.inl, fun hm => hm.elim id fun hu => ?_⟩
  have hmem := (mem_map_append_fresh Row.eventId st.events rowsDone r.eventId).mpr
    (.inr (List.mem_map_of_mem hr))
  rw [List.map_append, List.mem_append, ← hrows] at hmem
  refine hmem.elim id fun ht => ?_
  obtain ⟨r', hr', he⟩ := List.mem_map.mp ht
  exact absurd (he ▸ hu) (hex.rows r' hr')

theorem Progress.commit_other {rowsDone : List Row} {groupsDone : List (CountKey × ℕ)}
    {keysDone : List UniqueKey} (h : Progress st w t rowsDone groupsDone keysDone)
    (hex : Exclusive t u) : Progress (st.commit u) w t rowsDone groupsDone keysDone where
  rows := by rw [fresh_commit_other h.rows hex, h.rows]
  rolled g hg := by
    have hl := h.rolled g hg
    have hu : g.1 ∉ u.rolls := hex.rolls g.1 (Finmap.mem_of_lookup_eq_some hl)
    rw [hl, show (st.commit u).counts.lookup g.1 = _ from Finmap.lookup_union_right hu]
  mem_rolls := h.mem_rolls
  folded k hk := by
    obtain ⟨s, hs, hl⟩ := h.folded k hk
    have hu : k ∉ u.sketches := fun hk' =>
      hex.sketches k (.inl (Finmap.mem_of_lookup_eq_some hl)) (.inl hk')
    exact ⟨s, (sketchAt_congr (lookup_commit_uniques hu)).trans hs, hl⟩
  held := h.held

/-- **A commit of another transaction invalidates nothing** a transaction has done. -/
theorem Inv.commit_other (h : Inv c st w t) (hex : Exclusive t u) : Inv c (st.commit u) w t := by
  obtain ⟨hok, rowsDone, groupsDone, keysDone, hp, hph⟩ := h
  refine ⟨hok, rowsDone, groupsDone, keysDone, hp.commit_other hex, ?_⟩
  cases hphase : t.phase with
  | folding todo stage =>
    simp only [AtPhase, hphase] at hph ⊢
    obtain ⟨ho, hg, hk, hst⟩ := hph
    exact ⟨ho, hg, hk, fun k hk => (hst k hk).commit_other hex⟩
  | _ =>
    simp only [AtPhase, hphase] at hph ⊢
    try exact hph

/-! ## The transaction itself goes on -/

theorem Cleared.next (h : Cleared c w t) (hphase : t.phase ≠ .start) {t' : Txn}
    (hrows : t'.rows = t.rows) : Cleared c w t' :=
  ⟨fun _ => h.events hphase, hrows ▸ h.rows⟩

theorem Progress.with_phase {rowsDone : List Row} {groupsDone : List (CountKey × ℕ)}
    {keysDone : List UniqueKey} (h : Progress st w t rowsDone groupsDone keysDone) {p : Phase}
    (hc : ∀ k, t.current = some k → ({ t with phase := p } : Txn).current = some k) :
    Progress st w { t with phase := p } rowsDone groupsDone keysDone where
  rows := h.rows
  rolled := h.rolled
  mem_rolls := h.mem_rolls
  folded := h.folded
  held k hk := (h.held k hk).imp id (hc k)

/-- The next row is inserted, or skipped as a duplicate. -/
theorem Inv.advance_inserting {r : Row} {todo : List Row} (h : Inv c st w t)
    (hphase : t.phase = .inserting (r :: todo))
    (hact : (t.advance c st w).Active) : Inv c st w (t.advance c st w) := by
  obtain ⟨hok, rowsDone, groupsDone, keysDone, hp, hph⟩ := h
  simp only [AtPhase, hphase] at hph
  obtain ⟨horder, hg, hk⟩ := hph
  have hord : w.order = (rowsDone ++ [r]) ++ todo := by rw [horder, List.append_assoc]; rfl
  have hcur : t.current = none := by simp [current, hphase]
  have hrows := fresh_snoc Row.eventId st.events rowsDone r
  simp only [← hp.rows, List.map_append, List.mem_append] at hrows
  have hp' := hp.with_phase (p := .inserting todo) (by simp [hcur])
  simp only [advance, hphase] at hact ⊢
  split_ifs at hact ⊢ with hdup href
  · exact ⟨hok.next (by simp [hphase]) rfl, rowsDone ++ [r], groupsDone, keysDone,
      { hp' with rows := (hrows.trans (if_pos hdup)).symm }, ⟨hord, hg, hk⟩⟩
  · exact absurd hact id
  · refine ⟨⟨fun _ => hok.events (by simp [hphase]), fun r' hr' => ?_⟩, rowsDone ++ [r],
      groupsDone, keysDone, { hp' with rows := (hrows.trans (if_neg hdup)).symm }, ⟨hord, hg, hk⟩⟩
    rcases List.mem_append.mp hr' with hold | hnew
    · exact hok.rows r' hold
    · rw [List.mem_singleton.mp hnew]
      exact Bool.not_eq_true _ ▸ href

/-- The next group is added to the latest committed version of its row. -/
theorem Inv.advance_rolling {k : CountKey} {n : ℕ} {todo : List (CountKey × ℕ)}
    (hphase : t.phase = .rolling ((k, n) :: todo)) (h : Inv c st w t) :
    Inv c st w (t.advance c st w) := by
  obtain ⟨hok, rowsDone, groupsDone, keysDone, hp, hph⟩ := h
  simp only [AtPhase, hphase] at hph
  obtain ⟨horder, hg, hk⟩ := hph
  have hcur : t.current = none := by simp [current, hphase]
  -- the groups have distinct keys, so this row has not been written yet
  have hnd := nodup_groupCount Row.countKey c.countLe t.rows
  rw [hg, List.map_append, List.nodup_append] at hnd
  have hknew : k ∉ groupsDone.map Prod.fst := fun hkd =>
    hnd.2.2 k hkd k (List.mem_map_of_mem (f := Prod.fst) List.mem_cons_self) rfl
  have hroll : k ∉ t.rolls := fun hkr => hknew (hp.mem_rolls k hkr)
  simp only [advance, hphase, Finmap.lookup_union_right hroll]
  refine ⟨hok.next (by simp [hphase]) rfl, rowsDone, groupsDone ++ [(k, n)], keysDone, ?_, ?_⟩
  · refine { hp.with_phase (p := .rolling todo) (by simp [hcur]) with
      rolled := ?_, mem_rolls := ?_ }
    · intro g hgm
      rcases List.mem_append.mp hgm with hgd | hgl
      · have hne : g.1 ≠ k := fun he => hknew (he ▸ List.mem_map_of_mem hgd)
        rw [Finmap.lookup_insert_of_ne _ hne]
        exact hp.rolled g hgd
      · obtain rfl := List.mem_singleton.mp hgl
        exact Finmap.lookup_insert _
    · intro k' hk'
      rw [List.map_append, List.mem_append]
      rcases Finmap.mem_insert.mp hk' with rfl | hm
      · exact .inr (List.mem_singleton_self _)
      · exact .inl (hp.mem_rolls k' hm)
  · exact ⟨horder, by rw [List.append_assoc]; exact hg, hk⟩

/-- The first statement of a round: the row of the key is there. -/
theorem Inv.advance_ensure {k : UniqueKey} {todo : List UniqueKey}
    (hphase : t.phase = .folding (k :: todo) .ensure) (h : Inv c st w t) :
    Inv c st w (t.advance c st w) := by
  obtain ⟨hok, rowsDone, groupsDone, keysDone, hp, hph⟩ := h
  simp only [AtPhase, hphase] at hph
  obtain ⟨horder, hg, hkeys, hst⟩ := hph
  obtain ⟨hsk, hlk⟩ : k ∉ t.sketches ∧ k ∉ t.locked := hst k rfl
  have hnd := nodup_uniqueKeys w.events
  rw [hkeys, List.nodup_append] at hnd
  have hknew : k ∉ keysDone := fun hkd => hnd.2.2 k hkd k List.mem_cons_self rfl
  have hcur : t.current = some k := by simp [current, hphase]
  have hp' := hp.with_phase (p := .folding (k :: todo) .lock) fun _ hc => hcur.symm.trans hc
  simp only [advance, hphase]
  refine ⟨hok.next (by simp [hphase]) rfl, rowsDone, groupsDone, keysDone, ?_, ?_⟩
  · refine { hp' with folded := ?_, held := ?_ }
    · intro k' hk'
      obtain ⟨s, hs, hl⟩ := hp.folded k' hk'
      have hne : k' ≠ k := fun he => hknew (he ▸ hk')
      refine ⟨s, hs, ?_⟩
      dsimp only
      split_ifs
      · exact hl
      · rwa [Finmap.lookup_insert_of_ne _ hne]
    · intro k' hk'
      by_cases he : k' = k
      · exact .inr (by simp [current, he])
      · refine hp'.held k' (hk'.imp (fun hm => ?_) id)
        dsimp only at hm
        split_ifs at hm
        · exact hm
        · exact (Finmap.mem_insert.mp hm).resolve_left he
  · refine ⟨horder, hg, hkeys, fun k' hk' => ?_⟩
    obtain rfl : k = k' := Option.some.inj hk'
    refine ⟨?_, hlk⟩
    by_cases hm : k ∈ st.uniques
    · exact .inl ⟨by simpa [Finmap.mem_union, hm] using hsk, hm⟩
    · exact .inr ⟨by simp [Finmap.mem_union, hm, hsk], hm⟩

/-- The version of the row a locking read finds. -/
theorem Ensured.lookup {k : UniqueKey} (h : Ensured st t k) :
    ∃ raw, (t.sketches ∪ st.uniques).lookup k = some raw ∧
      Sketch.fromBytes raw = sketchAt st.uniques k := by
  rcases h with ⟨hn, hm⟩ | ⟨hl, hn⟩
  · obtain ⟨raw, hraw⟩ := Option.isSome_iff_exists.mp (Finmap.lookup_isSome.mpr hm)
    exact ⟨raw, (Finmap.lookup_union_right hn).trans hraw, by simp [sketchAt, hraw]⟩
  · refine ⟨_, (Finmap.lookup_union_left (Finmap.mem_of_lookup_eq_some hl)).trans hl, ?_⟩
    rw [sketchAt, Finmap.lookup_eq_none.mpr hn, Sketch.fromBytes_bytes]

/-- The locking read: it returns the latest version, or the transaction fails. -/
theorem Inv.advance_lock {k : UniqueKey} {todo : List UniqueKey}
    (hphase : t.phase = .folding (k :: todo) .lock) (h : Inv c st w t)
    (hact : (t.advance c st w).Active) : Inv c st w (t.advance c st w) := by
  obtain ⟨hok, rowsDone, groupsDone, keysDone, hp, hph⟩ := h
  simp only [AtPhase, hphase] at hph
  obtain ⟨horder, hg, hkeys, hst⟩ := hph
  obtain ⟨hens, hlk⟩ : Ensured st t k ∧ k ∉ t.locked := hst k rfl
  obtain ⟨raw, hraw, hdec⟩ := hens.lookup
  have hcur : t.current = some k := by simp [current, hphase]
  cases hs : Sketch.fromBytes raw with
  | error reason => simp [advance, hphase, hraw, hs, abort, Active] at hact
  | ok sketch =>
    have hp' := hp.with_phase (p := .folding (k :: todo) (.write sketch)) fun _ hc =>
      hcur.symm.trans hc
    simp only [advance, hphase, hraw, hs]
    refine ⟨hok.next (by simp [hphase]) rfl, rowsDone, groupsDone, keysDone, ?_, ?_⟩
    · refine { hp' with held := fun k' hk' => ?_ }
      by_cases he : k' = k
      · exact .inr (by simp [current, he])
      · exact hp'.held k' (hk'.imp id fun hm => (Finset.mem_insert.mp hm).resolve_left he)
    · refine ⟨horder, hg, hkeys, fun k' hk' => ?_⟩
      obtain rfl : k = k' := Option.some.inj hk'
      exact ⟨hens, hdec.symm.trans hs, Finset.mem_insert_self _ _⟩

/-- The update ends the round of its key. -/
theorem Inv.advance_write {k : UniqueKey} {todo : List UniqueKey} {sketch : Sketch}
    (hphase : t.phase = .folding (k :: todo) (.write sketch)) (h : Inv c st w t) :
    Inv c st w (t.advance c st w) := by
  obtain ⟨hok, rowsDone, groupsDone, keysDone, hp, hph⟩ := h
  simp only [AtPhase, hphase] at hph
  obtain ⟨horder, hg, hkeys, hst⟩ := hph
  obtain ⟨hens, hsk, hlk⟩ :
    Ensured st t k ∧ sketchAt st.uniques k = .ok sketch ∧ k ∈ t.locked := hst k rfl
  have hkeys' : uniqueKeys w.events = (keysDone ++ [k]) ++ todo := by
    rw [hkeys, List.append_assoc]
    rfl
  have hnd := nodup_uniqueKeys w.events
  rw [hkeys', List.nodup_append] at hnd
  have hcur : t.current = some k := by simp [current, hphase]
  simp only [advance, hphase]
  have hheld : ∀ k', ({ t with
      phase := .folding todo .ensure
      sketches := t.sketches.insert k (sketch.addAll (idsFor w.events k)).bytes } : Txn).HoldsSketch
        k' → k' ∈ keysDone ++ [k] := by
    intro k' hk'
    by_cases he : k' = k
    · exact List.mem_append_right _ (List.mem_singleton.mpr he)
    · have hold := hp.held k' (hk'.imp (fun hm => (Finmap.mem_insert.mp hm).resolve_left he) id)
      rw [hcur, Option.some.injEq] at hold
      exact List.mem_append_left _ (hold.resolve_right fun h => he h.symm)
  refine ⟨hok.next (by simp [hphase]) rfl, rowsDone, groupsDone, keysDone ++ [k], ?_, ?_⟩
  · refine ⟨hp.rows, hp.rolled, hp.mem_rolls, fun k' hk' => ?_, fun k' hk' => .inl (hheld k' hk')⟩
    by_cases he : k' = k
    · subst he
      exact ⟨sketch, hsk, Finmap.lookup_insert _⟩
    · have hkd : k' ∈ keysDone := by simpa [he] using hk'
      obtain ⟨s, hs, hl⟩ := hp.folded k' hkd
      exact ⟨s, hs, (Finmap.lookup_insert_of_ne _ he).trans hl⟩
  · refine ⟨horder, hg, hkeys', fun k' hk' => ?_⟩
    have hfree := fun hh => hnd.2.2 k' (hheld k' hh) k' (List.mem_of_mem_head? hk') rfl
    exact ⟨fun hm => hfree (.inl hm), fun hm => hfree (.inr hm)⟩

/-- **The invariant is kept by every action of the transaction** that does not fail. -/
theorem Inv.advance (h : Inv c st w t) (hact : (t.advance c st w).Active) :
    Inv c st w (t.advance c st w) := by
  cases hphase : t.phase with
  | start =>
    obtain ⟨hok, rowsDone, groupsDone, keysDone, hp, hph⟩ := h
    simp only [AtPhase, hphase] at hph
    obtain ⟨rfl, rfl, rfl⟩ := hph
    simp only [Txn.advance, hphase] at hact ⊢
    split_ifs at hact ⊢ with href
    · exact absurd hact id
    · have hcur : t.current = none := by simp [current, hphase]
      exact ⟨⟨fun _ => by simpa using href, hok.rows⟩, [], [], [], hp.with_phase (by simp [hcur]),
        ⟨rfl, rfl, rfl⟩⟩
  | inserting todo =>
    cases todo with
    | nil =>
      obtain ⟨hok, rowsDone, groupsDone, keysDone, hp, hph⟩ := h
      simp only [AtPhase, hphase, List.append_nil] at hph
      obtain ⟨horder, rfl, rfl⟩ := hph
      have hcur : t.current = none := by simp [current, hphase]
      simp only [Txn.advance, hphase]
      exact ⟨hok.next (by simp [hphase]) rfl, rowsDone, [], [], hp.with_phase (by simp [hcur]),
        ⟨horder, rfl, rfl⟩⟩
    | cons r todo => exact h.advance_inserting hphase hact
  | rolling todo =>
    cases todo with
    | nil =>
      obtain ⟨hok, rowsDone, groupsDone, keysDone, hp, hph⟩ := h
      simp only [AtPhase, hphase, List.append_nil] at hph
      obtain ⟨horder, hg, rfl⟩ := hph
      have hcur : t.current = none := by simp [current, hphase]
      have hfree : ∀ k, ¬ t.HoldsSketch k := fun k hk => by simpa [hcur] using hp.held k hk
      simp only [Txn.advance, hphase]
      exact ⟨hok.next (by simp [hphase]) rfl, rowsDone, groupsDone, [],
        hp.with_phase (by simp [hcur]), ⟨horder, hg, rfl, fun k _ =>
          ⟨fun hm => hfree k (.inl hm), fun hm => hfree k (.inr hm)⟩⟩⟩
    | cons g todo => exact h.advance_rolling hphase
  | folding todo stage =>
    cases todo with
    | nil => simpa only [Txn.advance, hphase] using h
    | cons k todo =>
      cases stage with
      | ensure => exact h.advance_ensure hphase
      | lock => exact h.advance_lock hphase hact
      | write sketch => exact h.advance_write hphase
  | committed => simpa only [Txn.advance, hphase] using h
  | aborted => simpa only [Txn.advance, hphase] using h

/-! ## Exclusion -/

/-- A transaction that takes a row takes one nobody holds. -/
theorem Exclusive.advance (h : Exclusive t u) (hfree : ¬ t.conflicts u) (ht : Inv c st w t)
    (hu : Inv c st w' u) : Exclusive (t.advance c st w) u := by
  cases hphase : t.phase with
  | start =>
    simp only [Txn.advance, hphase]
    split_ifs
    exacts [⟨h.rows, h.rolls, h.sketches⟩, ⟨h.rows, h.rolls, h.sketches⟩]
  | inserting todo =>
    cases todo with
    | nil => simpa only [Txn.advance, hphase] using ⟨h.rows, h.rolls, h.sketches⟩
    | cons r todo =>
      simp only [conflicts, hphase] at hfree
      simp only [Txn.advance, hphase]
      split_ifs
      · exact ⟨h.rows, h.rolls, h.sketches⟩
      · exact ⟨h.rows, h.rolls, h.sketches⟩
      · refine ⟨fun r' hr' => ?_, h.rolls, h.sketches⟩
        rcases List.mem_append.mp hr' with hm | hm
        · exact h.rows r' hm
        · rwa [List.mem_singleton.mp hm]
  | rolling todo =>
    cases todo with
    | nil => simpa only [Txn.advance, hphase] using ⟨h.rows, h.rolls, h.sketches⟩
    | cons g todo =>
      simp only [conflicts, hphase] at hfree
      simp only [Txn.advance, hphase]
      refine ⟨h.rows, fun k hk => ?_, h.sketches⟩
      rcases Finmap.mem_insert.mp hk with rfl | hm
      exacts [hfree, h.rolls k hm]
  | folding todo stage =>
    cases todo with
    | nil => simpa only [Txn.advance, hphase] using h
    | cons k todo =>
      cases stage with
      | ensure =>
        simp only [conflicts, hphase] at hfree
        simp only [Txn.advance, hphase]
        refine ⟨h.rows, h.rolls, fun k' hk' hu' => ?_⟩
        dsimp only [HoldsSketch] at hk'
        split_ifs at hk' with hm
        · exact h.sketches k' hk' hu'
        · rw [Finmap.mem_insert, or_assoc] at hk'
          rcases hk' with rfl | hk'
          · rw [Finmap.mem_union, not_or] at hm
            rcases hu' with hs | hl
            · exact hfree hs
            · exact (hu.mem_of_locked hl).elim hfree hm.2
          · exact h.sketches k' hk' hu'
      | lock =>
        simp only [conflicts, hphase] at hfree
        simp only [Txn.advance, hphase]
        split
        · exact ⟨h.rows, h.rolls, h.sketches⟩
        · split
          · exact ⟨h.rows, h.rolls, h.sketches⟩
          · refine ⟨h.rows, h.rolls, fun k' hk' hu' => ?_⟩
            dsimp only [HoldsSketch] at hk'
            rw [Finset.mem_insert, or_left_comm] at hk'
            rcases hk' with rfl | hk'
            exacts [hfree hu', h.sketches k' hk' hu']
      | write sketch =>
        simp only [Txn.advance, hphase]
        refine ⟨h.rows, h.rolls, fun k' hk' hu' => ?_⟩
        dsimp only [HoldsSketch] at hk'
        rw [Finmap.mem_insert, or_assoc] at hk'
        rcases hk' with rfl | hk'
        · exact h.sketches _ (.inr (ht.mem_locked_of_write hphase)) hu'
        · exact h.sketches k' hk' hu'
  | committed => simpa only [Txn.advance, hphase] using h
  | aborted => simpa only [Txn.advance, hphase] using h

/-! ## The commit -/

/-- The rollup rows of a finished transaction, over the committed ones. -/
theorem Progress.rolls_union {keysDone : List UniqueKey} {rowsDone : List Row}
    (h : Progress st w t rowsDone (groupCount Row.countKey c.countLe t.rows) keysDone) :
    t.rolls ∪ st.counts = upsertAll st.counts (groupCount Row.countKey c.countLe t.rows) := by
  refine Finmap.ext_lookup fun k => ?_
  by_cases hk : k ∈ (groupCount Row.countKey c.countLe t.rows).map Prod.fst
  · obtain ⟨g, hg, rfl⟩ := List.mem_map.mp hk
    have hl := h.rolled g hg
    rw [lookup_upsertAll_of_mem _ (nodup_groupCount _ _ _) hg,
      Finmap.lookup_union_left (Finmap.mem_of_lookup_eq_some hl), hl]
  · rw [lookup_upsertAll_of_not_mem _ hk,
      Finmap.lookup_union_right fun hm => hk (h.mem_rolls k hm)]

/-- The sketch rows of a finished transaction, over the committed ones. -/
theorem Progress.folded_union {rowsDone : List Row} {groupsDone : List (CountKey × ℕ)}
    (h : Progress st w t rowsDone groupsDone (uniqueKeys w.events)) (hcur : t.current = none) :
    Folded st.uniques w.events (t.sketches ∪ st.uniques) := by
  intro k
  constructor
  · intro hnil
    refine Finmap.lookup_union_right fun hm => ?_
    have hkey := (h.held k (.inl hm)).resolve_right (by simp [hcur])
    exact mem_uniqueKeys.mp hkey hnil
  · intro hne
    obtain ⟨s, hs, hl⟩ := h.folded k (mem_uniqueKeys.mpr hne)
    exact ⟨s, hs, (Finmap.lookup_union_left (Finmap.mem_of_lookup_eq_some hl)).trans hl⟩

/-- At its commit a transaction has inserted the rows that are new to the committed tables. -/
theorem Inv.rows_eq {stage : Stage} (h : Inv c st w t) (hphase : t.phase = .folding [] stage) :
    t.rows = fresh Row.eventId st.events w.order := by
  obtain ⟨-, rowsDone, groupsDone, keysDone, hp, hph⟩ := h
  simp only [AtPhase, hphase] at hph
  rw [hp.rows, hph.1]

/-- Postgres accepts a batch that comes to its commit. -/
theorem Inv.accepts {stage : Stage} (h : Inv c st w t) (hphase : t.phase = .folding [] stage) :
    c.Accepts st w.events w.order where
  events := h.1.events (by simp [hphase])
  rows := by
    rw [← h.rows_eq hphase]
    exact h.1.rows

/-- **A commit has the effect of the batch** on the tables it commits to. -/
theorem Inv.applied {stage : Stage} (h : Inv c st w t) (hphase : t.phase = .folding [] stage) :
    Applied c st w.order w.events (st.commit t) := by
  obtain ⟨-, rowsDone, groupsDone, keysDone, hp, hph⟩ := h
  simp only [AtPhase, hphase, List.append_nil] at hph
  obtain ⟨rfl, rfl, rfl, -⟩ := hph
  refine ⟨?_, ?_, hp.folded_union (by simp [current, hphase])⟩
  · rw [← hp.rows]
    rfl
  · rw [← hp.rows]
    exact hp.rolls_union

end Txn

end Tally
