import Tally.Pipeline.Conservation
import Tally.Queue.Delivery

/-!
# Two backends, one ledger

What the service is, whichever the queue: a ledger of the events that were accepted and of those of
them that are stored. It grows in two ways, an event is accepted, or accepted events are stored, and
nothing is ever taken out. The process with the queue in memory and the processes around a topic are
mapped to ledgers by their tables, and each of their steps does to its ledger nothing, or what a
ledger can do. So whatever they drop, lose, retry or insert twice, the tables describe a set of
accepted events that only grows; and when each backend has stored what it accepted, the two cannot
be told apart by their tables.

## Main definitions

* `Ledger`, `Ledger.Step`: the events accepted and stored
* `Ledger.ofTables`: the ledger of accepted events and tables
* `MemoryPipeline.ledger`, `Delivery.ledger`: the ledgers of the two backends

## Main results

* `MemoryPipeline.Reachable.fed`, `Delivery.Inv.fed`: the tables are fed accepted events
* `backends_refine_ledger`: every run of either backend is a run of its ledger
* `backends_agree`: what the tables and the queries say in the end, with either backend
-/

namespace Tally

/-! ## Ledgers -/

/-- The events that were accepted, and those that are stored. -/
structure Ledger where
  accepted : Set Event
  stored : Set Event

namespace Ledger

/-- An event is accepted, or accepted events are stored. -/
inductive Step (l : Ledger) : Ledger → Prop
  | accept (e : Event) : Step l { l with accepted := insert e l.accepted }
  | store (more : Set Event) (accepted : more ⊆ l.accepted) :
      Step l { l with stored := l.stored ∪ more }

/-- The ledger of accepted events and tables: stored are those whose ids are. -/
def ofTables (accepted : Set Event) (st : Store) : Ledger :=
  ⟨accepted, {e | e ∈ accepted ∧ e.eventId ∈ st.ids}⟩

variable {accepted : Set Event} {st st' : Store}

/-- One more event is accepted: it is none that is stored already, or is accepted again. -/
theorem steps_accept {e : Event} (hstored : ∀ id ∈ st.ids, ∃ e' ∈ accepted, e'.eventId = id)
    (hinj : (insert e accepted).InjOn Event.eventId) :
    Relation.ReflTransGen Step (ofTables accepted st) (ofTables (insert e accepted) st) := by
  by_cases hid : e.eventId ∈ st.ids
  · obtain ⟨e', he', hee⟩ := hstored e.eventId hid
    obtain rfl := hinj (Set.mem_insert_of_mem e he') (Set.mem_insert e accepted) hee
    rw [Set.insert_eq_of_mem he']
  · have hsame : {x | x ∈ insert e accepted ∧ x.eventId ∈ st.ids} =
        {x | x ∈ accepted ∧ x.eventId ∈ st.ids} := by
      refine Set.ext fun x => ⟨?_, fun hx => ⟨Set.mem_insert_of_mem e hx.1, hx.2⟩⟩
      rintro ⟨rfl | hx, hxid⟩
      · exact absurd hxid hid
      · exact ⟨hx, hxid⟩
    rw [ofTables, ofTables, hsame]
    exact .single (.accept e)

/-- Rows join the tables. -/
theorem steps_store (h : ∀ id ∈ st.ids, id ∈ st'.ids) :
    Relation.ReflTransGen Step (ofTables accepted st) (ofTables accepted st') := by
  have hunion : {e | e ∈ accepted ∧ e.eventId ∈ st'.ids} =
      {e | e ∈ accepted ∧ e.eventId ∈ st.ids} ∪ {e | e ∈ accepted ∧ e.eventId ∈ st'.ids} := by
    refine (Set.union_eq_self_of_subset_left fun e he => ?_).symm
    exact ⟨he.1, h e.eventId he.2⟩
  rw [ofTables, ofTables, hunion]
  exact .single (.store _ fun e he => he.1)

end Ledger

/-! ## The queue in memory -/

namespace MemoryPipeline

variable {p : Pool} {c : Postgres} {size : ℕ} {st : Store} {s s' : MemoryPipeline p}

/-- The ledger of the process. -/
def ledger (s : MemoryPipeline p) : Ledger := .ofTables {e | e ∈ s.accepted} s.store

/-- A worker holds accepted events only. -/
theorem Inv.accepted_of_mem_batch (h : s.Inv) {i : Fin p.workers} {e : Event}
    (he : e ∈ (s.workers i).batch) : e ∈ s.accepted := by
  have hheld : e ∈ s.held := Multiset.mem_sum.mpr ⟨i, Finset.mem_univ i, he⟩
  rw [← Multiset.mem_coe, h.conserved]
  exact Multiset.mem_add.mpr (.inl (Multiset.mem_add.mpr (.inr hheld)))

/-- What a step does to the tables and to what is accepted: one of the two, or neither. -/
theorem Step.changes (hstep : Step c size s s') (h : s.Inv) :
    (s'.store = s.store ∧ (s'.accepted = s.accepted ∨ ∃ e, s'.accepted = s.accepted ++ [e])) ∨
      (s'.accepted = s.accepted ∧ Fed c (· ∈ s.accepted) s.store s'.store) := by
  have hbatch : ∀ {i batch n last}, s.workers i = .flushing batch n last →
      ∀ e ∈ batch, e ∈ s.accepted := fun hworker e he =>
    h.accepted_of_mem_batch (by rw [hworker]; exact he)
  cases hstep with
  | send door e => exact .inl ⟨rfl, .inr ⟨e, rfl⟩⟩
  | handoff door e => exact .inl ⟨rfl, .inr ⟨e, rfl⟩⟩
  | flushOk i batch n last k st worker attempt =>
    exact .inr ⟨rfl, attempt.fed fun _ => hbatch worker⟩
  | flushRetry i batch n last st worker attempt again =>
    exact .inr ⟨rfl, attempt.fed fun _ => hbatch worker⟩
  | flushDrop i batch n last st worker attempt stop =>
    exact .inr ⟨rfl, attempt.fed fun _ => hbatch worker⟩
  | _ => exact .inl ⟨rfl, .inl rfl⟩

theorem Step.accepted_subset (hstep : Step c size s s') (h : s.Inv) {e : Event}
    (he : e ∈ s.accepted) : e ∈ s'.accepted := by
  rcases hstep.changes h with ⟨-, heq | ⟨e', heq⟩⟩ | ⟨heq, -⟩
  · rwa [heq]
  · rw [heq]
    exact List.mem_append_left _ he
  · rwa [heq]

/-- **The tables are fed accepted events**, and no others. -/
theorem Reachable.fed (h : Reachable c size st s) : Fed c (· ∈ s.accepted) st s.store := by
  induction h with
  | refl => exact .refl c _ st
  | tail hreach hstep ih =>
    have hinv := Reachable.inv hreach
    have hmono := ih.mono fun _ => hstep.accepted_subset hinv
    rcases hstep.changes hinv with ⟨hstore, -⟩ | ⟨haccepted, hfed⟩
    · rwa [hstore]
    · rw [haccepted] at hmono ⊢
      exact hmono.trans hfed

/-- When `Wait` has returned, the accepted events are stored if no batch was dropped. -/
theorem Inv.mem_ids_of_done (h : s.Inv) (hdone : s.main = .done)
    (hkept : ∀ f ∈ s.flushes, f.2.err = false) {e : Event} (he : e ∈ s.accepted) :
    e.eventId ∈ s.store.ids := by
  have hexit := h.done hdone
  have hbuf : s.buf = [] := (h.drained ⟨0, p.workers_pos⟩ (by rw [hexit]; trivial)).2
  have hheld : s.held = 0 := by simp [held, hexit, Worker.batch]
  rw [← Multiset.mem_coe, h.conserved, hbuf, hheld, Multiset.coe_nil, zero_add, zero_add] at he
  obtain ⟨f, hf, hef⟩ := List.mem_flatMap.mp he
  exact (h.flushes f hf).2.2.2 (hkept f hf) e hef

/-- **A step of the process does to its ledger what a ledger can do.** -/
theorem Step.refines (hreach : Reachable c size .empty s) (hstep : Step c size s s')
    (hinj : {e | e ∈ s'.accepted}.InjOn Event.eventId) :
    Relation.ReflTransGen Ledger.Step s.ledger s'.ledger := by
  have hstored : ∀ id ∈ s.store.ids, ∃ e ∈ {e | e ∈ s.accepted}, e.eventId = id := fun id hid =>
    (hreach.fed.mem_ids hid).resolve_left List.not_mem_nil
  unfold ledger
  rcases hstep.changes hreach.inv with ⟨hstore, heq | ⟨e, heq⟩⟩ | ⟨heq, hfed⟩
  · rw [hstore, heq]
  · have hinsert : {x | x ∈ s'.accepted} = insert e {x | x ∈ s.accepted} := by
      ext x
      simp [heq, or_comm]
    rw [hinsert] at hinj
    rw [hstore, hinsert]
    exact Ledger.steps_accept hstored hinj
  · rw [heq]
    exact Ledger.steps_store fun id => hfed.ids_subset

/-- **A run of the process is a run of its ledger.** -/
theorem Reachable.refines (hreach : Reachable c size .empty s)
    (hrun : Relation.ReflTransGen (Step c size) s s')
    (hinj : {e | e ∈ s'.accepted}.InjOn Event.eventId) :
    Relation.ReflTransGen Ledger.Step s.ledger s'.ledger := by
  induction hrun with
  | refl => exact .refl
  | tail hrun hstep ih =>
    have hmid : Reachable c size .empty _ := hreach.trans hrun
    have hmono := hinj.mono fun _ => hstep.accepted_subset hmid.inv
    exact (ih hmono).trans (hstep.refines hmid hinj)

end MemoryPipeline

/-! ## The topic -/

theorem IngestProcess.Step.returned {conv : Conversions} {topic : String} {maxBuf : ℕ}
    {fits : ProduceRecord → Bool} {s s' : IngestProcess} {written : Option ProduceRecord}
    (hstep : IngestProcess.Step conv topic maxBuf fits s written s') :
    s'.producer.returned = s.producer.returned ∨
      ∃ x, s'.producer.returned = s.producer.returned ++ [x] := by
  cases hstep with
  | call after step kept isOpen decoded =>
    cases step with
    | check => exact .inl rfl
    | block => exact .inl rfl
    | complete => exact .inl rfl
    | _ => exact .inr ⟨_, rfl⟩
  | late => exact .inr ⟨_, rfl⟩
  | lateBlocked => exact .inr ⟨_, rfl⟩
  | _ => exact .inl rfl

namespace Delivery

variable {κ ι π : Type*} [DecidableEq κ] [DecidableEq ι] [DecidableEq π] {u : Setup π}
  {s s' : Delivery κ ι π}

/-- The events some process has accepted. -/
def accepted (s : Delivery κ ι π) : Set Event := {e | ∃ k, (s.ingest k).Accepted e}

/-- The ledger of the processes. -/
def ledger (s : Delivery κ ι π) : Ledger := .ofTables s.accepted s.broker.store

omit [DecidableEq κ] in
/-- **The tables are fed accepted events**, and no others. -/
theorem Inv.fed (h : s.Inv u) : Fed u.postgres (· ∈ s.accepted) .empty s.broker.store :=
  h.broker.fed.mono fun _ he => h.accepted_of_onTopic he.onTopic

omit [DecidableEq ι] [DecidableEq π] in
/-- A process that answers one more call has accepted at most one more event. -/
theorem accepted_update {k : κ} {after : IngestProcess} {b : Broker ι π}
    (h : after.producer.returned = (s.ingest k).producer.returned ∨
      ∃ x, after.producer.returned = (s.ingest k).producer.returned ++ [x]) :
    (⟨Function.update s.ingest k after, b⟩ : Delivery κ ι π).accepted = s.accepted ∨
      ∃ e, (⟨Function.update s.ingest k after, b⟩ : Delivery κ ι π).accepted =
        insert e s.accepted := by
  have hupdate : ∀ e, e ∈ (⟨Function.update s.ingest k after, b⟩ : Delivery κ ι π).accepted ↔
      after.Accepted e ∨ ∃ j, j ≠ k ∧ (s.ingest j).Accepted e := fun e =>
    Function.exists_update_iff s.ingest fun _ t => t.Accepted e
  have hold : ∀ e, e ∈ s.accepted ↔
      (s.ingest k).Accepted e ∨ ∃ j, j ≠ k ∧ (s.ingest j).Accepted e := fun e => by
    have hself :=
      Function.exists_update_iff (a := k) (b := s.ingest k) s.ingest fun _ t => t.Accepted e
    rwa [Function.update_eq_self] at hself
  rcases h with heq | ⟨⟨e, res⟩, heq⟩
  · refine .inl (Set.ext fun e => ?_)
    rw [hupdate, hold, IngestProcess.Accepted, heq, IngestProcess.Accepted]
  · cases res with
    | some err =>
      refine .inl (Set.ext fun e' => ?_)
      rw [hupdate, hold, IngestProcess.Accepted, heq, IngestProcess.Accepted]
      simp
    | none =>
      refine .inr ⟨e, Set.ext fun e' => ?_⟩
      rw [hupdate, Set.mem_insert_iff, hold, IngestProcess.Accepted, heq, IngestProcess.Accepted,
        List.mem_append, List.mem_singleton, Prod.mk.injEq]
      tauto

/-- **A step of the processes does to their ledger what a ledger can do.** -/
theorem Step.refines (hreach : Reachable u s) (hstep : Step u s s')
    (hinj : s'.accepted.InjOn Event.eventId) :
    Relation.ReflTransGen Ledger.Step s.ledger s'.ledger := by
  have hinv := hreach.inv
  cases hstep with
  | ingest k written after step =>
    have hstore : (s.broker.write u.partition written).store = s.broker.store := by
      cases written <;> rfl
    unfold ledger
    dsimp only at hinj ⊢
    rw [hstore]
    rcases accepted_update step.returned with heq | ⟨e, heq⟩
    · rw [heq]
    · rw [heq] at hinj ⊢
      exact Ledger.steps_accept
        (fun id hid => (hinv.fed.mem_ids hid).resolve_left List.not_mem_nil) hinj
  | consume after step quiet =>
    exact Ledger.steps_store fun id => (step.fed hinv.broker.below).ids_subset

theorem Step.accepted_subset (hstep : Step u s s') {e : Event} (he : e ∈ s.accepted) :
    e ∈ s'.accepted := by
  cases hstep with
  | ingest k written after step =>
    rcases accepted_update step.returned with heq | ⟨e', heq⟩
    · rwa [heq]
    · rw [heq]
      exact Set.mem_insert_of_mem e' he
  | consume after step quiet => exact he

/-- **A run of the processes is a run of their ledger.** -/
theorem Reachable.refines (hreach : Reachable u s) (hrun : Relation.ReflTransGen (Step u) s s')
    (hinj : s'.accepted.InjOn Event.eventId) :
    Relation.ReflTransGen Ledger.Step s.ledger s'.ledger := by
  induction hrun with
  | refl => exact .refl
  | tail hrun hstep ih =>
    have hmid : Reachable u _ := hreach.trans hrun
    exact (ih (hinj.mono fun _ => hstep.accepted_subset)).trans (hstep.refines hmid hinj)

end Delivery

/-! ## Both backends -/

/-- **Both backends refine the ledger.** From every state that either can reach on empty tables, in
every further run, however calls, workers, retries, drops, kills, rebalances and replays interleave:
the ledger goes where a ledger can go, so an accepted event stays accepted and a stored one stored,
and the tables describe exactly the events the ledger has as stored, all of them accepted. An id is
taken to determine its event. -/
theorem backends_refine_ledger :
    (∀ (p : Pool) (c : Postgres) (size : ℕ) (s s' : MemoryPipeline p),
      MemoryPipeline.Reachable c size .empty s →
      Relation.ReflTransGen (MemoryPipeline.Step c size) s s' →
      {e | e ∈ s'.accepted}.InjOn Event.eventId →
      Relation.ReflTransGen Ledger.Step s.ledger s'.ledger ∧
        s'.store.Describes s'.ledger.stored) ∧
    ∀ (κ ι π : Type) [DecidableEq κ] [DecidableEq ι] [DecidableEq π] (u : Delivery.Setup π)
      (s s' : Delivery κ ι π), Delivery.Reachable u s →
      Relation.ReflTransGen (Delivery.Step u) s s' → s'.accepted.InjOn Event.eventId →
      Relation.ReflTransGen Ledger.Step s.ledger s'.ledger ∧
        s'.broker.store.Describes s'.ledger.stored := by
  refine ⟨fun p c size s s' hreach hrun hinj => ⟨hreach.refines hrun hinj, ?_⟩,
    fun κ ι π _ _ _ u s s' hreach hrun hinj => ⟨hreach.refines hrun hinj, ?_⟩⟩
  · have hreach' : MemoryPipeline.Reachable c size .empty s' := hreach.trans hrun
    exact hreach'.fed.describes hinj
  · have hreach' : Delivery.Reachable u s' := hreach.trans hrun
    exact hreach'.inv.fed.describes hinj

/-- A click is accepted, and stored before the process has shut down. -/
theorem exists_done_click :
    ∃ s : MemoryPipeline (.new ⟨1, 2, 0⟩), MemoryPipeline.Reachable .bytewise 10 .empty s ∧
      s.main = .done ∧ s.accepted = [epochClick] ∧ ∀ f ∈ s.flushes, f.2.err = false := by
  have htakes : Postgres.bytewise.Takes epochClick := by decide +kernel
  obtain ⟨st, n, hst⟩ := exists_insertBatch_eq_ok (Batch.accepts_single htakes _) allDecode_empty
  let p : Pool := .new ⟨1, 2, 0⟩
  let i : Fin p.workers := ⟨0, p.workers_pos⟩
  have hone : ∀ j : Fin p.workers, j = i := fun j => Subsingleton.elim (α := Fin 1) j i
  have hsent : MemoryPipeline.Reachable .bytewise 10 .empty
      (⟨[epochClick], 0, fun _ => .waiting [], .serving, .empty, [epochClick], []⟩ :
        MemoryPipeline p) :=
    .tail (.single (.check .http epochClick rfl (by simp)))
      (.send .http epochClick 0 rfl rfl (by decide))
  have hclosed := (((hsent.tail (.httpStop rfl)).tail (.grpcStop rfl (by simp))).tail
    (.setFlag rfl)).tail (.closeChan rfl)
  have hreceived := hclosed.tail (.receive i [] epochClick [] rfl rfl)
  have hdrained := hreceived.tail (.drained i [epochClick] rfl rfl rfl)
  have hflushed := hdrained.tail
    (.flushOk i [epochClick] 1 true n st rfl (.ok (.single _ epochClick) rfl hst))
  have hdone := hflushed.tail (.wait rfl fun j => by
    rw [hone j]
    rfl)
  refine ⟨_, hdone, rfl, rfl, fun f hf => ?_⟩
  obtain rfl := List.mem_singleton.mp hf
  rfl

/-- The run of the process with one click, and that of a click on the way to the topic. -/
theorem backends_refine_ledger_click :
    (∃ s : MemoryPipeline (.new ⟨1, 2, 0⟩), s.accepted = [epochClick] ∧
      Relation.ReflTransGen Ledger.Step (MemoryPipeline.init (.new ⟨1, 2, 0⟩) .empty).ledger
        s.ledger ∧
      s.store.Describes s.ledger.stored) ∧
    ∃ s : Delivery Unit Unit Unit, s.accepted = {epochClick} ∧
      Relation.ReflTransGen Ledger.Step (Delivery.init Unit Unit Unit).ledger s.ledger ∧
      s.broker.store.Describes s.ledger.stored := by
  constructor
  · obtain ⟨s, hs, -, haccepted, -⟩ := exists_done_click
    refine ⟨s, haccepted, backends_refine_ledger.1 _ .bytewise 10 _ s .refl hs ?_⟩
    simp [haccepted]
  · obtain ⟨s, hs, hreturned, -, -⟩ := exists_reachable_click
    have haccepted : s.accepted = {epochClick} := by
      ext e
      simp [Delivery.accepted, IngestProcess.Accepted, hreturned]
    refine ⟨s, haccepted, backends_refine_ledger.2 _ _ _ epochSetup _ s .refl hs ?_⟩
    simp [haccepted]

/-- **The backends cannot be told apart in the end.** A process with the queue in memory that has
shut down without dropping a batch, and processes around a topic that is drained and of which no
record was lost, that have accepted the same events, however often and in whatever order: the tables
describe the accepted events, they are the same but for the order of the rows, and for a name
without a U+0000 the queries answer with the number of accepted events of the day and with the
estimate for their users. -/
theorem backends_agree {p : Pool} {c : Postgres} {size : ℕ} {s : MemoryPipeline p}
    (hs : MemoryPipeline.Reachable c size .empty s) (hdone : s.main = .done)
    (hkept : ∀ f ∈ s.flushes, f.2.err = false)
    {κ ι π : Type*} [DecidableEq κ] [DecidableEq ι] [DecidableEq π] {u : Delivery.Setup π}
    {d : Delivery κ ι π} (hd : Delivery.Reachable u d)
    (hempty : ∀ k, (d.ingest k).producer.buffered = 0) (hlost : ∀ k, (d.ingest k).lost = 0)
    (hdrained : d.broker.Drained) (hsame : ∀ e, e ∈ s.accepted ↔ ∃ k, (d.ingest k).Accepted e)
    (hinj : {e | e ∈ s.accepted}.InjOn Event.eventId) :
    s.store.Describes {e | e ∈ s.accepted} ∧
    (s.store.events.Perm d.broker.store.events ∧ s.store.counts = d.broker.store.counts ∧
      s.store.uniques = d.broker.store.uniques) ∧
    ∀ st ∈ [s.store, d.broker.store], ∀ tz now name, containsNul name = false →
      countToday tz now st name =
        .ok {e ∈ {e | e ∈ s.accepted} | e.name = name ∧ tz.dayStart now ≤ e.toRow.ts}.ncard ∧
      ∃ sketch : Hll.Sketch,
        sketch.IsOf (usersOf {e | e ∈ s.accepted} ⟨name, tz.currentDate now⟩) ∧
        uniquesToday Hll.Sketch.estimate tz now st name = .ok sketch.estimate := by
  have hmemory : s.store.Describes {e | e ∈ s.accepted} :=
    hs.fed.describes_all hinj fun e => hs.inv.mem_ids_of_done hdone hkept
  have htopic : d.broker.store.Describes {e | e ∈ s.accepted} := by
    have haccepted : {e | e ∈ s.accepted} = d.accepted := Set.ext hsame
    rw [haccepted] at hinj ⊢
    refine hd.inv.fed.describes_all hinj fun e ⟨k, he⟩ => ?_
    exact (hd.inv.mem_ids_iff hempty hlost hdrained e.eventId).mpr ⟨k, e, he, rfl⟩
  refine ⟨hmemory, hmemory.unique htopic, fun st hst tz now name hname => ?_⟩
  have hst' : st.Describes {e | e ∈ s.accepted} := by
    rcases List.mem_pair.mp hst with rfl | rfl
    · exact hmemory
    · exact htopic
  exact ⟨hst'.countToday_eq tz now hname, hst'.uniquesToday_eq tz now hname⟩

/-- The same click, through the queue in memory and over the topic. -/
theorem backends_agree_click :
    ∃ (s : MemoryPipeline (.new ⟨1, 2, 0⟩)) (d : Delivery Unit Unit Unit),
      MemoryPipeline.Reachable .bytewise 10 .empty s ∧ Delivery.Reachable epochSetup d ∧
      s.accepted = [epochClick] ∧ s.store.counts = d.broker.store.counts := by
  obtain ⟨s, hs, hdone, haccepted, hkept⟩ := exists_done_click
  obtain ⟨d₀, hd₀, hreturned, hlost, hall⟩ := exists_reachable_click
  obtain ⟨d, hd, hempty, hdrained⟩ := hd₀.completes (by decide) hall
  have hagree := backends_agree hs hdone hkept (hd₀.trans hd.run) hempty
    (fun k => (hd.lost k).trans hlost) hdrained
    (by simp [haccepted, IngestProcess.Accepted, hd.returned, hreturned]) (by simp [haccepted])
  exact ⟨s, d, hs, hd₀.trans hd.run, haccepted, hagree.2.1.2.1⟩

end Tally
