import Tally.Ingest.Query
import Tally.Loadgen.Report
import Tally.Queue.Delivery
import Tally.Store.Today

/-!
# The chaos demonstration

`scripts/chaos.sh` runs the load generator against an ingest process in Kafka mode, kills a worker
on the way and starts another, and compares in the end what the load generator counted as sent with
the answer of `/v1/counts`. Here both are put together, for any number of ingest processes and
consumers and any kills: the calls the processes serve are posts of the load generator, and a post
is answered with success only for an event that was accepted.

## Main definitions

* `Chaos`, `Chaos.Step`, `Chaos.Reachable`: the load generator, the processes, and their runs
* `storedText`, `sentText`: the texts the script compares

## Main results

* `IngestProcess.Step.origin`: what a process accepts and where it comes from
* `Chaos.Reachable.inv`: the processes accept posts of the load generator only
* `chaos_count`: what the demonstration compares, and when it is equal
* `storedText_getCount`: what the script takes for the count
* `chaos_script_mismatch`: the texts it compares are never equal
-/

namespace Tally

/-! ## What the steps leave alone -/

/-- What a step accepts was called for, and what it blocks too. -/
theorem IngestProcess.Step.origin {conv : Conversions} {topic : String} {maxBuf : ℕ}
    {fits : ProduceRecord → Bool} {s s' : IngestProcess} {written : Option ProduceRecord}
    (hstep : Step conv topic maxBuf fits s written s') :
    (∀ e, s'.Accepted e →
      s.Accepted e ∨ e ∈ s.producer.calls ∨ ∃ x ∈ s.producer.blocked, x.1 = e) ∧
    ∀ x ∈ s'.producer.blocked, x ∈ s.producer.blocked ∨ x.1 ∈ s.producer.calls := by
  have hlast : ∀ {e e' : Event} {res : Option EnqueueError},
      (e, none) ∈ s.producer.returned ++ [(e', res)] → s.Accepted e ∨ e = e' ∧ none = res := by
    intro e e' res h
    rcases List.mem_append.mp h with hold | hnew
    · exact .inl hold
    · exact .inr (Prod.mk.inj (List.mem_singleton.mp hnew))
  cases hstep with
  | call after step kept isOpen decoded =>
    cases step with
    | full e noRoom => exact ⟨fun e' he' => (hlast he').imp id nofun, fun _ => .inl⟩
    | check e room => exact ⟨fun _ => .inl, fun _ => .inl⟩
    | marshalError e calls call error =>
      exact ⟨fun e' he' => (hlast he').imp id nofun, fun _ => .inl⟩
    | produce e calls record call marshalled room =>
      refine ⟨fun e' he' => (hlast he').imp id fun heq => .inl ?_, fun _ => .inl⟩
      rw [heq.1, call]
      exact Multiset.mem_cons_self _ _
    | block e calls record call marshalled noRoom =>
      refine ⟨fun _ => .inl, fun x hx => ?_⟩
      rcases Multiset.mem_cons.mp hx with rfl | hold
      · exact .inr (call ▸ Multiset.mem_cons_self _ _)
      · exact .inl hold
    | unblock e record blocked waiting room =>
      refine ⟨fun e' he' => (hlast he').imp id fun heq => .inr ⟨(e, record), ?_, heq.1.symm⟩,
        fun x hx => .inl ?_⟩
      · rw [waiting]
        exact Multiset.mem_cons_self _ _
      · rw [waiting]
        exact Multiset.mem_cons_of_mem hx
    | complete record buffered held => exact ⟨fun _ => .inl, fun _ => .inl⟩
  | late e calls record isClosed call marshalled =>
    refine ⟨fun e' he' => (hlast he').imp id fun heq => .inl ?_, fun _ => .inl⟩
    rw [heq.1, call]
    exact Multiset.mem_cons_self _ _
  | lateBlocked e record blocked isClosed waiting =>
    refine ⟨fun e' he' => (hlast he').imp id fun heq => .inr ⟨(e, record), ?_, heq.1.symm⟩,
      fun x hx => .inl ?_⟩
    · rw [waiting]
      exact Multiset.mem_cons_self _ _
    · rw [waiting]
      exact Multiset.mem_cons_of_mem hx
  | kill => exact ⟨fun _ => .inl, fun x hx => absurd hx (Multiset.notMem_zero x)⟩
  | _ => exact ⟨fun _ => .inl, fun _ => .inl⟩

/-- The same, for every process of the system. -/
theorem Delivery.Step.origin {κ ι π : Type*} [DecidableEq κ] [DecidableEq ι] [DecidableEq π]
    {u : Setup π} {s s' : Delivery κ ι π} (hstep : Step u s s') (k : κ) :
    (∀ e, (s.ingest k).Accepted e → (s'.ingest k).Accepted e) ∧
    (∀ e, (s'.ingest k).Accepted e → (s.ingest k).Accepted e ∨
      e ∈ (s.ingest k).producer.calls ∨ ∃ x ∈ (s.ingest k).producer.blocked, x.1 = e) ∧
    ∀ x ∈ (s'.ingest k).producer.blocked,
      x ∈ (s.ingest k).producer.blocked ∨ x.1 ∈ (s.ingest k).producer.calls := by
  cases hstep with
  | ingest j written after step =>
    by_cases hj : k = j
    · subst hj
      simp only [Function.update_self]
      exact ⟨fun e => step.accepted, step.origin.1, step.origin.2⟩
    · simp only [Function.update_of_ne hj]
      exact ⟨fun _ => id, fun _ => .inl, fun _ => .inl⟩
  | consume after step quiet => exact ⟨fun _ => id, fun _ => .inl, fun _ => .inl⟩

/-- Jobs keep their ids. -/
theorem Loadgen.Step.ids_subset {σ : Type*} [DecidableEq σ] {dupes : ℤ} {s s' : Loadgen σ}
    (hstep : Step dupes s s') : s.jobs.map Job.id ⊆ s'.jobs.map Job.id := by
  intro id hid
  cases hstep with
  | take i id' idle fresh =>
    rw [List.map_append]
    exact List.mem_append_left _ hid
  | advance i k job job' input counts working current next =>
    have hself : s.jobs.set k job = s.jobs := by
      obtain ⟨hk, rfl⟩ := List.getElem?_eq_some_iff.mp current
      exact List.set_getElem_self hk
    rw [List.map_set, Job.id_advance next, ← List.map_set, hself]
    exact hid
  | finish i k job working current finished => exact hid
  | stop i idle => exact hid

/-! ## The demonstration -/

/-- The load generator, and the processes with the topic and the tables. -/
structure Chaos (σ κ ι π : Type*) where
  loadgen : Loadgen σ
  delivery : Delivery κ ι π

namespace Chaos

variable {σ κ ι π : Type*}

def init (σ κ ι π : Type*) : Chaos σ κ ι π := ⟨.init σ, .init κ ι π⟩

/-- The event is that of a job, with the name that all of them have. -/
def Posted (name : String) (s : Chaos σ κ ι π) (e : Event) : Prop :=
  e.name = name ∧ e.eventId ∈ s.loadgen.jobs.map Job.id

/-- A process has accepted an event of this id. -/
def AcceptedId (s : Chaos σ κ ι π) (id : String) : Prop :=
  ∃ k e, (s.delivery.ingest k).Accepted e ∧ e.eventId = id

/-- **What holds between the two sides**: the processes deal with posts, and the load generator is
told of accepted events. -/
structure Inv (name : String) (s : Chaos σ κ ι π) : Prop where
  calls : ∀ k, ∀ e ∈ (s.delivery.ingest k).producer.calls, s.Posted name e
  blocked : ∀ k, ∀ x ∈ (s.delivery.ingest k).producer.blocked, s.Posted name x.1
  accepted : ∀ k e, (s.delivery.ingest k).Accepted e → s.Posted name e
  told : ∀ id ∈ s.loadgen.acceptedIds, s.AcceptedId id

theorem inv_init (name : String) : (init σ κ ι π).Inv name where
  calls _ e he := absurd he (Multiset.notMem_zero e)
  blocked _ x hx := absurd hx (Multiset.notMem_zero x)
  accepted _ _ he := absurd he List.not_mem_nil
  told id hid := by simp [init, Loadgen.init, Loadgen.acceptedIds] at hid

variable [DecidableEq σ] [DecidableEq κ] [DecidableEq ι] [DecidableEq π]

/-- One step of either side. -/
inductive Step (u : Delivery.Setup π) (name : String) (dupes : ℤ) (s : Chaos σ κ ι π) :
    Chaos σ κ ι π → Prop
  /-- A sender goes on. A post is answered with success only if its event was accepted. -/
  | send (after : Loadgen σ) (step : Loadgen.Step dupes s.loadgen after)
      (told : ∀ id ∈ after.acceptedIds, id ∈ s.loadgen.acceptedIds ∨ s.AcceptedId id) :
      Step u name dupes s { s with loadgen := after }
  /-- A process or a consumer goes on. The calls that begin are posts. -/
  | serve (after : Delivery κ ι π) (step : Delivery.Step u s.delivery after)
      (posted : ∀ k, ∀ e ∈ (after.ingest k).producer.calls,
        e ∈ (s.delivery.ingest k).producer.calls ∨ s.Posted name e) :
      Step u name dupes s { s with delivery := after }

def Reachable (u : Delivery.Setup π) (name : String) (dupes : ℤ) (s : Chaos σ κ ι π) : Prop :=
  Relation.ReflTransGen (Step u name dupes) (init σ κ ι π) s

variable {u : Delivery.Setup π} {name : String} {dupes : ℤ} {s s' : Chaos σ κ ι π}

theorem Reachable.loadgen (h : Reachable u name dupes s) : s.loadgen.Reachable dupes := by
  induction h with
  | refl => exact .refl
  | tail _ hstep ih =>
    cases hstep with
    | send after step told => exact ih.tail step
    | serve after step posted => exact ih

theorem Reachable.delivery (h : Reachable u name dupes s) : s.delivery.Reachable u := by
  induction h with
  | refl => exact .refl
  | tail _ hstep ih =>
    cases hstep with
    | send after step told => exact ih
    | serve after step posted => exact ih.tail step

/-- **Every step keeps it.** -/
theorem Step.inv (hstep : Step u name dupes s s') (h : s.Inv name) : s'.Inv name := by
  cases hstep with
  | send after step told =>
    have hposted : ∀ e, s.Posted name e → Posted name { s with loadgen := after } e := fun e he =>
      ⟨he.1, step.ids_subset he.2⟩
    exact ⟨fun k e he => hposted e (h.calls k e he), fun k x hx => hposted x.1 (h.blocked k x hx),
      fun k e he => hposted e (h.accepted k e he), fun i hi => (told i hi).elim (h.told i) id⟩
  | serve after step posted =>
    refine ⟨fun k e he => (posted k e he).elim (h.calls k e) id, fun k x hx => ?_,
      fun k e he => ?_, fun i hi => ?_⟩
    · rcases (step.origin k).2.2 x hx with hold | hcall
      · exact h.blocked k x hold
      · exact h.calls k x.1 hcall
    · rcases (step.origin k).2.1 e he with hold | hcall | ⟨x, hx, rfl⟩
      · exact h.accepted k e hold
      · exact h.calls k e hcall
      · exact h.blocked k x hx
    · obtain ⟨k, e, he, heq⟩ := h.told i hi
      exact ⟨k, e, (step.origin k).1 e he, heq⟩

theorem Reachable.inv (h : Reachable u name dupes s) : s.Inv name := by
  induction h with
  | refl => exact inv_init name
  | tail _ hstep ih => exact hstep.inv ih

/-- A run of the processes in which no call begins is a run of the whole. -/
theorem Reachable.quiet (h : Reachable u name dupes s) {after : Delivery κ ι π}
    (hquiet : Relation.ReflTransGen (Delivery.QuietStep u) s.delivery after) :
    Reachable u name dupes { s with delivery := after } := by
  induction hquiet with
  | refl => exact h
  | tail _ hstep ih =>
    exact ih.tail (.serve _ hstep.1 fun k e he => .inl (hstep.2 k ▸ he))

omit [DecidableEq σ] in
theorem mem_ids_of_mem_acceptedIds {l : Loadgen σ} {id : String} (h : id ∈ l.acceptedIds) :
    id ∈ l.jobs.map Job.id :=
  (List.filter_sublist.map Job.id).subset (List.mem_toFinset.mp h)

/-- When the events of all jobs have been accepted, any answer may be given. -/
theorem Reachable.sends (h : Reachable u name dupes s) {after : Loadgen σ}
    (hrun : Relation.ReflTransGen (Loadgen.Step dupes) s.loadgen after)
    (hall : ∀ id ∈ after.jobs.map Job.id, s.AcceptedId id) :
    Reachable u name dupes { s with loadgen := after } := by
  induction hrun with
  | refl => exact h
  | tail _ hstep ih =>
    refine (ih fun id hid => hall id (hstep.ids_subset hid)).tail (.send _ hstep fun id hid => ?_)
    exact .inr (hall id (mem_ids_of_mem_acceptedIds hid))

/-! ## What is counted -/

/-- The ids of the rows are those accepted, when nothing is left on the way or lost. -/
theorem Reachable.mem_ids_iff (h : Reachable u name dupes s)
    (hempty : ∀ k, (s.delivery.ingest k).producer.buffered = 0)
    (hlost : ∀ k, (s.delivery.ingest k).lost = 0) (hdrained : s.delivery.broker.Drained)
    (id : String) : id ∈ s.delivery.broker.store.ids ↔ s.AcceptedId id :=
  h.delivery.inv.mem_ids_iff hempty hlost hdrained id

/-- All rows have the name, and if they are of today the query counts their ids. -/
theorem Reachable.countToday_eq (h : Reachable u name dupes s) (hname : containsNul name = false)
    {tz : TimeZone} {now : ℤ}
    (htoday : ∀ k e, (s.delivery.ingest k).Accepted e → tz.dayStart now ≤ e.toRow.ts) :
    countToday tz now s.delivery.broker.store name =
      .ok s.delivery.broker.store.ids.toFinset.card := by
  have hinv := h.delivery.inv
  have hsound := (hinv.broker.inv Store.sound_empty).sound
  rw [countToday, withName_of_nulFree hname, hsound.countTodaySQL_eq,
    List.toFinset_card_of_nodup hsound.nodup, Store.ids, List.length_map]
  refine congrArg Except.ok (List.countP_eq_length.mpr ?_)
  intro r hr
  obtain ⟨k, e, he, rfl⟩ := hinv.accepted_of_mem_events hr
  exact decide_eq_true ⟨(h.inv.accepted k e he).1, htoday k e he⟩

end Chaos

/-- **What the demonstration compares.** When the senders have stopped, the buffers are empty and
the topic is drained, no record was lost by an ingest process, every accepted event is from after
the session's midnight and their name has no U+0000, the count of `/v1/counts` lies between the
number the load generator calls sent and the number of its jobs, whatever consumers were killed on
the way. Without duplicates the two are equal exactly if the load generator was told of every event
that was accepted. -/
theorem chaos_count {σ κ ι π : Type*} [DecidableEq σ] [DecidableEq κ] [DecidableEq ι]
    [DecidableEq π] {u : Delivery.Setup π} {name : String} {dupes : ℤ} {s : Chaos σ κ ι π}
    (h : Chaos.Reachable u name dupes s) (hstopped : ∀ i, s.loadgen.senders i = .stopped)
    (hempty : ∀ k, (s.delivery.ingest k).producer.buffered = 0)
    (hlost : ∀ k, (s.delivery.ingest k).lost = 0) (hdrained : s.delivery.broker.Drained)
    (hname : containsNul name = false) {tz : TimeZone} {now : ℤ}
    (htoday : ∀ k e, (s.delivery.ingest k).Accepted e → tz.dayStart now ≤ e.toRow.ts) :
    ∃ count, countToday tz now s.delivery.broker.store name = .ok count ∧
      s.loadgen.counts.sent ≤ count ∧
      count ≤ s.loadgen.counts.sent + s.loadgen.counts.failed ∧
      (dupes ≤ 0 → (s.loadgen.counts.sent = count ↔
        ∀ k e, (s.delivery.ingest k).Accepted e → e.eventId ∈ s.loadgen.acceptedIds)) := by
  have hids := h.mem_ids_iff hempty hlost hdrained
  have hjobs := h.loadgen.sent_add_failed hstopped
  have hsent := h.loadgen.sent_eq hstopped
  have hlow : s.loadgen.acceptedIds ⊆ s.delivery.broker.store.ids.toFinset := fun id hid =>
    List.mem_toFinset.mpr ((hids id).mpr (h.inv.told id hid))
  have hhigh : s.delivery.broker.store.ids.toFinset ⊆ (s.loadgen.jobs.map Job.id).toFinset := by
    intro id hid
    obtain ⟨k, e, he, rfl⟩ := (hids id).mp (List.mem_toFinset.mp hid)
    exact List.mem_toFinset.mpr (h.inv.accepted k e he).2
  have hcard := Finset.card_le_card hlow
  have hcard' := (Finset.card_le_card hhigh).trans (List.toFinset_card_le _)
  rw [List.length_map] at hcard'
  refine ⟨_, h.countToday_eq hname htoday, by omega, by omega, fun hdupes => ?_⟩
  rw [h.loadgen.sent_eq_card hstopped hdupes, Nat.cast_inj]
  constructor
  · intro heq k e he
    rw [Finset.eq_of_subset_of_card_le hlow heq.ge]
    exact List.mem_toFinset.mpr ((hids _).mpr ⟨k, e, he, rfl⟩)
  · intro hall
    refine le_antisymm hcard (Finset.card_le_card fun id hid => ?_)
    obtain ⟨k, e, he, rfl⟩ := (hids id).mp (List.mem_toFinset.mp hid)
    exact hall k e he

/-- One click, accepted and answered with 202. -/
theorem exists_reachable_sent_click :
    ∃ s : Chaos Unit Unit Unit Unit, Chaos.Reachable epochSetup "buy_click" 0 s ∧
      (∀ i, s.loadgen.senders i = .stopped) ∧ s.loadgen.acceptedIds = {"e1"} ∧
      (s.delivery.ingest ()).producer.returned = [(epochClick, none)] ∧
      (s.delivery.ingest ()).lost = 0 := by
  have hsome : (epochClick.produceRecord .epoch "tally.events").isSome := rfl
  obtain ⟨record, hrecord⟩ := Option.isSome_iff_exists.mp hsome
  let l₁ : Loadgen Unit := ⟨⟨0, 0, 0⟩, [⟨"e1", [], .posting false⟩], fun _ => .working 0⟩
  let d₀ : Delivery Unit Unit Unit := .init Unit Unit Unit
  let checked : Producer := ⟨0, {epochClick}, 0, []⟩
  let d₁ : Delivery Unit Unit Unit :=
    ⟨Function.update d₀.ingest () ⟨checked, false, 0, 0⟩, d₀.broker⟩
  have htake : Chaos.Step epochSetup "buy_click" 0 (.init Unit Unit Unit Unit) ⟨l₁, d₀⟩ :=
    .send l₁ (.take () "e1" rfl List.not_mem_nil) fun id hid => by
      simp [l₁, Loadgen.acceptedIds] at hid
  have hcheck : Chaos.Step epochSetup "buy_click" 0 ⟨l₁, d₀⟩ ⟨l₁, d₁⟩ :=
    .serve d₁ (.ingest () none _ (.call checked (.check epochClick (show 0 < 1 by decide))
      (le_refl _) nofun fun e he => .inr (by
        obtain rfl := Multiset.mem_singleton.mp he
        exact trivial))) fun _ e he => .inr (by
          obtain rfl := Multiset.mem_singleton.mp he
          exact ⟨rfl, List.mem_singleton_self _⟩)
  have hproduce : Chaos.Step epochSetup "buy_click" 0 ⟨l₁, d₁⟩ ⟨l₁, _⟩ :=
    .serve _ (.ingest () none _ (.call _ (.produce epochClick 0 record rfl hrecord
      (show 0 < 1 by decide)) (Multiset.zero_le _) nofun fun e he =>
        absurd he (Multiset.notMem_zero e))) fun _ e he => absurd he (Multiset.notMem_zero e)
  let job : Job := ⟨"e1", [(false, some 202)], .finished⟩
  have hrun : (⟨"e1", [], .posting false⟩ : Job).run 0 [.answer (some 202), .none, .draw 0]
      ⟨0, 0, 0⟩ = some (job, ⟨1, 0, 0⟩) := rfl
  have hfinish : Loadgen.Step 0 (⟨⟨1, 0, 0⟩, [job], fun _ => .working 0⟩ : Loadgen Unit)
      ⟨⟨1, 0, 0⟩, [job], fun _ => .idle⟩ := .finish () 0 job rfl rfl rfl
  have hstop : Loadgen.Step 0 (⟨⟨1, 0, 0⟩, [job], fun _ => .idle⟩ : Loadgen Unit)
      ⟨⟨1, 0, 0⟩, [job], fun _ => .stopped⟩ := .stop () rfl
  have hstopped := ((Loadgen.advances_of_run hrun).tail hfinish).tail hstop
  refine ⟨_, Chaos.Reachable.sends (((Relation.ReflTransGen.single htake).tail hcheck).tail
    hproduce) hstopped fun id hid => ?_, fun _ => rfl, rfl, rfl, rfl⟩
  obtain rfl := List.mem_singleton.mp hid
  exact ⟨(), epochClick, List.mem_singleton_self _, rfl⟩

/-- The click is stored, and counted as often as it was sent. -/
theorem chaos_count_click :
    ∃ s : Chaos Unit Unit Unit Unit, Chaos.Reachable epochSetup "buy_click" 0 s ∧
      (∀ i, s.loadgen.senders i = .stopped) ∧ s.delivery.broker.Drained ∧
      ∃ count, countToday .utc 0 s.delivery.broker.store "buy_click" = .ok count ∧
        s.loadgen.counts.sent = count := by
  obtain ⟨s, hs, hstopped, hids, hreturned, hlost⟩ := exists_reachable_sent_click
  have hclick : ∀ k e, (s.delivery.ingest k).Accepted e → e = epochClick := by
    intro k e he
    rw [IngestProcess.Accepted, hreturned] at he
    exact (Prod.mk.inj (List.mem_singleton.mp he)).1
  obtain ⟨d, hd, hempty, hdrained⟩ := hs.delivery.completes (by decide) fun k e he => by
    obtain rfl := hclick k e he
    have htakes : Postgres.bytewise.Takes epochClick := by decide +kernel
    exact ⟨Postgres.takes_iff.mp htakes, fun _ _ => rfl⟩
  have hclick' : ∀ k e, (d.ingest k).Accepted e → e = epochClick := fun k e he =>
    hclick k e (by rwa [IngestProcess.Accepted, hd.returned k] at he)
  have htoday : ∀ k e, (d.ingest k).Accepted e → TimeZone.utc.dayStart 0 ≤ e.toRow.ts := by
    intro k e he
    obtain rfl := hclick' k e he
    decide
  obtain ⟨count, hcount, -, -, hiff⟩ := chaos_count (hs.quiet hd.quiet) hstopped hempty
    (fun k => (hd.lost k).trans hlost) hdrained (by decide +kernel) htoday
  refine ⟨_, hs.quiet hd.quiet, hstopped, hdrained, count, hcount, (hiff le_rfl).mpr ?_⟩
  intro k e he
  obtain rfl := hclick' k e he
  rw [hids]
  exact Finset.mem_singleton_self _

/-! ## The comparison of the script -/

/-- `s/.*pattern//` of `sed`: what follows the last occurrence, if there is one. -/
def afterLast (pattern : List Char) : List Char → Option (List Char)
  | [] => none
  | c :: cs =>
    match afterLast pattern cs with
    | some rest => some rest
    | none => if pattern.isPrefixOf (c :: cs) then some ((c :: cs).drop pattern.length) else none

/-- `STORED`: the answer after `"count_today":`, up to the first closing brace. -/
def storedText (answer : List Char) : List Char :=
  ((afterLast "\"count_today\":".toList answer).getD answer).takeWhile (· ≠ '\x7d')

/-- `SENT`: the number that the load generator has written, or `?` without a file. -/
def sentText : Option ℤ → List Char
  | none => ['?']
  | some n => if n < 0 then '-' :: Nat.toDigits 10 n.natAbs else Nat.toDigits 10 n.natAbs

theorem comma_notMem_toDigits (n : ℕ) : ',' ∉ Nat.toDigits 10 n := fun h =>
  absurd (Nat.isDigit_of_mem_toDigits (by decide) (by decide) h) (by decide)

theorem comma_notMem_sentText (sent : Option ℤ) : ',' ∉ sentText sent := by
  cases sent with
  | none => decide
  | some n =>
    rw [sentText]
    split_ifs
    · simp [comma_notMem_toDigits]
    · exact comma_notMem_toDigits _

/-- Digits do not begin the pattern. -/
theorem afterLast_digits {ds tail : List Char} {pattern : List Char}
    (h : ∀ c ∈ ds, c ≠ '"') :
    afterLast ('"' :: pattern) (ds ++ tail) = afterLast ('"' :: pattern) tail := by
  induction ds with
  | nil => rfl
  | cons d ds ih =>
    have hd : d ≠ '"' := h d List.mem_cons_self
    rw [List.cons_append, afterLast, ih fun c hc => h c (List.mem_cons_of_mem d hc)]
    cases afterLast ('"' :: pattern) tail <;> simp [List.isPrefixOf, Ne.symm hd]

/-- The pattern at the beginning of an object is the last one, if there is none behind it. -/
theorem afterLast_first {rest : List Char} (h : afterLast "\"count_today\":".toList rest = none) :
    afterLast "\"count_today\":".toList ('\x7b' :: "\"count_today\":".toList ++ rest) =
      some rest := by
  simp at h
  simp [afterLast, h, List.isPrefixOf]

/-- The fields of the answer come in the order of their keys. -/
theorem text_getCount_chaos (tz : TimeZone) (now : ℤ) (st : Store) :
    (getCount tz now st "chaos_test").text.toList =
      '\x7b' :: "\"count_today\":".toList ++
        (Nat.toDigits 10 (countTodaySQL tz now st "chaos_test") ++
          ",\"event\":\"chaos_test\"\x7d".toList) := by
  have hkey : quote "count_today" = "\"count_today\"".toList := by decide +kernel
  have hevent : marshalFields [("event", .str "chaos_test")] =
      ",\"event\":\"chaos_test\"\x7d".toList := by decide +kernel
  have hname : containsNul "chaos_test" = false := by decide +kernel
  simp [getCount, countToday, hname, writeJSON, marshal, hkey, hevent, countNumeral]

/-- **What the script takes for the count**: the name of the event follows the number. -/
theorem storedText_getCount (tz : TimeZone) (now : ℤ) (st : Store) :
    storedText (getCount tz now st "chaos_test").text.toList =
      Nat.toDigits 10 (countTodaySQL tz now st "chaos_test") ++
        ",\"event\":\"chaos_test\"".toList := by
  rw [text_getCount_chaos]
  generalize countTodaySQL tz now st "chaos_test" = n
  have htail : afterLast "\"count_today\":".toList
      (Nat.toDigits 10 n ++ ",\"event\":\"chaos_test\"\x7d".toList) = none := by
    have hpattern : "\"count_today\":".toList = '"' :: "count_today\":".toList := by decide +kernel
    rw [hpattern]
    refine (afterLast_digits (countNumeral n).plain).trans ?_
    decide +kernel
  have hend : (",\"event\":\"chaos_test\"\x7d".toList).takeWhile (· ≠ '\x7d') =
      ",\"event\":\"chaos_test\"".toList := by decide +kernel
  rw [storedText, afterLast_first htail, Option.getD_some, List.takeWhile_append_of_pos, hend]
  intro c hc
  have hdigit := Nat.isDigit_of_mem_toDigits (by decide) (by decide) hc
  refine decide_eq_true ?_
  rintro rfl
  exact absurd hdigit (by decide)

/-- **The script never finds the two numbers equal.** In every state of the tables and at every
time, and whatever the load generator has counted, what `chaos.sh` compares are different texts: it
cuts the answer of `/v1/counts` behind the number as if the number came last, but a map is
marshalled in the order of its keys, and the name of the event follows. -/
theorem chaos_script_mismatch (tz : TimeZone) (now : ℤ) (st : Store) (sent : Option ℤ) :
    sentText sent ≠ storedText (getCount tz now st "chaos_test").text.toList := by
  intro heq
  have hcomma : ',' ∈ storedText (getCount tz now st "chaos_test").text.toList := by
    rw [storedText_getCount]
    exact List.mem_append_right _ (by decide +kernel)
  exact comma_notMem_sentText sent (heq ▸ hcomma)

end Tally
