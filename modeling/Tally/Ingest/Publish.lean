import Tally.Ingest.Doors
import Tally.Store.Replay

/-!
# What `Publish` accounts for

A call of `Publish` that returns a response has enqueued its valid events in order and reported the
others by index; one that fails after the limiter let it pass has enqueued a proper prefix of them.
Neither depends on what the queue did between the events. A client that repeats a failed call until
it succeeds thus sends its valid events one or more times, each time stamped anew, and the storage
keeps one row and one count of each id.

## Main definitions

* `invalidFrom`: the indices of the events that fail the validation
* `EventRequest.Carries`, `Event.Alike`: one event through either door, and what is the same then
* `Accounts`: what a response accounts for
* `publishEnqueued`: the events a call enqueues

## Main results

* `publishLoop_ok`, `publishLoop_error`: the loop of `Publish`, by its result
* `publish_accounts`: responses, errors and retries
-/

namespace Tally

open Foundation

variable {L Q : Type} {w : Wiring L Q} {now : ℤ} {key : String}

/-! ## The loop -/

theorem PublishEvent.isSome_reason_iff {pe : PublishEvent} :
    pe.reason.isSome = true ↔ pe.eventId = "" ∨ pe.name = "" := by
  rw [← not_iff_not, Option.not_isSome_iff_eq_none, PublishEvent.reason_eq_none_iff, not_or]

/-- The indices of the events that fail the validation, counted from `i`. -/
def invalidFrom (i : ℕ) (pes : List PublishEvent) : List ℕ :=
  ((pes.zipIdx i).filter fun p => p.1.reason.isSome).map Prod.snd

theorem invalidFrom_cons_of_some {i : ℕ} {pe : PublishEvent} {pes : List PublishEvent}
    {reason : String} (h : pe.reason = some reason) :
    invalidFrom i (pe :: pes) = i :: invalidFrom (i + 1) pes := by
  simp [invalidFrom, h]

theorem invalidFrom_cons_of_none {i : ℕ} {pe : PublishEvent} {pes : List PublishEvent}
    (h : pe.reason = none) : invalidFrom i (pe :: pes) = invalidFrom (i + 1) pes := by
  simp [invalidFrom, h]

theorem mem_invalidFrom_zero {i : ℕ} {pes : List PublishEvent} :
    i ∈ invalidFrom 0 pes ↔ ∃ pe, pes[i]? = some pe ∧ pe.reason.isSome = true := by
  simp only [invalidFrom, List.mem_map, List.mem_filter, Prod.exists, exists_eq_right,
    List.mk_mem_zipIdx_iff_getElem?]

theorem pairwise_invalidFrom (i : ℕ) (pes : List PublishEvent) :
    (invalidFrom i pes).Pairwise (· < ·) := by
  have hsub : (invalidFrom i pes).Sublist ((pes.zipIdx i).map Prod.snd) :=
    List.filter_sublist.map Prod.snd
  rw [List.zipIdx_map_snd] at hsub
  exact (List.pairwise_lt_range' 1).sublist hsub

/-- Every event is valid, or has its index among the others. -/
theorem length_validEvents_add (now : ℤ) (i : ℕ) (pes : List PublishEvent) :
    (validEvents now pes).length + (invalidFrom i pes).length = pes.length := by
  induction pes generalizing i with
  | nil => rfl
  | cons pe pes ih =>
    have ih := ih (i + 1)
    cases hreason : pe.reason with
    | some reason =>
      rw [validEvents_cons_of_some hreason, invalidFrom_cons_of_some hreason]
      simp only [List.length_cons]
      omega
    | none =>
      rw [validEvents_cons_of_none hreason, invalidFrom_cons_of_none hreason]
      simp only [List.length_cons]
      omega

/-- **A loop that ends with a response** has sent the valid events, and added the number of these
and the indices of the others to the response. -/
theorem publishLoop_ok {pes : List PublishEvent} {i k : ℕ} {resp resp' : PublishResponse}
    {f f' : Front L Q} (hk : resp.accepted = Int32.ofNat k)
    (h : publishLoop w now key i pes resp f = (.ok resp', f')) :
    Sends now key (validEvents now pes) f f' ∧
      resp'.accepted = Int32.ofNat (k + (validEvents now pes).length) ∧
      resp'.rejected.map RejectedEvent.index =
        resp.rejected.map RejectedEvent.index ++ (invalidFrom i pes).map Int32.ofNat := by
  induction pes generalizing i k resp f with
  | nil =>
    obtain ⟨hresp, rfl⟩ := Prod.mk.inj h
    obtain rfl := Except.ok.inj hresp
    exact ⟨.refl f, hk, (List.append_nil _).symm⟩
  | cons pe pes ih =>
    rcases publishLoop_cons_cases pe pes i resp f with ⟨reason, hreason, hloop⟩ |
      ⟨f₁, hreason, hsent, hloop⟩ | ⟨err, f₁, -, -, -, hloop⟩
    · rw [hloop] at h
      obtain ⟨hsends, haccepted, hrejected⟩ := ih (by exact hk) h
      rw [validEvents_cons_of_some hreason, invalidFrom_cons_of_some hreason]
      refine ⟨(Sends.reject .invalid f).trans hsends, haccepted, ?_⟩
      rw [hrejected]
      simp
    · rw [hloop] at h
      have hk' : resp.accepted + 1 = Int32.ofNat (k + 1) := by
        rw [hk, Int32.ofNat_add]
        rfl
      obtain ⟨hsends, haccepted, hrejected⟩ := ih hk' h
      rw [validEvents_cons_of_none hreason, invalidFrom_cons_of_none hreason]
      refine ⟨hsent.trans hsends, ?_, hrejected⟩
      rw [haccepted, List.length_cons, Nat.add_right_comm, Nat.add_assoc]
    · rw [hloop] at h
      cases (Prod.mk.inj h).1

/-- **A loop that ends with an error** has sent a proper prefix of the valid events. -/
theorem publishLoop_error {pes : List PublishEvent} {i : ℕ} {resp : PublishResponse}
    {f f' : Front L Q} {err : GrpcError}
    (h : publishLoop w now key i pes resp f = (.error err, f')) :
    ∃ es, es <+: validEvents now pes ∧ es ≠ validEvents now pes ∧ Sends now key es f f' := by
  induction pes generalizing i resp f with
  | nil => cases (Prod.mk.inj h).1
  | cons pe pes ih =>
    rcases publishLoop_cons_cases pe pes i resp f with ⟨reason, hreason, hloop⟩ |
      ⟨f₁, hreason, hsent, hloop⟩ | ⟨err, f₁, hreason, -, hsent, hloop⟩
    · rw [hloop] at h
      obtain ⟨es, hpre, hne, hsends⟩ := ih h
      rw [validEvents_cons_of_some hreason]
      exact ⟨es, hpre, hne, (Sends.reject .invalid f).trans hsends⟩
    · rw [hloop] at h
      obtain ⟨es, hpre, hne, hsends⟩ := ih h
      rw [validEvents_cons_of_none hreason]
      refine ⟨pe.toEvent now :: es, List.cons_prefix_cons.mpr ⟨rfl, hpre⟩, fun heq => ?_,
        hsent.trans hsends⟩
      exact hne (List.cons.inj heq).2
    · rw [hloop] at h
      obtain ⟨-, rfl⟩ := Prod.mk.inj h
      rw [validEvents_cons_of_none hreason]
      exact ⟨[], List.nil_prefix, (List.cons_ne_nil _ _).symm, hsent⟩

/-- A call that answers with a response was let pass by the limiter. -/
theorem publish_ok {r : GrpcRequest} {f f' : Front L Q} {resp : PublishResponse}
    (h : publish w now r f = (.ok resp, f')) :
    ∃ f₁, f.allow w now r.clientKey = (true, f₁) ∧
      publishLoop w now r.clientKey 0 r.events ⟨0, []⟩ f₁ = (.ok resp, f') := by
  rw [publish] at h
  rcases hallow : f.allow w now r.clientKey with ⟨_ | _, f₁⟩
  · rw [hallow] at h
    cases (Prod.mk.inj h).1
  · rw [hallow] at h
    exact ⟨f₁, rfl, h⟩

/-! ## Responses -/

theorem validEvents_eq (now : ℤ) (pes : List PublishEvent) :
    validEvents now pes = (pes.filter fun pe => pe.eventId ≠ "" ∧ pe.name ≠ "").map
      (PublishEvent.toEvent · now) := by
  rw [validEvents]
  congr 1
  refine List.filter_congr fun pe _ => ?_
  rw [Bool.eq_iff_iff, Option.isNone_iff_eq_none, PublishEvent.reason_eq_none_iff,
    decide_eq_true_iff]

/-- The body of an HTTP request and an event of a gRPC request are the same event. The properties
of a gRPC event are texts, and a nil map is an empty one. -/
structure EventRequest.Carries (req : EventRequest) (pe : PublishEvent) : Prop where
  eventId : req.eventId = pe.eventId
  name : req.name = pe.name
  distinctId : req.distinctId = pe.distinctId
  properties : req.properties.getD [] = pe.properties.map fun p => (p.1, .str p.2)

/-- Two events are equal up to their timestamps, and up to nil and empty properties. -/
structure Event.Alike (e e' : Event) : Prop where
  eventId : e.eventId = e'.eventId
  name : e.name = e'.name
  distinctId : e.distinctId = e'.distinctId
  document : e.document = e'.document

/-- **What a response accounts for**, between the states before and after the call. -/
structure Accounts (now : ℤ) (r : GrpcRequest) (resp : PublishResponse) (f f' : Front L Q) :
    Prop where
  /-- The events with an id and a name are enqueued, in request order. -/
  sent : f'.sent = f.sent ++ (r.events.filter fun pe => pe.eventId ≠ "" ∧ pe.name ≠ "").map
    fun pe => ⟨r.clientKey, now, pe.toEvent now⟩
  /-- The others are rejected, by their indices. -/
  rejected : ∀ z : ℤ, z ∈ resp.rejected.map (fun rej => rej.index.toInt) ↔
    ∃ (i : ℕ) (pe : PublishEvent), z = i ∧ r.events[i]? = some pe ∧ (pe.eventId = "" ∨ pe.name = "")
  increasing : (resp.rejected.map fun rej => rej.index.toInt).Pairwise (· < ·)
  total : resp.accepted.toInt + resp.rejected.length = r.events.length

/-- **A response accounts for every event** of a request of fewer than `2 ^ 31`. -/
theorem accounts_of_publish_ok {r : GrpcRequest} (hlen : r.events.length < 2 ^ 31)
    {f f' : Front L Q} {resp : PublishResponse} (h : publish w now r f = (.ok resp, f')) :
    Accounts now r resp f f' := by
  obtain ⟨f₁, hallow, hloop⟩ := publish_ok h
  obtain ⟨hsends, haccepted, hrejected⟩ := publishLoop_ok (k := 0) rfl hloop
  have htotal := length_validEvents_add now 0 r.events
  have hlt : ∀ i ∈ invalidFrom 0 r.events, i < 2 ^ 31 := by
    intro i hi
    obtain ⟨pe, hget, -⟩ := mem_invalidFrom_zero.mp hi
    exact (List.getElem?_eq_some_iff.mp hget).1.trans hlen
  have hindices : resp.rejected.map (fun rej => rej.index.toInt) =
      (invalidFrom 0 r.events).map fun i : ℕ => (i : ℤ) := by
    have hints := congrArg (List.map Int32.toInt) hrejected
    simp only [List.map_nil, List.nil_append, List.map_map] at hints
    exact hints.trans (List.map_congr_left fun i hi => Int32.toInt_ofNat_of_lt (hlt i hi))
  refine ⟨?_, ?_, ?_, ?_⟩
  · have hsent : f.sent = f₁.sent := by
      simpa using congrArg (fun p => p.2.sent) hallow
    rw [hsends.sent, ← hsent, validEvents_eq, List.map_map]
    rfl
  · intro z
    rw [hindices, List.mem_map]
    constructor
    · rintro ⟨i, hi, rfl⟩
      obtain ⟨pe, hget, hreason⟩ := mem_invalidFrom_zero.mp hi
      exact ⟨i, pe, rfl, hget, PublishEvent.isSome_reason_iff.mp hreason⟩
    · rintro ⟨i, pe, rfl, hget, hinvalid⟩
      exact ⟨i, mem_invalidFrom_zero.mpr ⟨pe, hget, PublishEvent.isSome_reason_iff.mpr hinvalid⟩,
        rfl⟩
  · rw [hindices, List.pairwise_map]
    exact (pairwise_invalidFrom 0 r.events).imp fun hij => by exact_mod_cast hij
  · have hrejlen : resp.rejected.length = (invalidFrom 0 r.events).length := by
      have := congrArg List.length hrejected
      simpa using this
    rw [haccepted, Nat.zero_add, Int32.toInt_ofNat_of_lt (by omega), hrejlen]
    exact_mod_cast htotal

/-- **What `postEvent` enqueues for the same event**: it accepts only a valid one, and enqueues it
alike. -/
theorem alike_of_postEvent {f : Front L Q} {h : HttpRequest} {req : EventRequest}
    {pe : PublishEvent} (hbody : h.body = some req) (hreq : req.Carries pe)
    (hstatus : (postEvent w now h f).1.status = 202) (t : ℤ) :
    ∃ e, (postEvent w now h f).2.sent = f.sent ++ [⟨h.clientKey, now, e⟩] ∧
      e.Alike (pe.toEvent t) ∧ pe.eventId ≠ "" ∧ pe.name ≠ "" := by
  rw [postEvent] at hstatus ⊢
  rcases hallow : f.allow w now h.clientKey with ⟨_ | _, f₁⟩
  · simp [hallow] at hstatus
  have hsent : f.sent = f₁.sent := by simpa using congrArg (fun p => p.2.sent) hallow
  simp only [hallow, hbody] at hstatus ⊢
  by_cases hid : req.eventId = ""
  · simp [hid] at hstatus
  by_cases hname : req.name = ""
  · simp [hid, hname] at hstatus
  simp only [hid, hname, if_false] at hstatus ⊢
  rcases f₁.offer_cases w now h.clientKey (req.toEvent now) with
    ⟨f₂, hoffer, hsends⟩ | ⟨err, f₂, hoffer, -, -⟩
  · simp only [hoffer]
    refine ⟨req.toEvent now, by rw [hsends.sent, hsent]; rfl, ?_, hreq.eventId ▸ hid,
      hreq.name ▸ hname⟩
    exact ⟨hreq.eventId, hreq.name, hreq.distinctId, congrArg Json.obj hreq.properties⟩
  · rw [hoffer] at hstatus
    cases err <;> simp at hstatus

/-! ## Retries -/

/-- The events a call enqueues. -/
def publishEnqueued (w : Wiring L Q) (r : GrpcRequest) (now : ℤ) (f : Front L Q) : List Event :=
  ((publish w now r f).2.sent.drop f.sent.length).map Sent.event

/-- The ids of the valid events of a request. -/
def GrpcRequest.validIds (r : GrpcRequest) : Finset String :=
  ((r.events.filter fun pe => pe.eventId ≠ "" ∧ pe.name ≠ "").map PublishEvent.eventId).toFinset

theorem publishEnqueued_of_sends {r : GrpcRequest} {f f₁ : Front L Q} {es : List Event}
    (hsent : f₁.sent = f.sent) (h : Sends now key es f₁ (publish w now r f).2) :
    publishEnqueued w r now f = es := by
  rw [publishEnqueued, h.sent, hsent, List.drop_left, List.map_map]
  exact List.map_id _

theorem sent_of_allow {r : GrpcRequest} {f f₁ : Front L Q} {ok : Bool}
    (hallow : f.allow w now r.clientKey = (ok, f₁)) : f₁.sent = f.sent := by
  simpa using congrArg (fun p => p.2.sent) hallow.symm

/-- A call enqueues a prefix of the valid events. -/
theorem publishEnqueued_initial (w : Wiring L Q) (r : GrpcRequest) (now : ℤ) (f : Front L Q) :
    publishEnqueued w r now f <+: validEvents now r.events := by
  rcases hallow : f.allow w now r.clientKey with ⟨_ | _, f₁⟩
  · rw [publishEnqueued_of_sends (sent_of_allow hallow) ((Request.grpc r).serve_denied hallow)]
    exact List.nil_prefix
  · obtain ⟨es, hpre, -, hsends⟩ := (Request.grpc r).serve_allowed hallow
    rw [publishEnqueued_of_sends (sent_of_allow hallow) hsends]
    exact hpre

/-- A call that answers with a response enqueues all of them. -/
theorem publishEnqueued_of_ok {r : GrpcRequest} {f : Front L Q} {resp : PublishResponse}
    (h : (publish w now r f).1 = .ok resp) :
    publishEnqueued w r now f = validEvents now r.events := by
  obtain ⟨f₁, hallow, hloop⟩ := publish_ok (Prod.ext h rfl : publish w now r f = (.ok resp, _))
  exact publishEnqueued_of_sends (sent_of_allow hallow) (publishLoop_ok (k := 0) rfl hloop).1

/-- A call that the limiter let pass and that fails enqueues a proper prefix of them. -/
theorem sent_of_publish_error {r : GrpcRequest} {f f₁ : Front L Q} {err : GrpcError}
    (hallow : f.allow w now r.clientKey = (true, f₁)) (h : (publish w now r f).1 = .error err) :
    ∃ es, es <+: validEvents now r.events ∧ es ≠ validEvents now r.events ∧
      (publish w now r f).2.sent = f.sent ++ es.map (⟨r.clientKey, now, ·⟩) := by
  have hloop : publishLoop w now r.clientKey 0 r.events ⟨0, []⟩ f₁ =
      (.error err, (publish w now r f).2) := by
    rw [← h, publish, hallow]
  obtain ⟨es, hpre, hne, hsends⟩ := publishLoop_error hloop
  exact ⟨es, hpre, hne, by rw [hsends.sent, sent_of_allow hallow]⟩

/-- The events enqueued by earlier calls and a last one, given by the times of the calls and the
states before them. -/
def enqueuedByAll (w : Wiring L Q) (r : GrpcRequest) (earlier : List (ℤ × Front L Q)) (now : ℤ)
    (f : Front L Q) : List Event :=
  earlier.flatMap (fun a => publishEnqueued w r a.1 a.2) ++ publishEnqueued w r now f

theorem map_eventId_validEvents (now : ℤ) (r : GrpcRequest) :
    ((validEvents now r.events).map Event.eventId).toFinset = r.validIds := by
  rw [validEvents_eq, List.map_map, GrpcRequest.validIds]
  rfl

/-- All the calls together enqueue the valid ids, when the last one succeeds. -/
theorem map_eventId_enqueuedByAll {r : GrpcRequest} {f : Front L Q} {resp : PublishResponse}
    (earlier : List (ℤ × Front L Q)) (h : (publish w now r f).1 = .ok resp) :
    ((enqueuedByAll w r earlier now f).map Event.eventId).toFinset = r.validIds := by
  rw [enqueuedByAll, List.map_append, List.toFinset_append, publishEnqueued_of_ok h,
    map_eventId_validEvents, Finset.union_eq_right]
  intro id hid
  simp only [List.mem_toFinset, List.mem_map, List.mem_flatMap] at hid
  obtain ⟨e, ⟨a, -, he⟩, rfl⟩ := hid
  rw [← map_eventId_validEvents a.1 r, List.mem_toFinset]
  exact List.mem_map_of_mem ((publishEnqueued_initial w r a.1 a.2).subset he)

/-! ## Storage -/

variable {c : Postgres}

/-- The ids stored after a run. -/
theorem toFinset_ids_of_insertBatches {st st' : Store} {bs : List (Batch c)} {n : ℕ}
    (h : insertBatches c st bs = .ok (st', n)) :
    st'.ids.toFinset = st.ids.toFinset ∪ ((delivered bs).map Event.eventId).toFinset := by
  ext id
  rw [List.mem_toFinset, (insertBatches_applied h).1.mem_ids, Finset.mem_union, List.mem_toFinset,
    List.mem_toFinset]
  refine or_congr_right ?_
  simp only [List.mem_map, mem_flatMap_order]
  constructor
  · rintro ⟨r, ⟨e, he, rfl⟩, rfl⟩
    exact ⟨e, he, rfl⟩
  · rintro ⟨e, he, rfl⟩
    exact ⟨e.toRow, ⟨e, he, rfl⟩, rfl⟩

/-- The rollups sum to the number of ids stored. -/
theorem Store.Sound.tableSum_counts {st : Store} (h : st.Sound) :
    tableSum st.counts = st.ids.toFinset.card := by
  rw [h.counts.tableSum_eq, List.toFinset_card_of_nodup h.nodup, Store.ids, List.length_map]

/-- **Events enqueued once or more are stored once.** After a run that delivers all that the calls
enqueued and other events, every valid id has one row, and the total of the rollups is that of a run
with the other events only and at most one per valid id. -/
theorem stored_once_of_publish {r : GrpcRequest} {f : Front L Q} {resp : PublishResponse}
    {earlier : List (ℤ × Front L Q)} (hok : (publish w now r f).1 = .ok resp)
    {st st' : Store} (hsound : st.Sound) {bs : List (Batch c)} {n : ℕ} {others : List Event}
    (hperm : (delivered bs).Perm (enqueuedByAll w r earlier now f ++ others))
    (hrun : insertBatches c st bs = .ok (st', n)) :
    (∀ id ∈ r.validIds, st'.ids.count id = 1) ∧
      ∀ (bs' : List (Batch c)) (st'' : Store) (n' : ℕ), (delivered bs').Perm others →
        insertBatches c st bs' = .ok (st'', n') →
        tableSum st'.counts ≤ tableSum st''.counts + r.validIds.card := by
  have hsound' := (insertBatches_applied hrun).1.sound hsound
  have hids : st'.ids.toFinset =
      st.ids.toFinset ∪ (others.map Event.eventId).toFinset ∪ r.validIds := by
    rw [toFinset_ids_of_insertBatches hrun, List.toFinset_eq_of_perm _ _ (hperm.map Event.eventId),
      List.map_append, List.toFinset_append, map_eventId_enqueuedByAll earlier hok,
      Finset.union_comm r.validIds, Finset.union_assoc]
  constructor
  · intro id hid
    refine List.count_eq_one_of_mem hsound'.nodup (List.mem_toFinset.mp ?_)
    rw [hids]
    exact Finset.mem_union_right _ hid
  · intro bs' st'' n' hperm' hrun'
    have hsound'' := (insertBatches_applied hrun').1.sound hsound
    have hids'' : st''.ids.toFinset = st.ids.toFinset ∪ (others.map Event.eventId).toFinset := by
      rw [toFinset_ids_of_insertBatches hrun',
        List.toFinset_eq_of_perm _ _ (hperm'.map Event.eventId)]
    rw [hsound'.tableSum_counts, hsound''.tableSum_counts, hids, hids'']
    exact Finset.card_union_le _ _

/-- **`Publish` accounts for every event, and its whole-batch retry is safe.** -/
theorem publish_accounts (w : Wiring L Q) (r : GrpcRequest) (hlen : r.events.length < 2 ^ 31) :
    -- a response accounts for every event, and `postEvent` enqueues the same events
    (∀ now f resp f', publish w now r f = (.ok resp, f') → Accounts now r resp f f' ∧
      ∀ pe ∈ r.events, ∀ (h : HttpRequest) (req : EventRequest), h.body = some req →
        req.Carries pe → ∀ now' g, (postEvent w now' h g).1.status = 202 →
          ∃ e, (postEvent w now' h g).2.sent = g.sent ++ [⟨h.clientKey, now', e⟩] ∧
            e.Alike (pe.toEvent now) ∧ pe.eventId ≠ "" ∧ pe.name ≠ "") ∧
    -- an error after the limiter leaves a proper prefix of the valid events enqueued
    (∀ now f f₁ err, f.allow w now r.clientKey = (true, f₁) →
      (publish w now r f).1 = .error err →
      let valid := (r.events.filter fun pe => pe.eventId ≠ "" ∧ pe.name ≠ "").map
        (PublishEvent.toEvent · now)
      ∃ es, es <+: valid ∧ es ≠ valid ∧
        (publish w now r f).2.sent = f.sent ++ es.map (⟨r.clientKey, now, ·⟩)) ∧
    -- calls that failed, or not, before one that succeeds: what they enqueued is stored once
    (∀ (earlier : List (ℤ × Front L Q)) now f resp, (publish w now r f).1 = .ok resp →
      ∀ (c : Postgres) (st st' : Store) (bs : List (Batch c)) (n : ℕ) (others : List Event),
        st.Sound → (delivered bs).Perm (enqueuedByAll w r earlier now f ++ others) →
        insertBatches c st bs = .ok (st', n) →
        (∀ id ∈ r.validIds, st'.ids.count id = 1) ∧
        ∀ (bs' : List (Batch c)) (st'' : Store) (n' : ℕ), (delivered bs').Perm others →
          insertBatches c st bs' = .ok (st'', n') →
          tableSum st'.counts ≤ tableSum st''.counts + r.validIds.card) := by
  refine ⟨fun now f resp f' h => ⟨accounts_of_publish_ok hlen h, ?_⟩, ?_, ?_⟩
  · intro pe _ h req hbody hreq now' g hstatus
    exact alike_of_postEvent hbody hreq hstatus now
  · intro now f f₁ err hallow herr valid
    have hvalid : valid = validEvents now r.events := (validEvents_eq now r.events).symm
    rw [hvalid]
    exact sent_of_publish_error hallow herr
  · intro earlier now f resp hok c st st' bs n others hsound hperm hrun
    exact stored_once_of_publish hok hsound hperm hrun

/-- A request with two valid events and an invalid one. The queue has room for one of them, and the
call fails; with room for both the retry succeeds, and the event enqueued twice is stored once. -/
theorem publish_accounts_retry :
    let w : Wiring Unit (List Event) :=
      ⟨none, fun e q => if q.length < 2 then (none, q ++ [e]) else (some .full, q)⟩
    let pe : String → String → PublishEvent := fun id name => ⟨id, name, "u1", []⟩
    let r : GrpcRequest := ⟨["k1"], none, [pe "e1" "buy_click", pe "e2" "", pe "e3" "buy_click"]⟩
    let full : Front Unit (List Event) := .start () [(pe "e0" "buy_click").toEvent 0]
    let f : Front Unit (List Event) := .start () []
    r.events.length < 2 ^ 31 ∧ Accounts 1 r ⟨2, [⟨1, "name is required"⟩]⟩ f (publish w 1 r f).2 ∧
      (∃ es, es ≠ [(pe "e1" "buy_click").toEvent 0, (pe "e3" "buy_click").toEvent 0] ∧
        (publish w 0 r full).2.sent = es.map (⟨"k1", 0, ·⟩)) ∧
      ∃ (bs : List (Batch .bytewise)) (st : Store) (n : ℕ),
        delivered bs = enqueuedByAll w r [(0, full)] 1 f ∧
        insertBatches .bytewise .empty bs = .ok (st, n) ∧
        st.ids.count "e1" = 1 ∧ st.ids.count "e3" = 1 := by
  intro w pe r full f
  obtain ⟨haccounts, herror, hstored⟩ := publish_accounts w r (by decide)
  refine ⟨by decide, (haccounts 1 f _ _ rfl).1, ?_, ?_⟩
  · obtain ⟨es, -, hne, hsent⟩ := herror 0 full _ _ rfl rfl
    exact ⟨es, hne, hsent⟩
  · let bs := (enqueuedByAll w r [(0, full)] 1 f).map (Batch.single .bytewise)
    have hdelivered : delivered bs = enqueuedByAll w r [(0, full)] 1 f := by
      simp [bs, delivered, List.flatMap_map, Batch.single]
    obtain ⟨st, n, hrun⟩ := exists_insertBatches_eq_ok bs (by decide +kernel) allDecode_empty
    have hperm : (delivered bs).Perm (enqueuedByAll w r [(0, full)] 1 f ++ []) := by
      rw [hdelivered, List.append_nil]
    have honce := (hstored [(0, full)] 1 f _ rfl .bytewise .empty st bs n []
      Store.sound_empty hperm hrun).1
    exact ⟨bs, st, n, hdelivered, hrun, honce "e1" (by decide), honce "e3" (by decide)⟩

end Tally
