import Tally.Foundation.JsonScan
import Tally.Ingest.Doors
import Tally.Queue.Kafka
import Tally.Queue.Producer

/-!
# Request bodies

What `postEvent` makes of the bytes of a body: `Decode` reads the first JSON value of the first
megabyte, and does not look at what follows it. What JSON decoding puts into the properties can be
marshalled and decoded again, so an event of a request is the same after its way through the topic,
and both queue backends hand `InsertBatch` the same events.

## Main definitions

* `decodeRequest`: a JSON value decoded into an `eventRequest`
* `decodeBody`: the request of a body
* `Request.FromWire`: a request as the servers pass it on
* `EventRequest.WrittenAs`: the members of an object hold a request

## Main results

* `toAny_decoded`: decoding a well formed value gives one that can be decoded again
* `request_events_pass_unchanged`: the topic changes no event of a request
* `body_read_back`: a body is read back from its text, whatever follows it
-/

namespace Tally

open Foundation

/-! ## Decoding a body -/

/-- A member decoded into an `eventRequest`. Its timestamp is the server's, and a member `ts` is
skipped like any other. -/
def decodeRequestMember (conv : Conversions) (req : EventRequest)
    (member : List Char × JsonText) : Option EventRequest :=
  match EventField.find (unquoteString member.1) with
  | none | some .ts => some req
  | some .eventId => (decodeString req.eventId member.2).map fun id => { req with eventId := id }
  | some .name => (decodeString req.name member.2).map fun name => { req with name := name }
  | some .distinctId =>
    (decodeString req.distinctId member.2).map fun id => { req with distinctId := id }
  | some .properties =>
    (decodeProperties conv req.properties member.2).map fun fs => { req with properties := fs }

/-- The zero value of `eventRequest`. -/
def EventRequest.zero : EventRequest := ⟨"", "", "", none⟩

/-- A JSON value decoded into an `eventRequest`; `null` leaves it as it is. -/
def decodeRequest (conv : Conversions) : JsonText → Option EventRequest
  | .null => some .zero
  | .obj ms => ms.foldlM (decodeRequestMember conv) .zero
  | _ => none

/-- The cap of `http.MaxBytesReader`. -/
def maxBody : ℕ := 2 ^ 20

/-- The request of a body, or `none` for an error of `Decode`. Of a body above the cap the reader
passes on the bytes below it, and then fails. -/
def decodeBody (conv : Conversions) (body : List UInt8) : Option EventRequest :=
  (Scanner.firstValue 10000 (body.length ≤ maxBody) ⟨.value, []⟩
    (runes (body.take maxBody))).bind (decodeRequest conv)

/-! ## Decoded values -/

variable {conv : Conversions}

theorem decodedFields_iff {n : ℕ} {fs : List (String × Json)} :
    DecodedFields conv n fs ↔ ∀ f ∈ fs, f.2.Decoded conv n := by
  induction fs with
  | nil => simp [DecodedFields]
  | cons f fs ih => simp [DecodedFields, ih]

theorem mem_insertField {k : String} {v : Json} {fs : List (String × Json)} {f : String × Json}
    (h : f ∈ insertField k v fs) : f = (k, v) ∨ f ∈ fs := by
  induction fs with
  | nil => exact .inl (List.mem_singleton.mp h)
  | cons g fs ih =>
    obtain ⟨k', v'⟩ := g
    rw [insertField] at h
    split_ifs at h
    · exact (List.mem_cons.mp h)
    · exact (List.mem_cons.mp h).imp id (List.mem_cons_of_mem _)
    · rcases List.mem_cons.mp h with rfl | h
      · exact .inr List.mem_cons_self
      · exact (ih h).imp id (List.mem_cons_of_mem _)

/-- A map stays in the order of its keys. -/
theorem pairwise_insertField {k : String} {v : Json} {fs : List (String × Json)}
    (h : fs.Pairwise fun f g => f.1 < g.1) :
    (insertField k v fs).Pairwise fun f g => f.1 < g.1 := by
  induction fs with
  | nil => exact List.pairwise_singleton _ _
  | cons f fs ih =>
    obtain ⟨k', v'⟩ := f
    obtain ⟨hhead, htail⟩ := List.pairwise_cons.mp h
    rw [insertField]
    split_ifs with hlt heq
    · refine List.pairwise_cons.mpr ⟨fun g hg => ?_, h⟩
      rcases List.mem_cons.mp hg with rfl | hg
      · exact hlt
      · exact lt_trans hlt (hhead g hg)
    · subst heq
      exact List.pairwise_cons.mpr ⟨hhead, htail⟩
    · refine List.pairwise_cons.mpr ⟨fun g hg => ?_, ih htail⟩
      rcases mem_insertField hg with rfl | hg
      · exact lt_of_le_of_ne (not_lt.mp hlt) (Ne.symm heq)
      · exact hhead g hg

mutual

/-- **Decoding a well formed value gives one that can be decoded again.** -/
theorem toAny_decoded : ∀ (t : JsonText) (n : ℕ) (j : Json), t.Fits n → toAny conv t = some j →
    j.Decoded conv n
  | .null, _, j, _, h => by
    obtain rfl := Option.some.inj h
    trivial
  | .bool _, _, j, _, h => by
    obtain rfl := Option.some.inj h
    trivial
  | .str _, _, j, _, h => by
    obtain rfl := Option.some.inj h
    trivial
  | .num lit, _, j, _, h => by
    obtain ⟨m, hm, rfl⟩ := Option.map_eq_some_iff.mp h
    exact ⟨lit, hm⟩
  | .arr xs, n + 1, j, hfits, h => by
    obtain ⟨ys, hys, rfl⟩ := Option.map_eq_some_iff.mp h
    exact anyElems_decoded xs n ys hfits hys
  | .obj ms, n + 1, j, hfits, h => by
    obtain ⟨fs, hfs, rfl⟩ := Option.map_eq_some_iff.mp h
    exact anyMembers_decoded ms n [] fs hfits .nil trivial hfs

theorem anyElems_decoded : ∀ (xs : List JsonText) (n : ℕ) (ys : List Json),
    JsonText.FitsElems n xs → anyElems conv xs = some ys → DecodedElems conv n ys
  | [], _, ys, _, h => by
    obtain rfl := Option.some.inj h
    trivial
  | x :: xs, n, ys, hfits, h => by
    obtain ⟨y, hy, hrest⟩ := Option.bind_eq_some_iff.mp h
    obtain ⟨ys, hys, rfl⟩ := Option.map_eq_some_iff.mp hrest
    exact ⟨toAny_decoded x n y hfits.1 hy, anyElems_decoded xs n ys hfits.2 hys⟩

theorem anyMembers_decoded : ∀ (ms : List (List Char × JsonText)) (n : ℕ)
    (fs fs' : List (String × Json)), JsonText.FitsMembers n ms →
    fs.Pairwise (fun f g => f.1 < g.1) → DecodedFields conv n fs →
    anyMembers conv fs ms = some fs' →
    fs'.Pairwise (fun f g => f.1 < g.1) ∧ DecodedFields conv n fs'
  | [], _, fs, fs', _, hsorted, hdec, h => by
    obtain rfl := Option.some.inj h
    exact ⟨hsorted, hdec⟩
  | (k, v) :: ms, n, fs, fs', hfits, hsorted, hdec, h => by
    obtain ⟨j, hj, hrest⟩ := Option.bind_eq_some_iff.mp h
    have hinsert : DecodedFields conv n (insertField (unquoteString k) j fs) :=
      decodedFields_iff.mpr fun f hf => by
        rcases mem_insertField hf with rfl | hf
        · exact toAny_decoded v n j hfits.2.1 hj
        · exact decodedFields_iff.mp hdec f hf
    exact anyMembers_decoded ms n _ fs' hfits.2.2 (pairwise_insertField hsorted) hinsert hrest

end

/-! ## Decoded requests -/

/-- The properties of a request can be decoded again. -/
def EventRequest.Decoded (conv : Conversions) (req : EventRequest) : Prop :=
  ∀ now, (req.toEvent now).Decoded conv

theorem decodeRequestMember_decoded {req req' : EventRequest} {member : List Char × JsonText}
    (hfits : member.2.Fits 9999) (hreq : req.Decoded conv)
    (h : decodeRequestMember conv req member = some req') : req'.Decoded conv := by
  unfold decodeRequestMember at h
  split at h
  · obtain rfl := Option.some.inj h
    exact hreq
  · obtain rfl := Option.some.inj h
    exact hreq
  · obtain ⟨id, -, rfl⟩ := Option.map_eq_some_iff.mp h
    exact hreq
  · obtain ⟨name, -, rfl⟩ := Option.map_eq_some_iff.mp h
    exact hreq
  · obtain ⟨id, -, rfl⟩ := Option.map_eq_some_iff.mp h
    exact hreq
  · obtain ⟨props, hprops, rfl⟩ := Option.map_eq_some_iff.mp h
    intro now
    unfold decodeProperties at hprops
    split at hprops
    · obtain rfl := Option.some.inj hprops
      trivial
    · rename_i ms hms
      obtain ⟨fs, hfs, rfl⟩ := Option.map_eq_some_iff.mp hprops
      rw [hms] at hfits
      have hold : (req.properties.getD []).Pairwise (fun f g => f.1 < g.1) ∧
          DecodedFields conv 9998 (req.properties.getD []) := by
        have hnow := hreq now
        unfold Event.Decoded Event.propertiesJson EventRequest.toEvent at hnow
        cases hproperties : req.properties with
        | none => exact ⟨.nil, trivial⟩
        | some fs =>
          rw [hproperties] at hnow
          exact hnow
      exact anyMembers_decoded ms 9998 _ fs hfits hold.1 hold.2 hfs
    · cases hprops

theorem decodeRequest_decoded {t : JsonText} {req : EventRequest} (hfits : t.Fits 10000)
    (h : decodeRequest conv t = some req) : req.Decoded conv := by
  have hzero : EventRequest.zero.Decoded conv := fun _ => trivial
  unfold decodeRequest at h
  split at h
  · obtain rfl := Option.some.inj h
    exact hzero
  · rename_i ms
    have hall : ∀ m ∈ ms, m.2.Fits 9999 := fun m hm => (JsonText.fitsMembers_iff.mp hfits m hm).2
    clear hfits
    generalize EventRequest.zero = old at h hzero
    induction ms generalizing old with
    | nil =>
      obtain rfl := Option.some.inj h
      exact hzero
    | cons m ms ih =>
      obtain ⟨req₁, hm, hrest⟩ := Option.bind_eq_some_iff.mp (List.foldlM_cons.symm.trans h)
      exact ih (fun m' hm' => hall m' (List.mem_cons_of_mem _ hm')) req₁ hrest
        (decodeRequestMember_decoded (hall m List.mem_cons_self) hzero hm)
  · cases h

/-- **What a body decodes to can be decoded again.** -/
theorem decodeBody_decoded {body : List UInt8} {req : EventRequest}
    (h : decodeBody conv body = some req) : req.Decoded conv := by
  obtain ⟨t, ht, hreq⟩ := Option.bind_eq_some_iff.mp h
  exact decodeRequest_decoded (Scanner.firstValue_fits (Scanner.valid_start _) ht) hreq

theorem decodedFields_strings (ps : List (String × String)) (n : ℕ) :
    DecodedFields conv n (ps.map fun p => (p.1, .str p.2)) := by
  refine decodedFields_iff.mpr fun f hf => ?_
  obtain ⟨p, -, rfl⟩ := List.mem_map.mp hf
  trivial

/-- The properties of a gRPC event are a map of strings. -/
theorem PublishEvent.toEvent_decoded {pe : PublishEvent}
    (hsorted : pe.properties.Pairwise fun p q => p.1 < q.1) (now : ℤ) :
    (pe.toEvent now).Decoded conv :=
  ⟨List.pairwise_map.mpr hsorted, decodedFields_strings pe.properties 9998⟩

/-! ## Through the topic -/

/-- A request as the servers pass it on: the body is decoded from its bytes, and the properties of a
protobuf event are a map, listed in the order of its keys. -/
def Request.FromWire (conv : Conversions) : Request → Prop
  | .http r => ∃ body, r.body = decodeBody conv body
  | .grpc r => ∀ pe ∈ r.events, pe.properties.Pairwise fun p q => p.1 < q.1

/-- The events of a request can be decoded again. -/
theorem Request.events_decoded {r : Request} (h : r.FromWire conv) {now : ℤ} {e : Event}
    (he : e ∈ r.events now) : e.Decoded conv := by
  cases r with
  | http r =>
    obtain ⟨body, hbody⟩ := h
    simp only [Request.events] at he
    split at he
    · cases he
    · rename_i req hreq
      split_ifs at he
      · cases he
      · obtain rfl := List.mem_singleton.mp he
        exact decodeBody_decoded (hbody.symm.trans hreq) now
  | grpc r =>
    obtain ⟨pe, hpe, rfl⟩ := List.mem_map.mp he
    exact PublishEvent.toEvent_decoded (h pe (List.mem_filter.mp hpe).1) now

/-- **The topic changes no batch of events.** For all events of requests that come through the
doors, whatever the bytes of the bodies and the values of the properties: `Enqueue` of a Kafka
producer marshals an event unless its time has no text, and records that hold the events decode to
the same events in the same order, so that a consumer hands `InsertBatch` what a worker of the queue
in memory would. -/
theorem request_events_pass_unchanged {π : Type*} {events : List Event}
    (h : ∀ e ∈ events, ∃ r now, Request.FromWire conv r ∧ e ∈ r.events now) :
    (∀ e ∈ events, e.record conv = none ↔ conv.formatTime e.ts = none) ∧
    ∀ recs : List (Record π), recs.map (some ∘ Record.value) = events.map (Event.record conv) →
      decodeRecords (unmarshal conv) recs = events := by
  refine ⟨fun e _ => Option.map_eq_none_iff, fun recs hrecs => ?_⟩
  induction events generalizing recs with
  | nil =>
    obtain rfl := List.map_eq_nil_iff.mp hrecs
    rfl
  | cons e events ih =>
    cases recs with
    | nil => cases hrecs
    | cons record recs =>
      rw [List.map_cons, List.map_cons, List.cons.injEq] at hrecs
      obtain ⟨r, now, hr, he⟩ := h e List.mem_cons_self
      have hdecode := unmarshal_record (r.events_decoded hr he) hrecs.1.symm
      have hrest := ih (fun e he => h e (List.mem_cons_of_mem _ he)) recs hrecs.2
      rw [decodeRecords] at hrest ⊢
      rw [List.filterMap_cons_some (f := fun r : Record π => unmarshal conv r.value) hdecode, hrest]

/-- A published click, in the record of a producer. -/
theorem request_events_pass_unchanged_click :
    let pe : PublishEvent := ⟨"e1", "buy_click", "u1", [("page", "/cart")]⟩
    ∃ value, (pe.toEvent 0).record .epoch = some value ∧
      decodeRecords (unmarshal .epoch) [(⟨(), 0, value⟩ : Record Unit)] = [pe.toEvent 0] := by
  intro pe
  have hsome : ((pe.toEvent 0).record .epoch).isSome := rfl
  obtain ⟨value, hvalue⟩ := Option.isSome_iff_exists.mp hsome
  have hwire : Request.FromWire .epoch (.grpc ⟨[], none, [pe]⟩) := by
    simp [Request.FromWire, pe]
  have hevents : pe.toEvent 0 ∈ Request.events 0 (.grpc ⟨[], none, [pe]⟩) := by
    simp [Request.events, validEvents, PublishEvent.reason, pe]
  refine ⟨value, hvalue, (request_events_pass_unchanged ?_).2 _ (by simp [hvalue])⟩
  simp only [List.mem_singleton, forall_eq]
  exact ⟨_, 0, hwire, hevents⟩

/-! ## Reading a body back -/

/-- The field of a member of an object. -/
def memberField (member : List Char × JsonText) : Option EventField :=
  EventField.find (unquoteString member.1)

/-- The member says of its field what the request has; a member of no field says nothing. -/
def EventRequest.Agrees (conv : Conversions) (req : EventRequest)
    (member : List Char × JsonText) : Prop :=
  match memberField member with
  | none | some .ts => True
  | some .eventId => asString member.2 = some req.eventId
  | some .name => asString member.2 = some req.name
  | some .distinctId => asString member.2 = some req.distinctId
  | some .properties => decodeProperties conv none member.2 = some req.properties

/-- The request has of the field what it has if the field is left out. -/
def EventRequest.Lacks (req : EventRequest) : EventField → Prop
  | .eventId => req.eventId = ""
  | .name => req.name = ""
  | .distinctId => req.distinctId = ""
  | .properties => req.properties = none
  | .ts => True

/-- The members of an object hold a request, in whatever order and among whatever others: they agree
with it, and what it lacks is all they leave out. The properties are given once, as the members of a
second map would join the first. -/
structure EventRequest.WrittenAs (conv : Conversions) (req : EventRequest)
    (ms : List (List Char × JsonText)) : Prop where
  once : (ms.filterMap memberField).count .properties ≤ 1
  agrees : ∀ m ∈ ms, req.Agrees conv m
  lacks : ∀ field, field ∉ ms.filterMap memberField → req.Lacks field

/-- A request with some of its fields taken from another. -/
def EventRequest.update (old req : EventRequest) (fs : List EventField) : EventRequest where
  eventId := if .eventId ∈ fs then req.eventId else old.eventId
  name := if .name ∈ fs then req.name else old.name
  distinctId := if .distinctId ∈ fs then req.distinctId else old.distinctId
  properties := if .properties ∈ fs then req.properties else old.properties

theorem EventRequest.update_update (old req : EventRequest) (fs gs : List EventField) :
    (old.update req fs).update req gs = old.update req (fs ++ gs) := by
  simp only [update, List.mem_append, EventRequest.mk.injEq]
  refine ⟨?_, ?_, ?_, ?_⟩ <;> split_ifs <;> tauto

theorem decodeString_of_asString {old s : String} {t : JsonText} (h : asString t = some s) :
    decodeString old t = some s := by
  cases t with
  | str lit => exact h
  | _ => cases h

/-- A member that agrees with a request sets its field. -/
theorem EventRequest.Agrees.decode {req : EventRequest} {m : List Char × JsonText}
    (h : req.Agrees conv m) {old : EventRequest}
    (hold : memberField m = some .properties → old.properties = none) :
    decodeRequestMember conv old m = some (old.update req (memberField m).toList) := by
  unfold Agrees at h
  unfold decodeRequestMember
  rw [← memberField]
  cases hfield : memberField m with
  | none => simp [update]
  | some field =>
    rw [hfield] at h
    cases field with
    | ts => simp [update]
    | properties =>
      have hprops : decodeProperties conv old.properties m.2 = some req.properties := by
        rwa [hold hfield]
      simp [hprops, update]
    | _ => simp [decodeString_of_asString h, update]

/-- Members that agree with a request, and give its properties once, set their fields. -/
theorem foldlM_decodeRequestMember {req : EventRequest} {ms : List (List Char × JsonText)}
    (hagrees : ∀ m ∈ ms, req.Agrees conv m)
    (honce : (ms.filterMap memberField).count .properties ≤ 1)
    {old : EventRequest} (hold : .properties ∈ ms.filterMap memberField → old.properties = none) :
    ms.foldlM (decodeRequestMember conv) old =
      some (old.update req (ms.filterMap memberField)) := by
  induction ms generalizing old with
  | nil => simp [EventRequest.update]
  | cons m ms ih =>
    have hsplit : (m :: ms).filterMap memberField =
        (memberField m).toList ++ ms.filterMap memberField := by
      cases hfield : memberField m <;> simp [hfield]
    rw [hsplit] at honce hold ⊢
    rw [List.count_append] at honce
    have hfirst : decodeRequestMember conv old m = some (old.update req (memberField m).toList) :=
      (hagrees m List.mem_cons_self).decode fun hfield =>
        hold (List.mem_append_left _ (by simp [hfield]))
    rw [List.foldlM_cons, hfirst, Option.bind_eq_bind, Option.bind_some,
      ih (fun m' hm' => hagrees m' (List.mem_cons_of_mem m hm')) (by omega),
      EventRequest.update_update]
    intro hlater
    have hnot : .properties ∉ (memberField m).toList := by
      intro hmem
      have h₁ := List.count_pos_iff.mpr hmem
      have h₂ := List.count_pos_iff.mpr hlater
      omega
    simp only [EventRequest.update, if_neg hnot]
    exact hold (List.mem_append_right _ hlater)

/-- **The members that hold a request are decoded to it.** -/
theorem EventRequest.WrittenAs.decodeRequest {req : EventRequest}
    {ms : List (List Char × JsonText)} (h : req.WrittenAs conv ms) :
    decodeRequest conv (.obj ms) = some req := by
  rw [Tally.decodeRequest, foldlM_decodeRequestMember h.agrees h.once fun _ => rfl, update,
    Option.some.injEq, EventRequest.mk.injEq]
  exact ⟨ite_eq_left_iff.mpr fun hne => (h.lacks .eventId hne).symm,
    ite_eq_left_iff.mpr fun hne => (h.lacks .name hne).symm,
    ite_eq_left_iff.mpr fun hne => (h.lacks .distinctId hne).symm,
    ite_eq_left_iff.mpr fun hne => (h.lacks .properties hne).symm⟩

/-- The fields of a request as they are marshalled. -/
def EventRequest.fields (req : EventRequest) : List (String × Json) :=
  [("event_id", .str req.eventId), ("name", .str req.name), ("distinct_id", .str req.distinctId),
    ("properties", (req.toEvent 0).propertiesJson)]

/-- The marshalled fields hold the request. -/
theorem EventRequest.writtenAs_fields {req : EventRequest} (hdec : req.Decoded conv) :
    req.WrittenAs conv (textFields req.fields) := by
  have hfield : ∀ (field : EventField) (t : JsonText),
      memberField (escaped field.tag, t) = some field := fun field t => by
    rw [memberField, unquote_escaped, EventField.find_tag]
  have hid : ∀ t, memberField (escaped "event_id", t) = some .eventId := hfield .eventId
  have hname : ∀ t, memberField (escaped "name", t) = some .name := hfield .name
  have hdistinct : ∀ t, memberField (escaped "distinct_id", t) = some .distinctId :=
    hfield .distinctId
  have hprops : ∀ t, memberField (escaped "properties", t) = some .properties :=
    hfield .properties
  have hfields : (textFields req.fields).filterMap memberField =
      [.eventId, .name, .distinctId, .properties] := by
    simp [EventRequest.fields, textFields, hid, hname, hdistinct, hprops]
  refine ⟨hfields ▸ by decide, ?_, fun field hne => ?_⟩
  · simp only [EventRequest.fields, textFields, Json.text, List.forall_mem_cons, Agrees, hid, hname,
      hdistinct, hprops, asString, unquote_escaped, true_and]
    exact ⟨decodeProperties_text (hdec 0), nofun⟩
  · rw [hfields] at hne
    cases field with
    | ts => trivial
    | _ => simp at hne

theorem readAll_flatMap_append {α β : Type*} {read : α → List α → β × ℕ} {write : β → List α}
    (hread : ∀ b rest, ∃ a as, write b = a :: as ∧ read a (as ++ rest) = (b, as.length))
    (bs : List β) (rest : List α) :
    readAll read 0 (bs.flatMap write ++ rest) = bs ++ readAll read 0 rest := by
  induction bs with
  | nil => rfl
  | cons b bs ih =>
    obtain ⟨a, as, hwrite, hb⟩ := hread b (bs.flatMap write ++ rest)
    rw [List.flatMap_cons, hwrite, List.append_assoc, List.cons_append, readAll, hb,
      readAll_length_append, ih, List.cons_append]

/-- **A body is read back from its text, whatever follows it.** A client that writes the fields of a
request in one JSON object of at most a megabyte is understood, whatever spaces and escapes it uses,
in whatever order the members come and whatever others there are, also if it leaves out what is
empty; and bytes after the object are not looked at, also if they are another event or go beyond the
cap. What marshalling the fields gives is such an object. -/
theorem body_read_back (conv : Conversions) (req : EventRequest) :
    (∀ (text : List Char) (ms : List (List Char × JsonText)) (rest : List UInt8),
      parseJson 10000 text = some (.obj ms) → req.WrittenAs conv ms →
      (text.flatMap String.utf8EncodeChar).length ≤ maxBody →
      decodeBody conv (text.flatMap String.utf8EncodeChar ++ rest) = some req) ∧
    (req.Decoded conv → ∃ ms, parseJson 10000 (marshal (.obj req.fields)) = some (.obj ms) ∧
      req.WrittenAs conv ms) := by
  refine ⟨fun text ms rest htext hreq hcap => ?_, fun hdec => ?_⟩
  · rw [decodeBody, List.take_append, List.take_of_length_le hcap, runes,
      readAll_flatMap_append decodeRune_encode, Scanner.firstValue_of_parseJson htext,
      Option.bind_some, hreq.decodeRequest]
  · have hstr : ∀ s, (JsonText.str (escaped s)).Fits 9999 := isString_escaped
    have hfits : (Json.obj req.fields).text.Fits 10000 :=
      ⟨isString_escaped _, hstr _, isString_escaped _, hstr _, isString_escaped _, hstr _,
        isString_escaped _, fits_text _ _ (hdec 0), trivial⟩
    refine ⟨_, ?_, EventRequest.writtenAs_fields hdec⟩
    rw [marshal_eq_render, parseJson_render hfits, Json.text]

/-- Two events in one body: the first, with spaces, in another order, with one more member and
without properties, is read, and the second is ignored. -/
theorem body_read_back_two_events :
    let first := "\x7b\"name\": \"buy_click\", \"v\": 2, \"Event_ID\": \"e1\", ".toList ++
      "\"distinct_id\": \"u1\" \x7d".toList
    let second := "\x7b\"event_id\":\"e2\",\"name\":\"page_view\"\x7d".toList
    decodeBody .epoch (first.flatMap String.utf8EncodeChar ++
      second.flatMap String.utf8EncodeChar) = some ⟨"e1", "buy_click", "u1", none⟩ := by
  intro first second
  let ms : List (List Char × JsonText) :=
    [("name".toList, .str "buy_click".toList), ("v".toList, .num "2".toList),
      ("Event_ID".toList, .str "e1".toList), ("distinct_id".toList, .str "u1".toList)]
  have htext : parseJson 10000 first = some (.obj ms) := by rfl
  have hfields : ms.map memberField =
      [some .name, none, some .eventId, some .distinctId] := by decide +kernel
  have hmembers : ms.filterMap memberField = [.name, .eventId, .distinctId] := by decide +kernel
  have hstrings : asString (.str "buy_click".toList) = some "buy_click" ∧
      asString (.str "e1".toList) = some "e1" ∧ asString (.str "u1".toList) = some "u1" := by
    decide +kernel
  have hreq : EventRequest.WrittenAs .epoch ⟨"e1", "buy_click", "u1", none⟩ ms := by
    refine ⟨hmembers ▸ by decide, ?_, fun field hne => ?_⟩
    · simp only [ms, List.map_cons, List.map_nil, List.cons.injEq] at hfields
      simp only [ms, List.forall_mem_cons, EventRequest.Agrees, hfields, hstrings, true_and]
      exact nofun
    · rw [hmembers] at hne
      cases field with
      | ts => trivial
      | properties => rfl
      | _ => simp at hne
  have hcap : (first.flatMap String.utf8EncodeChar).length ≤ maxBody := by decide +kernel
  exact (body_read_back .epoch _).1 first ms _ htext hreq hcap

end Tally
