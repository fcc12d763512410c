import Tally.Queue.Kafka

/-!
# Kafka crash safety

Offsets are committed only after the events below them are stored. A record below a consumer's
position is handled, or among the records it is inserting; below a record being inserted every
record is handled or inserted with it; and below a record about to be committed every record is
handled. This survives crashes and rebalances at any point, since a position starts at a committed
offset, and commits of consumers that lost the partition, since those are of handled records too.

## Main definitions

* `Broker.Handled`: a record that does not decode, or whose event is stored
* `Consumer.Inv`, `Broker.Inv`: the invariant

## Main results

* `Broker.Step.inv`, `Broker.Reachable.inv`: the invariant holds in every state reached
* `committed_records_are_stored`: nothing committed is lost, and nothing is counted twice
-/

namespace Tally

open Foundation

variable {ι π : Type*}

theorem mem_fetched {log : List (List UInt8)} {p : π} {q n : ℕ} {r : Record π} :
    r ∈ fetched log p q n ↔ r.partition = p ∧ q ≤ r.offset ∧ r.offset < q + n ∧
      log[r.offset]? = some r.value := by
  obtain ⟨partition, offset, value⟩ := r
  simp only [fetched, List.mem_map, Prod.exists, Record.mk.injEq]
  constructor
  · rintro ⟨v, o, hmem, rfl, rfl, rfl⟩
    obtain ⟨hle, hget⟩ := List.mk_mem_zipIdx_iff_le_and_getElem?_sub.mp hmem
    rw [List.getElem?_take] at hget
    split_ifs at hget with hlt
    rw [List.getElem?_drop, Nat.add_sub_cancel' hle] at hget
    exact ⟨rfl, hle, by omega, hget⟩
  · rintro ⟨rfl, hle, hlt, hget⟩
    refine ⟨value, offset, List.mk_mem_zipIdx_iff_le_and_getElem?_sub.mpr ⟨hle, ?_⟩, rfl, rfl, rfl⟩
    rw [List.getElem?_take, if_pos (by omega), List.getElem?_drop, Nat.add_sub_cancel' hle]
    exact hget

theorem highest_eq_some [DecidableEq π] {recs : List (Record π)} {p : π} {o : ℕ}
    (h : highest recs p = some o) : ∃ r ∈ recs, r.partition = p ∧ r.offset = o := by
  obtain ⟨hmem, -⟩ := List.max?_eq_some_iff.mp h
  obtain ⟨r, hr, rfl⟩ := List.mem_map.mp hmem
  obtain ⟨hrecs, hp⟩ := List.mem_filter.mp hr
  exact ⟨r, hrecs, of_decide_eq_true hp, rfl⟩

theorem getElem?_eq_of_grows {α : Type*} {l l' : List α} (h : l <+: l') {o : ℕ} {a : α}
    (ha : l[o]? = some a) : l'[o]? = some a := by
  obtain ⟨hlt, rfl⟩ := List.getElem?_eq_some_iff.mp ha
  exact List.prefix_iff_getElem?.mp h o hlt

/-! ## The invariant -/

/-- The record at an offset of a partition is among those being inserted. -/
def Consumer.InFlight (k : Consumer π) (p : π) (o : ℕ) : Prop :=
  match k.loop with
  | .inserting recs _ => ∃ r ∈ recs, r.partition = p ∧ r.offset = o
  | _ => False

/-- What holds of a consumer, for a predicate of the records that are handled. -/
structure Consumer.Inv (logs : π → List (List UInt8)) (handled : π → ℕ → Prop) (k : Consumer π) :
    Prop where
  pos : ∀ p q, k.pos p = some q → ∀ o < q, handled p o ∨ k.InFlight p o
  inserting : ∀ recs n, k.loop = .inserting recs n → ∀ r ∈ recs,
    (logs r.partition)[r.offset]? = some r.value ∧
      ∀ o < r.offset, handled r.partition o ∨ k.InFlight r.partition o
  committing : ∀ recs, k.loop = .committing recs → ∀ r ∈ recs, ∀ o ≤ r.offset,
    handled r.partition o

/-- More records, and more of them handled. -/
theorem Consumer.Inv.mono {logs logs' : π → List (List UInt8)} {handled handled' : π → ℕ → Prop}
    {k : Consumer π} (h : k.Inv logs handled) (hlogs : ∀ p, logs p <+: logs' p)
    (hhandled : ∀ p o, handled p o → handled' p o) : k.Inv logs' handled' where
  pos p q hq o ho := (h.pos p q hq o ho).imp (hhandled p o) id
  inserting recs n hl r hr := by
    obtain ⟨hget, hbelow⟩ := h.inserting recs n hl r hr
    exact ⟨getElem?_eq_of_grows (hlogs r.partition) hget,
      fun o ho => (hbelow o ho).imp (hhandled _ o) id⟩
  committing recs hl r hr o ho := hhandled _ o (h.committing recs hl r hr o ho)

/-- A consumer with nothing assigned and nothing in flight. -/
theorem Consumer.inv_idle (logs : π → List (List UInt8)) (handled : π → ℕ → Prop) {loop : Loop π}
    (hloop : loop = .stopped ∨ loop = .polling) :
    Consumer.Inv logs handled ⟨fun _ => none, loop⟩ where
  pos p q hq := by cases hq
  inserting recs n hl := by rcases hloop with rfl | rfl <;> cases hl
  committing recs hl := by rcases hloop with rfl | rfl <;> cases hl

namespace Broker

variable {c : Postgres} {unmarshal : List UInt8 → Option Event}
  {batchSize : ℕ} {logs : π → List (List UInt8)} {st : Store} {s s' : Broker ι π}

/-- The record at an offset does not decode, or its event is stored. -/
def Handled (unmarshal : List UInt8 → Option Event) (logs : π → List (List UInt8)) (st : Store)
    (p : π) (o : ℕ) : Prop :=
  ∃ value, (logs p)[o]? = some value ∧ ∀ e, unmarshal value = some e → e.eventId ∈ st.ids

/-- **The invariant of the group.** -/
structure Inv (unmarshal : List UInt8 → Option Event) (s : Broker ι π) : Prop where
  committed : ∀ p, ∀ o < s.committed p, Handled unmarshal s.logs s.store p o
  consumers : ∀ i, (s.consumers i).Inv s.logs (Handled unmarshal s.logs s.store)
  sound : s.store.Sound

theorem Handled.mono {logs' : π → List (List UInt8)} {st' : Store} {p : π} {o : ℕ}
    (h : Handled unmarshal logs st p o) (hlogs : ∀ p, logs p <+: logs' p)
    (hids : ∀ id ∈ st.ids, id ∈ st'.ids) : Handled unmarshal logs' st' p o := by
  obtain ⟨value, hget, hstored⟩ := h
  exact ⟨value, getElem?_eq_of_grows (hlogs p) hget, fun e he => hids _ (hstored e he)⟩

theorem inv_init (ι : Type*) (logs : π → List (List UInt8)) (hst : st.Sound) :
    (init ι logs st).Inv unmarshal where
  committed _ o ho := absurd ho (Nat.not_lt_zero o)
  consumers _ := Consumer.inv_idle _ _ (.inl rfl)
  sound := hst

/-- One consumer changes, and the rest of the system only grows. -/
theorem Inv.setConsumer [DecidableEq ι] (h : s.Inv unmarshal) {i : ι} {k : Consumer π} {st : Store}
    {committed : π → ℕ} (hst : st.Sound) (hids : ∀ id ∈ s.store.ids, id ∈ st.ids)
    (hcommitted : ∀ p, ∀ o < committed p, Handled unmarshal s.logs st p o)
    (hk : k.Inv s.logs (Handled unmarshal s.logs st)) :
    Inv unmarshal { s.setConsumer i k with store := st, committed := committed } where
  committed := hcommitted
  consumers := by
    refine (Function.forall_update_iff s.consumers fun _ k =>
      k.Inv s.logs (Handled unmarshal s.logs st)).mpr ⟨hk, fun j _ => ?_⟩
    exact (h.consumers j).mono (fun _ => List.prefix_rfl)
      fun _ _ hh => hh.mono (fun _ => List.prefix_rfl) hids
  sound := hst

theorem mem_polled {i : ι} {takes : List (π × ℕ)} {r : Record π} :
    r ∈ s.polled i takes ↔ ∃ n q, (r.partition, n) ∈ takes ∧
      (s.consumers i).pos r.partition = some q ∧ q ≤ r.offset ∧ r.offset < q + n ∧
        (s.logs r.partition)[r.offset]? = some r.value := by
  simp only [polled, List.mem_flatMap, Prod.exists]
  constructor
  · rintro ⟨p, n, ht, hr⟩
    cases hq : (s.consumers i).pos p with
    | none => simp [hq] at hr
    | some q =>
      simp only [hq] at hr
      obtain ⟨rfl, hle, hlt, hget⟩ := mem_fetched.mp hr
      exact ⟨n, q, ht, hq, hle, hlt, hget⟩
  · rintro ⟨n, q, ht, hq, hle, hlt, hget⟩
    refine ⟨r.partition, n, ht, ?_⟩
    simp only [hq]
    exact mem_fetched.mpr ⟨rfl, hle, hlt, hget⟩

/-- After a poll, everything below the records polled and below the new positions is handled or in
flight. -/
theorem inv_poll [DecidableEq π] {i : ι} {takes : List (π × ℕ)} {handled : π → ℕ → Prop}
    (h : (s.consumers i).Inv s.logs handled) (polling : (s.consumers i).loop = .polling)
    (available : ∀ t ∈ takes, ∃ q, (s.consumers i).pos t.1 = some q ∧
      q + t.2 ≤ (s.logs t.1).length) :
    Consumer.Inv s.logs handled
      ⟨advancePos (s.consumers i).pos takes, .inserting (s.polled i takes) 1⟩ := by
  -- below the old position everything is handled: nothing was in flight
  have hold : ∀ p q, (s.consumers i).pos p = some q → ∀ o < q, handled p o := by
    intro p q hq o ho
    refine (h.pos p q hq o ho).resolve_right fun hf => ?_
    simp [Consumer.InFlight, polling] at hf
  have hnew : ∀ p n q, (p, n) ∈ takes → (s.consumers i).pos p = some q → ∀ o, q ≤ o → o < q + n →
      ∃ r ∈ s.polled i takes, r.partition = p ∧ r.offset = o := by
    intro p n q ht hq o hle hlt
    obtain ⟨q', hq', hlen⟩ := available (p, n) ht
    obtain rfl : q' = q := Option.some.inj (hq'.symm.trans hq)
    dsimp only at hlen
    have hget : (s.logs p)[o]? = some (s.logs p)[o] := List.getElem?_eq_getElem (by omega)
    exact ⟨⟨p, o, _⟩, mem_polled.mpr ⟨n, q', ht, hq, hle, hlt, hget⟩, rfl, rfl⟩
  refine ⟨fun p q' hq' o ho => ?_, fun recs n hl r hr => ?_, fun recs hl => by cases hl⟩
  · obtain ⟨q, hq, rfl⟩ := Option.map_eq_some_iff.mp hq'
    by_cases hoq : o < q
    · exact .inl (hold p q hq o hoq)
    · cases ht : takes.lookup p with
      | none =>
        rw [ht, Option.getD_none] at ho
        omega
      | some n =>
        rw [ht, Option.getD_some] at ho
        obtain ⟨l₁, l₂, htakes, -⟩ := List.lookup_eq_some_iff.mp ht
        exact .inr (hnew p n q (by simp [htakes]) hq o (by omega) ho)
  · cases hl
    obtain ⟨n, q, ht, hq, hle, hlt, hget⟩ := mem_polled.mp hr
    refine ⟨hget, fun o ho => ?_⟩
    by_cases hoq : o < q
    · exact .inl (hold _ q hq o hoq)
    · exact .inr (hnew _ n q ht hq o (by omega) (by omega))

/-- After a successful attempt, every record in flight is handled. -/
theorem handled_of_inserted {recs : List (Record π)} {n k : ℕ} {st : Store} {i : ι}
    (h : s.Inv unmarshal) (inserting : (s.consumers i).loop = .inserting recs n)
    (attempt : Attempt c (decodeRecords unmarshal recs) s.store (some k) st) {r : Record π}
    (hr : r ∈ recs) : Handled unmarshal s.logs st r.partition r.offset := by
  refine ⟨r.value, ((h.consumers i).inserting recs n inserting r hr).1, fun e he => ?_⟩
  exact attempt.mem_ids (List.mem_filterMap.mpr ⟨r, hr, he⟩)

/-- An attempt that fails changes nothing the consumer knows. -/
theorem inv_retry {k : Consumer π} {recs : List (Record π)} {n : ℕ} {handled : π → ℕ → Prop}
    (h : k.Inv logs handled) (inserting : k.loop = .inserting recs n) (n' : ℕ) :
    Consumer.Inv logs handled ⟨k.pos, .inserting recs n'⟩ := by
  have hflight : ∀ p o, k.InFlight p o →
      Consumer.InFlight ⟨k.pos, .inserting recs n'⟩ p o := fun p o hf => by
    simpa only [Consumer.InFlight, inserting] using hf
  refine ⟨fun p q hq o ho => (h.pos p q hq o ho).imp id (hflight p o), fun recs' m hl r hr => ?_,
    fun recs' hl => by cases hl⟩
  cases hl
  obtain ⟨hget, hbelow⟩ := h.inserting recs n inserting r hr
  exact ⟨hget, fun o ho => (hbelow o ho).imp id (hflight _ o)⟩

/-- A committed record and all below it are handled, so the consumer may go on from anywhere. -/
theorem inv_polling {k : Consumer π} {recs : List (Record π)} {handled : π → ℕ → Prop}
    (h : k.Inv logs handled) (committing : k.loop = .committing recs) :
    Consumer.Inv logs handled ⟨k.pos, .polling⟩ := by
  refine ⟨fun p q hq o ho => .inl ?_, fun _ _ hl => (by cases hl), fun _ hl => by cases hl⟩
  refine (h.pos p q hq o ho).resolve_right fun hf => ?_
  simp [Consumer.InFlight, committing] at hf

theorem inv_reassign [DecidableEq π] {k : Consumer π} {handled : π → ℕ → Prop}
    (h : k.Inv logs handled) {p : π} {pos : Option ℕ}
    (hpos : ∀ q, pos = some q → ∀ o < q, handled p o) :
    Consumer.Inv logs handled ⟨Function.update k.pos p pos, k.loop⟩ := by
  refine ⟨fun p' q hq o ho => ?_, h.inserting, h.committing⟩
  dsimp only at hq
  by_cases hp : p' = p
  · subst hp
    rw [Function.update_self] at hq
    exact .inl (hpos q hq o ho)
  · rw [Function.update_of_ne hp] at hq
    exact h.pos p' q hq o ho

theorem inv_committing {recs : List (Record π)} {n k : ℕ} {st : Store} {i : ι}
    (h : s.Inv unmarshal) (inserting : (s.consumers i).loop = .inserting recs n)
    (attempt : Attempt c (decodeRecords unmarshal recs) s.store (some k) st) :
    Consumer.Inv s.logs (Handled unmarshal s.logs st)
      ⟨(s.consumers i).pos, .committing recs⟩ := by
  have hmono : ∀ p o, Handled unmarshal s.logs s.store p o → Handled unmarshal s.logs st p o :=
    fun p o hh => hh.mono (fun _ => List.prefix_rfl) fun _ hid => attempt.ids_subset hid
  have hflight : ∀ p o, Handled unmarshal s.logs s.store p o ∨ (s.consumers i).InFlight p o →
      Handled unmarshal s.logs st p o := by
    rintro p o (hh | hf)
    · exact hmono p o hh
    · simp only [Consumer.InFlight, inserting] at hf
      obtain ⟨r, hr, rfl, rfl⟩ := hf
      exact handled_of_inserted h inserting attempt hr
  have hk := h.consumers i
  refine ⟨fun p q hq o ho => .inl (hflight p o (hk.pos p q hq o ho)),
    fun recs' n' hl => (by cases hl), fun recs' hl r hr o ho => ?_⟩
  cases hl
  rcases Nat.lt_or_eq_of_le ho with hlt | rfl
  · exact hflight _ o ((hk.inserting recs n inserting r hr).2 o hlt)
  · exact handled_of_inserted h inserting attempt hr

section Steps

variable [DecidableEq ι] [DecidableEq π]

/-- **Every step keeps the invariant.** -/
theorem Step.inv (hstep : Step c unmarshal batchSize s s') (h : s.Inv unmarshal) :
    s'.Inv unmarshal := by
  cases hstep with
  | produce p value =>
    have hlogs : ∀ p', s.logs p' <+: Function.update s.logs p (s.logs p ++ [value]) p' :=
      (Function.forall_update_iff s.logs fun p' log => s.logs p' <+: log).mpr
        ⟨List.prefix_append _ _, fun _ _ => List.prefix_rfl⟩
    exact ⟨fun p' o ho => (h.committed p' o ho).mono hlogs fun _ hid => hid,
      fun i => (h.consumers i).mono hlogs fun _ _ hh => hh.mono hlogs fun _ hid => hid, h.sound⟩
  | poll i takes polling distinct available bounded some_records =>
    exact h.setConsumer h.sound (fun _ hid => hid) h.committed
      (inv_poll (h.consumers i) polling available)
  | insertOk i recs n k st inserting attempt =>
    exact h.setConsumer (attempt.sound h.sound) (fun _ hid => attempt.ids_subset hid)
      (fun p o ho => (h.committed p o ho).mono (fun _ => List.prefix_rfl)
        fun _ hid => attempt.ids_subset hid)
      (inv_committing h inserting attempt)
  | insertRetry i recs n st inserting attempt again =>
    have hids : ∀ id ∈ s.store.ids, id ∈ st.ids := fun _ hid => attempt.ids_subset hid
    have hmono : ∀ p o, Handled unmarshal s.logs s.store p o → Handled unmarshal s.logs st p o :=
      fun p o hh => hh.mono (fun _ => List.prefix_rfl) hids
    exact h.setConsumer (attempt.sound h.sound) hids (fun p o ho => hmono p o (h.committed p o ho))
      (inv_retry ((h.consumers i).mono (fun _ => List.prefix_rfl) hmono) inserting (n + 1))
  | commit i recs effective committing =>
    refine h.setConsumer h.sound (fun _ hid => hid) (fun p o ho => ?_)
      (inv_polling (h.consumers i) committing)
    unfold commitRecords at ho
    split at ho
    · exact h.committed p o ho
    · rename_i offset hhigh
      split_ifs at ho
      · obtain ⟨r, hr, rfl, rfl⟩ := highest_eq_some hhigh
        exact (h.consumers i).committing recs committing r hr o (Nat.lt_succ_iff.mp ho)
      · exact h.committed p o ho
  | stop i =>
    exact h.setConsumer h.sound (fun _ hid => hid) h.committed (Consumer.inv_idle _ _ (.inl rfl))
  | start i stopped =>
    exact h.setConsumer h.sound (fun _ hid => hid) h.committed (Consumer.inv_idle _ _ (.inr rfl))
  | assign i p =>
    refine h.setConsumer h.sound (fun _ hid => hid) h.committed
      (inv_reassign (h.consumers i) fun q hq o ho => ?_)
    obtain rfl := Option.some.inj hq
    exact h.committed p o ho
  | revoke i p =>
    exact h.setConsumer h.sound (fun _ hid => hid) h.committed
      (inv_reassign (h.consumers i) fun q hq => by cases hq)

/-- **The invariant holds in every state reached.** -/
theorem Reachable.inv (hst : st.Sound) (h : Reachable c unmarshal batchSize logs st s) :
    s.Inv unmarshal := by
  induction h with
  | refl => exact inv_init ι logs hst
  | tail _ hstep ih => exact hstep.inv ih

end Steps

end Broker

/-- **Nothing committed is lost, and nothing is counted twice.** In every state that polls,
attempts, commits, crashes, rebalances and restarts reach, every record below a committed offset
fails to decode or has its event stored, and the rollups sum to the number of distinct event ids
stored. -/
theorem committed_records_are_stored [DecidableEq ι] [DecidableEq π] {c : Postgres}
    {unmarshal : List UInt8 → Option Event} {batchSize : ℕ} {logs : π → List (List UInt8)}
    {s : Broker ι π} (h : Broker.Reachable c unmarshal batchSize logs .empty s) :
    (∀ p, s.committed p ≤ (s.logs p).length) ∧
    (∀ p o value, o < s.committed p → (s.logs p)[o]? = some value →
      unmarshal value = none ∨ ∃ e, unmarshal value = some e ∧ e.eventId ∈ s.store.ids) ∧
    tableSum s.store.counts = s.store.ids.toFinset.card := by
  have hinv := h.inv Store.sound_empty
  refine ⟨fun p => ?_, fun p o value ho hvalue => ?_, ?_⟩
  · by_contra hlt
    obtain ⟨value, hget, -⟩ := hinv.committed p (s.logs p).length (not_le.mp hlt)
    simp at hget
  · obtain ⟨value', hget, hstored⟩ := hinv.committed p o ho
    obtain rfl : value' = value := Option.some.inj (hget.symm.trans hvalue)
    cases he : unmarshal value' with
    | none => exact .inl rfl
    | some e => exact .inr ⟨e, rfl, hstored e he⟩
  · rw [hinv.sound.counts.tableSum_eq, List.toFinset_card_of_nodup hinv.sound.nodup, Store.ids,
      List.length_map]

/-- A malformed record and a click are polled together, the click is stored, and both offsets are
committed. -/
theorem committed_records_are_stored_skipping_malformed :
    let e : Event := ⟨"e1", "buy_click", "u1", some [], 0⟩
    let click : List UInt8 := ("\x7b\"event_id\":\"e1\",\"name\":\"buy_click\"," ++
      "\"distinct_id\":\"u1\",\"properties\":\x7b\x7d," ++
      "\"ts\":\"1970-01-01T00:00:00Z\"\x7d").toUTF8.data.toList
    let unmarshal : List UInt8 → Option Event := fun value => if value = click then some e else none
    ∃ s : Broker Unit Unit,
      Broker.Reachable .bytewise unmarshal 1000 (fun _ => [[110], click]) .empty s ∧
      s.committed () = 2 ∧ "e1" ∈ s.store.ids ∧
      tableSum s.store.counts = s.store.ids.toFinset.card := by
  intro e click unmarshal
  have htakes : Postgres.bytewise.Takes e := by decide +kernel
  have hne : ([110] : List UInt8) ≠ click := by decide +kernel
  obtain ⟨st, n, hst⟩ := exists_insertBatch_eq_ok (Batch.accepts_single htakes _) allDecode_empty
  let recs : List (Record Unit) := [⟨(), 0, [110]⟩, ⟨(), 1, click⟩]
  have hdecode : decodeRecords unmarshal recs = [e] := by
    simp [decodeRecords, recs, unmarshal, hne]
  have hattempt : Attempt .bytewise (decodeRecords unmarshal recs) .empty (some n) st :=
    .ok (.single _ e) hdecode.symm hst
  let s₀ : Broker Unit Unit := .init Unit (fun _ => [[110], click]) .empty
  have hstarted : Broker.Reachable .bytewise unmarshal 1000 (fun _ => [[110], click]) .empty
      (s₀.setConsumer () ⟨fun _ => none, .polling⟩) := .single (.start () rfl)
  have hassigned := hstarted.tail (.assign () ())
  have hpolled := hassigned.tail (.poll () [((), 2)] rfl (by simp)
    (fun t ht => by
      obtain rfl := List.mem_singleton.mp ht
      exact ⟨0, rfl, le_refl 2⟩)
    (show recs.length ≤ 1000 by simp [recs]) (show recs ≠ [] by simp [recs]))
  have hinserted := hpolled.tail (.insertOk () recs 1 n st rfl hattempt)
  have hcommitted := hinserted.tail (.commit () recs (fun _ => true) rfl)
  have hid : "e1" ∈ st.ids := hattempt.mem_ids (e := e) (by simp [hdecode])
  exact ⟨_, hcommitted, rfl, hid, (committed_records_are_stored hcommitted).2.2⟩

end Tally
