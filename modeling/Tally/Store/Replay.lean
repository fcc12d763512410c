import Tally.Store.InsertBatch

/-!
# Order, batching and replay

Two consequences of the effect of a run. When an event id determines its event, the tables a run
leaves depend only on the set of events delivered, not on how they were cut into batches, ordered
or repeated. With no such assumption, a batch once committed absorbs its own replays: a list of
its events inserted again, after any other commits, returns 0 and changes no byte.

## Main results

* `insertBatches_congr_of_mem_iff`: the final tables depend on the set of events
* `insertBatch_absorbed`: a committed batch absorbs its replays
-/

namespace Tally

open Foundation Hll

variable {c : Postgres}

theorem mem_flatMap_order {bs : List (Batch c)} {r : Row} :
    r ∈ bs.flatMap Batch.order ↔ ∃ e ∈ delivered bs, e.toRow = r := by
  simp only [delivered, List.mem_flatMap, Batch.mem_order]
  constructor
  · rintro ⟨b, hb, e, he, hr⟩
    exact ⟨e, ⟨b, hb, he⟩, hr⟩
  · rintro ⟨e, ⟨b, hb, he⟩, hr⟩
    exact ⟨b, hb, e, he, hr⟩

/-- **The final tables depend only on the set of events delivered**, when an event id determines
its event: the same rows up to their serial ids, the same rollups, the same sketches byte for
byte, and the same total of counts returned. -/
theorem insertBatches_congr_of_mem_iff {st sa sb : Store} {as bs : List (Batch c)} {na nb : ℕ}
    (ha : insertBatches c st as = .ok (sa, na)) (hb : insertBatches c st bs = .ok (sb, nb))
    (hset : ∀ e, e ∈ delivered as ↔ e ∈ delivered bs)
    (hid : ∀ e ∈ delivered as, ∀ e' ∈ delivered as, e.eventId = e'.eventId → e = e') :
    sa.events.Perm sb.events ∧ sa.counts = sb.counts ∧ sa.uniques = sb.uniques ∧ na = nb := by
  obtain ⟨happ, rfl⟩ := insertBatches_applied ha
  obtain ⟨happ', rfl⟩ := insertBatches_applied hb
  have hrows : ∀ r, r ∈ as.flatMap Batch.order ↔ r ∈ bs.flatMap Batch.order := fun r => by
    simp only [mem_flatMap_order, hset]
  -- rows of one id are equal, so first come first served is no choice
  have hinj : ∀ r ∈ as.flatMap Batch.order, ∀ s ∈ as.flatMap Batch.order,
      r.eventId = s.eventId → r = s := by
    intro r hr s hs he
    obtain ⟨e, hre, rfl⟩ := mem_flatMap_order.mp hr
    obtain ⟨e', hse, rfl⟩ := mem_flatMap_order.mp hs
    rw [hid e hre e' hse he]
  have hperm : (fresh Row.eventId st.events (as.flatMap Batch.order)).Perm
      (fresh Row.eventId st.events (bs.flatMap Batch.order)) := fresh_perm Row.eventId hrows hinj
  refine ⟨?_, ?_, ?_, hperm.length_eq⟩
  · rw [happ.events_eq, happ'.events_eq]
    exact hperm.append_left _
  · rw [happ.counts_eq, happ'.counts_eq]
    exact upsertAll_groupCount_perm _ _ _ hperm
  · refine happ.uniques.congr happ'.uniques fun k v => ?_
    simp only [mem_idsFor, hset]

/-- Two clicks of two users, delivered once in order, and delivered out of order with one of them
twice. -/
theorem insertBatches_congr_two_clicks :
    let e₁ : Event := ⟨"e1", "buy_click", "u1", none, 0⟩
    let e₂ : Event := ⟨"e2", "buy_click", "u2", none, 0⟩
    let b₁ := Batch.single .bytewise e₁
    let b₂ := Batch.single .bytewise e₂
    ∃ sa sb na nb, insertBatches .bytewise .empty [b₁, b₂] = .ok (sa, na) ∧
      insertBatches .bytewise .empty [b₂, b₁, b₂] = .ok (sb, nb) ∧
      sa.events.Perm sb.events ∧ sa.counts = sb.counts ∧ sa.uniques = sb.uniques ∧ na = nb := by
  intro e₁ e₂ b₁ b₂
  have htakes₁ : Postgres.bytewise.Takes e₁ := by decide +kernel
  have htakes₂ : Postgres.bytewise.Takes e₂ := by decide +kernel
  have hne : e₁.eventId ≠ e₂.eventId := by decide
  obtain ⟨sa, na, ha⟩ := exists_insertBatches_eq_ok [b₁, b₂]
    (by simp [delivered, b₁, b₂, Batch.single, htakes₁, htakes₂]) allDecode_empty
  obtain ⟨sb, nb, hb⟩ := exists_insertBatches_eq_ok [b₂, b₁, b₂]
    (by simp [delivered, b₁, b₂, Batch.single, htakes₁, htakes₂]) allDecode_empty
  refine ⟨sa, sb, na, nb, ha, hb, insertBatches_congr_of_mem_iff ha hb ?_ ?_⟩
  · intro e
    simp only [delivered, b₁, b₂, Batch.single, List.flatMap_cons, List.flatMap_nil,
      List.mem_append, List.mem_singleton, List.not_mem_nil, or_false]
    tauto
  · simp [delivered, b₁, b₂, Batch.single, hne, hne.symm]

/-! ## Replays of a committed batch -/

/-- A batch whose ids are stored and whose marks are in the sketches has no effect. -/
theorem applied_self {st : Store} {rows : List Row} {events : List Event}
    (hids : ∀ r ∈ rows, r.eventId ∈ st.ids)
    (hmarks : ∀ k, ∀ v ∈ idsFor events k,
      ∃ s, st.uniques.lookup k = some s.bytes ∧ Sketch.mark v ≤ s) :
    Applied c st rows events st := by
  have hnil : fresh Row.eventId st.events rows = [] := fresh_eq_nil Row.eventId hids
  refine ⟨by simp [hnil], by simp [hnil, groupCount, upsertAll],
    fun k => ⟨fun _ => rfl, fun hk => ?_⟩⟩
  obtain ⟨v₀, hv₀⟩ := List.exists_mem_of_ne_nil _ hk
  obtain ⟨s, hl, -⟩ := hmarks k v₀ hv₀
  have hs : sketchAt st.uniques k = .ok s := by
    simp only [sketchAt, hl, Sketch.fromBytes_bytes]
  refine ⟨s, hs, ?_⟩
  have hself : s.addAll (idsFor events k) = s := Sketch.addAll_eq_self_iff.mpr fun v hv => by
    obtain ⟨s', hl', hle⟩ := hmarks k v hv
    rwa [Sketch.bytes_injective (Option.some.inj (hl.symm.trans hl'))]
  rw [hl, hself]

/-- A batch leaves the marks of its distinct ids in the sketches, and later batches keep them. -/
theorem Folded.mark_le {u u₁ u₂ : Uniques} {events more : List Event} (h : Folded u events u₁)
    (h' : Folded u₁ more u₂) {k : UniqueKey} {v : String} (hv : v ∈ idsFor events k) :
    ∃ s, u₂.lookup k = some s.bytes ∧ Sketch.mark v ≤ s := by
  obtain ⟨s, hs, hl⟩ := (h.append h' k).2 (by
    rw [idsFor_append]
    exact List.ne_nil_of_mem (List.mem_append_left _ hv))
  refine ⟨_, hl, Sketch.mark_le_addAll s ?_⟩
  rw [idsFor_append]
  exact List.mem_append_left _ hv

/-- **A committed batch absorbs its replays**: after any other commits, a list of its events, in
any order and with any repetition, inserts nothing and changes no table. -/
theorem insertBatch_absorbed {st st₁ st₂ : Store} {b b' : Batch c} {others : List (Batch c)}
    {n k : ℕ} (hb : insertBatch c st b.events b.order = .ok (st₁, n))
    (ho : insertBatches c st₁ others = .ok (st₂, k)) (hsub : ∀ e ∈ b'.events, e ∈ b.events) :
    insertBatch c st₂ b'.events b'.order = .ok (st₂, 0) := by
  obtain ⟨haccepts, happ, -⟩ := insertBatch_eq_ok_iff.mp hb
  obtain ⟨happ', -⟩ := insertBatches_applied ho
  have hids : ∀ r ∈ b'.order, r.eventId ∈ st₂.ids := by
    intro r hr
    obtain ⟨e, he, rfl⟩ := b'.mem_order.mp hr
    have hmem : e.toRow ∈ b.order := b.mem_order.mpr ⟨e, hsub e he, rfl⟩
    exact happ'.mem_ids.mpr (.inl (happ.mem_ids.mpr (.inr (List.mem_map_of_mem hmem))))
  have hmarks : ∀ k, ∀ v ∈ idsFor b'.events k,
      ∃ s, st₂.uniques.lookup k = some s.bytes ∧ Sketch.mark v ≤ s := by
    intro k v hv
    obtain ⟨e, he, hne, hk, hd⟩ := mem_idsFor.mp hv
    exact happ.uniques.mark_le happ'.uniques (mem_idsFor.mpr ⟨e, hsub e he, hne, hk, hd⟩)
  have hnil : fresh Row.eventId st₂.events b'.order = [] := fresh_eq_nil Row.eventId hids
  refine insertBatch_eq_ok_iff.mpr ⟨⟨fun e he => haccepts.events e (hsub e he), ?_⟩,
    applied_self hids hmarks, ?_⟩
  · rw [hnil]
    exact fun r hr => absurd hr List.not_mem_nil
  · rw [hnil]
    rfl

end Tally
