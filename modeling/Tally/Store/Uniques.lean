import Tally.Store.Event

/-!
# Folding a batch into the sketches

`updateUniques`: the non-empty distinct ids of a batch are grouped by name and UTC day, and for
each group, in sorted order, the sketch row is created if missing, read, decoded, extended and
written back. `Folded u events u'` states the effect by key, with no order and no intermediate
tables: a key no id falls on is untouched, and any other holds its former sketch, empty if there
was none, with the ids added.

## Main definitions

* `idsFor`, `uniqueKeys`: the groups of a batch and their keys in processing order
* `updateUniques`: the fold over the keys
* `sketchAt u k`: the sketch a transaction finds at `k` after ensuring that its row exists
* `Folded u events u'`: the effect of a batch on the sketch table

## Main results

* `updateUniques_eq_ok_iff`: the fold succeeds exactly when the sketches it reads decode, and
  then has the effect `Folded`
* `Folded.append`: batches compose
* `Folded.congr`: only the set of the distinct ids of each key matters
-/

namespace Tally

open Hll

/-- The errors `InsertBatch` returns when the database itself is healthy. -/
inductive InsertError where
  /-- Postgres refuses a parameter of the statement. -/
  | refused
  /-- `pgx.ErrNoRows` from the locking read. -/
  | noRows (k : UniqueKey)
  /-- `corrupt sketch for %s/%s: %w`. -/
  | corruptSketch (k : UniqueKey) (reason : String)
  deriving DecidableEq

/-- `groups[k]`: the non-empty distinct ids of the events of sketch `k`, in batch order. -/
def idsFor (events : List Event) (k : UniqueKey) : List String :=
  (events.filter fun e => e.distinctId ≠ "" ∧ e.uniqueKey = k).map Event.distinctId

/-- The comparison of `sort.Slice`: by name, then by day. -/
def UniqueKey.less (k l : UniqueKey) : Prop :=
  if k.name ≠ l.name then k.name < l.name else k.day < l.day

instance : DecidableRel UniqueKey.less := fun k l => by
  unfold UniqueKey.less
  infer_instance

/-- The keys of the groups, sorted. -/
def uniqueKeys (events : List Event) : List UniqueKey :=
  ((events.filter fun e => e.distinctId ≠ "").map Event.uniqueKey).dedup.insertionSort
    fun k l => ¬ l.less k

/-- One round of the loop: ensure the row exists, read it, add the ids, write it back. -/
def updateKey (events : List Event) (u : Uniques) (k : UniqueKey) : Except InsertError Uniques :=
  let u := if k ∈ u then u else u.insert k Sketch.new.bytes
  match u.lookup k with
  | none => .error (.noRows k)
  | some raw =>
    match Sketch.fromBytes raw with
    | .error reason => .error (.corruptSketch k reason)
    | .ok sketch => .ok (u.insert k (sketch.addAll (idsFor events k)).bytes)

def updateUniques (u : Uniques) (events : List Event) : Except InsertError Uniques :=
  (uniqueKeys events).foldlM (updateKey events) u

/-! ## The groups -/

@[simp] theorem idsFor_nil (k : UniqueKey) : idsFor [] k = [] := rfl

theorem idsFor_append (events more : List Event) (k : UniqueKey) :
    idsFor (events ++ more) k = idsFor events k ++ idsFor more k := by
  simp [idsFor]

theorem mem_idsFor {events : List Event} {k : UniqueKey} {v : String} :
    v ∈ idsFor events k ↔ ∃ e ∈ events, e.distinctId ≠ "" ∧ e.uniqueKey = k ∧ e.distinctId = v := by
  simp only [idsFor, List.mem_map, List.mem_filter, decide_eq_true_eq]
  constructor
  · rintro ⟨e, ⟨he, hne, hk⟩, hv⟩
    exact ⟨e, he, hne, hk, hv⟩
  · rintro ⟨e, he, hne, hk, hv⟩
    exact ⟨e, ⟨he, hne, hk⟩, hv⟩

theorem idsFor_ne_nil_iff {events : List Event} {k : UniqueKey} :
    idsFor events k ≠ [] ↔ ∃ e ∈ events, e.distinctId ≠ "" ∧ e.uniqueKey = k := by
  constructor
  · intro h
    obtain ⟨v, hv⟩ := List.exists_mem_of_ne_nil _ h
    obtain ⟨e, he, hne, hk, -⟩ := mem_idsFor.mp hv
    exact ⟨e, he, hne, hk⟩
  · rintro ⟨e, he, hne, hk⟩
    exact List.ne_nil_of_mem (mem_idsFor.mpr ⟨e, he, hne, hk, rfl⟩)

theorem nodup_uniqueKeys (events : List Event) : (uniqueKeys events).Nodup :=
  (List.perm_insertionSort _ _).nodup_iff.mpr (List.nodup_dedup _)

theorem mem_uniqueKeys {events : List Event} {k : UniqueKey} :
    k ∈ uniqueKeys events ↔ idsFor events k ≠ [] := by
  rw [uniqueKeys, (List.perm_insertionSort _ _).mem_iff, List.mem_dedup, idsFor_ne_nil_iff]
  simp only [List.mem_map, List.mem_filter, decide_eq_true_eq]
  constructor
  · rintro ⟨e, ⟨he, hne⟩, hk⟩
    exact ⟨e, he, hne, hk⟩
  · rintro ⟨e, he, hne, hk⟩
    exact ⟨e, ⟨he, hne⟩, hk⟩

/-! ## One key -/

/-- The sketch at `k` once its row is ensured: the stored one, or a new one. -/
def sketchAt (u : Uniques) (k : UniqueKey) : Except String Sketch :=
  match u.lookup k with
  | none => .ok Sketch.new
  | some raw => Sketch.fromBytes raw

/-- One round of the loop in closed form. -/
theorem updateKey_eq (events : List Event) (u : Uniques) (k : UniqueKey) :
    updateKey events u k =
      match sketchAt u k with
      | .error reason => .error (.corruptSketch k reason)
      | .ok s => .ok (u.insert k (s.addAll (idsFor events k)).bytes) := by
  unfold updateKey sketchAt
  by_cases hk : k ∈ u
  · obtain ⟨raw, hraw⟩ := Finmap.mem_iff.mp hk
    simp only [if_pos hk, hraw]
  · simp only [if_neg hk, Finmap.lookup_insert, Finmap.lookup_eq_none.mpr hk,
      Sketch.fromBytes_bytes, Finmap.insert_insert]

theorem sketchAt_congr {u u' : Uniques} {k : UniqueKey} (h : u.lookup k = u'.lookup k) :
    sketchAt u k = sketchAt u' k := by
  unfold sketchAt
  rw [h]

/-- A loop over distinct keys in which every sketch decodes. -/
theorem foldlM_updateKey_ok (events : List Event) {keys : List UniqueKey} (hnd : keys.Nodup)
    {u : Uniques} (hok : ∀ k ∈ keys, ∃ s, sketchAt u k = .ok s) :
    ∃ u', keys.foldlM (updateKey events) u = .ok u' ∧ ∀ k,
      (k ∉ keys → u'.lookup k = u.lookup k) ∧
      (k ∈ keys → ∀ s, sketchAt u k = .ok s →
        u'.lookup k = some (s.addAll (idsFor events k)).bytes) := by
  induction keys generalizing u with
  | nil => exact ⟨u, rfl, fun k => ⟨fun _ => rfl, fun h => absurd h List.not_mem_nil⟩⟩
  | cons k₀ keys ih =>
    obtain ⟨hk₀, hnd⟩ := List.nodup_cons.mp hnd
    obtain ⟨s₀, hs₀⟩ := hok k₀ List.mem_cons_self
    have hstep : updateKey events u k₀ =
        .ok (u.insert k₀ (s₀.addAll (idsFor events k₀)).bytes) := by
      rw [updateKey_eq, hs₀]
    have hrest : ∀ k, k ≠ k₀ →
        (u.insert k₀ (s₀.addAll (idsFor events k₀)).bytes).lookup k = u.lookup k :=
      fun k hk => Finmap.lookup_insert_of_ne _ hk
    have hne : ∀ k ∈ keys, k ≠ k₀ := fun k hk he => hk₀ (he ▸ hk)
    obtain ⟨u', hu', hspec⟩ := ih hnd (u := u.insert k₀ (s₀.addAll (idsFor events k₀)).bytes)
      fun k hk => by
        rw [sketchAt_congr (hrest k (hne k hk))]
        exact hok k (List.mem_cons_of_mem k₀ hk)
    refine ⟨u', by rw [List.foldlM_cons, hstep]; exact hu',
      fun k => ⟨fun hk => ?_, fun hk s hs => ?_⟩⟩
    · rw [List.mem_cons, not_or] at hk
      rw [(hspec k).1 hk.2, hrest k hk.1]
    · rcases List.mem_cons.mp hk with rfl | hk
      · rw [(hspec k).1 hk₀, Finmap.lookup_insert]
        rw [hs₀] at hs
        rw [Except.ok.inj hs]
      · exact (hspec k).2 hk s (by rwa [sketchAt_congr (hrest k (hne k hk))])

/-- A loop that succeeds has decoded every sketch it read. -/
theorem sketchAt_ok_of_foldlM {events : List Event} {keys : List UniqueKey} (hnd : keys.Nodup)
    {u u' : Uniques} (h : keys.foldlM (updateKey events) u = .ok u') :
    ∀ k ∈ keys, ∃ s, sketchAt u k = .ok s := by
  induction keys generalizing u with
  | nil => simp
  | cons k₀ keys ih =>
    obtain ⟨hk₀, hnd⟩ := List.nodup_cons.mp hnd
    rw [List.foldlM_cons, updateKey_eq] at h
    cases hs₀ : sketchAt u k₀ with
    | error reason =>
      rw [hs₀] at h
      cases h
    | ok s₀ =>
      rw [hs₀] at h
      intro k hk
      rcases List.mem_cons.mp hk with rfl | hk
      · exact ⟨s₀, hs₀⟩
      · obtain ⟨s, hs⟩ := ih hnd h k hk
        have hne : k ≠ k₀ := fun he => hk₀ (he ▸ hk)
        refine ⟨s, ?_⟩
        rwa [sketchAt_congr (Finmap.lookup_insert_of_ne _ hne)] at hs

/-! ## The effect of a batch -/

/-- **The effect of a batch on the sketch table**, key by key. -/
def Folded (u : Uniques) (events : List Event) (u' : Uniques) : Prop :=
  ∀ k, (idsFor events k = [] → u'.lookup k = u.lookup k) ∧
    (idsFor events k ≠ [] → ∃ s, sketchAt u k = .ok s ∧
      u'.lookup k = some (s.addAll (idsFor events k)).bytes)

/-- **The fold succeeds exactly when the sketches it reads decode**, and then has the effect of
the batch. -/
theorem updateUniques_eq_ok_iff {u u' : Uniques} {events : List Event} :
    updateUniques u events = .ok u' ↔ Folded u events u' := by
  have hnd := nodup_uniqueKeys events
  constructor
  · intro h
    have hok := sketchAt_ok_of_foldlM hnd h
    obtain ⟨u₁, hu₁, hspec⟩ := foldlM_updateKey_ok events hnd hok
    obtain rfl : u₁ = u' := Except.ok.inj (hu₁.symm.trans h)
    refine fun k => ⟨fun hk => (hspec k).1 (by rwa [mem_uniqueKeys, not_not]), fun hk => ?_⟩
    obtain ⟨s, hs⟩ := hok k (mem_uniqueKeys.mpr hk)
    exact ⟨s, hs, (hspec k).2 (mem_uniqueKeys.mpr hk) s hs⟩
  · intro h
    have hok : ∀ k ∈ uniqueKeys events, ∃ s, sketchAt u k = .ok s := fun k hk => by
      obtain ⟨s, hs, -⟩ := (h k).2 (mem_uniqueKeys.mp hk)
      exact ⟨s, hs⟩
    obtain ⟨u₁, hu₁, hspec⟩ := foldlM_updateKey_ok events hnd hok
    obtain rfl : u₁ = u' := Finmap.ext_lookup fun k => by
      by_cases hk : idsFor events k = []
      · rw [(h k).1 hk, (hspec k).1 (by rwa [mem_uniqueKeys, not_not])]
      · obtain ⟨s, hs, hl⟩ := (h k).2 hk
        rw [hl, (hspec k).2 (mem_uniqueKeys.mpr hk) s hs]
    exact hu₁

theorem exists_updateUniques_eq_ok {u : Uniques} (events : List Event)
    (h : ∀ k, idsFor events k ≠ [] → ∃ s, sketchAt u k = .ok s) :
    ∃ u', updateUniques u events = .ok u' := by
  obtain ⟨u', hu', -⟩ := foldlM_updateKey_ok events (nodup_uniqueKeys events)
    fun k hk => h k (mem_uniqueKeys.mp hk)
  exact ⟨u', hu'⟩

theorem Folded.nil (u : Uniques) : Folded u [] u := fun _ => ⟨fun _ => rfl, fun h => absurd rfl h⟩

/-- The sketch at a key after a batch. -/
theorem Folded.sketchAt {u u' : Uniques} {events : List Event} (h : Folded u events u')
    {k : UniqueKey} {s : Sketch} (hs : sketchAt u k = .ok s) :
    sketchAt u' k = .ok (s.addAll (idsFor events k)) := by
  by_cases hk : idsFor events k = []
  · rw [sketchAt_congr ((h k).1 hk), hs, hk]
    rfl
  · obtain ⟨s', hs', hl⟩ := (h k).2 hk
    obtain rfl : s = s' := Except.ok.inj (hs.symm.trans hs')
    simp only [Tally.sketchAt, hl, Sketch.fromBytes_bytes]

/-- **Batches compose.** -/
theorem Folded.append {u u' u'' : Uniques} {events more : List Event} (h : Folded u events u')
    (h' : Folded u' more u'') : Folded u (events ++ more) u'' := by
  intro k
  rw [idsFor_append]
  refine ⟨fun hk => ?_, fun hk => ?_⟩
  · obtain ⟨he, hm⟩ := List.append_eq_nil_iff.mp hk
    rw [(h' k).1 hm, (h k).1 he]
  · by_cases hm : idsFor more k = []
    · rw [hm, List.append_nil] at hk ⊢
      rw [(h' k).1 hm]
      exact (h k).2 hk
    · obtain ⟨s', hs', hl'⟩ := (h' k).2 hm
      by_cases he : idsFor events k = []
      · rw [he, List.nil_append]
        exact ⟨s', by rwa [← sketchAt_congr ((h k).1 he)], hl'⟩
      · obtain ⟨s, hs, -⟩ := (h k).2 he
        have hs'' := h.sketchAt hs
        obtain rfl : s' = s.addAll (idsFor events k) := Except.ok.inj (hs'.symm.trans hs'')
        exact ⟨s, hs, by rw [hl', Sketch.addAll_append]⟩

/-- **Only the set of the distinct ids of each key matters.** -/
theorem Folded.congr {u u₁ u₂ : Uniques} {events more : List Event} (h₁ : Folded u events u₁)
    (h₂ : Folded u more u₂) (hset : ∀ k v, v ∈ idsFor events k ↔ v ∈ idsFor more k) :
    u₁ = u₂ := by
  refine Finmap.ext_lookup fun k => ?_
  have hnil : idsFor events k = [] ↔ idsFor more k = [] := by
    simp only [List.eq_nil_iff_forall_not_mem, hset]
  by_cases hk : idsFor events k = []
  · rw [(h₁ k).1 hk, (h₂ k).1 (hnil.mp hk)]
  · obtain ⟨s, hs, hl⟩ := (h₁ k).2 hk
    obtain ⟨s', hs', hl'⟩ := (h₂ k).2 (hnil.not.mp hk)
    obtain rfl : s = s' := Except.ok.inj (hs.symm.trans hs')
    rw [hl, hl', Sketch.addAll_congr s (hset k)]

/-! ## Tables of valid sketches -/

/-- Every stored sketch decodes. -/
def AllDecode (u : Uniques) : Prop := ∀ k, ∃ s, sketchAt u k = .ok s

theorem allDecode_empty : AllDecode Store.empty.uniques :=
  fun k => ⟨Sketch.new, by simp [Store.empty, sketchAt]⟩

theorem Folded.allDecode {u u' : Uniques} {events : List Event} (h : Folded u events u')
    (hu : AllDecode u) : AllDecode u' := fun k => by
  obtain ⟨s, hs⟩ := hu k
  exact ⟨_, h.sketchAt hs⟩

end Tally
