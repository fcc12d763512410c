import Mathlib.Algebra.Order.Group.Multiset
import Mathlib.Logic.Relation
import Tally.Ingest.Doors
import Tally.Queue.Record

/-!
# The Kafka producer

`KafkaProducer.Enqueue` reads how many records the client holds, and calls `Produce` if these are
fewer than `maxBuf`. The client holds at most `maxBuf` records, and `Produce` blocks its caller at
that number. The two steps of a call are not one: calls that read the same number below `maxBuf` may
all go on to `Produce`, and those that find the client full by then block. With one call at a time
between the two steps, none ever does.

## Main definitions

* `ProduceRecord`, `Event.produceRecord`: the record of an event
* `Producer`: the records the client holds, and the calls of `Enqueue`
* `Producer.enqueue`: a call that nothing interrupts
* `Producer.Step`, `Producer.Reachable`: the interleavings, with a number of calls at once

## Main results

* `Producer.enqueue_reaches`: what a call does that nothing interrupts
* `Producer.Step.fits`, `Producer.Step.blocked_eq_zero`: one call at a time does not block
* `enqueue_never_blocks_iff`: no call blocks in any run with `n` calls at once exactly when `n ≤ 1`
-/

namespace Tally

/-- The `kgo.Record` that `Enqueue` produces. -/
structure ProduceRecord where
  topic : String
  key : List UInt8
  value : List UInt8

/-- The record of an event, if `json.Marshal` succeeds. -/
def Event.produceRecord (conv : Conversions) (topic : String) (e : Event) : Option ProduceRecord :=
  -- the name is the key, so that the events of a name are in order
  (e.record conv).map fun value => ⟨topic, e.name.toUTF8.data.toList, value⟩

/-- The records the client holds, the calls of `Enqueue` between their two steps, the calls that are
blocked in `Produce`, and the calls that have returned. -/
structure Producer where
  buffered : Multiset ProduceRecord
  calls : Multiset Event
  blocked : Multiset (Event × ProduceRecord)
  returned : List (Event × Option EnqueueError)

namespace Producer

/-- `NewKafkaProducer`. -/
def new : Producer := ⟨0, 0, 0, []⟩

/-- `KafkaProducer.Enqueue`, when nothing happens between its steps. -/
def enqueue (conv : Conversions) (topic : String) (maxBuf : ℕ) (e : Event) (s : Producer) :
    Option EnqueueError × Producer :=
  if maxBuf ≤ s.buffered.card then (some .full, s)
  else
    match e.produceRecord conv topic with
    | none => (some .other, s)
    | some record => (none, { s with buffered := record ::ₘ s.buffered })

/-- One step of a call, or of the client in the background. -/
inductive Step (conv : Conversions) (topic : String) (maxBuf : ℕ) (s : Producer) : Producer → Prop
  /-- A call reads that the client is full: `ErrFull`. -/
  | full (e : Event) (noRoom : maxBuf ≤ s.buffered.card) :
      Step conv topic maxBuf s { s with returned := s.returned ++ [(e, some .full)] }
  /-- A call reads that there is room. -/
  | check (e : Event) (room : s.buffered.card < maxBuf) :
      Step conv topic maxBuf s { s with calls := e ::ₘ s.calls }
  /-- `json.Marshal` fails. -/
  | marshalError (e : Event) (calls : Multiset Event) (call : s.calls = e ::ₘ calls)
      (error : e.produceRecord conv topic = none) :
      Step conv topic maxBuf s
        { s with calls := calls, returned := s.returned ++ [(e, some .other)] }
  /-- A call enters `Produce` and finds room: nil. -/
  | produce (e : Event) (calls : Multiset Event) (record : ProduceRecord)
      (call : s.calls = e ::ₘ calls) (marshalled : e.produceRecord conv topic = some record)
      (room : s.buffered.card < maxBuf) :
      Step conv topic maxBuf s
        { s with
          buffered := record ::ₘ s.buffered
          calls := calls
          returned := s.returned ++ [(e, none)] }
  /-- A call enters `Produce` while the client is full, and blocks. -/
  | block (e : Event) (calls : Multiset Event) (record : ProduceRecord)
      (call : s.calls = e ::ₘ calls) (marshalled : e.produceRecord conv topic = some record)
      (noRoom : maxBuf ≤ s.buffered.card) :
      Step conv topic maxBuf s { s with calls := calls, blocked := (e, record) ::ₘ s.blocked }
  /-- A blocked call finds room: nil. -/
  | unblock (e : Event) (record : ProduceRecord) (blocked : Multiset (Event × ProduceRecord))
      (waiting : s.blocked = (e, record) ::ₘ blocked) (room : s.buffered.card < maxBuf) :
      Step conv topic maxBuf s
        { s with
          buffered := record ::ₘ s.buffered
          blocked := blocked
          returned := s.returned ++ [(e, none)] }
  /-- A record is acknowledged, or given up. -/
  | complete (record : ProduceRecord) (buffered : Multiset ProduceRecord)
      (held : s.buffered = record ::ₘ buffered) :
      Step conv topic maxBuf s { s with buffered := buffered }

/-- The states reached with at most `n` calls between their two steps at once. -/
def Reachable (conv : Conversions) (topic : String) (maxBuf n : ℕ) (s : Producer) : Prop :=
  Relation.ReflTransGen (fun s s' => Step conv topic maxBuf s s' ∧ s'.calls.card ≤ n) new s

variable {conv : Conversions} {topic : String} {maxBuf n : ℕ} {s s' : Producer} {e : Event}

theorem Reachable.step (h : Reachable conv topic maxBuf n s) (hstep : Step conv topic maxBuf s s')
    (hcalls : s'.calls.card ≤ n) : Reachable conv topic maxBuf n s' := h.tail ⟨hstep, hcalls⟩

/-- **A call that nothing interrupts** returns what `enqueue` returns, and leaves what it leaves. -/
theorem enqueue_reaches (conv : Conversions) (topic : String) (maxBuf : ℕ) (e : Event)
    (s : Producer) :
    Relation.ReflTransGen (Step conv topic maxBuf) s
      { (s.enqueue conv topic maxBuf e).2 with
        returned := s.returned ++ [(e, (s.enqueue conv topic maxBuf e).1)] } := by
  unfold enqueue
  split_ifs with hfull
  · exact .single (.full e hfull)
  · have hroom : s.buffered.card < maxBuf := not_le.mp hfull
    have hcheck : Step conv topic maxBuf s { s with calls := e ::ₘ s.calls } := .check e hroom
    cases hrecord : e.produceRecord conv topic with
    | none => exact (Relation.ReflTransGen.single hcheck).tail (.marshalError e s.calls rfl hrecord)
    | some record =>
      exact (Relation.ReflTransGen.single hcheck).tail
        (.produce e s.calls record rfl hrecord hroom)

/-! ## One call at a time -/

/-- There is room for every call that has read that there is. -/
def Fits (maxBuf : ℕ) (s : Producer) : Prop := s.buffered.card + s.calls.card ≤ maxBuf

/-- A call that reads alone leaves room for itself, and the other steps take none. -/
theorem Step.fits (hstep : Step conv topic maxBuf s s') (hcalls : s'.calls.card ≤ 1)
    (h : s.Fits maxBuf) (hblocked : s.blocked = 0) : s'.Fits maxBuf := by
  unfold Fits at h ⊢
  cases hstep with
  | full e noRoom => exact h
  | check e room =>
    simp only [Multiset.card_cons] at hcalls ⊢
    omega
  | marshalError e calls call error =>
    rw [call, Multiset.card_cons] at h
    exact Nat.le_of_succ_le h
  | produce e calls record call marshalled room =>
    rw [call, Multiset.card_cons] at h
    simp only [Multiset.card_cons]
    omega
  | block e calls record call marshalled noRoom =>
    rw [call, Multiset.card_cons] at h
    exact Nat.le_of_succ_le h
  | unblock e record blocked waiting room =>
    rw [hblocked] at waiting
    exact absurd waiting.symm (Multiset.cons_ne_zero)
  | complete record buffered held =>
    rw [held, Multiset.card_cons] at h
    simp only
    omega

/-- **A call for which there is room does not block.** -/
theorem Step.blocked_eq_zero (hstep : Step conv topic maxBuf s s') (h : s.Fits maxBuf)
    (hblocked : s.blocked = 0) : s'.blocked = 0 := by
  cases hstep with
  | block e calls record call marshalled noRoom =>
    unfold Fits at h
    rw [call, Multiset.card_cons] at h
    omega
  | unblock e record blocked waiting room =>
    rw [hblocked] at waiting
    exact absurd waiting.symm (Multiset.cons_ne_zero)
  | _ => exact hblocked

theorem Reachable.fits (h : Reachable conv topic maxBuf n s) (hn : n ≤ 1) :
    s.Fits maxBuf ∧ s.blocked = 0 := by
  induction h with
  | refl => exact ⟨Nat.zero_le _, rfl⟩
  | tail _ hstep ih =>
    exact ⟨hstep.1.fits (hstep.2.trans hn) ih.1 ih.2, hstep.1.blocked_eq_zero ih.1 ih.2⟩

/-! ## Two calls at once -/

/-- Calls one after another fill the client. -/
theorem exists_reachable_buffered (hn : 1 ≤ n) {record : ProduceRecord}
    (he : e.produceRecord conv topic = some record) {k : ℕ} (hk : k ≤ maxBuf) :
    ∃ s, Reachable conv topic maxBuf n s ∧ s.buffered.card = k ∧ s.calls = 0 ∧ s.blocked = 0 := by
  induction k with
  | zero => exact ⟨new, .refl, rfl, rfl, rfl⟩
  | succ k ih =>
    obtain ⟨s, hs, hcard, hcalls, hblocked⟩ := ih (Nat.le_of_succ_le hk)
    have hroom : s.buffered.card < maxBuf := by omega
    have hchecked := hs.step (.check e hroom) (by simpa [hcalls] using hn)
    have hproduced := hchecked.step (.produce e s.calls record rfl he hroom) (by simp [hcalls])
    exact ⟨_, hproduced, by simp [hcard], hcalls, hblocked⟩

/-- **Two calls that both read the last free place**: the second blocks. -/
theorem exists_reachable_blocked (hn : 2 ≤ n) (hmax : 1 ≤ maxBuf) {record : ProduceRecord}
    (he : e.produceRecord conv topic = some record) :
    ∃ s, Reachable conv topic maxBuf n s ∧ s.buffered.card = maxBuf ∧
      s.blocked = {(e, record)} := by
  obtain ⟨k, rfl⟩ : ∃ k, maxBuf = k + 1 := ⟨maxBuf - 1, by omega⟩
  obtain ⟨s, hs, hcard, hcalls, hblocked⟩ :=
    exists_reachable_buffered (Nat.le_of_succ_le hn) he (Nat.le_succ k)
  have hroom : s.buffered.card < k + 1 := by omega
  have hfirst := hs.step (.check e hroom) (by simp [hcalls]; omega)
  have hsecond := hfirst.step (.check e hroom) (by simpa [hcalls] using hn)
  have hproduced := hsecond.step (.produce e (e ::ₘ s.calls) record rfl he hroom)
    (by simp [hcalls]; omega)
  have hentered := hproduced.step (.block e s.calls record rfl he (by simp [hcard]))
    (by simp [hcalls])
  exact ⟨_, hentered, by simp [hcard], by simp [hblocked]⟩

end Producer

/-- **`Enqueue` never blocks, if and only if no two calls are between their two steps at once.** For
every size of the buffer, in all runs with at most `n` such calls at a time, interleaved with each
other and with the completion of records, no call enters `Produce` while the client holds `maxBuf`
records, exactly when `n` is at most one. -/
theorem enqueue_never_blocks_iff {conv : Conversions} {topic : String} {maxBuf : ℕ} {e : Event}
    {record : ProduceRecord} (hmax : 1 ≤ maxBuf) (he : e.produceRecord conv topic = some record)
    (n : ℕ) :
    (∀ s, Producer.Reachable conv topic maxBuf n s → s.blocked = 0) ↔ n ≤ 1 := by
  constructor
  · intro h
    by_contra hn
    obtain ⟨s, hs, -, hblocked⟩ := Producer.exists_reachable_blocked (n := n) (by omega) hmax he
    rw [h s hs] at hblocked
    exact absurd hblocked.symm (Multiset.singleton_ne_zero _)
  · intro hn s hs
    exact (hs.fits hn).2

/-- Conversions that know one instant. -/
def Conversions.epoch : Conversions where
  number := refusing.number
  time lit := if lit = escaped "1970-01-01T00:00:00Z" then some 0 else none
  formatTime t := if t = 0 then some "1970-01-01T00:00:00Z" else none
  isNumber_text := refusing.isNumber_text
  number_text := refusing.number_text
  time_formatTime {t s} h := by
    split_ifs at h with ht
    cases h
    rw [if_pos rfl, ht]

/-- An event at that instant. -/
def epochClick : Event := ⟨"e1", "buy_click", "u1", none, 0⟩

/-- One call at a time. -/
theorem enqueue_never_blocks_one_call :
    1 ≤ 1 ∧ (epochClick.produceRecord .epoch "tally.events").isSome ∧
      ∀ s, Producer.Reachable .epoch "tally.events" 1 1 s → s.blocked = 0 := by
  have hsome : (epochClick.produceRecord .epoch "tally.events").isSome := rfl
  obtain ⟨record, hrecord⟩ := Option.isSome_iff_exists.mp hsome
  exact ⟨le_refl 1, hsome, (enqueue_never_blocks_iff (le_refl 1) hrecord 1).mpr (le_refl 1)⟩

/-- **Two calls at once, a buffer for one record**: both read that it is empty, the first fills it,
and the second enters `Produce` and blocks. -/
theorem enqueue_blocks_second_call :
    ∃ s record, Producer.Reachable .epoch "tally.events" 1 2 s ∧ s.buffered.card = 1 ∧
      s.blocked = {(epochClick, record)} := by
  have hsome : (epochClick.produceRecord .epoch "tally.events").isSome := rfl
  obtain ⟨record, hrecord⟩ := Option.isSome_iff_exists.mp hsome
  obtain ⟨s, hs, hcard, hblocked⟩ :=
    Producer.exists_reachable_blocked (le_refl 2) (le_refl 1) hrecord
  exact ⟨s, record, hs, hcard, hblocked⟩

end Tally
