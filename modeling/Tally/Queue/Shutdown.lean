import Tally.Pipeline.Memory
import Tally.Queue.Delivery

/-!
# The shutdown of an ingest process

With `QUEUE=kafka`, `main` first stops the HTTP server, where `Shutdown` gives up on handlers that
are not done after ten seconds, then the gRPC server, where `GracefulStop` waits for its calls, and
then calls `KafkaProducer.Close`, which flushes the client for fifteen seconds at most and closes
it. `Enqueue` does not know of the close: a handler that was given up on may produce while the
client is flushed and closed, and after that it is still told nil. So the order of the shutdown
keeps every accepted event exactly if both deadlines are met. The queue in memory differs in this:
there such a handler panics, and its event is not accepted.

## Main definitions

* `IngestMain`, `KafkaIngest`: how far `main` has come, and the calls of `Enqueue` by their doors
* `KafkaIngest.Step`, `KafkaIngest.Reachable`: the interleavings
* `KafkaIngest.process`: what the process is to the topic

## Main results

* `KafkaIngest.Step.process`: a step is one of an ingest process, or none
* `KafkaIngest.Reachable.inv`: where calls can be in flight, and what can be lost
* `shutdown_keeps_iff`: accepted events are kept exactly if both deadlines are met
-/

namespace Tally

/-- How far `main` has come: serving; `Shutdown` returned, at its deadline or before;
`GracefulStop` returned; `Flush` returned, at its deadline or before; the client is closed. -/
inductive IngestMain where
  | serving
  | httpStopped
  | grpcStopped
  | flushed
  | closed

/-- The process: the calls of `Enqueue` between their two steps and those blocked in `Produce`, by
their doors; the records of the client; the calls that returned; the records acknowledged, those
whose promise got an error before the close, and all that are lost; `main`, and whether `Shutdown`
and `Flush` ended at their deadlines. -/
structure KafkaIngest where
  calls : Door → Multiset Event
  blocked : Door → Multiset (Event × ProduceRecord)
  buffered : Multiset ProduceRecord
  returned : List (Event × Option EnqueueError)
  acked : Multiset ProduceRecord
  failed : Multiset ProduceRecord
  lost : Multiset ProduceRecord
  main : IngestMain
  gaveUp : Bool
  timedOut : Bool

namespace KafkaIngest

def init : KafkaIngest := ⟨fun _ => 0, fun _ => 0, 0, [], 0, 0, 0, .serving, false, false⟩

/-- The handlers of a door may call `Enqueue`: those of HTTP while the server runs, and later if
`Shutdown` gave up on some; those of gRPC until `GracefulStop` has returned. -/
def MayCall (s : KafkaIngest) : Door → Prop
  | .http => s.main = .serving ∨ s.gaveUp = true
  | .grpc => s.main = .serving ∨ s.main = .httpStopped

/-- One step of a call, of the client or of `main`. -/
inductive Step (conv : Conversions) (topic : String) (maxBuf : ℕ) (fits : ProduceRecord → Bool)
    (s : KafkaIngest) : KafkaIngest → Prop
  /-- A call reads that the client is full: `ErrFull`. -/
  | full (door : Door) (e : Event) (may : s.MayCall door) (noRoom : maxBuf ≤ s.buffered.card) :
      Step conv topic maxBuf fits s { s with returned := s.returned ++ [(e, some .full)] }
  /-- A call reads that there is room. -/
  | check (door : Door) (e : Event) (may : s.MayCall door) (room : s.buffered.card < maxBuf)
      (decoded : e.Decoded conv) :
      Step conv topic maxBuf fits s
        { s with calls := Function.update s.calls door (e ::ₘ s.calls door) }
  /-- `json.Marshal` fails. -/
  | marshalError (door : Door) (e : Event) (calls : Multiset Event)
      (call : s.calls door = e ::ₘ calls) (error : e.produceRecord conv topic = none) :
      Step conv topic maxBuf fits s
        { s with
          calls := Function.update s.calls door calls
          returned := s.returned ++ [(e, some .other)] }
  /-- A call enters `Produce` and finds room: nil. -/
  | produce (door : Door) (e : Event) (calls : Multiset Event) (record : ProduceRecord)
      (call : s.calls door = e ::ₘ calls) (marshalled : e.produceRecord conv topic = some record)
      (isOpen : s.main ≠ .closed) (room : s.buffered.card < maxBuf) :
      Step conv topic maxBuf fits s
        { s with
          calls := Function.update s.calls door calls
          buffered := record ::ₘ s.buffered
          returned := s.returned ++ [(e, none)] }
  /-- A call enters `Produce` while the client is full, and blocks. -/
  | block (door : Door) (e : Event) (calls : Multiset Event) (record : ProduceRecord)
      (call : s.calls door = e ::ₘ calls) (marshalled : e.produceRecord conv topic = some record)
      (isOpen : s.main ≠ .closed) (noRoom : maxBuf ≤ s.buffered.card) :
      Step conv topic maxBuf fits s
        { s with
          calls := Function.update s.calls door calls
          blocked := Function.update s.blocked door ((e, record) ::ₘ s.blocked door) }
  /-- A blocked call finds room: nil. -/
  | unblock (door : Door) (e : Event) (record : ProduceRecord)
      (blocked : Multiset (Event × ProduceRecord))
      (waiting : s.blocked door = (e, record) ::ₘ blocked) (isOpen : s.main ≠ .closed)
      (room : s.buffered.card < maxBuf) :
      Step conv topic maxBuf fits s
        { s with
          blocked := Function.update s.blocked door blocked
          buffered := record ::ₘ s.buffered
          returned := s.returned ++ [(e, none)] }
  /-- A call enters `Produce` of the closed client: nil, and the promise gets an error. -/
  | late (door : Door) (e : Event) (calls : Multiset Event) (record : ProduceRecord)
      (call : s.calls door = e ::ₘ calls) (marshalled : e.produceRecord conv topic = some record)
      (isClosed : s.main = .closed) :
      Step conv topic maxBuf fits s
        { s with
          calls := Function.update s.calls door calls
          returned := s.returned ++ [(e, none)]
          lost := record ::ₘ s.lost }
  /-- A call blocked in `Produce` when the client was closed: the same. -/
  | lateBlocked (door : Door) (e : Event) (record : ProduceRecord)
      (blocked : Multiset (Event × ProduceRecord))
      (waiting : s.blocked door = (e, record) ::ₘ blocked) (isClosed : s.main = .closed) :
      Step conv topic maxBuf fits s
        { s with
          blocked := Function.update s.blocked door blocked
          returned := s.returned ++ [(e, none)]
          lost := record ::ₘ s.lost }
  /-- The broker acknowledges a record of a size it takes. -/
  | ack (record : ProduceRecord) (buffered : Multiset ProduceRecord)
      (held : s.buffered = record ::ₘ buffered) (size : fits record = true) :
      Step conv topic maxBuf fits s { s with buffered := buffered, acked := record ::ₘ s.acked }
  /-- The promise of a record gets an error. -/
  | fail (record : ProduceRecord) (buffered : Multiset ProduceRecord)
      (held : s.buffered = record ::ₘ buffered) :
      Step conv topic maxBuf fits s
        { s with
          buffered := buffered
          failed := record ::ₘ s.failed
          lost := record ::ₘ s.lost }
  /-- `Shutdown` returns: no handler is left, or it gives up on those that are. -/
  | httpStop (gaveUp : Bool) (main : s.main = .serving)
      (quiet : gaveUp = false → s.calls .http = 0 ∧ s.blocked .http = 0) :
      Step conv topic maxBuf fits s { s with main := .httpStopped, gaveUp := gaveUp }
  /-- `GracefulStop` returns: no call is left. -/
  | grpcStop (main : s.main = .httpStopped)
      (quiet : s.calls .grpc = 0 ∧ s.blocked .grpc = 0) :
      Step conv topic maxBuf fits s { s with main := .grpcStopped }
  /-- `Flush` returns: the client holds no record, or the deadline has come. -/
  | flush (timedOut : Bool) (main : s.main = .grpcStopped)
      (empty : timedOut = false → s.buffered = 0) :
      Step conv topic maxBuf fits s { s with main := .flushed, timedOut := timedOut }
  /-- The client is closed: what it still holds is lost. -/
  | close (main : s.main = .flushed) :
      Step conv topic maxBuf fits s
        { s with main := .closed, buffered := 0, lost := s.buffered + s.lost }

def Reachable (conv : Conversions) (topic : String) (maxBuf : ℕ) (fits : ProduceRecord → Bool)
    (s : KafkaIngest) : Prop := Relation.ReflTransGen (Step conv topic maxBuf fits) init s

/-! ## What the process is to the topic -/

/-- The calls of both doors. -/
def total {α : Type*} (f : Door → Multiset α) : Multiset α := f .http + f .grpc

theorem total_update_cons {α : Type*} (f : Door → Multiset α) (door : Door) (x : α) :
    total (Function.update f door (x ::ₘ f door)) = x ::ₘ total f := by
  cases door <;> simp [total, Function.update]

theorem total_eq_cons {α : Type*} {f : Door → Multiset α} {door : Door} {x : α}
    {rest : Multiset α} (h : f door = x ::ₘ rest) :
    total f = x ::ₘ total (Function.update f door rest) := by
  cases door <;> simp [total, Function.update, h]

def closed (s : KafkaIngest) : Bool :=
  match s.main with
  | .closed => true
  | _ => false

/-- The process without its doors and its `main`. -/
def process (s : KafkaIngest) : IngestProcess :=
  ⟨⟨s.buffered, total s.calls, total s.blocked, s.returned⟩, s.closed, s.acked, s.lost⟩

variable {conv : Conversions} {topic : String} {maxBuf : ℕ} {fits : ProduceRecord → Bool}
  {s s' : KafkaIngest}

theorem closed_eq_true_iff : s.closed = true ↔ s.main = .closed := by
  unfold closed
  cases s.main <;> simp

/-- A call that goes on was one before. -/
theorem mem_total_of_update {α : Type*} {f : Door → Multiset α} {door : Door} {x y : α}
    {rest : Multiset α} (h : f door = x ::ₘ rest) (hy : y ∈ total (Function.update f door rest)) :
    y ∈ total f := by
  rw [total_eq_cons h]
  exact Multiset.mem_cons_of_mem hy

/-- **A step is one of an ingest process, or none.** -/
theorem Step.process (hstep : Step conv topic maxBuf fits s s') :
    (∃ written, IngestProcess.Step conv topic maxBuf fits s.process written s'.process) ∨
      s'.process = s.process := by
  have hopen : ∀ {P : Prop}, s.main ≠ .closed → s.process.closed = true → P :=
    fun hne hclosed => absurd (closed_eq_true_iff.mp hclosed) hne
  cases hstep with
  | full door e may noRoom =>
    exact .inl ⟨none, .call _ (.full e noRoom) (le_refl _) (fun _ => rfl) fun _ => .inl⟩
  | check door e may room decoded =>
    have hcalls := total_update_cons s.calls door e
    refine .inl ⟨none, ?_⟩
    unfold process
    rw [hcalls]
    refine .call _ (.check e room) (le_refl _) (fun _ => rfl) fun e' he' => ?_
    rcases Multiset.mem_cons.mp he' with rfl | hold
    · exact .inr decoded
    · exact .inl hold
  | marshalError door e calls call error =>
    exact .inl ⟨none, .call _ (.marshalError e _ (total_eq_cons call) error) (le_refl _)
      (fun _ => rfl) fun _ he => .inl (mem_total_of_update call he)⟩
  | produce door e calls record call marshalled isOpen room =>
    exact .inl ⟨none, .call _ (.produce e _ record (total_eq_cons call) marshalled room)
      (Multiset.le_cons_self _ _) (hopen isOpen) fun _ he => .inl (mem_total_of_update call he)⟩
  | block door e calls record call marshalled isOpen noRoom =>
    have hblocked := total_update_cons s.blocked door (e, record)
    refine .inl ⟨none, ?_⟩
    unfold process
    rw [hblocked]
    exact .call _ (.block e _ record (total_eq_cons call) marshalled noRoom) (le_refl _)
      (hopen isOpen) fun _ he => .inl (mem_total_of_update call he)
  | unblock door e record blocked waiting isOpen room =>
    exact .inl ⟨none, .call _ (.unblock e record _ (total_eq_cons waiting) room)
      (Multiset.le_cons_self _ _) (hopen isOpen) fun _ => .inl⟩
  | late door e calls record call marshalled isClosed =>
    exact .inl ⟨none, .late e _ record (closed_eq_true_iff.mpr isClosed) (total_eq_cons call)
      marshalled⟩
  | lateBlocked door e record blocked waiting isClosed =>
    exact .inl ⟨none, .lateBlocked e record _ (closed_eq_true_iff.mpr isClosed)
      (total_eq_cons waiting)⟩
  | ack record buffered held size => exact .inl ⟨some record, .ack record buffered held size⟩
  | fail record buffered held => exact .inl ⟨none, .fail record buffered false held nofun⟩
  | httpStop gaveUp main quiet => exact .inr (by simp [KafkaIngest.process, closed, main])
  | grpcStop main quiet => exact .inr (by simp [KafkaIngest.process, closed, main])
  | flush timedOut main empty => exact .inr (by simp [KafkaIngest.process, closed, main])
  | close main => exact .inl ⟨none, .close⟩

/-! ## The shutdown -/

/-- **The invariant**: calls are in flight at doors that may call only; and what is lost without a
missed deadline is what failed. -/
structure Inv (conv : Conversions) (topic : String) (s : KafkaIngest) : Prop where
  process : s.process.Inv conv topic
  idle : ∀ door, ¬ s.MayCall door → s.calls door = 0 ∧ s.blocked door = 0
  serving : s.main = .serving → s.gaveUp = false
  unflushed : s.main ≠ .flushed → s.main ≠ .closed → s.timedOut = false
  flushed : s.main = .flushed ∨ s.main = .closed → s.gaveUp = false → s.timedOut = false →
    s.buffered = 0
  kept : s.gaveUp = false → s.timedOut = false → s.lost = s.failed

theorem inv_init (conv : Conversions) (topic : String) : init.Inv conv topic where
  process := IngestProcess.inv_init conv topic
  idle _ _ := ⟨rfl, rfl⟩
  serving _ := rfl
  unflushed _ _ := rfl
  flushed _ _ _ := rfl
  kept _ _ := rfl

/-- Once `GracefulStop` has returned, only handlers that `Shutdown` gave up on call. -/
theorem mayCall_iff (hserving : s.main ≠ .serving) (hstopped : s.main ≠ .httpStopped)
    {door : Door} : s.MayCall door ↔ door = .http ∧ s.gaveUp = true := by
  cases door <;> simp [MayCall, hserving, hstopped]

theorem MayCall.gaveUp {door : Door} (h : s.MayCall door)
    (hmain : s.main = .flushed ∨ s.main = .closed) : s.gaveUp = true := by
  refine ((mayCall_iff ?_ ?_).mp h).2
  all_goals rcases hmain with hmain | hmain <;> simp [hmain]

/-- A call in flight came through a door that may call. -/
theorem Inv.mayCall (h : s.Inv conv topic) {door : Door}
    (hcall : s.calls door ≠ 0 ∨ s.blocked door ≠ 0) : s.MayCall door := by
  by_contra hmay
  obtain ⟨hcalls, hblocked⟩ := h.idle door hmay
  exact hcall.elim (· hcalls) (· hblocked)

/-- A call begins, goes on or returns. -/
theorem Inv.call (h : s.Inv conv topic) {door : Door} (may : s.MayCall door)
    (hprocess : s'.process.Inv conv topic) (hmain : s'.main = s.main)
    (hgaveUp : s'.gaveUp = s.gaveUp) (htimedOut : s'.timedOut = s.timedOut)
    (hother : ∀ d, d ≠ door → s'.calls d = s.calls d ∧ s'.blocked d = s.blocked d)
    (hfailed : s'.failed = s.failed) (hlost : s.main ≠ .closed → s'.lost = s.lost) :
    s'.Inv conv topic := by
  have hmay : ∀ d, s'.MayCall d ↔ s.MayCall d := by
    intro d
    cases d <;> simp [MayCall, hmain, hgaveUp]
  refine ⟨hprocess, fun d hd => ?_, ?_, ?_, fun hdone hgave => ?_, fun hgave htime => ?_⟩
  · have hne : d ≠ door := by
      rintro rfl
      exact hd ((hmay d).mpr may)
    rw [(hother d hne).1, (hother d hne).2]
    exact h.idle d fun hd' => hd ((hmay d).mpr hd')
  · rw [hmain, hgaveUp]
    exact h.serving
  · rw [hmain, htimedOut]
    exact h.unflushed
  · rw [hmain] at hdone
    rw [hgaveUp, may.gaveUp hdone] at hgave
    cases hgave
  · rw [hgaveUp] at hgave
    rw [htimedOut] at htime
    have hopen : s.main ≠ .closed := fun hclosed => by
      rw [may.gaveUp (.inr hclosed)] at hgave
      cases hgave
    rw [hlost hopen, hfailed]
    exact h.kept hgave htime

/-- **Every step keeps the invariant.** -/
theorem Step.inv (hstep : Step conv topic maxBuf fits s s') (h : s.Inv conv topic) :
    s'.Inv conv topic := by
  have hprocess : s'.process.Inv conv topic := by
    rcases hstep.process with ⟨written, hproc⟩ | heq
    · exact hproc.inv h.process
    · exact heq ▸ h.process
  have hother : ∀ {α : Type} {f : Door → Multiset α} {door : Door} {x : Multiset α} (d : Door),
      d ≠ door → Function.update f door x d = f d := fun d hd => Function.update_of_ne hd _ _
  have hcall : ∀ {door e calls}, s.calls door = e ::ₘ calls → s.MayCall door := fun hcall =>
    h.mayCall (.inl (hcall ▸ Multiset.cons_ne_zero))
  have hwait : ∀ {door x blocked}, s.blocked door = x ::ₘ blocked → s.MayCall door := fun hwait =>
    h.mayCall (.inr (hwait ▸ Multiset.cons_ne_zero))
  cases hstep with
  | full door e may noRoom =>
    exact h.call may hprocess rfl rfl rfl (fun _ _ => ⟨rfl, rfl⟩) rfl fun _ => rfl
  | check door e may room decoded =>
    exact h.call may hprocess rfl rfl rfl (fun d hd => ⟨hother d hd, rfl⟩) rfl fun _ => rfl
  | marshalError door e calls call error =>
    exact h.call (hcall call) hprocess rfl rfl rfl (fun d hd => ⟨hother d hd, rfl⟩) rfl fun _ => rfl
  | produce door e calls record call marshalled isOpen room =>
    exact h.call (hcall call) hprocess rfl rfl rfl (fun d hd => ⟨hother d hd, rfl⟩) rfl fun _ => rfl
  | block door e calls record call marshalled isOpen noRoom =>
    exact h.call (hcall call) hprocess rfl rfl rfl (fun d hd => ⟨hother d hd, hother d hd⟩) rfl
      fun _ => rfl
  | unblock door e record blocked waiting isOpen room =>
    exact h.call (hwait waiting) hprocess rfl rfl rfl (fun d hd => ⟨rfl, hother d hd⟩) rfl
      fun _ => rfl
  | late door e calls record call marshalled isClosed =>
    exact h.call (hcall call) hprocess rfl rfl rfl (fun d hd => ⟨hother d hd, rfl⟩) rfl
      fun hopen => absurd isClosed hopen
  | lateBlocked door e record blocked waiting isClosed =>
    exact h.call (hwait waiting) hprocess rfl rfl rfl (fun d hd => ⟨rfl, hother d hd⟩) rfl
      fun hopen => absurd isClosed hopen
  | ack record buffered held size =>
    refine ⟨hprocess, h.idle, h.serving, h.unflushed, fun hdone hgave htime => ?_, h.kept⟩
    exact absurd (held.symm.trans (h.flushed hdone hgave htime)) Multiset.cons_ne_zero
  | fail record buffered held =>
    refine ⟨hprocess, h.idle, h.serving, h.unflushed, fun hdone hgave htime => ?_,
      fun hgave htime => congrArg (record ::ₘ ·) (h.kept hgave htime)⟩
    exact absurd (held.symm.trans (h.flushed hdone hgave htime)) Multiset.cons_ne_zero
  | httpStop gaveUp main quiet =>
    refine ⟨hprocess, fun door hmay => ?_, nofun, fun _ _ => ?_, nofun, fun _ htime => ?_⟩
    · cases door with
      | http => exact quiet (Bool.eq_false_iff.mpr fun hgave => hmay (.inr hgave))
      | grpc => exact absurd (.inr rfl) hmay
    · exact h.unflushed (by simp [main]) (by simp [main])
    · exact h.kept (h.serving main) htime
  | grpcStop main quiet =>
    refine ⟨hprocess, fun door hmay => ?_, nofun, fun _ _ => ?_, nofun, h.kept⟩
    · cases door with
      | http =>
        refine h.idle .http fun hmay' => hmay (.inr (hmay'.resolve_left ?_))
        simp [main]
      | grpc => exact quiet
    · exact h.unflushed (by simp [main]) (by simp [main])
  | flush timedOut main empty =>
    have htime : s.timedOut = false := h.unflushed (by simp [main]) (by simp [main])
    refine ⟨hprocess, fun door hmay => h.idle door ?_, nofun, nofun, fun _ _ hmet => empty hmet,
      fun hgave _ => h.kept hgave htime⟩
    rw [mayCall_iff (by simp) (by simp)] at hmay
    rwa [mayCall_iff (by simp [main]) (by simp [main])]
  | close main =>
    refine ⟨hprocess, fun door hmay => h.idle door ?_, nofun, nofun, fun _ _ _ => rfl,
      fun hgave htime => ?_⟩
    · rw [mayCall_iff (by simp) (by simp)] at hmay
      rwa [mayCall_iff (by simp [main]) (by simp [main])]
    · show s.buffered + s.lost = s.failed
      rw [h.flushed (.inl main) hgave htime, zero_add]
      exact h.kept hgave htime

/-- **The invariant holds in every state reached.** -/
theorem Reachable.inv (h : Reachable conv topic maxBuf fits s) : s.Inv conv topic := by
  induction h with
  | refl => exact inv_init conv topic
  | tail _ hstep ih => exact hstep.inv ih

/-- **Without a missed deadline** the accepted records are those acknowledged, and those whose
promise got an error while the client was open. -/
theorem Reachable.acceptedRecords_eq (h : Reachable conv topic maxBuf fits s)
    (hclosed : s.main = .closed) (hgave : s.gaveUp = false) (htime : s.timedOut = false) :
    s.process.acceptedRecords conv topic = s.acked + s.failed := by
  have hinv := h.inv
  rw [hinv.process.conserved, ← hinv.kept hgave htime]
  show s.buffered + s.acked + s.lost = _
  rw [hinv.flushed (.inr hclosed) hgave htime, zero_add]

/-- A handler that was given up on produces on the closed client. -/
theorem exists_lost_late {e : Event} {record : ProduceRecord} (hmax : 1 ≤ maxBuf)
    (hdec : e.Decoded conv) (hrecord : e.produceRecord conv topic = some record)
    (timedOut : Bool) :
    ∃ s, Reachable conv topic maxBuf fits s ∧ s.main = .closed ∧ s.gaveUp = true ∧
      s.timedOut = timedOut ∧ s.failed = 0 ∧ s.acked = 0 ∧ s.returned = [(e, none)] := by
  have hchecked : Reachable conv topic maxBuf fits _ :=
    .single (.check .http e (.inl rfl) (Nat.pos_of_ne_zero (by omega)) hdec)
  have hstopped := (hchecked.tail (.httpStop true rfl nofun)).tail (.grpcStop rfl ⟨rfl, rfl⟩)
  have hclosed := (hstopped.tail (.flush timedOut rfl fun _ => rfl)).tail (.close rfl)
  exact ⟨_, hclosed.tail (.late .http e 0 record rfl hrecord rfl), rfl, rfl, rfl, rfl, rfl, rfl⟩

/-- A record is still buffered when `Flush` comes to its deadline. -/
theorem exists_lost_buffered {e : Event} {record : ProduceRecord} (hmax : 1 ≤ maxBuf)
    (hdec : e.Decoded conv) (hrecord : e.produceRecord conv topic = some record) :
    ∃ s, Reachable conv topic maxBuf fits s ∧ s.main = .closed ∧ s.gaveUp = false ∧
      s.timedOut = true ∧ s.failed = 0 ∧ s.acked = 0 ∧ s.returned = [(e, none)] := by
  have hchecked : Reachable conv topic maxBuf fits _ :=
    .single (.check .http e (.inl rfl) (Nat.pos_of_ne_zero (by omega)) hdec)
  have hproduced := hchecked.tail
    (.produce .http e 0 record rfl hrecord nofun (Nat.pos_of_ne_zero (by omega)))
  have hstopped := (hproduced.tail (.httpStop false rfl fun _ => ⟨rfl, rfl⟩)).tail
    (.grpcStop rfl ⟨rfl, rfl⟩)
  have hclosed := (hstopped.tail (.flush true rfl nofun)).tail (.close rfl)
  exact ⟨_, hclosed, rfl, rfl, rfl, rfl, rfl, rfl⟩

end KafkaIngest

/-- **Accepted events are kept exactly if both deadlines are met.** For all runs of an ingest
process in which the client is closed in the end and no promise got an error before that: the
records of the accepted events are acknowledged, each as often as it was accepted, in every run in
which `Shutdown` did not give up on a handler and `Flush` was not cut off, and if either happens not
in every run. -/
theorem shutdown_keeps_iff {conv : Conversions} {topic : String} {maxBuf : ℕ}
    {fits : ProduceRecord → Bool} {e : Event} {record : ProduceRecord} (hmax : 1 ≤ maxBuf)
    (hdec : e.Decoded conv) (hrecord : e.produceRecord conv topic = some record)
    (gaveUp timedOut : Bool) :
    (∀ s, KafkaIngest.Reachable conv topic maxBuf fits s → s.main = .closed → s.gaveUp = gaveUp →
      s.timedOut = timedOut → s.failed = 0 →
      s.process.acceptedRecords conv topic = s.acked) ↔ gaveUp = false ∧ timedOut = false := by
  constructor
  · intro hkept
    have hlost : ∀ s : KafkaIngest, s.acked = 0 → s.returned = [(e, none)] →
        s.process.acceptedRecords conv topic ≠ s.acked := by
      intro s hacked hreturned heq
      have hone : s.process.acceptedRecords conv topic = {record} := by
        show ((s.returned.filterMap _ : List ProduceRecord) : Multiset ProduceRecord) = _
        rw [hreturned]
        simp [IngestProcess.acceptedRecord, hrecord]
      rw [hone, hacked] at heq
      exact Multiset.singleton_ne_zero _ heq
    cases gaveUp with
    | true =>
      obtain ⟨s, hs, hclosed, hgave, htime, hfailed, hacked, hreturned⟩ :=
        KafkaIngest.exists_lost_late hmax hdec hrecord timedOut
      exact absurd (hkept s hs hclosed hgave htime hfailed) (hlost s hacked hreturned)
    | false =>
      refine ⟨rfl, Bool.eq_false_iff.mpr ?_⟩
      rintro rfl
      obtain ⟨s, hs, hclosed, hgave, htime, hfailed, hacked, hreturned⟩ :=
        KafkaIngest.exists_lost_buffered hmax hdec hrecord
      exact hlost s hacked hreturned (hkept s hs hclosed hgave htime hfailed)
  · rintro ⟨rfl, rfl⟩ s hs hclosed hgave htime hfailed
    rw [hs.acceptedRecords_eq hclosed hgave htime, hfailed, add_zero]

/-- A click, with a buffer for one record. -/
theorem shutdown_keeps_iff_click :
    (epochClick.produceRecord .epoch "tally.events").isSome ∧
      ∀ s, KafkaIngest.Reachable .epoch "tally.events" 1 (fun _ => true) s → s.main = .closed →
        s.gaveUp = false → s.timedOut = false → s.failed = 0 →
        s.process.acceptedRecords .epoch "tally.events" = s.acked := by
  have hsome : (epochClick.produceRecord .epoch "tally.events").isSome := rfl
  obtain ⟨record, hrecord⟩ := Option.isSome_iff_exists.mp hsome
  have hdec : epochClick.Decoded .epoch := trivial
  exact ⟨hsome, (shutdown_keeps_iff (le_refl 1) hdec hrecord false false).mpr ⟨rfl, rfl⟩⟩

end Tally
