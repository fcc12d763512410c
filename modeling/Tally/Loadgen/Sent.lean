import Mathlib.Data.Finset.Card
import Mathlib.Data.List.Nodup
import Tally.Loadgen.Sender

/-!
# The sent count of the load generator

`chaos.sh` and the benchmarks compare `sent` with the number of stored events. An event that is sent
a second time is counted twice and then once less, whether the second send was accepted or not; so
`sent` is the number of distinct accepted events exactly when every second send was accepted.

## Main definitions

* `Loadgen.acceptedIds`: the ids of which some post was accepted

## Main results

* `Job.Sound.credit_eq`: what a finished job has added
* `sent_eq_accepted_iff`: when `sent` is the number of distinct accepted events
-/

namespace Tally

namespace Job

/-- Some post of the event was accepted. -/
def anyAccepted (job : Job) : Bool := job.answers.any fun p => accepted p.2

/-- The event was sent a second time, and this was not accepted. -/
def dupFailed (job : Job) : Bool :=
  job.duplicated && !job.answers.any fun p => p.1 && accepted p.2

theorem anyAccepted_iff (job : Job) :
    job.anyAccepted = true ↔ 0 < job.firstAccepted ∨ 0 < job.dupAccepted := by
  unfold anyAccepted firstAccepted dupAccepted
  rw [List.any_eq_true, List.countP_pos_iff, List.countP_pos_iff, ← exists_or]
  refine exists_congr fun p => ?_
  cases p.1 <;> simp

theorem dupFailed_iff (job : Job) :
    job.dupFailed = true ↔ job.duplicated = true ∧ job.dupAccepted = 0 := by
  unfold dupFailed dupAccepted
  rw [Bool.and_eq_true, Bool.not_eq_true', List.any_eq_false, List.countP_eq_zero]

/-- **What a finished job has added to `sent`**: one if it was accepted, less one if its second send
was not. -/
theorem Sound.credit_eq {job : Job} (h : job.Sound) (hphase : job.phase = .finished) :
    job.credit = job.anyAccepted.toNat - job.dupFailed.toNat := by
  have hany := job.anyAccepted_iff
  have hfailed := job.dupFailed_iff
  simp only [Job.Sound, hphase] at h
  obtain ⟨hfirst, hdup, hagain⟩ := h
  rw [credit, hphase]
  simp only
  cases hd : job.duplicated with
  | false =>
    rw [hd] at hdup hfailed
    have hzero : job.dupAccepted = 0 := Nat.le_zero.mp hdup
    have hnot : job.dupFailed = false := by simpa using hfailed
    rw [hzero] at hany ⊢
    rw [hnot]
    cases ha : job.anyAccepted with
    | false =>
      rw [ha] at hany
      have : job.firstAccepted = 0 := by simpa using hany
      simp [this]
    | true =>
      rw [ha] at hany
      have : job.firstAccepted = 1 := by
        have := hany.mp rfl
        omega
      simp [this]
  | true =>
    rw [hd] at hdup hfailed
    have hone := hagain hd
    have hyes : job.anyAccepted = true := hany.mpr (.inl (by omega))
    rw [hone, hyes]
    cases hf : job.dupFailed with
    | false =>
      rw [hf] at hfailed
      have : job.dupAccepted = 1 := by
        have hne : job.dupAccepted ≠ 0 := by simpa using hfailed
        have hle : job.dupAccepted ≤ 1 := hdup
        omega
      simp [this]
    | true =>
      have := (hfailed.mp hf).2
      simp [this]

end Job

namespace Loadgen

variable {ι : Type*} {dupes : ℤ} {s : Loadgen ι}

/-- The ids of which some post was answered with a status below 300. -/
def acceptedIds (s : Loadgen ι) : Finset String :=
  ((s.jobs.filter fun job => job.answers.any fun p => accepted p.2).map Job.id).toFinset

/-- When all senders have stopped, all jobs are finished. -/
theorem Sound.finished (h : s.Sound) (hstopped : ∀ i, s.senders i = .stopped) {job : Job}
    (hjob : job ∈ s.jobs) : job.phase = .finished := by
  by_contra hphase
  obtain ⟨k, hk⟩ := List.mem_iff_getElem?.mp hjob
  obtain ⟨i, hi⟩ := h.held k job hk hphase
  rw [hstopped i] at hi
  cases hi

/-- What finished jobs have added together. -/
theorem sum_credit_eq {jobs : List Job} (hsound : ∀ job ∈ jobs, job.Sound)
    (hfinished : ∀ job ∈ jobs, job.phase = .finished) :
    (jobs.map Job.credit).sum = jobs.countP Job.anyAccepted - jobs.countP Job.dupFailed := by
  induction jobs with
  | nil => rfl
  | cons job jobs ih =>
    have hrest := ih (fun j hj => hsound j (List.mem_cons_of_mem _ hj))
      fun j hj => hfinished j (List.mem_cons_of_mem _ hj)
    have hjob := (hsound job List.mem_cons_self).credit_eq (hfinished job List.mem_cons_self)
    rw [List.map_cons, List.sum_cons, hrest, hjob, List.countP_cons, List.countP_cons]
    cases job.anyAccepted <;> cases job.dupFailed <;> simp <;> omega

theorem Sound.card_acceptedIds (h : s.Sound) :
    s.acceptedIds.card = s.jobs.countP Job.anyAccepted := by
  have hnodup : ((s.jobs.filter Job.anyAccepted).map Job.id).Nodup :=
    h.ids.sublist ((List.filter_sublist).map Job.id)
  rw [List.countP_eq_length_filter, ← List.length_map Job.id]
  exact List.toFinset_card_of_nodup hnodup

end Loadgen

/-- **`sent` is the number of distinct accepted events, if and only if every event that was sent a
second time was accepted the second time too.** This is so in every run of any number of senders and
jobs with different ids, for any percentage of duplicates, any random numbers and any answers to the
posts, when all senders have stopped. -/
theorem sent_eq_accepted_iff {ι : Type*} [DecidableEq ι] {dupes : ℤ} {s : Loadgen ι}
    (h : Loadgen.Reachable dupes s) (hstopped : ∀ i, s.senders i = .stopped) :
    s.counts.sent = s.acceptedIds.card ↔
      ∀ job ∈ s.jobs, (∃ p ∈ job.answers, p.1 = true) →
        ∃ p ∈ job.answers, p.1 = true ∧ accepted p.2 = true := by
  have hsound := h.sound
  have hsum := Loadgen.sum_credit_eq hsound.jobs fun job hjob => hsound.finished hstopped hjob
  have hfailed : s.jobs.countP Job.dupFailed = 0 ↔
      ∀ job ∈ s.jobs, (∃ p ∈ job.answers, p.1 = true) →
        ∃ p ∈ job.answers, p.1 = true ∧ accepted p.2 = true := by
    rw [List.countP_eq_zero]
    refine forall_congr' fun job => imp_congr_right fun _ => ?_
    simp [Job.dupFailed, Job.duplicated]
  rw [← hfailed, hsound.card_acceptedIds, hsound.sent, hsum]
  omega

/-! ## One sender with one event -/

/-- What a sender does with an event, given all that it meets. -/
def Job.run (dupes : ℤ) : List Input → Job → Loadgen.Counts → Option (Job × Loadgen.Counts)
  | [], job, c => some (job, c)
  | input :: inputs, job, c =>
    (job.advance dupes input c).bind fun (job', c') => job'.run dupes inputs c'

namespace Loadgen

variable {dupes : ℤ} {inputs : List Job.Input} {job job' : Job} {c c' : Counts}

theorem advances_of_run (h : job.run dupes inputs c = some (job', c')) :
    Relation.ReflTransGen (Step dupes) (⟨c, [job], fun _ => .working 0⟩ : Loadgen Unit)
      ⟨c', [job'], fun _ => .working 0⟩ := by
  induction inputs generalizing job c with
  | nil =>
    cases h
    exact .refl
  | cons input inputs ih =>
    obtain ⟨⟨next, counts⟩, hnext, hrest⟩ := Option.bind_eq_some_iff.mp h
    exact .head (.advance () 0 job next input counts rfl rfl hnext) (ih hrest)

/-- A lone sender with one event stops after it. -/
theorem reachable_of_run (dupes : ℤ) (inputs : List Job.Input) (id : String)
    (h : (⟨id, [], .posting false⟩ : Job).run dupes inputs ⟨0, 0, 0⟩ = some (job, c))
    (hphase : job.phase = .finished) :
    Reachable dupes (⟨c, [job], fun _ => .stopped⟩ : Loadgen Unit) := by
  have htake : Step dupes (init Unit) ⟨_, [⟨id, [], .posting false⟩], fun _ => .working 0⟩ :=
    .take () id rfl List.not_mem_nil
  have hfinish : Step dupes (⟨c, [job], fun _ => .working 0⟩ : Loadgen Unit)
      ⟨c, [job], fun _ => .idle⟩ := .finish () 0 job rfl rfl hphase
  have hstop : Step dupes (⟨c, [job], fun _ => .idle⟩ : Loadgen Unit)
      ⟨c, [job], fun _ => .stopped⟩ := .stop () rfl
  exact ((Relation.ReflTransGen.head htake (advances_of_run h)).tail hfinish).tail hstop

end Loadgen

/-- One event, accepted and sent a second time and accepted again, is one sent. -/
theorem sent_eq_accepted_iff_duplicate :
    ∃ s : Loadgen Unit, Loadgen.Reachable 100 s ∧ (∀ i, s.senders i = .stopped) ∧
      s.jobs.map Job.answers = [[(false, some 202), (true, some 202)]] ∧
      s.counts.sent = s.acceptedIds.card ∧ s.acceptedIds = {"1-1"} := by
  have hrun := Loadgen.reachable_of_run 100
    [.answer (some 202), .none, .draw 0, .answer (some 202), .none, .none] "1-1" rfl rfl
  refine ⟨_, hrun, fun _ => rfl, rfl, (sent_eq_accepted_iff hrun fun _ => rfl).mpr ?_, rfl⟩
  decide

/-- One event is accepted, and its second send is not: nothing is sent. -/
theorem sent_misses_accepted_event :
    ∃ s : Loadgen Unit, Loadgen.Reachable 100 s ∧ (∀ i, s.senders i = .stopped) ∧
      s.counts.sent = 0 ∧ s.acceptedIds = {"1-1"} :=
  ⟨_, Loadgen.reachable_of_run 100
    [.answer (some 202), .none, .draw 0, .answer (some 500), .none, .none] "1-1" rfl rfl,
    fun _ => rfl, rfl, rfl⟩

end Tally
