import Tally.Loadgen.Sent

/-!
# The report of the load generator

What the three counters that the load generator reports say of a run. Every job ends as one sent or
one failed, whatever happens to its posts and to its duplicate: the failure of a duplicate is
counted where its event is taken back. So `sent` never exceeds the number of distinct accepted
events, and events that are missing from the store are never an error of this count; it is exact
when no duplicates are asked for. The retries are the posts beyond the first of each send.

## Main definitions

* `Job.Phase.outcomes`: what a job has added to `sent` and `failed` together
* `Job.firstPosts`, `Job.resent`: its posts without the retries, and its retries

## Main results

* `Job.Sound.advance_report`: a step keeps the accounts of its job
* `Loadgen.Reachable.report`: the counters are the sums of what the jobs have added
* `Loadgen.Reachable.sent_add_failed`, `Loadgen.Reachable.sent_eq`: the jobs, and what is accepted
* `loadgen_report`: what the counters say when all senders have stopped
-/

namespace Tally

namespace Job

/-- What a job has added to `sent` and `failed` together. -/
def Phase.outcomes : Phase → ℤ
  | .posting dup | .backingOff dup | .reposting dup | .counting dup _ => dup.toNat
  | .returned dup _ => dup.toNat + 1
  | .finished => 1

/-- The event is being sent for the second time. -/
def Phase.again : Phase → Bool
  | .posting dup | .backingOff dup | .reposting dup | .counting dup _ | .returned dup _ => dup
  | .finished => false

/-- The posts of a job without the retries that have been counted. -/
def firstPosts (job : Job) : ℤ :=
  match job.phase with
  | .posting dup => dup.toNat
  | .backingOff dup => dup.toNat + 1
  | .reposting dup => dup.toNat
  | .counting dup _ | .returned dup _ => dup.toNat + 1
  | .finished => 1 + job.duplicated.toNat

/-- What a job has added to `retried`. -/
def resent (job : Job) : ℤ := job.answers.length - job.firstPosts

variable {dupes : ℤ} {input : Input} {job job' : Job} {c c' : Loadgen.Counts}

/-- **A step keeps the accounts of its job**: what it adds to the counters is what the job has added
more. -/
theorem Sound.advance_report (hsound : job.Sound)
    (h : job.advance dupes input c = some (job', c')) :
    c'.sent + c'.failed - (c.sent + c.failed) = job'.phase.outcomes - job.phase.outcomes ∧
      c'.retried - c.retried = job'.resent - job.resent := by
  unfold Job.advance at h
  split at h
  case h_1 dup a hphase =>
    cases h
    by_cases ha : a = some 503 <;> simp [hphase, ha, Phase.outcomes, resent, firstPosts]
  case h_2 dup hphase =>
    cases h
    simp only [hphase, Phase.outcomes, resent, firstPosts]
    omega
  case h_3 dup a hphase =>
    cases h
    simp [hphase, Phase.outcomes, resent, firstPosts]
  case h_4 dup hphase =>
    cases h
    simp only [hphase, Phase.outcomes, resent, firstPosts]
    omega
  case h_5 dup hphase =>
    cases h
    simp only [hphase, Phase.outcomes, resent, firstPosts]
    omega
  case h_6 r hphase =>
    cases h
    have hdup : job.duplicated = false := by
      simp only [Sound, hphase] at hsound
      exact hsound.2.2
    have hdup' : (job.goto .finished).duplicated = false := hdup
    simp only [goto] at hdup'
    split_ifs <;> simp [hphase, Phase.outcomes, resent, firstPosts, hdup']
  case h_7 hphase =>
    cases h
    have hdup : (job.goto .finished).duplicated = false := by
      simp only [Sound, hphase] at hsound
      exact hsound.2.2
    simp only [goto] at hdup
    simp [hphase, Phase.outcomes, resent, firstPosts, hdup]
  case h_8 ok hphase =>
    cases h
    have hdup : (job.goto .finished).duplicated = true := by
      simp only [Sound, hphase] at hsound
      exact hsound.2.2
    simp only [goto] at hdup
    simp [hphase, Phase.outcomes, resent, firstPosts, hdup]
  case h_9 => cases h

/-- Without duplicates no event is sent again. -/
theorem again_advance (hdupes : dupes ≤ 0) (h : job.advance dupes input c = some (job', c'))
    (hagain : job.phase.again = false) (hdup : job.duplicated = false) :
    job'.phase.again = false ∧ job'.duplicated = false := by
  rcases advance_cases h with ⟨dup, a, hphase, -, rfl⟩ | ⟨dup, hphase, -, rfl⟩ |
    ⟨dup, a, hphase, -, rfl⟩ | ⟨dup, ok, hphase, -, rfl⟩ | ⟨hphase, -, rfl⟩ |
    ⟨ok, hphase, -, rfl⟩ | ⟨ok, hphase, -, rfl⟩
  · rw [hphase] at hagain
    have hdup' : dup = false := hagain
    subst hdup'
    by_cases ha : a = some 503 <;> simp [ha, hdup, Phase.again]
  · rw [hphase] at hagain
    exact ⟨hagain, hdup⟩
  · rw [hphase] at hagain
    have hdup' : dup = false := hagain
    subst hdup'
    simp [hdup, Phase.again]
  · rw [hphase] at hagain
    exact ⟨hagain, hdup⟩
  · have hnot : ∀ r : Fin 100, ¬ (0 < dupes ∧ (r : ℤ) < dupes) := fun r hr => by omega
    cases input with
    | draw r => simp [Job.advance, hphase, hnot r, goto] at h
    | answer a => simp [Job.advance, hphase] at h
    | none => simp [Job.advance, hphase] at h
  · exact ⟨rfl, hdup⟩
  · exact ⟨rfl, hdup⟩

end Job

namespace Loadgen

variable {ι : Type*} [DecidableEq ι] {dupes : ℤ} {s : Loadgen ι}

/-- **The counters are the sums of what the jobs have added.** -/
theorem Reachable.report (h : Reachable dupes s) :
    s.counts.sent + s.counts.failed = (s.jobs.map fun job => job.phase.outcomes).sum ∧
      s.counts.retried = (s.jobs.map Job.resent).sum := by
  induction h with
  | refl => exact ⟨rfl, rfl⟩
  | @tail s _ hs hstep ih =>
    obtain ⟨houtcomes, hresent⟩ := ih
    cases hstep with
    | take i id idle fresh =>
      have hnew : (⟨id, [], .posting false⟩ : Job).resent = 0 := rfl
      have hphase : (Job.Phase.posting false).outcomes = 0 := rfl
      simp only [List.map_append, List.map_singleton, List.sum_append, List.sum_singleton, hnew,
        hphase, add_zero]
      exact ⟨houtcomes, hresent⟩
    | advance i k job job' input counts working current next =>
      have hmem : job ∈ s.jobs := List.mem_of_getElem? current
      obtain ⟨hout, hre⟩ := ((Reachable.sound hs).jobs job hmem).advance_report next
      have hsum := sum_map_set (fun job => job.phase.outcomes) current job'
      have hsum' := sum_map_set Job.resent current job'
      simp only at hsum ⊢
      constructor <;> omega
    | finish i k job working current finished => exact ⟨houtcomes, hresent⟩
    | stop i idle => exact ⟨houtcomes, hresent⟩

/-- Without duplicates no event is sent twice. -/
theorem Reachable.once (h : Reachable dupes s) (hdupes : dupes ≤ 0) :
    ∀ job ∈ s.jobs, job.phase.again = false ∧ job.duplicated = false := by
  induction h with
  | refl => exact fun job hjob => absurd hjob List.not_mem_nil
  | @tail s _ hs hstep ih =>
    cases hstep with
    | take i id idle fresh =>
      intro job hjob
      rcases List.mem_append.mp hjob with hjob | hjob
      · exact ih job hjob
      · rw [List.mem_singleton.mp hjob]
        exact ⟨rfl, rfl⟩
    | advance i k job job' input counts working current next =>
      obtain ⟨hagain, hdup⟩ := ih job (List.mem_of_getElem? current)
      intro j hj
      rcases List.mem_or_eq_of_mem_set hj with hj | rfl
      · exact ih j hj
      · exact Job.again_advance hdupes next hagain hdup
    | finish i k job working current finished => exact ih
    | stop i idle => exact ih

omit [DecidableEq ι] in
/-- Sums over finished jobs. -/
theorem sum_finished {jobs : List Job} (hfinished : ∀ job ∈ jobs, job.phase = .finished) :
    (jobs.map fun job => job.phase.outcomes).sum = jobs.length ∧
      (jobs.map Job.resent).sum =
        (jobs.map fun job => (job.answers.length : ℤ)).sum - jobs.length -
          jobs.countP Job.duplicated := by
  induction jobs with
  | nil => exact ⟨rfl, rfl⟩
  | cons job jobs ih =>
    obtain ⟨hout, hre⟩ := ih fun j hj => hfinished j (List.mem_cons_of_mem _ hj)
    have hphase := hfinished job List.mem_cons_self
    have hone : job.phase.outcomes = 1 := by rw [hphase]; rfl
    have hposts : job.resent = job.answers.length - (1 + job.duplicated.toNat) := by
      simp only [Job.resent, Job.firstPosts, hphase]
    simp only [List.map_cons, List.sum_cons, hout, hre, hone, hposts, List.countP_cons,
      List.length_cons]
    cases job.duplicated <;> simp <;> omega

/-- **Every job is counted once**, as sent or as failed. -/
theorem Reachable.sent_add_failed (h : Reachable dupes s)
    (hstopped : ∀ i, s.senders i = .stopped) : s.counts.sent + s.counts.failed = s.jobs.length := by
  obtain ⟨hout, -⟩ := sum_finished fun job hjob => h.sound.finished hstopped hjob
  rw [h.report.1, hout]

/-- What `sent` misses: the accepted events whose duplicate was not. -/
theorem Reachable.sent_eq (h : Reachable dupes s) (hstopped : ∀ i, s.senders i = .stopped) :
    s.counts.sent = s.acceptedIds.card - s.jobs.countP Job.dupFailed := by
  rw [h.sound.card_acceptedIds, h.sound.sent]
  exact sum_credit_eq h.sound.jobs fun job hjob => h.sound.finished hstopped hjob

/-- Without duplicates it misses none. -/
theorem Reachable.sent_eq_card (h : Reachable dupes s) (hstopped : ∀ i, s.senders i = .stopped)
    (hdupes : dupes ≤ 0) : s.counts.sent = s.acceptedIds.card := by
  have hnone : s.jobs.countP Job.dupFailed = 0 := by
    refine List.countP_eq_zero.mpr fun job hjob => ?_
    simp [Job.dupFailed, (h.once hdupes job hjob).2]
  rw [h.sent_eq hstopped, hnone]
  exact sub_zero _

end Loadgen

/-- **What the report of the load generator says.** When all senders have stopped, in every run with
any number of senders and jobs, any random numbers and any answers to the posts: every job is
counted once, as sent or as failed. `sent` is at most the number of distinct accepted events, and
these are at most the jobs. The retries are the posts beyond one for each job and one for each
duplicate. If no duplicates are asked for, `sent` is the number of distinct accepted events. -/
theorem loadgen_report {ι : Type*} [DecidableEq ι] {dupes : ℤ} {s : Loadgen ι}
    (h : Loadgen.Reachable dupes s) (hstopped : ∀ i, s.senders i = .stopped) :
    s.counts.sent + s.counts.failed = s.jobs.length ∧
    s.counts.sent ≤ s.acceptedIds.card ∧ s.acceptedIds.card ≤ s.counts.sent + s.counts.failed ∧
    (s.jobs.map fun job => (job.answers.length : ℤ)).sum =
      s.jobs.length + s.jobs.countP Job.duplicated + s.counts.retried ∧
    (dupes ≤ 0 → s.counts.sent = s.acceptedIds.card) := by
  have hjobs := h.sent_add_failed hstopped
  have hsent := h.sent_eq hstopped
  have haccepted : (s.acceptedIds.card : ℤ) ≤ s.jobs.length := by
    rw [h.sound.card_acceptedIds]
    exact_mod_cast List.countP_le_length
  obtain ⟨-, hposts⟩ := Loadgen.sum_finished fun job hjob => h.sound.finished hstopped hjob
  have hretried := h.report.2
  exact ⟨hjobs, by omega, by omega, by omega, h.sent_eq_card hstopped⟩

/-- One event, refused once, accepted at the retry, and not accepted as a duplicate. -/
theorem loadgen_report_failed_duplicate :
    ∃ s : Loadgen Unit, Loadgen.Reachable 100 s ∧ (∀ i, s.senders i = .stopped) ∧
      s.counts.sent + s.counts.failed = s.jobs.length ∧ s.counts.sent ≤ s.acceptedIds.card ∧
      s.acceptedIds = {"1-1"} := by
  have hrun := Loadgen.reachable_of_run 100 [.answer (some 503), .none, .answer (some 202), .none,
    .draw 0, .answer (some 500), .none, .none] "1-1" rfl rfl
  obtain ⟨hjobs, hle, -⟩ := loadgen_report hrun fun _ => rfl
  exact ⟨_, hrun, fun _ => rfl, hjobs, hle, rfl⟩

end Tally
