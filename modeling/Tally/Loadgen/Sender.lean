import Mathlib.Algebra.BigOperators.Group.List.Basic
import Mathlib.Algebra.Ring.Int.Defs
import Mathlib.Logic.Relation

/-!
# The load generator

The senders of `cmd/loadgen`: each takes jobs one after another, posts an event, once more after a
503, and sends some of the accepted events a second time. All of them count in shared counters, by
atomic additions. A job is what a sender does with one event: its posts and how far it is. What a
post is answered, and what the random numbers are, is arbitrary. Of the body of an event only its id
matters here; the latencies are left out.

## Main definitions

* `Job.Phase`, `Job`, `Job.advance`: what a sender does with an event
* `Loadgen`, `Loadgen.Step`, `Loadgen.Reachable`: the senders, and their interleavings
* `Job.credit`: what a job has added to `sent` so far

## Main results

* `Job.Sound.advance`: a step keeps the account of its job
* `Loadgen.Reachable.sound`: `sent` is the sum of what the jobs have added
-/

namespace Tally

/-- Where a sender is with an event: before the answer to a post, before the retry that a 503 asks
for, before the answer to the retry, before it counts the outcome, after `send` has returned, and
through with it. The flags tell whether it is sent for the second time, and whether it was
accepted. -/
inductive Job.Phase where
  | posting (dup : Bool)
  | backingOff (dup : Bool)
  | reposting (dup : Bool)
  | counting (dup ok : Bool)
  | returned (dup ok : Bool)
  | finished
  deriving DecidableEq

/-- The answer to a post, `none` for a transport error. -/
abbrev Answer := Option ℕ

/-- The status is below 300. -/
def accepted : Answer → Bool
  | none => false
  | some status => status < 300

/-- An event with the answers to its posts so far, and whether these were posts of the second
send. -/
structure Job where
  id : String
  answers : List (Bool × Answer)
  phase : Job.Phase

/-- The counters. -/
structure Loadgen.Counts where
  sent : ℤ
  failed : ℤ
  retried : ℤ

/-- What a step of a sender meets: the answer to a post, a random number below 100, or nothing. -/
inductive Job.Input where
  | answer (a : Answer)
  | draw (r : Fin 100)
  | none

/-- The next step with an event, as `send` and the loop of the senders take it. -/
def Job.advance (dupes : ℤ) (input : Input) (job : Job) (c : Loadgen.Counts) :
    Option (Job × Loadgen.Counts) :=
  match job.phase, input with
  | .posting dup, .answer a =>
    some ({ job with
      answers := job.answers ++ [(dup, a)]
      phase := if a = some 503 then .backingOff dup else .counting dup (accepted a) }, c)
  | .backingOff dup, .none =>
    some ({ job with phase := .reposting dup }, { c with retried := c.retried + 1 })
  | .reposting dup, .answer a =>
    some ({ job with
      answers := job.answers ++ [(dup, a)]
      phase := .counting dup (accepted a) }, c)
  | .counting dup true, .none =>
    some ({ job with phase := .returned dup true }, { c with sent := c.sent + 1 })
  | .counting dup false, .none =>
    some ({ job with phase := .returned dup false }, { c with failed := c.failed + 1 })
  -- `send(body) && *dupes > 0 && rng.Intn(100) < *dupes`; with no duplicates the number is not
  -- drawn, and does not matter
  | .returned false true, .draw r =>
    some ({ job with phase := if 0 < dupes ∧ (r : ℤ) < dupes then .posting true else .finished }, c)
  | .returned false false, .none => some ({ job with phase := .finished }, c)
  -- the result of the second `send` is not looked at
  | .returned true _, .none =>
    some ({ job with phase := .finished }, { c with sent := c.sent - 1 })
  | _, _ => none

/-- A sender: between two jobs, with the job of a number, or past the end of the jobs. -/
inductive Sender where
  | idle
  | working (k : ℕ)
  | stopped

/-- The counters, the jobs that were taken, and the senders. -/
structure Loadgen (ι : Type*) where
  counts : Loadgen.Counts
  jobs : List Job
  senders : ι → Sender

namespace Loadgen

variable {ι : Type*} [DecidableEq ι]

/-- Before the first job. -/
def init (ι : Type*) : Loadgen ι := ⟨⟨0, 0, 0⟩, [], fun _ => .idle⟩

/-- One step of a sender. -/
inductive Step (dupes : ℤ) (s : Loadgen ι) : Loadgen ι → Prop
  /-- It takes a job, with an id of its own. -/
  | take (i : ι) (id : String) (idle : s.senders i = .idle)
      (fresh : id ∉ s.jobs.map Job.id) :
      Step dupes s
        { s with
          jobs := s.jobs ++ [⟨id, [], .posting false⟩]
          senders := Function.update s.senders i (.working s.jobs.length) }
  /-- It goes on with its job. -/
  | advance (i : ι) (k : ℕ) (job job' : Job) (input : Job.Input) (counts : Counts)
      (working : s.senders i = .working k) (current : s.jobs[k]? = some job)
      (next : job.advance dupes input s.counts = some (job', counts)) :
      Step dupes s { s with counts := counts, jobs := s.jobs.set k job' }
  /-- It is through with its job. -/
  | finish (i : ι) (k : ℕ) (job : Job) (working : s.senders i = .working k)
      (current : s.jobs[k]? = some job) (finished : job.phase = .finished) :
      Step dupes s { s with senders := Function.update s.senders i .idle }
  /-- There are no more jobs. -/
  | stop (i : ι) (idle : s.senders i = .idle) :
      Step dupes s { s with senders := Function.update s.senders i .stopped }

/-- The states of the load generator. -/
def Reachable (dupes : ℤ) (s : Loadgen ι) : Prop :=
  Relation.ReflTransGen (Step dupes) (init ι) s

end Loadgen

/-! ## One job -/

namespace Job

/-- The number of accepted posts of the first send. -/
def firstAccepted (job : Job) : ℕ := job.answers.countP fun p => !p.1 && accepted p.2

/-- The number of accepted posts of the second send. -/
def dupAccepted (job : Job) : ℕ := job.answers.countP fun p => p.1 && accepted p.2

/-- The event was sent a second time. -/
def duplicated (job : Job) : Bool := job.answers.any fun p => p.1

/-- What the phases say of the posts: at most one of each send is accepted, and only an accepted
event is sent again. -/
def Sound (job : Job) : Prop :=
  match job.phase with
  | .posting false | .backingOff false | .reposting false =>
    job.firstAccepted = 0 ∧ job.dupAccepted = 0 ∧ job.duplicated = false
  | .counting false ok | .returned false ok =>
    job.firstAccepted = ok.toNat ∧ job.dupAccepted = 0 ∧ job.duplicated = false
  | .posting true => job.firstAccepted = 1 ∧ job.dupAccepted = 0 ∧ job.duplicated = false
  | .backingOff true | .reposting true =>
    job.firstAccepted = 1 ∧ job.dupAccepted = 0 ∧ job.duplicated = true
  | .counting true ok | .returned true ok =>
    job.firstAccepted = 1 ∧ job.dupAccepted = ok.toNat ∧ job.duplicated = true
  | .finished =>
    job.firstAccepted ≤ 1 ∧ job.dupAccepted ≤ job.duplicated.toNat ∧
      (job.duplicated = true → job.firstAccepted = 1)

/-- What a job has added to `sent` so far. -/
def credit (job : Job) : ℤ :=
  match job.phase with
  | .posting dup | .backingOff dup | .reposting dup | .counting dup _ => dup.toNat
  | .returned dup ok => dup.toNat + ok.toNat
  | .finished => job.firstAccepted + job.dupAccepted - job.duplicated.toNat

variable {dupes : ℤ} {input : Input} {job job' : Job} {c c' : Loadgen.Counts}

section Post

/-- The event after another post. -/
def post (job : Job) (dup : Bool) (a : Answer) (phase : Phase) : Job :=
  ⟨job.id, job.answers ++ [(dup, a)], phase⟩

/-- The event after any other step. -/
def goto (job : Job) (phase : Phase) : Job := { job with phase := phase }

variable (job : Job) (dup : Bool) (a : Answer) (phase : Phase)

@[simp] theorem phase_goto : (job.goto phase).phase = phase := rfl

@[simp] theorem firstAccepted_goto : (job.goto phase).firstAccepted = job.firstAccepted := rfl

@[simp] theorem dupAccepted_goto : (job.goto phase).dupAccepted = job.dupAccepted := rfl

@[simp] theorem duplicated_goto : (job.goto phase).duplicated = job.duplicated := rfl

@[simp] theorem phase_post : (job.post dup a phase).phase = phase := rfl

@[simp] theorem firstAccepted_post :
    (job.post dup a phase).firstAccepted = job.firstAccepted + (!dup && accepted a).toNat := by
  unfold firstAccepted post
  rw [List.countP_append, List.countP_singleton]
  cases (!dup && accepted a) <;> rfl

@[simp] theorem dupAccepted_post :
    (job.post dup a phase).dupAccepted = job.dupAccepted + (dup && accepted a).toNat := by
  unfold dupAccepted post
  rw [List.countP_append, List.countP_singleton]
  cases (dup && accepted a) <;> rfl

@[simp] theorem duplicated_post :
    (job.post dup a phase).duplicated = (job.duplicated || dup) := by
  simp [duplicated, post]

end Post

/-- **What a step does to a job and to `sent`.** -/
theorem advance_cases (h : job.advance dupes input c = some (job', c')) :
    (∃ dup a, job.phase = .posting dup ∧ c'.sent = c.sent ∧
      job' = job.post dup a
        (if a = some 503 then .backingOff dup else .counting dup (accepted a))) ∨
    (∃ dup, job.phase = .backingOff dup ∧ c'.sent = c.sent ∧
      job' = job.goto (.reposting dup)) ∨
    (∃ dup a, job.phase = .reposting dup ∧ c'.sent = c.sent ∧
      job' = job.post dup a (.counting dup (accepted a))) ∨
    (∃ dup ok, job.phase = .counting dup ok ∧ c'.sent = c.sent + ok.toNat ∧
      job' = job.goto (.returned dup ok)) ∨
    (job.phase = .returned false true ∧ c'.sent = c.sent ∧
      job' = job.goto (.posting true)) ∨
    (∃ ok, job.phase = .returned false ok ∧ c'.sent = c.sent ∧
      job' = job.goto .finished) ∨
    (∃ ok, job.phase = .returned true ok ∧ c'.sent = c.sent - 1 ∧
      job' = job.goto .finished) := by
  unfold advance at h
  split at h
  case h_1 dup a hphase =>
    cases h
    exact .inl ⟨dup, a, hphase, rfl, rfl⟩
  case h_2 dup hphase =>
    cases h
    exact .inr (.inl ⟨dup, hphase, rfl, rfl⟩)
  case h_3 dup a hphase =>
    cases h
    exact .inr (.inr (.inl ⟨dup, a, hphase, rfl, rfl⟩))
  case h_4 dup hphase =>
    cases h
    exact .inr (.inr (.inr (.inl ⟨dup, true, hphase, rfl, rfl⟩)))
  case h_5 dup hphase =>
    cases h
    exact .inr (.inr (.inr (.inl ⟨dup, false, hphase, (Int.add_zero _).symm, rfl⟩)))
  case h_6 r hphase =>
    cases h
    split_ifs
    · exact .inr (.inr (.inr (.inr (.inl ⟨hphase, rfl, rfl⟩))))
    · exact .inr (.inr (.inr (.inr (.inr (.inl ⟨true, hphase, rfl, rfl⟩)))))
  case h_7 hphase =>
    cases h
    exact .inr (.inr (.inr (.inr (.inr (.inl ⟨false, hphase, rfl, rfl⟩)))))
  case h_8 ok hphase =>
    cases h
    exact .inr (.inr (.inr (.inr (.inr (.inr ⟨ok, hphase, rfl, rfl⟩)))))
  case h_9 => cases h

/-- **A step keeps the account of its job**: what it adds to `sent` is what the credit grows by. -/
theorem Sound.advance (hsound : job.Sound) (h : job.advance dupes input c = some (job', c')) :
    job'.Sound ∧ c'.sent - c.sent = job'.credit - job.credit := by
  rcases advance_cases h with ⟨dup, a, hphase, hsent, rfl⟩ | ⟨dup, hphase, hsent, rfl⟩ |
    ⟨dup, a, hphase, hsent, rfl⟩ | ⟨dup, ok, hphase, hsent, rfl⟩ | ⟨hphase, hsent, rfl⟩ |
    ⟨ok, hphase, hsent, rfl⟩ | ⟨ok, hphase, hsent, rfl⟩
  · have hrefused : a = some 503 → accepted a = false := by
      rintro rfl
      rfl
    by_cases ha : a = some 503 <;> cases dup <;> simp_all [Sound, credit]
  · cases dup <;> simp_all [Sound, credit]
  · cases dup <;> simp_all [Sound, credit]
  · cases dup <;> simp_all [Sound, credit]
  · simp_all [Sound, credit]
  · cases ok <;> simp_all [Sound, credit]
  · cases ok <;> simp_all [Sound, credit]

theorem id_advance (h : job.advance dupes input c = some (job', c')) : job'.id = job.id := by
  rcases advance_cases h with ⟨_, _, -, -, rfl⟩ | ⟨_, -, -, rfl⟩ | ⟨_, _, -, -, rfl⟩ |
    ⟨_, _, -, -, rfl⟩ | ⟨-, -, rfl⟩ | ⟨_, -, -, rfl⟩ | ⟨_, -, -, rfl⟩ <;> rfl

end Job

/-! ## All jobs -/

namespace Loadgen

variable {ι : Type*} [DecidableEq ι] {dupes : ℤ} {s s' : Loadgen ι}

/-- The account of all jobs: `sent` is what they have added, each has its own id, and a sender is at
each that is not finished. -/
structure Sound (s : Loadgen ι) : Prop where
  jobs : ∀ job ∈ s.jobs, job.Sound
  sent : s.counts.sent = (s.jobs.map Job.credit).sum
  ids : (s.jobs.map Job.id).Nodup
  held : ∀ k job, s.jobs[k]? = some job → job.phase ≠ .finished → ∃ i, s.senders i = .working k

omit [DecidableEq ι] in
theorem sound_init : (init ι).Sound where
  jobs job hjob := absurd hjob List.not_mem_nil
  sent := rfl
  ids := List.nodup_nil
  held k job hjob := by cases hjob

/-- A sender that is not at a job leaves it alone. -/
theorem exists_working_update {k : ℕ} {i : ι} {w : Sender} (hne : s.senders i ≠ .working k)
    (h : ∃ j, s.senders j = .working k) : ∃ j, Function.update s.senders i w j = .working k := by
  obtain ⟨j, hj⟩ := h
  refine ⟨j, ?_⟩
  rw [Function.update_of_ne, hj]
  rintro rfl
  exact hne hj

/-- Setting a job changes a sum over the jobs by the difference. -/
theorem sum_map_set (f : Job → ℤ) {jobs : List Job} {k : ℕ} {job : Job} (hk : jobs[k]? = some job)
    (job' : Job) :
    ((jobs.set k job').map f).sum = (jobs.map f).sum + (f job' - f job) := by
  induction jobs generalizing k with
  | nil => cases hk
  | cons first rest ih =>
    cases k with
    | zero =>
      cases hk
      simp only [List.set_cons_zero, List.map_cons, List.sum_cons]
      omega
    | succ k =>
      simp only [List.set_cons_succ, List.map_cons, List.sum_cons, ih hk]
      omega

/-- Setting a job changes the sum of the credits by the difference. -/
theorem sum_credit_set {jobs : List Job} {k : ℕ} {job : Job} (hk : jobs[k]? = some job)
    (job' : Job) :
    ((jobs.set k job').map Job.credit).sum =
      (jobs.map Job.credit).sum + (job'.credit - job.credit) := sum_map_set Job.credit hk job'

/-- **A step of a sender keeps the account.** -/
theorem Step.sound (hstep : Step dupes s s') (h : s.Sound) : s'.Sound := by
  cases hstep with
  | take i id idle fresh =>
    have hother : ∀ k, s.senders i ≠ .working k := fun k hk => by rw [idle] at hk; cases hk
    refine ⟨fun job hjob => ?_, ?_, ?_, fun k job hjob hphase => ?_⟩
    · rcases List.mem_append.mp hjob with hjob | hjob
      · exact h.jobs job hjob
      · rw [List.mem_singleton.mp hjob]
        exact ⟨rfl, rfl, rfl⟩
    · have hnew : (⟨id, [], .posting false⟩ : Job).credit = 0 := rfl
      simp only [List.map_append, List.map_singleton, List.sum_append, List.sum_singleton, hnew,
        add_zero, h.sent]
    · rw [List.map_append, List.nodup_append]
      refine ⟨h.ids, List.pairwise_singleton _ _, fun a ha b hb hab => fresh ?_⟩
      rw [List.map_singleton, List.mem_singleton] at hb
      rwa [hab, hb] at ha
    · rcases Nat.lt_or_ge k s.jobs.length with hk | hk
      · rw [List.getElem?_append_left hk] at hjob
        exact exists_working_update (hother k) (h.held k job hjob hphase)
      · have hlast : k = s.jobs.length := by
          have hlt := (List.getElem?_eq_some_iff.mp hjob).1
          rw [List.length_append, List.length_singleton] at hlt
          omega
        refine ⟨i, ?_⟩
        rw [hlast]
        exact Function.update_self i _ _
  | advance i k job job' input counts working current next =>
    have hmem : job ∈ s.jobs := List.mem_of_getElem? current
    obtain ⟨hsound, hsent⟩ := (h.jobs job hmem).advance next
    refine ⟨fun j hj => ?_, ?_, ?_, fun k' j hj hphase => ?_⟩
    · rcases List.mem_or_eq_of_mem_set hj with hj | rfl
      · exact h.jobs j hj
      · exact hsound
    · have hset := sum_credit_set current job'
      have hold := h.sent
      simp only
      omega
    · have hself : s.jobs.set k job = s.jobs := by
        obtain ⟨hk, rfl⟩ := List.getElem?_eq_some_iff.mp current
        exact List.set_getElem_self hk
      have hids : (s.jobs.set k job').map Job.id = s.jobs.map Job.id := by
        rw [List.map_set, Job.id_advance next, ← List.map_set, hself]
      rw [hids]
      exact h.ids
    · by_cases hk : k = k'
      · exact ⟨i, hk ▸ working⟩
      · rw [List.getElem?_set_ne hk] at hj
        exact h.held k' j hj hphase
  | finish i k job working current finished =>
    refine ⟨h.jobs, h.sent, h.ids, fun k' j hj hphase => ?_⟩
    refine exists_working_update (fun hk => ?_) (h.held k' j hj hphase)
    rw [working] at hk
    cases hk
    rw [current] at hj
    cases hj
    exact hphase finished
  | stop i idle =>
    refine ⟨h.jobs, h.sent, h.ids, fun k' j hj hphase => ?_⟩
    refine exists_working_update (fun hk => ?_) (h.held k' j hj hphase)
    rw [idle] at hk
    cases hk

theorem Reachable.sound (h : Reachable dupes s) : s.Sound := by
  induction h with
  | refl => exact sound_init
  | tail _ hstep ih => exact hstep.sound ih

end Loadgen

end Tally
