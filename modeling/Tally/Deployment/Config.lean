import Tally.Ingest.Doors
import Tally.RateLimit.Eviction
import Tally.Worker.Pool

/-!
# Configuration

`loadConfig` of `cmd/tally`, and what `main` starts with a configuration: the queue that the doors
write to, the workers or the consumer, the limiter, and the gRPC listener. An unset variable and an
empty one are the same to `getenv`, so a default cannot be replaced by the empty string. Parsing a
duration and quoting a string in a message are those of the standard library, and any here. The
addresses, the brokers, the topic and the group play no part.

## Main definitions

* `Environment`, `getenv`, `getenvInt`, `getenvDuration`, `atoi`: the variables
* `ServiceConfig`, `loadConfig`: the configuration, or the message with which the process ends
* `Process`, `wire`: what `main` starts

## Main results

* `exists_loadConfig_iff`: which environments are accepted
* `Request.serveAll_reject`: a process that rejects events accepts none in any run of calls
* `config_wiring`: what runs in a process that has started
-/

namespace Tally

open Foundation

/-! ## Variables -/

/-- `os.Getenv`: a variable that is not set is empty. -/
abbrev Environment := String → String

/-- What `loadConfig` takes from the standard library: `time.ParseDuration`, in nanoseconds, and the
verb `%q`. -/
structure ConfigText where
  parseDuration : String → Option ℤ
  quote : String → String

/-- The value of decimal digits. -/
def decimal (cs : List Char) : Option ℕ :=
  if cs ≠ [] ∧ cs.all Char.isDigit then
    some (cs.foldl (fun n c => 10 * n + (c.toNat - '0'.toNat)) 0)
  else none

/-- `strconv.Atoi`: an optional sign, and digits of a value that fits. -/
def atoi (s : String) : Option ℤ :=
  match s.toList with
  | '-' :: cs => (decimal cs).bind fun n => fits (-n)
  | '+' :: cs => (decimal cs).bind fun n => fits n
  | cs => (decimal cs).bind fun n => fits n
where
  fits (n : ℤ) : Option ℤ := if -2 ^ 63 ≤ n ∧ n < 2 ^ 63 then some n else none

section Variables

variable (text : ConfigText) (env : Environment) (key : String)

/-- `getenv`. -/
def getenv (dflt : String) : String := if env key ≠ "" then env key else dflt

/-- `getenvInt`. -/
def getenvInt (dflt : ℤ) : Except String ℤ :=
  if env key ≠ "" then
    match atoi (env key) with
    | some n => .ok n
    | none => .error ("invalid " ++ key ++ ": " ++ text.quote (env key) ++ " is not a number")
  else .ok dflt

/-- `getenvDuration`. -/
def getenvDuration (dflt : ℤ) : Except String ℤ :=
  if env key ≠ "" then
    match text.parseDuration (env key) with
    | some d => .ok d
    | none => .error ("invalid " ++ key ++ ": " ++ text.quote (env key) ++
        " is not a duration (e.g. 200ms, 1s)")
  else .ok dflt

end Variables

/-! ## The configuration -/

/-- The values of `QUEUE`. -/
inductive QueueBackend where
  | memory
  | kafka
  deriving DecidableEq

/-- The values of `MODE`. -/
inductive Mode where
  | all
  | ingest
  | worker
  deriving DecidableEq

def QueueBackend.parse : String → Option QueueBackend
  | "memory" => some .memory
  | "kafka" => some .kafka
  | _ => none

def Mode.parse : String → Option Mode
  | "all" => some .all
  | "ingest" => some .ingest
  | "worker" => some .worker
  | _ => none

/-- `config`. A memory queue is not shared between processes. -/
structure ServiceConfig where
  grpcAddr : String
  queueBackend : QueueBackend
  mode : Mode
  queueSize : ℤ
  batchSize : ℤ
  flushInterval : ℤ
  workers : ℤ
  rateRPS : ℤ
  rateBurst : ℤ
  redisAddr : String
  memory_all : queueBackend = .memory → mode = .all

/-- `loadConfig`: the configuration, or the message of `log.Fatalf`. The variables are read in the
order of the fields. -/
def loadConfig (text : ConfigText) (env : Environment) : Except String ServiceConfig := do
  let queueSize ← getenvInt text env "QUEUE_SIZE" 100000
  let batchSize ← getenvInt text env "BATCH_SIZE" 1000
  let flushInterval ← getenvDuration text env "FLUSH_INTERVAL" 200000000
  let workers ← getenvInt text env "WORKERS" 4
  let rateRPS ← getenvInt text env "RATE_LIMIT_RPS" 0
  let rateBurst ← getenvInt text env "RATE_LIMIT_BURST" 0
  -- the product is one of 64-bit integers
  let rateBurst := if rateBurst = 0 then (2 * rateRPS).bmod (2 ^ 64) else rateBurst
  let queue := getenv env "QUEUE" "memory"
  let mode := getenv env "MODE" "all"
  match QueueBackend.parse queue, Mode.parse mode with
  | none, _ => .error ("QUEUE must be 'memory' or 'kafka', got " ++ text.quote queue)
  | some _, none => .error ("MODE must be 'all', 'ingest' or 'worker', got " ++ text.quote mode)
  | some backend, some m =>
    if h : backend = .memory → m = .all then
      .ok ⟨getenv env "GRPC_ADDR" ":9091", backend, m, queueSize, batchSize, flushInterval, workers,
        rateRPS, rateBurst, getenv env "REDIS_ADDR" "", h⟩
    else .error ("MODE=" ++ mode ++
      " requires QUEUE=kafka (the memory queue cannot span processes)")

/-! ## The process -/

/-- The queue behind the doors: `Reject`, `NewMemory` of a size, or `NewKafkaProducer` with the size
of its buffer. -/
inductive Enqueuer where
  | reject
  | memory (size : ℤ)
  | producer (maxBuffered : ℤ)
  deriving DecidableEq

/-- The limiter, if there is one: `NewMemory`, or `NewRedis` at an address. -/
inductive LimiterChoice where
  | memory (rps burst : ℤ)
  | redis (addr : String) (limit : ℤ)

/-- What `main` starts: the queue, the worker pool or the consumer with its batch size, the limiter,
and whether there is a gRPC listener. -/
structure Process where
  enqueuer : Enqueuer
  pool : Option Pool
  consumer : Option ℕ
  limiter : Option LimiterChoice
  grpc : Bool

/-- `main` up to the listeners, with `NewKafkaConsumer`. -/
def wire (cfg : ServiceConfig) : Process where
  enqueuer :=
    match cfg.queueBackend, cfg.mode with
    | .memory, _ => .memory cfg.queueSize
    | .kafka, .all | .kafka, .ingest => .producer cfg.queueSize
    | .kafka, .worker => .reject
  pool :=
    match cfg.queueBackend with
    | .memory => some (.new ⟨cfg.workers, cfg.batchSize, 0⟩)
    | .kafka => none
  consumer :=
    match cfg.queueBackend, cfg.mode with
    | .kafka, .all | .kafka, .worker => some (orDefault cfg.batchSize 1000)
    | _, _ => none
  limiter :=
    if cfg.rateRPS > 0 then
      if cfg.redisAddr ≠ "" then some (.redis cfg.redisAddr cfg.rateRPS)
      else some (.memory cfg.rateRPS cfg.rateBurst)
    else none
  grpc := cfg.grpcAddr ≠ "" &&
    (cfg.queueBackend = .memory || cfg.mode = .all || cfg.mode = .ingest)

/-! ## Which environments are accepted -/

section Accepted

variable {text : ConfigText} {env : Environment}

theorem getenv_ne_empty (env : Environment) (key : String) {dflt : String} (h : dflt ≠ "") :
    getenv env key dflt ≠ "" := by
  unfold getenv
  split_ifs with hkey
  · exact hkey
  · exact h

theorem exists_getenvInt_iff (key : String) (dflt : ℤ) :
    (∃ n, getenvInt text env key dflt = .ok n) ↔ env key = "" ∨ (atoi (env key)).isSome := by
  unfold getenvInt
  by_cases hkey : env key = ""
  · simp [hkey]
  · cases atoi (env key) <;> simp [hkey]

theorem exists_getenvDuration_iff (key : String) (dflt : ℤ) :
    (∃ d, getenvDuration text env key dflt = .ok d) ↔
      env key = "" ∨ (text.parseDuration (env key)).isSome := by
  unfold getenvDuration
  by_cases hkey : env key = ""
  · simp [hkey]
  · cases text.parseDuration (env key) <;> simp [hkey]

theorem bind_eq_ok_iff {α β : Type} {x : Except String α} {f : α → Except String β} {b : β} :
    x >>= f = .ok b ↔ ∃ a, x = .ok a ∧ f a = .ok b := by
  cases x with
  | error msg => simp [bind, Except.bind]
  | ok a => simp [bind, Except.bind]

/-- What `loadConfig` has read when it returns. -/
theorem loadConfig_eq_ok_iff {cfg : ServiceConfig} :
    loadConfig text env = .ok cfg ↔
      getenvInt text env "QUEUE_SIZE" 100000 = .ok cfg.queueSize ∧
      getenvInt text env "BATCH_SIZE" 1000 = .ok cfg.batchSize ∧
      getenvDuration text env "FLUSH_INTERVAL" 200000000 = .ok cfg.flushInterval ∧
      getenvInt text env "WORKERS" 4 = .ok cfg.workers ∧
      getenvInt text env "RATE_LIMIT_RPS" 0 = .ok cfg.rateRPS ∧
      (∃ burst, getenvInt text env "RATE_LIMIT_BURST" 0 = .ok burst ∧
        cfg.rateBurst = if burst = 0 then (2 * cfg.rateRPS).bmod (2 ^ 64) else burst) ∧
      QueueBackend.parse (getenv env "QUEUE" "memory") = some cfg.queueBackend ∧
      Mode.parse (getenv env "MODE" "all") = some cfg.mode ∧
      cfg.grpcAddr = getenv env "GRPC_ADDR" ":9091" ∧
      cfg.redisAddr = getenv env "REDIS_ADDR" "" := by
  unfold loadConfig
  simp only [bind_eq_ok_iff]
  constructor
  · rintro ⟨queueSize, h₁, batchSize, h₂, flushInterval, h₃, workers, h₄, rateRPS, h₅, burst, h₆,
      h⟩
    split at h
    · cases h
    · cases h
    next backend m hbackend hmode =>
      by_cases hall : backend = .memory → m = .all
      · rw [dif_pos hall] at h
        cases h
        exact ⟨h₁, h₂, h₃, h₄, h₅, ⟨burst, h₆, rfl⟩, hbackend, hmode, rfl, rfl⟩
      · rw [dif_neg hall] at h
        cases h
  · rintro ⟨h₁, h₂, h₃, h₄, h₅, ⟨burst, h₆, hburst⟩, hbackend, hmode, hgrpc, hredis⟩
    refine ⟨_, h₁, _, h₂, _, h₃, _, h₄, _, h₅, burst, h₆, ?_⟩
    rw [hbackend, hmode]
    simp only [dif_pos cfg.memory_all, ← hburst, ← hgrpc, ← hredis]

theorem QueueBackend.parse_eq_some_iff {s : String} {backend : QueueBackend} :
    QueueBackend.parse s = some backend ↔
      s = "memory" ∧ backend = .memory ∨ s = "kafka" ∧ backend = .kafka := by
  unfold QueueBackend.parse
  split <;> cases backend <;> simp_all

theorem Mode.parse_eq_some_iff {s : String} {mode : Mode} :
    Mode.parse s = some mode ↔
      s = "all" ∧ mode = .all ∨ s = "ingest" ∧ mode = .ingest ∨ s = "worker" ∧ mode = .worker := by
  unfold Mode.parse
  split <;> cases mode <;> simp_all

theorem getenv_eq_iff {key dflt value : String} (h : value ≠ "") :
    getenv env key dflt = value ↔ env key = value ∨ env key = "" ∧ dflt = value := by
  unfold getenv
  split_ifs with hkey
  · simp [hkey]
  · have hkey : env key = "" := not_not.mp hkey
    simp [hkey, Ne.symm h]

/-- The queue and the mode are known, and go together. -/
theorem exists_parse_iff :
    (∃ backend mode, QueueBackend.parse (getenv env "QUEUE" "memory") = some backend ∧
      Mode.parse (getenv env "MODE" "all") = some mode ∧ (backend = .memory → mode = .all)) ↔
      env "QUEUE" ∈ ["", "memory"] ∧ env "MODE" ∈ ["", "all"] ∨
        env "QUEUE" = "kafka" ∧ env "MODE" ∈ ["", "all", "ingest", "worker"] := by
  simp only [QueueBackend.parse_eq_some_iff, Mode.parse_eq_some_iff]
  rw [getenv_eq_iff (by decide), getenv_eq_iff (by decide), getenv_eq_iff (by decide),
    getenv_eq_iff (by decide), getenv_eq_iff (by decide)]
  simp only [List.mem_cons, List.not_mem_nil, or_false]
  constructor
  · rintro ⟨backend, mode, ⟨hqueue, rfl⟩ | ⟨hqueue, rfl⟩, hmode, hall⟩
    · cases hall rfl
      exact .inl ⟨by grind, by grind⟩
    · exact .inr ⟨by grind, by grind⟩
  · rintro (⟨hqueue, hmode⟩ | ⟨hqueue, hmode⟩)
    · exact ⟨.memory, .all, by grind, by grind, fun _ => rfl⟩
    · rcases hmode with hmode | hmode | hmode | hmode
      · exact ⟨.kafka, .all, by grind, by grind, nofun⟩
      · exact ⟨.kafka, .all, by grind, by grind, nofun⟩
      · exact ⟨.kafka, .ingest, by grind, by grind, nofun⟩
      · exact ⟨.kafka, .worker, by grind, by grind, nofun⟩

/-- **Which environments are accepted**: the numbers are numbers, the duration is one, and the queue
and the mode are known and go together. -/
theorem exists_loadConfig_iff :
    (∃ cfg, loadConfig text env = .ok cfg) ↔
      (∀ key ∈ ["QUEUE_SIZE", "BATCH_SIZE", "WORKERS", "RATE_LIMIT_RPS", "RATE_LIMIT_BURST"],
        env key = "" ∨ (atoi (env key)).isSome) ∧
      (env "FLUSH_INTERVAL" = "" ∨ (text.parseDuration (env "FLUSH_INTERVAL")).isSome) ∧
      (env "QUEUE" ∈ ["", "memory"] ∧ env "MODE" ∈ ["", "all"] ∨
        env "QUEUE" = "kafka" ∧ env "MODE" ∈ ["", "all", "ingest", "worker"]) := by
  rw [← exists_parse_iff, ← exists_getenvDuration_iff "FLUSH_INTERVAL" 200000000]
  constructor
  · rintro ⟨cfg, h⟩
    obtain ⟨h₁, h₂, h₃, h₄, h₅, ⟨burst, h₆, -⟩, hbackend, hmode, -⟩ := loadConfig_eq_ok_iff.mp h
    refine ⟨fun key hkey => ?_, ⟨_, h₃⟩, _, _, hbackend, hmode, cfg.memory_all⟩
    simp only [List.mem_cons, List.not_mem_nil, or_false] at hkey
    rcases hkey with rfl | rfl | rfl | rfl | rfl
    · exact (exists_getenvInt_iff _ _).mp ⟨_, h₁⟩
    · exact (exists_getenvInt_iff _ _).mp ⟨_, h₂⟩
    · exact (exists_getenvInt_iff _ _).mp ⟨_, h₄⟩
    · exact (exists_getenvInt_iff _ _).mp ⟨_, h₅⟩
    · exact (exists_getenvInt_iff _ _).mp ⟨_, h₆⟩
  · rintro ⟨hnumbers, ⟨flushInterval, h₃⟩, backend, mode, hbackend, hmode, hall⟩
    have hread : ∀ key ∈ ["QUEUE_SIZE", "BATCH_SIZE", "WORKERS", "RATE_LIMIT_RPS",
        "RATE_LIMIT_BURST"], ∀ dflt, ∃ n, getenvInt text env key dflt = .ok n :=
      fun key hkey dflt => (exists_getenvInt_iff key dflt).mpr (hnumbers key hkey)
    obtain ⟨queueSize, h₁⟩ := hread "QUEUE_SIZE" (by simp) 100000
    obtain ⟨batchSize, h₂⟩ := hread "BATCH_SIZE" (by simp) 1000
    obtain ⟨workers, h₄⟩ := hread "WORKERS" (by simp) 4
    obtain ⟨rateRPS, h₅⟩ := hread "RATE_LIMIT_RPS" (by simp) 0
    obtain ⟨burst, h₆⟩ := hread "RATE_LIMIT_BURST" (by simp) 0
    exact ⟨⟨getenv env "GRPC_ADDR" ":9091", backend, mode, queueSize, batchSize, flushInterval,
      workers, rateRPS, if burst = 0 then (2 * rateRPS).bmod (2 ^ 64) else burst,
      getenv env "REDIS_ADDR" "", hall⟩, loadConfig_eq_ok_iff.mpr
        ⟨h₁, h₂, h₃, h₄, h₅, ⟨burst, h₆, rfl⟩, hbackend, hmode, rfl, rfl⟩⟩

end Accepted

/-! ## A process that rejects events -/

section Reject

variable {L : Type}

/-- The doors in front of `Reject`, with any limiter. -/
def rejectWiring (allow : Option (ℤ → String → L → Bool × L)) : Wiring L Unit :=
  ⟨allow, fun _ q => (some .unavailable, q)⟩

/-- The front after calls at their times. -/
def Request.serveAll {Q : Type} (w : Wiring L Q) : List (ℤ × Request) → Front L Q → Front L Q
  | [], f => f
  | (now, r) :: calls, f => serveAll w calls (r.serve w now f)

variable {allow : Option (ℤ → String → L → Bool × L)} {now : ℤ} {f : Front L Unit}

theorem sends_publishLoop_reject (key : String) (pes : List PublishEvent) (i : ℕ)
    (resp : PublishResponse) (f : Front L Unit) :
    Sends now key [] f (publishLoop (rejectWiring allow) now key i pes resp f).2 := by
  induction pes generalizing i resp f with
  | nil => exact .refl f
  | cons pe pes ih =>
    rw [publishLoop]
    cases pe.reason with
    | some reason => exact (Sends.reject .invalid f).trans (ih _ _ _)
    | none => exact .reject .notIngest f

theorem sends_postEvent_reject {r : HttpRequest} {f' : Front L Unit}
    (hallow : f.allow (rejectWiring allow) now r.clientKey = (true, f')) :
    Sends now r.clientKey [] f' (postEvent (rejectWiring allow) now r f).2 := by
  rw [postEvent, hallow]
  cases r.body with
  | none => exact .reject .invalid f'
  | some req =>
    simp only
    split_ifs
    · exact .reject .invalid f'
    · exact .reject .invalid f'
    · exact .reject .notIngest f'

/-- A call sends nothing to `Reject`. -/
theorem Request.serve_reject (r : Request) (now : ℤ) (f : Front L Unit) :
    (r.serve (rejectWiring allow) now f).sent = f.sent ∧
      (r.serve (rejectWiring allow) now f).accepted = f.accepted := by
  rcases hallow : f.allow (rejectWiring allow) now r.key with ⟨ok, f'⟩
  have hsends : Sends now r.key [] f' (r.serve (rejectWiring allow) now f) := by
    cases ok with
    | false => exact r.serve_denied hallow
    | true =>
      cases r with
      | http r => exact sends_postEvent_reject hallow
      | grpc r =>
        rw [serve, publish, show f.allow _ now r.clientKey = (true, f') from hallow]
        exact sends_publishLoop_reject r.clientKey r.events 0 ⟨0, []⟩ f'
  have hsame : f'.sent = f.sent ∧ f'.accepted = f.accepted := by
    have hf' : f' = (f.allow (rejectWiring allow) now r.key).2 := by rw [hallow]
    rw [hf', Front.allow]
    cases (rejectWiring allow).allow <;> exact ⟨rfl, rfl⟩
  rw [hsends.sent, hsends.accepted, hsame.1, hsame.2]
  exact ⟨List.append_nil _, rfl⟩

/-- **A process that rejects events accepts none**, in any run of calls. -/
theorem Request.serveAll_reject (calls : List (ℤ × Request)) (f : Front L Unit) :
    (serveAll (rejectWiring allow) calls f).sent = f.sent ∧
      (serveAll (rejectWiring allow) calls f).accepted = f.accepted := by
  induction calls generalizing f with
  | nil => exact ⟨rfl, rfl⟩
  | cons call calls ih =>
    obtain ⟨hsent, haccepted⟩ :
        (call.2.serve (rejectWiring allow) call.1 f).sent = f.sent ∧
          (call.2.serve (rejectWiring allow) call.1 f).accepted = f.accepted :=
      call.2.serve_reject call.1 f
    rw [← hsent, ← haccepted]
    exact ih _

end Reject

/-! ## What runs -/

section Wire

variable {text : ConfigText} {env : Environment} {cfg : ServiceConfig}

/-- **Events are accepted on both doors or on none**: there is a gRPC listener exactly in front of a
queue. -/
theorem grpc_iff (hgrpc : cfg.grpcAddr ≠ "") :
    (wire cfg).grpc = true ↔ (wire cfg).enqueuer ≠ .reject := by
  have hmemory := cfg.memory_all
  obtain ⟨grpcAddr, backend, mode, _⟩ := cfg
  cases backend <;> cases mode <;> simp_all [wire]

/-- The burst by default is within twice the rate. -/
theorem rateBurst_le (h : loadConfig text env = .ok cfg)
    (hburst : getenvInt text env "RATE_LIMIT_BURST" 0 = .ok 0) (hrps : 0 < cfg.rateRPS) :
    cfg.rateBurst.toNat ≤ 2 * cfg.rateRPS.toNat := by
  obtain ⟨-, -, -, -, -, ⟨burst, hread, heq⟩, -⟩ := loadConfig_eq_ok_iff.mp h
  obtain rfl := Except.ok.inj (hburst.symm.trans hread)
  rw [if_pos rfl] at heq
  have hle : (2 * cfg.rateRPS).bmod (2 ^ 64) ≤ 2 * cfg.rateRPS := by
    rw [Int.bmod_def]
    split_ifs <;> omega
  omega

theorem enqueuer_eq_reject_iff (h : loadConfig text env = .ok cfg) :
    (wire cfg).enqueuer = .reject ↔ env "QUEUE" = "kafka" ∧ env "MODE" = "worker" := by
  obtain ⟨-, -, -, -, -, -, hbackend, hmode, -⟩ := loadConfig_eq_ok_iff.mp h
  rw [QueueBackend.parse_eq_some_iff, getenv_eq_iff (by decide), getenv_eq_iff (by decide)]
    at hbackend
  rw [Mode.parse_eq_some_iff, getenv_eq_iff (by decide), getenv_eq_iff (by decide),
    getenv_eq_iff (by decide)] at hmode
  have hwire : (wire cfg).enqueuer = .reject ↔
      cfg.queueBackend = .kafka ∧ cfg.mode = .worker := by
    unfold wire
    cases cfg.queueBackend <;> cases cfg.mode <;> simp
  rw [hwire]
  grind

/-- What is accepted is written by workers of the process or goes to the topic, and a process that
accepts nothing consumes the topic. -/
theorem wire_consumes (cfg : ServiceConfig) :
    ((∃ size, (wire cfg).enqueuer = .memory size) ↔ (wire cfg).pool.isSome) ∧
      ((wire cfg).enqueuer = .reject → (wire cfg).consumer.isSome) := by
  obtain ⟨_, backend, mode, _⟩ := cfg
  cases backend <;> cases mode <;> simp [wire]

theorem limiter_eq_none_iff (cfg : ServiceConfig) :
    (wire cfg).limiter = none ↔ cfg.rateRPS ≤ 0 := by
  unfold wire
  split_ifs <;> simp <;> omega

theorem limiter_eq_memory {rps burst : ℤ}
    (h : (wire cfg).limiter = some (.memory rps burst)) :
    0 < cfg.rateRPS ∧ rps = cfg.rateRPS ∧ burst = cfg.rateBurst := by
  simp only [wire] at h
  split_ifs at h with hrps hredis
  · cases h
  · obtain ⟨hrate, hburst⟩ := LimiterChoice.memory.inj (Option.some.inj h)
    exact ⟨hrps, hrate.symm, hburst.symm⟩

/-- **The janitor cannot be seen with the default burst.** -/
theorem answers_default_burst (h : loadConfig text env = .ok cfg)
    (hburst : getenvInt text env "RATE_LIMIT_BURST" 0 = .ok 0) {rps burst : ℤ}
    (hlimiter : (wire cfg).limiter = some (.memory rps burst)) {ops : List (ℤ × PoolOp String)}
    (hops : ops.Pairwise fun o o' => o.1 ≤ o'.1) :
    MemoryLimiter.new.answers ⟨rps.toNat, burst.toNat⟩ ops =
      MemoryLimiter.new.answers ⟨rps.toNat, burst.toNat⟩ (ops.filter fun o => o.2 ≠ .evict) := by
  obtain ⟨hrps, rfl, rfl⟩ := limiter_eq_memory hlimiter
  have hle := rateBurst_le h hburst hrps
  exact (MemoryLimiter.answers_eq_iff _ _).mpr (by omega) ops hops

end Wire

/-- **What runs in a process that has started**, for every environment that `loadConfig` accepts.
There is a gRPC listener exactly where events are accepted: no value of `GRPC_ADDR` turns it off, as
the empty one is the default. Events are rejected by a worker process only, and in no run of calls
does it accept any; it consumes the topic. What a memory queue takes is written by workers of the
same process. There is no limiter unless the rate is positive, and with the default burst the
in-memory one answers as if it never dropped a bucket. -/
theorem config_wiring (text : ConfigText) (env : Environment) {cfg : ServiceConfig}
    (h : loadConfig text env = .ok cfg) :
    ((wire cfg).grpc = true ↔ (wire cfg).enqueuer ≠ .reject) ∧
    ((wire cfg).enqueuer = .reject ↔ env "QUEUE" = "kafka" ∧ env "MODE" = "worker") ∧
    ((wire cfg).enqueuer = .reject → (wire cfg).consumer.isSome ∧
      ∀ (L : Type) (allow : Option (ℤ → String → L → Bool × L)) (l : L)
        (calls : List (ℤ × Request)),
        (Request.serveAll (rejectWiring allow) calls (.start l ())).sent = []) ∧
    ((∃ size, (wire cfg).enqueuer = .memory size) ↔ (wire cfg).pool.isSome) ∧
    ((wire cfg).limiter = none ↔ cfg.rateRPS ≤ 0) ∧
    ∀ rps burst, (wire cfg).limiter = some (.memory rps burst) →
      getenvInt text env "RATE_LIMIT_BURST" 0 = .ok 0 →
      ∀ ops : List (ℤ × PoolOp String), ops.Pairwise (fun o o' => o.1 ≤ o'.1) →
        MemoryLimiter.new.answers ⟨rps.toNat, burst.toNat⟩ ops =
          MemoryLimiter.new.answers ⟨rps.toNat, burst.toNat⟩
            (ops.filter fun o => o.2 ≠ .evict) := by
  have hgrpc : cfg.grpcAddr ≠ "" := by
    obtain ⟨-, -, -, -, -, -, -, -, hgrpc, -⟩ := loadConfig_eq_ok_iff.mp h
    rw [hgrpc]
    exact getenv_ne_empty env "GRPC_ADDR" (by decide)
  obtain ⟨hmemory, hconsumes⟩ := wire_consumes cfg
  refine ⟨grpc_iff hgrpc, enqueuer_eq_reject_iff h, fun hreject => ⟨hconsumes hreject, ?_⟩, hmemory,
    limiter_eq_none_iff cfg, fun rps burst hlimiter hburst ops hops =>
      answers_default_burst h hburst hlimiter hops⟩
  exact fun L allow l calls => (Request.serveAll_reject calls _).1

/-- The worker of the chaos demonstration, which sets the queue and the mode. -/
theorem config_wiring_worker :
    ∃ cfg, loadConfig ⟨fun _ => none, id⟩
        (fun key => if key = "QUEUE" then "kafka" else if key = "MODE" then "worker" else "") =
      .ok cfg ∧ (wire cfg).enqueuer = .reject ∧ (wire cfg).consumer.isSome ∧
      (wire cfg).grpc = false := by
  let env : Environment := fun key =>
    if key = "QUEUE" then "kafka" else if key = "MODE" then "worker" else ""
  have haccepted : ∃ cfg, loadConfig ⟨fun _ => none, id⟩ env = .ok cfg :=
    exists_loadConfig_iff.mpr (by decide)
  obtain ⟨cfg, hcfg⟩ := haccepted
  obtain ⟨hgrpc, hreject, hworker, -⟩ := config_wiring _ _ hcfg
  have hrejects := hreject.mpr ⟨rfl, rfl⟩
  exact ⟨cfg, hcfg, hrejects, (hworker hrejects).1, by simpa [hrejects] using hgrpc⟩

end Tally
