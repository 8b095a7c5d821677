import GrinPool.Pool

/-!
# Runs of the pool

Two flows of control share the registry (§5): the acceptor thread, which only inserts (line 72), and
the control loop, whose steps run in the fixed order of lines 158-188, each under the registry's lock.
A run is any interleaving of the two. The environment chooses what the upstream server and the workers
send, which random key a new connection gets, which job pushes fail, and the order in which the registry
is iterated, so an `Action` carries these choices and `step` runs one. A loop step is refused when it is not
the loop's next one, a failed `connect` starts the loop over (lines 158-167), and a run ends where
`process_shares` panics.

`PoolStep` forgets where the loop is: it lists what one step can do to the pool, and every invariant of
a reachable state that does not depend on the loop's position is proved over it (`Reachable.pool_induction`).
-/

namespace GrinPool

/-- Where the control loop is. -/
inductive Phase
  | connect
  | serverMessages
  | acceptNewJob
  | workerMessages
  | processShares
  | sendJobs
  | cleanWorkers
deriving DecidableEq, Repr

/-- The pool together with where its loop is. -/
structure Sys where
  pool : Pool
  phase : Phase
deriving DecidableEq

/-- One step of a run, with what the environment chooses for it. -/
inductive Action
  /-- The acceptor thread registers a new connection `stream` under the random key `initialId`. -/
  | accept (initialId : UInt32) (stream : Nat)
  /-- The registry is iterated in the order `entries` from now on. -/
  | reorder (entries : List (String × Worker))
  /-- `server.connect()` fails, or succeeds with the upstream offering `job`. -/
  | connect (ok : Bool) (job : JobTemplate)
  | serverMessages (job : JobTemplate) (status : String → WorkerStatus → WorkerStatus)
  /-- `accept_new_job`, the connections on the streams `refused` refusing the job pushed to them. -/
  | acceptNewJob (refused : List Nat)
  | workerMessages (inbound : String → Inbound)
  | processShares
  /-- `send_jobs`, the connections on the streams `refused` refusing the job pushed to them. -/
  | sendJobs (refused : List Nat)
  | cleanWorkers

/-- The streams of the registered workers. -/
def Pool.streams (p : Pool) : List Nat := p.workers.entries.map (·.2.stream)

variable {Header : Type}

/-- The loop's step `f` at phase `ph`, then on to `next`. -/
def Sys.advance (s : Sys) (ph next : Phase) (f : Pool → Pool) : Option Sys :=
  if s.phase = ph then some ⟨f s.pool, next⟩ else none

/-- One step of a run. -/
def step (lib : PowLib Header) (s : Sys) : Action → Option Sys
  | .accept initialId stream =>
    if stream ∈ s.pool.streams then none
    else some { s with pool := s.pool.acceptWorker initialId stream }
  | .reorder entries =>
    (s.pool.workers.reorder? entries).map fun ws => { s with pool := { s.pool with workers := ws } }
  | .connect ok job =>
    if ok then s.advance .connect .serverMessages fun p => { p with server := ⟨job⟩ }
    else s.advance .connect .connect id
  | .serverMessages job status => s.advance .serverMessages .acceptNewJob (·.processServerMessages job status)
  | .acceptNewJob refused => s.advance .acceptNewJob .workerMessages (·.acceptNewJob refused)
  | .workerMessages inbound => s.advance .workerMessages .processShares (·.processWorkerMessages inbound)
  | .processShares =>
    if s.phase = .processShares then (s.pool.processShares lib).map (⟨·, .sendJobs⟩) else none
  | .sendJobs refused => s.advance .sendJobs .cleanWorkers (·.sendJobs refused)
  | .cleanWorkers => s.advance .cleanWorkers .connect (·.cleanWorkers.1)

/-- The states a run reaches from `Pool::run`'s start, with port difficulty `d` and initial
template `job`. -/
inductive Reachable (lib : PowLib Header) (d : UInt64) (job : JobTemplate) : Sys → Prop
  | init : Reachable lib d job ⟨Pool.start d job, .connect⟩
  | step {s s' : Sys} (a : Action) : Reachable lib d job s → step lib s a = some s' →
      Reachable lib d job s'

/-- Runs the actions in order. -/
def run (lib : PowLib Header) (s : Sys) : List Action → Option Sys
  | [] => some s
  | a :: as => (step lib s a).bind fun s' => run lib s' as

theorem Reachable.run {lib : PowLib Header} {d : UInt64} {job : JobTemplate} {s s' : Sys}
    {as : List Action} (hs : Reachable lib d job s) (h : run lib s as = some s') :
    Reachable lib d job s' := by
  induction as generalizing s with
  | nil => cases h; exact hs
  | cons a as ih =>
    simp only [GrinPool.run, Option.bind_eq_some] at h
    obtain ⟨s₁, h₁, h₂⟩ := h
    exact ih (hs.step a h₁) h₂

/-! ### What one step can do to the pool -/

/-- The pool-level effect of a step. -/
inductive PoolStep (lib : PowLib Header) : Pool → Pool → Prop
  | accept {p : Pool} (initialId : UInt32) (stream : Nat) (h : stream ∉ p.streams) :
      PoolStep lib p (p.acceptWorker initialId stream)
  | reorder {p : Pool} {ws : HashMap String Worker} {l : List (String × Worker)}
      (h : p.workers.reorder? l = some ws) : PoolStep lib p { p with workers := ws }
  | connect (p : Pool) (job : JobTemplate) : PoolStep lib p { p with server := ⟨job⟩ }
  | serverMessages (p : Pool) (job : JobTemplate) (status : String → WorkerStatus → WorkerStatus) :
      PoolStep lib p (p.processServerMessages job status)
  | acceptNewJob (p : Pool) (refused : List Nat) : PoolStep lib p (p.acceptNewJob refused)
  | workerMessages (p : Pool) (inbound : String → Inbound) :
      PoolStep lib p (p.processWorkerMessages inbound)
  | processShares {p p' : Pool} (h : p.processShares lib = some p') : PoolStep lib p p'
  | sendJobs (p : Pool) (refused : List Nat) : PoolStep lib p (p.sendJobs refused)
  | cleanWorkers (p : Pool) : PoolStep lib p p.cleanWorkers.1

theorem Sys.advance_eq_some {s s' : Sys} {ph next : Phase} {f : Pool → Pool}
    (h : s.advance ph next f = some s') : s.phase = ph ∧ s' = ⟨f s.pool, next⟩ := by
  unfold Sys.advance at h
  split at h
  · exact ⟨by assumption, (Option.some.inj h).symm⟩
  · cases h

theorem step_pool_eq {lib : PowLib Header} {s s' : Sys} {a : Action} (h : step lib s a = some s') :
    match a with
    | .accept n st => st ∉ s.pool.streams ∧ s'.pool = s.pool.acceptWorker n st
    | .reorder l => ∃ ws, s.pool.workers.reorder? l = some ws ∧ s'.pool = { s.pool with workers := ws }
    | .connect ok job => s'.pool = if ok then { s.pool with server := ⟨job⟩ } else s.pool
    | .serverMessages job status => s'.pool = s.pool.processServerMessages job status
    | .acceptNewJob refused => s'.pool = s.pool.acceptNewJob refused
    | .workerMessages inbound => s'.pool = s.pool.processWorkerMessages inbound
    | .processShares => s.pool.processShares lib = some s'.pool
    | .sendJobs refused => s'.pool = s.pool.sendJobs refused
    | .cleanWorkers => s'.pool = s.pool.cleanWorkers.1 := by
  cases a with
  | accept n st =>
    simp only [step] at h
    split at h
    · cases h
    · cases h; exact ⟨by assumption, rfl⟩
  | reorder l =>
    simp only [step, Option.map_eq_some'] at h
    obtain ⟨ws, hws, rfl⟩ := h
    exact ⟨ws, hws, rfl⟩
  | connect ok job =>
    simp only [step] at h
    split at h <;> obtain ⟨-, rfl⟩ := Sys.advance_eq_some h <;> simp [*]
  | processShares =>
    simp only [step] at h
    split at h
    · obtain ⟨p, hp, rfl⟩ := Option.map_eq_some'.1 h
      exact hp
    · cases h
  | cleanWorkers =>
    exact congrArg Sys.pool (Sys.advance_eq_some
      (show s.advance .cleanWorkers .connect (·.cleanWorkers.1) = some s' from h)).2
  | _ => exact congrArg Sys.pool (Sys.advance_eq_some h).2

/-- Where a step leaves the loop, action by action: a registration and a reordering leave it where it is,
and a loop step runs only at its own phase and moves on to the next. -/
theorem step_phase {lib : PowLib Header} {s s' : Sys} {a : Action} (h : step lib s a = some s') :
    match a with
    | .accept _ _ | .reorder _ => s'.phase = s.phase
    | .connect ok _ => s.phase = .connect ∧ s'.phase = if ok then .serverMessages else .connect
    | .serverMessages _ _ => s.phase = .serverMessages ∧ s'.phase = .acceptNewJob
    | .acceptNewJob _ => s.phase = .acceptNewJob ∧ s'.phase = .workerMessages
    | .workerMessages _ => s.phase = .workerMessages ∧ s'.phase = .processShares
    | .processShares => s.phase = .processShares ∧ s'.phase = .sendJobs
    | .sendJobs _ => s.phase = .sendJobs ∧ s'.phase = .cleanWorkers
    | .cleanWorkers => s.phase = .cleanWorkers ∧ s'.phase = .connect := by
  cases a with
  | accept n st =>
    simp only [step] at h
    split at h
    · cases h
    · cases h; rfl
  | reorder l =>
    simp only [step, Option.map_eq_some'] at h
    obtain ⟨ws, -, rfl⟩ := h
    rfl
  | connect ok job =>
    simp only [step] at h
    split at h <;> obtain ⟨h₁, rfl⟩ := Sys.advance_eq_some h <;> simp [*]
  | processShares =>
    simp only [step] at h
    split at h
    · obtain ⟨p, -, rfl⟩ := Option.map_eq_some'.1 h
      exact ⟨by assumption, rfl⟩
    · cases h
  | cleanWorkers =>
    obtain ⟨h₁, rfl⟩ := Sys.advance_eq_some
      (show s.advance .cleanWorkers .connect (·.cleanWorkers.1) = some s' from h)
    exact ⟨h₁, rfl⟩
  | _ =>
    obtain ⟨h₁, rfl⟩ := Sys.advance_eq_some h
    exact ⟨h₁, rfl⟩

theorem step_poolStep {lib : PowLib Header} {s s' : Sys} {a : Action} (h : step lib s a = some s') :
    s'.pool = s.pool ∨ PoolStep lib s.pool s'.pool := by
  have hp := step_pool_eq h
  cases a with
  | accept n st => exact .inr (hp.2 ▸ .accept n st hp.1)
  | reorder l =>
    obtain ⟨ws, hws, he⟩ := hp
    exact .inr (he ▸ .reorder hws)
  | connect ok job =>
    cases ok
    · exact .inl hp
    · exact .inr (hp ▸ .connect _ job)
  | serverMessages job status => exact .inr (hp ▸ .serverMessages _ job status)
  | acceptNewJob refused => exact .inr (hp ▸ .acceptNewJob _ refused)
  | workerMessages inbound => exact .inr (hp ▸ .workerMessages _ inbound)
  | processShares => exact .inr (.processShares hp)
  | sendJobs refused => exact .inr (hp ▸ .sendJobs _ refused)
  | cleanWorkers => exact .inr (hp ▸ .cleanWorkers _)

/-- An invariant of the pool that holds at the start and survives every `PoolStep` holds in every
reachable state. -/
theorem Reachable.pool_induction {lib : PowLib Header} {d : UInt64} {job : JobTemplate}
    (P : Pool → Prop) (h₀ : P (Pool.start d job)) (hstep : ∀ p p', PoolStep lib p p' → P p → P p')
    {s : Sys} (hs : Reachable lib d job s) : P s.pool := by
  induction hs with
  | init => exact h₀
  | step a _ h ih =>
    rcases step_poolStep h with h' | h'
    · exact h' ▸ ih
    · exact hstep _ _ h' ih

theorem Reachable.run_getD {lib : PowLib Header} {d : UInt64} {job : JobTemplate} {s : Sys}
    {as : List Action} (hs : Reachable lib d job s) (h : (GrinPool.run lib s as).isSome = true) :
    Reachable lib d job ((GrinPool.run lib s as).getD s) := by
  cases hr : GrinPool.run lib s as with
  | none => simp [hr] at h
  | some s' => exact hs.run hr

/-! ### Runs under a condition on the environment -/

/-- Every action of `as`, taken from `s` on, meets `P` at the state it is taken in. -/
def EveryStep (lib : PowLib Header) (P : Pool → Action → Prop) : Sys → List Action → Prop
  | _, [] => True
  | s, a :: as => P s.pool a ∧ ∀ s' ∈ step lib s a, EveryStep lib P s' as

instance instDecidableEveryStep (lib : PowLib Header) (P : Pool → Action → Prop) [∀ p a, Decidable (P p a)] :
    (s : Sys) → (as : List Action) → Decidable (EveryStep lib P s as)
  | _, [] => isTrue trivial
  | s, a :: as =>
    have := fun s' => instDecidableEveryStep lib P s' as
    inferInstanceAs (Decidable (P s.pool a ∧ ∀ s' ∈ step lib s a, EveryStep lib P s' as))

/-- The states a run reaches when each choice of the environment meets `P` at the state it is made in. -/
inductive ReachableUnder (lib : PowLib Header) (d : UInt64) (job : JobTemplate) (P : Pool → Action → Prop) :
    Sys → Prop
  | init : ReachableUnder lib d job P ⟨Pool.start d job, .connect⟩
  | step {s s' : Sys} (a : Action) : ReachableUnder lib d job P s → P s.pool a → step lib s a = some s' →
      ReachableUnder lib d job P s'

section ReachableUnder

variable {lib : PowLib Header} {d : UInt64} {job : JobTemplate} {P : Pool → Action → Prop}

theorem ReachableUnder.reachable {s : Sys} (hs : ReachableUnder lib d job P s) : Reachable lib d job s := by
  induction hs with
  | init => exact .init
  | step a _ _ h ih => exact ih.step a h

theorem ReachableUnder.run {s s' : Sys} {as : List Action} (hs : ReachableUnder lib d job P s)
    (hP : EveryStep lib P s as) (h : GrinPool.run lib s as = some s') : ReachableUnder lib d job P s' := by
  induction as generalizing s with
  | nil => cases h; exact hs
  | cons a as ih =>
    simp only [GrinPool.run, Option.bind_eq_some] at h
    obtain ⟨s₁, h₁, h₂⟩ := h
    exact ih (hs.step a hP.1 h₁) (hP.2 s₁ h₁) h₂

theorem ReachableUnder.run_getD {s : Sys} {as : List Action} (hs : ReachableUnder lib d job P s)
    (hP : EveryStep lib P s as) (h : (GrinPool.run lib s as).isSome = true) :
    ReachableUnder lib d job P ((GrinPool.run lib s as).getD s) := by
  cases hr : GrinPool.run lib s as with
  | none => simp [hr] at h
  | some s' => exact hs.run hP hr

end ReachableUnder

/-! ### A sample run -/

/-- The start of the sample run: port difficulty 8 and an empty initial template. -/
def sampleStart : Sys := ⟨Pool.start 8 ⟨0, 0, 0, ""⟩, .connect⟩

/-- The upstream template of the sample run: height 1, job id 0. -/
def sampleTemplate : JobTemplate := ⟨1, 0, 1, "00"⟩

/-- The worker of the sample run logs in under its placeholder key "7" and submits the nonces `[1, 2]`
and then `[2, 1]` for the job `sampleTemplate` becomes (job id 1000). -/
def sampleInbound : Inbound :=
  ⟨0, "", "7", true, false, false, [⟨1, 1000, 29, 0, [1, 2]⟩, ⟨1, 1000, 29, 0, [2, 1]⟩]⟩

/-- A connection under key 7, the upstream offering `sampleTemplate`, its adoption, the worker's messages
and the processing of its shares. -/
def sampleRun : List Action :=
  [.accept 7 1, .connect true sampleTemplate, .serverMessages sampleTemplate (fun _ st => st), .acceptNewJob [],
   .workerMessages (fun _ => sampleInbound), .processShares]

/-- Where the sample run ends, over the library in which every header verifies. -/
def sampleState : Sys := (run PowLib.lenient sampleStart sampleRun).getD sampleStart

theorem reachable_sampleState : Reachable PowLib.lenient 8 ⟨0, 0, 0, ""⟩ sampleState :=
  Reachable.run_getD .init (by decide)

/-- The upstream may offer a template of height 0: the pool adopts it, and the first share for it that
`process_shares` accepts stops the loop there. -/
example : (run PowLib.lenient sampleStart
    [.accept 7 1, .connect true ⟨0, 0, 1, "00"⟩, .serverMessages ⟨0, 0, 1, "00"⟩ (fun _ st => st), .acceptNewJob [],
     .workerMessages (fun _ => ⟨0, "", "7", true, false, false, [⟨0, 0, 29, 0, [1, 2]⟩]⟩)]).isSome = true ∧
    (run PowLib.lenient sampleStart
    [.accept 7 1, .connect true ⟨0, 0, 1, "00"⟩, .serverMessages ⟨0, 0, 1, "00"⟩ (fun _ st => st), .acceptNewJob [],
     .workerMessages (fun _ => ⟨0, "", "7", true, false, false, [⟨0, 0, 29, 0, [1, 2]⟩]⟩),
     .processShares]).isSome = false := by
  decide

end GrinPool
