import GrinPool.Registry

/-!
# The registry at each point of the loop

The loop runs its steps in a fixed order (lines 158-188), and three of them leave the registry in a state
the steps after them rely on: `process_shares` empties every worker's queue, `send_jobs` pushes a job to every
authenticated worker that asked for one, and `clean_workers` removes the workers in error and nothing else
(`cleanWorkers_drops_exactly_errored`). `Settled` says which of these facts hold at each point of the loop,
and `registry_settled_at_every_phase` that they hold in every reachable state: from `process_shares` until
the next `process_worker_messages` no share waits in a queue, from `send_jobs` until then an authenticated
worker waits for a job only when its connection refused the last push (§4.2: `send_jobs` pushes again on
the next tick), and from `clean_workers` until then no worker is in error. So every share is processed in the
tick that reads it, and no step before `process_worker_messages` meets a worker whose stream broke in an
earlier tick.

The acceptor thread registers workers at any point of the loop; a new worker has no share, asks for no job
and is not in error, so it is settled wherever the loop is.

Proof. One lemma per step says what it leaves of the workers it is given, `HashMap.forall_iterMut` lifting a
loop body's effect to the registry, and `step_phase` says where each step leaves the loop.
-/

namespace GrinPool

variable {Header : Type}

/-- What a registered worker satisfies when the loop is about to run the step `ph`. -/
def Settled (ph : Phase) (w : Worker) : Prop :=
  match ph with
  | .processShares => True
  | .sendJobs => w.shares = []
  | .cleanWorkers => w.shares = [] ∧ (w.needsJob = true ∧ w.authenticated = true → w.pushFailed = true)
  | .connect | .serverMessages | .acceptNewJob | .workerMessages =>
    w.shares = [] ∧ (w.needsJob = true ∧ w.authenticated = true → w.pushFailed = true) ∧ w.error = false

/-- Every registered worker is settled for the step the loop runs next. -/
def RegistrySettled (s : Sys) : Prop := ∀ e ∈ s.pool.workers.entries, Settled s.phase e.2

theorem settled_new (ph : Phase) (stream : Nat) (d : UInt64) :
    Settled ph ((Worker.new 0 stream).setDifficulty d) := by
  cases ph <;> simp [Settled, Worker.new]

/-! ### What each step leaves of the workers -/

namespace Pool

theorem foldl_processShare_shares (lib : PowLib Header) (job : JobTemplate)
    (jobVersions : HashMap UInt64 String) :
    ∀ (ss : List SubmitParams) (c : ShareCtx),
      (ss.foldl (processShare lib job jobVersions) c).worker.shares = c.worker.shares
  | [], _ => rfl
  | s :: ss, c => by
    rw [List.foldl_cons, foldl_processShare_shares lib job jobVersions ss, processShare_worker]
    simp [Worker.settle_eq]

theorem sharePass_drained (lib : PowLib Header) (p : Pool) :
    ∀ e ∈ (p.sharePass lib).workers.entries, e.2.shares = [] :=
  HashMap.forall_iterMut p.workers (p.duplicates, p.trace) (shareLoopBody lib p.job p.jobVersions)
    (fun _ => True) (fun w => w.shares = []) (fun _ _ => trivial) fun _ _ w _ => by
    simp only [shareLoopBody, processWorkerShares, foldl_processShare_shares]

theorem broadcastOne_settled (p : Pool) (refused : List Nat) (t : List Event) {w : Worker}
    (h : Settled .acceptNewJob w) : Settled .workerMessages (p.broadcastOne refused t w).2 := by
  unfold broadcastOne
  split
  · simp [Settled] at h ⊢
    exact ⟨h.1, fun h' _ => h', h.2.2⟩
  · exact h

theorem acceptNewJob_workers (p : Pool) (refused : List Nat) :
    (p.acceptNewJob refused).workers = p.workers ∨
      ∃ q : Pool, (p.acceptNewJob refused).workers = (q.broadcastJob refused).workers ∧ q.workers = p.workers := by
  unfold acceptNewJob
  split
  · dsimp only
    split <;> exact .inr ⟨_, rfl, rfl⟩
  · exact .inl rfl

/-- `send_jobs` pushes a job to every authenticated worker that asked for one; the worker still waits only
when the push failed. -/
theorem sendJobOne_settled (p : Pool) (refused : List Nat) (t : List Event) {w : Worker}
    (h : Settled .sendJobs w) : Settled .cleanWorkers (p.sendJobOne refused t w).2 := by
  unfold sendJobOne
  split
  · simp [Settled] at h ⊢
    exact ⟨h, fun h' _ => h'⟩
  · exact ⟨h, fun h' => absurd h' ‹_›⟩

end Pool

/-- **`clean_workers` removes exactly the workers in error**, keeping the others in their order with their
records as they were, and returns how many it kept: its two passes, collecting the keys of the workers in
error and then removing each key, agree with one filter over the registry because no key is listed twice. -/
theorem cleanWorkers_drops_exactly_errored (p : Pool) :
    p.cleanWorkers.1.workers.entries = p.workers.entries.filter (fun e => !e.2.error) ∧
    p.cleanWorkers.2 = p.workers.entries.countP fun e => !e.2.error :=
  ⟨p.cleanWorkers_entries, by
    rw [List.countP_eq_length_filter, ← p.cleanWorkers_entries]
    rfl⟩

/-! ### Every reachable state -/

theorem RegistrySettled.step {lib : PowLib Header} {s s' : Sys} {a : Action} (h : step lib s a = some s')
    (hi : RegistrySettled s) : RegistrySettled s' := by
  have hp := step_pool_eq h
  have hph := step_phase h
  cases a with
  | accept n st =>
    intro ⟨k, w⟩ he
    rw [hp.2, Pool.acceptWorker, HashMap.mem_entries_insert] at he
    rw [hph]
    rcases he with ⟨-, rfl⟩ | ⟨-, he⟩
    exacts [settled_new _ _ _, hi _ he]
  | reorder l =>
    obtain ⟨ws, hws, he⟩ := hp
    intro e he'
    rw [he, (HashMap.reorder?_eq_some hws).1] at he'
    rw [hph]
    exact hi e ((HashMap.reorder?_eq_some hws).2.subset he')
  | connect ok job =>
    intro e he
    have he' : e ∈ s.pool.workers.entries := by
      rw [hp] at he
      split at he <;> exact he
    have := hi e he'
    rw [hph.1] at this
    rw [hph.2]
    split <;> exact this
  | serverMessages job status =>
    rw [RegistrySettled, hph.1] at hi
    rw [RegistrySettled, hph.2, hp]
    exact HashMap.forall_iterMut _ _ _ _ _ hi fun _ _ _ h => h
  | acceptNewJob refused =>
    rw [RegistrySettled, hph.1] at hi
    rw [RegistrySettled, hph.2, hp]
    rcases s.pool.acceptNewJob_workers refused with hw | ⟨q, hw, hq⟩
    · rw [hw]
      exact hi
    · rw [hw]
      exact HashMap.forall_iterMut _ _ _ _ _ (hq ▸ hi) fun _ _ _ h => Pool.broadcastOne_settled _ _ _ h
  | workerMessages inbound =>
    rw [RegistrySettled, hph.2]
    exact fun _ _ => trivial
  | processShares =>
    rw [RegistrySettled, hph.2, Pool.eq_sharePass_of_processShares hp]
    exact Pool.sharePass_drained lib _
  | sendJobs refused =>
    rw [RegistrySettled, hph.1] at hi
    rw [RegistrySettled, hph.2, hp]
    exact HashMap.forall_iterMut _ _ _ _ _ hi fun _ _ _ h => Pool.sendJobOne_settled _ _ _ h
  | cleanWorkers =>
    rw [RegistrySettled, hph.1] at hi
    rw [RegistrySettled, hph.2, hp, Pool.cleanWorkers_entries]
    intro e he
    obtain ⟨he, herr⟩ := List.mem_filter.1 he
    exact ⟨(hi e he).1, (hi e he).2, by simpa using herr⟩

theorem Reachable.registrySettled {lib : PowLib Header} {d : UInt64} {job : JobTemplate} {s : Sys}
    (hs : Reachable lib d job s) : RegistrySettled s := by
  induction hs with
  | init => exact fun e he => nomatch he
  | step a _ h ih => exact ih.step h

/-- **At every point of every run each registered worker is settled for the step the loop runs next**: from
`process_shares` until the next `process_worker_messages` no share waits in a queue, from `send_jobs` until
then an authenticated worker waits for a job only when its connection refused the last push, and from
`clean_workers` until then no worker is in error, whatever the acceptor thread registered in between. -/
theorem registry_settled_at_every_phase {lib : PowLib Header} {d : UInt64} {job : JobTemplate} {s : Sys}
    (hs : Reachable lib d job s) : ∀ e ∈ s.pool.workers.entries, Settled s.phase e.2 :=
  hs.registrySettled

theorem registry_settled_at_every_phase_sample :
    Reachable PowLib.lenient 8 ⟨0, 0, 0, ""⟩ sampleState ∧
    ∀ e ∈ sampleState.pool.workers.entries, Settled sampleState.phase e.2 :=
  ⟨reachable_sampleState, registry_settled_at_every_phase reachable_sampleState⟩

end GrinPool
