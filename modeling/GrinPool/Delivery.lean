import GrinPool.Tick
import GrinPool.Jobs

/-!
# Every logged-in worker holds the current job

Two paths write jobs to the workers: `accept_new_job` broadcasts a new template to every authenticated worker
(`broadcast_job`, lines 420-442), and `send_jobs` (lines 243-259) writes the current template to every
authenticated worker that asks for one. The spec (§4.2) relies on the two together: a worker that logs in
between broadcasts, or whose push failed, asks for a job and is served by `send_jobs`. Under that condition on
what the workers send (`LoginsAskForJob`), `logged_in_workers_hold_current_job` says that at every point of the
loop but the two between reading the workers' messages and `send_jobs`, each authenticated worker was last
written the pool's current job, at the port difficulty, or its last push failed and it waits for the next:
no logged-in worker is left mining a template the pool has replaced without a push pending. A worker that logs
in without asking for a job holds none until the next broadcast.

Proof. The invariant `DeliveryInv`: each authenticated worker asks for a job or was last written the current
job. Each step keeps it, a failed push because it leaves the worker asking; at the points of the loop the
theorem names, an authenticated worker that asks for a job is one whose last push failed
(`Reachable.registrySettled`).
-/

namespace GrinPool

variable {Header : Type}

/-- The job of a message written to a worker. -/
def Reply.job? : Reply → Option JobTemplate
  | .job J => some J
  | _ => none

/-- The last job written to the worker. -/
def Worker.lastJob (w : Worker) : Option JobTemplate := (w.sent.filterMap Reply.job?).getLast?

/-- Modelled from the spec: a worker that logs in asks for a job, and one that asks keeps asking until it is
served (§4.2: the needs-job push serves the workers that (re)authenticate between broadcasts or whose prior
push failed). -/
def LoginsAskForJob (p : Pool) : Action → Prop
  | .workerMessages inbound => ∀ e ∈ p.workers.entries, (inbound e.1).authenticated = true →
    (e.2.authenticated = false ∨ e.2.needsJob = true) → (inbound e.1).needsJob = true
  | .accept _ _ | .reorder _ | .connect _ _ | .serverMessages _ _ | .acceptNewJob _ | .processShares | .sendJobs _
  | .cleanWorkers => True

instance instDecidableLoginsAskForJob (p : Pool) : (a : Action) → Decidable (LoginsAskForJob p a)
  | .workerMessages _ => List.decidableBAll _ _
  | .accept _ _ | .reorder _ | .connect _ _ | .serverMessages _ _ | .acceptNewJob _ | .processShares | .sendJobs _
  | .cleanWorkers => isTrue trivial

/-- What the invariant asks of a worker: logged in, it asks for a job or was last written `J`. -/
def Delivered (J : JobTemplate) (w : Worker) : Prop := w.authenticated = true → w.needsJob = true ∨ w.lastJob = some J

/-! ### What each step writes -/

namespace Worker

@[simp] theorem lastJob_settle (w : Worker) (x : Exit) (e : UInt32) : (w.settle x e).lastJob = w.lastJob := by
  rw [settle_eq]
  cases x <;> simp [lastJob, Exit.reply?, Reply.job?]

@[simp] theorem settle_authenticated (w : Worker) (x : Exit) (e : UInt32) :
    (w.settle x e).authenticated = w.authenticated := by
  simp [settle_eq]

@[simp] theorem settle_needsJob (w : Worker) (x : Exit) (e : UInt32) : (w.settle x e).needsJob = w.needsJob := by
  simp [settle_eq]

theorem delivered_sendJob (w : Worker) (J : JobTemplate) (failed : Bool) :
    Delivered { J with difficulty := w.status.difficulty } (w.sendJob J failed) := fun _ => by
  cases failed <;> simp [lastJob, Reply.job?]

end Worker

@[simp] theorem Pool.readWorker_authenticated (p : Pool) (inbound : String → Inbound) (ids : List String) (k : String)
    (w : Worker) : (p.readWorker inbound ids k w).2.authenticated = (inbound k).authenticated := by
  unfold Pool.readWorker
  dsimp only
  split <;> rfl

@[simp] theorem Pool.readWorker_needsJob (p : Pool) (inbound : String → Inbound) (ids : List String) (k : String)
    (w : Worker) : (p.readWorker inbound ids k w).2.needsJob = (inbound k).needsJob := by
  unfold Pool.readWorker
  dsimp only
  split <;> rfl

@[simp] theorem Pool.readWorker_lastJob (p : Pool) (inbound : String → Inbound) (ids : List String) (k : String)
    (w : Worker) : (p.readWorker inbound ids k w).2.lastJob = w.lastJob := by
  simp [Worker.lastJob]

theorem foldl_processShare_delivery (lib : PowLib Header) (job : JobTemplate) (jobVersions : HashMap UInt64 String) :
    ∀ (ss : List SubmitParams) (c : ShareCtx),
      (ss.foldl (processShare lib job jobVersions) c).worker.authenticated = c.worker.authenticated ∧
      (ss.foldl (processShare lib job jobVersions) c).worker.needsJob = c.worker.needsJob ∧
      (ss.foldl (processShare lib job jobVersions) c).worker.lastJob = c.worker.lastJob
  | [], _ => ⟨rfl, rfl, rfl⟩
  | s :: ss, c => by
    simpa only [List.foldl_cons, processShare_worker, Worker.settle_authenticated, Worker.settle_needsJob,
      Worker.lastJob_settle] using foldl_processShare_delivery lib job jobVersions ss (processShare lib job jobVersions c s)

theorem Pool.broadcastOne_delivered (p : Pool) (refused : List Nat) (t : List Event) (w : Worker) :
    Delivered { p.job with difficulty := p.portDifficulty } (p.broadcastOne refused t w).2 := by
  unfold broadcastOne
  split
  · simpa [Delivered, Worker.lastJob] using
      ((w.setDifficulty p.portDifficulty).setHeight p.job.height).delivered_sendJob p.job (w.stream ∈ refused)
  · rename_i h
    exact fun h' => absurd h' h

theorem Pool.sendJobOne_delivered (p : Pool) (refused : List Nat) (t : List Event) {w : Worker}
    (h : Delivered { p.job with difficulty := p.difficulty } w) :
    Delivered { p.job with difficulty := p.difficulty } (p.sendJobOne refused t w).2 := by
  unfold sendJobOne
  split
  · simpa using (((w.setDifficulty p.difficulty).setHeight p.job.height).resetWorkerShares p.job.height
      p.difficulty).delivered_sendJob p.job (w.stream ∈ refused)
  · exact h

/-! ### Whole runs -/

/-- The pool's difficulties are `d`, and every registered worker logged in asks for a job or was last written
the pool's job at difficulty `d`. -/
structure DeliveryInv (d : UInt64) (p : Pool) : Prop where
  difficulty : p.difficulty = d
  portDifficulty : p.portDifficulty = d
  current : ∀ e ∈ p.workers.entries, Delivered { p.job with difficulty := d } e.2

namespace DeliveryInv

variable {d : UInt64} {p : Pool}

theorem broadcastJob (hd : p.difficulty = d) (hpd : p.portDifficulty = d) (refused : List Nat) :
    DeliveryInv d (p.broadcastJob refused) :=
  ⟨hd, hpd, HashMap.forall_iterMut _ _ _ (fun _ => True) _ (fun _ _ => trivial) fun t _ w _ =>
    hpd ▸ p.broadcastOne_delivered refused t w⟩

theorem acceptNewJob (hi : DeliveryInv d p) (refused : List Nat) : DeliveryInv d (p.acceptNewJob refused) := by
  unfold Pool.acceptNewJob
  split
  · have hb := broadcastJob (p := { p with
      job := { p.server.job with jobId := p.server.job.height * 1000 + p.server.job.jobId },
      trace := p.trace ++ [.adopt p.server.job (decide (p.job.height ≠ p.server.job.height))] }) hi.1 hi.2 refused
    dsimp only
    split <;> exact ⟨hb.1, hb.2, hb.3⟩
  · exact hi

theorem processWorkerMessages (hi : DeliveryInv d p) (inbound : String → Inbound)
    (hlog : LoginsAskForJob p (.workerMessages inbound)) : DeliveryInv d (p.processWorkerMessages inbound) := by
  refine ⟨hi.1, hi.2, fun e he => ?_⟩
  have hsub := (collect_foldl_rekey_subperm (fun w => [w]) _ (p.workers.iterMut [] (p.readWorker inbound)).2).subset
    (show e.2 ∈ (p.processWorkerMessages inbound).workers.collect fun w => [w] by
      simpa [HashMap.collect] using ⟨e.1, he⟩)
  obtain ⟨⟨k, w'⟩, hr, he'⟩ := List.mem_flatMap.1 hsub
  obtain ⟨w, hw, rfl⟩ := (p.mem_readWorkers_entries inbound k w').1 hr
  rw [List.mem_singleton.1 he']
  intro ha
  rw [Pool.readWorker_authenticated] at ha
  rw [Pool.readWorker_needsJob, Pool.readWorker_lastJob]
  cases hw' : w.authenticated
  · exact .inl (hlog _ hw ha (.inl hw'))
  · exact (hi.3 _ hw hw').imp_left fun hn => hlog _ hw ha (.inr hn)

theorem sharePass (hi : DeliveryInv d p) (lib : PowLib Header) : DeliveryInv d (p.sharePass lib) :=
  ⟨hi.1, hi.2, HashMap.forall_iterMut _ _ _ _ _ hi.3 fun acc _ w hw ha => by
    obtain ⟨h1, h2, h3⟩ := foldl_processShare_delivery lib p.job p.jobVersions w.shares
      ⟨acc.1, acc.2, { w with shares := [] }⟩
    rw [shareLoopBody, processWorkerShares, h1] at ha
    rw [shareLoopBody, processWorkerShares, h2, h3]
    exact hw ha⟩

theorem sendJobs (hi : DeliveryInv d p) (refused : List Nat) : DeliveryInv d (p.sendJobs refused) :=
  ⟨hi.1, hi.2, HashMap.forall_iterMut _ _ _ _ _ hi.3 fun t _ w hw => by
    have := p.sendJobOne_delivered refused t (w := w) (by rwa [hi.1])
    rwa [hi.1] at this⟩

theorem step {lib : PowLib Header} {s s' : Sys} {a : Action} (h : step lib s a = some s') (hi : DeliveryInv d s.pool)
    (hlog : LoginsAskForJob s.pool a) : DeliveryInv d s'.pool := by
  have hp := step_pool_eq h
  cases a with
  | accept n st =>
    rw [hp.2]
    refine ⟨hi.1, hi.2, fun ⟨k, w⟩ he => ?_⟩
    rcases HashMap.mem_entries_insert.1 he with ⟨-, rfl⟩ | ⟨-, he⟩
    · exact fun h => nomatch h
    · exact hi.3 _ he
  | reorder l =>
    obtain ⟨ws, hws, hp⟩ := hp
    rw [hp]
    exact ⟨hi.1, hi.2, fun e he => hi.3 e ((HashMap.reorder?_eq_some hws).2.subset
      ((HashMap.reorder?_eq_some hws).1 ▸ he))⟩
  | connect ok job =>
    rw [hp]
    split
    exacts [⟨hi.1, hi.2, hi.3⟩, hi]
  | serverMessages job status =>
    rw [hp]
    exact ⟨hi.1, hi.2, HashMap.forall_iterMut _ _ _ _ _ hi.3 fun _ _ _ hw => hw⟩
  | acceptNewJob refused => exact hp ▸ hi.acceptNewJob refused
  | workerMessages inbound => exact hp ▸ hi.processWorkerMessages inbound hlog
  | processShares => exact Pool.eq_sharePass_of_processShares hp ▸ hi.sharePass lib
  | sendJobs refused => exact hp ▸ hi.sendJobs refused
  | cleanWorkers =>
    rw [hp]
    exact ⟨hi.1, hi.2, fun e he => hi.3 e (by rw [Pool.cleanWorkers_entries] at he; exact (List.mem_filter.1 he).1)⟩

end DeliveryInv

theorem ReachableUnder.deliveryInv {lib : PowLib Header} {d : UInt64} {job : JobTemplate} {s : Sys}
    (hs : ReachableUnder lib d job LoginsAskForJob s) : DeliveryInv d s.pool := by
  induction hs with
  | init => exact ⟨rfl, rfl, fun e he => nomatch he⟩
  | step a _ ha h ih => exact ih.step h ha

/-- **When every worker that logs in asks for a job and keeps asking until served, every logged-in worker holds
the pool's current job at the port difficulty, or its last push failed and it waits for the next**, at every
point of every run but the two between reading the workers' messages and `send_jobs`: the broadcast of
`accept_new_job` and the push of `send_jobs` leave no authenticated worker on a template the pool has replaced
without a push pending, whatever the upstream, the acceptor and the connections did in between. -/
theorem logged_in_workers_hold_current_job {lib : PowLib Header} {d : UInt64} {job : JobTemplate} {s : Sys}
    (hs : ReachableUnder lib d job LoginsAskForJob s) (hph : s.phase ≠ .processShares) (hph' : s.phase ≠ .sendJobs) :
    ∀ e ∈ s.pool.workers.entries, e.2.authenticated = true →
      e.2.lastJob = some { s.pool.job with difficulty := d } ∨ (e.2.needsJob = true ∧ e.2.pushFailed = true) := by
  intro e he ha
  have hwait : e.2.needsJob = true ∧ e.2.authenticated = true → e.2.pushFailed = true := by
    have := hs.reachable.registrySettled e he
    cases hp : s.phase <;> rw [hp] at this
    case processShares => exact absurd hp hph
    case sendJobs => exact absurd hp hph'
    case cleanWorkers => exact this.2
    all_goals exact this.2.1
  exact (hs.deliveryInv.3 e he ha).symm.imp_right fun hn => ⟨hn, hwait ⟨hn, ha⟩⟩

theorem logged_in_workers_hold_current_job_jobState :
    ReachableUnder PowLib.lenient 8 ⟨0, 0, 0, ""⟩ LoginsAskForJob jobState ∧ jobState.phase ≠ .processShares ∧
    jobState.phase ≠ .sendJobs ∧ ∀ e ∈ jobState.pool.workers.entries, e.2.authenticated = true →
      e.2.lastJob = some { jobState.pool.job with difficulty := 8 } ∨ (e.2.needsJob = true ∧ e.2.pushFailed = true) :=
  have hs : ReachableUnder PowLib.lenient 8 ⟨0, 0, 0, ""⟩ LoginsAskForJob jobState :=
    ReachableUnder.run_getD .init (by decide) (by decide)
  ⟨hs, by decide, by decide, logged_in_workers_hold_current_job hs (by decide) (by decide)⟩

/-- Without the condition: a worker that logs in without asking for a job is written none. -/
example : (run PowLib.lenient sampleStart
    [.accept 7 1, .connect true sampleTemplate, .serverMessages sampleTemplate (fun _ st => st), .acceptNewJob [],
      .workerMessages (fun _ => ⟨0, "", "7", true, false, false, []⟩), .processShares, .sendJobs []]).map
      (fun s => s.pool.workers.entries.map (·.2.lastJob)) = some [none] := by
  decide

/-- A refused push leaves the worker on no job, asking for one, until a later `send_jobs` reaches it. -/
example : (run PowLib.lenient sampleStart
    [.accept 7 1, .connect true sampleTemplate, .serverMessages sampleTemplate (fun _ st => st), .acceptNewJob [],
      .workerMessages (fun _ => needyInbound), .processShares, .sendJobs [1]]).map
      (fun s => s.pool.workers.entries.map fun e => (e.2.lastJob, e.2.needsJob, e.2.pushFailed)) =
      some [(none, true, true)] := by
  decide

end GrinPool
