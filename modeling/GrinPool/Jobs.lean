import GrinPool.Registry
import GrinPool.Epoch

/-!
# The jobs the pool sends

A job reaches a worker in two ways. When `accept_new_job` adopts a template, `broadcast_job` (lines
432-439) writes it to every authenticated worker after setting the worker's difficulty to the port's;
`send_jobs` (lines 246-256) writes it to each authenticated worker that asks for one, after setting the
worker's difficulty to the pool's, which `Pool::run` made the port's (line 150) and no step changes.

`sent_jobs_issued` follows: in every reachable state, every job a registered worker was sent is a template
the pool held, the initial one or one it adopted under its derived job id, at the port difficulty, whatever
the upstream did to the worker's status in between. The initial template is among them: `send_jobs` serves
a worker that asks for a job before any template was adopted.

Proof. `JobsInv` carries the two difficulties, the pool's job and the jobs sent. A loop over the registry
writes each worker at most the pool's job (`broadcastOne_sent`, `sendJobOne_sent`) or replies that are no
job (`foldl_processShare_sent`), and `HashMap.mem_collect_iterMut` lifts that to the whole registry; every
other step only drops workers, and `accept_new_job` makes an adopted template the job before it broadcasts.
-/

namespace GrinPool

variable {Header : Type}

/-- Every message written to the registered workers' streams, worker by worker. -/
def Pool.sentMessages (p : Pool) : List Reply := p.workers.collect (·.sent)

/-- The templates a run made current, in order: the initial one, then each adopted one under its derived
job id. -/
def issuedJobs (job : JobTemplate) (t : List Event) : List JobTemplate :=
  job :: t.filterMap fun e => e.adopted?.map fun T => { T with jobId := T.height * 1000 + T.jobId }

theorem issuedJobs_append {job J : JobTemplate} {t : List Event} (h : J ∈ issuedJobs job t)
    (l : List Event) : J ∈ issuedJobs job (t ++ l) := by
  simp only [issuedJobs, List.filterMap_append, List.mem_cons, List.mem_append] at h ⊢
  tauto

theorem Exit.reply?_ne_job (x : Exit) (J : JobTemplate) : x.reply? ≠ some (.job J) := by
  cases x <;> simp [Exit.reply?]

@[simp] theorem Pool.readWorker_sent (p : Pool) (inbound : String → Inbound) (ids : List String) (k : String)
    (w : Worker) : (p.readWorker inbound ids k w).2.sent = w.sent := by
  unfold Pool.readWorker
  dsimp only
  split <;> rfl

/-! ### What each loop writes -/

theorem foldl_processShare_sent (lib : PowLib Header) (job : JobTemplate) (jobVersions : HashMap UInt64 String) :
    ∀ (ss : List SubmitParams) (c : ShareCtx), ∀ x ∈ (ss.foldl (processShare lib job jobVersions) c).worker.sent,
      x ∈ c.worker.sent ∨ ∀ J, x ≠ .job J
  | [], _, _, hx => .inl hx
  | s :: ss, c, x, hx => by
    rcases foldl_processShare_sent lib job jobVersions ss _ x hx with hx | hx
    · rw [processShare_worker, Worker.settle_eq, List.mem_append] at hx
      refine hx.imp_right fun hx J hJ => ?_
      subst hJ
      exact Exit.reply?_ne_job _ J (by simpa using hx)
    · exact .inr hx

theorem Pool.broadcastOne_sent (p : Pool) (refused : List Nat) (t : List Event) (w : Worker) :
    ∀ x ∈ (p.broadcastOne refused t w).2.sent, x ∈ w.sent ∨ x = .job { p.job with difficulty := p.portDifficulty } := by
  unfold broadcastOne
  split
  · intro x hx
    simp only [Worker.resetWorkerShares_sent, Worker.sendJob_sent, List.mem_append] at hx
    split at hx <;> simp_all
  · exact fun x hx => .inl hx

theorem Pool.sendJobOne_sent (p : Pool) (refused : List Nat) (t : List Event) (w : Worker) :
    ∀ x ∈ (p.sendJobOne refused t w).2.sent, x ∈ w.sent ∨ x = .job { p.job with difficulty := p.difficulty } := by
  unfold sendJobOne
  split
  · intro x hx
    simp only [Worker.sendJob_sent, Worker.resetWorkerShares_sent, List.mem_append] at hx
    split at hx <;> simp_all
  · exact fun x hx => .inl hx

/-! ### Whole runs -/

/-- The pool's job is issued, its difficulty and the port's are `d`, and every job a registered worker was
sent is an issued one at difficulty `d`. -/
structure JobsInv (d : UInt64) (job : JobTemplate) (p : Pool) : Prop where
  difficulty : p.difficulty = d
  portDifficulty : p.portDifficulty = d
  current : p.job ∈ issuedJobs job p.trace
  sent : ∀ J, .job J ∈ p.sentMessages → ∃ J₀ ∈ issuedJobs job p.trace, J = { J₀ with difficulty := d }

section JobsInv

variable {d : UInt64} {job : JobTemplate} {p : Pool}

theorem JobsInv.of_sent {p' : Pool} (hi : JobsInv d job p) (hd : p'.difficulty = p.difficulty)
    (hpd : p'.portDifficulty = p.portDifficulty) (hjob : p'.job = p.job) (ht : ∃ l, p'.trace = p.trace ++ l)
    (hsent : ∀ x ∈ p'.sentMessages,
      x ∈ p.sentMessages ∨ ∀ J, x = .job J → J = { p.job with difficulty := d }) :
    JobsInv d job p' := by
  obtain ⟨l, ht⟩ := ht
  refine ⟨hd ▸ hi.difficulty, hpd ▸ hi.portDifficulty, ht ▸ hjob ▸ issuedJobs_append hi.current l,
    fun J hJ => ?_⟩
  rw [ht]
  rcases hsent _ hJ with h | h
  · obtain ⟨J₀, hJ₀, rfl⟩ := hi.sent J h
    exact ⟨J₀, issuedJobs_append hJ₀ l, rfl⟩
  · exact ⟨p.job, issuedJobs_append hi.current l, h J rfl⟩

theorem JobsInv.of_sub {p' : Pool} (hi : JobsInv d job p) (hd : p'.difficulty = p.difficulty)
    (hpd : p'.portDifficulty = p.portDifficulty) (hjob : p'.job = p.job) (ht : p'.trace = p.trace)
    (hsent : p'.sentMessages ⊆ p.sentMessages) : JobsInv d job p' :=
  hi.of_sent hd hpd hjob ⟨[], by rw [ht, List.append_nil]⟩ fun x hx => .inl (hsent hx)

theorem JobsInv.adopt (hi : JobsInv d job p) (T : JobTemplate) (nh : Bool) :
    JobsInv d job { p with job := { T with jobId := T.height * 1000 + T.jobId }, trace := p.trace ++ [.adopt T nh] } :=
  ⟨hi.difficulty, hi.portDifficulty, by simp [issuedJobs, Event.adopted?],
    fun J hJ => (hi.sent J hJ).imp fun _ ⟨hJ₀, h⟩ => ⟨issuedJobs_append hJ₀ _, h⟩⟩

theorem JobsInv.broadcastJob (hi : JobsInv d job p) (refused : List Nat) : JobsInv d job (p.broadcastJob refused) :=
  hi.of_sent rfl rfl rfl ((p.broadcastJob_trace refused).imp fun _ h => h.1)
    (HashMap.mem_collect_iterMut _ _ _ _ _ fun t _ w x hx => (p.broadcastOne_sent refused t w x hx).imp_right
      fun h J hJ => by rw [← hi.portDifficulty]; cases h.symm.trans hJ; rfl)

theorem JobsInv.acceptNewJob (hi : JobsInv d job p) (refused : List Nat) :
    JobsInv d job (p.acceptNewJob refused) := by
  unfold Pool.acceptNewJob
  split
  · have hb := (hi.adopt p.server.job (decide (p.job.height ≠ p.server.job.height))).broadcastJob refused
    dsimp only
    split <;> exact ⟨hb.1, hb.2, hb.3, hb.4⟩
  · exact hi

theorem PoolStep.jobsInv {lib : PowLib Header} {p' : Pool} (h : PoolStep lib p p') (hi : JobsInv d job p) :
    JobsInv d job p' := by
  cases h with
  | accept n st =>
    refine hi.of_sub rfl rfl rfl rfl fun x hx => ?_
    simpa [Worker.new] using (HashMap.collect_insert_subperm (·.sent) p.workers (toString n)
      ((Worker.new 0 st).setDifficulty p.portDifficulty)).subset hx
  | reorder hws => exact hi.of_sub rfl rfl rfl rfl (HashMap.collect_reorder? _ hws).subset
  | connect => exact ⟨hi.1, hi.2, hi.3, hi.4⟩
  | serverMessages job' status =>
    exact hi.of_sub rfl rfl rfl rfl
      (List.Perm.of_eq (HashMap.collect_iterMut (fun w : Worker => w.sent) p.workers () _ fun _ _ _ => rfl)).subset
  | acceptNewJob refused => exact hi.acceptNewJob refused
  | workerMessages inbound =>
    exact hi.of_sub rfl rfl rfl rfl
      (Pool.processWorkerMessages_collect_subperm _ p inbound fun k w => by simp).subset
  | processShares h =>
    rw [Pool.eq_sharePass_of_processShares h]
    obtain ⟨l, ht, -⟩ := sharePass_trace lib p
    refine hi.of_sent rfl rfl rfl ⟨l, ht⟩
      (HashMap.mem_collect_iterMut _ _ _ _ _ fun acc _ w x hx => ?_)
    exact (foldl_processShare_sent lib p.job p.jobVersions w.shares _ x hx).imp_right
      fun h J hJ => absurd hJ (h J)
  | sendJobs refused =>
    exact hi.of_sent rfl rfl rfl ((p.sendJobs_trace refused).imp fun _ h => h.1)
      (HashMap.mem_collect_iterMut _ _ _ _ _ fun t _ w x hx => (p.sendJobOne_sent refused t w x hx).imp_right
        fun h J hJ => by rw [← hi.difficulty]; cases h.symm.trans hJ; rfl)
  | cleanWorkers => exact hi.of_sub rfl rfl rfl rfl (Pool.collect_cleanWorkers_sublist _ p).subset

end JobsInv

/-- **Every job the pool wrote to a registered worker is one it issued, at the port difficulty**: the
initial template or one `accept_new_job` adopted, under its derived job id, whatever the upstream did to the
worker's status in between. -/
theorem sent_jobs_issued {lib : PowLib Header} {d : UInt64} {job : JobTemplate} {s : Sys}
    (hs : Reachable lib d job s) :
    ∀ J, .job J ∈ s.pool.sentMessages → ∃ J₀ ∈ issuedJobs job s.pool.trace, J = { J₀ with difficulty := d } :=
  (hs.pool_induction (JobsInv d job) ⟨rfl, rfl, List.mem_cons_self _ _, by simp [Pool.sentMessages,
    HashMap.collect, Pool.start, Pool.new]⟩ fun _ _ h hi => h.jobsInv hi).sent

/-- The sample worker logs in and asks for a job. -/
def needyInbound : Inbound := ⟨0, "", "7", true, true, false, []⟩

/-- A connection, the adoption of `sampleTemplate`, a login that asks for a job, and `send_jobs`. -/
def jobState : Sys :=
  (run PowLib.lenient sampleStart
    [.accept 7 1, .connect true sampleTemplate, .serverMessages sampleTemplate (fun _ st => st), .acceptNewJob [],
      .workerMessages (fun _ => needyInbound), .processShares, .sendJobs []]).getD sampleStart

theorem reachable_jobState : Reachable PowLib.lenient 8 ⟨0, 0, 0, ""⟩ jobState :=
  Reachable.run_getD .init (by decide)

theorem sent_jobs_issued_jobState :
    Reachable PowLib.lenient 8 ⟨0, 0, 0, ""⟩ jobState ∧
    ∀ J, .job J ∈ jobState.pool.sentMessages →
      ∃ J₀ ∈ issuedJobs ⟨0, 0, 0, ""⟩ jobState.pool.trace, J = { J₀ with difficulty := 8 } :=
  ⟨reachable_jobState, sent_jobs_issued reachable_jobState⟩

/-- The job the sample worker receives: the adopted template under job id 1000, at the port difficulty 8. -/
example : jobState.pool.sentMessages = [.job ⟨1, 1000, 8, "00"⟩] := by decide

end GrinPool
