import GrinPool.Pipeline

/-!
# The pool and the steps of its loop

`Pool` is the struct of lines 111-120 less what only logging reads (`id`) and with the configuration cut
down to the one value the steps read, the port difficulty. Each step of the main loop (lines 154-189) and
the acceptor thread's insertion (line 72) is a function here, with the iteration order of every loop the
order of the registry's entries. `trace` is not a field of the source: it is the history of the run
(`Event`), which the steps extend with what they log, submit, adopt and decide. Nor is `dropped`: the share
records that left a worker's tally without being logged, when the tally was reset on a re-keying (line 228),
when its record was overwritten in the registry, or when `clean_workers` removed it.

The environment chooses which job pushes fail (`refused`, the streams that refuse the write), and
`process_shares` has no result when it panics at line 397.

The upstream session (server.rs) is not among the sources. Its `connect` and `process_messages` reach the
pool only through `server.job` and through updates to the workers' status, and the spec's contract (§4.4)
is what `processServerMessages` models.
-/

namespace GrinPool

/-- The upstream session as the pool reads it: the template it currently offers. -/
structure Server where
  job : JobTemplate
deriving DecidableEq, Repr

/-- The pool's state. -/
structure Pool where
  job : JobTemplate
  /-- `config.workers.port_difficulty.difficulty`. -/
  portDifficulty : UInt64
  server : Server
  difficulty : UInt64
  workers : HashMap String Worker
  duplicates : HashMap (List UInt64) Nat
  jobVersions : HashMap UInt64 String
  trace : List Event
  dropped : List Shares
deriving DecidableEq

namespace Pool

variable {Header : Type}

/-- `Pool::new(config)`, where `JobTemplate::new()` (proto.rs) is given as `job`: the pool and the server
start from the same template. -/
def new (portDifficulty : UInt64) (job : JobTemplate) : Pool :=
  ⟨job, portDifficulty, ⟨job⟩, 8, .empty, .empty, .empty, [], []⟩

/-- `Pool::run` before its loop: the default difficulty becomes the port's (line 150). -/
def start (portDifficulty : UInt64) (job : JobTemplate) : Pool :=
  { new portDifficulty job with difficulty := portDifficulty }

/-- The tally of the record under `k`, which an insertion under `k` overwrites. -/
def tallyAt (m : HashMap String Worker) (k : String) : List Shares :=
  ((m.get? k).map (·.workerShares.shares)).getD []

/-- `accept_workers` (lines 68-72): a new worker on `stream`, at the port's difficulty, inserted under
the random key `initialId`. -/
def acceptWorker (initialId : UInt32) (stream : Nat) (p : Pool) : Pool :=
  { p with workers :=
      p.workers.insert (toString initialId) ((Worker.new 0 stream).setDifficulty p.portDifficulty)
           dropped := p.dropped ++ tallyAt p.workers (toString initialId) }

/-- Modelled from the spec: `server.connect()` and `server.process_messages(&mut self.workers)`
(server.rs is absent) leave the server offering `job` and apply the upstream's answers to the workers'
status (`status`); they neither add nor remove workers. -/
def processServerMessages (job : JobTemplate) (status : String → WorkerStatus → WorkerStatus)
    (p : Pool) : Pool :=
  { p with server := ⟨job⟩
           workers := (p.workers.iterMut () fun _ k w => ((), { w with status := status k w.status })).2 }

/-- The body of `broadcast_job`'s loop (lines 432-439). -/
def broadcastOne (p : Pool) (refused : List Nat) (t : List Event) (w : Worker) : List Event × Worker :=
  if w.authenticated then
    let w := (w.setDifficulty p.portDifficulty).setHeight p.job.height
    (t ++ [.logShares w.workerShares],
      (w.sendJob p.job (w.stream ∈ refused)).resetWorkerShares p.job.height p.difficulty)
  else (t, w)

/-- `broadcast_job` (lines 420-442). -/
def broadcastJob (refused : List Nat) (p : Pool) : Pool :=
  let r := p.workers.iterMut p.trace fun t _ w => p.broadcastOne refused t w
  { p with trace := r.1, workers := r.2 }

/-- `accept_new_job` (lines 261-281). -/
def acceptNewJob (refused : List Nat) (p : Pool) : Pool :=
  if p.job.prePow ≠ p.server.job.prePow then
    let newHeight := decide (p.job.height ≠ p.server.job.height)
    let newJob := { p.server.job with jobId := p.server.job.height * 1000 + p.server.job.jobId }
    let p := broadcastJob refused { p with job := newJob, trace := p.trace ++ [.adopt p.server.job newHeight] }
    let p := if newHeight then { p with duplicates := .empty, jobVersions := .empty } else p
    { p with jobVersions := p.jobVersions.insert p.job.jobId p.job.prePow }
  else p

/-- The first loop of `process_worker_messages` (lines 222-230): read each worker's messages; a worker
whose full id is no longer its key is noted, and its tally reset. -/
def readWorker (p : Pool) (inbound : String → Inbound) (ids : List String) (k : String) (w : Worker) :
    List String × Worker :=
  let w := w.processMessages (inbound k)
  if k ≠ w.fullId then (ids ++ [k], w.resetWorkerShares p.job.height p.difficulty) else (ids, w)

/-- One turn of the second loop (lines 233-239): move the worker under `k` to its full id. -/
def rekey (m : HashMap String Worker) (k : String) : HashMap String Worker :=
  match m.remove k with
  | (none, m) => m
  | (some w, m) => m.insert w.fullId w

/-- The tallies the second loop overwrites, turn by turn: line 237 inserts under the full id, over the
record already there. -/
def rekeyLost : HashMap String Worker → List String → List Shares
  | _, [] => []
  | m, k :: ks =>
    (match m.remove k with
     | (none, _) => []
     | (some w, m) => tallyAt m w.fullId) ++ rekeyLost (rekey m k) ks

/-- `process_worker_messages` (lines 219-241). -/
def processWorkerMessages (inbound : String → Inbound) (p : Pool) : Pool :=
  let r := p.workers.iterMut [] (p.readWorker inbound)
  { p with workers := r.1.foldl rekey r.2
           dropped := p.dropped ++ r.1.flatMap (tallyAt p.workers) ++ rekeyLost r.2 r.1 }

/-- The loop of `process_shares` over every worker, the duplicate set and the history going from worker to
worker, as if no share panicked. -/
def sharePass (lib : PowLib Header) (p : Pool) : Pool :=
  let r := p.workers.iterMut (p.duplicates, p.trace) (shareLoopBody lib p.job p.jobVersions)
  { p with duplicates := r.1.1, trace := r.1.2, workers := r.2 }

/-- `process_shares` (lines 286-418): the pass, which has no result when a share it accepts has height 0,
where line 397 panics. -/
def processShares (lib : PowLib Header) (p : Pool) : Option Pool :=
  let q := p.sharePass lib
  if .panic ∈ q.trace.drop p.trace.length then none else some q

/-- The body of `send_jobs`'s loop (lines 246-257). -/
def sendJobOne (p : Pool) (refused : List Nat) (t : List Event) (w : Worker) : List Event × Worker :=
  if w.needsJob ∧ w.authenticated then
    let w := (w.setDifficulty p.difficulty).setHeight p.job.height
    (t ++ [.logShares w.workerShares],
      (w.resetWorkerShares p.job.height p.difficulty).sendJob p.job (w.stream ∈ refused))
  else (t, w)

/-- `send_jobs` (lines 243-259). -/
def sendJobs (refused : List Nat) (p : Pool) : Pool :=
  let r := p.workers.iterMut p.trace fun t _ w => p.sendJobOne refused t w
  { p with trace := r.1, workers := r.2 }

/-- `clean_workers` (lines 445-465): the pool without the workers in error, and how many remain. -/
def cleanWorkers (p : Pool) : Pool × Nat :=
  let dead := (p.workers.entries.filter (·.2.error)).map Prod.fst
  let ws := dead.foldl (fun m k => (m.remove k).2) p.workers
  ({ p with workers := ws, dropped := p.dropped ++ dead.flatMap (tallyAt p.workers) }, ws.len)

end Pool

end GrinPool
