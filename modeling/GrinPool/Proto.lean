import GrinPool.HashMap

/-!
# Jobs, shares and worker records

`JobTemplate` and `SubmitParams` are the wire types of `proto.rs`, and `Worker` is the per-connection
record of `worker.rs`. Neither file is among the sources, so each type has the fields `pool.rs` reads or
writes, with the widths of the grin stratum protocol (`u64` heights, ids and nonces, `u32` edge bits).
Fields that `pool.rs` only prints (`login`, `requested_job`, the status's `id` and `height`) are left out.
The status counters are `Nat`: they only ever grow by one per share.

The worker's methods are modelled from the spec, `worker.rs` being absent. `send_ok`, `send_err` and
`send_job` append to `sent`, what was written to the worker's stream. A job push can fail (§4.2): the
connection takes nothing, the worker still needs a job, and `send_jobs` pushes again on a later tick;
`pushFailed` is not a field of worker.rs but the record of that outcome. `add_shares` appends one `Shares`
record to the tally and `reset_worker_shares` starts a new tally: worker.rs keeps per-edge-bits counts,
which are sums over these records. `process_messages` applies an `Inbound`, the effect of whatever the
worker sent (a login, a job request, submitted shares, a broken stream).
-/

namespace GrinPool

/-- `JobTemplate`: a unit of work from the upstream server. -/
structure JobTemplate where
  height : UInt64
  jobId : UInt64
  difficulty : UInt64
  prePow : String
deriving DecidableEq, Repr

/-- `SubmitParams`: a share as a worker submits it. -/
structure SubmitParams where
  height : UInt64
  jobId : UInt64
  edgeBits : UInt32
  nonce : UInt64
  pow : List UInt64
deriving DecidableEq, Repr

/-- `WorkerStatus`: the counters `process_shares` bumps and the difficulty it gates on. -/
structure WorkerStatus where
  accepted : Nat
  rejected : Nat
  stale : Nat
  difficulty : UInt64
deriving DecidableEq, Repr

/-- One `add_shares(edge_bits, accepted, rejected, stale)` call. -/
structure Shares where
  edgeBits : UInt32
  accepted : Nat
  rejected : Nat
  stale : Nat
deriving DecidableEq, Repr

/-- `WorkerShares`: the tally since the last `reset_worker_shares(height, difficulty)`. -/
structure WorkerShares where
  height : UInt64
  difficulty : UInt64
  shares : List Shares
deriving DecidableEq, Repr

/-- What the pool writes to a worker's stream. -/
inductive Reply
  | ok (method : String)
  | err (method : String) (message : String) (code : Int)
  | job (job : JobTemplate)
deriving DecidableEq, Repr

/-- The effect of one `process_messages` call: the worker's identity, login and job request after the
messages it sent, whether its stream broke, and the shares it submitted. -/
structure Inbound where
  id : Nat
  rigId : String
  fullId : String
  authenticated : Bool
  needsJob : Bool
  error : Bool
  shares : List SubmitParams

/-- A worker connection. `stream` names the connection the record owns; `fullId` is what
`worker.full_id()` returns; `shares` is the queue `get_shares` hands over. -/
structure Worker where
  stream : Nat
  id : Nat
  rigId : String
  fullId : String
  authenticated : Bool
  needsJob : Bool
  pushFailed : Bool
  height : UInt64
  status : WorkerStatus
  workerShares : WorkerShares
  error : Bool
  shares : List SubmitParams
  sent : List Reply
deriving DecidableEq, Repr

namespace Worker

/-- Modelled from the spec: `Worker::new(id, stream)`, not logged in, no job asked for, nothing
counted, queued or sent. -/
def new (id stream : Nat) : Worker :=
  ⟨stream, id, "", "", false, false, false, 0, ⟨0, 0, 0, 0⟩, ⟨0, 0, []⟩, false, [], []⟩

/-- Modelled from the spec: `set_difficulty`. -/
@[simps!]
def setDifficulty (w : Worker) (difficulty : UInt64) : Worker :=
  { w with status := { w.status with difficulty := difficulty } }

/-- Modelled from the spec: `set_height`. -/
@[simps!]
def setHeight (w : Worker) (height : UInt64) : Worker := { w with height := height }

/-- Modelled from the spec: `add_shares(edge_bits, accepted, rejected, stale)`. -/
@[simps!]
def addShares (w : Worker) (edgeBits : UInt32) (accepted rejected stale : Nat) : Worker :=
  { w with workerShares := { w.workerShares with
      shares := w.workerShares.shares ++ [⟨edgeBits, accepted, rejected, stale⟩] } }

/-- Modelled from the spec: `reset_worker_shares(height, difficulty)`. -/
@[simps!]
def resetWorkerShares (w : Worker) (height difficulty : UInt64) : Worker :=
  { w with workerShares := ⟨height, difficulty, []⟩ }

/-- Modelled from the spec: `send_ok` and `send_err` write `r` to the worker's stream. -/
@[simps!]
def send (w : Worker) (r : Reply) : Worker := { w with sent := w.sent ++ [r] }

/-- Modelled from the spec: `send_job`, the job goes out with the worker's own difficulty, and the
worker no longer needs one; when the connection refuses the write (`failed`), nothing goes out and the
worker still needs a job, for `send_jobs` to push it again (§4.2). -/
@[simps!]
def sendJob (w : Worker) (job : JobTemplate) (failed : Bool) : Worker :=
  { w with needsJob := failed, pushFailed := failed,
           sent := w.sent ++ if failed then [] else [.job { job with difficulty := w.status.difficulty }] }

/-- Modelled from the spec: `process_messages`. -/
@[simps!]
def processMessages (w : Worker) (m : Inbound) : Worker :=
  { w with id := m.id, rigId := m.rigId, fullId := m.fullId, authenticated := m.authenticated,
           needsJob := m.needsJob, error := m.error, shares := w.shares ++ m.shares }

end Worker

end GrinPool
