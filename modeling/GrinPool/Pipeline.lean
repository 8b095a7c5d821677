import GrinPool.Pow

/-!
# The share pipeline

One submitted share goes through `process_shares` (lines 292-413) by a chain of checks, each of which
either ends the share's processing or passes it on: duplicate, proof size, staleness, job version, header
reconstruction, `verify_size`, and the two difficulty gates. `shareExit` is the chain: it names the exit the
share leaves by. What each exit does to the worker is read off three tables, one line of the source each:
the status counter it bumps (`Exit.counter`), the `add_shares` call it makes (`Exit.addShares?`) and the
reply it writes (`Exit.reply?`). `processShare` puts the two together with the two effects outside the
worker: the pow vector enters the duplicate set unless it was already there, and an accepted share is
submitted upstream under its height-stripped job id (`submitEvent`). That job id is `share.job_id %
share.height` (line 397), a division by zero when the height is 0: then the thread panics, after the share
was credited and acknowledged and before anything is submitted.

The run-level theorems need the history of the run, so `processShare` also records each share's exit in
`Event.drain`; `Event` holds the other entries of that history too.
-/

namespace GrinPool

/-- The exits of a share from `process_shares`, in the order of the checks. -/
inductive Exit
  | duplicate
  | invalidSize
  | stale
  | unknownJob
  | badHeader
  | unverified
  | lowDifficulty
  | belowDifficulty
  | accepted
deriving DecidableEq, Repr

/-- The three status counters. -/
inductive Counter
  | accepted
  | rejected
  | stale
deriving DecidableEq, Repr

/-- `status.accepted += 1`, `status.rejected += 1` or `status.stale += 1`. -/
def Counter.bump : Counter → WorkerStatus → WorkerStatus
  | .accepted, s => { s with accepted := s.accepted + 1 }
  | .rejected, s => { s with rejected := s.rejected + 1 }
  | .stale, s => { s with stale := s.stale + 1 }

/-- The (accepted, rejected, stale) triple that counts one share on a counter. -/
def Counter.triple : Counter → Nat × Nat × Nat
  | .accepted => (1, 0, 0)
  | .rejected => (0, 1, 0)
  | .stale => (0, 0, 1)

/-- The status counter each exit bumps (lines 304, 314, 323, 332, 344, 354, 376, 382, 388). -/
def Exit.counter : Exit → Counter
  | .accepted => .accepted
  | .stale => .stale
  | _ => .rejected

/-- The `add_shares` triple each exit passes (lines 305, 324, 333, 345, 355, 377, 383, 389); the
invalid-size exit has its call commented out (line 315). -/
def Exit.addShares? : Exit → Option (Nat × Nat × Nat)
  | .duplicate => some (0, 1, 0)
  | .invalidSize => none
  | .stale => some (0, 0, 1)
  | .unknownJob => some (0, 1, 0)
  | .badHeader => some (0, 1, 0)
  | .unverified => some (0, 1, 0)
  | .lowDifficulty => some (0, 1, 0)
  | .belowDifficulty => some (0, 1, 0)
  | .accepted => some (1, 0, 0)

/-- The reply each exit writes (lines 306, 316, 325, 346, 356, 378, 384, 390); the unknown-job exit
writes none. -/
def Exit.reply? : Exit → Option Reply
  | .duplicate => some (.err "submit" "Failed to validate solution" (-32502))
  | .invalidSize => some (.err "submit" "Invalid POW size" (-32502))
  | .stale => some (.err "submit" "Solution submitted too late" (-32503))
  | .unknownJob => none
  | .badHeader => some (.err "submit" "Failed to validate solution" (-32502))
  | .unverified => some (.err "submit" "Failed to validate solution" (-32502))
  | .lowDifficulty => some (.err "submit" "Rejected low difficulty solution" (-32502))
  | .belowDifficulty => some (.err "submit" "Failed to validate solution" (-32502))
  | .accepted => some (.ok "submit")

/-- An entry of a run's history. -/
inductive Event
  /-- `accept_new_job` adopted the upstream template `job` (its job id not yet prefixed);
  `newHeight` when its height differs from the previous job's. -/
  | adopt (job : JobTemplate) (newHeight : Bool)
  /-- A share from the worker on `stream` left the pipeline by `exit`. -/
  | drain (stream : Nat) (share : SubmitParams) (exit : Exit)
  /-- `server.submit_share(share, full_worker_id)`. -/
  | submit (share : SubmitParams) (fullWorkerId : String)
  /-- `error!(LOGGER, "{:?}", worker.worker_shares)`: a tally logged for logstash. -/
  | logShares (tally : WorkerShares)
  /-- `share.job_id % share.height` divided by zero (line 397): the thread panics. -/
  | panic
deriving DecidableEq, Repr

variable {Header : Type}

/-- The unscaled difficulty of a share's proof (lines 368-372). -/
def shareDifficulty (lib : PowLib Header) (share : SubmitParams) : UInt64 :=
  lib.toDifficultyUnscaled ⟨share.edgeBits.toUInt8, share.pow⟩

/-- The exit of `share` given the job, the job versions, the duplicate set and the worker's difficulty
(lines 296-391). -/
def shareExit (lib : PowLib Header) (job : JobTemplate) (jobVersions : HashMap UInt64 String)
    (duplicates : HashMap (List UInt64) Nat) (difficulty : UInt64) (share : SubmitParams) : Exit :=
  if duplicates.containsKey share.pow then .duplicate
  else if share.edgeBits < 29 ∨ share.edgeBits = 30 then .invalidSize
  else if share.height ≠ job.height then .stale
  else match jobVersions.get? share.jobId with
    | none => .unknownJob
    | some prePow =>
      match blockHeader lib prePow share.edgeBits.toUInt8 share.nonce share.pow with
      | .error _ => .badHeader
      | .ok bh =>
        if lib.verifySize bh = false then .unverified
        else
          if shareDifficulty lib share < 1 then .lowDifficulty
          else if shareDifficulty lib share < difficulty then .belowDifficulty
          else .accepted

/-- What an exit does to the worker: its counter, its `add_shares` call, its reply. -/
def Worker.settle (w : Worker) (x : Exit) (edgeBits : UInt32) : Worker :=
  let w := { w with status := x.counter.bump w.status }
  let w := match x.addShares? with
    | some (a, r, s) => w.addShares edgeBits a r s
    | none => w
  match x.reply? with
  | some r => w.send r
  | none => w

/-- `format!("{}-{}", worker.id(), worker.rig_id())`, the name a share is submitted under. -/
def fullWorkerId (w : Worker) : String := toString w.id ++ "-" ++ w.rigId

/-- Lines 396-398 for an accepted share: `share.job_id % share.height` strips the height prefix from the
job id, and the share goes to `server.submit_share` under the worker's name; at height 0 the `%` panics. -/
def submitEvent (share : SubmitParams) (fullWorkerId : String) : Event :=
  if share.height = 0 then .panic else .submit { share with jobId := share.jobId % share.height } fullWorkerId

/-- What one share changes: the duplicate set, the history and the worker. -/
structure ShareCtx where
  duplicates : HashMap (List UInt64) Nat
  trace : List Event
  worker : Worker

/-- The body of `for mut share in shares` (lines 292-413). -/
def processShare (lib : PowLib Header) (job : JobTemplate) (jobVersions : HashMap UInt64 String)
    (c : ShareCtx) (share : SubmitParams) : ShareCtx :=
  let x := shareExit lib job jobVersions c.duplicates c.worker.status.difficulty share
  { duplicates :=
      if c.duplicates.containsKey share.pow then c.duplicates
      else c.duplicates.insert share.pow c.worker.id
    trace := c.trace ++ .drain c.worker.stream share x ::
      if x = .accepted then [submitEvent share (fullWorkerId c.worker)] else []
    worker := c.worker.settle x share.edgeBits }

/-- `worker.get_shares()` and the pipeline over what it returns (lines 289-415). -/
def processWorkerShares (lib : PowLib Header) (job : JobTemplate) (jobVersions : HashMap UInt64 String)
    (duplicates : HashMap (List UInt64) Nat) (trace : List Event) (w : Worker) : ShareCtx :=
  w.shares.foldl (processShare lib job jobVersions) ⟨duplicates, trace, { w with shares := [] }⟩

/-- The body of `process_shares`'s loop over the workers: one worker's shares, with the duplicate set
and the history handed on to the next worker. -/
def shareLoopBody (lib : PowLib Header) (job : JobTemplate) (jobVersions : HashMap UInt64 String)
    (acc : HashMap (List UInt64) Nat × List Event) (_ : String) (w : Worker) :
    (HashMap (List UInt64) Nat × List Event) × Worker :=
  let c := processWorkerShares lib job jobVersions acc.1 acc.2 w
  ((c.duplicates, c.trace), c.worker)

/-! ### The exit tables -/

theorem Exit.addShares?_eq (x : Exit) :
    x.addShares? = if x = .invalidSize then none else some x.counter.triple := by
  cases x <;> rfl

theorem Exit.reply?_eq_ok_iff (x : Exit) (m : String) : x.reply? = some (.ok m) ↔ x = .accepted ∧ m = "submit" := by
  cases x <;> simp [Exit.reply?, eq_comm]

theorem Exit.reply?_err (x : Exit) (hx : x ≠ .accepted) (hu : x ≠ .unknownJob) :
    ∃ msg code, x.reply? = some (.err "submit" msg code) := by
  cases x <;> simp_all [Exit.reply?]

/-! ### One share -/

@[simp] theorem Counter.bump_difficulty (c : Counter) (s : WorkerStatus) :
    (c.bump s).difficulty = s.difficulty := by
  cases c <;> rfl

@[simp] theorem Counter.bump_rejected (c : Counter) (s : WorkerStatus) :
    (c.bump s).rejected = s.rejected + c.triple.2.1 := by
  cases c <;> rfl

@[simp] theorem Counter.bump_stale (c : Counter) (s : WorkerStatus) :
    (c.bump s).stale = s.stale + c.triple.2.2 := by
  cases c <;> rfl

/-- `settle` touches the status, the tally and the stream's output, and nothing else. -/
theorem Worker.settle_eq (w : Worker) (x : Exit) (e : UInt32) :
    w.settle x e = { w with
      status := x.counter.bump w.status
      workerShares := { w.workerShares with
        shares := w.workerShares.shares ++ (x.addShares?.map fun t => ⟨e, t.1, t.2.1, t.2.2⟩).toList }
      sent := w.sent ++ x.reply?.toList } := by
  cases x <;> simp [Worker.settle, Exit.addShares?, Exit.reply?, Worker.addShares, Worker.send]

theorem processShare_duplicates (lib : PowLib Header) (job : JobTemplate)
    (jobVersions : HashMap UInt64 String) (c : ShareCtx) (share : SubmitParams) :
    (processShare lib job jobVersions c share).duplicates =
      if c.duplicates.containsKey share.pow then c.duplicates
      else c.duplicates.insert share.pow c.worker.id := rfl

theorem processShare_trace (lib : PowLib Header) (job : JobTemplate)
    (jobVersions : HashMap UInt64 String) (c : ShareCtx) (share : SubmitParams) :
    (processShare lib job jobVersions c share).trace =
      let x := shareExit lib job jobVersions c.duplicates c.worker.status.difficulty share
      c.trace ++ .drain c.worker.stream share x ::
        if x = .accepted then [submitEvent share (fullWorkerId c.worker)] else [] := rfl

theorem processShare_worker (lib : PowLib Header) (job : JobTemplate)
    (jobVersions : HashMap UInt64 String) (c : ShareCtx) (share : SubmitParams) :
    (processShare lib job jobVersions c share).worker =
      c.worker.settle (shareExit lib job jobVersions c.duplicates c.worker.status.difficulty share)
        share.edgeBits := rfl

theorem UInt64.ne_zero_of_one_le {n : UInt64} (h : 1 ≤ n) : n ≠ 0 := fun h0 => absurd (h0 ▸ h) (by decide)

theorem submitEvent_of_ne_zero {share : SubmitParams} (h : share.height ≠ 0) (n : String) :
    submitEvent share n = .submit { share with jobId := share.jobId % share.height } n := if_neg h

theorem submitEvent_ne_panic_iff (share : SubmitParams) (n : String) :
    submitEvent share n ≠ .panic ↔ share.height ≠ 0 := by
  unfold submitEvent
  split <;> simp_all

theorem submitEvent_eq_submit_iff {share sh : SubmitParams} {n n' : String} :
    submitEvent share n = .submit sh n' ↔
      share.height ≠ 0 ∧ sh = { share with jobId := share.jobId % share.height } ∧ n' = n := by
  unfold submitEvent
  split <;> simp_all [eq_comm]

end GrinPool
