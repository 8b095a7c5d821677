import GrinPool.Tally

/-!
# The acceptor thread against the loop

The acceptor thread registers a connection whenever it accepts one (line 72), and the loop holds the
registry's lock for each of its steps, so a registration lands between any two of them. For four of the steps
it does not matter where: a new worker is not logged in, asks for no job, has queued no share and is not in
error, so `broadcast_job`, `process_shares`, `send_jobs` and `clean_workers` pass over it unchanged, and
`accept_new_job`, `process_shares`, `send_jobs` and `clean_workers` commute with a registration under a key
not in use (`accept_commutes_with_loop_steps`). The other two steps read the new worker:
`process_server_messages` applies the upstream's status updates to it and `process_worker_messages` reads its
messages, so a worker registered before them is served a tick earlier. A registration under a key in use
overwrites a record, and commutes with none of them.

Proof. A loop over the registry with a new key, which `insert` adds last, is the loop over the old registry
and then one turn on the new worker (`HashMap.iterMut_insert_of_not_mem`), a turn each of the four loop bodies
makes without a change.
-/

namespace GrinPool

variable {Header : Type}

namespace Pool

/-- The worker `accept_workers` registers (lines 67-68). -/
def newWorker (p : Pool) (stream : Nat) : Worker := (Worker.new 0 stream).setDifficulty p.portDifficulty

theorem tallyAt_of_not_mem {m : HashMap String Worker} {k : String} (h : k ∉ m.keys) : tallyAt m k = [] := by
  simp [tallyAt, HashMap.get?_eq_none_iff.2 h]

theorem acceptWorker_of_not_mem {q : Pool} {n : UInt32} (h : toString n ∉ q.workers.keys) (st : Nat) :
    q.acceptWorker n st = { q with workers := q.workers.insert (toString n) (q.newWorker st) } := by
  simp [acceptWorker, tallyAt_of_not_mem h, newWorker]

section Fresh

variable (p : Pool) {n : UInt32} (hn : toString n ∉ p.workers.keys) (st : Nat)
include hn

/-- A loop whose body passes the new worker by unchanged runs as on the registry without it, the new worker
kept last. -/
theorem iterMut_insert_newWorker {σ : Type} (s : σ) (f : σ → String → Worker → σ × Worker)
    (hf : ∀ s, f s (toString n) (p.newWorker st) = (s, p.newWorker st)) :
    (p.workers.insert (toString n) (p.newWorker st)).iterMut s f =
      ((p.workers.iterMut s f).1, (p.workers.iterMut s f).2.insert (toString n) (p.newWorker st)) := by
  rw [HashMap.iterMut_insert_of_not_mem _ hn, hf]

theorem not_mem_keys_iterMut {σ : Type} (s : σ) (f : σ → String → Worker → σ × Worker) :
    toString n ∉ (p.workers.iterMut s f).2.keys := by
  rwa [HashMap.keys_iterMut]

theorem broadcastJob_acceptWorker (refused : List Nat) :
    (p.acceptWorker n st).broadcastJob refused = (p.broadcastJob refused).acceptWorker n st := by
  rw [acceptWorker_of_not_mem hn, acceptWorker_of_not_mem (p.not_mem_keys_iterMut hn _ _)]
  have h := p.iterMut_insert_newWorker hn st p.trace (fun t _ w => p.broadcastOne refused t w) fun t => by
    simp [broadcastOne, newWorker, Worker.new]
  exact congrArg₂ (fun t ws => { p with trace := t, workers := ws }) (congrArg Prod.fst h) (congrArg Prod.snd h)

theorem acceptNewJob_acceptWorker (refused : List Nat) :
    (p.acceptWorker n st).acceptNewJob refused = (p.acceptNewJob refused).acceptWorker n st := by
  have key := broadcastJob_acceptWorker { p with
      job := { p.server.job with jobId := p.server.job.height * 1000 + p.server.job.jobId },
      trace := p.trace ++ [.adopt p.server.job (decide (p.job.height ≠ p.server.job.height))] } hn st refused
  unfold acceptNewJob
  split
  · rename_i h
    rw [if_pos (show p.job.prePow ≠ p.server.job.prePow from h)]
    dsimp only
    split
    · rename_i hh
      rw [if_pos (show decide (p.job.height ≠ p.server.job.height) = true from hh)]
      exact congrArg (fun q : Pool => { q with duplicates := HashMap.empty, jobVersions :=
        (HashMap.empty : HashMap UInt64 String).insert q.job.jobId q.job.prePow }) key
    · rename_i hh
      rw [if_neg (show ¬decide (p.job.height ≠ p.server.job.height) = true from hh)]
      exact congrArg (fun q : Pool => { q with jobVersions := q.jobVersions.insert q.job.jobId q.job.prePow }) key
  · rename_i h
    rw [if_neg (show ¬p.job.prePow ≠ p.server.job.prePow from h)]

theorem sharePass_acceptWorker (lib : PowLib Header) :
    (p.acceptWorker n st).sharePass lib = (p.sharePass lib).acceptWorker n st := by
  rw [acceptWorker_of_not_mem hn, acceptWorker_of_not_mem (p.not_mem_keys_iterMut hn _ _)]
  have h := p.iterMut_insert_newWorker hn st (p.duplicates, p.trace) (shareLoopBody lib p.job p.jobVersions)
    fun _ => rfl
  exact congrArg₂ (fun r ws => { p with duplicates := r.1, trace := r.2, workers := ws })
    (congrArg Prod.fst h) (congrArg Prod.snd h)

/-- The new worker queued no share, so the pass panics with it exactly when it panics without it. -/
theorem processShares_acceptWorker (lib : PowLib Header) :
    (p.acceptWorker n st).processShares lib = (p.processShares lib).map (acceptWorker n st) := by
  have ht : ∀ q : Pool, (q.acceptWorker n st).trace = q.trace := fun _ => rfl
  simp only [processShares, p.sharePass_acceptWorker hn st lib, ht]
  split <;> rfl

theorem sendJobs_acceptWorker (refused : List Nat) :
    (p.acceptWorker n st).sendJobs refused = (p.sendJobs refused).acceptWorker n st := by
  rw [acceptWorker_of_not_mem hn, acceptWorker_of_not_mem (p.not_mem_keys_iterMut hn _ _)]
  have h := p.iterMut_insert_newWorker hn st p.trace (fun t _ w => p.sendJobOne refused t w) fun t => by
    simp [sendJobOne, newWorker, Worker.new]
  exact congrArg₂ (fun t ws => { p with trace := t, workers := ws }) (congrArg Prod.fst h) (congrArg Prod.snd h)

theorem cleanWorkers_acceptWorker :
    (p.acceptWorker n st).cleanWorkers = (p.cleanWorkers.1.acceptWorker n st, p.cleanWorkers.2 + 1) := by
  have hk : toString n ∉ p.cleanWorkers.1.workers.keys := fun h => hn <| by
    obtain ⟨w, hw⟩ := HashMap.mem_keys_iff.1 h
    rw [cleanWorkers_entries] at hw
    exact HashMap.mem_keys_iff.2 ⟨w, (List.mem_filter.1 hw).1⟩
  rw [acceptWorker_of_not_mem hn, acceptWorker_of_not_mem hk]
  have hws : ({ p with workers := p.workers.insert (toString n) (p.newWorker st) } : Pool).cleanWorkers.1.workers =
      p.cleanWorkers.1.workers.insert (toString n) (p.newWorker st) := by
    refine HashMap.ext ?_
    rw [cleanWorkers_entries, HashMap.entries_insert_of_not_mem hn, HashMap.entries_insert_of_not_mem hk,
      List.filter_append, cleanWorkers_entries]
    rfl
  have hdead : (((p.workers.insert (toString n) (p.newWorker st)).entries.filter (·.2.error)).map Prod.fst).flatMap
      (tallyAt (p.workers.insert (toString n) (p.newWorker st))) =
      ((p.workers.entries.filter (·.2.error)).map Prod.fst).flatMap (tallyAt p.workers) := by
    have hf : (p.workers.insert (toString n) (p.newWorker st)).entries.filter (·.2.error) =
        p.workers.entries.filter (·.2.error) := by
      rw [HashMap.entries_insert_of_not_mem hn, List.filter_append]
      simp [newWorker, Worker.new]
    rw [hf, flatMap_tallyAt _ fun e he => (List.mem_filter.1 he).1]
    refine flatMap_tallyAt _ fun e he => HashMap.mem_entries_insert.2 (.inr ⟨fun h => ?_, (List.mem_filter.1 he).1⟩)
    exact hn (h ▸ HashMap.mem_keys_iff.2 ⟨e.2, (List.mem_filter.1 he).1⟩)
  refine Prod.ext (congrArg₂ (fun ws d => { p with workers := ws, dropped := d }) hws
    (congrArg (p.dropped ++ ·) hdead)) ?_
  show ({ p with workers := p.workers.insert (toString n) (p.newWorker st) } : Pool).cleanWorkers.1.workers.entries.length =
    p.cleanWorkers.1.workers.entries.length + 1
  rw [hws]
  exact congrArg List.length (HashMap.entries_insert_of_not_mem hk _) |>.trans (List.length_append _ _)

end Fresh

end Pool

/-- **A registration under a key not in use commutes with `accept_new_job`, `process_shares`, `send_jobs` and
`clean_workers`**, whichever pushes fail: wherever among these steps the acceptor thread's insertion lands, the
pool ends the same, `process_shares` panics with the new worker exactly when it panics without it, and
`clean_workers` counts the new worker among those it keeps. -/
theorem accept_commutes_with_loop_steps (lib : PowLib Header) (p : Pool) (n : UInt32) (st : Nat)
    (refused : List Nat) (hn : toString n ∉ p.workers.keys) :
    (p.acceptWorker n st).acceptNewJob refused = (p.acceptNewJob refused).acceptWorker n st ∧
    (p.acceptWorker n st).processShares lib = (p.processShares lib).map (Pool.acceptWorker n st) ∧
    (p.acceptWorker n st).sendJobs refused = (p.sendJobs refused).acceptWorker n st ∧
    (p.acceptWorker n st).cleanWorkers = (p.cleanWorkers.1.acceptWorker n st, p.cleanWorkers.2 + 1) :=
  ⟨p.acceptNewJob_acceptWorker hn st refused, p.processShares_acceptWorker hn st lib,
    p.sendJobs_acceptWorker hn st refused, p.cleanWorkers_acceptWorker hn st⟩

theorem accept_commutes_with_loop_steps_sample :
    toString (8 : UInt32) ∉ sampleState.pool.workers.keys ∧
    ((sampleState.pool.acceptWorker 8 2).acceptNewJob [1] = (sampleState.pool.acceptNewJob [1]).acceptWorker 8 2 ∧
    (sampleState.pool.acceptWorker 8 2).processShares PowLib.lenient =
      (sampleState.pool.processShares PowLib.lenient).map (Pool.acceptWorker 8 2) ∧
    (sampleState.pool.acceptWorker 8 2).sendJobs [1] = (sampleState.pool.sendJobs [1]).acceptWorker 8 2 ∧
    (sampleState.pool.acceptWorker 8 2).cleanWorkers =
      (sampleState.pool.cleanWorkers.1.acceptWorker 8 2, sampleState.pool.cleanWorkers.2 + 1)) :=
  ⟨by decide, accept_commutes_with_loop_steps PowLib.lenient sampleState.pool 8 2 [1] (by decide)⟩

end GrinPool
