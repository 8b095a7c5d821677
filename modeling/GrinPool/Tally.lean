import GrinPool.Registry

/-!
# The workers' share tallies

Each share `process_shares` drains makes at most one `add_shares` call (`Event.recorded` reads it off the
share's exit), which appends one record to its worker's tally. A tally leaves the worker in two ways: it is
logged for logstash and then reset, by `broadcast_job` (line 436) and `send_jobs` (line 253); or it is
dropped, by the reset of a re-keyed worker (line 228), by the removal of the worker, or by an overwrite in
the registry. `Pool.dropped` collects what is dropped.

`logged_tallies_dropped_perm_addShares` is the accounting: in every reachable state, what was logged, what
the registered workers still hold and what was dropped are, as a multiset, exactly the `add_shares` calls of
the run, and only a registration, a read of the workers' messages and `clean_workers` drop anything. So no
record is logged twice or without its call, and a record that is never logged went with a reset, a removal
or an overwrite: a worker removed by `clean_workers` takes its tally with it (`sample_tally_lost`).

A worker promoted to its full id starts a new tally at the current height and difficulty, its old one
dropped without being logged, and keeps its status counters (`promoted_worker_tally_reset`).
-/

namespace GrinPool

variable {Header : Type}

/-- The `add_shares` call of an entry: the one a drained share's exit makes, with its edge bits. -/
def Event.recorded : Event → List Shares
  | .drain _ s x => (x.addShares?.map fun t => ⟨s.edgeBits, t.1, t.2.1, t.2.2⟩).toList
  | _ => []

/-- Every `add_shares` call of a history, in order. -/
def addSharesCalls (t : List Event) : List Shares := t.flatMap Event.recorded

/-- The records of a tally an entry logs. -/
def Event.logged : Event → List Shares
  | .logShares tally => tally.shares
  | _ => []

/-- Every record a history logged for logstash, in order. -/
def loggedShares (t : List Event) : List Shares := t.flatMap Event.logged

/-- The records the registered workers' tallies hold. -/
def Pool.tallies (p : Pool) : List Shares := p.workers.collect (·.workerShares.shares)

/-! ### One step -/

namespace Pool

theorem broadcastOne_balance (p : Pool) (refused : List Nat) (t : List Event) (w : Worker) :
    (addSharesCalls t ++ (loggedShares (p.broadcastOne refused t w).1 ++
        (p.broadcastOne refused t w).2.workerShares.shares)).Perm
      (addSharesCalls (p.broadcastOne refused t w).1 ++ (loggedShares t ++ w.workerShares.shares)) := by
  unfold broadcastOne
  split <;> simp [addSharesCalls, loggedShares, Event.recorded, Event.logged]

theorem tallyAt_of_mem {m : HashMap String Worker} {k : String} {w : Worker} (h : (k, w) ∈ m.entries) :
    tallyAt m k = w.workerShares.shares := by
  simp [tallyAt, HashMap.get?_eq_some_iff.2 h]

theorem flatMap_tallyAt (m : HashMap String Worker) :
    ∀ {l : List (String × Worker)}, (∀ e ∈ l, e ∈ m.entries) →
      (l.map Prod.fst).flatMap (tallyAt m) = l.flatMap (·.2.workerShares.shares)
  | [], _ => rfl
  | e :: l, h => by
    simp only [List.map_cons, List.flatMap_cons, tallyAt_of_mem (h e (List.mem_cons_self _ _)),
      flatMap_tallyAt m fun e' he' => h e' (List.mem_cons_of_mem _ he')]

theorem flatMap_ite_append_filter_perm {α γ : Type} (P : α → Prop) [DecidablePred P] (g : α → List γ) :
    ∀ l : List α,
      ((l.flatMap fun a => if P a then [] else g a) ++ (l.filter fun a => decide (P a)).flatMap g).Perm (l.flatMap g)
  | [] => .refl _
  | a :: l => by
    have ih := flatMap_ite_append_filter_perm P g l
    by_cases h : P a <;> simp only [List.flatMap_cons, List.filter_cons, h, decide_True, decide_False, if_true,
      if_false, Bool.false_eq_true, List.nil_append, List.append_assoc]
    · exact (List.perm_append_comm_assoc _ _ _).trans (ih.append_left _)
    · exact ih.append_left _

theorem readWorker_tally (p : Pool) (inbound : String → Inbound) (ids : List String) (k : String) (w : Worker) :
    (p.readWorker inbound ids k w).2.workerShares.shares =
      if k ≠ (inbound k).fullId then [] else w.workerShares.shares := by
  unfold readWorker
  simp only [Worker.processMessages_fullId]
  split <;> rfl

/-- Reading the workers' messages resets the tallies of the moved workers (line 228), and only those. -/
theorem readWorkers_balance (p : Pool) (inbound : String → Inbound) :
    ((p.workers.iterMut [] (p.readWorker inbound)).2.collect (·.workerShares.shares) ++
        (p.workers.iterMut [] (p.readWorker inbound)).1.flatMap (tallyAt p.workers)).Perm p.tallies := by
  rw [readWorkers_fst, movedKeys, HashMap.keys, List.filter_map,
    flatMap_tallyAt _ fun e he => (List.mem_filter.1 he).1]
  simp only [HashMap.collect, readWorkers_entries, List.flatMap_map, readWorker_tally]
  exact flatMap_ite_append_filter_perm (fun e : String × Worker => e.1 ≠ (inbound e.1).fullId)
    (fun e : String × Worker => e.2.workerShares.shares) _

theorem rekey_balance (m : HashMap String Worker) (k : String) :
    ((rekey m k).collect (·.workerShares.shares) ++ rekeyLost m [k]).Perm (m.collect (·.workerShares.shares)) := by
  unfold rekey
  simp only [rekeyLost, List.append_nil]
  cases hget : m.get? k with
  | none =>
    rw [show m.remove k = (none, (m.remove k).2) from Prod.ext hget rfl]
    simpa [hget] using HashMap.collect_remove_perm' (·.workerShares.shares) m k
  | some w =>
    rw [show m.remove k = (some w, (m.remove k).2) from Prod.ext hget rfl]
    exact (HashMap.collect_insert_perm _ _ _ _).trans
      (HashMap.collect_remove_perm _ (HashMap.get?_eq_some_iff.1 hget))

theorem foldl_rekey_balance : ∀ (ks : List String) (m : HashMap String Worker),
    ((ks.foldl rekey m).collect (·.workerShares.shares) ++ rekeyLost m ks).Perm (m.collect (·.workerShares.shares))
  | [], m => by simp [rekeyLost]
  | k :: ks, m => by
    have hk := rekey_balance m k
    simp only [rekeyLost, List.append_nil] at hk
    simp only [List.foldl_cons, rekeyLost]
    refine (List.perm_append_comm.append_left _).trans ?_
    rw [← List.append_assoc]
    exact ((foldl_rekey_balance ks (rekey m k)).append_right _).trans hk

/-- A step that appends `l` to the dropped records, and leaves a registry that holds with `l` what the old one
held, keeps what the registry and the dropped records hold together. -/
theorem balance_of_drop {p p' : Pool} {l : List Shares} (hd : p'.dropped = p.dropped ++ l)
    (h : (p'.tallies ++ l).Perm p.tallies) : (p'.tallies ++ p'.dropped).Perm (p.tallies ++ p.dropped) := by
  rw [hd]
  refine (List.perm_append_comm.append_left _).trans ?_
  rw [← List.append_assoc]
  exact h.append_right _

theorem acceptWorker_balance (p : Pool) (n : UInt32) (st : Nat) :
    ((p.acceptWorker n st).tallies ++ (p.acceptWorker n st).dropped).Perm (p.tallies ++ p.dropped) :=
  balance_of_drop rfl ((HashMap.collect_insert_perm (fun w : Worker => w.workerShares.shares) p.workers
    (toString n) ((Worker.new 0 st).setDifficulty p.portDifficulty)).trans (.of_eq (List.append_nil _)))

/-- `process_worker_messages` drops what it resets and what its re-keying overwrites, and nothing else. -/
theorem processWorkerMessages_balance (p : Pool) (inbound : String → Inbound) :
    ((p.processWorkerMessages inbound).tallies ++ (p.processWorkerMessages inbound).dropped).Perm
      (p.tallies ++ p.dropped) := by
  refine balance_of_drop (List.append_assoc _ _ _) ((List.perm_append_comm.append_left _).trans ?_)
  rw [← List.append_assoc]
  exact ((foldl_rekey_balance _ _).append_right _).trans (readWorkers_balance p inbound)

theorem cleanWorkers_balance (p : Pool) :
    (p.cleanWorkers.1.tallies ++ p.cleanWorkers.1.dropped).Perm (p.tallies ++ p.dropped) := by
  refine balance_of_drop rfl ?_
  rw [flatMap_tallyAt _ fun e he => (List.mem_filter.1 he).1, tallies, HashMap.collect, cleanWorkers_entries,
    ← List.flatMap_append]
  exact (List.perm_append_comm.trans (List.filter_append_perm _ _)).flatMap_right _

end Pool

/-! ### Identity promotion -/

/-- **A worker promoted to its full id starts a new tally at the current height and difficulty**, when the
re-keying lands on free keys; its status counters carry over. -/
theorem promoted_worker_tally_reset (p : Pool) (inbound : String → Inbound) (h : RekeyFresh p inbound) :
    ∀ k w, (k, w) ∈ p.workers.entries → k ≠ (inbound k).fullId →
      ∃ w', ((inbound k).fullId, w') ∈ (p.processWorkerMessages inbound).workers.entries ∧
        w'.workerShares = ⟨p.job.height, p.difficulty, []⟩ ∧ w'.status = w.status := by
  intro k w hw hk
  have hr : p.readWorker inbound [] k w =
      ([k], (w.processMessages (inbound k)).resetWorkerShares p.job.height p.difficulty) := by
    simp [Pool.readWorker, hk]
  refine ⟨(p.readWorker inbound [] k w).2, by simpa using Pool.mem_processWorkerMessages_of_mem h hw, ?_, ?_⟩ <;>
    rw [hr] <;> rfl

theorem promoted_worker_tally_reset_twoWorkers :
    RekeyFresh twoWorkers.pool freshLogin ∧
    ("1", (twoWorkers.pool.workers.get? "1").getD (Worker.new 0 0)) ∈ twoWorkers.pool.workers.entries ∧
    "1" ≠ (freshLogin "1").fullId ∧
    ∃ w', ((freshLogin "1").fullId, w') ∈ (twoWorkers.pool.processWorkerMessages freshLogin).workers.entries ∧
      w'.workerShares = ⟨twoWorkers.pool.job.height, twoWorkers.pool.difficulty, []⟩ ∧
      w'.status = ((twoWorkers.pool.workers.get? "1").getD (Worker.new 0 0)).status :=
  ⟨by decide, by decide, by decide,
    promoted_worker_tally_reset _ _ (by decide) _ _ (by decide) (by decide)⟩

/-! ### Whole runs -/

/-- What was logged, what the workers hold and what was dropped are the `add_shares` calls. -/
def TallyInv (p : Pool) : Prop :=
  (loggedShares p.trace ++ p.tallies ++ p.dropped).Perm (addSharesCalls p.trace)

theorem TallyInv.of_balance {p p' : Pool} (h : TallyInv p) (hd : p'.dropped = p.dropped)
    (hb : (addSharesCalls p.trace ++ (loggedShares p'.trace ++ p'.tallies)).Perm
      (addSharesCalls p'.trace ++ (loggedShares p.trace ++ p.tallies))) : TallyInv p' := by
  refine List.perm_iff_count.2 fun x => ?_
  have h₁ := List.perm_iff_count.1 h x
  have h₂ := List.perm_iff_count.1 hb x
  simp only [hd, List.count_append] at h₁ h₂ ⊢
  omega

theorem TallyInv.broadcastJob {p : Pool} (hi : TallyInv p) (refused : List Nat) :
    TallyInv (p.broadcastJob refused) :=
  hi.of_balance rfl (HashMap.collect_iterMut_balance (fun w : Worker => w.workerShares.shares) addSharesCalls
    loggedShares p.workers p.trace (fun t _ w => p.broadcastOne refused t w)
    fun t _ w => p.broadcastOne_balance refused t w)

theorem TallyInv.acceptNewJob {p : Pool} (hi : TallyInv p) (refused : List Nat) :
    TallyInv (p.acceptNewJob refused) := by
  unfold Pool.acceptNewJob
  split
  · have hq : TallyInv { p with
        job := { p.server.job with jobId := p.server.job.height * 1000 + p.server.job.jobId }
        trace := p.trace ++ [.adopt p.server.job (decide (p.job.height ≠ p.server.job.height))] } := by
      simpa [TallyInv, addSharesCalls, loggedShares, Event.recorded, Event.logged, Pool.tallies] using hi
    dsimp only
    split <;> exact hq.broadcastJob refused
  · exact hi

end GrinPool
