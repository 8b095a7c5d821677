import GrinPool.Tick
import GrinPool.Epoch

/-!
# What `process_shares` does to each worker

`process_shares` (lines 286-418) runs over the registry with one duplicate set and one upstream session, so
the shares of all workers go through one pipeline, in the registry's order. Each worker is nevertheless
answered for its own shares only. `processShares_settles_own_shares` says so exactly: in every reachable state
whose adopted templates all have height at least 1, `process_shares` runs to its end (no accepted share divides
by a zero height at line 397), drains every queued share once, on its own worker's connection and in queue
order, and leaves
each worker under its key and in its place, its queue handed over and the exits of the shares drained from
its connection settled on it in order (`settleAll`): its counters, its tally and its replies change by its
own shares' exits and by nothing else, whatever the iteration order.

This rests on the connections of the registered workers being distinct (`Reachable.streams_nodup`): the
history names a share's worker by its connection, so the shares drained for one worker are told apart from
everyone else's.

Proof. One worker's turn appends one drain per queued share on its connection and none on another
(`foldl_processShare_ledger`); over the registry, the turns of the other workers drain nothing on a worker's
connection (`iterMutList_shareLoopBody_ledger`).

The one channel between workers is the duplicate set. When no pow vector is queued twice in a tick, each
share's exit is the one it takes against the duplicate set as the call found it, so `process_shares` at a job
of height at least 1 is, in closed form, each worker processed alone (`processShares_settles_each_worker_alone`);
and at such a job the set names, for each vector, the first worker in iteration order that submitted it
(`processShares_records_first_submitter`).
-/

namespace GrinPool

variable {Header : Type}

/-- The share and exit of a history entry that drained a share from the connection `st`. -/
def Event.drainOn? (st : Nat) : Event → Option (SubmitParams × Exit)
  | .drain st' sh x => if st' = st then some (sh, x) else none
  | _ => none

/-- The shares a history drained from the connection `st`, each with its exit, in order. -/
def drainsOn (st : Nat) (t : List Event) : List (SubmitParams × Exit) := t.filterMap (Event.drainOn? st)

/-- The worker's turn in `process_shares`: each exit settled on it in order. -/
def settleEach (w : Worker) (ds : List (SubmitParams × Exit)) : Worker :=
  ds.foldl (fun w d => w.settle d.2 d.1.edgeBits) w

/-- `w` after `get_shares` handed its queue over and each of `ds` was settled on it in order. -/
def settleAll (w : Worker) (ds : List (SubmitParams × Exit)) : Worker := settleEach { w with shares := [] } ds

@[simp] theorem drainsOn_append (st : Nat) (t l : List Event) :
    drainsOn st (t ++ l) = drainsOn st t ++ drainsOn st l :=
  List.filterMap_append _ _ _

theorem drainsOn_cons (st : Nat) (e : Event) (t : List Event) :
    drainsOn st (e :: t) = (e.drainOn? st).toList ++ drainsOn st t := by
  unfold drainsOn
  cases h : e.drainOn? st <;> simp [List.filterMap_cons, h]

/-- One worker's turn appends a drain on its connection for each queued share, in order, and drains nothing on
another connection; the worker is the one it was with each exit settled on it. -/
theorem foldl_processShare_ledger (lib : PowLib Header) (job : JobTemplate) (jobVersions : HashMap UInt64 String) :
    ∀ (ss : List SubmitParams) (c : ShareCtx), ∃ l,
      (ss.foldl (processShare lib job jobVersions) c).trace = c.trace ++ l ∧
      (drainsOn c.worker.stream l).map Prod.fst = ss ∧
      (∀ st, st ≠ c.worker.stream → drainsOn st l = []) ∧
      (ss.foldl (processShare lib job jobVersions) c).worker = settleEach c.worker (drainsOn c.worker.stream l)
  | [], c => ⟨[], by simp, rfl, fun _ _ => rfl, rfl⟩
  | s :: ss, c => by
    obtain ⟨l₁, ht₁, hsub⟩ := processShare_trace_drain lib job jobVersions c s
    set x := shareExit lib job jobVersions c.duplicates c.worker.status.difficulty s
    have hquiet : ∀ st, drainsOn st l₁ = [] := fun st =>
      List.filterMap_eq_nil_iff.2 fun e he => by
        rw [(hsub e he).2]
        unfold submitEvent
        split <;> rfl
    have hstream : (processShare lib job jobVersions c s).worker.stream = c.worker.stream := by
      rw [processShare_worker, Worker.settle_stream]
    obtain ⟨l, ht, hmap, hother, hw⟩ := foldl_processShare_ledger lib job jobVersions ss
      (processShare lib job jobVersions c s)
    rw [hstream] at hmap hother hw
    have hdrains : ∀ st, drainsOn st ((.drain c.worker.stream s x :: l₁) ++ l) =
        (if c.worker.stream = st then [(s, x)] else []) ++ drainsOn st l := by
      intro st
      rw [drainsOn_append, drainsOn_cons, hquiet, List.append_nil]
      by_cases h : c.worker.stream = st <;> simp [Event.drainOn?, h]
    refine ⟨(.drain c.worker.stream s x :: l₁) ++ l, ?_, ?_, fun st hst => ?_, ?_⟩
    · rw [List.foldl_cons, ht, ht₁, List.append_assoc, List.cons_append]
    · rw [hdrains, if_pos rfl, List.singleton_append, List.map_cons, hmap]
    · rw [hdrains, if_neg (Ne.symm hst), hother st hst, List.append_nil]
    · rw [List.foldl_cons, hw, hdrains, if_pos rfl]
      rfl

/-- Over a registry whose workers own distinct connections, every worker ends as its own drained shares
settle it, and every queued share is drained on its worker's connection, in order. -/
theorem iterMutList_shareLoopBody_ledger (lib : PowLib Header) (job : JobTemplate)
    (jobVersions : HashMap UInt64 String) :
    ∀ (L : List (String × Worker)) (acc : HashMap (List UInt64) Nat × List Event),
      (L.map (·.2.stream)).Nodup → ∃ l,
      (HashMap.iterMutList (shareLoopBody lib job jobVersions) acc L).1.2 = acc.2 ++ l ∧
      (HashMap.iterMutList (shareLoopBody lib job jobVersions) acc L).2 =
        L.map (fun e => (e.1, settleAll e.2 (drainsOn e.2.stream l))) ∧
      (∀ e ∈ L, (drainsOn e.2.stream l).map Prod.fst = e.2.shares) ∧
      ∀ st, st ∉ L.map (·.2.stream) → drainsOn st l = []
  | [], acc, _ => ⟨[], by simp [HashMap.iterMutList], rfl, by simp, fun _ _ => rfl⟩
  | (k, w) :: L, acc, hnd => by
    rw [List.map_cons, List.nodup_cons] at hnd
    obtain ⟨l₁, ht₁, hmap₁, hother₁, hw₁⟩ := foldl_processShare_ledger lib job jobVersions w.shares
      ⟨acc.1, acc.2, { w with shares := [] }⟩
    obtain ⟨l₂, ht₂, he₂, hmap₂, hother₂⟩ := iterMutList_shareLoopBody_ledger lib job jobVersions L
      ((processWorkerShares lib job jobVersions acc.1 acc.2 w).duplicates,
        (processWorkerShares lib job jobVersions acc.1 acc.2 w).trace) hnd.2
    have hne : ∀ e ∈ L, e.2.stream ≠ w.stream := fun e he h => hnd.1 (h ▸ List.mem_map_of_mem _ he)
    refine ⟨l₁ ++ l₂, ?_, ?_, ?_, fun st hst => ?_⟩
    · simp only [HashMap.iterMutList, shareLoopBody, ht₂]
      rw [processWorkerShares, ht₁, List.append_assoc]
    · simp only [HashMap.iterMutList, shareLoopBody, he₂, List.map_cons, drainsOn_append, hother₂ _ hnd.1,
        List.append_nil]
      refine congrArg₂ _ (by rw [processWorkerShares, hw₁]; rfl) (List.map_congr_left fun e he => ?_)
      rw [hother₁ _ (hne e he), List.nil_append]
    · simp only [List.mem_cons, drainsOn_append]
      rintro e (rfl | he)
      · rw [hother₂ _ hnd.1, List.append_nil]
        exact hmap₁
      · rw [hother₁ _ (hne e he), List.nil_append]
        exact hmap₂ e he
    · simp only [List.map_cons, List.mem_cons, not_or] at hst
      rw [drainsOn_append, hother₁ _ hst.1, hother₂ _ hst.2]
      rfl

/-- **In every reachable state whose adopted templates are of height at least 1, `process_shares` runs to its
end and answers each worker for its own shares and nothing else**: it drains each queued share once, on its
worker's connection and in queue order, and leaves every worker under its key and in its place, its queue
handed over and the exits of the shares drained from its connection settled on it in order, whatever the
iteration order. -/
theorem processShares_settles_own_shares {lib : PowLib Header} {d : UInt64} {job : JobTemplate} {s : Sys}
    (hs : Reachable lib d job s) (hpos : ∀ T ∈ s.pool.trace.filterMap Event.adopted?, 1 ≤ T.height) :
    ∃ p', s.pool.processShares lib = some p' ∧ ∃ l, p'.trace = s.pool.trace ++ l ∧
      p'.workers.entries = s.pool.workers.entries.map (fun e => (e.1, settleAll e.2 (drainsOn e.2.stream l))) ∧
      ∀ e ∈ s.pool.workers.entries, (drainsOn e.2.stream l).map Prod.fst = e.2.shares := by
  obtain ⟨l, ht, he, hmap, -⟩ := iterMutList_shareLoopBody_ledger lib s.pool.job s.pool.jobVersions
    s.pool.workers.entries (s.pool.duplicates, s.pool.trace) hs.streams_nodup
  exact ⟨_, s.pool.processShares_eq_some lib (hs.versionInv.height_ne_zero hpos), l, ht, he, hmap⟩

theorem processShares_settles_own_shares_sample :
    (Reachable PowLib.lenient 8 ⟨0, 0, 0, ""⟩ sampleState ∧
      ∀ T ∈ sampleState.pool.trace.filterMap Event.adopted?, 1 ≤ T.height) ∧
    ∃ p', sampleState.pool.processShares PowLib.lenient = some p' ∧ ∃ l, p'.trace = sampleState.pool.trace ++ l ∧
      p'.workers.entries =
        sampleState.pool.workers.entries.map (fun e => (e.1, settleAll e.2 (drainsOn e.2.stream l))) ∧
      ∀ e ∈ sampleState.pool.workers.entries, (drainsOn e.2.stream l).map Prod.fst = e.2.shares :=
  ⟨⟨reachable_sampleState, by decide⟩, processShares_settles_own_shares reachable_sampleState (by decide)⟩

/-! ### One tick -/

@[simp] theorem Pool.readWorker_shares (p : Pool) (inbound : String → Inbound) (ids : List String) (k : String)
    (w : Worker) : (p.readWorker inbound ids k w).2.shares = w.shares ++ (inbound k).shares := by
  unfold Pool.readWorker
  dsimp only
  split <;> rfl

/-- **In a tick whose logins move no worker onto a key in use, with every adopted template of height at least
1, every share a worker sends is drained exactly once, on its own connection and in the order sent, and nothing
else is drained**: the queues are empty when `process_worker_messages` fills them (`Reachable.registrySettled`),
the re-keying keeps every record (`Pool.mem_processWorkerMessages_of_mem`), and `process_shares` runs to its end
and drains each queue once. -/
theorem tick_drains_each_sent_share_once {lib : PowLib Header} {d : UInt64} {job : JobTemplate} {s : Sys}
    (hs : Reachable lib d job s) (hph : s.phase = .workerMessages) (inbound : String → Inbound)
    (hfresh : RekeyFresh s.pool inbound) (hpos : ∀ T ∈ s.pool.trace.filterMap Event.adopted?, 1 ≤ T.height) :
    ∃ p', (s.pool.processWorkerMessages inbound).processShares lib = some p' ∧ ∃ l, p'.trace = s.pool.trace ++ l ∧
      (∀ k w, (k, w) ∈ s.pool.workers.entries → (drainsOn w.stream l).map Prod.fst = (inbound k).shares) ∧
      ∀ st, st ∉ s.pool.streams → drainsOn st l = [] := by
  have hsub : (s.pool.processWorkerMessages inbound).streams.Subperm s.pool.streams := by
    simp only [Pool.streams_eq_collect]
    exact Pool.processWorkerMessages_collect_subperm _ _ inbound fun k w => by simp
  obtain ⟨l, ht, -, hmap, hother⟩ := iterMutList_shareLoopBody_ledger lib s.pool.job s.pool.jobVersions
    (s.pool.processWorkerMessages inbound).workers.entries (s.pool.duplicates, s.pool.trace)
    (nodup_of_subperm hsub hs.streams_nodup)
  refine ⟨_, Pool.processShares_eq_some lib _ (hs.versionInv.height_ne_zero hpos), l, ht, fun k w hw => ?_,
    fun st hst => hother st fun h => hst (hsub.subset h)⟩
  have hempty : w.shares = [] := by
    have := hs.registrySettled (k, w) hw
    rw [hph] at this
    exact this.1
  simpa [hempty] using hmap _ (Pool.mem_processWorkerMessages_of_mem hfresh hw)

theorem tick_drains_each_sent_share_once_twoWorkers :
    (Reachable PowLib.lenient 8 ⟨0, 0, 0, ""⟩ twoWorkers ∧ twoWorkers.phase = .workerMessages ∧
      RekeyFresh twoWorkers.pool freshLogin ∧ ∀ T ∈ twoWorkers.pool.trace.filterMap Event.adopted?, 1 ≤ T.height) ∧
    ∃ p', (twoWorkers.pool.processWorkerMessages freshLogin).processShares PowLib.lenient = some p' ∧
      ∃ l, p'.trace = twoWorkers.pool.trace ++ l ∧
      (∀ k w, (k, w) ∈ twoWorkers.pool.workers.entries → (drainsOn w.stream l).map Prod.fst = (freshLogin k).shares) ∧
      ∀ st, st ∉ twoWorkers.pool.streams → drainsOn st l = [] :=
  ⟨⟨reachable_twoWorkers, by decide, by decide, by decide⟩,
    tick_drains_each_sent_share_once reachable_twoWorkers (by decide) freshLogin (by decide) (by decide)⟩

/-! ### Each worker alone -/

theorem shareExit_congr_containsKey (lib : PowLib Header) (job : JobTemplate)
    (jobVersions : HashMap UInt64 String) {D D' : HashMap (List UInt64) Nat} (difficulty : UInt64)
    {s : SubmitParams} (h : D.containsKey s.pow = D'.containsKey s.pow) :
    shareExit lib job jobVersions D difficulty s = shareExit lib job jobVersions D' difficulty s := by
  simp only [shareExit, h]

/-- What the history gains from a share of `w` that takes the exit it takes against the duplicate set `D`: its
drain, and when accepted its submission upstream or the panic of line 397 (lines 296-413). -/
def shareEvents (lib : PowLib Header) (job : JobTemplate) (jobVersions : HashMap UInt64 String)
    (D : HashMap (List UInt64) Nat) (w : Worker) (s : SubmitParams) : List Event :=
  let x := shareExit lib job jobVersions D w.status.difficulty s
  .drain w.stream s x :: if x = .accepted then [submitEvent s (fullWorkerId w)] else []

/-- The worker `w` after `process_shares`, each of its queued shares settled by the exit it takes against the
duplicate set `D`. -/
def settleAlone (lib : PowLib Header) (job : JobTemplate) (jobVersions : HashMap UInt64 String)
    (D : HashMap (List UInt64) Nat) (w : Worker) : Worker :=
  settleAll w (w.shares.map fun s => (s, shareExit lib job jobVersions D w.status.difficulty s))

/-- The entries `process_shares` adds to the duplicate set `D` for the queued shares of `w`: the pow vectors not
in it, each under the worker's id. -/
def newDuplicates (D : HashMap (List UInt64) Nat) (w : Worker) : List (List UInt64 × Nat) :=
  (w.shares.filter fun s => !D.containsKey s.pow).map fun s => (s.pow, w.id)

@[simp] theorem shareEvents_settle (lib : PowLib Header) (job : JobTemplate) (jobVersions : HashMap UInt64 String)
    (D : HashMap (List UInt64) Nat) (w : Worker) (x : Exit) (e : UInt32) :
    shareEvents lib job jobVersions D (w.settle x e) = shareEvents lib job jobVersions D w := by
  funext s
  simp [shareEvents]

theorem shareEvents_congr (lib : PowLib Header) (job : JobTemplate) (jobVersions : HashMap UInt64 String)
    {D D' : HashMap (List UInt64) Nat} (w : Worker) {s : SubmitParams} (h : D.containsKey s.pow = D'.containsKey s.pow) :
    shareEvents lib job jobVersions D w s = shareEvents lib job jobVersions D' w s := by
  simp only [shareEvents, shareExit_congr_containsKey lib job jobVersions _ h]

/-- One worker's shares, none of whose pow vectors repeats, each found in the duplicate set as in `D`: every
share takes the exit it takes against `D`. -/
theorem foldl_processShare_alone (lib : PowLib Header) (job : JobTemplate) (jobVersions : HashMap UInt64 String)
    (D : HashMap (List UInt64) Nat) :
    ∀ (ss : List SubmitParams) (c : ShareCtx), (ss.map (·.pow)).Nodup →
      (∀ s ∈ ss, c.duplicates.containsKey s.pow = D.containsKey s.pow) →
      (ss.foldl (processShare lib job jobVersions) c).worker =
        settleEach c.worker (ss.map fun s => (s, shareExit lib job jobVersions D c.worker.status.difficulty s)) ∧
      (ss.foldl (processShare lib job jobVersions) c).duplicates.entries =
        c.duplicates.entries ++ (ss.filter fun s => !D.containsKey s.pow).map (fun s => (s.pow, c.worker.id)) ∧
      (ss.foldl (processShare lib job jobVersions) c).trace =
        c.trace ++ ss.flatMap (shareEvents lib job jobVersions D c.worker)
  | [], _, _, _ => ⟨rfl, by simp, by simp⟩
  | s :: ss, c, hnd, hD => by
    rw [List.map_cons, List.nodup_cons] at hnd
    have hs := hD s (List.mem_cons_self _ _)
    obtain ⟨hw, hd, ht⟩ := foldl_processShare_alone lib job jobVersions D ss (processShare lib job jobVersions c s)
      hnd.2 fun s' hs' => by
        have hne : s'.pow ≠ s.pow := fun h => hnd.1 (h ▸ List.mem_map_of_mem _ hs')
        rw [processShare_duplicates, ← hD s' (List.mem_cons_of_mem _ hs')]
        split
        · rfl
        · simp [HashMap.containsKey_insert, hne]
    refine ⟨?_, ?_, ?_⟩
    · rw [List.foldl_cons, hw, processShare_worker, Worker.settle_difficulty,
        shareExit_congr_containsKey lib job jobVersions _ hs]
      rfl
    · rw [List.foldl_cons, hd, processShare_duplicates, processShare_worker, Worker.settle_id, List.filter_cons]
      split
      · rename_i h
        simp [← hs, h]
      · rename_i h
        simp [← hs, h, HashMap.entries_insert_of_not_mem (mt HashMap.containsKey_iff.2 h)]
    · rw [List.foldl_cons, ht, processShare_worker, shareEvents_settle, List.flatMap_cons, ← List.append_assoc,
        ← shareEvents_congr lib job jobVersions c.worker hs]
      rfl

theorem iterMutList_shareLoopBody_alone (lib : PowLib Header) (job : JobTemplate)
    (jobVersions : HashMap UInt64 String) (D : HashMap (List UInt64) Nat) :
    ∀ (L : List (String × Worker)) (acc : HashMap (List UInt64) Nat × List Event),
      ((L.flatMap fun e => e.2.shares).map (·.pow)).Nodup →
      (∀ s ∈ L.flatMap (fun e => e.2.shares), acc.1.containsKey s.pow = D.containsKey s.pow) →
      (HashMap.iterMutList (shareLoopBody lib job jobVersions) acc L).2 =
        L.map (fun e => (e.1, settleAlone lib job jobVersions D e.2)) ∧
      (HashMap.iterMutList (shareLoopBody lib job jobVersions) acc L).1.1.entries =
        acc.1.entries ++ L.flatMap (fun e => newDuplicates D e.2) ∧
      (HashMap.iterMutList (shareLoopBody lib job jobVersions) acc L).1.2 =
        acc.2 ++ L.flatMap fun e => e.2.shares.flatMap (shareEvents lib job jobVersions D e.2)
  | [], _, _, _ => ⟨rfl, by simp [HashMap.iterMutList], by simp [HashMap.iterMutList]⟩
  | (k, w) :: L, acc, hnd, hD => by
    rw [List.flatMap_cons, List.map_append, List.nodup_append] at hnd
    obtain ⟨hw, hd, ht⟩ := foldl_processShare_alone lib job jobVersions D w.shares
      ⟨acc.1, acc.2, { w with shares := [] }⟩ hnd.1 fun s hs => hD s (List.mem_append_left _ hs)
    obtain ⟨ihw, ihd, iht⟩ := iterMutList_shareLoopBody_alone lib job jobVersions D L
      (shareLoopBody lib job jobVersions acc k w).1 hnd.2.1 fun s hs => by
        have hnew : s.pow ∉ (newDuplicates D w).map Prod.fst := by
          simp only [newDuplicates, List.map_map]
          exact fun h => hnd.2.2 (List.map_subset _ (List.filter_subset' _) h) (List.mem_map_of_mem _ hs)
        rw [← hD s (List.mem_append_right _ hs)]
        exact HashMap.containsKey_eq_of_entries_append hd hnew
    refine ⟨?_, ?_, ?_⟩
    · simp only [HashMap.iterMutList, List.map_cons]
      exact congrArg₂ _ (by rw [shareLoopBody, processWorkerShares, hw]; rfl) ihw
    · rw [HashMap.iterMutList, ihd, shareLoopBody, processWorkerShares, hd, List.append_assoc]
      rfl
    · rw [HashMap.iterMutList, iht, shareLoopBody, processWorkerShares, ht, List.append_assoc]
      rfl

theorem Pool.sharePass_alone (lib : PowLib Header) (p : Pool) (D : HashMap (List UInt64) Nat)
    (hnd : ((p.workers.collect (·.shares)).map (·.pow)).Nodup)
    (hD : ∀ s ∈ p.workers.collect (·.shares), p.duplicates.containsKey s.pow = D.containsKey s.pow) :
    (p.sharePass lib).workers.entries =
      p.workers.entries.map (fun e => (e.1, settleAlone lib p.job p.jobVersions D e.2)) ∧
    (p.sharePass lib).duplicates.entries = p.duplicates.entries ++ p.workers.entries.flatMap (fun e => newDuplicates D e.2) ∧
    (p.sharePass lib).trace =
      p.trace ++ p.workers.entries.flatMap fun e => e.2.shares.flatMap (shareEvents lib p.job p.jobVersions D e.2) :=
  iterMutList_shareLoopBody_alone lib p.job p.jobVersions D p.workers.entries (p.duplicates, p.trace) hnd hD

/-- **At a job of height at least 1, when no two shares queued in one tick carry the same pow vector,
`process_shares` runs to its end and treats each worker as if it were alone**: each worker ends with each of its
queued shares settled, in queue order, by the exit the share takes against the duplicate set as the call found
it; the history gains each worker's drains and submissions in turn; and the duplicate set gains, after its old
entries, each worker's pow vectors not yet in it under the worker's id. So one worker's shares change another's
outcome only through a pow vector both submitted. -/
theorem processShares_settles_each_worker_alone (lib : PowLib Header) (p : Pool) (hh : 1 ≤ p.job.height)
    (hnd : ((p.workers.collect (·.shares)).map (·.pow)).Nodup) :
    ∃ p', p.processShares lib = some p' ∧
      p'.workers.entries =
        p.workers.entries.map (fun e => (e.1, settleAlone lib p.job p.jobVersions p.duplicates e.2)) ∧
      p'.duplicates.entries =
        p.duplicates.entries ++ p.workers.entries.flatMap (fun e => newDuplicates p.duplicates e.2) ∧
      p'.trace = p.trace ++
        p.workers.entries.flatMap fun e => e.2.shares.flatMap (shareEvents lib p.job p.jobVersions p.duplicates e.2) :=
  ⟨_, Pool.processShares_of_height lib hh, p.sharePass_alone lib p.duplicates hnd fun _ _ => rfl⟩

/-- The workers under the keys 1 and 2 each submit one share, with the pow vectors `[1]` and `[2]`. -/
def twoShares (k : String) : Inbound := ⟨0, "", k, true, false, false, [⟨1, 1000, 29, 0, [if k = "1" then 1 else 2]⟩]⟩

/-- The two workers of `twoWorkers` after reading `twoShares`, about to have their shares processed. -/
def twoQueued : Pool := twoWorkers.pool.processWorkerMessages twoShares

theorem processShares_settles_each_worker_alone_twoQueued :
    (1 ≤ twoQueued.job.height ∧ ((twoQueued.workers.collect (·.shares)).map (·.pow)).Nodup) ∧
    ∃ p', twoQueued.processShares PowLib.lenient = some p' ∧
      p'.workers.entries =
        twoQueued.workers.entries.map (fun e => (e.1, settleAlone PowLib.lenient twoQueued.job twoQueued.jobVersions
          twoQueued.duplicates e.2)) ∧
      p'.duplicates.entries =
        twoQueued.duplicates.entries ++ twoQueued.workers.entries.flatMap (fun e => newDuplicates twoQueued.duplicates e.2) ∧
      p'.trace = twoQueued.trace ++ twoQueued.workers.entries.flatMap fun e =>
        e.2.shares.flatMap (shareEvents PowLib.lenient twoQueued.job twoQueued.jobVersions twoQueued.duplicates e.2) :=
  ⟨⟨by decide, by decide⟩, processShares_settles_each_worker_alone PowLib.lenient twoQueued (by decide) (by decide)⟩

/-! ### Who the duplicate set names -/

/-- The id of the first worker, in the registry's order, with a queued share of pow vector `v`. -/
def firstSubmitter (L : List (String × Worker)) (v : List UInt64) : Option Nat :=
  (L.find? fun e => v ∈ e.2.shares.map (·.pow)).map (·.2.id)

theorem get?_processShare_duplicates (lib : PowLib Header) (job : JobTemplate)
    (jobVersions : HashMap UInt64 String) (c : ShareCtx) (s : SubmitParams) (v : List UInt64) :
    (processShare lib job jobVersions c s).duplicates.get? v =
      (c.duplicates.get? v).or (if v = s.pow then some c.worker.id else none) := by
  rw [processShare_duplicates]
  split
  · rename_i h
    split
    · subst v
      obtain ⟨i, hi⟩ := HashMap.mem_keys_iff.1 (HashMap.containsKey_iff.1 h)
      rw [HashMap.get?_eq_some_iff.2 hi, Option.or_some]
    · exact Option.or_none.symm
  · rename_i h
    rw [HashMap.get?_insert]
    split
    · subst v
      rw [HashMap.get?_eq_none_iff.2 (mt HashMap.containsKey_iff.2 h), Option.none_or]
    · exact Option.or_none.symm

theorem get?_foldl_processShare_duplicates (lib : PowLib Header) (job : JobTemplate)
    (jobVersions : HashMap UInt64 String) (v : List UInt64) :
    ∀ (ss : List SubmitParams) (c : ShareCtx),
      (ss.foldl (processShare lib job jobVersions) c).duplicates.get? v =
        (c.duplicates.get? v).or (if v ∈ ss.map (·.pow) then some c.worker.id else none)
  | [], c => by simp
  | s :: ss, c => by
    rw [List.foldl_cons, get?_foldl_processShare_duplicates lib job jobVersions v ss,
      get?_processShare_duplicates, processShare_worker, Worker.settle_id, Option.or_assoc]
    by_cases h : v = s.pow <;> simp [h]

theorem get?_iterMutList_shareLoopBody_duplicates (lib : PowLib Header) (job : JobTemplate)
    (jobVersions : HashMap UInt64 String) (v : List UInt64) :
    ∀ (L : List (String × Worker)) (acc : HashMap (List UInt64) Nat × List Event),
      (HashMap.iterMutList (shareLoopBody lib job jobVersions) acc L).1.1.get? v =
        (acc.1.get? v).or (firstSubmitter L v)
  | [], _ => by simp [HashMap.iterMutList, firstSubmitter]
  | (k, w) :: L, acc => by
    rw [HashMap.iterMutList, get?_iterMutList_shareLoopBody_duplicates lib job jobVersions v L, shareLoopBody,
      processWorkerShares, get?_foldl_processShare_duplicates, Option.or_assoc]
    simp only [firstSubmitter, List.find?_cons]
    by_cases h : v ∈ w.shares.map (·.pow) <;> simp [h]

/-- **At a job of height at least 1, `process_shares` runs to its end and records each pow vector new to the
duplicate set under the id of the first worker, in the registry's order, that submitted it**, and leaves the
vectors already there under the id they had: the set maps each vector to the worker that first submitted it
(line 119), where "first" is the order of the previous ticks and, within one tick, the HashMap's iteration
order. -/
theorem processShares_records_first_submitter (lib : PowLib Header) (p : Pool) (hh : 1 ≤ p.job.height) :
    ∃ p', p.processShares lib = some p' ∧
      ∀ v, p'.duplicates.get? v = (p.duplicates.get? v).or (firstSubmitter p.workers.entries v) :=
  ⟨_, Pool.processShares_of_height lib hh, fun v =>
    get?_iterMutList_shareLoopBody_duplicates lib p.job p.jobVersions v p.workers.entries (p.duplicates, p.trace)⟩

theorem processShares_records_first_submitter_twoQueued :
    1 ≤ twoQueued.job.height ∧ ∃ p', twoQueued.processShares PowLib.lenient = some p' ∧
      ∀ v, p'.duplicates.get? v = (twoQueued.duplicates.get? v).or (firstSubmitter twoQueued.workers.entries v) :=
  ⟨by decide, processShares_records_first_submitter PowLib.lenient twoQueued (by decide)⟩

end GrinPool
