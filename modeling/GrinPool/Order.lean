import GrinPool.Ledger
import GrinPool.Tally

/-!
# The registry's iteration order

Rust's `HashMap` iterates in an order the program does not choose, and the order can change whenever the map
does; a run lets the environment pick it at any point (`Action.reorder`). `SameUpToOrder p q` says that `q` is
`p` with the registry, the history, the duplicate set and the dropped tallies each listed in another order, and
otherwise the same.

`run_ignores_iteration_order` says when the order does not matter: two runs from states that differ only in
order, driven by the same actions, both get stuck or neither, and end in states that differ only in order, as
long as every `process_worker_messages` of the run re-keys onto free keys (`RekeyFresh`) and every
`process_shares` finds no pow vector queued twice (`OrderBlind`). Both conditions are needed: when a worker
logs in under another's key the order decides whose record is overwritten, and when two queued shares carry
one pow vector the order decides which of them is the duplicate.

Proof. Every step but those two treats each worker by itself and logs for it by itself
(`HashMap.iterMut_perm_of_log`); under its condition `process_worker_messages` leaves the same records whatever
the order (the membership lemmas of its re-keying) and `process_shares` treats each worker alone
(`Pool.sharePass_alone`), so that it panics in one order exactly when it panics in the other. The tallies a step
drops follow from the ledger's balance: what the registry holds and what was dropped only move into each other
(`dropped_perm_of_balance`).
-/

namespace GrinPool

variable {Header : Type}

/-- `q` is `p` with the registry, the history, the duplicate set and the dropped tallies each in another
order. -/
def SameUpToOrder (p q : Pool) : Prop :=
  ∃ ws t ds dr, q = { p with workers := ws, trace := t, duplicates := ds, dropped := dr } ∧
    ws.entries.Perm p.workers.entries ∧ t.Perm p.trace ∧ ds.entries.Perm p.duplicates.entries ∧ dr.Perm p.dropped

namespace Pool

theorem broadcastOne_eq (p : Pool) (refused : List Nat) (t : List Event) (w : Worker) :
    p.broadcastOne refused t w = (t ++ (p.broadcastOne refused [] w).1, (p.broadcastOne refused [] w).2) := by
  unfold broadcastOne
  split <;> simp

theorem sendJobOne_eq (p : Pool) (refused : List Nat) (t : List Event) (w : Worker) :
    p.sendJobOne refused t w = (t ++ (p.sendJobOne refused [] w).1, (p.sendJobOne refused [] w).2) := by
  unfold sendJobOne
  split <;> simp

end Pool

theorem RekeyFresh.of_keys_perm {p q : Pool} {inbound : String → Inbound} (hk : q.workers.keys.Perm p.workers.keys)
    (h : RekeyFresh p inbound) : RekeyFresh q inbound := by
  have hm : ∀ k, k ∈ movedKeys q inbound ↔ k ∈ movedKeys p inbound := fun k => by
    simp only [movedKeys, List.mem_filter, hk.mem_iff]
  exact ⟨fun k hq => hk.mem_iff.not.2 (h.1 k ((hm k).1 hq)),
    fun k₁ h₁ k₂ h₂ => h.2 k₁ ((hm k₁).1 h₁) k₂ ((hm k₂).1 h₂)⟩

namespace SameUpToOrder

variable {p q : Pool}

theorem of_fields
    (h : { p with workers := q.workers, trace := q.trace, duplicates := q.duplicates, dropped := q.dropped } = q)
    (hws : q.workers.entries.Perm p.workers.entries) (ht : q.trace.Perm p.trace)
    (hds : q.duplicates.entries.Perm p.duplicates.entries) (hdr : q.dropped.Perm p.dropped) : SameUpToOrder p q :=
  ⟨q.workers, q.trace, q.duplicates, q.dropped, h.symm, hws, ht, hds, hdr⟩

theorem streams_perm (h : SameUpToOrder p q) : q.streams.Perm p.streams := by
  obtain ⟨ws, t, ds, dr, rfl, hws, -⟩ := h
  exact hws.map _

/-- A step that only moves tallies between the registry and the dropped ones, taken from two pools that differ
only in order and leaving the same records in both, drops the same tallies in both. -/
theorem dropped_perm_of_balance {p' q' : Pool} (h : SameUpToOrder p q)
    (hp : (p'.tallies ++ p'.dropped).Perm (p.tallies ++ p.dropped))
    (hq : (q'.tallies ++ q'.dropped).Perm (q.tallies ++ q.dropped))
    (hw : q'.workers.entries.Perm p'.workers.entries) : q'.dropped.Perm p'.dropped := by
  obtain ⟨ws, t, ds, dr, rfl, hws, -, -, hdr⟩ := h
  have hmid : (ws.collect (·.workerShares.shares) ++ dr).Perm (p.tallies ++ p.dropped) :=
    (hws.flatMap_right _).append hdr
  exact (List.perm_append_left_iff p'.tallies).1 <|
    ((hw.flatMap_right _).symm.append_right _).trans (hq.trans (hmid.trans hp.symm))

/-! ### The steps that treat each worker by itself -/

theorem acceptWorker (n : UInt32) (st : Nat) (h : SameUpToOrder p q) :
    SameUpToOrder (p.acceptWorker n st) (q.acceptWorker n st) := by
  have hw : (q.acceptWorker n st).workers.entries.Perm (p.acceptWorker n st).workers.entries := by
    obtain ⟨ws, t, ds, dr, rfl, hws, -⟩ := h
    exact HashMap.insert_perm hws _ _
  have hdr := h.dropped_perm_of_balance (p.acceptWorker_balance n st) (q.acceptWorker_balance n st) hw
  obtain ⟨ws, t, ds, dr, rfl, -, ht, hds, -⟩ := h
  exact .of_fields rfl hw ht hds hdr

theorem setServer (job : JobTemplate) (h : SameUpToOrder p q) :
    SameUpToOrder { p with server := ⟨job⟩ } { q with server := ⟨job⟩ } := by
  obtain ⟨ws, t, ds, dr, rfl, hws, ht, hds, hdr⟩ := h
  exact ⟨ws, t, ds, dr, rfl, hws, ht, hds, hdr⟩

theorem processServerMessages (job : JobTemplate) (status : String → WorkerStatus → WorkerStatus)
    (h : SameUpToOrder p q) :
    SameUpToOrder (p.processServerMessages job status) (q.processServerMessages job status) := by
  obtain ⟨ws, t, ds, dr, rfl, hws, ht, hds, hdr⟩ := h
  have hsnd := HashMap.iterMutList_snd (fun (_ : Unit) (k : String) (w : Worker) => ((), { w with status := status k w.status }))
    (fun k w => { w with status := status k w.status }) fun _ _ _ => rfl
  refine ⟨_, t, ds, dr, rfl, ?_, ht, hds, hdr⟩
  simp only [Pool.processServerMessages, HashMap.entries_iterMut, hsnd]
  exact hws.map _

theorem broadcastJob (refused : List Nat) (h : SameUpToOrder p q) :
    SameUpToOrder (p.broadcastJob refused) (q.broadcastJob refused) := by
  obtain ⟨ws, t, ds, dr, rfl, hws, ht, hds, hdr⟩ := h
  have hl := HashMap.iterMut_perm_of_log hws ht (fun t _ w => p.broadcastOne refused t w)
    (fun _ w => (p.broadcastOne refused [] w).1) (fun _ w => (p.broadcastOne refused [] w).2)
    fun t _ w => p.broadcastOne_eq refused t w
  exact ⟨_, _, ds, dr, rfl, hl.2, hl.1, hds, hdr⟩

theorem sendJobs (refused : List Nat) (h : SameUpToOrder p q) :
    SameUpToOrder (p.sendJobs refused) (q.sendJobs refused) := by
  obtain ⟨ws, t, ds, dr, rfl, hws, ht, hds, hdr⟩ := h
  have hl := HashMap.iterMut_perm_of_log hws ht (fun t _ w => p.sendJobOne refused t w)
    (fun _ w => (p.sendJobOne refused [] w).1) (fun _ w => (p.sendJobOne refused [] w).2)
    fun t _ w => p.sendJobOne_eq refused t w
  exact ⟨_, _, ds, dr, rfl, hl.2, hl.1, hds, hdr⟩

theorem acceptNewJob (refused : List Nat) (h : SameUpToOrder p q) :
    SameUpToOrder (p.acceptNewJob refused) (q.acceptNewJob refused) := by
  obtain ⟨ws, t, ds, dr, rfl, hws, ht, hds, hdr⟩ := h
  have hb := broadcastJob (p := { p with
      job := { p.server.job with jobId := p.server.job.height * 1000 + p.server.job.jobId },
      trace := p.trace ++ [.adopt p.server.job (decide (p.job.height ≠ p.server.job.height))] }) refused
    ⟨ws, t ++ [.adopt p.server.job (decide (p.job.height ≠ p.server.job.height))], ds, dr, rfl, hws,
      ht.append_right _, hds, hdr⟩
  obtain ⟨ws', t', ds', dr', hq, hws', ht', hds', hdr'⟩ := hb
  unfold Pool.acceptNewJob
  dsimp only
  split
  · rw [hq]
    split
    · exact ⟨ws', t', .empty, dr', rfl, hws', ht', .refl _, hdr'⟩
    · exact ⟨ws', t', ds', dr', rfl, hws', ht', hds', hdr'⟩
  · exact ⟨ws, t, ds, dr, rfl, hws, ht, hds, hdr⟩

theorem cleanWorkers (h : SameUpToOrder p q) :
    SameUpToOrder p.cleanWorkers.1 q.cleanWorkers.1 ∧ q.cleanWorkers.2 = p.cleanWorkers.2 := by
  have hw : q.cleanWorkers.1.workers.entries.Perm p.cleanWorkers.1.workers.entries := by
    obtain ⟨ws, t, ds, dr, rfl, hws, -⟩ := h
    rw [Pool.cleanWorkers_entries, Pool.cleanWorkers_entries]
    exact hws.filter _
  have hdr := h.dropped_perm_of_balance p.cleanWorkers_balance q.cleanWorkers_balance hw
  obtain ⟨ws, t, ds, dr, rfl, -, ht, hds, -⟩ := h
  exact ⟨.of_fields rfl hw ht hds hdr, hw.length_eq⟩

/-! ### The two steps that read the order -/

theorem processWorkerMessages (inbound : String → Inbound) (hr : RekeyFresh p inbound) (h : SameUpToOrder p q) :
    SameUpToOrder (p.processWorkerMessages inbound) (q.processWorkerMessages inbound) := by
  have hw : (q.processWorkerMessages inbound).workers.entries.Perm (p.processWorkerMessages inbound).workers.entries := by
    obtain ⟨ws, t, ds, dr, rfl, hws, -⟩ := h
    have hr' : RekeyFresh { p with workers := ws, trace := t, duplicates := ds, dropped := dr } inbound :=
      hr.of_keys_perm (hws.map Prod.fst)
    refine (List.perm_ext_iff_of_nodup (List.Nodup.of_map Prod.fst (HashMap.nodup _))
      (List.Nodup.of_map Prod.fst (HashMap.nodup _))).2 fun ⟨k, w⟩ => ⟨fun hm => ?_, fun hm => ?_⟩
    · obtain ⟨k₀, w₀, h₀, rfl, rfl⟩ := Pool.exists_of_mem_processWorkerMessages hr' hm
      exact Pool.mem_processWorkerMessages_of_mem hr (hws.subset h₀)
    · obtain ⟨k₀, w₀, h₀, rfl, rfl⟩ := Pool.exists_of_mem_processWorkerMessages hr hm
      exact Pool.mem_processWorkerMessages_of_mem hr' (hws.symm.subset h₀)
  have hdr := h.dropped_perm_of_balance (p.processWorkerMessages_balance inbound)
    (q.processWorkerMessages_balance inbound) hw
  obtain ⟨ws, t, ds, dr, rfl, -, ht, hds, -⟩ := h
  exact .of_fields rfl hw ht hds hdr

/-- When no pow vector is queued twice, `process_shares` treats each worker alone, whatever the order: it panics
in both orders or in neither, and otherwise leaves pools that differ only in order. -/
theorem processShares (lib : PowLib Header) (hnd : ((p.workers.collect (·.shares)).map (·.pow)).Nodup)
    (h : SameUpToOrder p q) : Option.Rel SameUpToOrder (p.processShares lib) (q.processShares lib) := by
  obtain ⟨ws, t, ds, dr, rfl, hws, ht, hds, hdr⟩ := h
  have hc : (ws.collect (·.shares)).Perm (p.workers.collect (·.shares)) := hws.flatMap_right _
  have hp := p.sharePass_alone lib p.duplicates hnd fun _ _ => rfl
  have hq := Pool.sharePass_alone lib { p with workers := ws, trace := t, duplicates := ds, dropped := dr }
    p.duplicates ((hc.map _).nodup_iff.2 hnd) fun s _ => HashMap.containsKey_eq_of_perm hds s.pow
  have hpass : SameUpToOrder (p.sharePass lib)
      ({ p with workers := ws, trace := t, duplicates := ds, dropped := dr }.sharePass lib) := by
    refine .of_fields rfl ?_ ?_ ?_ hdr
    · rw [hq.1, hp.1]
      exact hws.map _
    · rw [hq.2.2, hp.2.2]
      exact ht.append (hws.flatMap_right _)
    · rw [hq.2.1, hp.2.1]
      exact hds.append (hws.flatMap_right _)
  have hpanic : Event.panic ∈ (ws.entries.flatMap fun e => e.2.shares.flatMap
      (shareEvents lib p.job p.jobVersions p.duplicates e.2)) ↔ Event.panic ∈ (p.workers.entries.flatMap
        fun e => e.2.shares.flatMap (shareEvents lib p.job p.jobVersions p.duplicates e.2)) :=
    (hws.flatMap_right _).mem_iff
  unfold Pool.processShares
  dsimp only
  simp only [hp.2.2, hq.2.2, List.drop_left, hpanic]
  split
  exacts [.none, .some hpass]

end SameUpToOrder

/-! ### Runs -/

/-- Two states at the same point of the loop whose pools differ only in order. -/
def Sys.SameUpToOrder (s t : Sys) : Prop := t.phase = s.phase ∧ GrinPool.SameUpToOrder s.pool t.pool

/-- What a step needs for its effect not to depend on the order: `process_worker_messages` re-keys onto free
keys, and `process_shares` finds no pow vector queued twice. -/
def OrderBlind (p : Pool) : Action → Prop
  | .workerMessages inbound => RekeyFresh p inbound
  | .processShares => ((p.workers.collect (·.shares)).map (·.pow)).Nodup
  | .accept _ _ | .reorder _ | .connect _ _ | .serverMessages _ _ | .acceptNewJob _ | .sendJobs _ | .cleanWorkers =>
    True

instance instDecidableOrderBlind (p : Pool) : (a : Action) → Decidable (OrderBlind p a)
  | .workerMessages inbound => inferInstanceAs (Decidable (RekeyFresh p inbound))
  | .processShares => inferInstanceAs (Decidable (List.Nodup _))
  | .accept _ _ | .reorder _ | .connect _ _ | .serverMessages _ _ | .acceptNewJob _ | .sendJobs _ | .cleanWorkers =>
    isTrue trivial

namespace Sys.SameUpToOrder

variable {s t : Sys}

theorem advance (h : s.SameUpToOrder t) (ph next : Phase) (f : Pool → Pool)
    (hf : GrinPool.SameUpToOrder (f s.pool) (f t.pool)) :
    Option.Rel Sys.SameUpToOrder (s.advance ph next f) (t.advance ph next f) := by
  unfold Sys.advance
  rw [h.1]
  split
  exacts [.some ⟨rfl, hf⟩, .none]

/-- One step from two states that differ only in order, under `OrderBlind`: both steps fail, or both lead to
states that differ only in order. -/
theorem step (lib : PowLib Header) (h : s.SameUpToOrder t) {a : Action} (ha : OrderBlind s.pool a) :
    Option.Rel Sys.SameUpToOrder (GrinPool.step lib s a) (GrinPool.step lib t a) := by
  cases a with
  | accept n st =>
    have hst := h.2.streams_perm.mem_iff (a := st)
    simp only [GrinPool.step]
    by_cases hs : st ∈ s.pool.streams
    · rw [if_pos hs, if_pos (hst.2 hs)]
      exact .none
    · rw [if_neg hs, if_neg (mt hst.1 hs)]
      exact .some ⟨h.1, h.2.acceptWorker n st⟩
  | reorder l =>
    obtain ⟨hph, ws, tr, ds, dr, hq, hws, ht, hds, hdr⟩ := h
    simp only [GrinPool.step, HashMap.reorder?, hq]
    by_cases hl : l.Perm s.pool.workers.entries
    · rw [dif_pos hl, dif_pos (hl.trans hws.symm)]
      exact .some ⟨hph, _, tr, ds, dr, rfl, .refl _, ht, hds, hdr⟩
    · rw [dif_neg hl, dif_neg fun h' => hl (h'.trans hws)]
      exact .none
  | connect ok job =>
    simp only [GrinPool.step]
    split
    exacts [h.advance _ _ _ (h.2.setServer job), h.advance _ _ _ h.2]
  | serverMessages job status => exact h.advance _ _ _ (h.2.processServerMessages job status)
  | acceptNewJob refused => exact h.advance _ _ _ (h.2.acceptNewJob refused)
  | workerMessages inbound => exact h.advance _ _ _ (h.2.processWorkerMessages inbound ha)
  | processShares =>
    have hr := h.2.processShares lib ha
    simp only [GrinPool.step, h.1]
    split
    · revert hr
      generalize s.pool.processShares lib = o₁
      generalize t.pool.processShares lib = o₂
      rintro (hr | _)
      exacts [.some ⟨rfl, hr⟩, .none]
    · exact .none
  | sendJobs refused => exact h.advance _ _ _ (h.2.sendJobs refused)
  | cleanWorkers => exact h.advance _ _ (fun p => p.cleanWorkers.1) h.2.cleanWorkers.1

end Sys.SameUpToOrder

/-- **The iteration order of the registry changes nothing but orders, as long as no re-keying collides and no
pow vector is queued twice in a tick**: two runs from states that differ only in the order of the registry, the
history and the duplicate set, driven by the same actions, both get stuck or neither, and end in states that
differ only in that order, with the same job, job versions, upstream template and difficulties, and the same
records under the same keys. -/
theorem run_ignores_iteration_order (lib : PowLib Header) :
    ∀ (as : List Action) {s t : Sys}, s.SameUpToOrder t → EveryStep lib OrderBlind s as →
      Option.Rel Sys.SameUpToOrder (run lib s as) (run lib t as)
  | [], _, _, h, _ => .some h
  | a :: as, s, t, h, ⟨ha, has⟩ => by
    have hr := h.step lib ha
    simp only [run]
    revert has
    generalize step lib s a = o₁ at hr ⊢
    generalize step lib t a = o₂ at hr ⊢
    cases hr with
    | none => exact fun _ => .none
    | some h' => exact fun has => run_ignores_iteration_order lib as h' (has _ rfl)

/-- `twoWorkers` with its registry iterated in the opposite order. -/
def twoWorkersReversed : Sys :=
  { twoWorkers with pool := { twoWorkers.pool with workers :=
      ⟨twoWorkers.pool.workers.entries.reverse, by
        rw [List.map_reverse]
        exact List.nodup_reverse.2 twoWorkers.pool.workers.nodup⟩ } }

/-- The rest of a tick from `twoWorkers`, each worker submitting one share. -/
def twoSharesTick : List Action := [.workerMessages twoShares, .processShares, .sendJobs [], .cleanWorkers]

theorem run_ignores_iteration_order_twoWorkers :
    twoWorkers.SameUpToOrder twoWorkersReversed ∧ EveryStep PowLib.lenient OrderBlind twoWorkers twoSharesTick ∧
    Option.Rel Sys.SameUpToOrder (run PowLib.lenient twoWorkers twoSharesTick)
      (run PowLib.lenient twoWorkersReversed twoSharesTick) :=
  have h : twoWorkers.SameUpToOrder twoWorkersReversed :=
    ⟨rfl, _, _, _, _, rfl, List.reverse_perm _, .refl _, .refl _, .refl _⟩
  ⟨h, by decide, run_ignores_iteration_order PowLib.lenient twoSharesTick h (by decide)⟩

/-- Without `RekeyFresh` the order shows: when the worker under key 1 logs in as "2" and the one under key 2
as "3", one order loses a record and the other keeps both. -/
example : (run PowLib.lenient twoWorkers [.workerMessages chainLogin]).map (·.pool.workers.len) = some 1 ∧
    (run PowLib.lenient twoWorkersReversed [.workerMessages chainLogin]).map (·.pool.workers.len) = some 2 := by
  decide

end GrinPool
