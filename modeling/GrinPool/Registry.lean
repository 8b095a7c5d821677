import GrinPool.History

/-!
# The worker registry

The registry maps string keys to worker records, one record per connection: a record is known by its
stream, and streams stay pairwise distinct in every reachable state (`Reachable.streams_nodup`), because
the acceptor never registers a stream twice and every other step keeps the registry's streams or drops
some (`PoolStep.streams_nodup`). Which records a step can drop is the question.

`clean_workers` drops exactly the records in error (`cleanWorkers_entries`). Two other steps can drop a
record by overwriting it: a registration whose random key is already in use, and the re-keying loop of
`process_worker_messages` (lines 233-239), which removes each moved record and inserts it under its full id
one at a time, so an insertion can land on a key still held by another record. `RekeyFresh` says no move
lands on a key in use or on another moved record's new key; then every record survives under its full id
(`processWorkerMessages_keys_by_fullId`).
-/

namespace GrinPool

variable {Header : Type}

/-! ### Streams -/

theorem Pool.streams_eq_collect (p : Pool) : p.streams = p.workers.collect fun w => [w.stream] :=
  List.map_eq_flatMap _ _

theorem Pool.mem_streams {p : Pool} {k : String} {w : Worker} (h : (k, w) ∈ p.workers.entries) :
    w.stream ∈ p.streams :=
  List.mem_map_of_mem (·.2.stream) h

theorem nodup_of_subperm {l₁ l₂ : List Nat} (h : l₁.Subperm l₂) (hd : l₂.Nodup) : l₁.Nodup := by
  obtain ⟨l, hp, hs⟩ := h
  exact hp.nodup_iff.1 (hd.sublist hs)

/-! ### Reading the workers' messages -/

/-- The keys `process_worker_messages` moves: those whose worker's full id after its messages is not its
key (line 224). -/
def movedKeys (p : Pool) (inbound : String → Inbound) : List String :=
  p.workers.keys.filter fun k => k ≠ (inbound k).fullId

theorem movedKeys_sub (p : Pool) (inbound : String → Inbound) : ∀ k ∈ movedKeys p inbound, k ∈ p.workers.keys :=
  fun _ h => (List.mem_filter.1 h).1

/-- The re-keying of `process_worker_messages` lands on free keys: the new full ids of the moved workers are
pairwise distinct and none is a key in use before the call. -/
def RekeyFresh (p : Pool) (inbound : String → Inbound) : Prop :=
  (∀ k ∈ movedKeys p inbound, (inbound k).fullId ∉ p.workers.keys) ∧
  ∀ k₁ ∈ movedKeys p inbound, ∀ k₂ ∈ movedKeys p inbound, (inbound k₁).fullId = (inbound k₂).fullId → k₁ = k₂

instance instDecidableRekeyFresh (p : Pool) (inbound : String → Inbound) : Decidable (RekeyFresh p inbound) :=
  inferInstanceAs (Decidable (_ ∧ _))

namespace Pool

theorem readWorker_eq (p : Pool) (inbound : String → Inbound) (ids : List String) (k : String) (w : Worker) :
    p.readWorker inbound ids k w =
      (if k ≠ (inbound k).fullId then ids ++ [k] else ids, (p.readWorker inbound [] k w).2) := by
  unfold readWorker
  simp only [Worker.processMessages_fullId]
  by_cases h : k ≠ (inbound k).fullId
  · simp only [if_pos h, List.nil_append]
  · simp only [if_neg h]

@[simp] theorem readWorker_fullId (p : Pool) (inbound : String → Inbound) (ids : List String) (k : String)
    (w : Worker) : (p.readWorker inbound ids k w).2.fullId = (inbound k).fullId := by
  unfold readWorker
  dsimp only
  split <;> rfl

@[simp] theorem readWorker_stream (p : Pool) (inbound : String → Inbound) (ids : List String) (k : String)
    (w : Worker) : (p.readWorker inbound ids k w).2.stream = w.stream := by
  unfold readWorker
  dsimp only
  split <;> rfl

theorem iterMutList_readWorker (p : Pool) (inbound : String → Inbound) :
    ∀ (ids : List String) (l : List (String × Worker)),
      HashMap.iterMutList (p.readWorker inbound) ids l =
        (ids ++ (l.map Prod.fst).filter (fun k => k ≠ (inbound k).fullId),
          l.map fun e => (e.1, (p.readWorker inbound [] e.1 e.2).2))
  | ids, [] => by simp [HashMap.iterMutList]
  | ids, (k, w) :: l => by
    simp only [HashMap.iterMutList, readWorker_eq p inbound ids k w, iterMutList_readWorker p inbound _ l,
      List.map_cons, List.filter_cons]
    by_cases h : k ≠ (inbound k).fullId
    · simp only [if_pos h, decide_eq_true h, if_true, List.append_assoc, List.singleton_append]
    · simp only [if_neg h, decide_eq_false h, Bool.false_eq_true, if_false]

theorem readWorkers_fst (p : Pool) (inbound : String → Inbound) :
    (p.workers.iterMut [] (p.readWorker inbound)).1 = movedKeys p inbound := by
  simp [HashMap.iterMut, iterMutList_readWorker, movedKeys, HashMap.keys]

theorem readWorkers_entries (p : Pool) (inbound : String → Inbound) :
    (p.workers.iterMut [] (p.readWorker inbound)).2.entries =
      p.workers.entries.map fun e => (e.1, (p.readWorker inbound [] e.1 e.2).2) := by
  simp [HashMap.iterMut, iterMutList_readWorker]

theorem mem_readWorkers_entries (p : Pool) (inbound : String → Inbound) (k : String) (w : Worker) :
    (k, w) ∈ (p.workers.iterMut [] (p.readWorker inbound)).2.entries ↔
      ∃ w₀, (k, w₀) ∈ p.workers.entries ∧ w = (p.readWorker inbound [] k w₀).2 := by
  simp only [readWorkers_entries, List.mem_map, Prod.exists, Prod.mk.injEq, @eq_comm _ w]
  exact ⟨fun ⟨_, w₀, hm, he, h⟩ => ⟨w₀, he ▸ hm, he ▸ h⟩,
    fun ⟨w₀, hm, h⟩ => ⟨_, w₀, hm, rfl, h⟩⟩

end Pool

/-! ### Re-keying -/

theorem mem_rekey {m : HashMap String Worker} {k : String} {w : Worker} (hw : (k, w) ∈ m.entries)
    (k' : String) (v : Worker) :
    (k', v) ∈ (Pool.rekey m k).entries ↔
      (k' = w.fullId ∧ v = w) ∨ (k' ≠ w.fullId ∧ k' ≠ k ∧ (k', v) ∈ m.entries) := by
  have hget : m.remove k = (some w, (m.remove k).2) := Prod.ext (HashMap.get?_eq_some_iff.2 hw) rfl
  unfold Pool.rekey
  rw [hget]
  simp only [HashMap.mem_entries_insert, HashMap.mem_entries_remove]

theorem collect_rekey_subperm {γ : Type} (g : Worker → List γ) (m : HashMap String Worker) (k : String) :
    ((Pool.rekey m k).collect g).Subperm (m.collect g) := by
  unfold Pool.rekey
  cases hget : m.get? k with
  | none =>
    rw [show m.remove k = (none, (m.remove k).2) from Prod.ext hget rfl]
    exact (HashMap.collect_remove_sublist g m k).subperm
  | some w =>
    rw [show m.remove k = (some w, (m.remove k).2) from Prod.ext hget rfl]
    exact (HashMap.collect_insert_subperm g _ _ _).trans
      (HashMap.collect_remove_perm g (HashMap.get?_eq_some_iff.1 hget)).subperm

theorem collect_foldl_rekey_subperm {γ : Type} (g : Worker → List γ) :
    ∀ (ids : List String) (m : HashMap String Worker), ((ids.foldl Pool.rekey m).collect g).Subperm (m.collect g)
  | [], _ => List.Subperm.refl _
  | k :: ids, m => (collect_foldl_rekey_subperm g ids (Pool.rekey m k)).trans (collect_rekey_subperm g m k)

/-- The re-keying loop, when every move lands on a free key: the records not moved stay, and each moved
record is found under its full id. -/
theorem mem_foldl_rekey (m : HashMap String Worker) (ids : List String) (hnd : ids.Nodup)
    (hk : ∀ k ∈ ids, k ∈ m.keys) (hfresh : ∀ k ∈ ids, ∀ w, (k, w) ∈ m.entries → w.fullId ∉ m.keys)
    (hdist : ∀ k₁ ∈ ids, ∀ k₂ ∈ ids, ∀ w₁ w₂, (k₁, w₁) ∈ m.entries → (k₂, w₂) ∈ m.entries →
      w₁.fullId = w₂.fullId → k₁ = k₂) (k' : String) (v : Worker) :
    (k', v) ∈ (ids.foldl Pool.rekey m).entries ↔
      ((k', v) ∈ m.entries ∧ k' ∉ ids) ∨ ∃ k ∈ ids, (k, v) ∈ m.entries ∧ k' = v.fullId := by
  induction ids using List.reverseRecOn generalizing k' v with
  | nil => simp
  | append_singleton D k ih =>
    rw [List.nodup_append] at hnd
    have hkD : k ∉ D := fun h => hnd.2.2 h (List.mem_singleton_self k)
    have ihD := ih hnd.1 (fun k h => hk k (List.mem_append_left _ h))
      (fun k h => hfresh k (List.mem_append_left _ h))
      (fun k₁ h₁ k₂ h₂ => hdist k₁ (List.mem_append_left _ h₁) k₂ (List.mem_append_left _ h₂))
    obtain ⟨w, hw⟩ := HashMap.mem_keys_iff.1 (hk k (by simp))
    have hwf : w.fullId ∉ m.keys := hfresh k (by simp) w hw
    rw [List.foldl_append, List.foldl_cons, List.foldl_nil,
      mem_rekey ((ihD k w).2 (.inl ⟨hw, hkD⟩)), ihD]
    constructor
    · rintro (⟨rfl, rfl⟩ | ⟨-, h₂, ⟨hm, hD⟩ | ⟨k₀, hk₀, hm, rfl⟩⟩)
      · exact .inr ⟨k, by simp, hw, rfl⟩
      · exact .inl ⟨hm, by simp [hD, h₂]⟩
      · exact .inr ⟨k₀, List.mem_append_left _ hk₀, hm, rfl⟩
    · rintro (⟨hm, hD⟩ | ⟨k₀, hk₀, hm, rfl⟩)
      · rw [List.mem_append, List.mem_singleton, not_or] at hD
        exact .inr ⟨fun h => hwf (h ▸ HashMap.mem_keys_iff.2 ⟨v, hm⟩), hD.2, .inl ⟨hm, hD.1⟩⟩
      · rcases List.mem_append.1 hk₀ with hk₀ | hk₀
        · refine .inr ⟨fun h => hkD ?_, fun h => hfresh k₀ (List.mem_append_left _ hk₀) v hm ?_,
            .inr ⟨k₀, hk₀, hm, rfl⟩⟩
          · exact hdist k₀ (List.mem_append_left _ hk₀) k (by simp) v w hm hw h ▸ hk₀
          · exact h ▸ hk k (by simp)
        · obtain rfl := List.mem_singleton.1 hk₀
          obtain rfl : v = w := congrArg Prod.snd (m.eq_of_mem_of_fst_eq hm hw rfl)
          exact .inl ⟨rfl, rfl⟩

namespace Pool

theorem processWorkerMessages_collect_subperm {γ : Type} (g : Worker → List γ) (p : Pool)
    (inbound : String → Inbound) (hg : ∀ k w, (g (p.readWorker inbound [] k w).2).Sublist (g w)) :
    ((p.processWorkerMessages inbound).workers.collect g).Subperm (p.workers.collect g) :=
  (collect_foldl_rekey_subperm g _ _).trans
    (HashMap.collect_iterMut_sublist g _ _ _ fun ids k w => by rw [readWorker_eq]; exact hg k w).subperm

/-- Under `RekeyFresh`, a record is in the registry after `process_worker_messages` exactly when it was read
and not moved, or read and moved to its full id. -/
theorem mem_processWorkerMessages_iff (p : Pool) (inbound : String → Inbound) (h : RekeyFresh p inbound)
    (k : String) (w : Worker) :
    (k, w) ∈ (p.processWorkerMessages inbound).workers.entries ↔
      ((k, w) ∈ (p.workers.iterMut [] (p.readWorker inbound)).2.entries ∧ k ∉ movedKeys p inbound) ∨
        ∃ k₀ ∈ movedKeys p inbound, (k₀, w) ∈ (p.workers.iterMut [] (p.readWorker inbound)).2.entries ∧
          k = w.fullId := by
  have hkeys : (p.workers.iterMut [] (p.readWorker inbound)).2.keys = p.workers.keys :=
    HashMap.keys_iterMut _ _ _
  have hmem := p.mem_readWorkers_entries inbound
  show (k, w) ∈ ((p.workers.iterMut [] (p.readWorker inbound)).1.foldl rekey _).entries ↔ _
  rw [readWorkers_fst]
  exact mem_foldl_rekey _ _ (p.workers.nodup.filter _) (fun k₀ h₀ => hkeys ▸ movedKeys_sub p inbound k₀ h₀)
    (fun k₀ h₀ w' hw' => by
      obtain ⟨w₀, -, rfl⟩ := (hmem k₀ w').1 hw'
      simpa [hkeys] using h.1 k₀ h₀)
    (fun k₁ h₁ k₂ h₂ w₁ w₂ hw₁ hw₂ he => by
      obtain ⟨w₁', -, rfl⟩ := (hmem k₁ w₁).1 hw₁
      obtain ⟨w₂', -, rfl⟩ := (hmem k₂ w₂).1 hw₂
      exact h.2 k₁ h₁ k₂ h₂ (by simpa using he)) k w

theorem mem_processWorkerMessages_of_mem {p : Pool} {inbound : String → Inbound} (h : RekeyFresh p inbound)
    {k : String} {w : Worker} (hw : (k, w) ∈ p.workers.entries) :
    ((p.readWorker inbound [] k w).2.fullId, (p.readWorker inbound [] k w).2) ∈
      (p.processWorkerMessages inbound).workers.entries := by
  have hr := (p.mem_readWorkers_entries inbound k _).2 ⟨w, hw, rfl⟩
  rw [mem_processWorkerMessages_iff p inbound h]
  by_cases hk : k ∈ movedKeys p inbound
  · exact .inr ⟨k, hk, hr, rfl⟩
  · have hid : k = (inbound k).fullId := by simpa [movedKeys, HashMap.mem_keys_iff.2 ⟨w, hw⟩] using hk
    rw [readWorker_fullId, ← hid]
    exact .inl ⟨hr, hk⟩

theorem exists_of_mem_processWorkerMessages {p : Pool} {inbound : String → Inbound} (h : RekeyFresh p inbound)
    {k : String} {w : Worker} (hw : (k, w) ∈ (p.processWorkerMessages inbound).workers.entries) :
    ∃ k₀ w₀, (k₀, w₀) ∈ p.workers.entries ∧ w = (p.readWorker inbound [] k₀ w₀).2 ∧
      k = w.fullId := by
  rcases (mem_processWorkerMessages_iff p inbound h k w).1 hw with ⟨hm, hk⟩ | ⟨k₀, -, hm, rfl⟩
  · obtain ⟨w₀, hw₀, rfl⟩ := (p.mem_readWorkers_entries inbound k w).1 hm
    refine ⟨k, w₀, hw₀, rfl, ?_⟩
    simpa [movedKeys, HashMap.mem_keys_iff.2 ⟨w₀, hw₀⟩] using hk
  · obtain ⟨w₀, hw₀, rfl⟩ := (p.mem_readWorkers_entries inbound k₀ _).1 hm
    exact ⟨k₀, w₀, hw₀, rfl, rfl⟩

end Pool

/-- **When every re-keyed worker's new full id is fresh, `process_worker_messages` leaves every record
under its full id**: the registry holds exactly the records as their messages left them, each keyed by
`full_id()`, whatever the iteration order. -/
theorem processWorkerMessages_keys_by_fullId (p : Pool) (inbound : String → Inbound)
    (h : RekeyFresh p inbound) :
    ∀ k w, (k, w) ∈ (p.processWorkerMessages inbound).workers.entries ↔
      ∃ k₀ w₀, (k₀, w₀) ∈ p.workers.entries ∧ w = (p.readWorker inbound [] k₀ w₀).2 ∧ k = w.fullId :=
  fun _ _ => ⟨Pool.exists_of_mem_processWorkerMessages h, by
    rintro ⟨k₀, w₀, hw, rfl, rfl⟩
    exact Pool.mem_processWorkerMessages_of_mem h hw⟩

theorem rekey_keys {m : HashMap String Worker} {k : String} {rest : List String}
    (hm : ∀ e ∈ m.entries, e.1 = e.2.fullId ∨ e.1 ∈ k :: rest) :
    ∀ e ∈ (Pool.rekey m k).entries, e.1 = e.2.fullId ∨ e.1 ∈ rest := by
  have hrem : ∀ e ∈ (m.remove k).2.entries, e.1 = e.2.fullId ∨ e.1 ∈ rest := fun ⟨k', v⟩ he => by
    obtain ⟨hne, he⟩ := HashMap.mem_entries_remove.1 he
    exact (hm _ he).imp_right fun h => (List.mem_cons.1 h).resolve_left hne
  unfold Pool.rekey
  cases hget : m.get? k with
  | none =>
    rw [show m.remove k = (none, (m.remove k).2) from Prod.ext hget rfl]
    exact hrem
  | some w =>
    rw [show m.remove k = (some w, (m.remove k).2) from Prod.ext hget rfl]
    rintro ⟨k', v⟩ he
    rcases HashMap.mem_entries_insert.1 he with ⟨rfl, rfl⟩ | ⟨-, he⟩
    exacts [.inl rfl, hrem _ he]

theorem foldl_rekey_keys : ∀ (ids : List String) (m : HashMap String Worker),
    (∀ e ∈ m.entries, e.1 = e.2.fullId ∨ e.1 ∈ ids) → ∀ e ∈ (ids.foldl Pool.rekey m).entries, e.1 = e.2.fullId
  | [], _, hm => fun e he => (hm e he).resolve_right (List.not_mem_nil _)
  | _ :: ids, _, hm => foldl_rekey_keys ids _ (rekey_keys hm)

/-- **`process_worker_messages` leaves every record under its full id**, whatever the iteration order and
whatever its re-keying overwrites: a chain of moves may lose a record, but none is left under a key that is
not its worker's `full_id()`. -/
theorem processWorkerMessages_every_key_is_fullId (p : Pool) (inbound : String → Inbound) :
    ∀ e ∈ (p.processWorkerMessages inbound).workers.entries, e.1 = e.2.fullId := by
  refine foldl_rekey_keys _ _ fun ⟨k, w⟩ he => ?_
  obtain ⟨w₀, hw₀, rfl⟩ := (p.mem_readWorkers_entries inbound k w).1 he
  rw [Pool.readWorkers_fst, Pool.readWorker_fullId]
  by_cases h : k = (inbound k).fullId
  · exact .inl h
  · exact .inr (List.mem_filter.2 ⟨HashMap.mem_keys_iff.2 ⟨w₀, hw₀⟩, decide_eq_true h⟩)

/-! ### What each step does to the streams -/

namespace Pool

theorem broadcastOne_stream (p : Pool) (refused : List Nat) (t : List Event) (w : Worker) :
    (p.broadcastOne refused t w).2.stream = w.stream := by
  unfold broadcastOne
  split <;> rfl

theorem sendJobOne_stream (p : Pool) (refused : List Nat) (t : List Event) (w : Worker) :
    (p.sendJobOne refused t w).2.stream = w.stream := by
  unfold sendJobOne
  split <;> rfl

theorem foldl_processShare_stream (lib : PowLib Header) (job : JobTemplate) (jobVersions : HashMap UInt64 String) :
    ∀ (ss : List SubmitParams) (c : ShareCtx),
      (ss.foldl (processShare lib job jobVersions) c).worker.stream = c.worker.stream
  | [], _ => rfl
  | s :: ss, c => by
    rw [List.foldl_cons, foldl_processShare_stream lib job jobVersions ss, processShare_worker]
    simp [Worker.settle_eq]

theorem processServerMessages_streams (p : Pool) (job : JobTemplate)
    (status : String → WorkerStatus → WorkerStatus) : (p.processServerMessages job status).streams = p.streams := by
  simp only [streams_eq_collect]
  exact HashMap.collect_iterMut _ _ _ _ fun _ _ _ => rfl

theorem broadcastJob_streams (p : Pool) (refused : List Nat) : (p.broadcastJob refused).streams = p.streams := by
  simp only [streams_eq_collect]
  exact HashMap.collect_iterMut _ _ _ _ fun t _ w => by rw [broadcastOne_stream]

theorem acceptNewJob_streams (p : Pool) (refused : List Nat) : (p.acceptNewJob refused).streams = p.streams := by
  unfold acceptNewJob
  split
  · dsimp only
    split <;> exact broadcastJob_streams _ _
  · rfl

theorem sharePass_streams (lib : PowLib Header) (p : Pool) : (p.sharePass lib).streams = p.streams := by
  simp only [streams_eq_collect]
  exact HashMap.collect_iterMut _ _ _ _ fun acc _ w => by
    simp only [shareLoopBody, processWorkerShares, foldl_processShare_stream]

theorem sendJobs_streams (p : Pool) (refused : List Nat) : (p.sendJobs refused).streams = p.streams := by
  simp only [streams_eq_collect]
  exact HashMap.collect_iterMut _ _ _ _ fun t _ w => by rw [sendJobOne_stream]

/-- **`clean_workers` removes exactly the records in error**, whatever their order. -/
theorem cleanWorkers_entries (p : Pool) :
    p.cleanWorkers.1.workers.entries = p.workers.entries.filter fun e => !e.2.error := by
  show (((p.workers.entries.filter (·.2.error)).map Prod.fst).foldl (fun m k => (m.remove k).2) p.workers).entries = _
  rw [HashMap.entries_foldl_remove]
  refine List.filter_congr fun e he => ?_
  by_cases herr : e.2.error = true
  · rw [herr]
    simp only [Bool.not_true, decide_eq_false_iff_not, not_not]
    exact List.mem_map_of_mem Prod.fst (List.mem_filter.2 ⟨he, herr⟩)
  · simp only [herr, Bool.not_false, decide_eq_true_eq, List.mem_map, List.mem_filter, not_exists, not_and]
    intro e' he' hk
    exact herr (p.workers.eq_of_mem_of_fst_eq he'.1 he hk ▸ he'.2)

theorem collect_cleanWorkers_sublist {γ : Type} (g : Worker → List γ) (p : Pool) :
    (p.cleanWorkers.1.workers.collect g).Sublist (p.workers.collect g) := by
  rw [HashMap.collect, cleanWorkers_entries]
  exact HashMap.flatMap_sublist_of_sublist g (List.filter_sublist _)

end Pool

/-- No step registers a stream twice: the streams after a step are a sub-multiset of those before, and of
those before with the new connection's when it registers one not already there. -/
theorem PoolStep.streams_nodup {lib : PowLib Header} {p p' : Pool} (h : PoolStep lib p p') (hd : p.streams.Nodup) :
    p'.streams.Nodup := by
  cases h with
  | accept n st hst =>
    have hsub : (Pool.acceptWorker n st p).streams.Subperm (p.streams ++ [st]) := by
      simp only [Pool.streams_eq_collect]
      exact HashMap.collect_insert_subperm _ _ _ _
    exact nodup_of_subperm hsub (List.nodup_append.2
      ⟨hd, List.nodup_singleton st, fun x hx hx' => hst (List.mem_singleton.1 hx' ▸ hx)⟩)
  | reorder hws =>
    rw [Pool.streams_eq_collect] at hd ⊢
    exact (HashMap.collect_reorder? _ hws).nodup_iff.2 hd
  | connect => exact hd
  | serverMessages => rwa [Pool.processServerMessages_streams]
  | acceptNewJob => rwa [Pool.acceptNewJob_streams]
  | workerMessages inbound =>
    rw [Pool.streams_eq_collect] at hd ⊢
    exact nodup_of_subperm (Pool.processWorkerMessages_collect_subperm _ p inbound fun k w => by simp) hd
  | processShares h => rwa [Pool.eq_sharePass_of_processShares h, Pool.sharePass_streams]
  | sendJobs => rwa [Pool.sendJobs_streams]
  | cleanWorkers =>
    rw [Pool.streams_eq_collect] at hd ⊢
    exact hd.sublist (Pool.collect_cleanWorkers_sublist _ p)

theorem Reachable.streams_nodup {lib : PowLib Header} {d : UInt64} {job : JobTemplate} {s : Sys}
    (hs : Reachable lib d job s) : s.pool.streams.Nodup :=
  hs.pool_induction (fun p => p.streams.Nodup) List.nodup_nil fun _ _ h hd => h.streams_nodup hd

/-! ### Which records a step keeps -/

/-- **Without key collisions, a record leaves the registry only when `clean_workers` finds it in error**,
and `clean_workers` removes exactly the records in error and returns how many remain. A record is known by
its connection, whose stream no other record shares. The collisions are a registration under a random key
already in use, and a re-keying that lands on a key in use or on another moved record's new full id. -/
theorem record_leaves_only_when_cleaned {lib : PowLib Header} {d : UInt64} {job : JobTemplate} {s s' : Sys}
    {a : Action} (hs : Reachable lib d job s) (h : step lib s a = some s')
    (hacc : ∀ n st, a = .accept n st → toString n ∉ s.pool.workers.keys)
    (hmsg : ∀ inbound, a = .workerMessages inbound → RekeyFresh s.pool inbound) :
    s.pool.streams.Nodup ∧
    (∀ k w, (k, w) ∈ s.pool.workers.entries →
      w.stream ∈ s'.pool.streams ∨ (a = .cleanWorkers ∧ w.error = true)) ∧
    (a = .cleanWorkers → s'.pool.workers.entries = s.pool.workers.entries.filter (fun e => !e.2.error) ∧
      s'.pool.workers.len = s.pool.cleanWorkers.2) := by
  have hp := step_pool_eq h
  refine ⟨hs.streams_nodup, fun k w hw => ?_, fun ha => ?_⟩
  · have hmem := Pool.mem_streams hw
    cases a with
    | accept n st =>
      left
      rw [hp.2, Pool.streams_eq_collect, Pool.acceptWorker, HashMap.collect_insert_of_not_mem _ (hacc n st rfl),
        ← Pool.streams_eq_collect]
      exact List.mem_append_left _ hmem
    | reorder l =>
      obtain ⟨ws, hws, he⟩ := hp
      left
      rw [he, Pool.streams_eq_collect]
      exact (HashMap.collect_reorder? _ hws).mem_iff.2 (Pool.streams_eq_collect _ ▸ hmem)
    | connect ok job' => exact .inl (by rw [hp]; split <;> exact hmem)
    | serverMessages job' status => exact .inl (by rwa [hp, Pool.processServerMessages_streams])
    | acceptNewJob refused => exact .inl (by rwa [hp, Pool.acceptNewJob_streams])
    | workerMessages inbound =>
      simpa [hp] using Pool.mem_streams (Pool.mem_processWorkerMessages_of_mem (hmsg inbound rfl) hw)
    | processShares => exact .inl (by rwa [Pool.eq_sharePass_of_processShares hp, Pool.sharePass_streams])
    | sendJobs refused => exact .inl (by rwa [hp, Pool.sendJobs_streams])
    | cleanWorkers =>
      by_cases herr : w.error = true
      · exact .inr ⟨rfl, herr⟩
      · left
        show w.stream ∈ s'.pool.workers.entries.map (·.2.stream)
        rw [hp, Pool.cleanWorkers_entries]
        exact List.mem_map.2 ⟨(k, w), List.mem_filter.2 ⟨hw, by simpa using herr⟩, rfl⟩
  · subst ha
    have hp : s'.pool = s.pool.cleanWorkers.1 := hp
    exact ⟨hp ▸ Pool.cleanWorkers_entries _, hp ▸ rfl⟩

/-! ### Two sample runs -/

/-- Two registrations draw the same random key 7: the second overwrites the first, whose connection leaves
the registry with no `clean_workers` step. -/
theorem accept_same_key_overwrites :
    (run PowLib.lenient sampleStart [.accept 7 1, .accept 7 2]).map (·.pool.streams) = some [2] := by
  decide

/-- Two connections registered under the keys 1 and 2, the loop about to read the workers' messages. -/
def twoWorkers : Sys :=
  (run PowLib.lenient sampleStart
    [.accept 1 1, .accept 2 2, .connect true sampleTemplate, .serverMessages sampleTemplate (fun _ st => st),
      .acceptNewJob []]).getD sampleStart

theorem reachable_twoWorkers : Reachable PowLib.lenient 8 ⟨0, 0, 0, ""⟩ twoWorkers :=
  Reachable.run_getD .init (by decide)

/-- Every worker logs in with the full id `fullId` gives its key, and sends nothing else. -/
def loginAs (fullId : String → String) (k : String) : Inbound := ⟨0, "", fullId k, true, false, false, []⟩

/-- The workers under the keys 1 and 2 log in as "a" and "b", keys no record holds. -/
def freshLogin : String → Inbound := loginAs fun k => if k = "1" then "a" else "b"

/-- The worker under key 1 logs in as "2", the key the other worker holds until it logs in as "3". -/
def chainLogin : String → Inbound := loginAs fun k => if k = "1" then "2" else "3"

theorem record_leaves_only_when_cleaned_twoWorkers :
    (Reachable PowLib.lenient 8 ⟨0, 0, 0, ""⟩ twoWorkers ∧
      step PowLib.lenient twoWorkers (.workerMessages freshLogin) =
        some ((step PowLib.lenient twoWorkers (.workerMessages freshLogin)).getD twoWorkers) ∧
      (∀ n st, Action.workerMessages freshLogin = .accept n st → toString n ∉ twoWorkers.pool.workers.keys) ∧
      (∀ inbound, Action.workerMessages freshLogin = .workerMessages inbound → RekeyFresh twoWorkers.pool inbound)) ∧
    twoWorkers.pool.streams.Nodup ∧
    (∀ k w, (k, w) ∈ twoWorkers.pool.workers.entries →
      w.stream ∈ ((step PowLib.lenient twoWorkers (.workerMessages freshLogin)).getD twoWorkers).pool.streams ∨
        (Action.workerMessages freshLogin = .cleanWorkers ∧ w.error = true)) ∧
    (Action.workerMessages freshLogin = .cleanWorkers →
      ((step PowLib.lenient twoWorkers (.workerMessages freshLogin)).getD twoWorkers).pool.workers.entries =
        twoWorkers.pool.workers.entries.filter (fun e => !e.2.error) ∧
      ((step PowLib.lenient twoWorkers (.workerMessages freshLogin)).getD twoWorkers).pool.workers.len =
        twoWorkers.pool.cleanWorkers.2) :=
  ⟨⟨reachable_twoWorkers, (by decide), (fun _ _ h => by cases h), (fun _ h => by cases h; decide)⟩,
    record_leaves_only_when_cleaned reachable_twoWorkers (by decide) (fun _ _ h => by cases h)
      (fun _ h => by cases h; decide)⟩

theorem processWorkerMessages_keys_by_fullId_twoWorkers :
    RekeyFresh twoWorkers.pool freshLogin ∧
    ∀ k w, (k, w) ∈ (twoWorkers.pool.processWorkerMessages freshLogin).workers.entries ↔
      ∃ k₀ w₀, (k₀, w₀) ∈ twoWorkers.pool.workers.entries ∧
        w = (twoWorkers.pool.readWorker freshLogin [] k₀ w₀).2 ∧ k = w.fullId :=
  ⟨by decide, processWorkerMessages_keys_by_fullId _ _ (by decide)⟩

/-- The worker under key 1 logs in as "2" and the one under key 2 as "3": the full ids differ, yet moving the
first onto key 2 overwrites the second before it moves, and one record is left. -/
theorem rekey_chain_loses_record :
    (chainLogin "1").fullId ≠ (chainLogin "2").fullId ∧
    (twoWorkers.pool.processWorkerMessages chainLogin).workers.entries.map (fun e => (e.1, e.2.stream)) =
      [("2", 1)] := by
  decide

/-- After the chain of logins the one record left is under its full id "2". -/
theorem processWorkerMessages_every_key_is_fullId_chain :
    ∃ e ∈ (twoWorkers.pool.processWorkerMessages chainLogin).workers.entries, e.1 = "2" ∧ e.1 = e.2.fullId := by
  have h : (twoWorkers.pool.processWorkerMessages chainLogin).workers.entries.map (·.1) = ["2"] := by decide
  obtain ⟨e, he, he1⟩ := List.mem_map.1 (h ▸ List.mem_singleton_self "2")
  exact ⟨e, he, he1, processWorkerMessages_every_key_is_fullId _ _ e he⟩

end GrinPool
