import GrinPool.Shares
import GrinPool.History

/-!
# Duplicates and job versions over a height epoch

Two invariants of every reachable state tie the pool's maps to its history. `DupInv`: the duplicate set
holds exactly the pow vectors drained in the current epoch, so a drained share is rejected as a duplicate
exactly when its pow vector was drained earlier in its epoch, whoever drained it and whatever became of it.
`VersionInv`: the job versions are the map the current epoch's adoptions build in order, every one of
them at the current height, the job the last of them under its derived id; so every accepted share was
checked against a template adopted in its epoch under the id it cites.

Both are proved over `PoolStep` with `PoolStep.history`: `process_shares` is the only step that drains,
one share at a time (`Pool.sharePass_induction`), and `accept_new_job` the only one that adopts.

The job id a forwarded share carries upstream, `share.job_id % share.height` (line 397), follows: the share
cites a template of its epoch at its height under the derived id `height * 1000 + job_id`, so the id sent
is the template's upstream id exactly when that id is below the height (`forwarded_jobId_eq_upstream_iff`).
-/

namespace GrinPool

variable {Header : Type}

theorem shareExit_eq_duplicate_iff (lib : PowLib Header) (job : JobTemplate)
    (jobVersions : HashMap UInt64 String) (duplicates : HashMap (List UInt64) Nat) (difficulty : UInt64)
    (s : SubmitParams) :
    shareExit lib job jobVersions duplicates difficulty s = .duplicate ↔
      duplicates.containsKey s.pow = true := by
  unfold shareExit
  by_cases h : duplicates.containsKey s.pow = true
  · simp [h]
  · rw [if_neg h]
    simp only [h, iff_false]
    repeat' split
    all_goals simp

/-- The entries a share appends after its drain, a submission or a panic, open no epoch, drain nothing and
adopt nothing. -/
theorem submits_quiet {l : List Event} (hl : ∀ e ∈ l, ∃ s n, e = submitEvent s n) :
    ∀ e ∈ l, e.opensEpoch = false ∧ e.isDrain = false ∧ e.drainedPow? = none ∧ e.adopted? = none := by
  intro e he
  obtain ⟨s, n, rfl⟩ := hl e he
  unfold submitEvent
  split <;> exact ⟨rfl, rfl, rfl, rfl⟩

theorem sharePass_trace (lib : PowLib Header) (p : Pool) :
    ∃ l, (p.sharePass lib).trace = p.trace ++ l ∧ ∀ e ∈ l, e.opensEpoch = false ∧ e.adopted? = none := by
  refine Pool.sharePass_induction lib p
    (fun _ t => ∃ l, t = p.trace ++ l ∧ ∀ e ∈ l, e.opensEpoch = false ∧ e.adopted? = none) ?_
    ⟨[], by simp, by simp⟩
  rintro c s ⟨l, hl, hq⟩
  obtain ⟨l', h', hsub⟩ := processShare_trace_drain lib p.job p.jobVersions c s
  rw [h', hl, List.append_assoc]
  refine ⟨_, rfl, ?_⟩
  simp only [List.mem_append, List.mem_cons]
  rintro e (he | rfl | he)
  · exact hq e he
  · exact ⟨rfl, rfl⟩
  · have hq := submits_quiet (fun e he => ⟨_, _, (hsub e he).2⟩) e he
    exact ⟨hq.1, hq.2.2.2⟩

theorem sinceEpoch_sublist (t : List Event) : (sinceEpoch t).Sublist t := by
  induction t using List.reverseRecOn with
  | nil => exact List.Sublist.slnil
  | append_singleton t e ih =>
    rw [sinceEpoch_append_singleton]
    split
    · exact List.sublist_append_right t [e]
    · exact ih.append_right [e]

theorem mem_of_mem_epochAdoptions {t : List Event} {T : JobTemplate} (h : T ∈ epochAdoptions t) :
    ∃ nh, .adopt T nh ∈ t := by
  obtain ⟨e, he, heT⟩ := List.mem_filterMap.1 h
  cases e <;> simp only [Event.adopted?, Option.some.injEq, reduceCtorEq] at heT
  subst heT
  exact ⟨_, (sinceEpoch_sublist t).subset he⟩

theorem exists_adopt_sinceEpoch {t : List Event} {T : JobTemplate} {nh : Bool} (h : .adopt T nh ∈ t) :
    ∃ T' nh', Event.adopt T' nh' ∈ sinceEpoch t := by
  induction t using List.reverseRecOn with
  | nil => simp at h
  | append_singleton t e ih =>
    rw [sinceEpoch_append_singleton]
    split
    · rename_i he
      cases e with
      | adopt T' b => exact ⟨T', b, List.mem_singleton_self _⟩
      | _ => simp [Event.opensEpoch] at he
    · rcases List.mem_append.1 h with h | h
      · obtain ⟨T', nh', h'⟩ := ih h
        exact ⟨T', nh', List.mem_append_left _ h'⟩
      · exact ⟨T, nh, List.mem_append_right _ h⟩

theorem epochAdoptions_ne_nil {t : List Event} {T : JobTemplate} {nh : Bool} (h : .adopt T nh ∈ t) :
    epochAdoptions t ≠ [] := by
  obtain ⟨T', nh', h'⟩ := exists_adopt_sinceEpoch h
  exact List.ne_nil_of_mem (List.mem_filterMap.2 ⟨_, h', rfl⟩)

/-! ### The duplicate set -/

/-- What a duplicate rejection means: the share's pow vector was drained earlier in its epoch. -/
def DuplicateIffSeen (pre : List Event) (_ : Nat) (sh : SubmitParams) (x : Exit) : Prop :=
  x = .duplicate ↔ sh.pow ∈ epochPows pre

/-- The duplicate set holds the pow vectors drained in the current epoch, and every drained share was
rejected as a duplicate exactly when its pow vector had been drained before it in its epoch. -/
structure DupInv (p : Pool) : Prop where
  exact : ∀ v, p.duplicates.containsKey v = true ↔ v ∈ epochPows p.trace
  drains : EveryDrain DuplicateIffSeen p.trace

theorem processShare_dupInv (lib : PowLib Header) (job : JobTemplate) (jobVersions : HashMap UInt64 String)
    (c : ShareCtx) (s : SubmitParams) (hex : ∀ v, c.duplicates.containsKey v = true ↔ v ∈ epochPows c.trace)
    (hd : EveryDrain DuplicateIffSeen c.trace) :
    (∀ v, (processShare lib job jobVersions c s).duplicates.containsKey v = true ↔
      v ∈ epochPows (processShare lib job jobVersions c s).trace) ∧
    EveryDrain DuplicateIffSeen (processShare lib job jobVersions c s).trace := by
  obtain ⟨l, ht, hl⟩ := processShare_trace_drain lib job jobVersions c s
  have hq := submits_quiet fun e he => ⟨_, _, (hl e he).2⟩
  have hpows : epochPows (processShare lib job jobVersions c s).trace = epochPows c.trace ++ [s.pow] := by
    rw [ht, epochPows_append_of_quiet (by simpa [Event.opensEpoch] using fun e he => (hq e he).1),
      List.filterMap_cons, Event.drainedPow?, List.filterMap_eq_nil_iff.2 fun e he => (hq e he).2.2.1]
  refine ⟨fun v => ?_, ?_⟩
  · rw [containsKey_processShare lib job jobVersions c s hex v, hpows]
    simp [or_comm]
  · rw [ht]
    refine hd.append_drain ?_ fun e he => (hq e he).2.1
    rw [DuplicateIffSeen, shareExit_eq_duplicate_iff, hex]

theorem Reachable.dupInv {lib : PowLib Header} {d : UInt64} {job : JobTemplate} {s : Sys}
    (hs : Reachable lib d job s) : DupInv s.pool := by
  refine hs.pool_induction DupInv ⟨fun v => by simp [Pool.start, Pool.new, HashMap.containsKey, epochPows], .nil⟩ ?_
  intro p p' hstep ⟨hex, hd⟩
  rcases hstep.history with ⟨-, hdup, -, l, ht, hl⟩ | ⟨refused, rfl⟩ | rfl
  · refine ⟨?_, ?_⟩
    · rw [hdup, ht, epochPows_append_logs hl]
      exact hex
    · rw [ht]
      exact hd.append_logs hl
  · rcases p.acceptNewJob_cases refused with h | ⟨l, hl, -, ht, hdup, -⟩
    · rw [h]
      exact ⟨hex, hd⟩
    · refine ⟨?_, ?_⟩
      · rw [hdup, ht, epochPows_adopt hl]
        by_cases hh : p.job.height = p.server.job.height
        · simpa [hh] using hex
        · simp [hh, HashMap.containsKey]
      · rw [ht]
        exact hd.append_adopt hl
  · obtain ⟨h1, h2⟩ := Pool.sharePass_induction lib p
      (fun d t => (∀ v, d.containsKey v = true ↔ v ∈ epochPows t) ∧ EveryDrain DuplicateIffSeen t)
      (fun c s ⟨h1, h2⟩ => processShare_dupInv lib p.job p.jobVersions c s h1 h2) ⟨hex, hd⟩
    exact ⟨h1, h2⟩

theorem Reachable.accepted_pow_ne {lib : PowLib Header} {d : UInt64} {job : JobTemplate} {s : Sys}
    (hs : Reachable lib d job s) {pre mid post : List Event} {st₁ st₂ : Nat} {sh₁ sh₂ : SubmitParams}
    (h : s.pool.trace = pre ++ .drain st₁ sh₁ .accepted :: (mid ++ .drain st₂ sh₂ .accepted :: post))
    (hmid : ∀ e ∈ mid, e.opensEpoch = false) : sh₁.pow ≠ sh₂.pow := by
  intro heq
  have ht : s.pool.trace = (pre ++ .drain st₁ sh₁ .accepted :: mid) ++ .drain st₂ sh₂ .accepted :: post := by
    simp [h]
  have hdup : DuplicateIffSeen (pre ++ .drain st₁ sh₁ .accepted :: mid) st₂ sh₂ .accepted :=
    hs.dupInv.drains.of_eq ht
  have hq : ∀ e ∈ Event.drain st₁ sh₁ .accepted :: mid, e.opensEpoch = false := by
    simp only [List.mem_cons]
    rintro e (rfl | he)
    exacts [rfl, hmid e he]
  have hseen : sh₂.pow ∈ epochPows (pre ++ .drain st₁ sh₁ .accepted :: mid) := by
    rw [epochPows_append_of_quiet hq]
    simp [Event.drainedPow?, heq]
  exact absurd (hdup.2 hseen) (by decide)

/-- A submission forwards the share drained, and accepted, just before it, with its job id stripped of
the height (line 397). -/
def ForwardsDrained (pre : List Event) (e : Event) : Prop :=
  ∀ sh n, e = .submit sh n →
    ∃ pre' st s, pre = pre' ++ [.drain st s .accepted] ∧ sh = { s with jobId := s.jobId % s.height }

theorem Reachable.forwardsDrained {lib : PowLib Header} {d : UInt64} {job : JobTemplate} {s : Sys}
    (hs : Reachable lib d job s) : EveryEntry ForwardsDrained s.pool.trace := by
  refine hs.pool_induction (fun p => EveryEntry ForwardsDrained p.trace) .nil ?_
  have hlogs : ∀ {l : List Event}, (∀ e ∈ l, e.isLog = true) → ∀ e ∈ l, ∀ pre, ForwardsDrained pre e :=
    fun hl e he _ _ _ hx => absurd (hl e he) (by simp [hx, Event.isLog])
  intro p p' hstep hf
  rcases hstep.history with ⟨-, -, -, l, ht, hl⟩ | ⟨refused, rfl⟩ | rfl
  · rw [ht]
    exact hf.append (hlogs hl)
  · rcases p.acceptNewJob_cases refused with h | ⟨l, hl, -, ht, -, -⟩
    · rwa [h]
    · rw [ht, ← List.singleton_append, ← List.append_assoc]
      exact (everyEntry_append_singleton.2 ⟨hf, fun _ _ hx => by cases hx⟩).append (hlogs hl)
  · refine Pool.sharePass_induction lib p (fun _ t => EveryEntry ForwardsDrained t) (fun c sh hc => ?_) hf
    have hdrain : EveryEntry ForwardsDrained (c.trace ++ [.drain c.worker.stream sh
        (shareExit lib p.job p.jobVersions c.duplicates c.worker.status.difficulty sh)]) :=
      everyEntry_append_singleton.2 ⟨hc, fun _ _ hx => by cases hx⟩
    simp only [processShare_trace]
    split
    · rename_i hx
      rw [← List.singleton_append, ← List.append_assoc]
      refine everyEntry_append_singleton.2 ⟨hdrain, fun _ _ he => ?_⟩
      obtain ⟨-, rfl, -⟩ := submitEvent_eq_submit_iff.1 he
      exact ⟨_, _, _, by rw [hx], rfl⟩
    · exact hdrain

theorem Reachable.forwarded_pow_ne {lib : PowLib Header} {d : UInt64} {job : JobTemplate} {s : Sys}
    (hs : Reachable lib d job s) {pre mid post : List Event} {sh₁ sh₂ : SubmitParams} {n₁ n₂ : String}
    (h : s.pool.trace = pre ++ .submit sh₁ n₁ :: (mid ++ .submit sh₂ n₂ :: post))
    (hmid : ∀ e ∈ mid, e.opensEpoch = false) : sh₁.pow ≠ sh₂.pow := by
  obtain ⟨pre₁, st₁, s₁, rfl, hsh₁⟩ := hs.forwardsDrained pre _ _ h sh₁ n₁ rfl
  obtain ⟨pre₂, st₂, s₂, h₂, hsh₂⟩ := hs.forwardsDrained
    (pre₁ ++ [.drain st₁ s₁ .accepted] ++ .submit sh₁ n₁ :: mid) (.submit sh₂ n₂) post (by simp [h])
    sh₂ n₂ rfl
  rcases List.eq_nil_or_concat mid with rfl | ⟨mid', b, rfl⟩
  · cases List.singleton_inj.1 (List.append_inj' h₂ rfl).2
  have h₂' : (pre₁ ++ [.drain st₁ s₁ .accepted] ++ .submit sh₁ n₁ :: mid') ++ [b] =
      pre₂ ++ [.drain st₂ s₂ .accepted] := by
    rw [← h₂]
    simp
  cases List.singleton_inj.1 (List.append_inj' h₂' rfl).2
  have ht : s.pool.trace = pre₁ ++ .drain st₁ s₁ .accepted ::
      ((.submit sh₁ n₁ :: mid') ++ .drain st₂ s₂ .accepted :: .submit sh₂ n₂ :: post) := by
    rw [h]
    simp
  have hne : s₁.pow ≠ s₂.pow := by
    refine hs.accepted_pow_ne ht ?_
    simp only [List.mem_cons]
    rintro e (rfl | he)
    exacts [rfl, hmid e (by simp [he])]
  rwa [hsh₁, hsh₂]

/-- **A drained share is rejected as a duplicate exactly when its pow vector was drained earlier in the
same height epoch**, by any worker and whatever that share's exit; so within one epoch no two shares
accepted, and none forwarded, have the same pow vector, and a vector drained only in earlier epochs is
never a duplicate. -/
theorem duplicate_iff_drained_in_epoch {lib : PowLib Header} {d : UInt64} {job : JobTemplate} {s : Sys}
    (hs : Reachable lib d job s) :
    EveryDrain (fun pre _ sh x => x = .duplicate ↔ sh.pow ∈ epochPows pre) s.pool.trace ∧
    (∀ pre mid post st₁ st₂ (sh₁ sh₂ : SubmitParams),
      s.pool.trace = pre ++ .drain st₁ sh₁ .accepted :: (mid ++ .drain st₂ sh₂ .accepted :: post) →
      (∀ e ∈ mid, e.opensEpoch = false) → sh₁.pow ≠ sh₂.pow) ∧
    ∀ pre mid post (sh₁ sh₂ : SubmitParams) n₁ n₂,
      s.pool.trace = pre ++ .submit sh₁ n₁ :: (mid ++ .submit sh₂ n₂ :: post) →
      (∀ e ∈ mid, e.opensEpoch = false) → sh₁.pow ≠ sh₂.pow :=
  ⟨hs.dupInv.drains, fun _ _ _ _ _ _ _ h hmid => hs.accepted_pow_ne h hmid,
    fun _ _ _ _ _ _ _ h hmid => hs.forwarded_pow_ne h hmid⟩

theorem duplicate_iff_drained_in_sample :
    Reachable PowLib.lenient 8 ⟨0, 0, 0, ""⟩ sampleState ∧
    (EveryDrain (fun pre _ sh x => x = .duplicate ↔ sh.pow ∈ epochPows pre) sampleState.pool.trace ∧
    (∀ pre mid post st₁ st₂ (sh₁ sh₂ : SubmitParams),
      sampleState.pool.trace = pre ++ .drain st₁ sh₁ .accepted :: (mid ++ .drain st₂ sh₂ .accepted :: post) →
      (∀ e ∈ mid, e.opensEpoch = false) → sh₁.pow ≠ sh₂.pow) ∧
    ∀ pre mid post (sh₁ sh₂ : SubmitParams) n₁ n₂,
      sampleState.pool.trace = pre ++ .submit sh₁ n₁ :: (mid ++ .submit sh₂ n₂ :: post) →
      (∀ e ∈ mid, e.opensEpoch = false) → sh₁.pow ≠ sh₂.pow) :=
  ⟨reachable_sampleState, duplicate_iff_drained_in_epoch reachable_sampleState⟩

/-- **Within one height epoch, no two shares accepted, and no two forwarded to `submit_share`, have the
same pow vector.** -/
theorem accepted_pows_distinct_in_epoch {lib : PowLib Header} {d : UInt64} {job : JobTemplate} {s : Sys}
    (hs : Reachable lib d job s) :
    (∀ pre mid post st₁ st₂ (sh₁ sh₂ : SubmitParams),
      s.pool.trace = pre ++ .drain st₁ sh₁ .accepted :: (mid ++ .drain st₂ sh₂ .accepted :: post) →
      (∀ e ∈ mid, e.opensEpoch = false) → sh₁.pow ≠ sh₂.pow) ∧
    ∀ pre mid post (sh₁ sh₂ : SubmitParams) n₁ n₂,
      s.pool.trace = pre ++ .submit sh₁ n₁ :: (mid ++ .submit sh₂ n₂ :: post) →
      (∀ e ∈ mid, e.opensEpoch = false) → sh₁.pow ≠ sh₂.pow :=
  ⟨fun _ _ _ _ _ _ _ h hmid => hs.accepted_pow_ne h hmid, fun _ _ _ _ _ _ _ h hmid => hs.forwarded_pow_ne h hmid⟩

theorem accepted_pows_distinct_in_sample :
    Reachable PowLib.lenient 8 ⟨0, 0, 0, ""⟩ sampleState ∧
    ((∀ pre mid post st₁ st₂ (sh₁ sh₂ : SubmitParams),
      sampleState.pool.trace = pre ++ .drain st₁ sh₁ .accepted :: (mid ++ .drain st₂ sh₂ .accepted :: post) →
      (∀ e ∈ mid, e.opensEpoch = false) → sh₁.pow ≠ sh₂.pow) ∧
    ∀ pre mid post (sh₁ sh₂ : SubmitParams) n₁ n₂,
      sampleState.pool.trace = pre ++ .submit sh₁ n₁ :: (mid ++ .submit sh₂ n₂ :: post) →
      (∀ e ∈ mid, e.opensEpoch = false) → sh₁.pow ≠ sh₂.pow) :=
  ⟨reachable_sampleState, accepted_pows_distinct_in_epoch reachable_sampleState⟩

/-- In the sample run one worker sends the nonces `[1, 2]` and then `[2, 1]` in one epoch: both shares are
accepted and forwarded, and both rebuild the same header. -/
theorem sample_accepts_one_header_twice :
    sampleState.pool.trace.filter Event.isDrain =
      [.drain 1 ⟨1, 1000, 29, 0, [1, 2]⟩ .accepted, .drain 1 ⟨1, 1000, 29, 0, [2, 1]⟩ .accepted] ∧
    forwards sampleState.pool.trace = [(⟨1, 0, 29, 0, [1, 2]⟩, "0-"), (⟨1, 0, 29, 0, [2, 1]⟩, "0-")] ∧
    blockHeader PowLib.lenient "00" 29 0 [1, 2] = blockHeader PowLib.lenient "00" 29 0 [2, 1] :=
  ⟨by decide, by decide, rfl⟩

/-! ### The job versions -/

/-- What an accepted share was checked against: a template adopted in its epoch, at its height and under
the job id it cites, the one the job versions of that moment resolve that id to, whose pre-pow rebuilt a
header that passed `verify_size`. -/
def VerifiedInEpoch (lib : PowLib Header) (pre : List Event) (_ : Nat) (sh : SubmitParams) (x : Exit) :
    Prop :=
  x = .accepted → ∃ T ∈ epochAdoptions pre, T.height = sh.height ∧ T.height * 1000 + T.jobId = sh.jobId ∧
    (versionsOf (epochAdoptions pre)).get? sh.jobId = some T.prePow ∧
    ∃ bh, blockHeader lib T.prePow sh.edgeBits.toUInt8 sh.nonce sh.pow = .ok bh ∧ lib.verifySize bh = true

/-- The job versions are the map the current epoch's adoptions build, every one of them at the current
height; the job is the last of them under its derived id; and every accepted share was verified against
one of them. -/
structure VersionInv (lib : PowLib Header) (p : Pool) : Prop where
  versions : p.jobVersions = versionsOf (epochAdoptions p.trace)
  heights : ∀ T ∈ epochAdoptions p.trace, T.height = p.job.height
  current : ∀ T, (epochAdoptions p.trace).getLast? = some T →
    p.job = { T with jobId := T.height * 1000 + T.jobId }
  verified : EveryDrain (VerifiedInEpoch lib) p.trace

theorem processShare_verified (lib : PowLib Header) (p : Pool)
    (hv : p.jobVersions = versionsOf (epochAdoptions p.trace))
    (hh : ∀ T ∈ epochAdoptions p.trace, T.height = p.job.height) (c : ShareCtx) (s : SubmitParams)
    (hea : epochAdoptions c.trace = epochAdoptions p.trace) (hd : EveryDrain (VerifiedInEpoch lib) c.trace) :
    epochAdoptions (processShare lib p.job p.jobVersions c s).trace = epochAdoptions p.trace ∧
    EveryDrain (VerifiedInEpoch lib) (processShare lib p.job p.jobVersions c s).trace := by
  obtain ⟨l, ht, hl⟩ := processShare_trace_drain lib p.job p.jobVersions c s
  have hq := submits_quiet fun e he => ⟨_, _, (hl e he).2⟩
  refine ⟨?_, ?_⟩
  · rw [ht, epochAdoptions_append_of_quiet (by simpa [Event.opensEpoch] using fun e he => (hq e he).1)]
    simp [Event.adopted?, List.filterMap_eq_nil_iff.2 fun e he => (hq e he).2.2.2, hea]
  rw [ht]
  refine hd.append_drain ?_ fun e he => (hq e he).2.1
  intro hx
  obtain ⟨-, -, -, hheight, ⟨pre, hpre, bh, hbh, hver⟩, -, -⟩ :=
    (shareExit_eq_accepted_iff lib p.job p.jobVersions c.duplicates _ (fun _ => HashMap.containsKey_iff)
      _ s).1 hx
  have hpre' : (versionsOf (epochAdoptions p.trace)).get? s.jobId = some pre := hv ▸ hpre
  obtain ⟨T, hT, hid, rfl⟩ := get?_versionsOf hpre'
  exact ⟨T, hea ▸ hT, (hh T hT).trans hheight.symm, hid, hea ▸ hpre', bh, eq_ok_of_mem_toOption hbh, hver⟩

theorem VersionInv.acceptNewJob {lib : PowLib Header} {p : Pool} (hi : VersionInv lib p) (refused : List Nat) :
    VersionInv lib (p.acceptNewJob refused) := by
  obtain ⟨hv, hh, hc, hd⟩ := hi
  rcases p.acceptNewJob_cases refused with h | ⟨l, hl, hjob, ht, -, hjv⟩
  · rw [h]
    exact ⟨hv, hh, hc, hd⟩
  have hea := epochAdoptions_adopt hl p.trace p.server.job (decide (p.job.height ≠ p.server.job.height))
  rw [← ht] at hea
  refine ⟨?_, ?_, ?_, by rw [ht]; exact hd.append_adopt hl⟩
  · rw [hjv, hea, versionsOf_concat]
    by_cases hn : p.job.height = p.server.job.height <;> simp [hn, hv, versionsOf]
  · rw [hea, hjob]
    by_cases hn : p.job.height = p.server.job.height
    · simp only [hn, ne_eq, not_true_eq_false, decide_False, Bool.false_eq_true, if_false,
        List.mem_append, List.mem_singleton]
      rintro T (hT | rfl)
      · exact (hh T hT).trans hn
      · rfl
    · simp [hn]
  · rw [hea]
    intro T hT
    obtain rfl : p.server.job = T := by simpa using hT
    exact hjob

theorem Reachable.versionInv {lib : PowLib Header} {d : UInt64} {job : JobTemplate} {s : Sys}
    (hs : Reachable lib d job s) : VersionInv lib s.pool := by
  refine hs.pool_induction (VersionInv lib)
    ⟨rfl, by simp [epochAdoptions, Pool.start, Pool.new], by simp [epochAdoptions, Pool.start, Pool.new], .nil⟩ ?_
  intro p p' hstep hi
  rcases hstep.history with ⟨hjob, -, hjv, l, ht, hl⟩ | ⟨refused, rfl⟩ | rfl
  · obtain ⟨hv, hh, hc, hd⟩ := hi
    have hea : epochAdoptions p'.trace = epochAdoptions p.trace := by rw [ht, epochAdoptions_append_logs hl]
    refine ⟨by rw [hjv, hea, hv], by rw [hea, hjob]; exact hh, by rw [hea, hjob]; exact hc, ?_⟩
    rw [ht]
    exact hd.append_logs hl
  · exact hi.acceptNewJob refused
  · obtain ⟨hv, hh, hc, hd⟩ := hi
    obtain ⟨l, ht, hl⟩ := sharePass_trace lib p
    have hea : epochAdoptions (p.sharePass lib).trace = epochAdoptions p.trace := by
      rw [ht, epochAdoptions_append_of_quiet (fun e he => (hl e he).1),
        List.filterMap_eq_nil_iff.2 (fun e he => (hl e he).2), List.append_nil]
    refine ⟨by rw [hea]; exact hv, by rw [hea]; exact hh, by rw [hea]; exact hc, ?_⟩
    exact (Pool.sharePass_induction lib p
      (fun _ t => epochAdoptions t = epochAdoptions p.trace ∧ EveryDrain (VerifiedInEpoch lib) t)
      (fun c s ⟨h1, h2⟩ => processShare_verified lib p hv hh c s h1 h2) ⟨rfl, hd⟩).2

/-- When every adopted template has a height of at least 1, a job version belongs to a job of nonzero
height: `process_shares` then runs to its end (`Pool.processShares_eq_some`). -/
theorem VersionInv.height_ne_zero {lib : PowLib Header} {p : Pool} (hv : VersionInv lib p)
    (hpos : ∀ T ∈ p.trace.filterMap Event.adopted?, 1 ≤ T.height) :
    ∀ k pre, p.jobVersions.get? k = some pre → p.job.height ≠ 0 := by
  intro k pre hk
  obtain ⟨T, hT, -, -⟩ := get?_versionsOf (hv.versions ▸ hk)
  obtain ⟨nh, hmem⟩ := mem_of_mem_epochAdoptions hT
  rw [← hv.heights T hT]
  exact UInt64.ne_zero_of_one_le (hpos T (List.mem_filterMap.2 ⟨_, hmem, rfl⟩))

/-- **The job versions are the map the current epoch's adoptions build**, inserted in adoption order under
their derived ids; so every key resolves to the pre-pow of a template adopted at the current height, the
current job (once a template was adopted) resolves to its own pre-pow, and every accepted, thus forwarded,
share was verified against the pre-pow of a template adopted in its epoch at its height, under the job id
it cites. -/
theorem jobVersions_eq_epoch_adoptions {lib : PowLib Header} {d : UInt64} {job : JobTemplate} {s : Sys}
    (hs : Reachable lib d job s) :
    s.pool.jobVersions = versionsOf (epochAdoptions s.pool.trace) ∧
    (∀ k pre, s.pool.jobVersions.get? k = some pre → ∃ T ∈ epochAdoptions s.pool.trace,
      T.height = s.pool.job.height ∧ T.height * 1000 + T.jobId = k ∧ T.prePow = pre) ∧
    ((∃ T nh, .adopt T nh ∈ s.pool.trace) →
      s.pool.jobVersions.get? s.pool.job.jobId = some s.pool.job.prePow) ∧
    EveryDrain (VerifiedInEpoch lib) s.pool.trace := by
  obtain ⟨hv, hh, hc, hd⟩ := hs.versionInv
  refine ⟨hv, fun k pre hk => ?_, fun ⟨T, nh, hT⟩ => ?_, hd⟩
  · obtain ⟨T, hT, hid, hpre⟩ := get?_versionsOf (hv ▸ hk)
    exact ⟨T, hT, hh T hT, hid, hpre⟩
  · obtain ⟨ts, T', hts⟩ := List.eq_nil_or_concat (epochAdoptions s.pool.trace) |>.resolve_left
      (epochAdoptions_ne_nil hT)
    have hjob := hc T' (by simp [hts])
    rw [hv, hts, List.concat_eq_append, versionsOf_concat, insertVersion, HashMap.get?_insert, hjob]
    simp

theorem jobVersions_eq_epoch_adoptions_sample :
    Reachable PowLib.lenient 8 ⟨0, 0, 0, ""⟩ sampleState ∧
    (sampleState.pool.jobVersions = versionsOf (epochAdoptions sampleState.pool.trace) ∧
    (∀ k pre, sampleState.pool.jobVersions.get? k = some pre → ∃ T ∈ epochAdoptions sampleState.pool.trace,
      T.height = sampleState.pool.job.height ∧ T.height * 1000 + T.jobId = k ∧ T.prePow = pre) ∧
    ((∃ T nh, .adopt T nh ∈ sampleState.pool.trace) →
      sampleState.pool.jobVersions.get? sampleState.pool.job.jobId = some sampleState.pool.job.prePow) ∧
    EveryDrain (VerifiedInEpoch PowLib.lenient) sampleState.pool.trace) :=
  ⟨reachable_sampleState, jobVersions_eq_epoch_adoptions reachable_sampleState⟩

/-! ### The divisor of line 397 -/

/-- The derived job id `height * 1000 + job_id`, taken modulo the height, gives back the upstream id
exactly when that id is below the height, as long as the derived id fits in a `u64`. -/
theorem derivedJobId_mod_height_eq_iff {H U : UInt64} (hH : 1 ≤ H)
    (hfit : H.toNat * 1000 + U.toNat < UInt64.size) : (H * 1000 + U) % H = U ↔ U < H := by
  have hpos : 0 < H.toNat := hH
  have hid : (H * 1000 + U).toNat = (H.toNat * 1000 % UInt64.size + U.toNat) % UInt64.size := rfl
  rw [Nat.mod_eq_of_lt (by omega : H.toNat * 1000 < UInt64.size), Nat.mod_eq_of_lt hfit] at hid
  calc (H * 1000 + U) % H = U ↔ (H.toNat * 1000 + U.toNat) % H.toNat = U.toNat := by
        rw [← hid, ← UInt64.toNat_mod]
        exact ⟨congrArg UInt64.toNat, UInt64.toNat.inj⟩
    _ ↔ U < H := by
        rw [Nat.mul_add_mod, Nat.mod_eq_iff_lt (by omega)]
        rfl

/-- **A forwarded share carries its template's upstream job id exactly when that id is below the
height**: every share `process_shares` forwarded was drained, accepted, right before, and some template
adopted in that share's epoch has its height and its job id as derived id; for every such template, of
height at least 1 and with a derived id that fits in a `u64`, the job id sent upstream,
`share.job_id % share.height` (line 397), is the template's upstream id if and only if that id is below
the height. -/
theorem forwarded_jobId_eq_upstream_iff {lib : PowLib Header} {d : UInt64} {job : JobTemplate} {s : Sys}
    (hs : Reachable lib d job s) :
    ∀ pre sh n post, s.pool.trace = pre ++ .submit sh n :: post →
      ∃ pre' st s₀, pre = pre' ++ [.drain st s₀ .accepted] ∧ sh = { s₀ with jobId := s₀.jobId % s₀.height } ∧
        (∃ T ∈ epochAdoptions pre', T.height = s₀.height ∧ T.height * 1000 + T.jobId = s₀.jobId) ∧
        ∀ T ∈ epochAdoptions pre', T.height = s₀.height → T.height * 1000 + T.jobId = s₀.jobId →
          1 ≤ T.height → T.height.toNat * 1000 + T.jobId.toNat < UInt64.size →
          (sh.jobId = T.jobId ↔ T.jobId < T.height) := by
  intro pre sh n post h
  obtain ⟨pre', st, s₀, rfl, rfl⟩ := hs.forwardsDrained pre _ post h sh n rfl
  have ht : s.pool.trace = pre' ++ .drain st s₀ .accepted ::
      (.submit { s₀ with jobId := s₀.jobId % s₀.height } n :: post) := by simp [h]
  obtain ⟨T, hT, hh, hid, -⟩ := hs.versionInv.verified.of_eq ht rfl
  refine ⟨pre', st, s₀, rfl, rfl, ⟨T, hT, hh, hid⟩, fun T' _ hh' hid' h1 hfit => ?_⟩
  show s₀.jobId % s₀.height = T'.jobId ↔ _
  rw [← hid', ← hh']
  exact derivedJobId_mod_height_eq_iff h1 hfit

theorem forwarded_jobId_eq_upstream_iff_sample :
    Reachable PowLib.lenient 8 ⟨0, 0, 0, ""⟩ sampleState ∧
    ∀ pre sh n post, sampleState.pool.trace = pre ++ .submit sh n :: post →
      ∃ pre' st s₀, pre = pre' ++ [.drain st s₀ .accepted] ∧ sh = { s₀ with jobId := s₀.jobId % s₀.height } ∧
        (∃ T ∈ epochAdoptions pre', T.height = s₀.height ∧ T.height * 1000 + T.jobId = s₀.jobId) ∧
        ∀ T ∈ epochAdoptions pre', T.height = s₀.height → T.height * 1000 + T.jobId = s₀.jobId →
          1 ≤ T.height → T.height.toNat * 1000 + T.jobId.toNat < UInt64.size →
          (sh.jobId = T.jobId ↔ T.jobId < T.height) :=
  ⟨reachable_sampleState, forwarded_jobId_eq_upstream_iff reachable_sampleState⟩

/-- The spec's open edge case: a template of height 1 and upstream id 7 is issued as job 1007, and a share
for it is forwarded with job id `1007 % 1 = 0`, not 7. -/
example :
    (run PowLib.lenient sampleStart
      [.accept 7 1, .connect true ⟨1, 7, 1, "00"⟩, .serverMessages ⟨1, 7, 1, "00"⟩ (fun _ st => st),
        .acceptNewJob [], .workerMessages (fun _ => ⟨0, "", "7", true, false, false, [⟨1, 1007, 29, 0, [1, 2]⟩]⟩),
        .processShares]).map (fun s => forwards s.pool.trace) = some [(⟨1, 0, 29, 0, [1, 2]⟩, "0-")] := by
  decide

end GrinPool
