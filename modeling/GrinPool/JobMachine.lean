import GrinPool.Epoch

/-!
# The job machine

§4.2 of the design describes the job templates as a state machine: the template in force is replaced when
the upstream offers one with another pre-pow, under the derived job id `height * 1000 + job_id`, and the
replacement opens a new height epoch exactly when its height differs. `JobMachine.adopt` is that machine's
transition, our own statement of what `accept_new_job` (lines 261-281) is for, and `JobMachine.replay` runs
the adoptions of a history through it, failing at the first adoption that is not a transition.

The pool refines the machine (`adoptions_follow_job_machine`): in every reachable state the adoptions of the
history are a run of the machine from the initial template, and the machine ends in the pool's job. So
`accept_new_job` never adopts the template in force again, the epoch flag of each adoption, which decides
whether the duplicate set and the job versions are cleared, is the change of height it makes, and the job is
the last adoption under its derived id, or the initial template before any.

Proof. The replay of a concatenation is the replay of its second part from where the first ends
(`replay_append`), and entries that adopt nothing leave the machine where it is (`replay_of_quiet`). Every
step but `accept_new_job` keeps the job and appends no adoption, and `accept_new_job` adopts exactly when
the pre-pows differ (`PoolStep.replay_job`).
-/

namespace GrinPool

/-- A template under the job id the pool gives it, `height * 1000 + job_id` (line 268). -/
def JobTemplate.derived (T : JobTemplate) : JobTemplate := { T with jobId := T.height * 1000 + T.jobId }

namespace JobMachine

/-- The transition from the template in force `cur`: adopting `T` with the epoch flag `newHeight` is one
when `T` brings another pre-pow and the flag is its change of height; `T` is then in force under its derived
id. -/
def adopt (cur T : JobTemplate) (newHeight : Bool) : Option JobTemplate :=
  if T.prePow ≠ cur.prePow ∧ newHeight = decide (cur.height ≠ T.height) then some T.derived else none

/-- The template in force after the adoptions of a history, replayed from `cur`; `none` at the first
adoption that is not a transition. -/
def replay (cur : JobTemplate) : List Event → Option JobTemplate
  | [] => some cur
  | e :: t =>
    match e with
    | .adopt T nh => (adopt cur T nh).bind fun c => replay c t
    | _ => replay cur t

theorem replay_append (cur : JobTemplate) (t l : List Event) :
    replay cur (t ++ l) = (replay cur t).bind fun c => replay c l := by
  induction t generalizing cur with
  | nil => rfl
  | cons e t ih => cases e <;> simp [replay, ih, Option.bind_assoc]

theorem replay_of_quiet (cur : JobTemplate) {l : List Event} (hl : ∀ e ∈ l, e.adopted? = none) :
    replay cur l = some cur := by
  induction l with
  | nil => rfl
  | cons e l ih =>
    have hrest := ih fun e' he' => hl e' (List.mem_cons_of_mem e he')
    cases e <;> first | exact hrest | exact absurd (hl _ (List.mem_cons_self _ _)) (by simp [Event.adopted?])

theorem replay_adopt {cur cur' T : JobTemplate} {nh : Bool} {pre post : List Event}
    (h : replay cur (pre ++ .adopt T nh :: post) = some cur') :
    ∃ c, replay cur pre = some c ∧ T.prePow ≠ c.prePow ∧ nh = decide (c.height ≠ T.height) := by
  rw [replay_append] at h
  obtain ⟨c, hc, h⟩ := Option.bind_eq_some.1 h
  obtain ⟨c', hc', -⟩ := Option.bind_eq_some.1 h
  unfold adopt at hc'
  split at hc'
  · exact ⟨c, hc, by assumption⟩
  · cases hc'

/-- The machine refuses a template of the pre-pow already in force. -/
example : replay ⟨0, 0, 0, ""⟩ [.adopt ⟨1, 0, 1, "00"⟩ true, .adopt ⟨1, 1, 1, "00"⟩ false] = none := by decide

end JobMachine

open JobMachine

variable {Header : Type}

theorem PoolStep.replay_job {lib : PowLib Header} {job : JobTemplate} {p p' : Pool} (h : PoolStep lib p p')
    (hi : replay job p.trace = some p.job) : replay job p'.trace = some p'.job := by
  rcases h.history with ⟨hjob, -, -, l, ht, hl⟩ | ⟨refused, rfl⟩ | rfl
  · rw [ht, replay_append, hi, hjob, Option.some_bind]
    exact replay_of_quiet _ fun e he => Event.adopted?_of_isLog (hl e he)
  · by_cases hpre : p.job.prePow = p.server.job.prePow
    · rwa [show p.acceptNewJob refused = p by simp [Pool.acceptNewJob, hpre]]
    rcases p.acceptNewJob_cases refused with h | ⟨l, hl, hjob, ht, -, -⟩
    · rwa [h]
    rw [ht, replay_append, hi, Option.some_bind, hjob]
    have hadopt : adopt p.job p.server.job (decide (p.job.height ≠ p.server.job.height)) =
        some p.server.job.derived := if_pos ⟨Ne.symm hpre, rfl⟩
    simp only [JobMachine.replay, hadopt, Option.some_bind]
    exact replay_of_quiet _ fun e he => Event.adopted?_of_isLog (hl e he)
  · obtain ⟨l, ht, hl⟩ := sharePass_trace lib p
    rw [ht, replay_append, hi, Option.some_bind]
    exact replay_of_quiet _ fun e he => (hl e he).2

theorem Reachable.replay_job {lib : PowLib Header} {d : UInt64} {job : JobTemplate} {s : Sys}
    (hs : Reachable lib d job s) : replay job s.pool.trace = some s.pool.job :=
  hs.pool_induction (fun p => replay job p.trace = some p.job) rfl fun _ _ h hi => h.replay_job hi

/-- **The pool's adoptions are a run of the job machine from the initial template, ending in its job**:
`accept_new_job` never adopts the template in force again, each adoption's epoch flag is the change of
height it makes, and the job is the last adopted template under its derived id, or the initial template
before any adoption. -/
theorem adoptions_follow_job_machine {lib : PowLib Header} {d : UInt64} {job : JobTemplate} {s : Sys}
    (hs : Reachable lib d job s) :
    replay job s.pool.trace = some s.pool.job ∧
    ∀ pre T nh post, s.pool.trace = pre ++ .adopt T nh :: post →
      ∃ c, replay job pre = some c ∧ T.prePow ≠ c.prePow ∧ nh = decide (c.height ≠ T.height) :=
  ⟨hs.replay_job, fun _ _ _ _ h => replay_adopt (h ▸ hs.replay_job)⟩

theorem adoptions_follow_job_machine_sample :
    Reachable PowLib.lenient 8 ⟨0, 0, 0, ""⟩ sampleState ∧
    (replay ⟨0, 0, 0, ""⟩ sampleState.pool.trace = some sampleState.pool.job ∧
    ∀ pre T nh post, sampleState.pool.trace = pre ++ .adopt T nh :: post →
      ∃ c, replay ⟨0, 0, 0, ""⟩ pre = some c ∧ T.prePow ≠ c.prePow ∧ nh = decide (c.height ≠ T.height)) :=
  ⟨reachable_sampleState, adoptions_follow_job_machine reachable_sampleState⟩

/-! ### The job versions of the current height -/

/-- The heights of the templates a history adopted never go down: the upstream never returns to an earlier
height. -/
def HeightsRise (t : List Event) : Prop :=
  (t.filterMap Event.adopted?).Pairwise fun T T' => T.height ≤ T'.height

instance instDecidableHeightsRise (t : List Event) : Decidable (HeightsRise t) :=
  inferInstanceAs (Decidable (List.Pairwise _ _))

theorem HeightsRise.of_append {t l : List Event} (h : HeightsRise (t ++ l)) : HeightsRise t := by
  unfold HeightsRise at h ⊢
  rw [List.filterMap_append] at h
  exact (List.pairwise_append.1 h).1

/-- Every template adopted at the current height was adopted in the current epoch. -/
def CurrentHeightInEpoch (p : Pool) : Prop :=
  ∀ T ∈ p.trace.filterMap Event.adopted?, T.height = p.job.height → T ∈ epochAdoptions p.trace

theorem sinceEpoch_suffix (t : List Event) : sinceEpoch t <:+ t := by
  induction t using List.reverseRecOn with
  | nil => exact List.suffix_refl _
  | append_singleton t e ih =>
    rw [sinceEpoch_append_singleton]
    split
    · exact List.suffix_append _ _
    · obtain ⟨u, hu⟩ := ih
      exact ⟨u, by rw [← List.append_assoc, hu]⟩

theorem adoptions_eq_append_epochAdoptions (t : List Event) :
    ∃ pre, t.filterMap Event.adopted? = pre ++ epochAdoptions t := by
  obtain ⟨u, hu⟩ := sinceEpoch_suffix t
  have h := congrArg (List.filterMap Event.adopted?) hu
  rw [List.filterMap_append] at h
  exact ⟨_, h.symm⟩

theorem get?_versionsOf_of_mem {ts : List JobTemplate} {T : JobTemplate} (h : T ∈ ts) :
    ∃ pre, (versionsOf ts).get? (T.height * 1000 + T.jobId) = some pre := by
  induction ts using List.reverseRecOn with
  | nil => cases h
  | append_singleton ts T' ih =>
    rw [versionsOf_concat, insertVersion, HashMap.get?_insert]
    split
    · exact ⟨_, rfl⟩
    · rcases List.mem_append.1 h with h | h
      · exact ih h
      · obtain rfl := List.mem_singleton.1 h
        contradiction

/-- While heights rise, a template adopted before at the height of the upstream's offer means the pool's job
is at that height already: the epoch's last adoption lies between the two. -/
theorem height_eq_of_adopted {lib : PowLib Header} {p : Pool} (hv : VersionInv lib p) {T S : JobTemplate}
    (hT : T ∈ p.trace.filterMap Event.adopted?)
    (hrise : (p.trace.filterMap Event.adopted? ++ [S]).Pairwise fun T T' => T.height ≤ T'.height)
    (hTS : T.height = S.height) : p.job.height = S.height := by
  obtain ⟨pre, hpre⟩ := adoptions_eq_append_epochAdoptions p.trace
  obtain ⟨nh, hTa⟩ : ∃ nh, Event.adopt T nh ∈ p.trace := by
    obtain ⟨e, he, heT⟩ := List.mem_filterMap.1 hT
    cases e <;> simp only [Event.adopted?, Option.some.injEq, reduceCtorEq] at heT
    exact ⟨_, heT ▸ he⟩
  obtain ⟨init, L, hL⟩ := (List.eq_nil_or_concat (epochAdoptions p.trace)).resolve_left (epochAdoptions_ne_nil hTa)
  have hjobL : p.job.height = L.height := by rw [hv.current L (by simp [hL])]
  rw [hpre, hL, List.concat_eq_append, ← List.append_assoc] at hT hrise
  rw [List.pairwise_append] at hrise
  have hLS : L.height ≤ S.height := hrise.2.2 L (by simp) _ (List.mem_singleton_self _)
  have hTL : T.height ≤ L.height := by
    rcases List.mem_append.1 hT with hT | hT
    · exact (List.pairwise_append.1 hrise.1).2.2 T hT L (List.mem_singleton_self _)
    · exact List.mem_singleton.1 hT ▸ Nat.le_refl _
  exact hjobL.trans (UInt64.toNat.inj (Nat.le_antisymm hLS (hTS ▸ hTL)))

/-- `accept_new_job` keeps every template of the current height in the current epoch while heights rise:
when it opens an epoch, the template it adopts is higher than every one before it. -/
theorem CurrentHeightInEpoch.acceptNewJob {lib : PowLib Header} {p : Pool} (hv : VersionInv lib p)
    (refused : List Nat) (hi : CurrentHeightInEpoch p) (hrise : HeightsRise (p.acceptNewJob refused).trace) :
    CurrentHeightInEpoch (p.acceptNewJob refused) := by
  rcases p.acceptNewJob_cases refused with h | ⟨l, hl, hjob, ht, -, -⟩
  · rwa [h]
  have hadopt : (p.acceptNewJob refused).trace.filterMap Event.adopted? =
      p.trace.filterMap Event.adopted? ++ [p.server.job] := by
    simp [ht, List.filterMap_eq_nil_iff.2 fun e he => Event.adopted?_of_isLog (hl e he), Event.adopted?]
  rw [HeightsRise, hadopt] at hrise
  intro T hT hTh
  have hTS : T.height = p.server.job.height := by rw [hTh, hjob]
  rw [hadopt] at hT
  rw [ht, epochAdoptions_adopt hl]
  rcases List.mem_append.1 hT with hT | hT
  · have hn := height_eq_of_adopted hv hT hrise hTS
    rw [if_neg (by simp [hn])]
    exact List.mem_append_left _ (hi T hT (hTS.trans hn.symm))
  · exact List.mem_append_right _ hT

theorem CurrentHeightInEpoch.of_quiet {p p' : Pool} (hi : HeightsRise p.trace → CurrentHeightInEpoch p)
    (hjob : p'.job = p.job) {l : List Event} (ht : p'.trace = p.trace ++ l) (hopen : ∀ e ∈ l, e.opensEpoch = false)
    (hq : l.filterMap Event.adopted? = []) (hrise : HeightsRise p'.trace) : CurrentHeightInEpoch p' := by
  rw [ht] at hrise
  intro T hT hTh
  rw [ht, List.filterMap_append, hq, List.append_nil] at hT
  rw [ht, epochAdoptions_append_of_quiet hopen, hq, List.append_nil]
  exact hi hrise.of_append T hT (hjob ▸ hTh)

theorem PoolStep.currentHeightInEpoch {lib : PowLib Header} {p p' : Pool} (h : PoolStep lib p p')
    (hv : VersionInv lib p) (hi : HeightsRise p.trace → CurrentHeightInEpoch p) (hrise : HeightsRise p'.trace) :
    CurrentHeightInEpoch p' := by
  rcases h.history with ⟨hjob, -, -, l, ht, hl⟩ | ⟨refused, rfl⟩ | rfl
  · exact .of_quiet hi hjob ht (fun e he => Event.opensEpoch_of_isLog (hl e he))
      (List.filterMap_eq_nil_iff.2 fun e he => Event.adopted?_of_isLog (hl e he)) hrise
  · rcases p.acceptNewJob_cases refused with h | ⟨l, -, -, ht, -, -⟩
    · rw [h] at hrise ⊢
      exact hi hrise
    · refine CurrentHeightInEpoch.acceptNewJob hv refused (hi ?_) hrise
      rw [ht, ← List.singleton_append, ← List.append_assoc] at hrise
      exact hrise.of_append.of_append
  · obtain ⟨l, ht, hl⟩ := sharePass_trace lib p
    exact .of_quiet hi rfl ht (fun e he => (hl e he).1) (List.filterMap_eq_nil_iff.2 fun e he => (hl e he).2) hrise

theorem Reachable.currentHeightInEpoch {lib : PowLib Header} {d : UInt64} {job : JobTemplate} {s : Sys}
    (hs : Reachable lib d job s) : HeightsRise s.pool.trace → CurrentHeightInEpoch s.pool := by
  induction hs with
  | init => exact fun _ T hT => by simp [Pool.start, Pool.new] at hT
  | step a hs' h ih =>
    rcases step_poolStep h with h' | h'
    · exact h' ▸ ih
    · exact h'.currentHeightInEpoch hs'.versionInv ih

/-- **While the upstream's heights never go down, every job id the pool issued at the current height still
resolves in `job_versions`**: a share citing any template adopted at the current height is never rejected as
an unknown job. Without the precondition it fails: a template adopted at a height the upstream later returns
to was cleared with its epoch. -/
theorem current_height_versions_resolve {lib : PowLib Header} {d : UInt64} {job : JobTemplate} {s : Sys}
    (hs : Reachable lib d job s) (hrise : HeightsRise s.pool.trace) :
    ∀ T ∈ s.pool.trace.filterMap Event.adopted?, T.height = s.pool.job.height →
      ∃ pre, s.pool.jobVersions.get? (T.height * 1000 + T.jobId) = some pre := by
  intro T hT hTh
  rw [hs.versionInv.versions]
  exact get?_versionsOf_of_mem (hs.currentHeightInEpoch hrise T hT hTh)

/-- One tick of the loop with the upstream offering `T` and no worker registered. -/
def tickWith (T : JobTemplate) : List Action :=
  [.connect true T, .serverMessages T (fun _ st => st), .acceptNewJob [],
    .workerMessages (fun _ => ⟨0, "", "", false, false, false, []⟩), .processShares, .sendJobs [], .cleanWorkers]

/-- Two ticks whose upstream offers two templates of height 1, job ids 0 and 5: the second adoption keeps the
first one's epoch. -/
def twoVersions : Sys :=
  (run PowLib.lenient sampleStart (tickWith ⟨1, 0, 1, "00"⟩ ++ tickWith ⟨1, 5, 1, "01"⟩)).getD sampleStart

theorem reachable_twoVersions : Reachable PowLib.lenient 8 ⟨0, 0, 0, ""⟩ twoVersions :=
  Reachable.run_getD .init (by decide)

theorem current_height_versions_resolve_twoVersions :
    Reachable PowLib.lenient 8 ⟨0, 0, 0, ""⟩ twoVersions ∧ HeightsRise twoVersions.pool.trace ∧
    ∀ T ∈ twoVersions.pool.trace.filterMap Event.adopted?, T.height = twoVersions.pool.job.height →
      ∃ pre, twoVersions.pool.jobVersions.get? (T.height * 1000 + T.jobId) = some pre :=
  ⟨reachable_twoVersions, by decide, current_height_versions_resolve reachable_twoVersions (by decide)⟩

/-- Both templates of the sample are adopted at the current height, and the older one's id 1000 still
resolves to its pre-pow. -/
example : twoVersions.pool.trace.filterMap Event.adopted? = [⟨1, 0, 1, "00"⟩, ⟨1, 5, 1, "01"⟩] ∧
    twoVersions.pool.jobVersions.get? 1000 = some "00" := by
  decide

/-- The upstream goes from height 1 to height 2 and back: at height 1 again, the id 1000 the pool issued for
the first template no longer resolves. -/
example :
    let s := (run PowLib.lenient sampleStart
      (tickWith ⟨1, 0, 1, "00"⟩ ++ tickWith ⟨2, 0, 1, "01"⟩ ++ tickWith ⟨1, 5, 1, "02"⟩)).getD sampleStart
    ¬HeightsRise s.pool.trace ∧ s.pool.job.height = 1 ∧ s.pool.jobVersions.get? 1000 = none := by
  decide

end GrinPool
