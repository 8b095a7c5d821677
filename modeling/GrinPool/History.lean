import GrinPool.Run
import GrinPool.Shares

/-!
# The history of a run and its height epochs

Several run-level properties speak of the current height epoch: the steps since the last `accept_new_job` that
adopted a template at another height than the job it replaced (lines 263-275). `sinceEpoch` cuts a history
there, and `epochPows` and `epochAdoptions` read off the pow vectors drained and the templates adopted in
the current epoch. `versionsOf` is the job-version map those adoptions build when each is inserted in
turn under its derived id.

`EveryEntry P t` says that every entry of `t` satisfies `P`, given what came before it in the history, and
`EveryDrain` is its case for drained shares. Only `process_shares` drains shares, so a property of drains
is carried by every other step for free, and `process_shares` keeps it when each share it drains
satisfies it.

`PoolStep.history` says once what a step can do to the job, the duplicate set, the job versions and the
history: every step but `accept_new_job` and `process_shares` keeps the first three and only logs tallies.
-/

namespace GrinPool

/-! ### Entries -/

/-- Whether an entry opens a new height epoch: an adoption at another height. -/
def Event.opensEpoch : Event → Bool
  | .adopt _ newHeight => newHeight
  | _ => false

/-- Whether an entry is a drained share. -/
def Event.isDrain : Event → Bool
  | .drain .. => true
  | _ => false

/-- Whether an entry only logs a tally. -/
def Event.isLog : Event → Bool
  | .logShares _ => true
  | _ => false

/-- The pow vector of a drained share. -/
def Event.drainedPow? : Event → Option (List UInt64)
  | .drain _ s _ => some s.pow
  | _ => none

/-- The template of an adoption. -/
def Event.adopted? : Event → Option JobTemplate
  | .adopt job _ => some job
  | _ => none

theorem Event.opensEpoch_of_isLog {e : Event} (h : e.isLog = true) : e.opensEpoch = false := by
  cases e <;> simp_all [Event.isLog, Event.opensEpoch]

theorem Event.isDrain_of_isLog {e : Event} (h : e.isLog = true) : e.isDrain = false := by
  cases e <;> simp_all [Event.isLog, Event.isDrain]

theorem Event.drainedPow?_of_isLog {e : Event} (h : e.isLog = true) : e.drainedPow? = none := by
  cases e <;> simp_all [Event.isLog, Event.drainedPow?]

theorem Event.adopted?_of_isLog {e : Event} (h : e.isLog = true) : e.adopted? = none := by
  cases e <;> simp_all [Event.isLog, Event.adopted?]

/-! ### Epochs -/

/-- The current height epoch of a history: its entries from the last one that opened an epoch on, or
all of them if none did. -/
def sinceEpoch (t : List Event) : List Event :=
  t.foldl (fun acc e => if e.opensEpoch then [e] else acc ++ [e]) []

/-- The pow vectors drained in the current epoch, in order. -/
def epochPows (t : List Event) : List (List UInt64) := (sinceEpoch t).filterMap Event.drainedPow?

/-- The templates adopted in the current epoch, in order. -/
def epochAdoptions (t : List Event) : List JobTemplate := (sinceEpoch t).filterMap Event.adopted?

/-- `job_versions.insert(job_id, pre_pow)` for an adopted template `T`, under its derived id. -/
def insertVersion (m : HashMap UInt64 String) (T : JobTemplate) : HashMap UInt64 String :=
  m.insert (T.height * 1000 + T.jobId) T.prePow

/-- The job-version map built by the adoptions `ts`, in order, from an empty map. -/
def versionsOf (ts : List JobTemplate) : HashMap UInt64 String := ts.foldl insertVersion .empty

@[simp] theorem sinceEpoch_nil : sinceEpoch [] = [] := rfl

theorem sinceEpoch_append_singleton (t : List Event) (e : Event) :
    sinceEpoch (t ++ [e]) = if e.opensEpoch then [e] else sinceEpoch t ++ [e] := by
  simp [sinceEpoch, List.foldl_append]

theorem sinceEpoch_append_of_quiet {l : List Event} (hl : ∀ e ∈ l, e.opensEpoch = false) (t : List Event) :
    sinceEpoch (t ++ l) = sinceEpoch t ++ l := by
  induction l generalizing t with
  | nil => simp
  | cons e l ih =>
    rw [← List.singleton_append, ← List.append_assoc, ih (fun e' h => hl e' (.tail _ h)),
      sinceEpoch_append_singleton, if_neg (by simp [hl e (.head _)]), List.append_assoc]

theorem epochPows_append_of_quiet {l : List Event} (hl : ∀ e ∈ l, e.opensEpoch = false) (t : List Event) :
    epochPows (t ++ l) = epochPows t ++ l.filterMap Event.drainedPow? := by
  simp [epochPows, sinceEpoch_append_of_quiet hl]

theorem epochAdoptions_append_of_quiet {l : List Event} (hl : ∀ e ∈ l, e.opensEpoch = false)
    (t : List Event) : epochAdoptions (t ++ l) = epochAdoptions t ++ l.filterMap Event.adopted? := by
  simp [epochAdoptions, sinceEpoch_append_of_quiet hl]

theorem epochPows_append_logs {l : List Event} (hl : ∀ e ∈ l, e.isLog = true) (t : List Event) :
    epochPows (t ++ l) = epochPows t := by
  rw [epochPows_append_of_quiet (fun e he => Event.opensEpoch_of_isLog (hl e he)),
    List.filterMap_eq_nil_iff.2 (fun e he => Event.drainedPow?_of_isLog (hl e he)), List.append_nil]

theorem epochAdoptions_append_logs {l : List Event} (hl : ∀ e ∈ l, e.isLog = true) (t : List Event) :
    epochAdoptions (t ++ l) = epochAdoptions t := by
  rw [epochAdoptions_append_of_quiet (fun e he => Event.opensEpoch_of_isLog (hl e he)),
    List.filterMap_eq_nil_iff.2 (fun e he => Event.adopted?_of_isLog (hl e he)), List.append_nil]

theorem sinceEpoch_adopt {l : List Event} (hl : ∀ e ∈ l, e.isLog = true) (t : List Event)
    (T : JobTemplate) (nh : Bool) :
    sinceEpoch (t ++ .adopt T nh :: l) = (if nh then [] else sinceEpoch t) ++ .adopt T nh :: l := by
  rw [← List.singleton_append, ← List.append_assoc,
    sinceEpoch_append_of_quiet (fun e he => Event.opensEpoch_of_isLog (hl e he)),
    sinceEpoch_append_singleton]
  cases nh <;> simp [Event.opensEpoch]

theorem epochPows_adopt {l : List Event} (hl : ∀ e ∈ l, e.isLog = true) (t : List Event)
    (T : JobTemplate) (nh : Bool) :
    epochPows (t ++ .adopt T nh :: l) = if nh then [] else epochPows t := by
  have hl' : l.filterMap Event.drainedPow? = [] :=
    List.filterMap_eq_nil_iff.2 fun e he => Event.drainedPow?_of_isLog (hl e he)
  rw [epochPows, sinceEpoch_adopt hl]
  cases nh <;> simp [epochPows, hl', Event.drainedPow?]

theorem epochAdoptions_adopt {l : List Event} (hl : ∀ e ∈ l, e.isLog = true) (t : List Event)
    (T : JobTemplate) (nh : Bool) :
    epochAdoptions (t ++ .adopt T nh :: l) = (if nh then [] else epochAdoptions t) ++ [T] := by
  have hl' : l.filterMap Event.adopted? = [] :=
    List.filterMap_eq_nil_iff.2 fun e he => Event.adopted?_of_isLog (hl e he)
  rw [epochAdoptions, sinceEpoch_adopt hl]
  cases nh <;> simp [epochAdoptions, hl', Event.adopted?]

theorem versionsOf_concat (ts : List JobTemplate) (T : JobTemplate) :
    versionsOf (ts ++ [T]) = insertVersion (versionsOf ts) T := by
  simp [versionsOf]

theorem get?_versionsOf {ts : List JobTemplate} {k : UInt64} {pre : String}
    (h : (versionsOf ts).get? k = some pre) : ∃ T ∈ ts, T.height * 1000 + T.jobId = k ∧ T.prePow = pre := by
  induction ts using List.reverseRecOn with
  | nil => simp [versionsOf] at h
  | append_singleton ts T ih =>
    rw [versionsOf_concat, insertVersion, HashMap.get?_insert] at h
    split at h
    · cases h
      exact ⟨T, by simp, by simp_all, rfl⟩
    · obtain ⟨T', hT', hk⟩ := ih h
      exact ⟨T', by simp [hT'], hk⟩

/-! ### Properties of every entry -/

/-- `P` holds of every entry of the history `t`, given the entries before it. -/
def EveryEntry (P : List Event → Event → Prop) (t : List Event) : Prop :=
  ∀ pre e post, t = pre ++ e :: post → P pre e

/-- `P` holds of every drained share of the history `t`, given the entries before it. -/
def EveryDrain (P : List Event → Nat → SubmitParams → Exit → Prop) : List Event → Prop :=
  EveryEntry fun pre e => ∀ st sh x, e = .drain st sh x → P pre st sh x

section EveryEntry

variable {P : List Event → Event → Prop}

theorem EveryEntry.nil : EveryEntry P [] := fun _ _ _ h => by simp at h

theorem everyEntry_append_singleton {t : List Event} {e : Event} :
    EveryEntry P (t ++ [e]) ↔ EveryEntry P t ∧ P t e := by
  constructor
  · intro H
    exact ⟨fun pre e' post h => H pre e' (post ++ [e]) (by simp [h]), H t e [] rfl⟩
  · rintro ⟨H, He⟩ pre e' post h
    rcases List.eq_nil_or_concat post with rfl | ⟨L, b, rfl⟩
    · obtain ⟨rfl, he⟩ := List.append_inj' h rfl
      exact List.singleton_inj.1 he ▸ He
    · rw [List.concat_eq_append, show pre ++ e' :: (L ++ [b]) = (pre ++ e' :: L) ++ [b] by simp] at h
      exact H pre e' L (List.append_inj' h rfl).1

theorem EveryEntry.append {t l : List Event} (h : EveryEntry P t) (hl : ∀ e ∈ l, ∀ pre, P pre e) :
    EveryEntry P (t ++ l) := by
  induction l generalizing t with
  | nil => simpa using h
  | cons e l ih =>
    rw [← List.singleton_append, ← List.append_assoc]
    exact ih (everyEntry_append_singleton.2 ⟨h, hl e (.head _) t⟩) fun e' h' => hl e' (.tail _ h')

end EveryEntry

section EveryDrain

variable {P : List Event → Nat → SubmitParams → Exit → Prop}

theorem EveryDrain.nil : EveryDrain P [] := EveryEntry.nil

theorem EveryDrain.of_eq {t pre post : List Event} {st : Nat} {sh : SubmitParams} {x : Exit}
    (h : EveryDrain P t) (ht : t = pre ++ .drain st sh x :: post) : P pre st sh x :=
  h pre _ post ht st sh x rfl

theorem EveryDrain.append {t l : List Event} (h : EveryDrain P t) (hl : ∀ e ∈ l, e.isDrain = false) :
    EveryDrain P (t ++ l) :=
  EveryEntry.append h fun e he _ _ _ _ hx => absurd (hl e he) (by simp [hx, Event.isDrain])

theorem EveryDrain.append_drain {t l : List Event} {st : Nat} {sh : SubmitParams} {x : Exit}
    (h : EveryDrain P t) (hp : P t st sh x) (hl : ∀ e ∈ l, e.isDrain = false) :
    EveryDrain P (t ++ .drain st sh x :: l) := by
  rw [← List.singleton_append, ← List.append_assoc]
  exact EveryDrain.append (everyEntry_append_singleton.2 ⟨h, by rintro _ _ _ ⟨⟩; exact hp⟩) hl

theorem EveryDrain.append_logs {t l : List Event} (h : EveryDrain P t) (hl : ∀ e ∈ l, e.isLog = true) :
    EveryDrain P (t ++ l) :=
  h.append fun e he => Event.isDrain_of_isLog (hl e he)

theorem EveryDrain.append_adopt {t l : List Event} {T : JobTemplate} {nh : Bool} (h : EveryDrain P t)
    (hl : ∀ e ∈ l, e.isLog = true) : EveryDrain P (t ++ .adopt T nh :: l) := by
  refine h.append ?_
  simp only [List.mem_cons]
  rintro e (rfl | he)
  exacts [rfl, Event.isDrain_of_isLog (hl e he)]

end EveryDrain

/-! ### What a step does to the history -/

namespace Pool

variable {Header : Type}

theorem iterMut_trace_logs (m : HashMap String Worker) (t : List Event)
    (f : List Event → String → Worker → List Event × Worker)
    (hf : ∀ t k w, (f t k w).1 = t ∨ ∃ e, (f t k w).1 = t ++ [e] ∧ e.isLog = true) :
    ∃ l, (m.iterMut t f).1 = t ++ l ∧ ∀ e ∈ l, e.isLog = true := by
  refine HashMap.iterMutList_fst_induction _ (fun t' => ∃ l, t' = t ++ l ∧ ∀ e ∈ l, e.isLog = true) ?_ _
    ⟨[], by simp, by simp⟩
  rintro _ k w ⟨l, rfl, hl⟩
  rcases hf (t ++ l) k w with h | ⟨e, h, he⟩
  · exact ⟨l, h, hl⟩
  · refine ⟨l ++ [e], by rw [h, List.append_assoc], ?_⟩
    simp only [List.mem_append, List.mem_singleton]
    rintro e' (h' | rfl)
    exacts [hl e' h', he]

theorem broadcastJob_trace (p : Pool) (refused : List Nat) :
    ∃ l, (p.broadcastJob refused).trace = p.trace ++ l ∧ ∀ e ∈ l, e.isLog = true :=
  iterMut_trace_logs _ _ _ fun t _ w => by
    unfold broadcastOne
    split
    exacts [.inr ⟨_, rfl, rfl⟩, .inl rfl]

theorem sendJobs_trace (p : Pool) (refused : List Nat) :
    ∃ l, (p.sendJobs refused).trace = p.trace ++ l ∧ ∀ e ∈ l, e.isLog = true :=
  iterMut_trace_logs _ _ _ fun t _ w => by
    unfold sendJobOne
    split
    exacts [.inr ⟨_, rfl, rfl⟩, .inl rfl]

/-- `accept_new_job` either finds the upstream template already adopted and changes nothing, or adopts
it: the job becomes the template under its derived id, the history records the adoption and the
broadcast's tallies, and on a new height the duplicate set and the job versions start afresh before the
new version is inserted. -/
theorem acceptNewJob_cases (p : Pool) (refused : List Nat) :
    p.acceptNewJob refused = p ∨
      ∃ l, (∀ e ∈ l, e.isLog = true) ∧
        (p.acceptNewJob refused).job =
          { p.server.job with jobId := p.server.job.height * 1000 + p.server.job.jobId } ∧
        (p.acceptNewJob refused).trace =
          p.trace ++ .adopt p.server.job (decide (p.job.height ≠ p.server.job.height)) :: l ∧
        (p.acceptNewJob refused).duplicates =
          (if p.job.height ≠ p.server.job.height then .empty else p.duplicates) ∧
        (p.acceptNewJob refused).jobVersions = insertVersion
          (if p.job.height ≠ p.server.job.height then .empty else p.jobVersions) p.server.job := by
  by_cases h : p.job.prePow ≠ p.server.job.prePow
  · right
    obtain ⟨l, hl, hlog⟩ := broadcastJob_trace { p with
      job := { p.server.job with jobId := p.server.job.height * 1000 + p.server.job.jobId },
      trace := p.trace ++ [.adopt p.server.job (decide (p.job.height ≠ p.server.job.height))] } refused
    refine ⟨l, hlog, ?_⟩
    unfold acceptNewJob insertVersion
    rw [if_pos h]
    split <;> simp_all [broadcastJob]
  · left
    unfold acceptNewJob
    rw [if_neg h]

end Pool

/-- Every step but `accept_new_job` and `process_shares` keeps the job, the duplicate set and the job
versions, and only logs tallies. -/
theorem PoolStep.history {Header : Type} {lib : PowLib Header} {p p' : Pool} (h : PoolStep lib p p') :
    (p'.job = p.job ∧ p'.duplicates = p.duplicates ∧ p'.jobVersions = p.jobVersions ∧
      ∃ l, p'.trace = p.trace ++ l ∧ ∀ e ∈ l, e.isLog = true) ∨
    (∃ refused, p' = p.acceptNewJob refused) ∨ p' = p.sharePass lib := by
  cases h with
  | acceptNewJob refused => exact .inr (.inl ⟨refused, rfl⟩)
  | processShares h => exact .inr (.inr (Pool.eq_sharePass_of_processShares h))
  | sendJobs refused => exact .inl ⟨rfl, rfl, rfl, p.sendJobs_trace refused⟩
  | _ => exact .inl ⟨rfl, rfl, rfl, [], (List.append_nil _).symm, by simp⟩

end GrinPool
