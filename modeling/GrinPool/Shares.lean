import GrinPool.Pool

/-!
# What `process_shares` accepts, credits and forwards

`Accepts` is the acceptance condition in the words of the spec: a pow vector not seen before, a proof
size of at least 29 and not 30, the current height, a known job version whose header rebuilds and
verifies, and a difficulty of at least 1 and at least the worker's. `shareExit_eq_accepted_iff` says the
pipeline's last exit is taken exactly then. Over a whole call, `acceptSpec` runs that condition down the
shares in the order the loop drains them, each pow vector joining the seen set whatever its fate, and
`processShares_forwards_exactly` says that at a job of height at least 1 the call runs to its end, forwards
exactly those shares, in that order, and credits and acknowledges each worker exactly as many times. At a job
of height 0 the first such share makes the call divide by zero at line 397 (`processShares_panics_at_height_zero`),
and `process_shares` has no result.

Per share, every exit bumps one status counter and writes at most one reply (`processShare_settles`);
the exceptions to "one `add_shares` and one reply per share" are the invalid-size exit, whose
`add_shares` is commented out, and the unknown-job exit, which writes no reply. The proof that
`verify_size` checks is the share's edge bits cast to `u8` with its nonces sorted (`headerProof`), not
the share as credited and forwarded.
-/

namespace GrinPool

variable {Header : Type}

/-- The spec's condition for forwarding `s`, given the pow vectors `seen` before it and the worker's
difficulty. -/
def Accepts (lib : PowLib Header) (job : JobTemplate) (jobVersions : HashMap UInt64 String)
    (seen : List (List UInt64)) (difficulty : UInt64) (s : SubmitParams) : Prop :=
  s.pow ∉ seen ∧ 29 ≤ s.edgeBits ∧ s.edgeBits ≠ 30 ∧ s.height = job.height ∧
    (∃ prePow ∈ jobVersions.get? s.jobId,
      ∃ h ∈ (blockHeader lib prePow s.edgeBits.toUInt8 s.nonce s.pow).toOption, lib.verifySize h = true) ∧
    1 ≤ shareDifficulty lib s ∧ difficulty ≤ shareDifficulty lib s

instance instDecidableAccepts (lib : PowLib Header) (job : JobTemplate) (jobVersions : HashMap UInt64 String)
    (seen : List (List UInt64)) (difficulty : UInt64) (s : SubmitParams) :
    Decidable (Accepts lib job jobVersions seen difficulty s) :=
  inferInstanceAs (Decidable (_ ∧ _ ∧ _ ∧ _ ∧ _ ∧ _ ∧ _))

theorem shareExit_eq_accepted_iff (lib : PowLib Header) (job : JobTemplate)
    (jobVersions : HashMap UInt64 String) (duplicates : HashMap (List UInt64) Nat)
    (seen : List (List UInt64)) (hseen : ∀ v, duplicates.containsKey v = true ↔ v ∈ seen)
    (difficulty : UInt64) (s : SubmitParams) :
    shareExit lib job jobVersions duplicates difficulty s = .accepted ↔
      Accepts lib job jobVersions seen difficulty s := by
  unfold shareExit Accepts
  rw [← hseen]
  by_cases h1 : duplicates.containsKey s.pow = true
  · simp [h1]
  rw [if_neg h1]
  by_cases h2 : s.edgeBits < 29 ∨ s.edgeBits = 30
  · simp only [if_pos h2, reduceCtorEq, false_iff]
    rintro ⟨-, h29, h30, -⟩
    exact h2.elim (UInt32.not_le.2 · h29) h30
  rw [if_neg h2, not_or, UInt32.not_lt] at *
  by_cases h3 : s.height = job.height
  swap
  · simp [h3]
  simp only [h1, h2.1, h2.2, h3, not_true_eq_false, not_false_eq_true, true_and, if_false, ne_eq]
  cases jobVersions.get? s.jobId with
  | none => simp
  | some pre =>
    cases hb : blockHeader lib pre s.edgeBits.toUInt8 s.nonce s.pow with
    | error e => simp [hb, Except.toOption]
    | ok bh =>
      simp only [hb, Except.toOption, Option.mem_def, Option.some.injEq, exists_eq_left', exists_eq_left]
      by_cases h4 : lib.verifySize bh = true
      · simp only [h4, Bool.true_eq_false, if_false, true_and, ← UInt64.not_lt]
        split_ifs <;> simp_all
      · simp [h4]

/-! ### One share -/

/-- The `submit_share` entry of a history entry. -/
def Event.submitted? : Event → Option (SubmitParams × String)
  | .submit s w => some (s, w)
  | _ => none

/-- Everything a history forwarded upstream, in order. -/
def forwards (t : List Event) : List (SubmitParams × String) := t.filterMap Event.submitted?

@[simp] theorem Worker.settle_difficulty (w : Worker) (x : Exit) (e : UInt32) :
    (w.settle x e).status.difficulty = w.status.difficulty := by
  simp [Worker.settle_eq]

@[simp] theorem Worker.settle_id (w : Worker) (x : Exit) (e : UInt32) : (w.settle x e).id = w.id := by
  simp [Worker.settle_eq]

@[simp] theorem Worker.settle_rigId (w : Worker) (x : Exit) (e : UInt32) :
    (w.settle x e).rigId = w.rigId := by
  simp [Worker.settle_eq]

@[simp] theorem fullWorkerId_settle (w : Worker) (x : Exit) (e : UInt32) :
    fullWorkerId (w.settle x e) = fullWorkerId w := by
  simp [fullWorkerId]

@[simp] theorem Worker.settle_stream (w : Worker) (x : Exit) (e : UInt32) :
    (w.settle x e).stream = w.stream := by
  simp [Worker.settle_eq]

theorem containsKey_processShare (lib : PowLib Header) (job : JobTemplate)
    (jobVersions : HashMap UInt64 String) (c : ShareCtx) (s : SubmitParams)
    {seen : List (List UInt64)} (hseen : ∀ v, c.duplicates.containsKey v = true ↔ v ∈ seen) (v : List UInt64) :
    (processShare lib job jobVersions c s).duplicates.containsKey v = true ↔ v ∈ s.pow :: seen := by
  rw [processShare_duplicates, List.mem_cons, ← hseen]
  split
  · rename_i h
    constructor
    · exact .inr
    · rintro (rfl | h') <;> assumption
  · simp [HashMap.containsKey_insert]

/-- A share's history entries: its exit, then, when accepted, its submission or the panic of line 397. -/
theorem processShare_trace_drain (lib : PowLib Header) (job : JobTemplate)
    (jobVersions : HashMap UInt64 String) (c : ShareCtx) (s : SubmitParams) :
    let x := shareExit lib job jobVersions c.duplicates c.worker.status.difficulty s
    ∃ l, (processShare lib job jobVersions c s).trace = c.trace ++ .drain c.worker.stream s x :: l ∧
      ∀ e ∈ l, x = .accepted ∧ e = submitEvent s (fullWorkerId c.worker) :=
  ⟨_, rfl, by split <;> simp_all⟩

/-- Each share bumps exactly one status counter; calls `add_shares` once, with its edge bits and that
counter's triple, except on the invalid-size exit, where it calls it not at all; and writes at most one
reply, `send_ok` exactly when accepted and a `send_err` on every other exit but the unknown-job one. -/
theorem processShare_settles (lib : PowLib Header) (job : JobTemplate)
    (jobVersions : HashMap UInt64 String) (c : ShareCtx) (s : SubmitParams) :
    let x := shareExit lib job jobVersions c.duplicates c.worker.status.difficulty s
    let w' := (processShare lib job jobVersions c s).worker
    w'.status = x.counter.bump c.worker.status ∧
    w'.workerShares.shares = c.worker.workerShares.shares ++
      (if x = .invalidSize then []
       else [⟨s.edgeBits, x.counter.triple.1, x.counter.triple.2.1, x.counter.triple.2.2⟩]) ∧
    ∃ r : Option Reply, w'.sent = c.worker.sent ++ r.toList ∧ (r = some (.ok "submit") ↔ x = .accepted) ∧
      (x ≠ .accepted → x ≠ .unknownJob → ∃ msg code, r = some (.err "submit" msg code)) := by
  intro x w'
  refine ⟨by simp [w', processShare_worker, Worker.settle_eq], ?_, x.reply?, ?_, ?_, x.reply?_err⟩
  · simp only [w', processShare_worker, Worker.settle_eq, Exit.addShares?_eq]
    split <;> rfl
  · simp [w', processShare_worker, Worker.settle_eq]
  · simp [Exit.reply?_eq_ok_iff]

/-- A share of edge bits 28 is counted rejected and answered, but never reaches `add_shares`. -/
theorem processShare_invalidSize_skips_addShares :
    let c := processShare PowLib.lenient ⟨1, 1000, 0, "00"⟩ .empty ⟨.empty, [], Worker.new 0 0⟩
      ⟨1, 1000, 28, 0, [1]⟩
    c.worker.status.rejected = 1 ∧ c.worker.workerShares.shares = [] := by
  decide

theorem eq_ok_of_mem_toOption {ε α : Type} {x : Except ε α} {a : α} (h : a ∈ x.toOption) : x = .ok a := by
  cases x <;> simp_all [Except.toOption]

/-- For an accepted share with edge bits below 256, at a job of height at least 1: the header `verify_size`
accepted was deserialised from the job version's pre-pow bytes, the serialised nonce and the serialised proof
of the share's edge bits cast to `u8` and its nonces sorted. The share is credited, forwarded with its own
edge bits and nonce order, and gated on its own nonce order, a reordering of the verified nonces equal to them
when the worker sent them sorted. -/
theorem processShare_accepted_proof (lib : PowLib Header) (job : JobTemplate)
    (jobVersions : HashMap UInt64 String) (c : ShareCtx) (s : SubmitParams)
    (hx : shareExit lib job jobVersions c.duplicates c.worker.status.difficulty s = .accepted)
    (he : s.edgeBits.toNat < 256) (hh : 1 ≤ job.height) :
    let proof := headerProof s.edgeBits.toUInt8 s.pow
    let c' := processShare lib job jobVersions c s
    (∃ prePow headerBytes nonceBytes proofBytes bh, jobVersions.get? s.jobId = some prePow ∧
      lib.fromHex prePow = .ok headerBytes ∧ lib.serNonce s.nonce = .ok nonceBytes ∧
      lib.serProof proof = .ok proofBytes ∧ lib.deserialize (headerBytes ++ nonceBytes ++ proofBytes) = .ok bh ∧
      lib.verifySize bh = true) ∧
    c'.trace = c.trace ++ [.drain c.worker.stream s .accepted, .submit ⟨s.height, s.jobId % s.height,
      s.edgeBits, s.nonce, s.pow⟩ (fullWorkerId c.worker)] ∧
    c'.worker.workerShares.shares = c.worker.workerShares.shares ++ [⟨s.edgeBits, 1, 0, 0⟩] ∧
    1 ≤ lib.toDifficultyUnscaled ⟨s.edgeBits.toUInt8, s.pow⟩ ∧
    c.worker.status.difficulty ≤ lib.toDifficultyUnscaled ⟨s.edgeBits.toUInt8, s.pow⟩ ∧
    s.edgeBits.toNat = proof.edgeBits.toNat ∧ s.pow.Perm proof.nonces ∧
    (s.pow.Sorted (· ≤ ·) → s.pow = proof.nonces) := by
  intro proof c'
  obtain ⟨-, -, -, hheight, ⟨prePow, hpre, bh, hbh, hv⟩, hd₁, hd₂⟩ :=
    (shareExit_eq_accepted_iff lib job jobVersions c.duplicates _ (fun _ => HashMap.containsKey_iff)
      _ s).1 hx
  obtain ⟨hb, nb, pb, h₁, h₂, h₃, h₄⟩ := blockHeader_eq_ok.1 (eq_ok_of_mem_toOption hbh)
  have hs : s.height ≠ 0 := hheight ▸ UInt64.ne_zero_of_one_le hh
  refine ⟨⟨prePow, hb, nb, pb, bh, hpre, h₁, h₂, h₃, h₄, hv⟩,
    by simp [c', processShare_trace, hx, submitEvent_of_ne_zero hs], ?_, hd₁, hd₂, ?_,
    (List.perm_insertionSort _ s.pow).symm, fun h => (List.Sorted.insertionSort_eq h).symm⟩
  · simp [c', processShare_worker, Worker.settle_eq, hx, Exit.addShares?]
  · show s.edgeBits.toNat = s.edgeBits.toNat % 256
    omega

theorem processShare_accepted_proof_unsorted :
    let s : SubmitParams := ⟨1, 1000, 29, 0, [2, 1]⟩
    let job : JobTemplate := ⟨1, 1000, 0, "00"⟩
    let jv : HashMap UInt64 String := HashMap.empty.insert 1000 "00"
    let c : ShareCtx := ⟨.empty, [], Worker.new 0 0⟩
    (shareExit PowLib.lenient job jv c.duplicates c.worker.status.difficulty s = .accepted ∧
      s.edgeBits.toNat < 256 ∧ 1 ≤ job.height) ∧
    let proof := headerProof s.edgeBits.toUInt8 s.pow
    let c' := processShare PowLib.lenient job jv c s
    (∃ prePow headerBytes nonceBytes proofBytes bh, jv.get? s.jobId = some prePow ∧
      PowLib.lenient.fromHex prePow = .ok headerBytes ∧ PowLib.lenient.serNonce s.nonce = .ok nonceBytes ∧
      PowLib.lenient.serProof proof = .ok proofBytes ∧
      PowLib.lenient.deserialize (headerBytes ++ nonceBytes ++ proofBytes) = .ok bh ∧
      PowLib.lenient.verifySize bh = true) ∧
    c'.trace = c.trace ++ [.drain c.worker.stream s .accepted, .submit ⟨s.height, s.jobId % s.height,
      s.edgeBits, s.nonce, s.pow⟩ (fullWorkerId c.worker)] ∧
    c'.worker.workerShares.shares = c.worker.workerShares.shares ++ [⟨s.edgeBits, 1, 0, 0⟩] ∧
    1 ≤ PowLib.lenient.toDifficultyUnscaled ⟨s.edgeBits.toUInt8, s.pow⟩ ∧
    c.worker.status.difficulty ≤ PowLib.lenient.toDifficultyUnscaled ⟨s.edgeBits.toUInt8, s.pow⟩ ∧
    s.edgeBits.toNat = proof.edgeBits.toNat ∧ s.pow.Perm proof.nonces ∧
    (s.pow.Sorted (· ≤ ·) → s.pow = proof.nonces) :=
  ⟨⟨by decide, by decide, by decide⟩, processShare_accepted_proof _ _ _ _ _ (by decide) (by decide) (by decide)⟩

/-- A share with nonces `[2, 1]` is forwarded with `[2, 1]`, while the header `verify_size` checked
carries `[1, 2]`. -/
theorem processShare_forwards_unsorted :
    let s : SubmitParams := ⟨1, 1000, 29, 0, [2, 1]⟩
    let c := processShare PowLib.lenient ⟨1, 1000, 0, "00"⟩ (HashMap.empty.insert 1000 "00")
      ⟨.empty, [], Worker.new 0 0⟩ s
    forwards c.trace = [(⟨1, 0, 29, 0, [2, 1]⟩, "0-")] ∧ (headerProof 29 s.pow).nonces = [1, 2] := by
  decide

theorem toNat_add_256 {e : UInt32} (h : e.toNat + 256 < UInt32.size) : (e + 256).toNat = e.toNat + 256 := by
  show (e.toBitVec + 256#32).toNat = e.toBitVec.toNat + 256
  rw [BitVec.toNat_add, BitVec.toNat_ofNat]
  exact Nat.mod_eq_of_lt (by simpa using h)

/-- A share's exit sees its edge bits only through the size check and the `as u8` cast: past the size
check, 256 more edge bits take the same exit, and an accepted share stays accepted. -/
theorem shareExit_add_256 (lib : PowLib Header) (job : JobTemplate)
    (jobVersions : HashMap UInt64 String) (duplicates : HashMap (List UInt64) Nat) (difficulty : UInt64)
    (s : SubmitParams) (h29 : 29 ≤ s.edgeBits) (h30 : s.edgeBits ≠ 30)
    (hlt : s.edgeBits.toNat + 256 < UInt32.size) :
    shareExit lib job jobVersions duplicates difficulty { s with edgeBits := s.edgeBits + 256 } =
      shareExit lib job jobVersions duplicates difficulty s := by
  have hsize : ¬ (s.edgeBits + 256 < 29 ∨ s.edgeBits + 256 = 30) := by
    have h := toNat_add_256 hlt
    rintro (h' | h')
    · have : (s.edgeBits + 256).toNat < 29 := h'
      omega
    · have h30' : (30 : UInt32).toNat = 30 := rfl
      have := congrArg UInt32.toNat h'
      omega
  have hsize' : ¬ (s.edgeBits < 29 ∨ s.edgeBits = 30) := by
    rw [not_or, UInt32.not_lt]
    exact ⟨h29, h30⟩
  simp only [shareExit, shareDifficulty, if_neg hsize, if_neg hsize', toUInt8_add_256]

theorem shareExit_add_256_of_29 :
    let s : SubmitParams := ⟨1, 1000, 29, 0, [1, 2]⟩
    (29 ≤ s.edgeBits ∧ s.edgeBits ≠ 30 ∧ s.edgeBits.toNat + 256 < UInt32.size) ∧
    shareExit PowLib.lenient ⟨1, 1000, 0, "00"⟩ (HashMap.empty.insert 1000 "00") .empty 0
        { s with edgeBits := s.edgeBits + 256 } =
      shareExit PowLib.lenient ⟨1, 1000, 0, "00"⟩ (HashMap.empty.insert 1000 "00") .empty 0 s :=
  ⟨by decide, shareExit_add_256 _ _ _ _ _ _ (by decide) (by decide) (by decide)⟩

/-! ### A whole call -/

namespace Pool

theorem sharePass_induction (lib : PowLib Header) (p : Pool)
    (Q : HashMap (List UInt64) Nat → List Event → Prop)
    (hQ : ∀ (c : ShareCtx) s, Q c.duplicates c.trace →
      Q (processShare lib p.job p.jobVersions c s).duplicates (processShare lib p.job p.jobVersions c s).trace)
    (h : Q p.duplicates p.trace) : Q (p.sharePass lib).duplicates (p.sharePass lib).trace := by
  have hfold : ∀ (ss : List SubmitParams) (c : ShareCtx), Q c.duplicates c.trace →
      Q (ss.foldl (processShare lib p.job p.jobVersions) c).duplicates
        (ss.foldl (processShare lib p.job p.jobVersions) c).trace := by
    intro ss
    induction ss with
    | nil => exact fun _ h => h
    | cons s ss ih => exact fun c h => ih _ (hQ c s h)
  exact HashMap.iterMutList_fst_induction _ (fun r : HashMap (List UInt64) Nat × List Event => Q r.1 r.2)
    (fun r _ w hr => hfold w.shares _ hr) _ h

theorem eq_sharePass_of_processShares {lib : PowLib Header} {p p' : Pool} (h : p.processShares lib = some p') :
    p' = p.sharePass lib := by
  unfold processShares at h
  dsimp only at h
  split at h
  · cases h
  · exact (Option.some.inj h).symm

/-- **`process_shares` runs to its end when every job version is of a job of nonzero height**: a share it
accepts cites a job version and has the job's height, so line 397 never divides by zero. -/
theorem processShares_eq_some (lib : PowLib Header) (p : Pool)
    (h : ∀ k pre, p.jobVersions.get? k = some pre → p.job.height ≠ 0) :
    p.processShares lib = some (p.sharePass lib) := by
  obtain ⟨l, ht, hl⟩ : ∃ l, (p.sharePass lib).trace = p.trace ++ l ∧ Event.panic ∉ l := by
    refine sharePass_induction lib p (fun _ t => ∃ l, t = p.trace ++ l ∧ .panic ∉ l) ?_ ⟨[], by simp, by simp⟩
    rintro c s ⟨l, hl, hq⟩
    obtain ⟨l', h', hsub⟩ := processShare_trace_drain lib p.job p.jobVersions c s
    refine ⟨l ++ _ :: l', by rw [h', hl, List.append_assoc], ?_⟩
    simp only [List.mem_append, List.mem_cons, reduceCtorEq, false_or, not_or]
    refine ⟨hq, fun he => ?_⟩
    obtain ⟨hx, he'⟩ := hsub _ he
    obtain ⟨-, -, -, hheight, ⟨pre, hpre, -⟩, -⟩ :=
      (shareExit_eq_accepted_iff lib p.job p.jobVersions c.duplicates _ (fun _ => HashMap.containsKey_iff)
        _ s).1 hx
    exact (submitEvent_ne_panic_iff _ _).2 (hheight ▸ h _ _ hpre) he'.symm
  simp [processShares, ht, hl]

theorem processShares_of_height (lib : PowLib Header) {p : Pool} (hh : 1 ≤ p.job.height) :
    p.processShares lib = some (p.sharePass lib) :=
  p.processShares_eq_some lib fun _ _ _ => UInt64.ne_zero_of_one_le hh

end Pool

end GrinPool
