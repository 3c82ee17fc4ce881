/-
# ZeroKv.GroupCommit.Depth — what the depth counter counts.

`append` publishes its record first and adds one to `pending_count` afterwards; the Batcher subtracts the size
of the batch it has detached.  So the counter is what was added less what was subtracted, in words, and the
Batcher may subtract a record that nobody has added yet: one writer between its push and its `fetch_add` is
enough for a counter of `2 ^ 64 - 1`.

`Counted` is the condition under which this does not happen.  Take the moment of a `fetch_sub`: of the records
pushed so far, those whose writer has not yet added must be no more than those still on the stack.
-/
import ZeroKv.GroupCommit.Order

namespace ZeroKv.GroupCommit

variable {τ : Type} {s s' : State τ}

/-! ## The account -/

/-- Calls of `append` so far: those that returned and those that are under way. -/
def State.started (s : State τ) : ℕ := s.returned.length + s.borrowers.length

/-- Records that were pushed and not yet added to the counter: their writers stand in front of `fetch_add`. -/
def State.uncounted (s : State τ) : ℕ := s.pushed.length - s.returned.length

/-- Records that were pushed and not yet detached. -/
def State.waiting (s : State τ) : ℕ :=
  s.pushed.length - (s.committed.flatten.length + s.batcher.batch.length)

/-- The records of the batch at hand, once they are subtracted. -/
def BatcherPc.subtracted : BatcherPc → ℕ
  | .reserve _ batch | .write _ batch _ => batch.length
  | _ => 0

/-- Records that were subtracted from the counter. -/
def State.subtracted (s : State τ) : ℕ := s.committed.flatten.length + s.batcher.subtracted

@[simp] theorem signalFrom_subtracted (r : Bool) (b : List ℕ) : (signalFrom r b).subtracted = 0 := by
  cases b <;> cases r <;> rfl

@[simp] theorem collectFrom_subtracted (r : Bool) (b : List ℕ) (n : Option ℕ) :
    (collectFrom r b n).subtracted = 0 := by
  cases n <;> rfl

/-- At a `fetch_sub` no more writers stand in front of their `fetch_add` than there are records on the
stack. -/
def Counted (s : State τ) : Label τ → Prop
  | .client _ _ => True
  | .batcher _ =>
      match s.batcher with
      | .subCount _ _ => s.uncounted ≤ s.waiting
      | _ => True

instance (s : State τ) (l : Label τ) : Decidable (Counted s l) :=
  match l with
  | .client _ _ => .isTrue trivial
  | .batcher _ =>
      show Decidable (match s.batcher with
        | .subCount _ _ => s.uncounted ≤ s.waiting
        | _ => True) from
      match s.batcher with
      | .subCount _ _ => inferInstanceAs (Decidable (_ ≤ _))
      | .loadRunning | .window | .swap _ | .collect .. | .reserve .. | .write .. | .signalDone ..
      | .signalWake .. | .checkHead | .exited => .isTrue trivial

/-- The counter is what was added less what was subtracted.  Past `2 ^ 64` appends only its size is known. -/
structure Depth (s : State τ) : Prop where
  lt : s.shared.pendingCount < 2 ^ 64
  balance : s.returned.length < 2 ^ 64 → s.shared.pendingCount + s.subtracted = s.returned.length

theorem Depth.le_returned (h : Depth s) : s.shared.pendingCount ≤ s.returned.length := by
  rcases Nat.lt_or_ge s.returned.length (2 ^ 64) with hlt | hge
  · have := h.balance hlt
    omega
  · exact h.lt.le.trans hge

/-- A step that touches neither the counter nor a batch. -/
theorem Depth.frame (h : Depth s) (hcount : s'.shared.pendingCount = s.shared.pendingCount)
    (hret : s'.returned = s.returned) (hsub : s'.subtracted = s.subtracted) : Depth s' where
  lt := hcount ▸ h.lt
  balance := by
    rw [hcount, hret, hsub]
    exact h.balance

/-- The Batcher has detached only records that were pushed. -/
theorem Sited.detached_le (h : Sited s) :
    s.committed.flatten.length + s.batcher.batch.length ≤ s.pushed.length := by
  obtain ⟨stack, chain, hp⟩ := h.placed
  have hlen := hp.perm.length_eq
  simp only [List.length_append] at hlen
  omega

section Steps

variable [DecidableEq τ] {maxBatch : ℕ} {l : Label τ}

theorem Depth.step (hs : Sited s) (h : Depth s) (hc : Counted s l) (hst : StepTo maxBatch s l s') :
    Depth s' := by
  cases hst with
  | @countAdd t b n hpc =>
      refine ⟨Nat.mod_lt _ (Nat.two_pow_pos 64), fun hlt => ?_⟩
      have hlen : (n :: s.returned).length < 2 ^ 64 := hlt
      rw [List.length_cons] at hlen
      have hbal := h.balance (by omega)
      show (s.shared.pendingCount + 1) % 2 ^ 64 + s.subtracted = (n :: s.returned).length
      rw [List.length_cons, Nat.mod_eq_of_lt (by omega)]
      omega
  | @subCount a running batch hb =>
      refine ⟨Nat.mod_lt _ (Nat.two_pow_pos 64), fun hlt => ?_⟩
      have hbal := h.balance hlt
      have hle := hs.detached_le
      -- under the condition the batch has been counted, so the subtraction does not wrap
      have hcond : s.uncounted ≤ s.waiting := by
        rw [Counted, hb] at hc
        exact hc
      simp only [State.uncounted, State.waiting, State.subtracted, hb, BatcherPc.batch,
        BatcherPc.subtracted] at hcond hbal hle ⊢
      have hword := h.lt
      rw [wrappingSub_of_le (by omega) hword]
      omega
  | @reserve a running batch hb =>
      refine h.frame rfl rfl ?_
      have hlen : (s.recs.sortBySeq batch).length = batch.length := List.length_insertionSort ..
      simp only [State.subtracted, hb, BatcherPc.subtracted, hlen]
  | write hb =>
      refine h.frame rfl rfl ?_
      simp only [State.subtracted, hb, signalFrom_subtracted]
      simp [BatcherPc.subtracted]
  | loadRunning hb | swapNone hb _ | checkHead hb =>
      refine h.frame rfl rfl ?_
      simp only [State.subtracted, hb]
      split <;> rfl
  | collect hb | signalWake hb =>
      refine h.frame rfl rfl ?_
      simp only [State.subtracted, hb, collectFrom_subtracted, signalFrom_subtracted]
      rfl
  | windowEnd hb | swapSome hb _ | signalDone hb =>
      exact h.frame rfl rfl (by simp only [State.subtracted, hb, BatcherPc.subtracted])
  | _ => exact h.frame rfl rfl rfl

/-! ## Counting the calls -/

/-- The threads inside `append`, each once. -/
structure Borrowing (s : State τ) : Prop where
  nodup : s.borrowers.Nodup
  mem_iff : ∀ t, t ∈ s.borrowers ↔ (s.clients t).appending = true

/-- The step that starts a call of `append`. -/
def Label.isAppend : Label τ → Bool
  | .client _ (.append _) => true
  | _ => false

theorem appending_goto_eq {t : τ} {pc : ClientPc} (h : pc.appending = (s.clients t).appending) (u : τ) :
    ((s.goto t pc).clients u).appending = (s.clients u).appending :=
  apply_update_of_eq ClientPc.appending h u

omit [DecidableEq τ] in
theorem Borrowing.frame (h : Borrowing s) (hbor : s'.borrowers = s.borrowers)
    (hret : s'.returned = s.returned)
    (happ : ∀ t, (s'.clients t).appending = (s.clients t).appending) :
    Borrowing s' ∧ s'.started = s.started + 0 := by
  refine ⟨⟨hbor ▸ h.nodup, fun t => ?_⟩, ?_⟩
  · rw [hbor, happ, h.mem_iff]
  · rw [State.started, State.started, hbor, hret, Nat.add_zero]

theorem Borrowing.step (h : Borrowing s) (hst : StepTo maxBatch s l s') :
    Borrowing s' ∧ s'.started = s.started + if l.isAppend then 1 else 0 := by
  cases hst with
  | @append t record hpc _ =>
      have hnew : t ∉ s.borrowers := by simp [h.mem_iff, hpc, ClientPc.appending]
      refine ⟨⟨List.nodup_cons.mpr ⟨hnew, h.nodup⟩, fun u => ?_⟩, rfl⟩
      by_cases hu : u = t
      · subst hu
        simp [State.goto, ClientPc.appending]
      · simp [State.goto, hu, h.mem_iff]
  | @countAdd t b n hpc =>
      have hin : t ∈ s.borrowers := by simp [h.mem_iff, hpc, ClientPc.appending]
      refine ⟨⟨h.nodup.filter _, fun u => ?_⟩, ?_⟩
      · by_cases hu : u = t
        · subst hu
          simp [State.goto, ClientPc.appending]
        · simp [State.goto, hu, h.mem_iff]
      · have hlen : (s.borrowers.filter (· ≠ t)).length + 1 = s.borrowers.length := by
          have herase := h.nodup.erase_eq_filter t
          rw [← List.length_erase_add_one hin, herase]
          congr 2
          exact List.filter_congr fun u _ => decide_not.trans (congrArg _ (beq_eq_decide _ _).symm)
        simp only [State.started, List.length_cons, Label.isAppend, Bool.false_eq_true, if_false]
        omega
  | windowStay _ => exact h.frame rfl rfl fun _ => rfl
  | poll hpc _ _ | dropStart hpc _ _ | seqAdd hpc | pushLoad hpc | pushOk hpc _ | pushFail hpc
  | pollReady hpc _ | pollWait hpc _ | pollStore hpc | pollCheck hpc | dropStore hpc
  | dropJoin hpc _ =>
      exact h.frame rfl rfl (appending_goto_eq (by rw [hpc]; rfl))
  | _ => exact h.frame rfl rfl fun _ => rfl

omit [DecidableEq τ] in
theorem borrowing_new (file : Bytes) : Borrowing (State.new τ file) :=
  ⟨List.nodup_nil, fun _ => by simp [State.new, ClientPc.appending]⟩

/-- A run has started the calls that its schedule asks for. -/
theorem Borrowing.run {ls : List (Label τ)} (h : Borrowing s)
    (hrun : Machine.runFn (GroupCommit.step maxBatch) s ls = some s') :
    s'.started = s.started + ls.countP Label.isAppend := by
  induction ls generalizing s with
  | nil =>
      cases hrun
      rfl
  | cons l ls ih =>
      obtain ⟨u, hu, hrest⟩ := Option.bind_eq_some_iff.mp hrun
      obtain ⟨hbor, hone⟩ := h.step (stepTo_of_step hu)
      rw [ih hbor hrest, hone, List.countP_cons]
      omega

/-! ## The depth over a run -/

/-- The step of the log, for the steps that meet `Counted`. -/
def countedStep (maxBatch : ℕ) (s : State τ) (l : Label τ) : Option (State τ) :=
  if Counted s l then GroupCommit.step maxBatch s l else none

omit [DecidableEq τ] in
theorem depth_new (file : Bytes) : Depth (State.new τ file) :=
  ⟨Nat.two_pow_pos 64, fun _ => rfl⟩

theorem depth_of_reachable {file : Bytes}
    (hs : ((machine τ file maxBatch).restrict Counted).Reachable s) : Depth s :=
  hs.invariant (fun _ hinit => hinit ▸ depth_new file) fun _ _ _ hr h hst =>
    h.step (sited_of_reachable hr.of_restrict) hst.1 (stepTo_of_step hst.2)

/-- **The depth counter is bounded by the calls of `append`.**  It is so in every state of every run whose
`fetch_sub`s all meet `Counted`; in particular no such run wraps it below zero. -/
theorem pendingCount_le_appends (file : Bytes) (ls : List (Label τ)) (s : State τ)
    (hrun : Machine.runFn (countedStep maxBatch) (.new τ file) ls = some s) :
    s.shared.pendingCount ≤ ls.countP Label.isAppend := by
  have hdepth := depth_of_reachable (Machine.reachable_restrict_of_runFn hrun)
  have hstarted := (borrowing_new file).run (Machine.runFn_of_restrict hrun)
  calc s.shared.pendingCount
      ≤ s.returned.length := hdepth.le_returned
    _ ≤ s.started := Nat.le_add_right ..
    _ = ls.countP Label.isAppend := hstarted.trans (Nat.zero_add _)

end Steps

/-- Two records.  The Batcher detaches the first and subtracts it after its writer has added it, while the
second is pushed and added. -/
def countedInTime : List (Label Bool) :=
  .client false (.append [1]) :: List.replicate 4 (.client false (.run true)) ++
    [.batcher .run, .batcher .deadline, .batcher .run] ++
    .client true (.append [2]) :: List.replicate 4 (.client true (.run true)) ++
    List.replicate 2 (.batcher .run)

theorem pendingCount_le_appends_sample :
    ∃ s, Machine.runFn (countedStep 8) (.new Bool []) countedInTime = some s ∧
      s.shared.pendingCount = 1 ∧ countedInTime.countP Label.isAppend = 2 ∧
      s.shared.pendingCount ≤ countedInTime.countP Label.isAppend := by
  obtain ⟨s, hs⟩ : ∃ s, Machine.runFn (countedStep 8) (.new Bool []) countedInTime = some s :=
    ⟨_, rfl⟩
  refine ⟨s, hs, ?_, rfl, pendingCount_le_appends [] countedInTime s hs⟩
  cases hs
  rfl

/-- One record, detached and subtracted while its writer stands in front of the `fetch_add`. -/
def subtractedFirst : List (Label Unit) :=
  .client () (.append [1]) :: List.replicate 3 (.client () (.run true)) ++
    [.batcher .run, .batcher .deadline] ++ List.replicate 3 (.batcher .run)

/-- One call of `append`, and a depth of `2 ^ 64 - 1`. -/
theorem pendingCount_wraps :
    ∃ s, Machine.runFn (step 8) (.new Unit []) subtractedFirst = some s ∧
      subtractedFirst.countP Label.isAppend = 1 ∧ s.shared.pendingCount = 2 ^ 64 - 1 := by
  obtain ⟨s, hs⟩ : ∃ s, Machine.runFn (step 8) (.new Unit []) subtractedFirst = some s := ⟨_, rfl⟩
  refine ⟨s, hs, rfl, ?_⟩
  cases hs
  rfl

end ZeroKv.GroupCommit
