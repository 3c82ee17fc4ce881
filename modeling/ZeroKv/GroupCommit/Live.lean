/-
# ZeroKv.GroupCommit.Live — the Batcher gets to every record, and `drop` returns.

A `CommitFuture` that never resolves would keep every promise of `Order`.  Here the Batcher is given its
turns: whenever it can go on it goes on some time, and the window ends some time.  Nothing is asked of the
writers, who may go on appending for ever, nor of the backend, whose errors the Batcher ignores.

A record on the stack waits for the Batcher to finish the batch it is at; then the stack is detached, and the
record is one of a batch that no longer grows.  So its distance from being signalled is the pair of where it
is and how far the Batcher is from the top of its loop: `Waits`.
-/
import ZeroKv.GroupCommit.Wakes
import ZeroKv.Lib.Fair
import Mathlib.Data.Prod.Lex

namespace ZeroKv.GroupCommit

variable {τ : Type} {s s' : State τ} {n : ℕ}

/-! ## The way to the top of the loop -/

/-- How many steps the Batcher is away from detaching the stack, at most, if the chain it walks has `c` records
left. -/
def BatcherPc.toTop (c : ℕ) : BatcherPc → ℕ
  | .exited => 0
  | .swap _ => 1
  | .window => 2
  | .loadRunning => 3
  | .checkHead => 4
  | .signalWake _ _ rest => 2 * rest.length + 5
  | .signalDone _ _ rest => 2 * rest.length + 6
  | .write _ batch _ => 2 * batch.length + 5
  | .reserve _ batch => 2 * batch.length + 6
  | .subCount _ batch => 2 * batch.length + 7
  | .collect _ _ batch => 2 * batch.length + 3 * c + 7

theorem toTop_signalFrom_le (r : Bool) (b : List ℕ) (c : ℕ) :
    (signalFrom r b).toTop c ≤ 2 * b.length + 4 := by
  cases b with
  | nil => cases r <;> simp [signalFrom, BatcherPc.toTop]
  | cons n rest =>
      simp only [signalFrom, BatcherPc.toTop, List.length_cons]
      omega

theorem toTop_collectFrom_le (r : Bool) (b : List ℕ) (n : Option ℕ) (c : ℕ) :
    (collectFrom r b n).toTop c ≤ 2 * b.length + 3 * c + 7 := by
  cases n with
  | none =>
      simp only [collectFrom, BatcherPc.toTop]
      omega
  | some n => exact le_rfl

/-! ## What a step does to the places -/

variable {stack chain stack' chain' : List ℕ}

theorem Placed.length_eq (h : Placed s stack chain) :
    stack.length + chain.length + s.batcher.batch.length + s.committed.flatten.length =
      s.pushed.length := by
  have := h.perm.length_eq
  simp only [List.length_append] at this
  omega

/-- While the head stays, so does the stack. -/
theorem StackStep.stack_eq (h : StackStep s s' stack stack') (hp : Placed s stack chain)
    (hp' : Placed s' stack' chain') (hpushed : s'.pushed = s.pushed)
    (hhead : s'.shared.head = s.shared.head) : stack' = stack := by
  rcases h with ⟨-, rfl | rfl⟩ | ⟨n, hcons, -⟩
  · rfl
  · have hnone : s.shared.head = none := by
      rw [← hhead]
      exact hp'.linked
    have := hp.linked
    rw [hnone] at this
    exact (linked_none.mp this).symm
  · rw [hpushed] at hcons
    exact absurd (congrArg List.length hcons) (by simp)

section Step

variable [DecidableEq τ] {maxBatch : ℕ} {l : Label τ} {t : τ} {a : ClientAct}

theorem StepTo.client_batcher (h : StepTo maxBatch s (.client t a) s') :
    s'.batcher = s.batcher ∧ s'.committed = s.committed := by
  cases h <;> exact ⟨rfl, rfl⟩

/-- A client changes the stack by publishing a record, and in no other way. -/
theorem StepTo.client_pushed (h : StepTo maxBatch s (.client t a) s') :
    (s'.pushed = s.pushed ∧ s'.shared.head = s.shared.head) ∨ ∃ m, s'.pushed = m :: s.pushed := by
  cases h with
  | pushOk hpc hh => exact .inr ⟨_, rfl⟩
  | _ => exact .inl ⟨rfl, rfl⟩

/-- A client leaves the published records where they are. -/
theorem Placed.client (ho : Owned s) (hp : Placed s stack chain)
    (hst : StepTo maxBatch s (.client t a) s') :
    ∃ stack' chain', Placed s' stack' chain' ∧ chain'.length = chain.length ∧
      ∀ m ∈ s.pushed, (m ∈ stack' ↔ m ∈ stack) := by
  obtain ⟨stack', chain', hp', hmove⟩ := hp.step ho hst
  obtain ⟨hbatcher, hcom⟩ := hst.client_batcher
  have hlen := hp.length_eq
  have hlen' := hp'.length_eq
  rw [hbatcher, hcom] at hlen'
  refine ⟨stack', chain', hp', ?_⟩
  rcases hst.client_pushed with ⟨hpushed, hhead⟩ | ⟨m, hpushed⟩
  · obtain rfl := hmove.stack_eq hp hp' hpushed hhead
    rw [hpushed] at hlen'
    exact ⟨by omega, fun _ _ => Iff.rfl⟩
  · have hnodup := (ho.step hst).pushed_nodup
    rw [hpushed] at hlen' hnodup
    rcases hmove with ⟨hsame, -⟩ | ⟨x, hx, rfl⟩
    · rw [hpushed] at hsame
      exact absurd (congrArg List.length hsame) (by simp)
    · obtain ⟨rfl, -⟩ := List.cons.inj (hpushed.symm.trans hx)
      simp only [List.length_cons] at hlen'
      refine ⟨by omega, fun k hk => ?_⟩
      have hne : k ≠ m := fun he => (List.nodup_cons.mp hnodup).1 (he ▸ hk)
      simp [hne]

/-- The Batcher publishes nothing. -/
theorem StepTo.batcher_pushed {a : BatcherAct} (h : StepTo maxBatch s (.batcher a) s') :
    s'.pushed = s.pushed := by
  cases h <;> rfl

/-- What the Batcher detaches is not on the stack any more, and it takes nothing off it otherwise. -/
theorem Placed.batcher {a : BatcherAct} (ho : Owned s) (hp : Placed s stack chain)
    (hst : StepTo maxBatch s (.batcher a) s') :
    ∃ stack' chain', Placed s' stack' chain' ∧
      (s'.shared.head = s.shared.head ∧ stack' = stack ∨ s'.shared.head = none ∧ stack' = []) ∧
      stack'.length + chain'.length + s'.batcher.batch.length + s'.committed.flatten.length =
        stack.length + chain.length + s.batcher.batch.length + s.committed.flatten.length := by
  obtain ⟨stack', chain', hp', hmove⟩ := hp.step ho hst
  have hpushed := hst.batcher_pushed
  refine ⟨stack', chain', hp', ?_, ?_⟩
  · have hhead : s'.shared.head = s.shared.head ∨ s'.shared.head = none := by
      cases hst with
      | swapSome hb hh => exact .inr rfl
      | _ => exact .inl rfl
    rcases hhead with hhead | hhead
    · exact .inl ⟨hhead, hmove.stack_eq hp hp' hpushed hhead⟩
    · have := hp'.linked
      rw [hhead] at this
      exact .inr ⟨hhead, linked_none.mp this⟩
  · rw [hp'.length_eq, hp.length_eq, hpushed]

/-- At the top of the loop the Batcher finds the stack empty or leaves it so. -/
theorem StepTo.head_of_swap {a : BatcherAct} {running : Bool} (h : StepTo maxBatch s (.batcher a) s')
    (hb : s.batcher = .swap running) : s.shared.head = none ∨ s'.shared.head = none := by
  cases h with
  | swapNone _ hh => exact .inl hh
  | swapSome _ _ => exact .inr rfl
  | _ => simp_all

/-- Away from the top of the loop every step of the Batcher brings it nearer to it, except in the window. -/
theorem Placed.toTop_lt {a : BatcherAct} (hp : Placed s stack chain) (hp' : Placed s' stack' chain')
    (hlen : stack'.length + chain'.length + s'.batcher.batch.length + s'.committed.flatten.length =
      stack.length + chain.length + s.batcher.batch.length + s.committed.flatten.length)
    (hst : StepTo maxBatch s (.batcher a) s') :
    (s.batcher = .window ∧ s' = s) ∨ (∃ running, s.batcher = .swap running) ∨
      s'.batcher.toTop chain'.length < s.batcher.toTop chain.length := by
  cases hst with
  | windowStay hb => exact .inl ⟨hb, rfl⟩
  | swapNone hb _ | swapSome hb _ => exact .inr (.inl ⟨_, hb⟩)
  | loadRunning hb | checkHead hb =>
      refine .inr (.inr ?_)
      rw [hb]
      dsimp only
      split <;> simp [BatcherPc.toTop]
  -- a record moves from the detached chain to the batch, so the chain gets shorter
  | @collect a running m batch hb =>
      obtain rfl : stack' = stack := by
        refine hp'.linked.unique (hp.linked.congr fun _ _ => rfl)
      have hchain : 0 < chain.length := by
        have := hp.detached
        rw [hb] at this
        obtain ⟨rest, rfl, -⟩ := linked_some.mp this
        simp
      refine .inr (.inr (lt_of_le_of_lt (toTop_collectFrom_le running (batch ++ [m]) _ _) ?_))
      simp only [collectFrom_batch] at hlen
      rw [hb] at hlen ⊢
      simp only [BatcherPc.batch, BatcherPc.toTop, List.length_append, List.length_singleton] at hlen ⊢
      omega
  | @write a running batch off hb =>
      refine .inr (.inr (lt_of_le_of_lt (toTop_signalFrom_le running batch _) ?_))
      rw [hb]
      simp [BatcherPc.toTop]
  | @signalWake a running m rest hb =>
      refine .inr (.inr (lt_of_le_of_lt (toTop_signalFrom_le running rest _) ?_))
      rw [hb]
      simp [BatcherPc.toTop]
  | windowEnd hb | subCount hb | reserve hb | signalDone hb =>
      refine .inr (.inr ?_)
      rw [hb]
      simp [BatcherPc.toTop, Heap.sortBySeq]

theorem StepTo.batcher_keeps {a : BatcherAct} (h : StepTo maxBatch s (.batcher a) s') :
    s'.clients = s.clients ∧ s'.polls = s.polls := by
  cases h <;> exact ⟨rfl, rfl⟩

/-- A record that was published stays so. -/
theorem StepTo.pushed_mono (h : StepTo maxBatch s l s') (hn : n ∈ s.pushed) : n ∈ s'.pushed := by
  cases l with
  | client t a =>
      rcases h.client_pushed with ⟨hpushed, -⟩ | ⟨m, hpushed⟩
      · exact hpushed ▸ hn
      · exact hpushed ▸ List.mem_cons_of_mem m hn
  | batcher a => exact h.batcher_pushed ▸ hn

/-- No client marks a record. -/
theorem StepTo.client_done (h : StepTo maxBatch s (.client t a) s') (hn : n < s.recs.length) :
    (s'.recs.completionOf n).done = (s.recs.completionOf n).done := by
  cases h with
  | seqAdd hpc => exact congrArg Completion.done (Heap.completionOf_append _ hn)
  | _ => simp [State.goto, State.endPoll]

/-- A mark stays. -/
theorem StepTo.done_mono (h : StepTo maxBatch s l s') (hn : n < s.recs.length)
    (hd : (s.recs.completionOf n).done = true) : (s'.recs.completionOf n).done = true := by
  cases l with
  | client t a => rw [h.client_done hn, hd]
  | batcher a =>
      cases h with
      | @signalDone a running m rest hb =>
          by_cases hm : m = n
          · subst hm
            show ((s.recs.onCompletion m fun c => { c with done := true }).completionOf m).done = true
            rw [s.recs.completionOf_onCompletion_self hn]
          · rw [s.recs.completionOf_onCompletion_of_ne hm, hd]
      | signalWake hb => simp [hd]
      | _ => exact hd

/-! ## Signals happen once -/

/-- The records still to be signalled are different and carry no mark. -/
structure Unmarked (s : State τ) : Prop where
  nodup : s.batcher.unsignalled.Nodup
  down : ∀ n ∈ s.batcher.unsignalled, (s.recs.completionOf n).done = false

theorem Unmarked.step (hs : Sited s) (h : Unmarked s) (hst : StepTo maxBatch s l s') : Unmarked s' := by
  cases l with
  | client t a =>
      obtain ⟨hbatcher, -⟩ := hst.client_batcher
      refine ⟨by rw [hbatcher]; exact h.nodup, fun n hn => ?_⟩
      rw [hbatcher] at hn
      rw [hst.client_done (hs.unsignalled_lt hn), h.down n hn]
  | batcher a =>
      cases hst with
      | @write a running batch off hb =>
          obtain ⟨stack, chain, hp⟩ := hs.placed
          have hbatch := hp.batch_nodup hs.owned
          have hapart := (hp.nodup hs.owned).of_append_right.of_append_right
          rw [hb] at hbatch hapart
          refine ⟨(signalFrom_unsignalled running batch).symm ▸ hbatch, fun n hn => ?_⟩
          rw [Bool.eq_false_iff]
          intro hd
          -- a marked record is committed, and the batch is not
          have hin : n ∈ batch := by simpa using hn
          exact List.disjoint_of_nodup_append hapart hin (hs.signalled.sound n hd)
      | @signalDone a running m rest hb =>
          have hnodup := h.nodup
          have hdown := h.down
          rw [hb] at hnodup hdown
          obtain ⟨hm, hrest⟩ := List.nodup_cons.mp hnodup
          refine ⟨hrest, fun n hn => ?_⟩
          have hne : m ≠ n := fun he => hm (he ▸ hn)
          rw [s.recs.completionOf_onCompletion_of_ne hne]
          exact hdown n (List.mem_cons_of_mem m hn)
      | @signalWake a running m rest hb =>
          have hnodup := h.nodup
          have hdown := h.down
          rw [hb] at hnodup hdown
          rw [← signalFrom_unsignalled running rest] at hnodup
          refine ⟨hnodup, fun n hn => ?_⟩
          rw [signalFrom_unsignalled] at hn
          simpa using hdown n hn
      | windowStay hb => exact h
      | loadRunning hb | swapNone hb _ | checkHead hb =>
          constructor <;> dsimp only <;> split <;> simp [BatcherPc.unsignalled]
      | collect hb => constructor <;> simp
      | _ => constructor <;> simp [BatcherPc.unsignalled]

variable {file : Bytes}

theorem unmarked_of_reachable (hs : (machine τ file maxBatch).Reachable s) : Unmarked s :=
  hs.invariant (fun _ hinit => hinit ▸ ⟨.nil, nofun⟩)
    fun _ _ _ hr h hst => h.step (sited_of_reachable hr) (stepTo_of_step hst)

theorem closing_of_reachable (hs : (machine τ file maxBatch).Reachable s) : Closing s :=
  hs.invariant (fun _ hinit => hinit ▸ (inv_new : Inv file (State.new τ file)).closing)
    fun _ _ _ _ h hst => h.step (stepTo_of_step hst)

/-! ## Every record is signalled -/

/-- The signal of record `n` has returned. -/
def Resolved (n : ℕ) (s : State τ) : Prop :=
  (s.recs.completionOf n).done = true ∧ s.batcher.waking ≠ some n

theorem Resolved.step (hr : (machine τ file maxBatch).Reachable s) (hn : n ∈ s.pushed) (h : Resolved n s)
    (hst : StepTo maxBatch s l s') : Resolved n s' := by
  have hs := sited_of_reachable hr
  refine ⟨hst.done_mono (hs.owned.pushed_lt n hn) h.1, fun hwaking => ?_⟩
  cases l with
  | client t a =>
      rw [hst.client_batcher.1] at hwaking
      exact h.2 hwaking
  | batcher a =>
      cases hst with
      | @signalDone a running m rest hb =>
          obtain rfl : m = n := Option.some.inj hwaking
          have hdown := (unmarked_of_reachable hr).down m (by rw [hb]; exact List.mem_cons_self)
          simp [h.1] at hdown
      | signalWake hb => simp at hwaking
      | windowStay hb => exact h.2 hwaking
      | loadRunning hb | swapNone hb _ | checkHead hb =>
          dsimp only at hwaking
          split at hwaking <;> simp [BatcherPc.waking] at hwaking
      | collect hb | write hb => simp at hwaking
      | _ => simp [BatcherPc.waking] at hwaking

omit [DecidableEq τ] in
/-- A record that is published and not resolved is on the stack, unless the Batcher is at a batch. -/
theorem mem_stack_of_not_resolved (hs : Sited s) (hp : Placed s stack chain) (hn : n ∈ s.pushed)
    (hno : ¬ Resolved n s) (hnode : s.batcher.node = none) (hbatch : s.batcher.batch = [])
    (huns : s.batcher.unsignalled = []) (hwaking : s.batcher.waking = none) : n ∈ stack := by
  have hchain : chain = [] := by
    have := hp.detached
    rw [hnode] at this
    exact linked_none.mp this
  rcases hp.mem_pushed.mp hn with hstack | hc | hb | hcom
  · exact hstack
  · exact absurd (hchain ▸ hc) List.not_mem_nil
  · exact absurd (hbatch ▸ hb) List.not_mem_nil
  · refine absurd ⟨?_, by simp [hwaking]⟩ hno
    exact (hs.signalled.complete n hcom).resolve_right (by simp [huns])

/-- What helps the Batcher along: any step of it, or the end of the window. -/
inductive Turn
  | go
  | deadline

/-- The steps a turn is about. -/
def Turn.steps : Turn → Label τ → Prop
  | .go, l => ∃ a, l = .batcher a
  | .deadline, l => l = .batcher .deadline

/-- What the Batcher is waiting for. -/
def BatcherPc.turn : BatcherPc → Turn
  | .window => .deadline
  | _ => .go

omit [DecidableEq τ] in
theorem exists_stepBatcher (maxBatch : ℕ) (h : s.batcher ≠ .exited) (a : BatcherAct) :
    ∃ t, stepBatcher maxBatch s a = some t := by
  cases hb : s.batcher with
  | exited => exact absurd hb h
  | window =>
      simp only [stepBatcher, hb]
      cases a with
      | deadline => exact ⟨_, rfl⟩
      | run | fail => by_cases hlt : s.shared.pendingCount < maxBatch <;> simp [hlt]
  | swap running =>
      simp only [stepBatcher, hb]
      split <;> exact ⟨_, rfl⟩
  | _ =>
      simp only [stepBatcher, hb]
      exact ⟨_, rfl⟩

omit [DecidableEq τ] in
theorem ne_exited_of_stepBatcher {a : BatcherAct} (h : stepBatcher maxBatch s a = some s') :
    s.batcher ≠ .exited := by
  intro he
  simp [stepBatcher, he] at h

theorem enabled_turn (h : s.batcher ≠ .exited) :
    (machine τ file maxBatch).Enabled s.batcher.turn.steps s := by
  obtain ⟨t, ht⟩ := exists_stepBatcher maxBatch h .deadline
  refine ⟨.batcher .deadline, t, ?_, ht⟩
  cases s.batcher <;> first | rfl | exact ⟨_, rfl⟩

omit [DecidableEq τ] in
/-- A step that leaves the Batcher in the window is not the end of the window. -/
theorem not_turn_of_stay {a : BatcherAct} (hb : s.batcher = .window)
    (h : stepBatcher maxBatch s a = some s) : ¬ s.batcher.turn.steps (Label.batcher (τ := τ) a) := by
  intro hk
  rw [hb] at hk
  cases hk
  have hend : stepBatcher maxBatch s .deadline = some { s with batcher := .swap true } := by
    simp only [stepBatcher, hb]
  have hsame : BatcherPc.swap true = s.batcher :=
    congrArg State.batcher (Option.some.inj (hend.symm.trans h))
  simp [hb] at hsame

/-- Record `n` is published and waits for its signal: where it is, and how far the Batcher is from the top of
its loop. -/
structure Waits (n : ℕ) (a : ℕ ×ₗ ℕ) (k : Turn) (s : State τ) : Prop where
  pushed : n ∈ s.pushed
  unresolved : ¬ Resolved n s
  turn : k = s.batcher.turn
  rank : ∃ stack chain, Placed s stack chain ∧
    a = toLex (if n ∈ stack then 1 else 0, s.batcher.toTop chain.length)

theorem waits_of_pushed (hr : (machine τ file maxBatch).Reachable s) (hn : n ∈ s.pushed)
    (hno : ¬ Resolved n s) : ∃ a k, Waits n a k s := by
  obtain ⟨stack, chain, hp⟩ := (sited_of_reachable hr).placed
  exact ⟨_, _, hn, hno, rfl, stack, chain, hp, rfl⟩

theorem ne_exited_of_not_resolved (hr : (machine τ file maxBatch).Reachable s) (hn : n ∈ s.pushed)
    (hno : ¬ Resolved n s) : s.batcher ≠ .exited := by
  intro he
  obtain ⟨stack, chain, hp⟩ := (sited_of_reachable hr).placed
  have hstack := mem_stack_of_not_resolved (sited_of_reachable hr) hp hn hno (by rw [he]; rfl) (by rw [he]; rfl)
    (by rw [he]; rfl) (by rw [he]; rfl)
  have hempty := hp.linked
  rw [(closing_of_reachable hr).empty he] at hempty
  exact absurd (linked_none.mp hempty ▸ hstack) List.not_mem_nil

/-- A client does not bring the record nearer, nor does it take it further away. -/
theorem Waits.client (hs : Sited s) {k : Turn} {x : ℕ ×ₗ ℕ} (h : Waits n x k s)
    (hst : StepTo maxBatch s (.client t a) s') : Waits n x k s' ∧ ¬ k.steps (Label.client t a) := by
  obtain ⟨stack, chain, hp, rfl⟩ := h.rank
  obtain ⟨stack', chain', hp', hlen, hmem⟩ := hp.client hs.owned hst
  obtain ⟨hbatcher, -⟩ := hst.client_batcher
  refine ⟨⟨?_, ?_, by rw [hbatcher]; exact h.turn, stack', chain', hp', ?_⟩, ?_⟩
  · exact hst.pushed_mono h.pushed
  · rintro ⟨hd, hwaking⟩
    rw [hst.client_done (hs.owned.pushed_lt n h.pushed)] at hd
    rw [hbatcher] at hwaking
    exact h.unresolved ⟨hd, hwaking⟩
  · simp only [hmem n h.pushed, hbatcher, hlen]
  · cases k <;> simp [Turn.steps]

/-- Every step of the Batcher but one in the window brings the record nearer. -/
theorem Waits.batcher (hs : Sited s) {k : Turn} {x : ℕ ×ₗ ℕ} (h : Waits n x k s) {a : BatcherAct}
    (hne : ¬ (s.batcher = .window ∧ s' = s)) (hst : StepTo maxBatch s (.batcher a) s') :
    Resolved n s' ∨ ∃ y k', y < x ∧ Waits n y k' s' := by
  obtain ⟨stack, chain, hp, rfl⟩ := h.rank
  obtain ⟨stack', chain', hp', hstack, hlen⟩ := hp.batcher hs.owned hst
  by_cases hres : Resolved n s'
  · exact .inl hres
  refine .inr ⟨_, _, Prod.Lex.toLex_lt_toLex.mpr ?_, hst.pushed_mono h.pushed, hres, rfl, stack', chain', hp', rfl⟩
  rcases hp.toTop_lt hp' hlen hst with hstay | ⟨running, hb⟩ | hlt
  · exact absurd hstay hne
  · -- at the top of the loop the record is on the stack, and it goes with the stack
    have hin := mem_stack_of_not_resolved hs hp h.pushed h.unresolved (by rw [hb]; rfl) (by rw [hb]; rfl)
      (by rw [hb]; rfl) (by rw [hb]; rfl)
    obtain rfl : stack' = [] := by
      rcases hst.head_of_swap hb with hnone | hempty
      · have hlinked := hp.linked
        rw [hnone] at hlinked
        exact absurd (linked_none.mp hlinked ▸ hin) List.not_mem_nil
      · have hlinked := hp'.linked
        rw [hempty] at hlinked
        exact linked_none.mp hlinked
    exact .inl (by simp [hin])
  · rcases hstack with ⟨-, rfl⟩ | ⟨-, rfl⟩
    · exact .inr ⟨rfl, hlt⟩
    · by_cases hin : n ∈ stack
      · exact .inl (by simp [hin])
      · exact .inr ⟨by simp [hin], hlt⟩

theorem waits_pursuit (n : ℕ) :
    Machine.Pursuit (machine τ file maxBatch) (fun _ => True) Turn.steps (Waits n) (Resolved n) where
  enabled {x k s} hr h := by
    rw [h.turn]
    exact enabled_turn (ne_exited_of_not_resolved hr h.pushed h.unresolved)
  step {x k s l s'} hr h _ hst := by
    have hs := sited_of_reachable hr
    have hto := stepTo_of_step hst
    cases l with
    | client t a => exact .inr (.inr (h.client hs hto))
    | batcher a =>
        by_cases hstay : s.batcher = .window ∧ s' = s
        · obtain ⟨hb, rfl⟩ := hstay
          refine .inr (.inr ⟨h, ?_⟩)
          rw [h.turn]
          exact not_turn_of_stay hb hst
        · rcases h.batcher hs hstay hto with hres | hnear
          · exact .inl hres
          · exact .inr (.inl hnear)

/-- **Every commit resolves.**  In a run that gives the Batcher its turns, whatever the writers and the backend
do: a published record is some time committed and marked for good, and from then on no poll of it that has
answered `Pending` is left without its wake. -/
theorem append_resolves (r : (machine τ file maxBatch).Run) (hfair : ∀ k : Turn, r.WeaklyFair k.steps)
    {i : ℕ} (hn : n ∈ (r.state i).pushed) :
    ∃ j, i ≤ j ∧ ∀ m, j ≤ m →
      n ∈ (r.state m).committed.flatten ∧ ((r.state m).recs.completionOf n).done = true ∧
        ∀ w, (∀ t, ((r.state m).clients t).pollOf n = none) →
          (about n (r.state m).polls).getLast? = some (w, false) → (n, w) ∈ (r.state m).woken := by
  obtain ⟨j, hj, hres, hnj⟩ : ∃ j, i ≤ j ∧ Resolved n (r.state j) ∧ n ∈ (r.state j).pushed := by
    have hlater : ∀ j, i ≤ j → n ∈ (r.state j).pushed := fun j hj =>
      r.lasts (fun s l s' _ h hst => (stepTo_of_step hst).pushed_mono h) hj hn
    by_cases hnow : Resolved n (r.state i)
    · exact ⟨i, le_rfl, hnow, hn⟩
    · obtain ⟨x, k, hw⟩ := waits_of_pushed (r.reachable i) hn hnow
      obtain ⟨j, hj, hres⟩ := (waits_pursuit n).leads r hfair (fun _ _ _ _ => trivial) hw
      exact ⟨j, hj, hres, hlater j hj⟩
  refine ⟨j, hj, fun m hm => ?_⟩
  have hlast : n ∈ (r.state m).pushed ∧ Resolved n (r.state m) :=
    r.lasts (I := fun s => n ∈ s.pushed ∧ Resolved n s) (fun s l s' hr h hst =>
      ⟨(stepTo_of_step hst).pushed_mono h.1, h.2.step hr h.1 (stepTo_of_step hst)⟩) hm ⟨hnj, hres⟩
  obtain ⟨hd, hwaking⟩ := hlast.2
  exact ⟨(sited_of_reachable (r.reachable m)).signalled.sound n hd, hd,
    fun w hpoll hpend => woken_of_signalled (r.reachable m) hd hwaking hpoll hpend⟩

/-- An append and a poll that finds nothing yet, and then the Batcher for ever. -/
def sampleSchedule (i : ℕ) : Label Unit :=
  ((.client () (.append [1, 2]) :: List.replicate 4 (.client () (.run true)) ++
    .client () (.poll 0 5) :: List.replicate 3 (.client () (.run true)))[i]?).getD (.batcher .deadline)

theorem sampleSchedule_of_le {i : ℕ} (h : 9 ≤ i) : sampleSchedule i = .batcher .deadline := by
  unfold sampleSchedule
  rw [List.getElem?_eq_none (by simpa using h), Option.getD_none]

def sampleRun : (machine Unit [7] 1).Run :=
  Machine.Run.ofSchedule (State.new Unit [7]) (step 1) sampleSchedule

theorem sampleRun_fair (k : Turn) : sampleRun.WeaklyFair k.steps := by
  refine Machine.Run.weaklyFair_ofSchedule _ _ _ fun i => ⟨max i 9, le_max_left i 9, ?_, ?_⟩
  · rw [sampleSchedule_of_le (le_max_right i 9)]
    cases k
    · exact ⟨_, rfl⟩
    · rfl
  · rintro ⟨l, t, hk, hst⟩
    obtain ⟨a, rfl⟩ : ∃ a, l = .batcher a := by
      cases k
      · exact hk
      · exact ⟨_, hk⟩
    rw [sampleSchedule_of_le (le_max_right i 9)]
    exact Option.isSome_iff_exists.mpr (exists_stepBatcher 1 (ne_exited_of_stepBatcher hst) .deadline)

/-- Nobody polls again. -/
theorem sampleRun_polls {m : ℕ} (hm : 9 ≤ m) :
    (sampleRun.state m).clients () = .idle ∧ (sampleRun.state m).polls = [(0, 5, false)] := by
  induction m, hm using Nat.le_induction with
  | base => decide
  | succ m hm ih =>
      cases hl : sampleRun.label m with
      | none => rwa [sampleRun.idle hl]
      | some l =>
          obtain rfl := Machine.Run.eq_sched_of_label _ _ _ hl
          have hst := sampleRun.step hl
          rw [sampleSchedule_of_le hm] at hst
          obtain ⟨hclients, hpolls⟩ := (stepTo_of_step hst).batcher_keeps
          rwa [hclients, hpolls]

theorem append_resolves_sample :
    0 ∈ (sampleRun.state 9).pushed ∧ (sampleRun.state 9).polls = [(0, 5, false)] ∧
      ∃ j, 9 ≤ j ∧ ∀ m, j ≤ m →
        0 ∈ (sampleRun.state m).committed.flatten ∧ (0, 5) ∈ (sampleRun.state m).woken := by
  have hpushed : 0 ∈ (sampleRun.state 9).pushed := by decide
  obtain ⟨j, hj, h⟩ := append_resolves sampleRun sampleRun_fair hpushed
  refine ⟨hpushed, (sampleRun_polls le_rfl).2, j, hj, fun m hm => ⟨(h m hm).1, ?_⟩⟩
  obtain ⟨hidle, hpolls⟩ := sampleRun_polls (hj.trans hm)
  refine (h m hm).2.2 5 (fun t => ?_) ?_
  · cases t
    rw [hidle]
    rfl
  · rw [hpolls]
    rfl

/-! ## Dropping the log -/

/-- What the stages of `drop` leave behind: the thread that joins has taken `running` down, and a Batcher that
has seen it down and detached the stack finds nothing on it any more. -/
structure Leaving (s : State τ) : Prop where
  stopped : ∀ t, s.clients t = .dropJoin → s.shared.running = false
  drained : s.batcher.draining = true → (∀ r, s.batcher ≠ .swap r) → s.shared.head = none

theorem joining_goto {u : τ} {pc : ClientPc} (h : pc ≠ .dropJoin) (hj : (s.goto u pc).clients t = .dropJoin) :
    s.clients t = .dropJoin :=
  of_apply_update (p := fun pc : ClientPc => pc = .dropJoin) (fun hpc => absurd hpc h) hj

theorem Leaving.client (hc : Closing s) (h : Leaving s) (hst : StepTo maxBatch s (.client t a) s') :
    Leaving s' where
  stopped u hu := by
    cases hst with
    | dropStore hpc => rfl
    | _ => exact h.stopped u (joining_goto (by simp) hu)
  drained hdr hswap := by
    obtain ⟨hbatcher, -⟩ := hst.client_batcher
    rw [hbatcher] at hdr hswap
    have hempty := h.drained hdr hswap
    cases hst with
    | pushOk hpc _ =>
        -- nobody is inside an append any more
        have hout := hc.not_appending (hc.draining hdr) t
        simp [hpc, ClientPc.appending] at hout
    | _ => exact hempty

theorem Leaving.batcher (h : Leaving s) {a : BatcherAct} (hst : StepTo maxBatch s (.batcher a) s') :
    Leaving s' := by
  refine ⟨fun u hu => ?_, fun hdr hswap => ?_⟩
  · cases hst <;> exact h.stopped u hu
  · have stay := h.drained
    cases hst with
    | windowStay hb => exact h.drained hdr hswap
    | loadRunning hb =>
        dsimp only at hdr hswap
        split at hdr <;> simp_all [BatcherPc.draining]
    | checkHead hb =>
        dsimp only at hdr ⊢
        split at hdr
        · assumption
        · simp [BatcherPc.draining] at hdr
    | windowEnd hb => exact absurd rfl (hswap true)
    | swapNone hb hh => exact hh
    | swapSome hb hh => rfl
    | collect hb | write hb | signalWake hb =>
        rw [hb] at stay
        simp only [collectFrom_draining, signalFrom_draining] at hdr
        exact stay hdr (by simp)
    | subCount hb | reserve hb | signalDone hb =>
        rw [hb] at stay
        exact stay hdr (by simp)

theorem leaving_of_reachable (hs : (machine τ file maxBatch).Reachable s) : Leaving s := by
  refine hs.invariant ?_ fun s l s' hr h hst => ?_
  · rintro s rfl
    exact ⟨nofun, nofun⟩
  · cases l with
    | client t a => exact h.client (closing_of_reachable hr) (stepTo_of_step hst)
    | batcher a => exact h.batcher (stepTo_of_step hst)

/-- How stale the Batcher's last look at `running` is, when `running` is down. -/
def BatcherPc.stale : BatcherPc → ℕ
  | .loadRunning => 1
  | .window => 2
  | .checkHead | .exited => 0
  | .swap r | .collect r _ _ | .subCount r _ | .reserve r _ | .write r _ _ | .signalDone r _ _
  | .signalWake r _ _ => if r then 2 else 0

/-- Client `t` is in `drop`: it takes `running` down, waits for the Batcher, or finds it gone. -/
inductive Joins (t : τ) (s : State τ) : ℕ ×ₗ ℕ ×ₗ ℕ → Option Turn → Prop
  | store (h : s.clients t = .dropStore) : Joins t s (toLex (3, toLex (0, 0))) none
  | wait {stack chain : List ℕ} (h : s.clients t = .dropJoin) (hne : s.batcher ≠ .exited)
      (hp : Placed s stack chain) :
      Joins t s (toLex (if s.shared.head = none then 1 else 2,
        toLex (s.batcher.stale, s.batcher.toTop chain.length))) (some s.batcher.turn)
  | join (h : s.clients t = .dropJoin) (he : s.batcher = .exited) : Joins t s (toLex (0, toLex (0, 0))) none

/-- The steps that help: those of the thread in `drop`, or those of the Batcher. -/
def joinSteps (t : τ) : Option Turn → Label τ → Prop
  | none, l => ∃ b, l = .client t (.run b)
  | some k, l => k.steps l

theorem stale_signalFrom_le (r : Bool) (b : List ℕ) : (signalFrom r b).stale ≤ if r then 2 else 0 := by
  cases b <;> cases r <;> simp [signalFrom, BatcherPc.stale]

theorem stale_collectFrom (r : Bool) (b : List ℕ) (n : Option ℕ) :
    (collectFrom r b n).stale = if r then 2 else 0 := by
  cases n <;> rfl

/-- With `running` down the Batcher looks at it again or has already done so. -/
theorem StepTo.stale_le {a : BatcherAct} (h : Leaving s) (hrun : s.shared.running = false)
    (hst : StepTo maxBatch s (.batcher a) s') (hne : s'.batcher ≠ .exited) :
    s'.batcher.stale ≤ s.batcher.stale ∧
      ((∃ r, s.batcher = .swap r) → s'.batcher.stale < s.batcher.stale ∨ s.shared.head ≠ none) := by
  cases hst with
  | windowStay hb => exact ⟨le_rfl, fun ⟨r, hr⟩ => by simp [hb] at hr⟩
  | loadRunning hb =>
      rw [hb]
      simp [hrun, BatcherPc.stale]
  | checkHead hb =>
      have hempty := h.drained (by rw [hb]; rfl) (by simp [hb])
      simp [hempty] at hne
  | swapNone hb hh =>
      rw [hb]
      split at hne
      · next hr => simp [hr, BatcherPc.stale]
      · exact absurd rfl hne
  | swapSome hb hh =>
      rw [hb]
      simp [BatcherPc.stale, hh]
  | @write a running batch off hb =>
      rw [hb]
      exact ⟨stale_signalFrom_le running batch, by simp⟩
  | @signalWake a running m rest hb =>
      rw [hb]
      exact ⟨stale_signalFrom_le running rest, by simp⟩
  | collect hb =>
      rw [hb]
      exact ⟨(stale_collectFrom ..).le, by simp⟩
  | windowEnd hb | subCount hb | reserve hb | signalDone hb =>
      rw [hb]
      exact ⟨le_rfl, by simp⟩

theorem StepTo.clients_of_ne {u : τ} (h : StepTo maxBatch s (.client u a) s') (hne : t ≠ u) :
    s'.clients t = s.clients t := by
  cases h <;> exact Function.update_of_ne hne _ _

/-- Once the handle is gone no client touches the stack. -/
theorem StepTo.head_of_closed (hc : Closing s) (hal : s.alive = false)
    (hst : StepTo maxBatch s (.client t a) s') : s'.shared.head = s.shared.head := by
  cases hst with
  | pushOk hpc _ =>
      have hout := hc.not_appending hal t
      simp [hpc, ClientPc.appending] at hout
  | _ => rfl

omit [DecidableEq τ] in
/-- A thread that waits in `join` is one of three things away from the end. -/
theorem joins_of_dropJoin (hs : Sited s) (h : s.clients t = .dropJoin) :
    ∃ x k, x < toLex (3, toLex (0, 0)) ∧ Joins t s x k := by
  by_cases he : s.batcher = .exited
  · exact ⟨_, _, Prod.Lex.toLex_lt_toLex.mpr (.inl (by decide)), .join h he⟩
  · obtain ⟨stack, chain, hp⟩ := hs.placed
    refine ⟨_, _, Prod.Lex.toLex_lt_toLex.mpr (.inl ?_), .wait h he hp⟩
    dsimp only
    split <;> decide

/-- While it waits, every step of the Batcher brings the end nearer, except in the window. -/
theorem Joins.batcher (hr : (machine τ file maxBatch).Reachable s) {chain : List ℕ} {a : BatcherAct}
    (h : s.clients t = .dropJoin) (hp : Placed s stack chain)
    (hne : ¬ (s.batcher = .window ∧ s' = s)) (hst : StepTo maxBatch s (.batcher a) s') :
    ∃ y k, y < toLex (if s.shared.head = none then 1 else 2,
      toLex (s.batcher.stale, s.batcher.toTop chain.length)) ∧ Joins t s' y k := by
  have hl := leaving_of_reachable hr
  have hjoin : s'.clients t = .dropJoin := by rw [hst.batcher_keeps.1, h]
  by_cases he : s'.batcher = .exited
  · refine ⟨_, _, Prod.Lex.toLex_lt_toLex.mpr (.inl ?_), .join hjoin he⟩
    dsimp only
    split <;> decide
  obtain ⟨stack', chain', hp', hstack, hlen⟩ := hp.batcher (sited_of_reachable hr).owned hst
  obtain ⟨hstale, hswap⟩ := hst.stale_le hl (hl.stopped t h) he
  refine ⟨_, _, Prod.Lex.toLex_lt_toLex.mpr ?_, .wait hjoin he hp'⟩
  -- the stack can only be emptied
  by_cases hemptied : s'.shared.head = none ∧ s.shared.head ≠ none
  · exact .inl (by simp [hemptied.1, hemptied.2])
  have hhead : s'.shared.head = s.shared.head := by
    rcases hstack with ⟨hsame, -⟩ | ⟨hnone, -⟩
    · exact hsame
    · by_contra hother
      exact hemptied ⟨hnone, fun hnone' => hother (hnone.trans hnone'.symm)⟩
  refine .inr ⟨by rw [hhead], Prod.Lex.toLex_lt_toLex.mpr ?_⟩
  rcases hp.toTop_lt hp' hlen hst with hstay | ⟨running, hb⟩ | hlt
  · exact absurd hstay hne
  · rcases hswap ⟨running, hb⟩ with hlt | hsome
    · exact .inl hlt
    · rcases hst.head_of_swap hb with hnone | hnone
      · exact absurd hnone hsome
      · exact absurd ⟨hnone, hsome⟩ hemptied
  · rcases hstale.lt_or_eq with hlt' | heq
    · exact .inl hlt'
    · exact .inr ⟨heq, hlt⟩

theorem joins_pursuit (t : τ) :
    Machine.Pursuit (machine τ file maxBatch) (fun _ => True) (joinSteps t) (fun x k s => Joins t s x k)
      (fun s => s.clients t = .idle ∧ s.batcher = .exited) where
  enabled {x k s} hr h := by
    cases h with
    | store h => exact ⟨_, _, ⟨true, rfl⟩, by simp [machine, Machine.ofFn, step, stepClient, stepRun, h]; rfl⟩
    | wait h hne hp => exact enabled_turn hne
    | join h he => exact ⟨_, _, ⟨true, rfl⟩, by simp [machine, Machine.ofFn, step, stepClient, stepRun, h, he]; rfl⟩
  step {x k s l s'} hr h _ hst := by
    have hto := stepTo_of_step hst
    have hs' := sited_of_reachable (hr.next hst)
    cases l with
    | client u a =>
        by_cases hu : t = u
        · subst hu
          cases h with
          | store h =>
              cases hto with
              | dropStore hpc => exact .inr (.inl (joins_of_dropJoin hs' (Function.update_self ..)))
              | _ => simp_all
          | wait h hne hp =>
              cases hto with
              | dropJoin hpc he => exact absurd he hne
              | _ => simp_all
          | join h he =>
              cases hto with
              | dropJoin hpc _ => exact .inl ⟨Function.update_self .., he⟩
              | _ => simp_all
        -- another client: the handle is gone, so it can push nothing that the Batcher would wait for
        · have hsame := hto.clients_of_ne hu
          refine .inr (.inr ?_)
          cases h with
          | store h => exact ⟨.store (hsame.trans h), by simp [joinSteps, Ne.symm hu]⟩
          | join h he =>
              exact ⟨.join (hsame.trans h) (hto.client_batcher.1.trans he), by simp [joinSteps, Ne.symm hu]⟩
          | wait h hne hp =>
              have hc := closing_of_reachable hr
              have hhead := hto.head_of_closed hc (hc.running ((leaving_of_reachable hr).stopped t h))
              obtain ⟨stack', chain', hp', hlen, -⟩ := hp.client (sited_of_reachable hr).owned hto
              obtain ⟨hbatcher, -⟩ := hto.client_batcher
              have hwait := Joins.wait (hsame.trans h) (hbatcher ▸ hne) hp'
              rw [hhead, hbatcher, hlen] at hwait
              refine ⟨hwait, ?_⟩
              cases s.batcher <;> simp [joinSteps, BatcherPc.turn, Turn.steps]
    | batcher a =>
        have hsame := hto.batcher_keeps.1
        cases h with
        | store h => exact .inr (.inr ⟨.store (hsame ▸ h), by simp [joinSteps]⟩)
        | join h he => exact absurd he (ne_exited_of_stepBatcher hst)
        | wait h hne hp =>
            -- only the spinning of the window makes no progress, and it is not the awaited step
            by_cases hstay : s.batcher = .window ∧ s' = s
            · obtain ⟨hb, rfl⟩ := hstay
              exact .inr (.inr ⟨.wait h hne hp, not_turn_of_stay hb hst⟩)
            · exact .inr (.inl (Joins.batcher hr h hp hstay hto))

/-- **`drop` returns, and leaves nothing behind.**  In a run that gives the Batcher and the thread in `drop`
their turns, the Batcher exits and the join returns; by then every record that was ever appended has been
handed to the backend and is marked. -/
theorem drop_returns (r : (machine τ file maxBatch).Run) (hfair : ∀ k : Turn, r.WeaklyFair k.steps)
    (hself : r.WeaklyFair fun l => ∃ b, l = .client t (.run b)) {i : ℕ}
    (hdrop : (r.state i).clients t = .dropStore ∨ (r.state i).clients t = .dropJoin) :
    ∃ j, i ≤ j ∧ (r.state j).clients t = .idle ∧ (r.state j).batcher = .exited ∧
      ∀ n < (r.state j).recs.length, n ∈ (r.state j).committed.flatten ∧
        ((r.state j).recs.completionOf n).done = true := by
  obtain ⟨x, k, hj⟩ : ∃ x k, Joins t (r.state i) x k := by
    rcases hdrop with h | h
    · exact ⟨_, _, .store h⟩
    · obtain ⟨x, k, -, hj⟩ := joins_of_dropJoin (sited_of_reachable (r.reachable i)) h
      exact ⟨x, k, hj⟩
  have hkinds : ∀ k, r.WeaklyFair (joinSteps t k) := by
    intro k
    cases k with
    | none => exact hself
    | some k => exact hfair k
  obtain ⟨j, hij, hidle, he⟩ := (joins_pursuit t).leads r hkinds (fun _ _ _ _ => trivial) hj
  refine ⟨j, hij, hidle, he, fun n hn => ?_⟩
  have hr := r.reachable j
  have hs := sited_of_reachable hr
  have hc := closing_of_reachable hr
  have hpushed : n ∈ (r.state j).pushed := by
    refine (hs.owned.owned n hn).resolve_right ?_
    rintro ⟨u, hu⟩
    have hout := hc.not_appending (hc.draining (by rw [he]; rfl)) u
    revert hu hout
    cases (r.state j).clients u <;> simp [ClientPc.owns, ClientPc.appending]
  have hres : Resolved n (r.state j) := by
    by_contra hno
    exact ne_exited_of_not_resolved hr hpushed hno he
  exact ⟨hs.signalled.sound n hres.1, hres.1⟩

/-- One append and `drop`; then the Batcher and the thread in `drop` in turn. -/
def dropSchedule (i : ℕ) : Label Unit :=
  ((.client () (.append [1, 2]) :: List.replicate 4 (.client () (.run true)) ++ [.client () .drop])[i]?).getD
    (if i % 2 = 0 then .batcher .deadline else .client () (.run true))

theorem dropSchedule_of_le {i : ℕ} (h : 6 ≤ i) :
    dropSchedule i = if i % 2 = 0 then .batcher .deadline else .client () (.run true) := by
  unfold dropSchedule
  rw [List.getElem?_eq_none (by simpa using h), Option.getD_none]

def dropRun : (machine Unit [7] 1).Run := Machine.Run.ofSchedule (State.new Unit [7]) (step 1) dropSchedule

theorem dropRun_fair (k : Turn) : dropRun.WeaklyFair k.steps := by
  refine Machine.Run.weaklyFair_ofSchedule _ _ _ fun i => ⟨2 * max i 6, by omega, ?_, ?_⟩ <;>
    rw [dropSchedule_of_le (by omega), if_pos (by omega)]
  · cases k
    · exact ⟨_, rfl⟩
    · rfl
  · rintro ⟨l, t, hk, hst⟩
    obtain ⟨a, rfl⟩ : ∃ a, l = .batcher a := by
      cases k
      · exact hk
      · exact ⟨_, hk⟩
    exact Option.isSome_iff_exists.mpr (exists_stepBatcher 1 (ne_exited_of_stepBatcher hst) .deadline)

/-- Whether a call can go on does not depend on how a compare-exchange turns out. -/
theorem exists_stepRun_true {b : Bool} (h : stepRun s t b = some s') : ∃ s₁, stepRun s t true = some s₁ := by
  cases hpc : s.clients t with
  | pushCas n head =>
      simp only [stepRun, hpc]
      split <;> exact ⟨_, rfl⟩
  | _ =>
      simp only [stepRun, hpc] at h ⊢
      exact ⟨_, h⟩

theorem dropRun_self_fair : dropRun.WeaklyFair fun l => ∃ b, l = .client () (.run b) := by
  refine Machine.Run.weaklyFair_ofSchedule _ _ _ fun i => ⟨2 * max i 6 + 1, by omega, ?_, ?_⟩ <;>
    rw [dropSchedule_of_le (by omega), if_neg (by omega)]
  · exact ⟨true, rfl⟩
  · rintro ⟨l, t, ⟨b, rfl⟩, hst⟩
    exact Option.isSome_iff_exists.mpr (exists_stepRun_true hst)

theorem drop_returns_sample :
    (dropRun.state 6).clients () = .dropStore ∧ ∃ j, 6 ≤ j ∧ (dropRun.state j).clients () = .idle ∧
      (dropRun.state j).batcher = .exited ∧ 0 ∈ (dropRun.state j).committed.flatten := by
  have hdrop : (dropRun.state 6).clients () = .dropStore := by decide
  obtain ⟨j, hj, hidle, he, hall⟩ := drop_returns dropRun dropRun_fair dropRun_self_fair (.inl hdrop)
  have hpushed : 0 ∈ (dropRun.state j).pushed :=
    dropRun.lasts (fun s l s' _ h hst => (stepTo_of_step hst).pushed_mono h) hj
      (show 0 ∈ (dropRun.state 6).pushed by decide)
  have hlt := (sited_of_reachable (dropRun.reachable j)).owned.pushed_lt 0 hpushed
  exact ⟨hdrop, j, hj, hidle, he, (hall 0 hlt).1⟩

end Step

end ZeroKv.GroupCommit
