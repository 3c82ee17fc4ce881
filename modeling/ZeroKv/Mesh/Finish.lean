/-
# ZeroKv.Mesh.Finish — the put mesh cannot get stuck.

Workers spin: on a full queue, and in the quiescing loop.  A turn of such a loop may find nothing and
leave everything as it was, so that a worker can always step says nothing.  What counts is `Act`, a step
that takes, pushes, pops, inserts or counts an item, announces, or leaves.

A worker with a command in an inbox gets to it from everywhere in its loops, and so does one whose loop has
a way out: room in the queue it pushes to, or an exit test that holds.  When no worker has either, a
worker that pushes finds its target full, so the target has something in its inbox; and when all have
announced, the counters differ, so that by conservation something is queued or in somebody's hands.  An act
uses up a part of the work left, and hence there is always a way to the end.

Nothing is assumed about the schedule: the states are those of every interleaving.
-/
import ZeroKv.Mesh.Quiesce

namespace ZeroKv.Mesh.Put

variable {n : ℕ}

/-! ## Acts and idle turns -/

/-- A step that changes more than the program point of its worker: a counter, a queue, a shard (seen in
the log of what was inserted), or the number of workers that are still there. -/
def Effective (s s' : State n) : Prop :=
  s'.sent ≠ s.sent ∨ s'.applied ≠ s.applied ∨ s'.phase1Done ≠ s.phase1Done ∨ s'.cmd ≠ s.cmd ∨
    (∃ j, (s'.workers j).log ≠ (s.workers j).log) ∨
    ∃ j, (s.workers j).pc ≠ .exited ∧ (s'.workers j).pc = .exited

/-- The effective steps of worker `i` one by one. -/
inductive Act [NeZero n] (cap : ℕ) (s : State n) (i : Fin n) : State n → Prop
  | announce (hpc : (s.workers i).pc = .items []) :
      Act cap s i { s.goto i (.pump .quiesce 0) with phase1Done := s.phase1Done + 1 }
  | take {item rest} (hpc : (s.workers i).pc = .items (item :: rest)) :
      Act cap s i { s.goto i (if owner n item.1 = i then .insertLocal item rest
        else .push item rest) with sent := s.sent + 1 }
  | insertLocal {item rest} (hpc : (s.workers i).pc = .insertLocal item rest) :
      Act cap s i (s.insert i i item (.countLocal rest))
  | countLocal {rest} (hpc : (s.workers i).pc = .countLocal rest) :
      Act cap s i { s.goto i (.pump (.items rest) 0) with applied := s.applied + 1 }
  | push {item rest} (hpc : (s.workers i).pc = .push item rest)
      (hcap : (s.cmd (i, owner n item.1)).length < cap) :
      Act cap s i ((s.setCmd (i, owner n item.1)
        (s.cmd (i, owner n item.1) ++ [.put item.1 item.2])).goto i (.pump (.items rest) 0))
  | pop {c key val q} {j : Fin n} (hpc : (s.workers i).pc = .pump c j)
      (hq : s.cmd (j, i) = .put key val :: q) :
      Act cap s i ((s.setCmd (j, i) q).goto i (.apply c j (key, val)))
  | apply {c src item} (hpc : (s.workers i).pc = .apply c src item) :
      Act cap s i (s.insert i src item (.count c src))
  | count {c src} (hpc : (s.workers i).pc = .count c src) :
      Act cap s i { s.goto i (.pump c src) with applied := s.applied + 1 }
  | leave {src} (hpc : (s.workers i).pc = .drain (.pump .last) src) (hsrc : n ≤ src) :
      Act cap s i (s.goto i .exited)

/-- A turn of a loop of worker `i` that moves nothing but its program point. -/
inductive Turn [NeZero n] (cap : ℕ) (s : State n) (i : Fin n) : Pc n → Pc n → Prop
  | pushFull {item rest} (hcap : cap ≤ (s.cmd (i, owner n item.1)).length) :
      Turn cap s i (.push item rest) (.pump (.push item rest) 0)
  | pumpEmpty {c} {j : Fin n} (hq : s.cmd (j, i) = []) : Turn cap s i (.pump c j) (.pump c (j + 1))
  | pumpEnd {c src} (hsrc : n ≤ src) : Turn cap s i (.pump c src) (.drain (.pump c) 0)
  | drainEmpty {c} {j : Fin n} (hq : s.reply (j, i) = []) :
      Turn cap s i (.drain c j) (.drain c (j + 1))
  | drainEnd {c : Caller} {src} (hsrc : n ≤ src) (hc : c ≠ .last) :
      Turn cap s i (.drain (.pump c) src) c.resume
  | loadDone : Turn cap s i .loadDone (.loadSent (s.phase1Done = n))
  | loadSent {allDone} : Turn cap s i (.loadSent allDone) (.loadApplied allDone s.sent)
  | loadApplied {allDone sent} : Turn cap s i (.loadApplied allDone sent)
      (.pump (if allDone = true ∧ sent = s.applied then .last else .quiesce) 0)

section Steps

variable [NeZero n] {cap : ℕ} {s s' : State n} {i : Fin n} {pc pc' : Pc n}

omit [NeZero n] in
@[simp] theorem goto_pc_self : ((s.goto i pc).workers i).pc = pc := by
  simp [State.goto]

omit [NeZero n] in
@[simp] theorem goto_goto : (s.goto i pc).goto i pc' = s.goto i pc' := by
  simp [State.goto]

omit [NeZero n] in
theorem goto_self : s.goto i (s.workers i).pc = s := by
  simp [State.goto]

theorem Act.step (h : Act cap s i s') : step cap s i = some s' := by
  cases h with
  | announce hpc | take hpc | insertLocal hpc | countLocal hpc | apply hpc | count hpc =>
      simp only [Put.step, hpc]
  | push hpc hcap => simp only [Put.step, hpc, if_pos hcap]
  | pop hpc hq => simp [Put.step, hpc, hq]
  | leave hpc hsrc =>
      simp only [Put.step, hpc, dif_neg (Nat.not_lt.mpr hsrc)]
      rfl

theorem Turn.step (h : Turn cap s i pc pc') :
    step cap (s.goto i pc) i = some (s.goto i pc') := by
  have hq : (s.goto i pc).cmd = s.cmd ∧ (s.goto i pc).reply = s.reply := ⟨rfl, rfl⟩
  cases h with
  | pushFull hcap =>
      simp only [Put.step, goto_pc_self, hq, if_neg (Nat.not_lt.mpr hcap), goto_goto]
  | pumpEmpty hj => simp [Put.step, hq, hj]
  | pumpEnd hsrc => simp only [Put.step, goto_pc_self, dif_neg (Nat.not_lt.mpr hsrc), goto_goto]
  | drainEmpty hj => simp [Put.step, hq, hj]
  | drainEnd hsrc hc =>
      simp only [Put.step, goto_pc_self, dif_neg (Nat.not_lt.mpr hsrc), goto_goto]
      rfl
  | loadDone | loadSent | loadApplied =>
      simp only [Put.step, goto_pc_self, goto_goto]
      rfl

omit [NeZero n] in
theorem insert_log {src : Fin n} {item : Item} :
    ((s.insert i src item pc).workers i).log ≠ (s.workers i).log := by
  simp [State.insert]

omit [NeZero n] in
theorem setCmd_ne {ij : Fin n × Fin n} {q : List (Command n)} (hq : q ≠ s.cmd ij) :
    ((s.setCmd ij q).goto i pc).cmd ≠ s.cmd := fun he =>
  hq (Function.update_eq_self_iff.mp (show Function.update s.cmd ij q = s.cmd from he))

theorem Act.effective (h : Act cap s i s') : Effective s s' := by
  cases h with
  | announce => exact .inr (.inr (.inl (Nat.succ_ne_self _)))
  | take => exact .inl (Nat.succ_ne_self _)
  | insertLocal | apply => exact .inr (.inr (.inr (.inr (.inl ⟨i, insert_log⟩))))
  | countLocal | count => exact .inr (.inl (Nat.succ_ne_self _))
  | push => exact .inr (.inr (.inr (.inl (setCmd_ne (by simp)))))
  | pop hpc hq => exact .inr (.inr (.inr (.inl (setCmd_ne (by simp [hq])))))
  | leave hpc =>
      refine .inr (.inr (.inr (.inr (.inr ⟨i, ?_, goto_pc_self⟩))))
      rw [hpc]
      simp

end Steps

/-! ## The work that is left -/

/-- What is left to do for an item goes down with each act on it: it is still to do, in the hand of its
worker, queued, popped, inserted, counted.  Then the worker announces, and leaves. -/
def Pc.weight (pc : Pc n) : ℕ :=
  6 * pc.caller.todo.length + 5 * pc.caller.hand.length + 2 * pc.taken.length + pc.uncounted +
    (!pc.caller.announced).toNat + (match pc with | .exited => 0 | _ => 1)

/-- The work left in all. -/
def State.work (s : State n) : ℕ := ∑ i, (s.workers i).pc.weight + 4 * s.queued

section Work

variable [NeZero n] {cap : ℕ} {s s' : State n} {i : Fin n} {pc pc' : Pc n}

omit [NeZero n] in
/-- One worker moves: its own share and the queues are all that changes. -/
theorem work_move {w : Worker n} (hw : s'.workers = Function.update s.workers i w) :
    s'.work + (s.workers i).pc.weight + 4 * s.queued = s.work + w.pc.weight + 4 * s'.queued := by
  have hsum := sum_update (fun _ (w : Worker n) => w.pc.weight) s.workers i w
  rw [← hw] at hsum
  simp only [State.work]
  omega

omit [NeZero n] in
theorem work_lt {w : Worker n} (hw : s'.workers = Function.update s.workers i w)
    (hlt : w.pc.weight + 4 * s'.queued < (s.workers i).pc.weight + 4 * s.queued) :
    s'.work < s.work := by
  have := work_move hw
  omega

omit [NeZero n] in
theorem work_goto : (s.goto i pc).work + (s.workers i).pc.weight = s.work + pc.weight := by
  have h : (s.goto i pc).work + (s.workers i).pc.weight + 4 * s.queued =
      s.work + pc.weight + 4 * (s.goto i pc).queued :=
    work_move (w := { s.workers i with pc := pc }) rfl
  rw [queued_goto] at h
  exact Nat.add_right_cancel h

/-- An act leaves less to do. -/
theorem Act.work (h : Act cap s i s') : s'.work < s.work := by
  cases h with
  | @push item rest hpc hcap =>
      have hq := queued_setCmd s (i, owner n item.1)
        (s.cmd (i, owner n item.1) ++ [.put item.1 item.2])
      rw [List.length_append, List.length_singleton] at hq
      refine work_lt (i := i) rfl ?_
      rw [hpc]
      show 6 * rest.length + 0 + 0 + 0 + 1 + 1 + 4 * (s.setCmd _ _).queued <
        6 * rest.length + 5 + 0 + 0 + 1 + 1 + 4 * s.queued
      omega
  | @pop c key val q j hpc hq =>
      have hlen := queued_setCmd s (j, i) q
      rw [hq, List.length_cons] at hlen
      refine work_lt (i := i) rfl ?_
      rw [hpc]
      show 6 * c.todo.length + 5 * c.hand.length + 2 + 1 + (!c.announced).toNat + 1 +
          4 * (s.setCmd _ _).queued <
        6 * c.todo.length + 5 * c.hand.length + 0 + 0 + (!c.announced).toNat + 1 + 4 * s.queued
      omega
  | @take item rest hpc =>
      refine work_lt (i := i) rfl ?_
      rw [hpc]
      show (ite _ (Pc.insertLocal item rest) _).weight + 4 * s.queued < _
      have hw : (Pc.items (n := n) (item :: rest)).weight = 6 * (rest.length + 1) + 2 := rfl
      split
      · show 6 * rest.length + 5 + 0 + 0 + 1 + 1 + 4 * s.queued < _
        omega
      · show 6 * rest.length + 5 + 0 + 0 + 1 + 1 + 4 * s.queued < _
        omega
  | announce hpc | insertLocal hpc | countLocal hpc | apply hpc | count hpc | leave hpc _ =>
      refine work_lt (i := i) rfl ?_
      rw [hpc]
      simp [State.goto, State.insert, State.queued, Pc.weight, Pc.caller, Pc.uncounted, Pc.taken,
        Caller.hand, Caller.todo, Caller.announced, DrainCaller.caller, DrainCaller.uncounted]

/-- An idle turn leaves as much to do as before. -/
theorem Turn.weight (h : Turn cap s i pc pc') : pc'.weight = pc.weight := by
  cases h with
  | @drainEnd c src hsrc hc => cases c <;> first | rfl | exact absurd rfl hc
  | @loadApplied allDone sent => split <;> rfl
  | _ => rfl

end Work

/-! ## No command but puts -/

/-- The program points of a worker that has met no `Get`. -/
def Pc.plain : Pc n → Bool
  | .answer _ _ _ _ _ | .reply _ _ _ _ | .drain (.reply _ _ _ _) _ => false
  | _ => true

/-- Nobody sends a `Get`, so nobody replies. -/
structure Plain (s : State n) : Prop where
  cmd : ∀ ij, ∀ c ∈ s.cmd ij, ∃ key val, c = .put key val
  reply : ∀ ij, s.reply ij = []
  pc : ∀ i, (s.workers i).pc.plain = true

section Plain

variable [NeZero n] {cap : ℕ} {work : Fin n → List Item} {s s' : State n} {i : Fin n}

omit [NeZero n] in
/-- Worker `i` moves, and some commands leave or join one queue. -/
theorem Plain.move {w : Worker n} (h : Plain s) (hw : s'.workers = Function.update s.workers i w)
    (hpc : w.pc.plain = true) (hcmd : ∀ ij, ∀ c ∈ s'.cmd ij, ∃ key val, c = .put key val)
    (hreply : s'.reply = s.reply) : Plain s' := by
  refine ⟨hcmd, fun ij => by rw [hreply, h.reply], fun j => ?_⟩
  rw [hw]
  by_cases hj : j = i
  · subst hj
    rw [Function.update_self]
    exact hpc
  · rw [Function.update_of_ne hj]
    exact h.pc j

omit [NeZero n] in
theorem plain_resume (c : Caller) : (c.resume : Pc n).plain = true := by
  cases c <;> rfl

theorem Plain.step (h : Plain s) (hst : step cap s i = some s') : Plain s' := by
  have hpc := h.pc i
  have hput : ∀ {ij q}, (∀ c ∈ q, ∃ key val, c = .put key val) →
      ∀ kl, ∀ c ∈ Function.update s.cmd ij q kl, ∃ key val, c = .put key val := by
    intro ij q hq kl c hc
    by_cases hkl : kl = ij
    · subst hkl
      rw [Function.update_self] at hc
      exact hq c hc
    · rw [Function.update_of_ne hkl] at hc
      exact h.cmd kl c hc
  cases stepTo_of_step hst with
  | @pushOk item rest hi hcap =>
      refine h.move (i := i) rfl rfl (hput fun c hc => ?_) rfl
      rcases List.mem_append.mp hc with hc | hc
      · exact h.cmd _ c hc
      · exact ⟨_, _, List.mem_singleton.mp hc⟩
  | @pumpPut c key val q j hi hq =>
      refine h.move (i := i) rfl rfl (hput fun c hc => ?_) rfl
      exact h.cmd (j, i) c (hq ▸ List.mem_cons_of_mem _ hc)
  | pumpGet hi hq =>
      obtain ⟨key, val, he⟩ := h.cmd _ _ (hq ▸ List.mem_cons_self)
      cases he
  | answer hi | replyOk hi | replyFull hi =>
      rw [hi] at hpc
      cases hpc
  | @drainEmpty c src hi =>
      rw [hi] at hpc
      cases c with
      | pump c => exact h.move (i := i) rfl rfl h.cmd rfl
      | reply => cases hpc
  | @drainTake c r q j hi =>
      -- there is no reply to take
      have hst' : Put.step cap s i = some (s.goto i (.drain c (j + 1))) := by
        simp [Put.step, hi, h.reply]
      rw [Option.some.inj (hst.symm.trans hst')]
      rw [hi] at hpc
      cases c with
      | pump c => exact h.move (i := i) rfl rfl h.cmd rfl
      | reply => cases hpc
  | @drainEnd c src hi =>
      rw [hi] at hpc
      cases c with
      | pump c => exact h.move (i := i) rfl (plain_resume c) h.cmd rfl
      | reply => cases hpc
  | _ => exact h.move (i := i) rfl rfl h.cmd rfl

theorem plain_of_reachable (hs : (machine cap work).Reachable s) : Plain s := by
  refine hs.invariant ?_ fun s i t _ h hst => h.step hst
  rintro s rfl
  exact ⟨fun _ => nofun, fun _ => rfl, fun _ => rfl⟩

end Plain

/-! ## A worker on its own -/

/-- Idle turns take worker `i` from `pc` to an act. -/
inductive Gets [NeZero n] (cap : ℕ) (s : State n) (i : Fin n) : Pc n → Prop
  | act {pc s'} (h : Act cap (s.goto i pc) i s') : Gets cap s i pc
  | turn {pc pc'} (h : Turn cap s i pc pc') (hg : Gets cap s i pc') : Gets cap s i pc

/-- The loop of the worker has a way out: room in the queue it pushes to, or an exit test that holds. -/
def Caller.open [NeZero n] (cap : ℕ) (s : State n) (i : Fin n) : Caller → Prop
  | .items _ | .last => True
  | .push item _ => (s.cmd (i, owner n item.1)).length < cap
  | .quiesce => s.phase1Done = n ∧ s.sent = s.applied

section Gets

variable [NeZero n] {cap : ℕ} {s : State n} {i : Fin n}

/-- `pump` gets to an inbox that is not empty. -/
theorem gets_pump_found (h : Plain s) {j : Fin n} (hj : s.cmd (j, i) ≠ []) (c : Caller) (src : ℕ)
    (hsrc : src ≤ j) : Gets cap s i (.pump c src) := by
  match hq : s.cmd (⟨src, hsrc.trans_lt j.isLt⟩, i) with
  | [] =>
      have hlt : src < j := by
        refine lt_of_le_of_ne hsrc fun he => hj ?_
        subst he
        exact hq
      exact .turn (.pumpEmpty (j := ⟨src, hsrc.trans_lt j.isLt⟩) hq)
        (gets_pump_found h hj c (src + 1) hlt)
  | cmd :: q =>
      obtain ⟨key, val, rfl⟩ := h.cmd _ cmd (hq ▸ List.mem_cons_self)
      exact .act (.pop (j := ⟨src, hsrc.trans_lt j.isLt⟩) goto_pc_self hq)
termination_by n - src
decreasing_by omega

/-- `drain_replies` finds nothing. -/
theorem gets_drain (h : Plain s) (c : Caller) (hc : c ≠ .last → Gets cap s i c.resume) (src : ℕ) :
    Gets cap s i (.drain (.pump c) src) := by
  by_cases hsrc : src < n
  · exact .turn (.drainEmpty (j := ⟨src, hsrc⟩) (h.reply _)) (gets_drain h c hc (src + 1))
  · have hend := Nat.le_of_not_lt hsrc
    by_cases hl : c = .last
    · subst hl
      exact .act (.leave goto_pc_self hend)
    · exact .turn (.drainEnd hend hl) (hc hl)
termination_by n - src

/-- `pump` gets to a command, or to its end. -/
theorem gets_pump (h : Plain s) (c : Caller) (hc : c ≠ .last → Gets cap s i c.resume) (src : ℕ) :
    Gets cap s i (.pump c src) := by
  by_cases hsrc : src < n
  · by_cases hq : s.cmd (⟨src, hsrc⟩, i) = []
    · exact .turn (.pumpEmpty (j := ⟨src, hsrc⟩) hq) (gets_pump h c hc (src + 1))
    · exact gets_pump_found h hq c src le_rfl
  · exact .turn (.pumpEnd (Nat.le_of_not_lt hsrc)) (gets_drain h c hc 0)
termination_by n - src

/-- The exit test, when there is a command to serve or the test holds. -/
theorem gets_test (h : Plain s) (hgo : (∃ j, s.cmd (j, i) ≠ []) ∨ Caller.quiesce.open cap s i) :
    Gets cap s i .loadDone := by
  refine .turn .loadDone (.turn .loadSent (.turn .loadApplied ?_))
  rcases hgo with ⟨j, hj⟩ | ⟨hdone, heq⟩
  · exact gets_pump_found h hj _ 0 j.val.zero_le
  · rw [if_pos ⟨decide_eq_true hdone, heq⟩]
    exact gets_pump h .last (fun hne => absurd rfl hne) 0

/-- A loop with a command to serve or with a way out. -/
theorem gets_resume (h : Plain s) {c : Caller} (hgo : (∃ j, s.cmd (j, i) ≠ []) ∨ c.open cap s i)
    (hc : c ≠ .last) : Gets cap s i c.resume := by
  cases c with
  | items rest =>
      cases rest with
      | nil => exact .act (.announce goto_pc_self)
      | cons item rest => exact .act (.take goto_pc_self)
  | push item rest =>
      by_cases hcap : (s.cmd (i, owner n item.1)).length < cap
      · exact .act (.push goto_pc_self hcap)
      · obtain ⟨j, hj⟩ := hgo.resolve_right hcap
        exact .turn (.pushFull (Nat.le_of_not_lt hcap)) (gets_pump_found h hj _ 0 j.val.zero_le)
  | quiesce => exact gets_test h hgo
  | last => exact absurd rfl hc

/-- **On its own**: a worker that is still there acts, when it has a command to serve or its loop has a
way out. -/
theorem gets_of_open (h : Plain s) (hgo : (∃ j, s.cmd (j, i) ≠ []) ∨
    (s.workers i).pc.caller.open cap s i) (hex : (s.workers i).pc ≠ .exited) :
    Gets cap s i (s.workers i).pc := by
  have hplain := h.pc i
  -- after a failed exit test the worker is in the quiescing loop again
  have hagain : ((∃ j, s.cmd (j, i) ≠ []) ∨ Caller.quiesce.open cap s i) → ∀ b v,
      Gets cap s i (.loadApplied b v) := by
    intro hgo b v
    refine .turn .loadApplied ?_
    split
    · exact gets_pump h .last (fun hne => absurd rfl hne) 0
    · exact gets_pump h .quiesce (gets_resume h hgo) 0
  generalize hpc : (s.workers i).pc = pc at hgo hex hplain
  cases pc with
  | items l => exact gets_resume (c := .items l) h hgo nofun
  | insertLocal item rest => exact .act (.insertLocal goto_pc_self)
  | countLocal rest => exact .act (.countLocal goto_pc_self)
  | push item rest => exact gets_resume (c := .push item rest) h hgo nofun
  | pump c src => exact gets_pump h c (gets_resume h hgo) src
  | apply c src item => exact .act (.apply goto_pc_self)
  | count c src => exact .act (.count goto_pc_self)
  | drain c src =>
      cases c with
      | pump c => exact gets_drain h c (gets_resume h hgo) src
      | reply => cases hplain
  | loadDone => exact gets_test h hgo
  | loadSent b => exact .turn .loadSent (hagain hgo _ _)
  | loadApplied b v => exact hagain hgo b v
  | answer | reply => cases hplain
  | exited => exact absurd rfl hex

/-- A worker with a command in its hands goes on with it. -/
theorem gets_of_uncounted (h : Plain s) (hun : (s.workers i).pc.uncounted ≠ 0) :
    Gets cap s i (s.workers i).pc := by
  have hplain := h.pc i
  generalize (s.workers i).pc = pc at hun hplain
  cases pc with
  | countLocal rest => exact .act (.countLocal goto_pc_self)
  | apply c src item => exact .act (.apply goto_pc_self)
  | count c src => exact .act (.count goto_pc_self)
  | answer | reply => cases hplain
  | drain c src =>
      cases c with
      | pump c => exact absurd rfl hun
      | reply => cases hplain
  | _ => exact absurd rfl hun

/-- The turns and the act, as a schedule. -/
theorem Gets.schedule {pc : Pc n} (h : Gets cap s i pc) :
    ∃ k pc' s', Machine.runFn (step cap) (s.goto i pc) (List.replicate k i) = some (s.goto i pc') ∧
      step cap (s.goto i pc') i = some s' ∧ Effective (s.goto i pc') s' ∧
      s'.work < (s.goto i pc).work := by
  induction h with
  | @act pc s' h => exact ⟨0, pc, s', rfl, h.step, h.effective, h.work⟩
  | @turn pc pc' h _ ih =>
      obtain ⟨k, pc'', s', hrun, hst, heff, hlt⟩ := ih
      refine ⟨k + 1, pc'', s', ?_, hst, heff, ?_⟩
      · rw [List.replicate_succ, Machine.runFn, h.step]
        exact hrun
      · have hpc : (s.goto i pc).work + _ = _ := work_goto
        have hpc' : (s.goto i pc').work + _ = _ := work_goto
        rw [h.weight] at hpc'
        omega

end Gets

/-! ## The mesh -/

section Mesh

variable [NeZero n] {cap : ℕ} {work : Fin n → List Item} {s : State n}

/-- **Somebody gets to an act**, as long as not all have left. -/
theorem exists_gets (hcap : 0 < cap) (hs : (machine cap work).Reachable s)
    (hex : ∃ i, (s.workers i).pc ≠ .exited) : ∃ i, Gets cap s i (s.workers i).pc := by
  have hi := inv_of_reachable hs
  have hp := plain_of_reachable hs
  -- who has left has seen that all have announced and that the queues are empty
  have hleft : ∀ {j}, (s.workers j).pc = .exited → AllAnnounced s ∧ ∀ ij, s.cmd ij = [] := by
    intro j hj
    have := hi.leaving j
    rw [hj] at this
    exact ⟨(this rfl).1, hi.counted.empty (this rfl).2⟩
  have hserve : ∀ {a b}, s.cmd (a, b) ≠ [] → Gets cap s b (s.workers b).pc := fun {a b} hq =>
    gets_of_open hp (.inl ⟨a, hq⟩) fun hb => hq ((hleft hb).2 _)
  by_cases hall : AllAnnounced s
  · have hdone : s.phase1Done = n := by
      rw [hi.counted.announced, Finset.sum_congr rfl fun j _ => congrArg Bool.toNat (hall j)]
      simp
    by_cases heq : s.sent = s.applied
    · -- every loop that is left has a way out
      obtain ⟨i, hexi⟩ := hex
      refine ⟨i, gets_of_open hp (.inr ?_) hexi⟩
      have hann := hall i
      cases hc : (s.workers i).pc.caller with
      | quiesce => exact ⟨hdone, heq⟩
      | last => trivial
      | items l | push item rest =>
          rw [hc] at hann
          cases hann
    · by_cases hq : ∃ ij, s.cmd ij ≠ []
      · obtain ⟨⟨a, b⟩, hab⟩ := hq
        exact ⟨b, hserve hab⟩
      · -- nothing is queued, so somebody has a command in hand
        have hzero : s.queued = 0 := Finset.sum_eq_zero fun ij _ => by
          rw [not_not.mp (not_exists.mp hq ij), List.length_nil]
        have hheld : ∑ j, (s.workers j).pc.held ≠ 0 := by
          have := hi.counted.conserve
          omega
        obtain ⟨j, -, hj⟩ := Finset.exists_ne_zero_of_sum_ne_zero hheld
        refine ⟨j, gets_of_uncounted hp fun hun => hj ?_⟩
        rw [Pc.held, hun]
        have hann := hall j
        cases hc : (s.workers j).pc.caller with
        | push item rest =>
            rw [hc] at hann
            cases hann
        | items | quiesce | last => rfl
  · obtain ⟨i, hun⟩ := not_forall.mp hall
    -- worker `i` still produces
    have hexi : (s.workers i).pc ≠ .exited := fun he => hall (hleft he).1
    by_cases hopen : (s.workers i).pc.caller.open cap s i
    · exact ⟨i, gets_of_open hp (.inr hopen) hexi⟩
    · cases hc : (s.workers i).pc.caller with
      | items l | last =>
          rw [hc] at hopen
          exact absurd trivial hopen
      | quiesce =>
          rw [hc] at hun
          exact absurd rfl hun
      | push item rest =>
          rw [hc] at hopen
          refine ⟨owner n item.1, hserve (a := i) fun hq => hopen ?_⟩
          show (s.cmd (i, owner n item.1)).length < cap
          rw [hq]
          exact hcap

/-- From every reachable state there is a way to the end. -/
theorem exists_finish (hcap : 0 < cap) (hs : (machine cap work).Reachable s) :
    ∃ sched t, Machine.runFn (step cap) s sched = some t ∧ ∀ i, (t.workers i).pc = .exited := by
  -- by induction on the work left
  generalize hw : s.work = w
  induction w using Nat.strong_induction_on generalizing s with
  | _ w ih =>
      by_cases hall : ∀ i, (s.workers i).pc = .exited
      · exact ⟨[], s, rfl, hall⟩
      · obtain ⟨i, hg⟩ := exists_gets hcap hs (not_forall.mp hall)
        obtain ⟨k, pc, s', hrun, hst, -, hlt⟩ := hg.schedule
        rw [goto_self] at hrun hlt
        obtain ⟨sched, t, hrest, ht⟩ :=
          ih s'.work (hw ▸ hlt) ((Machine.reachable_runFn hs hrun).next hst) rfl
        refine ⟨List.replicate k i ++ i :: sched, t, ?_, ht⟩
        rw [Machine.runFn_append, hrun, Option.bind_some, Machine.runFn, hst]
        exact hrest

/-- **The put mesh cannot get stuck.**  In every reachable state all workers have left, or one of them gets
by itself to an effective step, through turns of its loops that move nothing but its program point; and
some schedule leads to the end. -/
theorem put_mesh_finishes (hcap : 0 < cap) (hs : (machine cap work).Reachable s) :
    ((∀ i, (s.workers i).pc = .exited) ∨
        ∃ i k pc s', Machine.runFn (step cap) s (List.replicate k i) = some (s.goto i pc) ∧
          step cap (s.goto i pc) i = some s' ∧ Effective (s.goto i pc) s') ∧
      ∃ sched t, Machine.runFn (step cap) s sched = some t ∧ ∀ i, (t.workers i).pc = .exited := by
  refine ⟨?_, exists_finish hcap hs⟩
  by_cases hall : ∀ i, (s.workers i).pc = .exited
  · exact .inl hall
  · obtain ⟨i, hg⟩ := exists_gets hcap hs (not_forall.mp hall)
    obtain ⟨k, pc, s', hrun, hst, heff, -⟩ := hg.schedule
    rw [goto_self] at hrun
    exact .inr ⟨i, k, pc, s', hrun, hst, heff⟩

end Mesh

/-- Two workers, the first with three puts for the shard of the second. -/
def crowdedWork (i : Fin 2) : List Item := if i = 0 then [([0], [5]), ([0], [6]), ([0], [7])] else []

/-- With room for two, the first worker stands before a full queue and cannot go on by itself; the second
one has not yet begun. -/
theorem put_mesh_finishes_crowded :
    ∃ s : State 2, (s.workers 0).pc = .push ([0], [7]) [] ∧ (s.cmd (0, 1)).length = 2 ∧
      (∃ i k pc s', Machine.runFn (step 2) s (List.replicate k i) = some (s.goto i pc) ∧
        step 2 (s.goto i pc) i = some s' ∧ Effective (s.goto i pc) s') ∧
      ∃ sched t, Machine.runFn (step 2) s sched = some t ∧ ∀ i, (t.workers i).pc = .exited := by
  obtain ⟨s, hs⟩ : ∃ s, Machine.runFn (step 2) (.new crowdedWork) (List.replicate 17 0) = some s :=
    ⟨_, rfl⟩
  obtain ⟨hpc, hq⟩ : (s.workers 0).pc = .push ([0], [7]) [] ∧ (s.cmd (0, 1)).length = 2 := by
    cases hs
    exact ⟨rfl, rfl⟩
  have hr : (machine 2 crowdedWork).Reachable s := Machine.reachable_of_runFn hs
  obtain ⟨hgo, hend⟩ := put_mesh_finishes (by decide) hr
  refine ⟨s, hpc, hq, hgo.resolve_left fun hall => ?_, hend⟩
  have := hall 0
  rw [hpc] at this
  cases this

end ZeroKv.Mesh.Put
