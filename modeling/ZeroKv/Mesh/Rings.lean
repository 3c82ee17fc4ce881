/-
# ZeroKv.Mesh.Rings — the put mesh on the rings it really runs on.

`ZeroKv.Mesh.Put` takes a queue for a bounded list and a push or a pop for one step.  In the source a queue is
an SPSC ring, whose two ends run on different cores and interleave access by access.  Here the workers are a
program over queues in the sense of `ZeroKv.Lib.Queues`, the matrices are wired as `run_put_workload` wires
them (row `i` of the producers and column `i` of the consumers go to worker `i`), and the program is run on
rings.  What holds of the mesh over lists then holds of the mesh over rings.
-/
import ZeroKv.Mesh.Finish
import ZeroKv.Spsc.Queue

namespace ZeroKv.Mesh

/-- The queues of the two matrices; `cmd (i, j)` goes from `i` to `j`. -/
inductive Lane (n : ℕ)
  | cmd (ij : Fin n × Fin n)
  | reply (ij : Fin n × Fin n)
deriving DecidableEq

/-- What travels on a queue. -/
abbrev Lane.Item {n : ℕ} : Lane n → Type
  | .cmd _ => Command n
  | .reply _ => Reply

/-- The worker that holds the producer of a queue. -/
def Lane.source {n : ℕ} : Lane n → Fin n
  | .cmd ij | .reply ij => ij.1

/-- The worker that holds the consumer of a queue. -/
def Lane.target {n : ℕ} : Lane n → Fin n
  | .cmd ij | .reply ij => ij.2

section Update

variable {n : ℕ} (queues : ∀ k : Lane n, List k.Item) (ij : Fin n × Fin n)

theorem Lane.update_cmd (l : List (Command n)) :
    (fun ab => Function.update queues (.cmd ij) l (.cmd ab)) =
      Function.update (fun ab => queues (.cmd ab)) ij l := by
  funext ab
  by_cases h : ab = ij
  · subst h
    rw [Function.update_self, Function.update_self]
  · rw [Function.update_of_ne h, Function.update_of_ne fun he => h (Lane.cmd.inj he)]

theorem Lane.update_reply (l : List Reply) :
    (fun ab => Function.update queues (.reply ij) l (.reply ab)) =
      Function.update (fun ab => queues (.reply ab)) ij l := by
  funext ab
  by_cases h : ab = ij
  · subst h
    rw [Function.update_self, Function.update_self]
  · rw [Function.update_of_ne h, Function.update_of_ne fun he => h (Lane.reply.inj he)]

end Update

namespace Put

variable {n : ℕ}

/-- `MeshShared`. -/
structure Counters where
  sent : ℕ
  applied : ℕ
  phase1Done : ℕ

/-- A state of the program over queues that are lists is a state of the mesh. -/
def stateOf (q : QueueState (Fin n) (Lane n) (fun k => List k.Item) Counters (Worker n)) : State n where
  sent := q.mem.sent
  applied := q.mem.applied
  phase1Done := q.mem.phase1Done
  cmd ij := q.queues (.cmd ij)
  reply ij := q.queues (.reply ij)
  workers := q.loc

/-- What a worker wants of a queue at a program point. -/
def access [NeZero n] (i : Fin n) (w : Worker n) : Access (Lane n) Lane.Item :=
  match w.pc with
  | .push item _ => .push (.cmd (i, owner n item.1)) (Command.put item.1 item.2)
  | .pump _ src => if h : src < n then .pop (.cmd (⟨src, h⟩, i)) else .none
  | .reply _ _ dst r => .push (.reply (i, dst)) r
  | .drain _ src => if h : src < n then .pop (.reply (⟨src, h⟩, i)) else .none
  | _ => .none

/-- What a worker does with the result of a push; a full ring hands the value back. -/
def afterPush : (k : Lane n) → Worker n → Except k.Item Unit → Worker n
  | .cmd _, w, .ok () =>
      match w.pc with
      | .push _ rest => { w with pc := .pump (.items rest) 0 }
      | _ => w
  | .cmd _, w, .error c =>
      match w.pc, (c : Command n) with
      | .push _ rest, .put key val => { w with pc := .pump (.push (key, val) rest) 0 }
      | _, _ => w
  | .reply _, w, .ok () =>
      match w.pc with
      | .reply c src _ _ => { w with pc := .count c src }
      | _ => w
  | .reply _, w, .error r =>
      match w.pc with
      | .reply c src dst _ => { w with pc := .drain (.reply c src dst r) 0 }
      | _ => w

/-- What a worker does with the result of a pop. -/
def afterPop : (k : Lane n) → Worker n → Option k.Item → Worker n
  | .cmd ij, w, c =>
      match w.pc, (c : Option (Command n)) with
      | .pump c src, none => { w with pc := .pump c (src + 1) }
      | .pump c _, some (.put key val) => { w with pc := .apply c ij.1 (key, val) }
      | .pump c src, some (.get key dst token) => { w with pc := .answer c src key dst token }
      | _, _ => w
  | .reply _, w, r =>
      match w.pc, (r : Option Reply) with
      | .drain c src, none => { w with pc := .drain c (src + 1) }
      | .drain _ _, some r => { w with inflight := Function.update w.inflight r.token (some r.val) }
      | _, _ => w

/-- The steps that touch no queue, which are those of `step`. -/
def move [NeZero n] (i : Fin n) (m : Counters) (w : Worker n) : Option (Counters × Worker n) :=
  (step 0 { sent := m.sent, applied := m.applied, phase1Done := m.phase1Done, cmd := fun _ => [],
            reply := fun _ => [], workers := fun _ => w } i).map fun t =>
    (⟨t.sent, t.applied, t.phase1Done⟩, t.workers i)

/-- The workers as a program over queues. -/
def program [NeZero n] (work : Fin n → List Item) :
    QueueProgram (Fin n) (Lane n) Lane.Item Counters (Worker n) Empty where
  mem := ⟨0, 0, 0⟩
  loc i := { shard := fun _ => none, inflight := fun _ => none, pc := .items (work i), log := [] }
  access := access
  move := move
  afterPush := afterPush
  afterPop := afterPop
  other _ a := a.elim
  source := Lane.source
  target := Lane.target
  access_push := by
    intro i w k v h
    cases hpc : w.pc <;> simp only [access, hpc] at h
    case push | reply => cases h; rfl
    case pump | drain => split at h <;> cases h
    all_goals cases h
  access_pop := by
    intro i w k h
    cases hpc : w.pc <;> simp only [access, hpc] at h
    case pump | drain =>
      split at h
      · cases h; rfl
      · cases h
    all_goals cases h

variable [NeZero n] {work : Fin n → List Item}

omit [NeZero n] in
theorem stateOf_setCmd (q : QueueState (Fin n) (Lane n) (fun k => List k.Item) Counters (Worker n))
    (ij : Fin n × Fin n) (l : List (Command n)) :
    stateOf (QueueProgram.setQueue q (.cmd ij) l) = (stateOf q).setCmd ij l :=
  congrArg (fun f => { stateOf q with cmd := f }) (Lane.update_cmd q.queues ij l)

omit [NeZero n] in
theorem stateOf_setReply (q : QueueState (Fin n) (Lane n) (fun k => List k.Item) Counters (Worker n))
    (ij : Fin n × Fin n) (l : List Reply) :
    stateOf (QueueProgram.setQueue q (.reply ij) l) = (stateOf q).setReply ij l :=
  congrArg (fun f => { stateOf q with reply := f }) (Lane.update_reply q.queues ij l)

/-- **The program is the mesh**: its steps over lists are the steps of `step`. -/
theorem stateOf_step (work : Fin n → List Item) (cap : ℕ)
    (q : QueueState (Fin n) (Lane n) (fun k => List k.Item) Counters (Worker n)) (i : Fin n) :
    ((program work).stepAtomic cap q i).map stateOf = step cap (stateOf q) i := by
  cases hpc : (q.loc i).pc with
  | items l =>
      cases l <;>
        simp [QueueProgram.stepAtomic, program, access, hpc, move, step, stateOf, State.goto,
          QueueProgram.goto]
  | insertLocal | countLocal | apply | count | answer | loadSent | exited =>
      simp [QueueProgram.stepAtomic, program, access, hpc, move, step, stateOf, State.goto,
        QueueProgram.goto, State.insert]
  | loadDone | loadApplied =>
      simp [QueueProgram.stepAtomic, program, access, hpc, move, step, stateOf, State.goto,
        QueueProgram.goto]
      rfl
  -- a push or a pop: the access is split off, and what follows it is `afterPush` or `afterPop`
  | push item rest =>
      have hq : q.queues (.cmd (i, owner n item.1)) = (stateOf q).cmd (i, owner n item.1) := rfl
      have hpc' : ((stateOf q).workers i).pc = _ := hpc
      simp only [QueueProgram.stepAtomic, program, access, hpc, step, hpc', hq]
      by_cases hroom : ((stateOf q).cmd (i, owner n item.1)).length < cap
      · rw [if_pos hroom, if_pos hroom, Option.map_some, ← stateOf_setCmd]
        simp [afterPush, hpc, stateOf, QueueProgram.goto, QueueProgram.setQueue, State.goto]
      · rw [if_neg hroom, if_neg hroom, Option.map_some]
        simp [afterPush, hpc, stateOf, QueueProgram.goto, State.goto]
  | pump c src =>
      have hpc' : ((stateOf q).workers i).pc = _ := hpc
      by_cases hsrc : src < n
      · have hq : q.queues (.cmd (⟨src, hsrc⟩, i)) = (stateOf q).cmd (⟨src, hsrc⟩, i) := rfl
        simp only [QueueProgram.stepAtomic, program, access, hpc, step, hpc', dif_pos hsrc, hq]
        cases (stateOf q).cmd (⟨src, hsrc⟩, i) with
        | nil => simp [afterPop, hpc, stateOf, QueueProgram.goto, State.goto]
        | cons x l =>
            cases x <;> simp only [Option.map_some, ← stateOf_setCmd] <;>
              simp [afterPop, hpc, stateOf, QueueProgram.goto, QueueProgram.setQueue, State.goto]
      · simp [QueueProgram.stepAtomic, program, access, hpc, move, step, stateOf, State.goto,
          QueueProgram.goto, hsrc]
  | reply c src dst r =>
      have hq : q.queues (.reply (i, dst)) = (stateOf q).reply (i, dst) := rfl
      have hpc' : ((stateOf q).workers i).pc = _ := hpc
      simp only [QueueProgram.stepAtomic, program, access, hpc, step, hpc', hq]
      by_cases hroom : ((stateOf q).reply (i, dst)).length < cap
      · rw [if_pos hroom, if_pos hroom, Option.map_some, ← stateOf_setReply]
        simp [afterPush, hpc, stateOf, QueueProgram.goto, QueueProgram.setQueue, State.goto]
      · rw [if_neg hroom, if_neg hroom, Option.map_some]
        simp [afterPush, hpc, stateOf, QueueProgram.goto, State.goto]
  | drain c src =>
      have hpc' : ((stateOf q).workers i).pc = _ := hpc
      by_cases hsrc : src < n
      · have hq : q.queues (.reply (⟨src, hsrc⟩, i)) = (stateOf q).reply (⟨src, hsrc⟩, i) := rfl
        simp only [QueueProgram.stepAtomic, program, access, hpc, step, hpc', dif_pos hsrc, hq]
        cases (stateOf q).reply (⟨src, hsrc⟩, i) with
        | nil => simp [afterPop, hpc, stateOf, QueueProgram.goto, State.goto]
        | cons r l =>
            simp only [Option.map_some, ← stateOf_setReply]
            simp [afterPop, hpc, stateOf, QueueProgram.goto, QueueProgram.setQueue, State.record]
      · simp [QueueProgram.stepAtomic, program, access, hpc, move, step, stateOf, State.goto,
          QueueProgram.goto, hsrc]

/-! ## On rings -/

section Rings

variable {w capacity : ℕ}

/-- The workers of `run_put_workload` on rings of `capacity` places. -/
def ringMesh (hcap : Spsc.roundedCap capacity ≤ 2 ^ (w - 1)) (work : Fin n → List Item) :
    Machine (QueueState (Fin n) (Lane n) (fun k => Spsc.State k.Item) Counters (Worker n)) (Fin n ⊕ Empty) :=
  (program work).onImpl fun k => Spsc.ringQueue k.Item hcap

theorem reachable_stateOf {cap : ℕ}
    {q : QueueState (Fin n) (Lane n) (fun k => List k.Item) Counters (Worker n)}
    (hq : (((program work).atomic cap).restrict fun _ _ => True).Reachable q) :
    (machine cap work).Reachable (stateOf q) := by
  refine hq.invariant (I := fun q => (machine cap work).Reachable (stateOf q)) ?_ ?_
  · rintro q rfl
    exact .start rfl
  · rintro q l q' - hr ⟨-, hst⟩
    cases l with
    | inl i =>
        refine hr.next (l := i) ?_
        show step cap (stateOf q) i = some (stateOf q')
        rw [← stateOf_step work, show (program work).stepAtomic cap q i = some q' from hst]
        rfl
    | inr a => exact a.elim

/-- A schedule of the mesh is a run of the program over lists. -/
theorem exists_of_run (work : Fin n → List Item) {cap : ℕ} {sched : List (Fin n)} {t : State n}
    {q : QueueState (Fin n) (Lane n) (fun k => List k.Item) Counters (Worker n)}
    (h : Machine.runFn (step cap) (stateOf q) sched = some t) :
    ∃ q', ((program work).atomic cap).StaysIn (fun _ => True) q q' ∧ stateOf q' = t := by
  induction sched generalizing q with
  | nil => exact ⟨q, .refl trivial, Option.some.inj h⟩
  | cons i sched ih =>
      obtain ⟨u, hu, hrest⟩ := Option.bind_eq_some_iff.mp h
      rw [← stateOf_step work] at hu
      obtain ⟨q₁, hq₁, rfl⟩ := Option.map_eq_some_iff.mp hu
      obtain ⟨q', hpath, hq'⟩ := ih hrest
      have hone : ((program work).atomic cap).StaysIn (fun _ => True) q q₁ :=
        .next (l := .inl i) (.refl trivial) hq₁ trivial
      exact ⟨q', hone.trans hpath, hq'⟩

/-- Picking up an answer never ends a worker. -/
theorem exited_of_settled {cap : ℕ} {I : ∀ k : Lane n, QueueImpl k.Item cap} {queues : ∀ k, (I k).State}
    {i : Fin n} {l : Worker n} (h : (QueueProgram.settled (program work) I queues i l).pc = .exited) :
    l.pc = .exited := by
  cases hpc : l.pc with
  | exited => rfl
  -- no answer of a queue leads to `exited`: a push goes on to `pump`, a pop to the next point
  | push item rest =>
      simp only [QueueProgram.settled, program, access, hpc] at h
      split at h
      · rename_i r _
        rcases r with (_ | _) | _ <;> simp [afterPush, hpc] at h
      · simp [hpc] at h
  | reply c src dst r =>
      simp only [QueueProgram.settled, program, access, hpc] at h
      split at h
      · rename_i r _
        cases r <;> simp [afterPush, hpc] at h
      · simp [hpc] at h
  | pump c src =>
      simp only [QueueProgram.settled, program, access, hpc] at h
      by_cases hsrc : src < n
      · rw [dif_pos hsrc] at h
        simp only at h
        split at h
        · rename_i r _
          rcases r with _ | _ | _ <;> simp [afterPop, hpc] at h
        · simp [hpc] at h
      · simp [dif_neg hsrc, hpc] at h
  | drain c src =>
      simp only [QueueProgram.settled, program, access, hpc] at h
      by_cases hsrc : src < n
      · rw [dif_pos hsrc] at h
        simp only at h
        split at h
        · rename_i r _
          cases r <;> simp [afterPop, hpc] at h
        · simp [hpc] at h
      · simp [dif_neg hsrc, hpc] at h
  | items | insertLocal | countLocal | apply | count | answer | loadDone | loadSent | loadApplied =>
      simp [QueueProgram.settled, program, access, hpc] at h

/-- The state of the mesh over lists that a state of the mesh over rings stands for. -/
def meshOf (hcap : Spsc.roundedCap capacity ≤ 2 ^ (w - 1)) (work : Fin n → List Item)
    (s : QueueState (Fin n) (Lane n) (fun k => Spsc.State k.Item) Counters (Worker n)) : State n :=
  stateOf (QueueProgram.view (program work) (fun k => Spsc.ringQueue k.Item hcap) s)

/-- **The put mesh on rings quiesces.**  Whatever the order of the single accesses of all workers to their
rings: no worker ever reads a slot that was not written.  A worker only leaves when the command rings are empty.
Once all have left, both counters are the number of puts, and every shard holds the puts it owns: those of each
worker once and in their order.  And from every state some schedule leads there. -/
theorem put_mesh_on_rings {hcap : Spsc.roundedCap capacity ≤ 2 ^ (w - 1)}
    {s : QueueState (Fin n) (Lane n) (fun k => Spsc.State k.Item) Counters (Worker n)}
    (hs : (ringMesh hcap work).Reachable s) :
    (∀ k, (s.queues k).consumer ≠ .fault) ∧
      (∀ i, (s.loc i).pc = .exited →
        ∀ ij, (s.queues (.cmd ij)).popped = (s.queues (.cmd ij)).pushed) ∧
      ((∀ i, (s.loc i).pc = .exited) →
        s.mem.sent = ∑ i, (work i).length ∧ s.mem.applied = ∑ i, (work i).length ∧
          (∀ b key, (s.loc b).shard key = ((s.loc b).log.map (·.2)).lookup key) ∧
          ∀ a b, ((s.loc b).log.filter (·.1 = a)).map (·.2) =
            ((work a).filter (owner n ·.1 = b)).reverse) ∧
      ∃ t, (ringMesh hcap work).StaysIn (fun _ => True) s t ∧ ∀ i, (t.loc i).pc = .exited := by
  obtain ⟨hw, hr⟩ := QueueProgram.reachable_view (R := fun _ _ => True) (fun _ _ _ => trivial)
    (hs.restrict fun _ _ => trivial)
  have hreach : (machine _ work).Reachable (meshOf hcap work s) := reachable_stateOf hr
  have hi := inv_of_reachable hreach
  have hinv : ∀ k, Spsc.Inv w (Spsc.roundedCap capacity) (s.queues k) := fun k => (hw.ok k).inv
  -- a worker that has left is seen as it is
  have hseen : ∀ {i}, (s.loc i).pc = .exited → (meshOf hcap work s).workers i = s.loc i := fun he =>
    (hw.free_of_none (by simp [program, access, he])).settled _
  have hexit : ∀ {i}, (s.loc i).pc = .exited → (meshOf hcap work s).sent = (meshOf hcap work s).applied := by
    intro i he
    have hleave := hi.leaving i
    rw [hseen he, he] at hleave
    exact (hleave rfl).2
  refine ⟨fun k hf => ?_, fun i he ij => ?_, fun hall => ?_, ?_⟩
  · have := (hinv k).consumer
    simp [Spsc.ConsumerOk, hf] at this
  · have hnil : (s.queues (.cmd ij)).contents = [] := hi.counted.empty (hexit he) ij
    exact (hinv (.cmd ij)).prefixed.eq_of_length_le (List.drop_eq_nil_iff.mp hnil)
  · have hloc : (meshOf hcap work s).workers = s.loc := funext fun i => hseen (hall i)
    have hexited : ∀ i, ((meshOf hcap work s).workers i).pc = .exited := fun i => by rw [hloc, hall]
    have heq := hexit (hall ⟨0, Nat.pos_of_ne_zero (NeZero.ne n)⟩)
    have htotal : (meshOf hcap work s).sent = ∑ i, (work i).length := by
      simpa [hexited, Pc.caller, Caller.todo] using hi.counted.total
    have hlog := hi.streamed.log_eq hexited (hi.counted.empty heq)
    have hshard := hi.streamed.shard
    rw [hloc] at hlog hshard
    exact ⟨htotal, heq.symm.trans htotal, hshard, hlog⟩
  · have hpos : 0 < Spsc.roundedCap capacity := by
      rw [Spsc.roundedCap_eq]
      exact Nat.two_pow_pos _
    obtain ⟨sched, t, hrun, hall⟩ := exists_finish hpos hreach
    obtain ⟨q, hpath, rfl⟩ := exists_of_run work hrun
    obtain ⟨t, hsteps, -, rfl⟩ := hw.follow hpath
    exact ⟨t, hsteps, fun i => exited_of_settled (hall i)⟩

end Rings

/-- The worker has left. -/
def Pc.left : Pc n → Bool
  | .exited => true
  | _ => false

omit [NeZero n] in
theorem Pc.exited_of_left {pc : Pc n} (h : pc.left = true) : pc = .exited := by
  unfold Pc.left at h
  split at h
  · rfl
  · cases h

/-- The run of `sampleSchedule`, with the single accesses to the rings. -/
def ringSchedule : List (Fin 2 ⊕ Empty) :=
  List.flatten [List.replicate 90 (.inl 0), List.replicate 60 (.inl 1), List.replicate 50 (.inl 0),
    List.replicate 21 (.inl 1)]

theorem roundedCap_two_le : Spsc.roundedCap 2 ≤ 2 ^ (8 - 1) := by decide

theorem put_mesh_on_rings_two :
    ∃ s : QueueState (Fin 2) (Lane 2) (fun k => Spsc.State k.Item) Counters (Worker 2),
      (∀ i, (s.loc i).pc = .exited) ∧ s.mem.applied = 4 ∧
        ((s.loc 1).log.filter (·.1 = 0)).map (·.2) = [([0], [7]), ([0], [5])] ∧
        ((s.loc 0).log.filter (·.1 = 1)).map (·.2) = [([1], [8])] := by
  have hrun : (Machine.runFn ((program sampleWork).withOther ((program sampleWork).stepImpl
        fun k => Spsc.ringQueue k.Item roundedCap_two_le))
      { mem := (program sampleWork).mem, loc := (program sampleWork).loc,
        queues := fun k => Spsc.initial k.Item 2 } ringSchedule).any
      (fun s => (s.loc 0).pc.left && (s.loc 1).pc.left) = true := by decide +kernel
  obtain ⟨s, hs, hend⟩ := (Option.any_eq_true _ _).mp hrun
  obtain ⟨h₀, h₁⟩ := (Bool.and_eq_true _ _).mp hend
  have hall : ∀ i, (s.loc i).pc = .exited :=
    Fin.forall_fin_two.mpr ⟨Pc.exited_of_left h₀, Pc.exited_of_left h₁⟩
  have hreach : (ringMesh roundedCap_two_le sampleWork).Reachable s := Machine.reachable_of_runFn hs
  obtain ⟨-, happlied, -, hlog⟩ := (put_mesh_on_rings hreach).2.2.1 hall
  exact ⟨s, hall, happlied.trans (by decide), (hlog 0 1).trans (by decide), (hlog 1 0).trans (by decide)⟩

end Put

end ZeroKv.Mesh
