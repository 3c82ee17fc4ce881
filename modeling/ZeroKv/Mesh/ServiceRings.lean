/-
# ZeroKv.Mesh.ServiceRings — the service on the rings it really runs on.

The same for the service as `ZeroKv.Mesh.Rings` does for the put mesh.  The workers are a program over the two
matrices of queues; the clients, which only see the ingress stacks and the requests, are the rest of the
system.  Run on rings, with every access of every worker a step of its own, the service is still linearizable.
-/
import ZeroKv.Mesh.Linear
import ZeroKv.Mesh.Rings

namespace ZeroKv.Mesh.Service

/-- What clients and workers share: the requests, the ingress stacks and `stop`; with the clients, the
history of their calls and the log of the fulfilled requests. -/
structure Shared (τ : Type) (n : ℕ) where
  reqs : Heap
  ingress : Fin n → Option ℕ
  stop : Bool
  clients : τ → ClientPc n
  hist : List (Event ClientOp (Option Bytes))
  fulfilled : List (ℕ × Option Bytes)

/-- The steps that no worker takes. -/
inductive Outside (τ : Type) (n : ℕ)
  | client (t : τ) (a : ClientAct n)
  | stop

variable {τ : Type} {n : ℕ}

def State.shared (s : State τ n) : Shared τ n where
  reqs := s.reqs
  ingress := s.ingress
  stop := s.stop
  clients := s.clients
  hist := s.hist
  fulfilled := s.fulfilled

/-- A state without anything on the queues. -/
def Shared.bare (m : Shared τ n) (workers : Fin n → Worker n) : State τ n where
  reqs := m.reqs
  ingress := m.ingress
  stop := m.stop
  cmd := fun _ => []
  reply := fun _ => []
  workers := workers
  clients := m.clients
  hist := m.hist
  fulfilled := m.fulfilled

/-- A state of the program over queues that are lists is a state of the service. -/
def stateOf (q : QueueState (Fin n) (Lane n) (fun k => List k.Item) (Shared τ n) (Worker n)) : State τ n :=
  { q.mem.bare q.loc with cmd := fun ij => q.queues (.cmd ij), reply := fun ij => q.queues (.reply ij) }

/-- The step of the service that a step of the program is. -/
def labelOf : Fin n ⊕ Outside τ n → Label τ n
  | .inl i => .worker i
  | .inr (.client t a) => .client t a
  | .inr .stop => .stop

/-- What a worker wants of a queue at a program point. -/
def access [NeZero n] (i : Fin n) (w : Worker n) : Access (Lane n) Lane.Item :=
  match w.pc with
  | .pump _ _ src => if h : src < n then .pop (.cmd (⟨src, h⟩, i)) else .none
  | .reply _ _ dst r => .push (.reply (i, dst)) r
  | .collect _ _ src => if h : src < n then .pop (.reply (⟨src, h⟩, i)) else .none
  | .forward cmd _ _ => .push (.cmd (i, owner n cmd.key)) cmd
  | _ => .none

/-- What a worker does with the result of a push; a full ring hands the value back. -/
def afterPush : (k : Lane n) → Worker n → Except k.Item Unit → Worker n
  | .cmd _, w, .ok () =>
      match w.pc with
      | .forward _ none rest => { w with pc := .serve rest }
      | .forward _ (some id) rest => { w with pc := .fulfillValue (.serve rest) id none }
      | _ => w
  | .cmd _, w, .error cmd =>
      match w.pc with
      | .forward _ ack rest => { w with pc := .pump (.forward cmd ack rest) false 0 }
      | _ => w
  | .reply _, w, .ok () =>
      match w.pc with
      | .reply c src _ _ => { w with pc := .pump c true src }
      | _ => w
  | .reply _, w, .error r =>
      match w.pc with
      | .reply c src dst _ => { w with pc := .collect (.reply c src dst r) false 0 }
      | _ => w

/-- What a worker does with the result of a pop. -/
def afterPop : (k : Lane n) → Worker n → Option k.Item → Worker n
  | .cmd _, w, c =>
      match w.pc, (c : Option (Command n)) with
      | .pump c p src, none => { w with pc := .pump c p (src + 1) }
      | .pump c _ src, some (.put key val) => { w with pc := .insert c src key val }
      | .pump c _ src, some (.get key dst token) => { w with pc := .answer c src key dst token }
      | _, _ => w
  | .reply _, w, r =>
      match w.pc, (r : Option Reply) with
      | .collect c p src, none => { w with pc := .collect c p (src + 1) }
      | .collect c _ src, some r =>
          match w.waiters.lookup r.token with
          | none => { w with pc := .collect c true src }
          | some id => { w with
              waiters := w.waiters.filter (·.1 ≠ r.token)
              pc := .fulfillValue (.collect c src) id r.val }
      | _, _ => w

section Program

variable [NeZero n]

/-- The steps that touch no queue, which are those of `stepWorker`. -/
def move (i : Fin n) (m : Shared τ n) (w : Worker n) : Option (Shared τ n × Worker n) :=
  (stepWorker 0 (m.bare fun _ => w) i).map fun t => (t.shared, t.workers i)

variable [DecidableEq τ]

/-- The steps of the clients and of `shutdown`, which see no worker. -/
def other (m : Shared τ n) (a : Outside τ n) : Option (Shared τ n) :=
  (step 0 (m.bare fun _ => (State.new τ n).workers 0) (labelOf (.inr a))).map State.shared

/-- The workers as a program over queues. -/
def program (τ : Type) [DecidableEq τ] (n : ℕ) [NeZero n] :
    QueueProgram (Fin n) (Lane n) Lane.Item (Shared τ n) (Worker n) (Outside τ n) where
  mem := (State.new τ n).shared
  loc := (State.new τ n).workers
  access := access
  move := move
  afterPush := afterPush
  afterPop := afterPop
  other := other
  source := Lane.source
  target := Lane.target
  access_push := by
    intro i w k v h
    cases hpc : w.pc <;> simp only [access, hpc] at h
    case forward | reply => cases h; rfl
    case pump | collect => split at h <;> cases h
    all_goals cases h
  access_pop := by
    intro i w k h
    cases hpc : w.pc <;> simp only [access, hpc] at h
    case pump | collect =>
      split at h
      · cases h; rfl
      · cases h
    all_goals cases h

end Program

/-! ## The program is the service -/

section Steps

variable (q : QueueState (Fin n) (Lane n) (fun k => List k.Item) (Shared τ n) (Worker n))

theorem stateOf_setCmd (ij : Fin n × Fin n) (l : List (Command n)) :
    stateOf (QueueProgram.setQueue q (.cmd ij) l) = (stateOf q).setCmd ij l :=
  congrArg (fun f => { stateOf q with cmd := f }) (Lane.update_cmd q.queues ij l)

theorem stateOf_setReply (ij : Fin n × Fin n) (l : List Reply) :
    stateOf (QueueProgram.setQueue q (.reply ij) l) = (stateOf q).setReply ij l :=
  congrArg (fun f => { stateOf q with reply := f }) (Lane.update_reply q.queues ij l)

variable [NeZero n] [DecidableEq τ]

/-- **The program is the service**: over lists its workers take the steps of `stepWorker`. -/
theorem stateOf_stepWorker (cap : ℕ) (i : Fin n) :
    ((program τ n).stepAtomic cap q i).map stateOf = stepWorker cap (stateOf q) i := by
  have hpc' : ((stateOf q).workers i).pc = (q.loc i).pc := rfl
  cases hpc : (q.loc i).pc with
  -- the points without a ring access are the same code on both sides
  | insert | answer | fulfillValue | fulfillDone | walk | exited =>
      simp [QueueProgram.stepAtomic, program, access, hpc, move, stepWorker, stateOf, Shared.bare,
        State.shared, State.goto, QueueProgram.goto]
  | swap p =>
      cases hin : q.mem.ingress i <;>
        simp [QueueProgram.stepAtomic, program, access, hpc, move, stepWorker, stateOf, Shared.bare,
          State.shared, State.goto, QueueProgram.goto, hin]
  | serve l =>
      cases l with
      | nil =>
          simp [QueueProgram.stepAtomic, program, access, hpc, move, stepWorker, stateOf, Shared.bare,
            State.shared, State.goto, QueueProgram.goto]
      | cons id rest =>
          cases hop : q.mem.reqs.opOf id with
          | put key val =>
              by_cases ho : owner n key = i <;>
                simp [QueueProgram.stepAtomic, program, access, hpc, move, stepWorker, stateOf, Shared.bare,
                  State.shared, State.goto, QueueProgram.goto, serveRequest, hop, ho]
          | get key =>
              by_cases ho : owner n key = i
              · simp [QueueProgram.stepAtomic, program, access, hpc, move, stepWorker, stateOf, Shared.bare,
                  State.shared, State.goto, QueueProgram.goto, serveRequest, hop, ho]
              · simp [QueueProgram.stepAtomic, program, access, hpc, move, stepWorker, stateOf, Shared.bare,
                  State.shared, QueueProgram.goto, serveRequest, hop, ho]
                rfl
  | loadStop p =>
      by_cases hstop : q.mem.stop = true ∧ p = false ∧ (q.loc i).waiters = [] <;>
        simp [QueueProgram.stepAtomic, program, access, hpc, move, stepWorker, stateOf, Shared.bare,
          State.shared, State.goto, QueueProgram.goto, hstop]
  | loadHead =>
      by_cases hin : q.mem.ingress i = none <;>
        simp [QueueProgram.stepAtomic, program, access, hpc, move, stepWorker, stateOf, Shared.bare,
          State.shared, State.goto, QueueProgram.goto, hin]
  -- a push or a pop: the access is split off, and what follows it is `afterPush` or `afterPop`
  | forward cmd ack rest =>
      have hq : q.queues (.cmd (i, owner n cmd.key)) = (stateOf q).cmd (i, owner n cmd.key) := rfl
      simp only [QueueProgram.stepAtomic, program, access, hpc, stepWorker, hpc', hq]
      by_cases hroom : ((stateOf q).cmd (i, owner n cmd.key)).length < cap
      · rw [if_pos hroom, if_pos hroom, Option.map_some, ← stateOf_setCmd]
        cases ack <;>
          simp [afterPush, hpc, stateOf, Shared.bare, QueueProgram.goto, QueueProgram.setQueue, State.goto]
      · rw [if_neg hroom, if_neg hroom, Option.map_some]
        simp [afterPush, hpc, stateOf, Shared.bare, QueueProgram.goto, State.goto]
  | reply c src dst r =>
      have hq : q.queues (.reply (i, dst)) = (stateOf q).reply (i, dst) := rfl
      simp only [QueueProgram.stepAtomic, program, access, hpc, stepWorker, hpc', hq]
      by_cases hroom : ((stateOf q).reply (i, dst)).length < cap
      · rw [if_pos hroom, if_pos hroom, Option.map_some, ← stateOf_setReply]
        simp [afterPush, hpc, stateOf, Shared.bare, QueueProgram.goto, QueueProgram.setQueue, State.goto]
      · rw [if_neg hroom, if_neg hroom, Option.map_some]
        simp [afterPush, hpc, stateOf, Shared.bare, QueueProgram.goto, State.goto]
  | pump c p src =>
      by_cases hsrc : src < n
      · have hq : q.queues (.cmd (⟨src, hsrc⟩, i)) = (stateOf q).cmd (⟨src, hsrc⟩, i) := rfl
        simp only [QueueProgram.stepAtomic, program, access, hpc, stepWorker, hpc', dif_pos hsrc, hq]
        cases (stateOf q).cmd (⟨src, hsrc⟩, i) with
        | nil => simp [afterPop, hpc, stateOf, Shared.bare, QueueProgram.goto, State.goto]
        | cons x l =>
            cases x <;> simp only [Option.map_some, ← stateOf_setCmd] <;>
              simp [afterPop, hpc, stateOf, Shared.bare, QueueProgram.goto, QueueProgram.setQueue,
                State.goto]
      · simp [QueueProgram.stepAtomic, program, access, hpc, move, stepWorker, stateOf, Shared.bare,
          State.shared, State.goto, QueueProgram.goto, hsrc]
  | collect c p src =>
      by_cases hsrc : src < n
      · have hq : q.queues (.reply (⟨src, hsrc⟩, i)) = (stateOf q).reply (⟨src, hsrc⟩, i) := rfl
        simp only [QueueProgram.stepAtomic, program, access, hpc, stepWorker, hpc', dif_pos hsrc, hq]
        cases (stateOf q).reply (⟨src, hsrc⟩, i) with
        | nil => simp [afterPop, hpc, stateOf, Shared.bare, QueueProgram.goto, State.goto]
        | cons r l =>
            simp only [Option.map_some, ← stateOf_setReply]
            cases hw : (q.loc i).waiters.lookup r.token <;>
              simp [afterPop, hpc, hw, stateOf, Shared.bare, QueueProgram.goto, QueueProgram.setQueue,
                State.goto, matchReply]
      · simp [QueueProgram.stepAtomic, program, access, hpc, move, stepWorker, stateOf, Shared.bare,
          State.shared, State.goto, QueueProgram.goto, hsrc]

/-- The other steps are those of the clients and of `shutdown`. -/
theorem stateOf_other (cap : ℕ) (a : Outside τ n) :
    ((program τ n).other q.mem a).map (fun m => stateOf { q with mem := m }) =
      step cap (stateOf q) (labelOf (.inr a)) := by
  have hsubmit : ∀ t accept op, (submitTo (q.mem.bare fun _ => (State.new τ n).workers 0) t accept op).map
      (fun s => stateOf { q with mem := s.shared }) = submitTo (stateOf q) t accept op := by
    intro t accept op
    by_cases hidle : q.mem.clients t = .idle <;>
      simp [submitTo, stateOf, Shared.bare, State.shared, State.clientGoto, hidle]
  cases a with
  | stop => rfl
  | client t a =>
      simp only [program, other, labelOf, step, Option.map_map]
      cases a with
      | put | get | getRoundRobin => exact hsubmit ..
      | run strong =>
          cases hpc : q.mem.clients t with
          | idle | push | take =>
              simp [stepClient, stateOf, Shared.bare, State.shared, State.clientGoto, hpc]
          | cas accept id head =>
              by_cases hc : strong = true ∧ q.mem.ingress accept = head <;>
                simp [stepClient, stateOf, Shared.bare, State.shared, State.clientGoto, hpc, hc]
          | wait id =>
              by_cases hd : q.mem.reqs.doneOf id = true <;>
                simp [stepClient, stateOf, Shared.bare, State.shared, State.clientGoto, hpc, hd]

end Steps

/-! ## On rings -/

section Rings

variable [NeZero n] [DecidableEq τ] {w capacity : ℕ}
  {s : QueueState (Fin n) (Lane n) (fun k => Spsc.State k.Item) (Shared τ n) (Worker n)}

/-- Picking up an answer changes neither the shard of a worker nor its tokens. -/
theorem settled_keeps {cap : ℕ} {I : ∀ k : Lane n, QueueImpl k.Item cap} {queues : ∀ k, (I k).State}
    {i : Fin n} {l : Worker n} :
    (QueueProgram.settled (program τ n) I queues i l).shard = l.shard ∧
      (QueueProgram.settled (program τ n) I queues i l).nextToken = l.nextToken := by
  have hpush : ∀ (k : Lane n) r, (afterPush k l r).shard = l.shard ∧
      (afterPush k l r).nextToken = l.nextToken := by
    intro k r
    cases k <;> cases r <;> simp only [afterPush] <;> split <;> exact ⟨rfl, rfl⟩
  have hpop : ∀ (k : Lane n) r, (afterPop k l r).shard = l.shard ∧
      (afterPop k l r).nextToken = l.nextToken := by
    intro k r
    cases k with
    | cmd ij => simp only [afterPop]; split <;> exact ⟨rfl, rfl⟩
    | reply ij =>
        simp only [afterPop]
        split
        case h_2 => split <;> exact ⟨rfl, rfl⟩
        all_goals exact ⟨rfl, rfl⟩
  unfold QueueProgram.settled
  cases (program τ n).access i l with
  | none => exact ⟨rfl, rfl⟩
  | push k v =>
      simp only
      split
      · exact hpush k _
      · exact ⟨rfl, rfl⟩
  | pop k =>
      simp only
      split
      · exact hpop k _
      · exact ⟨rfl, rfl⟩

/-- The service is running, as in `Running`. -/
def RingRunning (s : QueueState (Fin n) (Lane n) (fun k => Spsc.State k.Item) (Shared τ n) (Worker n)) :
    Fin n ⊕ Outside τ n → Prop
  | .inr .stop => False
  | .inr (.client _ _) | .inl _ => ∀ i, (s.loc i).nextToken < 2 ^ 48

instance instDecidableRingRunning
    (s : QueueState (Fin n) (Lane n) (fun k => Spsc.State k.Item) (Shared τ n) (Worker n)) :
    (l : Fin n ⊕ Outside τ n) → Decidable (RingRunning s l)
  | .inr .stop => .isFalse fun h => h
  | .inr (.client _ _) | .inl _ => inferInstanceAs (Decidable (∀ i, (s.loc i).nextToken < 2 ^ 48))

/-- The service with its workers on rings of `capacity` places. -/
def ringService (τ : Type) [DecidableEq τ] (n : ℕ) [NeZero n]
    (hcap : Spsc.roundedCap capacity ≤ 2 ^ (w - 1)) :
    Machine (QueueState (Fin n) (Lane n) (fun k => Spsc.State k.Item) (Shared τ n) (Worker n))
      (Fin n ⊕ Outside τ n) :=
  (program τ n).onImpl fun k => Spsc.ringQueue k.Item hcap

/-- The state of the service over lists that a state of the service over rings stands for. -/
def serviceOf (hcap : Spsc.roundedCap capacity ≤ 2 ^ (w - 1))
    (s : QueueState (Fin n) (Lane n) (fun k => Spsc.State k.Item) (Shared τ n) (Worker n)) : State τ n :=
  stateOf (QueueProgram.view (program τ n) (fun k => Spsc.ringQueue k.Item hcap) s)

theorem running_of_ringRunning (hcap : Spsc.roundedCap capacity ≤ 2 ^ (w - 1)) {l : Fin n ⊕ Outside τ n}
    (h : RingRunning s l) : Running (serviceOf hcap s) (labelOf l) := by
  have htokens : (∀ i, (s.loc i).nextToken < 2 ^ 48) →
      ∀ i, ((serviceOf hcap s).workers i).nextToken < 2 ^ 48 := fun hall i => by
    have hkeep : ((serviceOf hcap s).workers i).nextToken = (s.loc i).nextToken := settled_keeps.2
    rw [hkeep]
    exact hall i
  rcases l with i | t | _
  · exact htokens h
  · exact htokens h
  · exact h

theorem reachable_stateOf {cap : ℕ}
    {q : QueueState (Fin n) (Lane n) (fun k => List k.Item) (Shared τ n) (Worker n)}
    (hq : (((program τ n).atomic cap).restrict fun q l => Running (stateOf q) (labelOf l)).Reachable q) :
    ((machine τ n cap).restrict Running).Reachable (stateOf q) := by
  refine hq.invariant
    (I := fun q => ((machine τ n cap).restrict Running).Reachable (stateOf q)) ?_ ?_
  · rintro q rfl
    exact .start rfl
  · rintro q l q' - hr ⟨hrun, hst⟩
    refine hr.next ⟨hrun, ?_⟩
    show step cap (stateOf q) (labelOf l) = some (stateOf q')
    cases l with
    | inl i =>
        show stepWorker cap (stateOf q) i = _
        rw [← stateOf_stepWorker, show (program τ n).stepAtomic cap q i = some q' from hst]
        rfl
    | inr a =>
        obtain ⟨m, hm, rfl⟩ := Option.map_eq_some_iff.mp hst
        rw [← stateOf_other, hm]
        rfl

/-- **The service on rings is linearizable.**  However the single accesses of workers and clients interleave: no
worker reads a slot that was not written; a request is fulfilled at most once; the shards hold only the keys
routed to them; and one sequential order of the calls explains the history and every answer given so far. -/
theorem service_on_rings_linearizable {hcap : Spsc.roundedCap capacity ≤ 2 ^ (w - 1)}
    (hs : ((ringService τ n hcap).restrict RingRunning).Reachable s) :
    (∀ k, (s.queues k).consumer ≠ .fault) ∧ (s.mem.fulfilled.map Prod.fst).Nodup ∧
      (∀ j key, (s.loc j).shard key ≠ none → owner n key = j) ∧
      ∃ lin, Linearizes kvSpec s.mem.hist lin ∧
        ∀ id v, (id, v) ∈ s.mem.fulfilled → ⟨id, s.mem.reqs.opOf id, v⟩ ∈ lin := by
  obtain ⟨hw, hr⟩ := QueueProgram.reachable_view (R := fun q l => Running (stateOf q) (labelOf l))
    (fun s l h => running_of_ringRunning hcap h) hs
  obtain ⟨loc, stack, chain, lin, ho, ht⟩ := inv_of_reachable (reachable_stateOf hr)
  refine ⟨fun k hf => ?_, ht.once, fun j key hkey => ht.routed j key ?_, lin, ht.explains, fun id v hmem => ?_⟩
  · have := (hw.ok k).inv.consumer
    simp [Spsc.ConsumerOk, hf] at this
  · have hkeep : ((serviceOf hcap s).workers j).shard = (s.loc j).shard := settled_keeps.1
    exact hkeep ▸ hkey
  · exact (ht.entries _).mpr ⟨Loc.answer_of_filled ((ht.log id v).mp hmem), rfl⟩

end Rings

/-- One client puts a key, then another asks the worker that does not own it, which forwards the request. -/
def ringSchedule : List (Fin 2 ⊕ Outside Bool 2) :=
  List.flatten
    [[.inr (.client false (.put [0] [5]))], List.replicate 2 (.inr (.client false (.run true))),
      List.replicate 23 (.inl 1), List.replicate 2 (.inr (.client false (.run true))),
      [.inr (.client true (.getRoundRobin [0] 0))], List.replicate 2 (.inr (.client true (.run true))),
      List.replicate 26 (.inl 0), List.replicate 14 (.inl 1), List.replicate 24 (.inl 0),
      List.replicate 2 (.inr (.client true (.run true)))]

theorem service_on_rings_linearizable_forwarded :
    ∃ s : QueueState (Fin 2) (Lane 2) (fun k => Spsc.State k.Item) (Shared Bool 2) (Worker 2),
      s.mem.fulfilled = [(0, none), (1, some [5])] ∧
      ∃ lin, Linearizes kvSpec s.mem.hist lin ∧ ⟨1, s.mem.reqs.opOf 1, some [5]⟩ ∈ lin := by
  have hrun : (Machine.runFn (fun s l => if RingRunning s l then (program Bool 2).withOther
        ((program Bool 2).stepImpl fun k => Spsc.ringQueue k.Item Put.roundedCap_two_le) s l else none)
      { mem := (program Bool 2).mem, loc := (program Bool 2).loc,
        queues := fun k => Spsc.initial k.Item 2 } ringSchedule).any
      (fun s => s.mem.fulfilled = [(0, none), (1, some [5])]) = true := by decide +kernel
  obtain ⟨s, hs, hend⟩ := (Option.any_eq_true _ _).mp hrun
  have hlog := of_decide_eq_true hend
  have hreach : ((ringService Bool 2 Put.roundedCap_two_le).restrict RingRunning).Reachable s :=
    Machine.reachable_restrict_of_runFn hs
  obtain ⟨-, -, -, lin, hlin, hans⟩ := service_on_rings_linearizable hreach
  exact ⟨s, hlog, lin, hlin, hans 1 (some [5]) (by rw [hlog]; simp)⟩

end ZeroKv.Mesh.Service
