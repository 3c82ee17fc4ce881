/-
# ZeroKv.Mesh.Put — the put mesh, from the first put to quiescence.

`run_put_workload` starts `n` workers.  Each applies its own workload, routing a put to the shard that
owns its key, and then keeps serving its inboxes until every worker has finished producing and the
two global counters agree.  A step here is one operation on a queue, one insertion into a shard, one
access to a counter, or one turn of a loop; a queue is the bounded FIFO that `ZeroKv.Spsc` proves the
ring to be.  Workers never send a `Get` in this mode, but `pump` serves one as the source does.

The log of a worker is a history variable: what it has inserted into its shard, latest first, with
the worker each entry came from.
-/
import ZeroKv.Lib.Machine
import ZeroKv.Lib.Tally
import ZeroKv.Mesh.Route

namespace ZeroKv.Mesh.Put

/-- A put of the workload. -/
abbrev Item := Bytes × Bytes

/-- Where `pump` returns to. -/
inductive Caller
  /-- The loop over the workload, with `rest` still to do. -/
  | items (rest : List Item)
  /-- `put`, whose push found the queue full. -/
  | push (item : Item) (rest : List Item)
  /-- The quiescing loop. -/
  | quiesce
  /-- The last drain before the worker leaves. -/
  | last

/-- Where `drain_replies` returns to. -/
inductive DrainCaller (n : ℕ)
  /-- The end of `pump`. -/
  | pump (c : Caller)
  /-- `pump`, whose reply found the queue full. -/
  | reply (c : Caller) (src : ℕ) (dst : Fin n) (r : Reply)

/-- Program points of a worker. -/
inductive Pc (n : ℕ)
  /-- Take the next item: `sent.fetch_add(1)`, or `phase1_done.fetch_add(1)` when none is left. -/
  | items (l : List Item)
  /-- `put`: insert into our own shard. -/
  | insertLocal (item : Item) (rest : List Item)
  /-- `put`: `applied.fetch_add(1)`. -/
  | countLocal (rest : List Item)
  /-- `put`: push to the owner. -/
  | push (item : Item) (rest : List Item)
  /-- `pump`: pop from inbox `src`. -/
  | pump (c : Caller) (src : ℕ)
  /-- `pump`: insert a put that came from `src`. -/
  | apply (c : Caller) (src : Fin n) (item : Item)
  /-- `pump`: `applied.fetch_add(1)`. -/
  | count (c : Caller) (src : ℕ)
  /-- `pump`: look a key up. -/
  | answer (c : Caller) (src : ℕ) (key : Bytes) (dst : Fin n) (token : ℕ)
  /-- `pump`: push the reply. -/
  | reply (c : Caller) (src : ℕ) (dst : Fin n) (r : Reply)
  /-- `drain_replies`: pop from reply queue `src`. -/
  | drain (c : DrainCaller n) (src : ℕ)
  /-- Exit test: load `phase1_done`. -/
  | loadDone
  /-- Exit test: load `sent`. -/
  | loadSent (allDone : Bool)
  /-- Exit test: load `applied`. -/
  | loadApplied (allDone : Bool) (sent : ℕ)
  | exited

/-- `Worker`, without the endpoints of its queues. -/
structure Worker (n : ℕ) where
  shard : Shard
  inflight : ℕ → Option (Option Bytes)
  pc : Pc n
  log : List (Fin n × Item)

/-- The workers, the matrices of queues and `MeshShared`.  `cmd (i, j)` goes from `i` to `j`. -/
structure State (n : ℕ) where
  sent : ℕ
  applied : ℕ
  phase1Done : ℕ
  cmd : Fin n × Fin n → List (Command n)
  reply : Fin n × Fin n → List Reply
  workers : Fin n → Worker n

variable {n : ℕ}

/-- What follows a `pump`. -/
def Caller.resume : Caller → Pc n
  | .items rest => .items rest
  | .push item rest => .push item rest
  | .quiesce => .loadDone
  | .last => .exited

/-- What follows `drain_replies`. -/
def DrainCaller.resume : DrainCaller n → Pc n
  | .pump c => c.resume
  | .reply c src dst r => .reply c src dst r

def State.goto (s : State n) (i : Fin n) (pc : Pc n) : State n :=
  { s with workers := Function.update s.workers i { s.workers i with pc := pc } }

/-- Worker `i` inserts an item that came from `src` and goes on at `pc`. -/
def State.insert (s : State n) (i src : Fin n) (item : Item) (pc : Pc n) : State n :=
  { s with workers := Function.update s.workers i { s.workers i with
      shard := (s.workers i).shard.insert item.1 item.2
      pc := pc
      log := (src, item) :: (s.workers i).log } }

/-- Worker `i` records a reply. -/
def State.record (s : State n) (i : Fin n) (r : Reply) : State n :=
  { s with workers := Function.update s.workers i { s.workers i with
      inflight := Function.update (s.workers i).inflight r.token (some r.val) } }

def State.setCmd (s : State n) (ij : Fin n × Fin n) (q : List (Command n)) : State n :=
  { s with cmd := Function.update s.cmd ij q }

def State.setReply (s : State n) (ij : Fin n × Fin n) (q : List Reply) : State n :=
  { s with reply := Function.update s.reply ij q }

/-- One step of worker `i`; queues hold at most `cap` elements. -/
def step [NeZero n] (cap : ℕ) (s : State n) (i : Fin n) : Option (State n) :=
  match (s.workers i).pc with
  | .items [] => some { s.goto i (.pump .quiesce 0) with phase1Done := s.phase1Done + 1 }
  | .items (item :: rest) =>
      some { s.goto i (if owner n item.1 = i then .insertLocal item rest else .push item rest) with
        sent := s.sent + 1 }
  | .insertLocal item rest => some (s.insert i i item (.countLocal rest))
  | .countLocal rest => some { s.goto i (.pump (.items rest) 0) with applied := s.applied + 1 }
  | .push item rest =>
      let q := s.cmd (i, owner n item.1)
      if q.length < cap then
        some ((s.setCmd (i, owner n item.1) (q ++ [.put item.1 item.2])).goto i
          (.pump (.items rest) 0))
      -- backpressure: serve our own inboxes before the next try
      else some (s.goto i (.pump (.push item rest) 0))
  | .pump c src =>
      if h : src < n then
        match s.cmd (⟨src, h⟩, i) with
        | [] => some (s.goto i (.pump c (src + 1)))
        | .put key val :: q =>
            some ((s.setCmd (⟨src, h⟩, i) q).goto i (.apply c ⟨src, h⟩ (key, val)))
        | .get key dst token :: q =>
            some ((s.setCmd (⟨src, h⟩, i) q).goto i (.answer c src key dst token))
      else some (s.goto i (.drain (.pump c) 0))
  | .apply c src item => some (s.insert i src item (.count c src))
  | .count c src => some { s.goto i (.pump c src) with applied := s.applied + 1 }
  | .answer c src key dst token =>
      some (s.goto i (.reply c src dst { token, val := (s.workers i).shard key }))
  | .reply c src dst r =>
      let q := s.reply (i, dst)
      if q.length < cap then some ((s.setReply (i, dst) (q ++ [r])).goto i (.count c src))
      -- the reply queue is full: only replies are drained before the next try
      else some (s.goto i (.drain (.reply c src dst r) 0))
  | .drain c src =>
      if h : src < n then
        match s.reply (⟨src, h⟩, i) with
        | [] => some (s.goto i (.drain c (src + 1)))
        | r :: q => some ((s.setReply (⟨src, h⟩, i) q).record i r)
      else some (s.goto i c.resume)
  | .loadDone => some (s.goto i (.loadSent (s.phase1Done = n)))
  | .loadSent allDone => some (s.goto i (.loadApplied allDone s.sent))
  | .loadApplied allDone sent =>
      some (s.goto i (.pump (if allDone = true ∧ sent = s.applied then .last else .quiesce) 0))
  | .exited => none

/-- The mesh before the first step: worker `i` has `work i` to do. -/
def State.new (work : Fin n → List Item) : State n where
  sent := 0
  applied := 0
  phase1Done := 0
  cmd := fun _ => []
  reply := fun _ => []
  workers := fun i =>
    { shard := fun _ => none, inflight := fun _ => none, pc := .items (work i), log := [] }

/-- `run_put_workload`: all orders of the workers' steps. -/
def machine [NeZero n] (cap : ℕ) (work : Fin n → List Item) : Machine (State n) (Fin n) :=
  .ofFn (.new work) (step cap)

/-! ## What a step can be -/

/-- The steps one by one, each with its guard and its effect. -/
inductive StepTo [NeZero n] (cap : ℕ) (s : State n) (i : Fin n) : State n → Prop
  | announce (hpc : (s.workers i).pc = .items []) :
      StepTo cap s i { s.goto i (.pump .quiesce 0) with phase1Done := s.phase1Done + 1 }
  | takeLocal {item rest} (hpc : (s.workers i).pc = .items (item :: rest))
      (ho : owner n item.1 = i) :
      StepTo cap s i { s.goto i (.insertLocal item rest) with sent := s.sent + 1 }
  | takeRemote {item rest} (hpc : (s.workers i).pc = .items (item :: rest))
      (ho : owner n item.1 ≠ i) :
      StepTo cap s i { s.goto i (.push item rest) with sent := s.sent + 1 }
  | insertLocal {item rest} (hpc : (s.workers i).pc = .insertLocal item rest) :
      StepTo cap s i (s.insert i i item (.countLocal rest))
  | countLocal {rest} (hpc : (s.workers i).pc = .countLocal rest) :
      StepTo cap s i { s.goto i (.pump (.items rest) 0) with applied := s.applied + 1 }
  | pushOk {item rest} (hpc : (s.workers i).pc = .push item rest)
      (hcap : (s.cmd (i, owner n item.1)).length < cap) :
      StepTo cap s i ((s.setCmd (i, owner n item.1)
        (s.cmd (i, owner n item.1) ++ [.put item.1 item.2])).goto i (.pump (.items rest) 0))
  | pushFull {item rest} (hpc : (s.workers i).pc = .push item rest) :
      StepTo cap s i (s.goto i (.pump (.push item rest) 0))
  | pumpEmpty {c src} (hpc : (s.workers i).pc = .pump c src) :
      StepTo cap s i (s.goto i (.pump c (src + 1)))
  | pumpPut {c key val q} {j : Fin n} (hpc : (s.workers i).pc = .pump c j)
      (hq : s.cmd (j, i) = .put key val :: q) :
      StepTo cap s i ((s.setCmd (j, i) q).goto i (.apply c j (key, val)))
  | pumpGet {c key dst token q} {j : Fin n} (hpc : (s.workers i).pc = .pump c j)
      (hq : s.cmd (j, i) = .get key dst token :: q) :
      StepTo cap s i ((s.setCmd (j, i) q).goto i (.answer c j key dst token))
  | pumpEnd {c src} (hpc : (s.workers i).pc = .pump c src) :
      StepTo cap s i (s.goto i (.drain (.pump c) 0))
  | apply {c src item} (hpc : (s.workers i).pc = .apply c src item) :
      StepTo cap s i (s.insert i src item (.count c src))
  | count {c src} (hpc : (s.workers i).pc = .count c src) :
      StepTo cap s i { s.goto i (.pump c src) with applied := s.applied + 1 }
  | answer {c src key dst token} (hpc : (s.workers i).pc = .answer c src key dst token) :
      StepTo cap s i (s.goto i (.reply c src dst { token, val := (s.workers i).shard key }))
  | replyOk {c src dst r} (hpc : (s.workers i).pc = .reply c src dst r) :
      StepTo cap s i ((s.setReply (i, dst) (s.reply (i, dst) ++ [r])).goto i (.count c src))
  | replyFull {c src dst r} (hpc : (s.workers i).pc = .reply c src dst r) :
      StepTo cap s i (s.goto i (.drain (.reply c src dst r) 0))
  | drainEmpty {c src} (hpc : (s.workers i).pc = .drain c src) :
      StepTo cap s i (s.goto i (.drain c (src + 1)))
  | drainTake {c r q} {j : Fin n} (hpc : (s.workers i).pc = .drain c j) :
      StepTo cap s i ((s.setReply (j, i) q).record i r)
  | drainEnd {c src} (hpc : (s.workers i).pc = .drain c src) :
      StepTo cap s i (s.goto i c.resume)
  | loadDone (hpc : (s.workers i).pc = .loadDone) :
      StepTo cap s i (s.goto i (.loadSent (s.phase1Done = n)))
  | loadSent {allDone} (hpc : (s.workers i).pc = .loadSent allDone) :
      StepTo cap s i (s.goto i (.loadApplied allDone s.sent))
  | again {allDone sent} (hpc : (s.workers i).pc = .loadApplied allDone sent) :
      StepTo cap s i (s.goto i (.pump .quiesce 0))
  | leave {sent} (hpc : (s.workers i).pc = .loadApplied true sent) (he : sent = s.applied) :
      StepTo cap s i (s.goto i (.pump .last 0))

theorem stepTo_of_step [NeZero n] {cap : ℕ} {s s' : State n} {i : Fin n}
    (h : step cap s i = some s') : StepTo cap s i s' := by
  simp only [step] at h
  split at h
  case h_2 item rest hpc =>
    cases h
    by_cases ho : owner n item.1 = i
    · rw [if_pos ho]
      exact .takeLocal hpc ho
    · rw [if_neg ho]
      exact .takeRemote hpc ho
  case h_5 item rest hpc =>
    split at h
    case isTrue hcap => cases h; exact .pushOk hpc hcap
    case isFalse => cases h; exact .pushFull hpc
  case h_6 c src hpc =>
    split at h
    case isTrue hsrc =>
      split at h
      · cases h
        exact .pumpEmpty hpc
      case h_2 key val q hq =>
        cases h
        exact .pumpPut (j := ⟨src, hsrc⟩) hpc hq
      case h_3 key dst token q hq =>
        cases h
        exact .pumpGet (j := ⟨src, hsrc⟩) hpc hq
    case isFalse =>
      cases h
      exact .pumpEnd hpc
  case h_10 c src dst r hpc =>
    split at h
    · cases h
      exact .replyOk hpc
    · cases h
      exact .replyFull hpc
  case h_11 c src hpc =>
    split at h
    case isTrue hsrc =>
      split at h
      · cases h
        exact .drainEmpty hpc
      · cases h
        exact .drainTake (j := ⟨src, hsrc⟩) hpc
    case isFalse =>
      cases h
      exact .drainEnd hpc
  case h_14 allDone sent hpc =>
    cases h
    by_cases hc : allDone = true ∧ sent = s.applied
    · rw [if_pos hc]
      obtain ⟨rfl, he⟩ := hc
      exact .leave hpc he
    · rw [if_neg hc]
      exact .again hpc
  case h_15 => cases h
  all_goals
    rename_i hpc
    cases h
    first
      | exact .announce hpc
      | exact .insertLocal hpc
      | exact .countLocal hpc
      | exact .apply hpc
      | exact .count hpc
      | exact .answer hpc
      | exact .loadDone hpc
      | exact .loadSent hpc

end ZeroKv.Mesh.Put
