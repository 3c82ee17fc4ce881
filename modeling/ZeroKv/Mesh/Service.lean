/-
# ZeroKv.Mesh.Service — the long-running service, its clients and its shutdown.

A client boxes a request with its completion, pushes it on the ingress stack of an accepting worker
and waits.  A worker serves its inboxes and its ingress in turn.  A request for a key it owns is served
from its shard; a `Get` for another worker's key is forwarded over the matrix under a fresh token, and
the reply is matched by the token.  Under backpressure the worker serves its inboxes in the middle of
draining its ingress, and collects replies in the middle of answering a command.

A step is one access to the ingress, to a completion or to `stop`, one operation on a queue, or one
turn of a loop over private data.  A request is an index into `reqs`, given out at the call, which is
also the number of the call.  `get_round_robin` may be accepted by any worker.
-/
import ZeroKv.Lib.Chain
import ZeroKv.Lib.History
import ZeroKv.Lib.Machine
import ZeroKv.Lib.Records
import ZeroKv.Mesh.Route

namespace ZeroKv.Mesh.Service

/-- `ClientOp`. -/
inductive ClientOp
  | put (key val : Bytes)
  | get (key : Bytes)
deriving DecidableEq

def ClientOp.key : ClientOp → Bytes
  | .put key _ | .get key => key

/-- `ClientReq`, with the `ReqCompletion` it shares with its client. -/
structure Request where
  op : ClientOp
  next : Option ℕ
  done : Bool
  value : Option Bytes

/-- The boxed requests, by index. -/
abbrev Heap := List Request

/-- The registers of a client thread. -/
inductive ClientPc (n : ℕ)
  | idle
  /-- `Ingress::push`: load the head and link the request to it. -/
  | push (accept : Fin n) (id : ℕ)
  /-- `Ingress::push`: try to publish the request. -/
  | cas (accept : Fin n) (id : ℕ) (head : Option ℕ)
  /-- `ReqCompletion::wait`: load `done`. -/
  | wait (id : ℕ)
  /-- `ReqCompletion::wait`: take the value and return it. -/
  | take (id : ℕ)
deriving DecidableEq

/-- Where `pump_matrix` returns to. -/
inductive PumpCaller (n : ℕ)
  /-- The service loop. -/
  | loop
  /-- `drain_ingress`, whose push of `cmd` found the queue full.  `ack` is the request to acknowledge
  once a forwarded put is pushed, `rest` what is left of the batch. -/
  | forward (cmd : Command n) (ack : Option ℕ) (rest : List ℕ)

/-- Where `collect_replies` returns to. -/
inductive CollectCaller (n : ℕ)
  /-- The end of `pump_matrix`, which has made progress or not. -/
  | pump (c : PumpCaller n) (progressed : Bool)
  /-- `pump_matrix`, whose reply found the queue full. -/
  | reply (c : PumpCaller n) (src : ℕ) (dst : Fin n) (r : Reply)

/-- Where `fulfill` returns to. -/
inductive FulfillCaller (n : ℕ)
  | collect (c : CollectCaller n) (src : ℕ)
  | serve (rest : List ℕ)

/-- Program points of a worker. -/
inductive Pc (n : ℕ)
  /-- `pump_matrix`: pop from inbox `src`. -/
  | pump (c : PumpCaller n) (progressed : Bool) (src : ℕ)
  /-- `pump_matrix`: insert a forwarded put. -/
  | insert (c : PumpCaller n) (src : ℕ) (key val : Bytes)
  /-- `pump_matrix`: look a key up. -/
  | answer (c : PumpCaller n) (src : ℕ) (key : Bytes) (dst : Fin n) (token : ℕ)
  /-- `pump_matrix`: push the reply. -/
  | reply (c : PumpCaller n) (src : ℕ) (dst : Fin n) (r : Reply)
  /-- `collect_replies`: pop from reply queue `src`. -/
  | collect (c : CollectCaller n) (progressed : Bool) (src : ℕ)
  /-- `fulfill`: store the value. -/
  | fulfillValue (c : FulfillCaller n) (id : ℕ) (val : Option Bytes)
  /-- `fulfill`: store `done`. -/
  | fulfillDone (c : FulfillCaller n) (id : ℕ)
  /-- `drain_ingress`: detach the stack. -/
  | swap (progressed : Bool)
  /-- `drain_ingress`: move request `id` of the detached chain into the batch. -/
  | walk (id : ℕ) (reqs : List ℕ)
  /-- `drain_ingress`: serve the next request of the batch. -/
  | serve (reqs : List ℕ)
  /-- `drain_ingress`: push a command to the owner of its key. -/
  | forward (cmd : Command n) (ack : Option ℕ) (rest : List ℕ)
  /-- `service_loop`: load `stop`. -/
  | loadStop (progressed : Bool)
  /-- `service_loop`: the last look at the ingress when shutting down. -/
  | loadHead
  | exited

/-- `ServiceWorker`, without the endpoints of its queues. -/
structure Worker (n : ℕ) where
  shard : Shard
  /-- `client_waiters`: token and request. -/
  waiters : List (ℕ × ℕ)
  nextToken : ℕ
  pc : Pc n

/-- The workers, the matrices, `ServiceShared` and the clients.  `hist` is the history of the calls,
`fulfilled` the log of the calls of `fulfill`. -/
structure State (τ : Type) (n : ℕ) where
  reqs : Heap
  ingress : Fin n → Option ℕ
  stop : Bool
  cmd : Fin n × Fin n → List (Command n)
  reply : Fin n × Fin n → List Reply
  workers : Fin n → Worker n
  clients : τ → ClientPc n
  hist : List (Event ClientOp (Option Bytes))
  fulfilled : List (ℕ × Option Bytes)

/-- What a client may do next.  The flag of `run` is only looked at by `compare_exchange_weak`,
which fails spuriously when it is `false`. -/
inductive ClientAct (n : ℕ)
  | put (key val : Bytes)
  | get (key : Bytes)
  | getRoundRobin (key : Bytes) (accept : Fin n)
  | run (strong : Bool)

inductive Label (τ : Type) (n : ℕ)
  | client (t : τ) (a : ClientAct n)
  | worker (i : Fin n)
  /-- `shutdown` stores `stop`. -/
  | stop

/-! ## The heap of requests -/

namespace Heap

def opOf (h : Heap) : ℕ → ClientOp := readField (.get []) Request.op h
def nextOf (h : Heap) : ℕ → Option ℕ := readField none Request.next h
def doneOf (h : Heap) : ℕ → Bool := readField false Request.done h
def valueOf (h : Heap) : ℕ → Option Bytes := readField none Request.value h

def setNext (h : Heap) (id : ℕ) (x : Option ℕ) : Heap := h.modify id fun r => { r with next := x }
def setDone (h : Heap) (id : ℕ) : Heap := h.modify id fun r => { r with done := true }
def setValue (h : Heap) (id : ℕ) (v : Option Bytes) : Heap :=
  h.modify id fun r => { r with value := v }

variable (h : Heap) {id id' : ℕ}

@[simp] theorem length_setNext (x : Option ℕ) : (h.setNext id x).length = h.length :=
  List.length_modify ..
@[simp] theorem length_setDone : (h.setDone id).length = h.length := List.length_modify ..
@[simp] theorem length_setValue (v : Option Bytes) : (h.setValue id v).length = h.length :=
  List.length_modify ..

@[simp] theorem opOf_setNext (x : Option ℕ) : (h.setNext id x).opOf = h.opOf := by
  apply readField_modify_of_eq
  exact fun _ => rfl
@[simp] theorem opOf_setDone : (h.setDone id).opOf = h.opOf := by
  apply readField_modify_of_eq
  exact fun _ => rfl
@[simp] theorem opOf_setValue (v : Option Bytes) : (h.setValue id v).opOf = h.opOf := by
  apply readField_modify_of_eq
  exact fun _ => rfl
@[simp] theorem nextOf_setDone : (h.setDone id).nextOf = h.nextOf := by
  apply readField_modify_of_eq
  exact fun _ => rfl
@[simp] theorem nextOf_setValue (v : Option Bytes) : (h.setValue id v).nextOf = h.nextOf := by
  apply readField_modify_of_eq
  exact fun _ => rfl
@[simp] theorem doneOf_setNext (x : Option ℕ) : (h.setNext id x).doneOf = h.doneOf := by
  apply readField_modify_of_eq
  exact fun _ => rfl
@[simp] theorem doneOf_setValue (v : Option Bytes) : (h.setValue id v).doneOf = h.doneOf := by
  apply readField_modify_of_eq
  exact fun _ => rfl
@[simp] theorem valueOf_setNext (x : Option ℕ) : (h.setNext id x).valueOf = h.valueOf := by
  apply readField_modify_of_eq
  exact fun _ => rfl
@[simp] theorem valueOf_setDone : (h.setDone id).valueOf = h.valueOf := by
  apply readField_modify_of_eq
  exact fun _ => rfl

theorem nextOf_setNext_self (hid : id < h.length) (x : Option ℕ) :
    (h.setNext id x).nextOf id = x :=
  readField_modify_self (f := fun r : Request => { r with next := x }) (g := fun _ => x)
    (fun _ => rfl) hid
theorem nextOf_setNext_of_ne (hne : id ≠ id') (x : Option ℕ) :
    (h.setNext id x).nextOf id' = h.nextOf id' :=
  readField_modify_of_ne hne
theorem doneOf_setDone_self (hid : id < h.length) : (h.setDone id).doneOf id = true :=
  readField_modify_self (f := fun r : Request => { r with done := true }) (g := fun _ => true)
    (fun _ => rfl) hid
theorem doneOf_setDone_of_ne (hne : id ≠ id') : (h.setDone id).doneOf id' = h.doneOf id' :=
  readField_modify_of_ne hne
theorem valueOf_setValue_self (hid : id < h.length) (v : Option Bytes) :
    (h.setValue id v).valueOf id = v :=
  readField_modify_self (f := fun r : Request => { r with value := v }) (g := fun _ => v)
    (fun _ => rfl) hid
theorem valueOf_setValue_of_ne (hne : id ≠ id') (v : Option Bytes) :
    (h.setValue id v).valueOf id' = h.valueOf id' :=
  readField_modify_of_ne hne

end Heap

/-! ## Steps -/

section Step

variable {τ : Type} {n : ℕ}

/-- `token` of a forwarded `Get`: the worker in the upper bits, its counter in the lower ones. -/
def tokenOf (i : Fin n) (c : ℕ) : ℕ := (i * 2 ^ 48 % 2 ^ 64) ||| c

/-- Move worker `i` to another program point. -/
def State.goto (s : State τ n) (i : Fin n) (pc : Pc n) : State τ n :=
  { s with workers := Function.update s.workers i { s.workers i with pc := pc } }

@[simp] theorem goto_pc_self (s : State τ n) (i : Fin n) (pc : Pc n) :
    ((s.goto i pc).workers i).pc = pc := by
  simp [State.goto]

@[simp] theorem goto_waiters (s : State τ n) (i j : Fin n) (pc : Pc n) :
    ((s.goto i pc).workers j).waiters = (s.workers j).waiters := by
  by_cases h : j = i
  · subst h
    simp [State.goto]
  · simp [State.goto, h]

@[simp] theorem goto_goto (s : State τ n) (i : Fin n) (pc pc' : Pc n) :
    (s.goto i pc).goto i pc' = s.goto i pc' := by
  simp [State.goto]

theorem goto_self (s : State τ n) (i : Fin n) : s.goto i (s.workers i).pc = s := by
  simp [State.goto]

theorem goto_workers_of_ne (s : State τ n) {i j : Fin n} (h : j ≠ i) (pc : Pc n) :
    (s.goto i pc).workers j = s.workers j := Function.update_of_ne h ..

def State.setCmd (s : State τ n) (ij : Fin n × Fin n) (q : List (Command n)) : State τ n :=
  { s with cmd := Function.update s.cmd ij q }

def State.setReply (s : State τ n) (ij : Fin n × Fin n) (q : List Reply) : State τ n :=
  { s with reply := Function.update s.reply ij q }

/-- What follows `pump_matrix`; its answer only matters to the service loop. -/
def PumpCaller.resume (progressed : Bool) : PumpCaller n → Pc n
  | .loop => .swap progressed
  | .forward cmd ack rest => .forward cmd ack rest

/-- What follows `collect_replies`. -/
def CollectCaller.resume (collected : Bool) : CollectCaller n → Pc n
  | .pump c progressed => c.resume (progressed || collected)
  | .reply c src dst r => .reply c src dst r

/-- What follows `fulfill`. -/
def FulfillCaller.resume : FulfillCaller n → Pc n
  | .collect c src => .collect c true src
  | .serve rest => .serve rest

/-- The loop over the detached chain. -/
def walkFrom (reqs : List ℕ) : Option ℕ → Pc n
  | none => .serve reqs
  | some id => .walk id reqs

/-- `drain_ingress` with request `id` at hand. -/
def serveRequest [NeZero n] (s : State τ n) (i : Fin n) (id : ℕ) (rest : List ℕ) : State τ n :=
  let w := s.workers i
  match s.reqs.opOf id with
  | .put key val =>
      if owner n key = i then
        { s with workers := Function.update s.workers i { w with
            shard := w.shard.insert key val
            pc := .fulfillValue (.serve rest) id none } }
      else s.goto i (.forward (.put key val) (some id) rest)
  | .get key =>
      if owner n key = i then s.goto i (.fulfillValue (.serve rest) id (w.shard key))
      else
        { s with workers := Function.update s.workers i { w with
            waiters := (tokenOf i w.nextToken, id) ::
              w.waiters.filter (·.1 ≠ tokenOf i w.nextToken)
            nextToken := w.nextToken + 1
            pc := .forward (.get key i (tokenOf i w.nextToken)) none rest } }

/-- `collect_replies` with a reply at hand: remove the waiter of its token and fulfill it. -/
def matchReply (s : State τ n) (i : Fin n) (c : CollectCaller n) (src : ℕ) (r : Reply) : State τ n :=
  let w := s.workers i
  match w.waiters.lookup r.token with
  | none => s.goto i (.collect c true src)
  | some id =>
      { s with workers := Function.update s.workers i { w with
          waiters := w.waiters.filter (·.1 ≠ r.token)
          pc := .fulfillValue (.collect c src) id r.val } }

/-- One step of worker `i`; queues hold at most `cap` elements. -/
def stepWorker [NeZero n] (cap : ℕ) (s : State τ n) (i : Fin n) : Option (State τ n) :=
  match (s.workers i).pc with
  | .pump c progressed src =>
      if h : src < n then
        match s.cmd (⟨src, h⟩, i) with
        | [] => some (s.goto i (.pump c progressed (src + 1)))
        | .put key val :: q => some ((s.setCmd (⟨src, h⟩, i) q).goto i (.insert c src key val))
        | .get key dst token :: q =>
            some ((s.setCmd (⟨src, h⟩, i) q).goto i (.answer c src key dst token))
      else some (s.goto i (.collect (.pump c progressed) false 0))
  | .insert c src key val =>
      some { s with workers := Function.update s.workers i { s.workers i with
        shard := (s.workers i).shard.insert key val
        pc := .pump c true src } }
  | .answer c src key dst token =>
      some (s.goto i (.reply c src dst { token, val := (s.workers i).shard key }))
  | .reply c src dst r =>
      if (s.reply (i, dst)).length < cap then
        some ((s.setReply (i, dst) (s.reply (i, dst) ++ [r])).goto i (.pump c true src))
      -- the reply ring is full: only replies are collected before the next try
      else some (s.goto i (.collect (.reply c src dst r) false 0))
  | .collect c progressed src =>
      if h : src < n then
        match s.reply (⟨src, h⟩, i) with
        | [] => some (s.goto i (.collect c progressed (src + 1)))
        | r :: q => some (matchReply (s.setReply (⟨src, h⟩, i) q) i c src r)
      else some (s.goto i (c.resume progressed))
  | .fulfillValue c id val =>
      some { s.goto i (.fulfillDone c id) with
        reqs := s.reqs.setValue id val
        fulfilled := s.fulfilled ++ [(id, val)] }
  | .fulfillDone c id => some { s.goto i c.resume with reqs := s.reqs.setDone id }
  | .swap progressed =>
      match s.ingress i with
      | none => some (s.goto i (.loadStop progressed))
      | some id => some { s.goto i (.walk id []) with ingress := Function.update s.ingress i none }
  | .walk id reqs => some (s.goto i (walkFrom (reqs ++ [id]) (s.reqs.nextOf id)))
  | .serve [] => some (s.goto i (.loadStop true))
  | .serve (id :: rest) => some (serveRequest s i id rest)
  | .forward cmd ack rest =>
      let ij := (i, owner n cmd.key)
      if (s.cmd ij).length < cap then
        -- a forwarded put is acknowledged here, a forwarded get by its reply
        some ((s.setCmd ij (s.cmd ij ++ [cmd])).goto i (match ack with
          | none => .serve rest
          | some id => .fulfillValue (.serve rest) id none))
      -- the command ring is full: the whole matrix is pumped before the next try
      else some (s.goto i (.pump (.forward cmd ack rest) false 0))
  | .loadStop progressed =>
      if s.stop = true ∧ progressed = false ∧ (s.workers i).waiters = [] then
        some (s.goto i .loadHead)
      else some (s.goto i (.pump .loop false 0))
  | .loadHead => some (s.goto i (if s.ingress i = none then .exited else .pump .loop false 0))
  | .exited => none

variable [DecidableEq τ]

/-- Move client `t` to another program point. -/
def State.clientGoto (s : State τ n) (t : τ) (pc : ClientPc n) : State τ n :=
  { s with clients := Function.update s.clients t pc }

/-- `submit_to`: box the request and its completion. -/
def submitTo (s : State τ n) (t : τ) (accept : Fin n) (op : ClientOp) : Option (State τ n) :=
  if s.clients t = .idle then
    some { s.clientGoto t (.push accept s.reqs.length) with
      reqs := s.reqs ++ [{ op, next := none, done := false, value := none }]
      hist := s.hist ++ [.inv s.reqs.length op] }
  else none

/-- A client starts a call or takes the next step of the one it is in. -/
def stepClient [NeZero n] (s : State τ n) (t : τ) (a : ClientAct n) : Option (State τ n) :=
  match a with
  | .put key val => submitTo s t (owner n key) (.put key val)
  | .get key => submitTo s t (owner n key) (.get key)
  | .getRoundRobin key accept => submitTo s t accept (.get key)
  | .run strong =>
      match s.clients t with
      | .idle => none
      | .push accept id =>
          some { s.clientGoto t (.cas accept id (s.ingress accept)) with
            reqs := s.reqs.setNext id (s.ingress accept) }
      | .cas accept id head =>
          if strong = true ∧ s.ingress accept = head then
            some { s.clientGoto t (.wait id) with
              ingress := Function.update s.ingress accept (some id) }
          else some (s.clientGoto t (.push accept id))
      | .wait id => some (if s.reqs.doneOf id then s.clientGoto t (.take id) else s)
      | .take id =>
          some { s.clientGoto t .idle with
            reqs := s.reqs.setValue id none
            hist := s.hist ++ [.res id (s.reqs.valueOf id)] }

def step [NeZero n] (cap : ℕ) (s : State τ n) : Label τ n → Option (State τ n)
  | .client t a => stepClient s t a
  | .worker i => stepWorker cap s i
  | .stop => some { s with stop := true }

end Step

/-- `MeshService::start`. -/
def State.new (τ : Type) (n : ℕ) : State τ n where
  reqs := []
  ingress := fun _ => none
  stop := false
  cmd := fun _ => []
  reply := fun _ => []
  workers := fun _ =>
    { shard := fun _ => none, waiters := [], nextToken := 0, pc := .pump .loop false 0 }
  clients := fun _ => .idle
  hist := []
  fulfilled := []

/-- The service with `n` workers and any number of clients. -/
def machine (τ : Type) [DecidableEq τ] (n : ℕ) [NeZero n] (cap : ℕ) :
    Machine (State τ n) (Label τ n) :=
  .ofFn (.new τ n) (step cap)

/-! ## What a step can be -/

variable {τ : Type} {n : ℕ} [NeZero n]

/-- The worker that accepts a request: a put always goes to the owner of its key. -/
def Routed (op : ClientOp) (accept : Fin n) : Prop :=
  match op with
  | .put key _ => owner n key = accept
  | .get _ => True

/-- The steps of a worker that only move its program point: turns of its loops that find nothing, or
no room. -/
inductive Scan (cap : ℕ) (s : State τ n) (i : Fin n) : Pc n → Pc n → Prop
  | pumpEmpty {c p} {j : Fin n} (hq : s.cmd (j, i) = []) :
      Scan cap s i (.pump c p j) (.pump c p (j + 1))
  | pumpEnd {c p src} (hsrc : n ≤ src) :
      Scan cap s i (.pump c p src) (.collect (.pump c p) false 0)
  | replyFull {c src dst r} (hcap : cap ≤ (s.reply (i, dst)).length) :
      Scan cap s i (.reply c src dst r) (.collect (.reply c src dst r) false 0)
  | collectEmpty {c p} {j : Fin n} (hq : s.reply (j, i) = []) :
      Scan cap s i (.collect c p j) (.collect c p (j + 1))
  | collectEnd {c p src} (hsrc : n ≤ src) : Scan cap s i (.collect c p src) (c.resume p)
  | swapNone {p} (hin : s.ingress i = none) : Scan cap s i (.swap p) (.loadStop p)
  | serveNil : Scan cap s i (.serve []) (.loadStop true)
  | forwardFull {cmd ack rest} (hcap : cap ≤ (s.cmd (i, owner n cmd.key)).length) :
      Scan cap s i (.forward cmd ack rest) (.pump (.forward cmd ack rest) false 0)
  | stopSeen (hstop : s.stop = true) (hw : (s.workers i).waiters = []) :
      Scan cap s i (.loadStop false) .loadHead
  | again {p} (hgo : ¬ (s.stop = true ∧ p = false ∧ (s.workers i).waiters = [])) :
      Scan cap s i (.loadStop p) (.pump .loop false 0)
  | exit (hin : s.ingress i = none) : Scan cap s i .loadHead .exited
  | notEmpty (hin : s.ingress i ≠ none) : Scan cap s i .loadHead (.pump .loop false 0)

/-- The steps of a worker that do something, each with its guard and its effect. -/
inductive Act (cap : ℕ) (s : State τ n) (i : Fin n) : State τ n → Prop
  | pumpPut {c p key val q} {j : Fin n} (hpc : (s.workers i).pc = .pump c p j)
      (hq : s.cmd (j, i) = .put key val :: q) :
      Act cap s i ((s.setCmd (j, i) q).goto i (.insert c j key val))
  | pumpGet {c p key dst token q} {j : Fin n} (hpc : (s.workers i).pc = .pump c p j)
      (hq : s.cmd (j, i) = .get key dst token :: q) :
      Act cap s i ((s.setCmd (j, i) q).goto i (.answer c j key dst token))
  | insert {c src key val} (hpc : (s.workers i).pc = .insert c src key val) :
      Act cap s i { s with workers := Function.update s.workers i { s.workers i with
        shard := (s.workers i).shard.insert key val
        pc := .pump c true src } }
  | answer {c src key dst token} (hpc : (s.workers i).pc = .answer c src key dst token) :
      Act cap s i (s.goto i (.reply c src dst { token, val := (s.workers i).shard key }))
  | replyOk {c src dst r} (hpc : (s.workers i).pc = .reply c src dst r)
      (hcap : (s.reply (i, dst)).length < cap) :
      Act cap s i
        ((s.setReply (i, dst) (s.reply (i, dst) ++ [r])).goto i (.pump c true src))
  | collectMiss {c p r q} {j : Fin n} (hpc : (s.workers i).pc = .collect c p j)
      (hq : s.reply (j, i) = r :: q) (hw : (s.workers i).waiters.lookup r.token = none) :
      Act cap s i ((s.setReply (j, i) q).goto i (.collect c true j))
  | collectHit {c p r q id} {j : Fin n} (hpc : (s.workers i).pc = .collect c p j)
      (hq : s.reply (j, i) = r :: q) (hw : (s.workers i).waiters.lookup r.token = some id) :
      Act cap s i
        { s.setReply (j, i) q with workers := Function.update s.workers i { s.workers i with
          waiters := (s.workers i).waiters.filter (·.1 ≠ r.token)
          pc := .fulfillValue (.collect c j) id r.val } }
  | fulfillValue {c id val} (hpc : (s.workers i).pc = .fulfillValue c id val) :
      Act cap s i { s.goto i (.fulfillDone c id) with
        reqs := s.reqs.setValue id val
        fulfilled := s.fulfilled ++ [(id, val)] }
  | fulfillDone {c id} (hpc : (s.workers i).pc = .fulfillDone c id) :
      Act cap s i { s.goto i c.resume with reqs := s.reqs.setDone id }
  | swapSome {p id} (hpc : (s.workers i).pc = .swap p) (hin : s.ingress i = some id) :
      Act cap s i
        { s.goto i (.walk id []) with ingress := Function.update s.ingress i none }
  | walk {id reqs} (hpc : (s.workers i).pc = .walk id reqs) :
      Act cap s i (s.goto i (walkFrom (reqs ++ [id]) (s.reqs.nextOf id)))
  | putLocal {id rest key val} (hpc : (s.workers i).pc = .serve (id :: rest))
      (hop : s.reqs.opOf id = .put key val) (ho : owner n key = i) :
      Act cap s i { s with workers := Function.update s.workers i { s.workers i with
        shard := (s.workers i).shard.insert key val
        pc := .fulfillValue (.serve rest) id none } }
  | putRemote {id rest key val} (hpc : (s.workers i).pc = .serve (id :: rest))
      (hop : s.reqs.opOf id = .put key val) (ho : owner n key ≠ i) :
      Act cap s i (s.goto i (.forward (.put key val) (some id) rest))
  | getLocal {id rest key} (hpc : (s.workers i).pc = .serve (id :: rest))
      (hop : s.reqs.opOf id = .get key) (ho : owner n key = i) :
      Act cap s i (s.goto i (.fulfillValue (.serve rest) id ((s.workers i).shard key)))
  | getRemote {id rest key} (hpc : (s.workers i).pc = .serve (id :: rest))
      (hop : s.reqs.opOf id = .get key) (ho : owner n key ≠ i) :
      Act cap s i { s with workers := Function.update s.workers i { s.workers i with
        waiters := (tokenOf i (s.workers i).nextToken, id) ::
          (s.workers i).waiters.filter (·.1 ≠ tokenOf i (s.workers i).nextToken)
        nextToken := (s.workers i).nextToken + 1
        pc := .forward (.get key i (tokenOf i (s.workers i).nextToken)) none rest } }
  | forwardGet {cmd rest} (hpc : (s.workers i).pc = .forward cmd none rest)
      (hcap : (s.cmd (i, owner n cmd.key)).length < cap) :
      Act cap s i ((s.setCmd (i, owner n cmd.key)
        (s.cmd (i, owner n cmd.key) ++ [cmd])).goto i (.serve rest))
  | forwardPut {cmd id rest} (hpc : (s.workers i).pc = .forward cmd (some id) rest)
      (hcap : (s.cmd (i, owner n cmd.key)).length < cap) :
      Act cap s i ((s.setCmd (i, owner n cmd.key)
        (s.cmd (i, owner n cmd.key) ++ [cmd])).goto i (.fulfillValue (.serve rest) id none))

/-- The steps of a worker. -/
inductive WorkerStep (cap : ℕ) (s : State τ n) (i : Fin n) : State τ n → Prop
  | scan {pc} (h : Scan cap s i (s.workers i).pc pc) : WorkerStep cap s i (s.goto i pc)
  | act {s'} (h : Act cap s i s') : WorkerStep cap s i s'

theorem workerStep_of_serve {cap : ℕ} {s : State τ n} {i : Fin n} {id : ℕ} {rest : List ℕ}
    (hpc : (s.workers i).pc = .serve (id :: rest)) :
    WorkerStep cap s i (serveRequest s i id rest) := by
  rw [serveRequest]
  split
  case h_1 key val hop =>
    split
    case isTrue ho => exact .act (.putLocal hpc hop ho)
    case isFalse ho => exact .act (.putRemote hpc hop ho)
  case h_2 key hop =>
    split
    case isTrue ho => exact .act (.getLocal hpc hop ho)
    case isFalse ho => exact .act (.getRemote hpc hop ho)

theorem workerStep_of_match {cap : ℕ} {s : State τ n} {i j : Fin n} {c : CollectCaller n} {p : Bool}
    {r : Reply} {q : List Reply} (hpc : (s.workers i).pc = .collect c p j)
    (hq : s.reply (j, i) = r :: q) :
    WorkerStep cap s i (matchReply (s.setReply (j, i) q) i c j r) := by
  rw [matchReply]
  split
  case h_1 hw => exact .act (.collectMiss hpc hq hw)
  case h_2 id hw => exact .act (.collectHit hpc hq hw)

theorem workerStep_of_step {cap : ℕ} {s s' : State τ n} {i : Fin n}
    (h : stepWorker cap s i = some s') : WorkerStep cap s i s' := by
  simp only [stepWorker] at h
  -- the cases are the program points in the order of `stepWorker`
  split at h
  case h_1 c p src hpc =>
    split at h
    case isTrue hsrc =>
      split at h
      case h_1 hq =>
        cases h
        exact .scan (hpc ▸ .pumpEmpty (j := ⟨src, hsrc⟩) hq)
      case h_2 key val q hq =>
        cases h
        exact .act (.pumpPut (j := ⟨src, hsrc⟩) hpc hq)
      case h_3 key dst token q hq =>
        cases h
        exact .act (.pumpGet (j := ⟨src, hsrc⟩) hpc hq)
    case isFalse hsrc =>
      cases h
      exact .scan (hpc ▸ .pumpEnd (Nat.le_of_not_lt hsrc))
  case h_4 c src dst r hpc =>
    split at h
    case isTrue hcap =>
      cases h
      exact .act (.replyOk hpc hcap)
    case isFalse hcap =>
      cases h
      exact .scan (hpc ▸ .replyFull (Nat.le_of_not_lt hcap))
  case h_5 c p src hpc =>
    split at h
    case isTrue hsrc =>
      split at h
      case h_1 hq =>
        cases h
        exact .scan (hpc ▸ .collectEmpty (j := ⟨src, hsrc⟩) hq)
      case h_2 r q hq =>
        cases h
        exact workerStep_of_match (j := ⟨src, hsrc⟩) hpc hq
    case isFalse hsrc =>
      cases h
      exact .scan (hpc ▸ .collectEnd (Nat.le_of_not_lt hsrc))
  case h_8 p hpc =>
    split at h
    case h_1 hin =>
      cases h
      exact .scan (hpc ▸ .swapNone hin)
    case h_2 id hin =>
      cases h
      exact .act (.swapSome hpc hin)
  case h_11 id rest hpc =>
    cases h
    exact workerStep_of_serve hpc
  case h_12 cmd ack rest hpc =>
    split at h
    case isTrue hcap =>
      cases h
      cases ack with
      | none => exact .act (.forwardGet hpc hcap)
      | some id => exact .act (.forwardPut hpc hcap)
    case isFalse hcap =>
      cases h
      exact .scan (hpc ▸ .forwardFull (Nat.le_of_not_lt hcap))
  case h_13 p hpc =>
    split at h
    case isTrue hc =>
      cases h
      obtain ⟨hstop, rfl, hw⟩ := hc
      exact .scan (hpc ▸ .stopSeen hstop hw)
    case isFalse hc =>
      cases h
      exact .scan (hpc ▸ .again hc)
  case h_14 hpc =>
    cases h
    by_cases hin : s.ingress i = none
    · rw [if_pos hin]
      exact .scan (hpc ▸ .exit hin)
    · rw [if_neg hin]
      exact .scan (hpc ▸ .notEmpty hin)
  case h_15 => cases h
  all_goals
    rename_i hpc
    cases h
    first
      | exact .act (.insert hpc)
      | exact .act (.answer hpc)
      | exact .act (.fulfillValue hpc)
      | exact .act (.fulfillDone hpc)
      | exact .act (.walk hpc)
      | exact .scan (hpc ▸ .serveNil)

theorem step_of_scan {cap : ℕ} {s : State τ n} {i : Fin n} {pc : Pc n}
    (h : Scan cap s i (s.workers i).pc pc) : stepWorker cap s i = some (s.goto i pc) := by
  generalize hpc : (s.workers i).pc = pc₀ at h
  cases h with
  | pumpEmpty hq | collectEmpty hq | exit hq | notEmpty hq | swapNone hq =>
      simp [stepWorker, hpc, hq]
  | stopSeen hstop hw => simp [stepWorker, hpc, hstop, hw]
  | pumpEnd hsrc | collectEnd hsrc => simp [stepWorker, hpc, Nat.not_lt.mpr hsrc]
  | replyFull hcap | forwardFull hcap => simp [stepWorker, hpc, Nat.not_lt.mpr hcap]
  | serveNil => simp [stepWorker, hpc]
  | again hgo => simp only [stepWorker, hpc, if_neg hgo]

theorem step_of_act {cap : ℕ} {s s' : State τ n} {i : Fin n} (h : Act cap s i s') :
    stepWorker cap s i = some s' := by
  cases h with
  | pumpPut hpc hq | pumpGet hpc hq => simp [stepWorker, hpc, hq]
  | collectMiss hpc hq hw | collectHit hpc hq hw =>
      simp [stepWorker, hpc, hq, matchReply, State.setReply, hw, State.goto]
  | replyOk hpc hcap | forwardGet hpc hcap | forwardPut hpc hcap => simp [stepWorker, hpc, hcap]
  | swapSome hpc hin => simp [stepWorker, hpc, hin]
  | putLocal hpc hop ho | putRemote hpc hop ho | getLocal hpc hop ho | getRemote hpc hop ho =>
      simp [stepWorker, hpc, serveRequest, hop, ho]
  | insert hpc | answer hpc | fulfillValue hpc | fulfillDone hpc | walk hpc => simp [stepWorker, hpc]

/-- The steps of a client one by one. -/
inductive ClientStep [DecidableEq τ] (s : State τ n) (t : τ) : State τ n → Prop
  | submit {accept op} (hpc : s.clients t = .idle) (hr : Routed op accept) :
      ClientStep s t { s.clientGoto t (.push accept s.reqs.length) with
        reqs := s.reqs ++ [{ op, next := none, done := false, value := none }]
        hist := s.hist ++ [.inv s.reqs.length op] }
  | push {accept id} (hpc : s.clients t = .push accept id) :
      ClientStep s t { s.clientGoto t (.cas accept id (s.ingress accept)) with
        reqs := s.reqs.setNext id (s.ingress accept) }
  | casOk {accept id head} (hpc : s.clients t = .cas accept id head)
      (hh : s.ingress accept = head) :
      ClientStep s t { s.clientGoto t (.wait id) with
        ingress := Function.update s.ingress accept (some id) }
  | casFail {accept id head} (hpc : s.clients t = .cas accept id head) :
      ClientStep s t (s.clientGoto t (.push accept id))
  | waitMore {id} (hpc : s.clients t = .wait id) : ClientStep s t s
  | waitDone {id} (hpc : s.clients t = .wait id) (hd : s.reqs.doneOf id = true) :
      ClientStep s t (s.clientGoto t (.take id))
  | take {id} (hpc : s.clients t = .take id) :
      ClientStep s t { s.clientGoto t .idle with
        reqs := s.reqs.setValue id none
        hist := s.hist ++ [.res id (s.reqs.valueOf id)] }

theorem clientStep_of_step [DecidableEq τ] {s s' : State τ n} {t : τ} {a : ClientAct n}
    (h : stepClient s t a = some s') : ClientStep s t s' := by
  have hsubmit : ∀ {accept op}, Routed op accept → submitTo s t accept op = some s' →
      ClientStep s t s' := by
    intro accept op hr h
    obtain ⟨hpc, rfl⟩ : s.clients t = .idle ∧ _ := by
      simpa [submitTo, Option.ite_none_right_eq_some] using h
    exact .submit hpc hr
  rcases a with ⟨key, val⟩ | key | ⟨key, accept⟩ | strong
  · exact hsubmit (show Routed (.put key val) (owner n key) from rfl) h
  · exact hsubmit (show Routed (.get key) (owner n key) from trivial) h
  · exact hsubmit (show Routed (.get key) accept from trivial) h
  · simp only [stepClient] at h
    split at h
    case h_1 => cases h
    case h_2 accept id hpc =>
      cases h
      exact .push hpc
    case h_3 accept id head hpc =>
      split at h
      case isTrue hc =>
        cases h
        exact .casOk hpc hc.2
      case isFalse =>
        cases h
        exact .casFail hpc
    case h_4 id hpc =>
      cases h
      split
      case isTrue hd => exact .waitDone hpc hd
      case isFalse => exact .waitMore hpc
    case h_5 id hpc =>
      cases h
      exact .take hpc

end ZeroKv.Mesh.Service
