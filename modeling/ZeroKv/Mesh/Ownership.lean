/-
# ZeroKv.Mesh.Ownership — where every request is.

From the call to the return, a request is in exactly one place: with the client that pushes it, on an
ingress or in the batch of a worker, on its way to the owner of its key as a command, on its way back
as a reply, or being fulfilled.  The map `loc` from requests to these locations is the invariant of
the service.  It ties a token to one request, and so a reply to the client that waits for it.

Only part of a worker's program point matters here, the requests and commands it has in its hands
(`View`); a step that leaves the view alone leaves the whole invariant alone.
-/
import ZeroKv.Lib.Placement
import ZeroKv.Mesh.Service

namespace ZeroKv.Mesh.Service

variable {τ : Type} {n : ℕ}

/-! ## What a worker has in its hands -/

/-- The work a program point holds. -/
structure View (n : ℕ) where
  /-- Requests drained from the ingress and not yet looked at. -/
  batch : List ℕ := []
  /-- The rest of the chain being drained. -/
  node : Option ℕ := none
  /-- The command being forwarded, and the request to acknowledge then. -/
  out : Option (Command n × Option ℕ) := none
  /-- The forwarded put being applied. -/
  ins : Option (Bytes × Bytes) := none
  /-- The `Get` being looked up: key, sender and token. -/
  ans : Option (Bytes × Fin n × ℕ) := none
  /-- The reply being pushed, and where to. -/
  hand : Option (Fin n × Reply) := none
  /-- The request being fulfilled, its value not yet stored. -/
  ready : Option (ℕ × Option Bytes) := none
  /-- The request being fulfilled, its value stored. -/
  filling : Option ℕ := none

def PumpCaller.view : PumpCaller n → View n
  | .loop => {}
  | .forward cmd ack rest => { batch := rest, out := some (cmd, ack) }

def CollectCaller.view : CollectCaller n → View n
  | .pump c _ => c.view
  | .reply c _ dst r => { c.view with hand := some (dst, r) }

def FulfillCaller.view : FulfillCaller n → View n
  | .collect c _ => c.view
  | .serve rest => { batch := rest }

def Pc.view : Pc n → View n
  | .pump c _ _ => c.view
  | .insert c _ key val => { c.view with ins := some (key, val) }
  | .answer c _ key dst token => { c.view with ans := some (key, dst, token) }
  | .reply c _ dst r => { c.view with hand := some (dst, r) }
  | .collect c _ _ => c.view
  | .fulfillValue c id val => { c.view with ready := some (id, val) }
  | .fulfillDone c id => { c.view with filling := some id }
  | .walk id reqs => { batch := reqs, node := some id }
  | .serve reqs => { batch := reqs }
  | .forward cmd ack rest => { batch := rest, out := some (cmd, ack) }
  | .swap _ | .loadStop _ | .loadHead | .exited => {}

@[simp] theorem resume_view_pump (c : PumpCaller n) (p : Bool) : (c.resume p).view = c.view := by
  cases c <;> rfl

@[simp] theorem resume_view_collect (c : CollectCaller n) (p : Bool) :
    (c.resume p).view = c.view := by
  rcases c with ⟨c, q⟩ | _
  · exact resume_view_pump c _
  · rfl

@[simp] theorem resume_view_fulfill (c : FulfillCaller n) : c.resume.view = c.view := by
  cases c <;> rfl

@[simp] theorem walkFrom_view (reqs : List ℕ) (x : Option ℕ) :
    (walkFrom reqs x : Pc n).view = { batch := reqs, node := x } := by
  cases x <;> rfl

/-- The part of the state that says where the requests are. -/
structure Snap (τ : Type) (n : ℕ) where
  reqs : Heap
  ingress : Fin n → Option ℕ
  cmd : Fin n × Fin n → List (Command n)
  reply : Fin n × Fin n → List Reply
  view : Fin n → View n
  waiters : Fin n → List (ℕ × ℕ)
  nextToken : Fin n → ℕ
  clients : τ → ClientPc n

def State.snap (s : State τ n) : Snap τ n where
  reqs := s.reqs
  ingress := s.ingress
  cmd := s.cmd
  reply := s.reply
  view i := (s.workers i).pc.view
  waiters i := (s.workers i).waiters
  nextToken i := (s.workers i).nextToken
  clients := s.clients

/-! ## Locations -/

/-- Where a request is, with what is known about it there. -/
inductive Loc (n : ℕ)
  | unborn
  /-- Its client is pushing it. -/
  | pushing
  /-- On the ingress of `a`, or in its batch. -/
  | queued (a : Fin n)
  /-- Forwarded by `a` under token `t`: the command is in the hands of `a`. -/
  | out (a : Fin n) (t : ℕ)
  /-- The command is in the queue from `a` to `b`. -/
  | cmd (a b : Fin n) (t : ℕ)
  /-- The command is being looked up by `b`. -/
  | ans (b a : Fin n) (t : ℕ)
  /-- The answer `v` is in the hands of `b`. -/
  | hand (b a : Fin n) (t : ℕ) (v : Option Bytes)
  /-- The answer is in the queue from `b` to `a`. -/
  | sent (b a : Fin n) (t : ℕ) (v : Option Bytes)
  /-- `a` is about to store the answer. -/
  | ready (a : Fin n) (v : Option Bytes)
  /-- `a` has stored the answer and is about to say so. -/
  | filling (a : Fin n) (v : Option Bytes)
  | done (v : Option Bytes)

/-- The places work is found at. -/
inductive Place (n : ℕ)
  | queued (a : Fin n)
  | out (a : Fin n)
  | cmd (a b : Fin n)
  /-- A forwarded put being applied; no request is ever there. -/
  | ins (b : Fin n)
  | ans (b : Fin n)
  | hand (b : Fin n)
  | sent (b a : Fin n)
  | ready (a : Fin n)
  | filling (a : Fin n)
deriving DecidableEq

/-- What is found there. -/
inductive Item (n : ℕ)
  | id (id : ℕ)
  | cmd (c : Command n) (ack : Option ℕ)
  | put (key val : Bytes)
  | ask (key : Bytes) (dst : Fin n) (token : ℕ)
  | rep (dst : Fin n) (r : Reply)
  | fill (id : ℕ) (v : Option Bytes)

namespace Loc

def place : Loc n → Option (Place n)
  | .queued a => some (.queued a)
  | .out a _ => some (.out a)
  | .cmd a b _ => some (.cmd a b)
  | .ans b _ _ => some (.ans b)
  | .hand b _ _ _ => some (.hand b)
  | .sent b a _ _ => some (.sent b a)
  | .ready a _ => some (.ready a)
  | .filling a _ => some (.filling a)
  | .unborn | .pushing | .done _ => none

/-- What a request for `key` looks like. -/
def item (key : Bytes) (id : ℕ) : Loc n → Item n
  | .out a t | .cmd a _ t => .cmd (.get key a t) none
  | .ans _ a t => .ask key a t
  | .hand _ a t v | .sent _ a t v => .rep a { token := t, val := v }
  | .ready _ v => .fill id v
  | .queued _ | .filling _ _ | .unborn | .pushing | .done _ => .id id

/-- The worker that forwarded a request, and the token it used. -/
def forwarded : Loc n → Option (Fin n × ℕ)
  | .out a t | .cmd a _ t | .ans _ a t | .hand _ a t _ | .sent _ a t _ => some (a, t)
  | _ => none

/-- The answer, from the moment the shard was looked at. -/
def answer : Loc n → Option (Option Bytes)
  | .hand _ _ _ v | .sent _ _ _ v | .ready _ v | .filling _ v | .done v => some v
  | _ => none

/-- The worker that must own the key. -/
def serving : Loc n → Option (Fin n)
  | .cmd _ b _ | .ans b _ _ => some b
  | _ => none

end Loc

theorem Loc.forwarded_of_place {l : Loc n} (h : l.place = none) : l.forwarded = none := by
  cases l with
  | unborn | pushing | queued _ | ready _ _ | filling _ _ | done _ => rfl
  | _ => cases h

/-- Everything found at a place. -/
def Snap.listAt (k : Snap τ n) (stack chain : Fin n → List ℕ) : Place n → List (Item n)
  | .queued a => (stack a ++ (chain a ++ (k.view a).batch)).map .id
  | .out a => (k.view a).out.toList.map fun x => .cmd x.1 x.2
  | .cmd a b => (k.cmd (a, b)).map fun c => .cmd c none
  | .ins b => (k.view b).ins.toList.map fun x => .put x.1 x.2
  | .ans b => (k.view b).ans.toList.map fun x => .ask x.1 x.2.1 x.2.2
  | .hand b => (k.view b).hand.toList.map fun x => .rep x.1 x.2
  | .sent b a => (k.reply (b, a)).map fun r => .rep a r
  | .ready a => (k.view a).ready.toList.map fun x => .fill x.1 x.2
  | .filling a => (k.view a).filling.toList.map .id

/-- The same without order. -/
def Snap.at (k : Snap τ n) (stack chain : Fin n → List ℕ) (r : Place n) : Multiset (Item n) :=
  ↑(k.listAt stack chain r)

/-- One item at one place. -/
def only (p : Place n) (x : Item n) (r : Place n) : Multiset (Item n) := if p = r then {x} else 0

theorem only_of_ne {p r : Place n} (h : p ≠ r) (x : Item n) : only p x r = 0 := if_neg h

theorem only_self (p : Place n) (x : Item n) : only p x p = {x} := if_pos rfl

/-- A request where it is. -/
def Loc.mark (key : Bytes) (id : ℕ) (l : Loc n) (r : Place n) : Multiset (Item n) :=
  if l.place = some r then {l.item key id} else 0

theorem Loc.mark_of_place {key : Bytes} {id : ℕ} {l : Loc n} {p : Place n} (h : l.place = some p)
    (r : Place n) : l.mark key id r = only p (l.item key id) r := by
  simp [Loc.mark, only, h]

theorem Loc.mark_of_none {key : Bytes} {id : ℕ} {l : Loc n} (h : l.place = none) (r : Place n) :
    l.mark key id r = 0 := by
  simp [Loc.mark, h]

/-! ## The invariant -/

section

variable [NeZero n]

/-- What the location of a request says about it. -/
structure LocOk (k : Snap τ n) (id : ℕ) (l : Loc n) : Prop where
  born : l = .unborn ↔ k.reqs.length ≤ id
  routed : ∀ a, l = .queued a → Routed (k.reqs.opOf id) a
  get : ∀ at', l.forwarded = some at' → ∃ key, k.reqs.opOf id = .get key
  token : ∀ a t, l.forwarded = some (a, t) → ∃ c < k.nextToken a, t = tokenOf a c
  owned : ∀ b, l.serving = some b → owner n (k.reqs.opOf id).key = b
  value : ∀ a v, l = .filling a v → k.reqs.valueOf id = v
  done : k.reqs.doneOf id = true ↔ ∃ v, l = .done v

/-- What a client's program point says about its request. -/
def ClientOk (k : Snap τ n) (loc : ℕ → Loc n) : ClientPc n → Prop
  | .idle => True
  | .push accept id => loc id = .pushing ∧ Routed (k.reqs.opOf id) accept
  | .cas accept id head =>
      (loc id = .pushing ∧ Routed (k.reqs.opOf id) accept) ∧ k.reqs.nextOf id = head
  | .wait id => (loc id ≠ .unborn ∧ loc id ≠ .pushing) ∧ ∀ v, loc id = .done v → k.reqs.valueOf id = v
  | .take id => loc id = .done (k.reqs.valueOf id)

/-- The request a client is in a call for. -/
def ClientPc.request : ClientPc n → Option ℕ
  | .idle => none
  | .push _ id | .cas _ id _ | .wait id | .take id => some id

structure Owned (k : Snap τ n) (loc : ℕ → Loc n) (stack chain : Fin n → List ℕ) : Prop where
  held : Holds Loc.place (fun id => Loc.item (k.reqs.opOf id).key id) (k.at stack chain) loc
  ok : ∀ id, LocOk k id (loc id)
  stacked : ∀ a, Linked k.reqs.nextOf (k.ingress a) (stack a)
  chained : ∀ a, Linked k.reqs.nextOf (k.view a).node (chain a)
  waiting : ∀ a t id, (t, id) ∈ k.waiters a ↔ (loc id).forwarded = some (a, t)
  tokens : ∀ a, ((k.waiters a).map Prod.fst).Nodup
  client : ∀ t, ClientOk k loc (k.clients t)
  apart : ∀ t u id, (k.clients t).request = some id → (k.clients u).request = some id → t = u
  pushing : ∀ id, loc id = .pushing → ∃ t, (k.clients t).request = some id

variable {k k' : Snap τ n} {loc : ℕ → Loc n} {stack chain stack' chain' : Fin n → List ℕ}

/-- Where no worker has a request, its location says only whether it is done. -/
theorem LocOk.idle {id : ℕ} {l : Loc n} (hborn : l = .unborn ↔ k.reqs.length ≤ id) (hl : l.place = none)
    (hdone : k.reqs.doneOf id = true ↔ ∃ v, l = .done v) : LocOk k id l where
  born := hborn
  routed a ha := by
    subst ha
    cases hl
  get at' hf := by
    rw [Loc.forwarded_of_place hl] at hf
    cases hf
  token a t hf := by
    rw [Loc.forwarded_of_place hl] at hf
    cases hf
  owned b hs := by
    cases l with
    | cmd | ans => cases hl
    | _ => cases hs
  value a v hv := by
    subst hv
    cases hl
  done := hdone

/-- A request that is pushed goes to a worker it may go to. -/
theorem LocOk.queued {id : ℕ} {a : Fin n} (h : LocOk k id .pushing) (hr : Routed (k.reqs.opOf id) a) :
    LocOk k id (.queued a) where
  born := by simpa using h.born
  routed := by
    rintro b ⟨⟩
    exact hr
  get := by simp [Loc.forwarded]
  token := by simp [Loc.forwarded]
  owned := by simp [Loc.serving]
  value := by simp
  done := by simpa using h.done

/-- What a location says about a request survives writes to other requests. -/
theorem LocOk.mono {id : ℕ} {l : Loc n} (h : LocOk k id l)
    (hlen : k'.reqs.length ≤ id ↔ k.reqs.length ≤ id) (hop : k'.reqs.opOf id = k.reqs.opOf id)
    (hdone : k'.reqs.doneOf id = k.reqs.doneOf id)
    (hval : k'.reqs.valueOf id = k.reqs.valueOf id) (htok : ∀ a, k.nextToken a ≤ k'.nextToken a) :
    LocOk k' id l where
  born := by rw [hlen, h.born]
  routed a ha := hop ▸ h.routed a ha
  get at' ha := hop ▸ h.get at' ha
  token a t ha := by
    obtain ⟨c, hc, ht⟩ := h.token a t ha
    exact ⟨c, hc.trans_le (htok a), ht⟩
  owned b hb := hop ▸ h.owned b hb
  value a v hv := hval.trans (h.value a v hv)
  done := by rw [hdone, h.done]

/-- A worker moves request `id`, which it has in its hands, to `l`. -/
theorem Owned.move {id : ℕ} {l : Loc n} (h : Owned k loc stack chain)
    (hold : (loc id).place ≠ none) (hnew : l ≠ .unborn ∧ l ≠ .pushing)
    (hlen : k'.reqs.length = k.reqs.length) (hop : k'.reqs.opOf = k.reqs.opOf)
    (hnext : k'.reqs.nextOf = k.reqs.nextOf)
    (hdone : ∀ j, j ≠ id → k'.reqs.doneOf j = k.reqs.doneOf j)
    (hval : ∀ j, j ≠ id → k'.reqs.valueOf j = k.reqs.valueOf j)
    (htok : ∀ a, k.nextToken a ≤ k'.nextToken a) (hcl : k'.clients = k.clients)
    (hat : ∀ r, k'.at stack' chain' r + (loc id).mark (k.reqs.opOf id).key id r =
      k.at stack chain r + l.mark (k.reqs.opOf id).key id r)
    (hok : LocOk k' id l) (hst : ∀ a, Linked k.reqs.nextOf (k'.ingress a) (stack' a))
    (hch : ∀ a, Linked k.reqs.nextOf (k'.view a).node (chain' a))
    (hwait : ∀ a t j, (t, j) ∈ k'.waiters a ↔ (Function.update loc id l j).forwarded = some (a, t))
    (htoks : ∀ a, ((k'.waiters a).map Prod.fst).Nodup)
    (hvalue : ∀ v, l = .done v → k'.reqs.valueOf id = v) :
    Owned k' (Function.update loc id l) stack' chain' where
  held := by
    have := h.held.move hat
    simpa only [hop] using this
  ok j := by
    by_cases hj : j = id
    · subst hj
      simpa using hok
    · rw [Function.update_of_ne hj]
      exact (h.ok j).mono (by rw [hlen]) (congrFun hop j) (hdone j hj) (hval j hj) htok
  stacked a := hnext ▸ hst a
  chained a := hnext ▸ hch a
  waiting := hwait
  tokens := htoks
  client t := by
    have hc := h.client t
    rw [← hcl] at hc
    -- `id` is with a worker, so no client is pushing it and none has its value
    have hpush : ∀ j, loc j = .pushing → j ≠ id := by
      rintro j hj rfl
      exact hold (by rw [hj]; rfl)
    have htake : ∀ j v, loc j = .done v → j ≠ id := by
      rintro j v hj rfl
      exact hold (by rw [hj]; rfl)
    cases hpc : k'.clients t with
    | idle => trivial
    | push a j =>
        rw [hpc] at hc
        refine ⟨?_, hop ▸ hc.2⟩
        rw [Function.update_of_ne (hpush j hc.1), hc.1]
    | cas a j head =>
        rw [hpc] at hc
        refine ⟨⟨?_, hop ▸ hc.1.2⟩, hnext ▸ hc.2⟩
        rw [Function.update_of_ne (hpush j hc.1.1), hc.1.1]
    | wait j =>
        rw [hpc] at hc
        by_cases hj : j = id
        · subst hj
          simpa [ClientOk] using ⟨hnew, hvalue⟩
        · simpa [ClientOk, Function.update_of_ne hj, hval j hj] using hc
    | take j =>
        rw [hpc] at hc
        have hj := htake j _ hc
        simpa [ClientOk, Function.update_of_ne hj, hval j hj] using hc
  apart := hcl ▸ h.apart
  pushing j hj := by
    by_cases hji : j = id
    · subst hji
      exact absurd (by simpa using hj) hnew.2
    · rw [Function.update_of_ne hji] at hj
      exact hcl ▸ h.pushing j hj

end

/-! ## What one worker contributes -/

/-- What worker `i` has at a place when its view is `v`. -/
def View.own (v : View n) (i : Fin n) : Place n → Multiset (Item n)
  | .queued a => if i = a then ↑(v.batch.map (.id : ℕ → Item n)) else 0
  | .out a => if i = a then ↑(v.out.toList.map fun x => (.cmd x.1 x.2 : Item n)) else 0
  | .ins a => if i = a then ↑(v.ins.toList.map fun x => (.put x.1 x.2 : Item n)) else 0
  | .ans a => if i = a then ↑(v.ans.toList.map fun x => (.ask x.1 x.2.1 x.2.2 : Item n)) else 0
  | .hand a => if i = a then ↑(v.hand.toList.map fun x => (.rep x.1 x.2 : Item n)) else 0
  | .ready a => if i = a then ↑(v.ready.toList.map fun x => (.fill x.1 x.2 : Item n)) else 0
  | .filling a => if i = a then ↑(v.filling.toList.map (.id : ℕ → Item n)) else 0
  | .cmd _ _ | .sent _ _ => 0

def Snap.setView (k : Snap τ n) (i : Fin n) (v : View n) : Snap τ n :=
  { k with view := Function.update k.view i v }

def Snap.setCmd (k : Snap τ n) (ij : Fin n × Fin n) (q : List (Command n)) : Snap τ n :=
  { k with cmd := Function.update k.cmd ij q }

def Snap.setReply (k : Snap τ n) (ij : Fin n × Fin n) (q : List Reply) : Snap τ n :=
  { k with reply := Function.update k.reply ij q }

section

variable {k : Snap τ n} (stack chain : Fin n → List ℕ) {i : Fin n} {v : View n} (r : Place n)

theorem at_setView (v : View n) :
    (k.setView i v).at stack chain r + (k.view i).own i r = k.at stack chain r + v.own i r := by
  cases r with
  | cmd _ _ | sent _ _ => rfl
  | queued a =>
      by_cases ha : i = a
      · subst ha
        simp only [Snap.at, Snap.listAt, Snap.setView, View.own, Function.update_self, if_pos,
          List.map_append, ← Multiset.coe_add]
        ac_rfl
      · simp [Snap.at, Snap.listAt, Snap.setView, View.own, ha, Ne.symm ha]
  | out a | ins a | ans a | hand a | ready a | filling a =>
      by_cases ha : i = a
      · subst ha
        simp only [Snap.at, Snap.listAt, Snap.setView, View.own, Function.update_self, if_pos]
        ac_rfl
      · simp [Snap.at, Snap.listAt, Snap.setView, View.own, ha, Ne.symm ha]

theorem at_pushCmd (a b : Fin n) (c : Command n) :
    (k.setCmd (a, b) (k.cmd (a, b) ++ [c])).at stack chain r =
      k.at stack chain r + only (.cmd a b) (.cmd c none) r := by
  by_cases hr : Place.cmd a b = r
  · subst hr
    rw [only_self]
    simp [Snap.at, Snap.listAt, Snap.setCmd, ← Multiset.coe_add]
  · rw [only_of_ne hr, add_zero]
    cases r with
    | cmd a' b' =>
        have hab : (a', b') ≠ (a, b) := by
          rintro he
          cases he
          exact hr rfl
        simp [Snap.at, Snap.listAt, Snap.setCmd, Function.update_of_ne hab]
    | _ => rfl

theorem at_popCmd {a b : Fin n} {c : Command n} {q : List (Command n)} (hq : k.cmd (a, b) = c :: q) :
    (k.setCmd (a, b) q).at stack chain r + only (.cmd a b) (.cmd c none) r =
      k.at stack chain r := by
  by_cases hr : Place.cmd a b = r
  · subst hr
    rw [only_self, add_comm, Multiset.singleton_add]
    simp [Snap.at, Snap.listAt, Snap.setCmd, hq]
  · rw [only_of_ne hr, add_zero]
    cases r with
    | cmd a' b' =>
        have hab : (a', b') ≠ (a, b) := by
          rintro he
          cases he
          exact hr rfl
        simp [Snap.at, Snap.listAt, Snap.setCmd, Function.update_of_ne hab]
    | _ => rfl

theorem at_pushReply (b a : Fin n) (x : Reply) :
    (k.setReply (b, a) (k.reply (b, a) ++ [x])).at stack chain r =
      k.at stack chain r + only (.sent b a) (.rep a x) r := by
  by_cases hr : Place.sent b a = r
  · subst hr
    rw [only_self]
    simp [Snap.at, Snap.listAt, Snap.setReply, ← Multiset.coe_add]
  · rw [only_of_ne hr, add_zero]
    cases r with
    | sent b' a' =>
        have hba : (b', a') ≠ (b, a) := by
          rintro he
          cases he
          exact hr rfl
        simp [Snap.at, Snap.listAt, Snap.setReply, Function.update_of_ne hba]
    | _ => rfl

theorem at_popReply {b a : Fin n} {x : Reply} {q : List Reply} (hq : k.reply (b, a) = x :: q) :
    (k.setReply (b, a) q).at stack chain r + only (.sent b a) (.rep a x) r =
      k.at stack chain r := by
  by_cases hr : Place.sent b a = r
  · subst hr
    rw [only_self, add_comm, Multiset.singleton_add]
    simp [Snap.at, Snap.listAt, Snap.setReply, hq]
  · rw [only_of_ne hr, add_zero]
    cases r with
    | sent b' a' =>
        have hba : (b', a') ≠ (b, a) := by
          rintro he
          cases he
          exact hr rfl
        simp [Snap.at, Snap.listAt, Snap.setReply, Function.update_of_ne hba]
    | _ => rfl

/-! A view is the sum of its fields. -/

theorem own_ans (h : v.ans = none) (x : Bytes × Fin n × ℕ) :
    View.own { v with ans := some x } i r = v.own i r + only (.ans i) (.ask x.1 x.2.1 x.2.2) r := by
  cases r with
  | ans a => by_cases ha : i = a <;> simp [View.own, only, ha, h]
  | _ => simp [View.own, only]

theorem own_hand (h : v.hand = none) (x : Fin n × Reply) :
    View.own { v with hand := some x } i r = v.own i r + only (.hand i) (.rep x.1 x.2) r := by
  cases r with
  | hand a => by_cases ha : i = a <;> simp [View.own, only, ha, h]
  | _ => simp [View.own, only]

theorem own_ready (h : v.ready = none) (x : ℕ × Option Bytes) :
    View.own { v with ready := some x } i r = v.own i r + only (.ready i) (.fill x.1 x.2) r := by
  cases r with
  | ready a => by_cases ha : i = a <;> simp [View.own, only, ha, h]
  | _ => simp [View.own, only]

theorem own_filling (h : v.filling = none) (x : ℕ) :
    View.own { v with filling := some x } i r = v.own i r + only (.filling i) (.id x) r := by
  cases r with
  | filling a => by_cases ha : i = a <;> simp [View.own, only, ha, h]
  | _ => simp [View.own, only]

theorem own_out (h : v.out = none) (x : Command n × Option ℕ) :
    View.own { v with out := some x } i r = v.own i r + only (.out i) (.cmd x.1 x.2) r := by
  cases r with
  | out a => by_cases ha : i = a <;> simp [View.own, only, ha, h]
  | _ => simp [View.own, only]

theorem own_batch (x : ℕ) :
    View.own { v with batch := x :: v.batch } i r = v.own i r + only (.queued i) (.id x) r := by
  cases r with
  | queued a =>
      by_cases ha : i = a
      · rw [add_comm]
        simp [View.own, only, ha, Multiset.singleton_add]
      · simp [View.own, only, ha]
  | _ => simp [View.own, only]

end

theorem snap_update (s : State τ n) (i : Fin n) (w : Worker n) :
    State.snap { s with workers := Function.update s.workers i w } =
      { s.snap with
        view := Function.update s.snap.view i w.pc.view
        waiters := Function.update s.snap.waiters i w.waiters
        nextToken := Function.update s.snap.nextToken i w.nextToken } := by
  have h : ∀ {α : Type} (f : Worker n → α), (fun a => f (Function.update s.workers i w a)) =
      Function.update (fun a => f (s.workers a)) i (f w) := fun f => Function.comp_update f _ i w
  simp only [State.snap, h fun w => w.pc.view, h Worker.waiters, h Worker.nextToken]

theorem snap_goto (s : State τ n) (i : Fin n) (pc : Pc n) :
    (s.goto i pc).snap = s.snap.setView i pc.view := by
  have hw := Function.update_eq_self i s.snap.waiters
  have ht := Function.update_eq_self i s.snap.nextToken
  refine (snap_update s i _).trans ?_
  simp only [Snap.setView]
  congr

/-- Nothing here depends on the shards. -/
theorem snap_goto_shard (s : State τ n) (i : Fin n) (pc : Pc n) (m : Shard) :
    State.snap { s with workers := Function.update s.workers i { s.workers i with
        shard := m
        pc := pc } } = (s.goto i pc).snap := by
  rw [State.goto, snap_update, snap_update]

theorem snap_goto_self {s : State τ n} {i : Fin n} {pc : Pc n}
    (h : pc.view = (s.workers i).pc.view) : (s.goto i pc).snap = s.snap := by
  rw [snap_goto, h]
  exact congrArg (fun v => { s.snap with view := v }) (Function.update_eq_self i s.snap.view)

section

variable {k : Snap τ n} {stack chain : Fin n → List ℕ} {i : Fin n} {v : View n} {r : Place n}
  {w x y : Multiset (Item n)}

/-- A worker exchanges one thing in its hands for another. -/
theorem at_exchange (hold : (k.view i).own i r = w + x) (hnew : v.own i r = w + y) :
    (k.setView i v).at stack chain r + x = k.at stack chain r + y := by
  have h := at_setView (k := k) (i := i) stack chain r v
  rw [hold, hnew, add_left_comm, add_left_comm (k.at stack chain r)] at h
  exact add_left_cancel h

/-- A worker takes something in its hands. -/
theorem at_gain {v₀ : View n} (hv : k.view i = v₀) (hnew : v.own i r = v₀.own i r + y) :
    (k.setView i v).at stack chain r = k.at stack chain r + y := by
  subst hv
  have h : _ + 0 = k.at stack chain r + y := at_exchange (add_zero _).symm hnew
  rwa [add_zero] at h

/-- A worker lets something go. -/
theorem at_lose {v₀ : View n} (hv : k.view i = v₀) (hold : v₀.own i r = v.own i r + x) :
    (k.setView i v).at stack chain r + x = k.at stack chain r := by
  subst hv
  have h : _ + x = k.at stack chain r + 0 := at_exchange hold (add_zero _).symm
  rwa [add_zero] at h

end

theorem node_setView {k : Snap τ n} {i : Fin n} {v : View n} (h : v.node = (k.view i).node)
    (a : Fin n) : ((k.setView i v).view a).node = (k.view a).node := by
  by_cases ha : a = i
  · subst ha
    simpa [Snap.setView] using h
  · simp [Snap.setView, ha]

theorem PumpCaller.view_eq (c : PumpCaller n) :
    c.view.node = none ∧ c.view.ans = none ∧ c.view.hand = none ∧ c.view.ready = none ∧
      c.view.filling = none := by
  cases c <;> exact ⟨rfl, rfl, rfl, rfl, rfl⟩

theorem CollectCaller.view_eq (c : CollectCaller n) :
    c.view.node = none ∧ c.view.ans = none ∧ c.view.ready = none ∧ c.view.filling = none := by
  rcases c with ⟨c, _⟩ | ⟨c, _, _, _⟩ <;>
    exact ⟨c.view_eq.1, c.view_eq.2.1, c.view_eq.2.2.2.1, c.view_eq.2.2.2.2⟩

theorem FulfillCaller.view_eq (c : FulfillCaller n) :
    c.view.node = none ∧ c.view.ready = none ∧ c.view.filling = none := by
  rcases c with ⟨c, _⟩ | _
  · exact ⟨c.view_eq.1, c.view_eq.2.2.1, c.view_eq.2.2.2⟩
  · exact ⟨rfl, rfl, rfl⟩

/-! ## Moves of one request -/

section

variable [NeZero n] {k k' : Snap τ n} {loc : ℕ → Loc n} {stack chain : Fin n → List ℕ} {i : Fin n}

/-- A worker passes a request on without touching the request itself or its waiters; `s₁` is the
state after the access to a queue. -/
theorem Owned.pass {s s₁ : State τ n} {id : ℕ} {l : Loc n} {pc : Pc n}
    (h : Owned s.snap loc stack chain) (hold : (loc id).place ≠ none) (hnew : l.place ≠ none)
    (hs : s₁ = { s with cmd := s₁.cmd, reply := s₁.reply })
    (hnode : pc.view.node = (s.workers i).pc.view.node) (hfwd : l.forwarded = (loc id).forwarded)
    (hok : LocOk s.snap id l)
    (hat : ∀ r, (s₁.snap.setView i pc.view).at stack chain r +
        (loc id).mark (s.reqs.opOf id).key id r =
      s.snap.at stack chain r + l.mark (s.reqs.opOf id).key id r) :
    Owned (s₁.goto i pc).snap (Function.update loc id l) stack chain := by
  rw [snap_goto]
  generalize s₁.cmd = cq, s₁.reply = rq at hs
  subst hs
  refine h.move hold ⟨?_, ?_⟩ rfl rfl rfl (fun _ _ => rfl) (fun _ _ => rfl) (fun _ => le_rfl) rfl hat
    (hok.mono Iff.rfl rfl rfl rfl fun _ => le_rfl) h.stacked (fun a => ?_) ?_ h.tokens ?_
  · rintro rfl
    exact hnew rfl
  · rintro rfl
    exact hnew rfl
  · rw [node_setView hnode]
    exact h.chained a
  · intro a t j
    refine (h.waiting a t j).trans ?_
    by_cases hj : j = id
    · subst hj
      rw [Function.update_self, hfwd]
    · rw [Function.update_of_ne hj]
  · rintro v rfl
    exact absurd rfl hnew

omit [NeZero n] in
theorem Loc.eq_of_place_ans {l : Loc n} (h : l.place = some (.ans i)) : ∃ a t, l = .ans i a t := by
  cases l <;> simp_all [Loc.place]

omit [NeZero n] in
theorem Loc.eq_of_place_cmd {l : Loc n} {a : Fin n} (h : l.place = some (.cmd a i)) :
    ∃ t, l = .cmd a i t := by
  cases l <;> simp_all [Loc.place]

omit [NeZero n] in
theorem Loc.eq_of_place_hand {l : Loc n} (h : l.place = some (.hand i)) :
    ∃ a t v, l = .hand i a t v := by
  cases l <;> simp_all [Loc.place]

omit [NeZero n] in
theorem Loc.eq_of_place_sent {l : Loc n} {b : Fin n} (h : l.place = some (.sent b i)) :
    ∃ t v, l = .sent b i t v := by
  cases l <;> simp_all [Loc.place]

omit [NeZero n] in
theorem Loc.eq_of_place_out {l : Loc n} (h : l.place = some (.out i)) : ∃ t, l = .out i t := by
  cases l <;> simp_all [Loc.place]

omit [NeZero n] in
theorem Loc.eq_of_place_queued {l : Loc n} (h : l.place = some (.queued i)) : l = .queued i := by
  cases l <;> simp_all [Loc.place]

omit [NeZero n] in
theorem Loc.eq_of_place_ready {l : Loc n} (h : l.place = some (.ready i)) : ∃ v, l = .ready i v := by
  cases l <;> simp_all [Loc.place]

omit [NeZero n] in
theorem Loc.eq_of_place_filling {l : Loc n} (h : l.place = some (.filling i)) :
    ∃ v, l = .filling i v := by
  cases l <;> simp_all [Loc.place]

/-- A location further along the way of the same forwarded request. -/
theorem LocOk.along {id : ℕ} {l l' : Loc n} (h : LocOk k id l) (hf : l'.forwarded = l.forwarded)
    (hs : ∀ b, l'.serving = some b → owner n (k.reqs.opOf id).key = b)
    (hl : l.place ≠ none) (hl' : l'.forwarded ≠ none) : LocOk k id l' where
  born := by
    have : ¬ k.reqs.length ≤ id := by
      rw [← h.born]
      rintro rfl
      exact hl rfl
    constructor
    · rintro rfl
      exact absurd rfl hl'
    · exact fun hle => absurd hle this
  routed a ha := by
    subst ha
    exact absurd rfl hl'
  get at' ha := h.get at' (hf ▸ ha)
  token a t ha := h.token a t (hf ▸ ha)
  owned := hs
  value a v ha := by
    subst ha
    exact absurd rfl hl'
  done := by
    rw [h.done]
    constructor
    · rintro ⟨v, rfl⟩
      exact absurd rfl hl
    · rintro ⟨v, rfl⟩
      exact absurd rfl hl'

end

end ZeroKv.Mesh.Service
