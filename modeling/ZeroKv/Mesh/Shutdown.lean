/-
# ZeroKv.Mesh.Shutdown — what `shutdown` drains, and what it does not.

A worker that sees `stop` leaves when a round of its own queues, its ingress and its waiters found
nothing.  It does not look at its peers: one of them may still hold a `get_round_robin` for a key of
the worker that leaves, forward it to a queue nobody reads any more, and wait for ever.

The second half shows that this is the only way to fail.  When `stop` is set while every worker holds
only requests for its own keys, no worker leaves work behind, and from every state all of them can
still leave.
-/
import ZeroKv.Lib.Tally
import ZeroKv.Mesh.Progress

namespace ZeroKv.Mesh.Service

variable {τ : Type} {n : ℕ}

/-- Every request is on an ingress before `stop` is set, and none is made afterwards. -/
def PushedBeforeStop (s : State τ n) : Label τ n → Prop
  | .client _ (.run _) | .worker _ => True
  | .client _ _ => s.stop = false
  | .stop => ∀ t, (s.clients t).pushing = false

instance [Fintype τ] (s : State τ n) : (l : Label τ n) → Decidable (PushedBeforeStop s l)
  | .client _ (.run _) | .worker _ => .isTrue trivial
  | .client _ (.put _ _) | .client _ (.get _) | .client _ (.getRoundRobin _ _) =>
      inferInstanceAs (Decidable (s.stop = false))
  | .stop => inferInstanceAs (Decidable (∀ t, (s.clients t).pushing = false))

/-- A `get_round_robin` is accepted by worker 0 for a key of worker 1, which makes a round, sees `stop`
and leaves; only then does worker 0 take the request up. -/
def strandedSchedule : List (Label Unit 2) :=
  .client () (.getRoundRobin [0] 0) :: List.replicate 2 (.client () (.run true)) ++
    List.replicate 7 (.worker 1) ++ .stop :: List.replicate 2 (.worker 1) ++
    List.replicate 10 (.worker 0)

def strandedEnd : State Unit 2 :=
  (Machine.runFn (fun s l => if PushedBeforeStop s l then step 2 s l else none) (.new Unit 2)
    strandedSchedule).getD (.new Unit 2)

/-- A worker has left with a command in its queue, and the worker that sent it waits for the answer. -/
theorem shutdown_strands_forwarded_get :
    ∃ s : State Unit 2, ((machine Unit 2 2).restrict PushedBeforeStop).Reachable s ∧
      (s.workers 1).pc = .exited ∧ s.cmd (0, 1) = [.get [0] 0 0] ∧ (s.workers 0).waiters = [(0, 0)] :=
  ⟨strandedEnd, Machine.reachable_restrict_of_runFn
    (show Machine.runFn _ _ strandedSchedule = some strandedEnd from rfl), rfl, rfl, rfl⟩

/-! ## Shutting down with local work only -/

/-- The requests found by following `next`, at most `fuel` of them. -/
def Heap.chainFrom (h : Heap) : ℕ → Option ℕ → List ℕ
  | _, none | 0, some _ => []
  | fuel + 1, some id => id :: h.chainFrom fuel (h.nextOf id)

theorem Heap.chainFrom_of_linked {h : Heap} {head : Option ℕ} {l : List ℕ} {fuel : ℕ}
    (hl : Linked h.nextOf head l) (hf : l.length ≤ fuel) : h.chainFrom fuel head = l := by
  induction l generalizing head fuel with
  | nil =>
      obtain rfl : head = none := hl
      cases fuel <;> rfl
  | cons id l ih =>
      obtain ⟨rfl, hl⟩ := hl
      obtain ⟨fuel, rfl⟩ : ∃ f, fuel = f + 1 := ⟨fuel - 1, by simp at hf; omega⟩
      rw [Heap.chainFrom, ih hl (by simpa using hf)]

/-- The requests worker `i` has accepted and not finished: on its ingress, on the chain it drains, in
its batch, and among its waiters. -/
def State.heldBy (s : State τ n) (i : Fin n) : List ℕ :=
  s.reqs.chainFrom s.reqs.length (s.ingress i) ++
    (s.reqs.chainFrom s.reqs.length (s.workers i).pc.view.node ++ (s.workers i).pc.view.batch) ++
    (s.workers i).waiters.map Prod.snd

section

variable [NeZero n]

/-- Fewer than `2 ^ 48` calls are made, and when `stop` is set every worker holds only requests for
keys of its own. -/
def LocalAtStop (s : State τ n) : Label τ n → Prop
  | .client _ (.run _) | .worker _ => True
  | .client _ _ => s.reqs.length < 2 ^ 48
  | .stop => ∀ i, ∀ id ∈ s.heldBy i, owner n (s.reqs.opOf id).key = i

instance (s : State τ n) : (l : Label τ n) → Decidable (LocalAtStop s l)
  | .client _ (.run _) | .worker _ => .isTrue trivial
  | .client _ (.put _ _) | .client _ (.get _) | .client _ (.getRoundRobin _ _) =>
      inferInstanceAs (Decidable (s.reqs.length < 2 ^ 48))
  | .stop => inferInstanceAs (Decidable (∀ i, ∀ id ∈ s.heldBy i, owner n (s.reqs.opOf id).key = i))

/-- A request that stays with the worker that accepted it. -/
def Loc.Settled (key : Bytes) : Loc n → Prop
  | .queued a => owner n key = a
  | .unborn | .ready _ _ | .filling _ _ | .done _ => True
  | .pushing | .out _ _ | .cmd _ _ _ | .ans _ _ _ | .hand _ _ _ _ | .sent _ _ _ _ => False

theorem Loc.Settled.forwarded {key : Bytes} {l : Loc n} (h : l.Settled key) :
    l.forwarded = none := by
  cases l with
  | queued _ | unborn | ready _ _ | filling _ _ | done _ => rfl
  | _ => exact h.elim

/-- Calls that may still need a token. -/
def Loc.turn : Loc n → ℕ
  | .pushing | .queued _ => 1
  | _ => 0

/-- What holds in a run that shuts down with local work only. -/
structure Drains (s : State τ n) (loc : ℕ → Loc n) (stack chain : Fin n → List ℕ) : Prop where
  owned : Owned s.snap loc stack chain
  foreign : ∀ id a t, (loc id).forwarded = some (a, t) → owner n (s.reqs.opOf id).key ≠ a
  settled : s.stop = true → ∀ id, (loc id).Settled (s.reqs.opOf id).key
  stopped : ∀ j, (s.workers j).pc.closing = true → s.stop = true
  closed : ∀ j, (s.workers j).pc = .exited → s.ingress j = none
  tokens : ∑ j, (s.workers j).nextToken + ∑ id ∈ Finset.range s.reqs.length, (loc id).turn ≤
    s.reqs.length
  few : s.reqs.length ≤ 2 ^ 48

variable {s s' : State τ n} {loc loc' : ℕ → Loc n} {stack chain stack' chain' : Fin n → List ℕ}
  {i : Fin n}

theorem Edge.turn {id k : ℕ} {l l' : Loc n} {m : Shard} {log : List (ℕ × Option Bytes)}
    (h : Edge s i id l l' m log k) : l'.turn + k ≤ l.turn := by
  cases h <;> simp [Loc.turn]

theorem Edge.place {id k : ℕ} {l l' : Loc n} {m : Shard} {log : List (ℕ × Option Bytes)}
    (h : Edge s i id l l' m log k) : l.place ≠ none := by
  cases h <;> exact nofun

theorem Edge.settled {id k : ℕ} {l l' : Loc n} {m : Shard} {log : List (ℕ × Option Bytes)}
    (h : Edge s i id l l' m log k) (hl : l.Settled (s.reqs.opOf id).key) :
    l'.Settled (s.reqs.opOf id).key := by
  cases h with
  | put | get | collect | store | done => trivial
  | take hown => exact absurd hl hown
  | send | pop | look | reply => exact hl

theorem Edge.foreign {id k : ℕ} {l l' : Loc n} {m : Shard} {log : List (ℕ × Option Bytes)}
    (h : Edge s i id l l' m log k)
    (hl : ∀ a t, l.forwarded = some (a, t) → owner n (s.reqs.opOf id).key ≠ a) (a : Fin n) (t : ℕ)
    (hf : l'.forwarded = some (a, t)) : owner n (s.reqs.opOf id).key ≠ a := by
  cases h with
  | put | get | collect | store | done => cases hf
  | take hown =>
      obtain ⟨rfl, -⟩ : i = a ∧ _ := by simpa [Loc.forwarded] using hf
      exact hown
  | send | pop | look | reply => exact hl a t hf

/-- A worker with a request to take up has tokens left. -/
theorem Drains.fresh (h : Drains s loc stack chain) {id : ℕ} (hq : loc id = .queued i) :
    (s.workers i).nextToken < 2 ^ 48 := by
  have hid : id < s.reqs.length := ((h.owned.ok id).of_place (by rw [hq]; exact nofun)).1
  have hturn : (loc id).turn = 1 := by rw [hq]; rfl
  have hone : (loc id).turn ≤ ∑ id ∈ Finset.range s.reqs.length, (loc id).turn :=
    Finset.single_le_sum (f := fun id => (loc id).turn) (fun _ _ => Nat.zero_le _)
      (Finset.mem_range.mpr hid)
  have hall : (s.workers i).nextToken ≤ ∑ j, (s.workers j).nextToken :=
    Finset.single_le_sum (f := fun j => (s.workers j).nextToken) (fun _ _ => Nat.zero_le _)
      (Finset.mem_univ i)
  have htok := h.tokens
  have hfew := h.few
  omega

omit [NeZero n] in
/-- The workers' counters after a step of one of them. -/
theorem Frame.sum_nextToken {k : ℕ} (hf : Frame s s' i)
    (htok : (s'.workers i).nextToken = (s.workers i).nextToken + k) :
    ∑ j, (s'.workers j).nextToken = ∑ j, (s.workers j).nextToken + k := by
  have hw : s'.workers = Function.update s.workers i (s'.workers i) := by
    funext j
    by_cases hj : j = i
    · subst hj
      rw [Function.update_self]
    · rw [Function.update_of_ne hj, hf.others j hj]
  have hsum := sum_update (fun _ (w : Worker n) => w.nextToken) s.workers i (s'.workers i)
  rw [← hw] at hsum
  omega

/-- What an action has to show. -/
theorem Drains.of_act {cap : ℕ} (h : Drains s loc stack chain) (hact : Act cap s i s')
    (hf : Frame s s' i) (ho : Owned s'.snap loc' stack' chain')
    (hfor : ∀ id a t, (loc' id).forwarded = some (a, t) → owner n (s.reqs.opOf id).key ≠ a)
    (hset : s.stop = true → ∀ id, (loc' id).Settled (s.reqs.opOf id).key)
    (htok : ∑ j, (s'.workers j).nextToken + ∑ id ∈ Finset.range s.reqs.length, (loc' id).turn ≤
      s.reqs.length) : Drains s' loc' stack' chain' where
  owned := ho
  foreign := by rwa [hf.opOf]
  settled := by rwa [hf.opOf, hf.stop]
  stopped j hj := by
    rw [hf.stop]
    by_cases hji : j = i
    · subst hji
      rw [hact.not_closing] at hj
      cases hj
    · rw [hf.others j hji] at hj
      exact h.stopped j hj
  closed j hj := by
    by_cases hji : j = i
    · subst hji
      have := hact.not_closing
      rw [hj] at this
      cases this
    · rw [hf.others j hji] at hj
      rcases hf.ingress j with hin | hin
      · rw [hin, h.closed j hj]
      · exact hin
  tokens := by rwa [hf.length]
  few := by rw [hf.length]; exact h.few

theorem Drains.act {cap : ℕ} (h : Drains s loc stack chain) (hact : Act cap s i s') :
    ∃ loc' stack' chain', Drains s' loc' stack' chain' ∧ Frame s s' i ∧
      Advance s s' i loc stack chain loc' stack' chain' := by
  obtain ⟨hf, loc', stack', chain', ho, ha⟩ := h.owned.act (fun _ hq => h.fresh hq) hact
  refine ⟨loc', stack', chain', ?_, hf, ha⟩
  cases ha with
  | swap _ _ _ _ htok | walk _ _ _ htok =>
      refine h.of_act hact hf ho h.foreign h.settled ?_
      rw [hf.sum_nextToken (k := 0) htok]
      exact h.tokens
  | @move id l m log k he _ _ htok =>
      have hid : id < s.reqs.length := ((h.owned.ok id).of_place he.place).1
      refine h.of_act hact hf ho (fun j => ?_) (fun hstop j => ?_) ?_
      · by_cases hj : j = id
        · subst hj
          rw [Function.update_self]
          exact he.foreign (h.foreign j)
        · rw [Function.update_of_ne hj]
          exact h.foreign j
      · by_cases hj : j = id
        · subst hj
          rw [Function.update_self]
          exact he.settled (h.settled hstop j)
        · rw [Function.update_of_ne hj]
          exact h.settled hstop j
      · have hsum := sum_update_mem (Finset.mem_range.mpr hid) (fun _ (l : Loc n) => l.turn) loc l
        have hle := he.turn
        have htoks := h.tokens
        rw [hf.sum_nextToken htok]
        omega

theorem Scan.exited {cap : ℕ} {pc pc' : Pc n} (h : Scan cap s i pc pc') (hc : pc' = .exited) :
    s.ingress i = none := by
  cases h with
  | exit hin => exact hin
  | @collectEnd c =>
      rcases c with ⟨c | _, _⟩ | _ <;> cases hc
  | _ => cases hc

theorem Drains.scan {cap : ℕ} {pc : Pc n} (h : Drains s loc stack chain)
    (hsc : Scan cap s i (s.workers i).pc pc) : Drains (s.goto i pc) loc stack chain where
  owned := snap_goto_self hsc.view ▸ h.owned
  foreign := h.foreign
  settled := h.settled
  stopped j hj := by
    by_cases hji : j = i
    · subst hji
      rw [goto_pc_self] at hj
      rcases hsc.closing hj with hc | hc
      · exact h.stopped j hc
      · exact hc
    · rw [goto_workers_of_ne s hji] at hj
      exact h.stopped j hj
  closed j hj := by
    by_cases hji : j = i
    · subst hji
      rw [goto_pc_self] at hj
      exact hsc.exited hj
    · rw [goto_workers_of_ne s hji] at hj
      exact h.closed j hj
  tokens := by
    have hf : Frame s (s.goto i pc) i := frame_update rfl rfl fun _ => .inl rfl
    rw [hf.sum_nextToken (k := 0) (by simp [State.goto])]
    exact h.tokens
  few := h.few

section

variable [DecidableEq τ] {t : τ}

/-- A step of a client that makes no call and publishes no request. -/
theorem Drains.client_stay {reqs : Heap} {pc : ClientPc n}
    (hist : List (Event ClientOp (Option Bytes))) (h : Drains s loc stack chain)
    (hlen : reqs.length = s.reqs.length) (hop : reqs.opOf = s.reqs.opOf)
    (ho : Owned (State.snap { s.clientGoto t pc with reqs := reqs, hist := hist }) loc stack chain) :
    Drains { s.clientGoto t pc with reqs := reqs, hist := hist } loc stack chain where
  owned := ho
  foreign := by
    rw [hop]
    exact h.foreign
  settled := by
    rw [hop]
    exact h.settled
  stopped := h.stopped
  closed := h.closed
  tokens := by
    rw [hlen]
    exact h.tokens
  few := by
    rw [hlen]
    exact h.few

theorem Drains.submit {accept : Fin n} {op : ClientOp} (h : Drains s loc stack chain)
    (hpc : s.clients t = .idle) (hr : Routed op accept) (hstop : s.stop = false)
    (hfew : s.reqs.length < 2 ^ 48) :
    Drains { s.clientGoto t (.push accept s.reqs.length) with
        reqs := s.reqs ++ [{ op, next := none, done := false, value := none }]
        hist := s.hist ++ [.inv s.reqs.length op] }
      (Function.update loc s.reqs.length .pushing) stack chain where
  owned := h.owned.submit hpc hr
  foreign id a u hf := by
    by_cases hid : id = s.reqs.length
    · subst hid
      rw [Function.update_self] at hf
      cases hf
    · rw [Function.update_of_ne hid] at hf
      rw [show Heap.opOf (s.reqs ++ [_]) id = s.reqs.opOf id from readField_append hid]
      exact h.foreign id a u hf
  settled hs := by
    rw [show s.stop = true from hs] at hstop
    cases hstop
  stopped := h.stopped
  closed := h.closed
  tokens := by
    have hsame : ∑ id ∈ Finset.range s.reqs.length,
        (Function.update loc s.reqs.length .pushing id).turn =
        ∑ id ∈ Finset.range s.reqs.length, (loc id).turn :=
      Finset.sum_congr rfl fun id hid => by
        rw [Function.update_of_ne (Finset.mem_range.mp hid).ne]
    have htok := h.tokens
    show ∑ j, (s.workers j).nextToken + ∑ id ∈ Finset.range (s.reqs ++ [_]).length, _ ≤
      (s.reqs ++ [_]).length
    rw [List.length_append, List.length_singleton, Finset.sum_range_succ, Function.update_self, hsame]
    show ∑ j, (s.workers j).nextToken + (_ + 1) ≤ _
    omega
  few := by
    rw [List.length_append]
    exact hfew

theorem Drains.casOk {accept : Fin n} {id : ℕ} {head : Option ℕ} (h : Drains s loc stack chain)
    (hpc : s.clients t = .cas accept id head) (hh : s.ingress accept = head) :
    Drains { s.clientGoto t (.wait id) with
        ingress := Function.update s.ingress accept (some id) }
      (Function.update loc id (.queued accept))
      (Function.update stack accept (id :: stack accept)) chain := by
  obtain ⟨hloc, ho⟩ := h.owned.casOk hpc hh
  -- a request is still being pushed, so `stop` is not set
  have hstop : s.stop ≠ true := fun hs => by
    have := h.settled hs id
    rw [hloc] at this
    exact this
  refine ⟨ho, fun j a u hf => ?_, fun hs => absurd hs hstop, h.stopped,
    fun j hj => absurd (h.stopped j (by rw [show (s.workers j).pc = _ from hj]; rfl)) hstop, ?_, h.few⟩
  · by_cases hj : j = id
    · subst hj
      rw [Function.update_self] at hf
      cases hf
    · rw [Function.update_of_ne hj] at hf
      exact h.foreign j a u hf
  · have hturn : ∀ j, (Function.update loc id (.queued accept) j).turn = (loc j).turn := by
      intro j
      by_cases hj : j = id
      · subst hj
        rw [Function.update_self, hloc]
        rfl
      · rw [Function.update_of_ne hj]
    simp only [hturn]
    exact h.tokens

theorem Drains.client (h : Drains s loc stack chain) (hst : ClientStep s t s')
    (hcall : s.clients t = .idle → s.stop = false ∧ s.reqs.length < 2 ^ 48) :
    ∃ loc' stack', Drains s' loc' stack' chain := by
  cases hst with
  | submit hpc hr =>
      obtain ⟨hstop, hfew⟩ := hcall hpc
      exact ⟨_, _, h.submit hpc hr hstop hfew⟩
  | push hpc => exact ⟨_, _, h.client_stay _ (by simp) (by simp) (h.owned.push hpc)⟩
  | casOk hpc hh => exact ⟨_, _, h.casOk hpc hh⟩
  | casFail hpc => exact ⟨_, _, h.client_stay _ rfl rfl (h.owned.casFail hpc)⟩
  | waitMore hpc => exact ⟨_, _, h⟩
  | waitDone hpc hd => exact ⟨_, _, h.client_stay _ rfl rfl (h.owned.waitDone hpc hd)⟩
  | take hpc => exact ⟨_, _, h.client_stay _ (by simp) (by simp) (h.owned.take hpc).2⟩

end

/-- A worker has no more requests than there are. -/
theorem Owned.length_le (h : Owned s.snap loc stack chain) (a : Fin n) :
    (stack a ++ (chain a ++ (s.workers a).pc.view.batch)).length ≤ s.reqs.length := by
  obtain ⟨ids, hids, hat⟩ := h.held (.queued a)
  have hcard : (stack a ++ (chain a ++ (s.workers a).pc.view.batch)).length = ids.card := by
    have := congrArg Multiset.card hat
    rwa [Multiset.card_map, Snap.at, Multiset.coe_card, Snap.listAt, List.length_map] at this
  rw [hcard]
  refine (Finset.card_le_card fun id hid => ?_).trans (Finset.card_range s.reqs.length).le
  have hp := (hids id).mp hid
  exact Finset.mem_range.mpr ((h.ok id).of_place (by rw [hp]; exact Option.some_ne_none _)).1

theorem Owned.heldBy_eq (h : Owned s.snap loc stack chain) (a : Fin n) :
    s.heldBy a = stack a ++ (chain a ++ (s.workers a).pc.view.batch) ++
      (s.workers a).waiters.map Prod.snd := by
  have hlen := h.length_le a
  simp only [List.length_append] at hlen
  have hst : Linked s.reqs.nextOf (s.ingress a) (stack a) := h.stacked a
  have hch : Linked s.reqs.nextOf (s.workers a).pc.view.node (chain a) := h.chained a
  rw [State.heldBy, Heap.chainFrom_of_linked hst (by omega), Heap.chainFrom_of_linked hch (by omega)]

/-- What a worker holds is with it, or it waits for the answer. -/
theorem Owned.mem_heldBy {id : ℕ} {a : Fin n} (h : Owned s.snap loc stack chain) :
    id ∈ s.heldBy a ↔ loc id = .queued a ∨ ∃ t, (loc id).forwarded = some (a, t) := by
  have hwait : (∃ t, (loc id).forwarded = some (a, t)) ↔ id ∈ (s.workers a).waiters.map Prod.snd := by
    simp only [← h.waiting, List.mem_map, Prod.exists, exists_eq_right]
    rfl
  rw [hwait, h.heldBy_eq, List.mem_append]
  refine or_congr_left ⟨h.queued_of_mem, fun hq => ?_⟩
  have hmem : Item.id id ∈ s.snap.at stack chain (.queued a) := by
    have := h.held.mem (i := id) (r := .queued a) (by rw [hq]; rfl)
    rwa [hq] at this
  simpa [Snap.at, Snap.listAt, State.snap] using hmem

theorem Owned.not_pushing {id : ℕ} (h : Owned s.snap loc stack chain)
    (hpush : ∀ t, (s.clients t).pushing = false) : loc id ≠ .pushing := by
  intro hloc
  obtain ⟨t, ht⟩ := h.pushing id hloc
  have ht' : (s.clients t).request = some id := ht
  have hp := hpush t
  have hc : ClientOk s.snap loc (s.clients t) := h.client t
  cases hpc : s.clients t with
  | idle => simp [hpc, ClientPc.request] at ht'
  | push | cas => simp [hpc, ClientPc.pushing] at hp
  | wait j | take j =>
      obtain rfl : j = id := by simpa [hpc, ClientPc.request] using ht'
      simp [hpc, ClientOk, hloc] at hc

/-- `shutdown` stores `stop`. -/
theorem Drains.stop (h : Drains s loc stack chain) (hpush : ∀ t, (s.clients t).pushing = false)
    (hlocal : ∀ i, ∀ id ∈ s.heldBy i, owner n (s.reqs.opOf id).key = i) :
    Drains { s with stop := true } loc stack chain where
  owned := h.owned
  foreign := h.foreign
  settled _ id := by
    have hfor : ∀ a t, (loc id).forwarded ≠ some (a, t) := by
      intro a t hf
      exact h.foreign id a t hf (hlocal a id (h.owned.mem_heldBy.mpr (.inr ⟨t, hf⟩)))
    cases hloc : loc id with
    | pushing => exact h.owned.not_pushing hpush hloc
    | queued a => exact hlocal a id (h.owned.mem_heldBy.mpr (.inl hloc))
    | unborn | ready | filling | done => trivial
    | out a t | cmd a b t | ans b a t | hand b a t v | sent b a t v =>
        exact hfor a t (by rw [hloc]; rfl)
  stopped _ _ := rfl
  closed := h.closed
  tokens := h.tokens
  few := h.few

/-- After `stop` nobody waits for another worker. -/
theorem Drains.no_waiters (h : Drains s loc stack chain) (hstop : s.stop = true) (a : Fin n) :
    (s.workers a).waiters = [] := by
  refine List.eq_nil_iff_forall_not_mem.mpr fun ⟨t, id⟩ hx => ?_
  have hf := (h.owned.waiting a t id).mp hx
  rw [(h.settled hstop id).forwarded] at hf
  cases hf

/-- After `stop` no command is under way. -/
theorem Drains.no_cmd (h : Drains s loc stack chain) (hstop : s.stop = true) (a b : Fin n) :
    s.cmd (a, b) = [] := by
  refine List.eq_nil_iff_forall_not_mem.mpr fun c hc => ?_
  have hmem : Item.cmd c none ∈ s.snap.at stack chain (.cmd a b) :=
    List.mem_map_of_mem (f := fun c => Item.cmd c none) hc
  obtain ⟨id, hplace, -⟩ := h.owned.held.exists_of_mem hmem
  obtain ⟨t, hloc⟩ := Loc.eq_of_place_cmd hplace
  have := (h.settled hstop id).forwarded
  rw [hloc] at this
  cases this

/-- The runs that shut down with local work only. -/
def Orderly (s : State τ n) (l : Label τ n) : Prop := PushedBeforeStop s l ∧ LocalAtStop s l

instance [Fintype τ] (s : State τ n) (l : Label τ n) : Decidable (Orderly s l) :=
  inferInstanceAs (Decidable (PushedBeforeStop s l ∧ LocalAtStop s l))

theorem drains_new : Drains (State.new τ n) (fun _ => .unborn) (fun _ => []) (fun _ => []) where
  owned := owned_new
  foreign := nofun
  settled := nofun
  stopped := nofun
  closed := nofun
  tokens := by simp [State.new]
  few := Nat.zero_le _

theorem drains_of_reachable [DecidableEq τ] {cap : ℕ}
    (hs : ((machine τ n cap).restrict Orderly).Reachable s) :
    ∃ loc stack chain, Drains s loc stack chain := by
  refine hs.invariant (I := fun s => ∃ loc stack chain, Drains s loc stack chain)
    (fun s h => ?_) fun s l s' _ h hst => ?_
  · obtain rfl : s = State.new τ n := h
    exact ⟨_, _, _, drains_new⟩
  · obtain ⟨loc, stack, chain, h⟩ := h
    obtain ⟨⟨hp, hl⟩, hst⟩ := hst
    rcases l with ⟨t, act⟩ | i | _
    · have hcall : s.clients t = .idle → s.stop = false ∧ s.reqs.length < 2 ^ 48 := by
        intro hidle
        cases act with
        | put | get | getRoundRobin => exact ⟨hp, hl⟩
        | run =>
            have : stepClient s t (.run _) = some s' := hst
            simp [stepClient, hidle] at this
      obtain ⟨loc', stack', h'⟩ := h.client (clientStep_of_step hst) hcall
      exact ⟨loc', stack', chain, h'⟩
    · cases workerStep_of_step hst with
      | scan hsc => exact ⟨loc, stack, chain, h.scan hsc⟩
      | act hact =>
          obtain ⟨loc', stack', chain', h', -⟩ := h.act hact
          exact ⟨loc', stack', chain', h'⟩
    · obtain rfl : { s with stop := true } = s' := Option.some.inj hst
      exact ⟨loc, stack, chain, h.stop hp hl⟩

/-! ## What is left to do -/

/-- The steps a request still has to take. -/
def Loc.rank : Loc n → ℕ
  | .unborn | .done _ => 0
  | .filling _ _ => 1
  | .ready _ _ => 2
  | .sent _ _ _ _ => 3
  | .hand _ _ _ _ => 4
  | .ans _ _ _ => 5
  | .cmd _ _ _ => 6
  | .out _ _ => 7
  | .queued _ => 8
  | .pushing => 11

def Pc.live : Pc n → ℕ
  | .exited => 0
  | _ => 1

/-- The requests count by the steps they have to take, those on an ingress or on a detached chain also
by the way to the batch; then the workers that have not left, and `shutdown` itself. -/
def State.work (s : State τ n) (loc : ℕ → Loc n) (stack chain : Fin n → List ℕ) : ℕ :=
  ∑ id ∈ Finset.range s.reqs.length, (loc id).rank +
    ∑ a, 2 * (stack a).length + ∑ a, (chain a).length + ∑ j, (s.workers j).pc.live +
    (if s.stop = true then 0 else 1)

theorem Edge.rank {id k : ℕ} {l l' : Loc n} {m : Shard} {log : List (ℕ × Option Bytes)}
    (h : Edge s i id l l' m log k) : l'.rank < l.rank := by
  cases h <;> simp [Loc.rank]

omit [NeZero n] in
theorem Frame.sum_live (hf : Frame s s' i) (h : (s'.workers i).pc.live ≤ (s.workers i).pc.live) :
    ∑ j, (s'.workers j).pc.live ≤ ∑ j, (s.workers j).pc.live := by
  refine Finset.sum_le_sum fun j _ => ?_
  by_cases hj : j = i
  · subst hj
    exact h
  · rw [hf.others j hj]

theorem Act.live {cap : ℕ} (h : Act cap s i s') : (s.workers i).pc.live = 1 := by
  cases h with
  | pumpPut hpc | pumpGet hpc | insert hpc | answer hpc | replyOk hpc | collectMiss hpc
  | collectHit hpc | fulfillValue hpc | fulfillDone hpc | swapSome hpc | walk hpc | putLocal hpc
  | putRemote hpc | getLocal hpc | getRemote hpc | forwardGet hpc | forwardPut hpc =>
      rw [hpc]
      rfl

omit [NeZero n] in
theorem Pc.live_le (pc : Pc n) : pc.live ≤ 1 := by
  cases pc <;> simp [Pc.live]

/-- Every action leaves less to do. -/
theorem Advance.work_lt {cap : ℕ} (h : Drains s loc stack chain) (hact : Act cap s i s')
    (hf : Frame s s' i) (ha : Advance s s' i loc stack chain loc' stack' chain') :
    s'.work loc' stack' chain' < s.work loc stack chain := by
  have hlive := hf.sum_live (hact.live ▸ Pc.live_le _)
  rw [State.work, State.work, hf.stop, hf.length]
  cases ha with
  | swap hne hch =>
      have hst := sum_update (fun _ (l : List ℕ) => 2 * l.length) stack i []
      have hcs := sum_update (fun _ (l : List ℕ) => l.length) chain i (stack i)
      have hpos := List.length_pos_iff.mpr hne
      rw [hch] at hcs
      simp only [List.length_nil] at hst hcs
      omega
  | @walk id rest hch =>
      have hcs := sum_update (fun _ (l : List ℕ) => l.length) chain i rest
      rw [hch, List.length_cons] at hcs
      omega
  | @move id l m log k he =>
      have hid : id < s.reqs.length := ((h.owned.ok id).of_place he.place).1
      have hsum := sum_update_mem (Finset.mem_range.mpr hid) (fun _ (l : Loc n) => l.rank) loc l
      have hlt := he.rank
      omega

/-! ## Getting on -/

section

variable [DecidableEq τ] {cap : ℕ}

/-- `s'` comes after `s` in an orderly run. -/
abbrev Later (cap : ℕ) (s s' : State τ n) : Prop :=
  ((machine τ n cap).restrict Orderly).StaysIn (fun _ => True) s s'

/-- Some orderly continuation leaves less than `w` to do. -/
def Lessens (cap : ℕ) (s : State τ n) (w : ℕ) : Prop :=
  ∃ s' loc stack chain, Later cap s s' ∧ Drains s' loc stack chain ∧ s'.work loc stack chain < w

theorem later_scans {pc : Pc n} (h : Drains s loc stack chain)
    (hsc : Relation.ReflTransGen (Scan cap s i) (s.workers i).pc pc) :
    Later cap s (s.goto i pc) ∧ Drains (s.goto i pc) loc stack chain := by
  induction hsc with
  | refl =>
      rw [goto_self]
      exact ⟨.refl trivial, h⟩
  | @tail pc pc' _ hst ih =>
      have hst' : Scan cap (s.goto i pc) i ((s.goto i pc).workers i).pc pc' := by
        rw [goto_pc_self]
        exact hst.goto
      have hstep : stepWorker cap (s.goto i pc) i = some (s.goto i pc') := by
        rw [step_of_scan hst', goto_goto]
      refine ⟨ih.1.next (l := .worker i) ⟨⟨trivial, trivial⟩, hstep⟩ trivial, ?_⟩
      have := ih.2.scan hst'
      rwa [goto_goto] at this

omit [NeZero n] [DecidableEq τ] in
/-- Moving the program point of a live worker changes the work only when it leaves. -/
theorem work_goto (s : State τ n) (i : Fin n) (pc : Pc n) (loc : ℕ → Loc n)
    (stack chain : Fin n → List ℕ) :
    (s.goto i pc).work loc stack chain + (s.workers i).pc.live =
      s.work loc stack chain + pc.live := by
  have hsum : ∑ j, ((s.goto i pc).workers j).pc.live + (s.workers i).pc.live =
      ∑ j, (s.workers j).pc.live + pc.live :=
    sum_update (fun _ (w : Worker n) => w.pc.live) s.workers i _
  have hreqs : (s.goto i pc).reqs = s.reqs := rfl
  have hstop : (s.goto i pc).stop = s.stop := rfl
  rw [State.work, State.work, hreqs, hstop]
  omega

/-- A worker that finds something to do on its own. -/
theorem Drains.lessens_busy {pc : Pc n} (h : Drains s loc stack chain)
    (hsc : Relation.ReflTransGen (Scan cap s i) (s.workers i).pc pc) (hb : Busy cap s i pc)
    (hlive : (s.workers i).pc.live = 1) : Lessens cap s (s.work loc stack chain) := by
  obtain ⟨s', hact⟩ := hb
  obtain ⟨hrun, h₁⟩ := later_scans h hsc
  obtain ⟨loc', stack', chain', h', hf, ha⟩ := h₁.act hact
  have hlt := ha.work_lt h₁ hact hf
  have hgoto := work_goto s i pc loc stack chain
  have hle := Pc.live_le pc
  refine ⟨s', loc', stack', chain', hrun.next (l := .worker i) ⟨⟨trivial, trivial⟩, ?_⟩ trivial, h',
    by omega⟩
  exact step_of_act hact

/-- A worker that leaves. -/
theorem Drains.lessens_exit (h : Drains s loc stack chain)
    (hsc : Relation.ReflTransGen (Scan cap s i) (s.workers i).pc .exited)
    (hlive : (s.workers i).pc.live = 1) : Lessens cap s (s.work loc stack chain) := by
  obtain ⟨hrun, h₁⟩ := later_scans h hsc
  have hgoto := work_goto s i .exited loc stack chain
  have hzero : (Pc.exited : Pc n).live = 0 := rfl
  exact ⟨_, loc, stack, chain, hrun, h₁, by omega⟩

/-- After `stop` a worker that has not left finds something to do, or leaves. -/
theorem Drains.lessens_stopped (h : Drains s loc stack chain) (hstop : s.stop = true)
    (hlive : (s.workers i).pc.live = 1) : Lessens cap s (s.work loc stack chain) := by
  obtain ⟨pc, hsc, hb | hst⟩ := gets_stalled cap s i (s.workers i).pc
  · exact h.lessens_busy hsc hb hlive
  have hview : s.snap.view i = pc.view := (scans_view hsc).symm
  cases hst with
  | @forward cmd ack rest =>
      have hmem : Item.cmd cmd ack ∈ s.snap.at stack chain (.out i) := by
        simp [Snap.at, Snap.listAt, hview, Pc.view]
      obtain ⟨id, hplace, -⟩ := h.owned.held.exists_of_mem hmem
      obtain ⟨t, hloc⟩ := Loc.eq_of_place_out hplace
      have := (h.settled hstop id).forwarded
      rw [hloc] at this
      cases this
  | @reply c src dst r =>
      have hmem : Item.rep dst r ∈ s.snap.at stack chain (.hand i) := by
        simp [Snap.at, Snap.listAt, hview, Pc.view]
      obtain ⟨id, hplace, -⟩ := h.owned.held.exists_of_mem hmem
      obtain ⟨a, t, v, hloc⟩ := Loc.eq_of_place_hand hplace
      have := (h.settled hstop id).forwarded
      rw [hloc] at this
      cases this
  | idle _ _ hin =>
      exact h.lessens_exit ((hsc.tail (.stopSeen hstop (h.no_waiters hstop i))).tail (.exit hin)) hlive
  | exited => exact h.lessens_exit hsc hlive

omit [DecidableEq τ] in
/-- Before `stop` no worker is about to leave. -/
theorem Drains.open (h : Drains s loc stack chain) (hstop : s.stop = false) : Open s where
  stop := hstop
  pc j := by
    by_contra hc
    have := h.stopped j (by simpa using hc)
    rw [hstop] at this
    cases this

omit [DecidableEq τ] in
theorem Drains.live (h : Drains s loc stack chain) (hstop : s.stop = false) (i : Fin n) :
    (s.workers i).pc.live = 1 := by
  cases hpc : (s.workers i).pc with
  | exited =>
      have := h.stopped i (by rw [hpc]; rfl)
      rw [hstop] at this
      cases this
  | _ => rfl

/-- While a worker has something to act on, somebody can act. -/
theorem Drains.lessens_placed (h : Drains s loc stack chain) (hcap : 0 < cap)
    (hstop : s.stop = false) {id : ℕ} (hp : (loc id).place ≠ none) :
    Lessens cap s (s.work loc stack chain) := by
  obtain ⟨j, pc, hsc, hb⟩ := h.owned.progresses (h.open hstop) hcap hp
  exact h.lessens_busy hsc hb (h.live hstop j)

/-- A client that has read the head of the ingress publishes its request. -/
theorem Drains.lessens_cas {t : τ} {accept : Fin n} {id : ℕ} {head : Option ℕ}
    (h : Drains s loc stack chain) (hpc : s.clients t = .cas accept id head)
    (hh : s.ingress accept = head) : Lessens cap s (s.work loc stack chain) := by
  have hloc := (h.owned.casOk hpc hh).1
  have hid : id < s.reqs.length := by
    refine Nat.lt_of_not_le fun hle => ?_
    have := (h.owned.ok id).born.mpr hle
    rw [hloc] at this
    cases this
  refine ⟨_, _, _, _, .next (l := .client t (.run true)) (.refl trivial) ⟨⟨trivial, trivial⟩, ?_⟩ trivial,
    h.casOk hpc hh, ?_⟩
  · show stepClient s t (.run true) = _
    simp [stepClient, hpc, hh]
  · have hrank := sum_update_mem (Finset.mem_range.mpr hid) (fun _ (l : Loc n) => l.rank) loc
      (.queued accept)
    have hst := sum_update (fun _ (l : List ℕ) => 2 * l.length) stack accept (id :: stack accept)
    have hpushing : (Loc.pushing : Loc n).rank = 11 := rfl
    have hqueued : (Loc.queued accept).rank = 8 := rfl
    rw [hloc] at hrank
    rw [List.length_cons] at hst
    show ∑ j ∈ Finset.range s.reqs.length, _ + _ + _ + ∑ j, (s.workers j).pc.live + _ < _
    rw [State.work]
    have hstop : (s.clientGoto t (.wait id)).stop = s.stop := rfl
    simp only [hstop]
    omega

/-- A client that is pushing a request gets it on the ingress. -/
theorem Drains.lessens_push {t : τ} {accept : Fin n} {id : ℕ} (h : Drains s loc stack chain)
    (hpc : s.clients t = .push accept id) : Lessens cap s (s.work loc stack chain) := by
  have h₁ := h.client_stay s.hist (by simp) (by simp) (h.owned.push hpc)
  have hless : Lessens cap _ _ := h₁.lessens_cas (Function.update_self ..) rfl
  obtain ⟨s', loc', stack', chain', hrun, h', hlt⟩ := hless
  refine ⟨s', loc', stack', chain', .trans (.next (l := .client t (.run true)) (.refl trivial)
    ⟨⟨trivial, trivial⟩, ?_⟩ trivial) hrun, h', ?_⟩
  · show stepClient s t (.run true) = _
    simp only [stepClient, hpc]
    rfl
  · refine hlt.trans_eq ?_
    simp only [State.work, Heap.length_setNext]
    rfl

/-- As long as a worker has not left, some orderly continuation leaves less to do. -/
theorem Drains.lessens (h : Drains s loc stack chain) (hcap : 0 < cap)
    (hlive : (s.workers i).pc.live = 1) : Lessens cap s (s.work loc stack chain) := by
  by_cases hstop : s.stop = true
  · exact h.lessens_stopped hstop hlive
  have hstop : s.stop = false := by simpa using hstop
  by_cases hp : ∃ id, (loc id).place ≠ none
  · obtain ⟨id, hp⟩ := hp
    exact h.lessens_placed hcap hstop hp
  by_cases hpush : ∃ t, (s.clients t).pushing = true
  · obtain ⟨t, ht⟩ := hpush
    cases hpc : s.clients t with
    | idle | wait | take =>
        rw [hpc] at ht
        cases ht
    | push accept id => exact h.lessens_push hpc
    | cas accept id head =>
        by_cases hh : s.ingress accept = head
        · exact h.lessens_cas hpc hh
        · -- the head has moved: start the push over
          have h₁ := h.client_stay s.hist (Eq.refl s.reqs.length) rfl (h.owned.casFail hpc)
          have hless : Lessens cap _ _ := h₁.lessens_push (Function.update_self ..)
          obtain ⟨s', loc', stack', chain', hrun, h', hlt⟩ := hless
          refine ⟨s', loc', stack', chain', .trans (.next (l := .client t (.run true)) (.refl trivial)
            ⟨⟨trivial, trivial⟩, ?_⟩ trivial) hrun, h', hlt⟩
          show stepClient s t (.run true) = _
          simp only [stepClient, hpc, hh, and_false, if_false]
          rfl
  -- nothing is under way: set `stop`
  have hquiet : ∀ t, (s.clients t).pushing = false := by
    intro t
    by_contra ht
    exact hpush ⟨t, by simpa using ht⟩
  have hlocal : ∀ a, ∀ id ∈ s.heldBy a, owner n (s.reqs.opOf id).key = a := by
    intro a id hid
    refine absurd ?_ hp
    rcases h.owned.mem_heldBy.mp hid with hq | ⟨t, hf⟩
    · exact ⟨id, by rw [hq]; exact Option.some_ne_none _⟩
    · refine ⟨id, fun hnone => ?_⟩
      rw [Loc.forwarded_of_place hnone] at hf
      cases hf
  refine ⟨_, loc, stack, chain, .next (l := .stop) (.refl trivial) ⟨⟨hquiet, hlocal⟩, rfl⟩ trivial,
    h.stop hquiet hlocal, ?_⟩
  show ∑ id ∈ Finset.range s.reqs.length, _ + _ + _ + ∑ j, (s.workers j).pc.live + _ < _
  rw [State.work, hstop, if_pos rfl, if_neg Bool.false_ne_true]
  omega

/-- From every state of an orderly run all workers can leave. -/
theorem Drains.can_exit (h : Drains s loc stack chain) (hcap : 0 < cap) :
    ∃ s', Later cap s s' ∧ ∀ i, (s'.workers i).pc = .exited := by
  induction hw : s.work loc stack chain using Nat.strong_induction_on generalizing s loc stack chain with
  | _ w ih =>
    by_cases hall : ∀ i, (s.workers i).pc = .exited
    · exact ⟨s, .refl trivial, hall⟩
    · obtain ⟨i, hi⟩ := not_forall.mp hall
      have hlive : (s.workers i).pc.live = 1 := by
        cases hpc : (s.workers i).pc with
        | exited => exact absurd hpc hi
        | _ => rfl
      obtain ⟨s₁, loc₁, stack₁, chain₁, hrun, h₁, hlt⟩ := h.lessens hcap hlive
      obtain ⟨s', hrun', hex⟩ := ih _ (hw ▸ hlt) h₁ rfl
      exact ⟨s', hrun.trans hrun', hex⟩

omit [DecidableEq τ] in
/-- When all workers have left, every request is done. -/
theorem Drains.all_done (h : Drains s loc stack chain) (hall : ∀ j, (s.workers j).pc = .exited)
    {id : ℕ} (hid : id < s.reqs.length) : s.reqs.doneOf id = true := by
  have hstop : s.stop = true := h.stopped 0 (by rw [hall]; rfl)
  have hplace : (loc id).place = none := by
    by_contra hp
    obtain ⟨p, hp⟩ := Option.ne_none_iff_exists'.mp hp
    have hrep : ∀ b, s.reply (b, p.worker) = [] := by
      intro b
      refine List.eq_nil_iff_forall_not_mem.mpr fun r hr => ?_
      have hmem : Item.rep p.worker r ∈ s.snap.at stack chain (.sent b p.worker) :=
        List.mem_map_of_mem (f := fun r => Item.rep p.worker r) hr
      obtain ⟨j, hplace, -⟩ := h.owned.held.exists_of_mem hmem
      obtain ⟨t, v, hloc⟩ := Loc.eq_of_place_sent hplace
      have := (h.settled hstop j).forwarded
      rw [hloc] at this
      cases this
    exact h.owned.nothing (by rw [hall]; rfl) (fun b => h.no_cmd hstop b _) hrep
      (h.closed _ (hall _)) hp rfl
  refine (h.owned.ok id).done.mpr ?_
  have hset := h.settled hstop id
  cases hloc : loc id with
  | unborn => exact absurd ((h.owned.ok id).born.mp hloc) (Nat.not_le_of_lt hid)
  | done v => exact ⟨v, rfl⟩
  | pushing =>
      rw [hloc] at hset
      exact hset.elim
  | _ =>
      rw [hloc] at hplace
      cases hplace

/-- When `stop` is set while every worker holds only requests for its own keys, no worker leaves while
a command is in a queue into it or a peer waits for its answer, all requests are done when all have
left, and from every state some orderly continuation makes all workers leave. -/
theorem shutdown_drains_local_work (hcap : 0 < cap)
    (hs : ((machine τ n cap).restrict Orderly).Reachable s) :
    (∀ j, (s.workers j).pc = .exited → (∀ a, s.cmd (a, j) = []) ∧
      ∀ a, ∀ x ∈ (s.workers a).waiters, owner n (s.reqs.opOf x.2).key ≠ j) ∧
    ((∀ j, (s.workers j).pc = .exited) → ∀ id < s.reqs.length, s.reqs.doneOf id = true) ∧
    ∃ s', ((machine τ n cap).restrict Orderly).StaysIn (fun _ => True) s s' ∧
      ∀ j, (s'.workers j).pc = .exited := by
  obtain ⟨loc, stack, chain, h⟩ := drains_of_reachable hs
  refine ⟨fun j hj => ?_, fun hall id hid => h.all_done hall hid, h.can_exit hcap⟩
  have hstop : s.stop = true := h.stopped j (by rw [hj]; rfl)
  refine ⟨fun a => h.no_cmd hstop a j, fun a x hx => ?_⟩
  rw [h.no_waiters hstop a] at hx
  cases hx

end

end

/-- A put is on the ingress of its owner when `stop` is set; the owner serves it and leaves. -/
def drainedSchedule : List (Label Unit 2) :=
  .client () (.put [0] [5]) :: List.replicate 2 (.client () (.run true)) ++
    .stop :: List.replicate 22 (.worker 1)

def drainedEnd : State Unit 2 :=
  (Machine.runFn (fun s l => if Orderly s l then step 2 s l else none) (.new Unit 2)
    drainedSchedule).getD (.new Unit 2)

theorem shutdown_drains_local_work_sample :
    (drainedEnd.workers 1).pc = .exited ∧ drainedEnd.cmd (0, 1) = [] ∧
    ∃ s', ((machine Unit 2 2).restrict Orderly).StaysIn (fun _ => True) drainedEnd s' ∧
      ∀ j, (s'.workers j).pc = .exited := by
  have hs : ((machine Unit 2 2).restrict Orderly).Reachable drainedEnd :=
    Machine.reachable_restrict_of_runFn
      (show Machine.runFn _ _ drainedSchedule = some drainedEnd from rfl)
  have hexit : (drainedEnd.workers 1).pc = .exited := rfl
  obtain ⟨hempty, -, hcan⟩ := shutdown_drains_local_work (by decide) hs
  exact ⟨hexit, (hempty 1 hexit).1 0, hcan⟩

end ZeroKv.Mesh.Service
