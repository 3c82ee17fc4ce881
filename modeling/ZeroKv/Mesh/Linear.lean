/-
# ZeroKv.Mesh.Linear — the running service is a linearizable map.

A call takes effect when the shard of its key is looked at or written: when the accepting worker serves
it, or, for a forwarded `Get`, when the owner looks the key up.  From then on its location carries the
answer, and the order of these steps is the sequential order that explains the history.

The branch of `pump_matrix` that applies a forwarded put is never taken: a client hands a put to the
owner of its key.
-/
import ZeroKv.Mesh.Moves

namespace ZeroKv.Mesh.Service

variable {τ : Type} {n : ℕ}

/-- What the service is for: one map from keys to values. -/
def kvSpec : Spec (Bytes → Option Bytes) ClientOp (Option Bytes) where
  init := fun _ => none
  run m
    | .put key val => (none, Function.update m key (some val))
    | .get key => (m key, m)

/-- The answer a completion has been given. -/
def Loc.filled : Loc n → Option (Option Bytes)
  | .filling _ v | .done v => some v
  | _ => none

theorem Loc.answer_of_filled {l : Loc n} {v : Option Bytes} (h : l.filled = some v) :
    l.answer = some v := by
  cases l with
  | filling _ _ | done _ => exact h
  | _ => cases h

section

variable [NeZero n]

/-- The map the shards hold together. -/
def State.contents (s : State τ n) (key : Bytes) : Option Bytes := (s.workers (owner n key)).shard key

/-- The calls that have taken effect, in order, against the locations of the requests. -/
structure Tracked (s : State τ n) (loc : ℕ → Loc n) (lin : List (Entry ClientOp (Option Bytes))) :
    Prop where
  entries : ∀ e, e ∈ lin ↔ (loc e.id).answer = some e.ret ∧ s.reqs.opOf e.id = e.op
  invoked : ∀ id < s.reqs.length, .inv id (s.reqs.opOf id) ∈ s.hist
  explains : Linearizes kvSpec s.hist lin
  replay : kvSpec.Replay kvSpec.init lin s.contents
  routed : ∀ j key, (s.workers j).shard key ≠ none → owner n key = j
  log : ∀ id v, (id, v) ∈ s.fulfilled ↔ (loc id).filled = some v
  once : (s.fulfilled.map Prod.fst).Nodup

variable {s s' : State τ n} {loc loc' : ℕ → Loc n} {stack chain stack' chain' : Fin n → List ℕ}
  {lin : List (Entry ClientOp (Option Bytes))} {i : Fin n} {id : ℕ} {l : Loc n} {v : Option Bytes}

/-! ## Workers -/

omit [NeZero n] in
theorem Frame.shard (hf : Frame s s' i) (hsh : (s'.workers i).shard = (s.workers i).shard)
    (j : Fin n) : (s'.workers j).shard = (s.workers j).shard := by
  by_cases hj : j = i
  · rw [hj, hsh]
  · rw [hf.others j hj]

theorem Frame.contents (hf : Frame s s' i) (hsh : (s'.workers i).shard = (s.workers i).shard) :
    s'.contents = s.contents :=
  funext fun _ => congrFun (hf.shard hsh _) _

/-- A step of worker `i` at which no call takes effect. -/
theorem Tracked.quiet (h : Tracked s loc lin) (hf : Frame s s' i)
    (hsh : (s'.workers i).shard = (s.workers i).shard)
    (hans : ∀ id, (loc' id).answer = (loc id).answer)
    (hlog : ∀ id v, (id, v) ∈ s'.fulfilled ↔ (loc' id).filled = some v)
    (honce : (s'.fulfilled.map Prod.fst).Nodup) : Tracked s' loc' lin where
  entries := by simpa only [hans, hf.opOf] using h.entries
  invoked := by simpa only [hf.opOf, hf.length, hf.hist] using h.invoked
  explains := by simpa only [hf.hist] using h.explains
  replay := by simpa only [hf.contents hsh] using h.replay
  routed := by simpa only [hf.shard hsh] using h.routed
  log := hlog
  once := honce

/-- The call of request `id` takes effect. -/
theorem Tracked.point (h : Tracked s loc lin) (hf : Frame s s' i)
    (hful : s'.fulfilled = s.fulfilled) (hid : id < s.reqs.length)
    (hold : (loc id).answer = none) (hnew : l.answer = some v) (hfil : l.filled = (loc id).filled)
    (hrun : kvSpec.run s.contents (s.reqs.opOf id) = (v, s'.contents))
    (hrt : ∀ key, (s'.workers i).shard key ≠ none → owner n key = i) :
    Tracked s' (Function.update loc id l) (lin ++ [⟨id, s.reqs.opOf id, v⟩]) := by
  -- the call had no answer yet, so it is not in the order
  have hnotin : id ∉ lin.map Entry.id := by
    intro hin
    obtain ⟨e, he, rfl⟩ := List.mem_map.mp hin
    rw [((h.entries e).mp he).1] at hold
    cases hold
  constructor
  case entries =>
    intro e
    rw [List.mem_append, h.entries, List.mem_singleton, hf.opOf]
    by_cases he : e.id = id
    · subst he
      rw [Function.update_self, hold, hnew]
      constructor
      · rintro (⟨⟨⟩, -⟩ | he)
        rw [he]
        exact ⟨rfl, rfl⟩
      · rintro ⟨⟨⟩, hop⟩
        exact .inr (by rw [hop])
    · rw [Function.update_of_ne he]
      constructor
      · rintro (he' | he')
        · exact he'
        · exact absurd (congrArg Entry.id he') he
      · exact .inl
  case invoked => simpa only [hf.opOf, hf.length, hf.hist] using h.invoked
  case explains =>
    rw [hf.hist]
    exact h.explains.point (h.invoked id hid) hnotin h.replay (congrArg Prod.fst hrun)
  case replay =>
    have := h.replay.concat (e := ⟨id, s.reqs.opOf id, v⟩) (congrArg Prod.fst hrun)
    rwa [hrun] at this
  case routed =>
    intro j key hj
    by_cases hji : j = i
    · subst hji
      exact hrt key hj
    · rw [hf.others j hji] at hj
      exact h.routed j key hj
  case log =>
    intro j x
    rw [hful, h.log, apply_update_of_eq Loc.filled hfil]
  case once => simpa only [hful] using h.once

/-- A `Get` looks its key up in the shard of the owner. -/
theorem Tracked.look {key : Bytes} (h : Tracked s loc lin) (hf : Frame s s' i)
    (hsh : (s'.workers i).shard = (s.workers i).shard) (hful : s'.fulfilled = s.fulfilled)
    (hop : s.reqs.opOf id = .get key) (hown : owner n key = i) (hid : id < s.reqs.length)
    (hold : (loc id).answer = none) (hnew : l.answer = some ((s.workers i).shard key))
    (hfil : l.filled = (loc id).filled) :
    Tracked s' (Function.update loc id l) (lin ++ [⟨id, s.reqs.opOf id, (s.workers i).shard key⟩]) := by
  refine h.point hf hful hid hold hnew hfil ?_ fun k hk => h.routed i k (hsh ▸ hk)
  rw [hop, hf.contents hsh]
  show (s.contents key, s.contents) = _
  rw [State.contents, hown]

/-- The owner serves a put. -/
theorem Tracked.put {key val : Bytes} (h : Tracked s loc lin) (hf : Frame s s' i)
    (hsh : (s'.workers i).shard = (s.workers i).shard.insert key val)
    (hful : s'.fulfilled = s.fulfilled) (hop : s.reqs.opOf id = .put key val)
    (hown : owner n key = i) (hid : id < s.reqs.length) (hloc : loc id = .queued i) :
    Tracked s' (Function.update loc id (.ready i none)) (lin ++ [⟨id, s.reqs.opOf id, none⟩]) := by
  refine h.point hf hful hid (by rw [hloc]; rfl) rfl (by rw [hloc]; rfl) ?_ fun k hk => ?_
  · rw [hop]
    refine Prod.ext rfl (funext fun k => ?_)
    show Function.update s.contents key (some val) k = s'.contents k
    by_cases ho : owner n k = i
    · have hc : s.contents k = (s.workers i).shard k := by rw [State.contents, ho]
      rw [State.contents, ho, hsh, Shard.insert_apply, Function.update_apply, hc]
    · have hk : k ≠ key := fun hk => ho (hk ▸ hown)
      rw [Function.update_of_ne hk, State.contents, State.contents, hf.others _ ho]
  · rw [hsh, Shard.insert_apply] at hk
    by_cases hkey : k = key
    · rw [hkey, hown]
    · rw [if_neg hkey] at hk
      exact h.routed i k hk

/-- `fulfill` stores the value. -/
theorem Tracked.store (h : Tracked s loc lin) (hf : Frame s s' i)
    (hsh : (s'.workers i).shard = (s.workers i).shard)
    (hful : s'.fulfilled = s.fulfilled ++ [(id, v)]) (hloc : loc id = .ready i v) :
    Tracked s' (Function.update loc id (.filling i v)) lin := by
  have hnone : (loc id).filled = none := by rw [hloc]; rfl
  refine h.quiet hf hsh (apply_update_of_eq Loc.answer (by rw [hloc]; rfl)) ?_ ?_
  · intro j x
    rw [hful, List.mem_append, h.log, List.mem_singleton, Prod.mk.injEq]
    by_cases hj : j = id
    · subst hj
      rw [Function.update_self, hnone]
      simp [Loc.filled, eq_comm]
    · simp [hj]
  · rw [hful, List.map_append, List.map_singleton, List.nodup_append]
    refine ⟨h.once, List.nodup_singleton _, ?_⟩
    rintro j hj x hx rfl
    obtain rfl := List.mem_singleton.mp hx
    obtain ⟨⟨j', x⟩, hmem, rfl⟩ := List.mem_map.mp hj
    rw [(h.log j' x).mp hmem] at hnone
    cases hnone

/-- An action makes a call take effect when it looks at the shard, and only then. -/
theorem Tracked.advance (h : Tracked s loc lin) (ho : Owned s.snap loc stack chain)
    (hf : Frame s s' i) (ha : Advance s s' i loc stack chain loc' stack' chain') :
    ∃ lin', Tracked s' loc' lin' := by
  cases ha with
  | swap _ _ hsh hful | walk _ hsh hful =>
      exact ⟨lin, h.quiet hf hsh (fun _ => rfl) (hful ▸ h.log) (hful ▸ h.once)⟩
  | @move id l m log k he hsh hful htok =>
      have hborn : (loc id).place ≠ none → id < s.reqs.length := fun hp => ((ho.ok id).of_place hp).1
      have hpass : m = (s.workers i).shard → log = [] → l.answer = (loc id).answer →
          l.filled = (loc id).filled → Tracked s' (Function.update loc id l) lin := by
        rintro rfl rfl hans hfil
        rw [List.append_nil] at hful
        refine h.quiet hf hsh (apply_update_of_eq Loc.answer hans) (fun j v => ?_) (hful ▸ h.once)
        rw [hful, apply_update_of_eq Loc.filled hfil]
        exact h.log j v
      generalize hloc : loc id = l₀ at he hborn hpass
      cases he with
      | take | send | pop | reply | collect | done => exact ⟨lin, hpass rfl rfl rfl rfl⟩
      | store => exact ⟨lin, h.store hf hsh hful hloc⟩
      | put hop hown =>
          exact ⟨_, h.put hf hsh (by simpa using hful) hop hown (hborn nofun) hloc⟩
      | get hop hown | look hop hown =>
          exact ⟨_, h.look hf hsh (by simpa using hful) hop hown (hborn nofun) (by rw [hloc]; rfl) rfl
            (by rw [hloc]; rfl)⟩

/-! ## Clients -/

section

variable [DecidableEq τ] {t : τ} {pc : ClientPc n}

/-- A step of a client that leaves the history alone. -/
theorem Tracked.client {reqs : Heap} {ing : Fin n → Option ℕ} (h : Tracked s loc lin)
    (hlen : reqs.length = s.reqs.length) (hop : reqs.opOf = s.reqs.opOf)
    (hans : l.answer = (loc id).answer) (hfil : l.filled = (loc id).filled) :
    Tracked { s.clientGoto t pc with reqs := reqs, ingress := ing } (Function.update loc id l) lin where
  entries e := by
    rw [apply_update_of_eq Loc.answer hans]
    simpa only [hop] using h.entries e
  invoked j hj := by
    rw [hop]
    exact h.invoked j (hlen ▸ hj)
  explains := h.explains
  replay := h.replay
  routed := h.routed
  log j x := by
    rw [apply_update_of_eq Loc.filled hfil]
    exact h.log j x
  once := h.once

/-- A call is made. -/
theorem Tracked.submit {accept : Fin n} {op : ClientOp} (h : Tracked s loc lin)
    (hloc : loc s.reqs.length = .unborn) :
    Tracked { s.clientGoto t (.push accept s.reqs.length) with
        reqs := s.reqs ++ [{ op, next := none, done := false, value := none }]
        hist := s.hist ++ [.inv s.reqs.length op] }
      (Function.update loc s.reqs.length .pushing) lin where
  -- the new request has no answer, so it is no entry of the order
  entries e := by
    rw [apply_update_of_eq Loc.answer (by rw [hloc]; rfl), h.entries]
    refine and_congr_right fun hans => ?_
    have hne : e.id ≠ s.reqs.length := by
      intro he
      rw [he, hloc] at hans
      cases hans
    rw [show Heap.opOf (s.reqs ++ [_]) e.id = s.reqs.opOf e.id from readField_append hne]
  invoked j hj := by
    have hop : Heap.opOf (s.reqs ++ [{ op, next := none, done := false, value := none }])
        s.reqs.length = op := readField_append_self
    show Event.inv j (Heap.opOf (s.reqs ++ [_]) j) ∈ s.hist ++ [_]
    by_cases hjl : j = s.reqs.length
    · subst hjl
      rw [hop]
      exact List.mem_append_right _ (List.mem_singleton_self _)
    · rw [show Heap.opOf (s.reqs ++ [_]) j = s.reqs.opOf j from readField_append hjl]
      refine List.mem_append_left _ (h.invoked j ?_)
      have : j < s.reqs.length + 1 := by simpa using hj
      omega
  explains := by
    refine h.explains.call ?_
    intro hin
    obtain ⟨e, he, hid⟩ := List.mem_map.mp hin
    have := ((h.entries e).mp he).1
    rw [hid, hloc] at this
    cases this
  replay := h.replay
  routed := h.routed
  log j x := by
    rw [apply_update_of_eq Loc.filled (by rw [hloc]; rfl)]
    exact h.log j x
  once := h.once

/-- A call returns. -/
theorem Tracked.take (h : Tracked s loc lin) (hloc : loc id = .done (s.reqs.valueOf id)) :
    Tracked { s.clientGoto t .idle with
        reqs := s.reqs.setValue id none
        hist := s.hist ++ [.res id (s.reqs.valueOf id)] } loc lin where
  entries e := by simpa using h.entries e
  invoked j hj := by
    refine List.mem_append_left _ ?_
    simpa using h.invoked j (by simpa using hj)
  explains := by
    have hmem : (⟨id, s.reqs.opOf id, s.reqs.valueOf id⟩ : Entry ClientOp (Option Bytes)) ∈ lin :=
      (h.entries _).mpr ⟨by rw [hloc]; rfl, rfl⟩
    exact h.explains.ret hmem
  replay := h.replay
  routed := h.routed
  log := h.log
  once := h.once

end

/-! ## The invariant of the running service -/

/-- Every request is where `loc` says, and the calls that have taken effect explain the history. -/
def Inv (s : State τ n) : Prop :=
  ∃ loc stack chain lin, Owned s.snap loc stack chain ∧ Tracked s loc lin

theorem tracked_new : Tracked (State.new τ n) (fun _ => .unborn) [] where
  entries e := by simp [Loc.answer]
  invoked id hid := absurd hid (Nat.not_lt_zero id)
  explains := .empty
  replay := rfl
  routed _ _ hj := absurd rfl hj
  log id v := by simp [State.new, Loc.filled]
  once := List.nodup_nil

theorem Tracked.goto {pc : Pc n} (h : Tracked s loc lin) : Tracked (s.goto i pc) loc lin :=
  h.quiet (frame_update rfl rfl fun _ => .inl rfl) (by simp [State.goto]) (fun _ => rfl) h.log h.once

theorem Inv.worker {cap : ℕ} (h : Inv s) (hlim : (s.workers i).nextToken < 2 ^ 48)
    (hst : WorkerStep cap s i s') : Inv s' := by
  obtain ⟨loc, stack, chain, lin, ho, ht⟩ := h
  cases hst with
  | scan hsc => exact ⟨loc, stack, chain, lin, snap_goto_self hsc.view ▸ ho, ht.goto⟩
  | act hact =>
      obtain ⟨hf, loc', stack', chain', ho', ha⟩ := ho.act (fun _ _ => hlim) hact
      obtain ⟨lin', ht'⟩ := ht.advance ho hf ha
      exact ⟨loc', stack', chain', lin', ho', ht'⟩

theorem Inv.client [DecidableEq τ] {t : τ} (h : Inv s) (hst : ClientStep s t s') : Inv s' := by
  obtain ⟨loc, stack, chain, lin, ho, ht⟩ := h
  have hsame : ∀ {reqs : Heap} {pc : ClientPc n}, reqs.length = s.reqs.length →
      reqs.opOf = s.reqs.opOf → Tracked { s.clientGoto t pc with reqs := reqs } loc lin := by
    intro reqs pc hlen hop
    rw [← Function.update_eq_self 0 loc]
    exact ht.client hlen hop rfl rfl
  cases hst with
  | submit hpc hr =>
      have hloc : loc s.reqs.length = .unborn := (ho.ok _).born.mpr le_rfl
      exact ⟨_, _, _, lin, ho.submit hpc hr, ht.submit hloc⟩
  | push hpc => exact ⟨_, _, _, lin, ho.push hpc, hsame (by simp) (by simp)⟩
  | casOk hpc hh =>
      obtain ⟨hloc, ho'⟩ := ho.casOk hpc hh
      exact ⟨_, _, _, lin, ho', ht.client rfl rfl (by rw [hloc]; rfl) (by rw [hloc]; rfl)⟩
  | casFail hpc => exact ⟨_, _, _, lin, ho.casFail hpc, hsame rfl rfl⟩
  | waitMore hpc => exact ⟨_, _, _, lin, ho, ht⟩
  | waitDone hpc hd => exact ⟨_, _, _, lin, ho.waitDone hpc hd, hsame rfl rfl⟩
  | take hpc =>
      obtain ⟨hloc, ho'⟩ := ho.take hpc
      exact ⟨_, _, _, lin, ho', ht.take hloc⟩

/-- The service is running: no worker has run out of tokens and `shutdown` has not been called. -/
def Running (s : State τ n) : Label τ n → Prop
  | .stop => False
  | .client _ _ | .worker _ => ∀ i, (s.workers i).nextToken < 2 ^ 48

instance (s : State τ n) : (l : Label τ n) → Decidable (Running s l)
  | .stop => .isFalse fun h => h
  | .client _ _ | .worker _ => inferInstanceAs (Decidable (∀ i, (s.workers i).nextToken < 2 ^ 48))

theorem inv_of_reachable [DecidableEq τ] {cap : ℕ}
    (hs : ((machine τ n cap).restrict Running).Reachable s) : Inv s := by
  refine hs.invariant (fun s h => ?_) fun s l s' _ h hst => ?_
  · obtain rfl : s = State.new τ n := h
    exact ⟨_, _, _, [], owned_new, tracked_new⟩
  · obtain ⟨hrun, hst⟩ := hst
    rcases l with ⟨t, a⟩ | i | _
    · exact h.client (clientStep_of_step hst)
    · exact h.worker (hrun i) (workerStep_of_step hst)
    · exact hrun.elim

/-- However clients, workers and full queues interleave, every request is fulfilled at most once and
with the answer it has in one sequential order of the calls, the shards hold only the keys routed to
them, and that order explains the history of the calls. -/
theorem mesh_service_linearizable [DecidableEq τ] {cap : ℕ}
    (hs : ((machine τ n cap).restrict Running).Reachable s) :
    (s.fulfilled.map Prod.fst).Nodup ∧
    (∀ j key, (s.workers j).shard key ≠ none → owner n key = j) ∧
    ∃ lin, Linearizes kvSpec s.hist lin ∧
      ∀ id v, (id, v) ∈ s.fulfilled → ⟨id, s.reqs.opOf id, v⟩ ∈ lin := by
  obtain ⟨loc, stack, chain, lin, ho, ht⟩ := inv_of_reachable hs
  refine ⟨ht.once, ht.routed, lin, ht.explains, fun id v hmem => ?_⟩
  exact (ht.entries _).mpr ⟨Loc.answer_of_filled ((ht.log id v).mp hmem), rfl⟩

end

/-- One client puts a key, then another asks the worker that does not own it. -/
def sampleSchedule : List (Label Bool 2) :=
  .client false (.put [0] [5]) :: List.replicate 2 (.client false (.run true)) ++
    List.replicate 11 (.worker 1) ++ List.replicate 2 (.client false (.run true)) ++
    .client true (.getRoundRobin [0] 0) :: List.replicate 2 (.client true (.run true)) ++
    List.replicate 12 (.worker 0) ++ List.replicate 5 (.worker 1) ++ List.replicate 7 (.worker 0) ++
    List.replicate 2 (.client true (.run true))

def sampleEnd : State Bool 2 :=
  (Machine.runFn (fun s l => if Running s l then step 1 s l else none) (.new Bool 2)
    sampleSchedule).getD (.new Bool 2)

theorem mesh_service_linearizable_sample :
    sampleEnd.fulfilled = [(0, none), (1, some [5])] ∧
    ∃ lin, Linearizes kvSpec sampleEnd.hist lin ∧
      ⟨1, .get [0], some [5]⟩ ∈ lin := by
  have hs : ((machine Bool 2 1).restrict Running).Reachable sampleEnd :=
    Machine.reachable_restrict_of_runFn
      (show Machine.runFn _ _ sampleSchedule = some sampleEnd from rfl)
  have hlog : sampleEnd.fulfilled = [(0, none), (1, some [5])] := rfl
  obtain ⟨-, -, lin, hlin, hans⟩ := mesh_service_linearizable hs
  exact ⟨hlog, lin, hlin, hans 1 (some [5]) (by rw [hlog]; simp)⟩

end ZeroKv.Mesh.Service
