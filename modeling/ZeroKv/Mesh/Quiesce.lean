/-
# ZeroKv.Mesh.Quiesce — the put mesh stops exactly when every put has been applied, once.

Two bookkeeping facts carry the proof.  `Counted` is a conservation law: what was sent is what was
applied, plus what sits in a queue, plus what some worker holds between two steps.  So when a worker
that has seen every peer announce reads the same number from both counters, nothing is left anywhere.
`Streamed` follows the puts of worker `i` for the shard of `j` through the log of `j`, its hands, the
queue and the hands of `i`: read in this order they are always the workload of `i`, in order.
-/
import ZeroKv.Mesh.Put

namespace ZeroKv.Mesh.Put

variable {n : ℕ}

/-! ## What a program point holds -/

def DrainCaller.caller : DrainCaller n → Caller
  | .pump c | .reply c _ _ _ => c

/-- The loop a worker is in: `put` and the exit test count as the loop that called them. -/
def Pc.caller : Pc n → Caller
  | .items l => .items l
  | .insertLocal item rest | .push item rest => .push item rest
  | .countLocal rest => .items rest
  | .pump c _ | .apply c _ _ | .count c _ | .answer c _ _ _ _ | .reply c _ _ _ => c
  | .drain c _ => c.caller
  | .loadDone | .loadSent _ | .loadApplied _ _ => .quiesce
  | .exited => .last

/-- The items a worker has not looked at. -/
def Caller.todo : Caller → List Item
  | .items rest | .push _ rest => rest
  | .quiesce | .last => []

/-- The item a worker has taken from its workload and neither pushed nor inserted. -/
def Caller.hand : Caller → List Item
  | .push item _ => [item]
  | _ => []

/-- The worker has announced the end of its workload. -/
def Caller.announced : Caller → Bool
  | .quiesce | .last => true
  | _ => false

/-- The put a worker has popped and not yet inserted. -/
def Pc.taken : Pc n → List (Fin n × Item)
  | .apply _ src item => [(src, item)]
  | _ => []

/-- A reply that waits for room belongs to a command that is not counted yet. -/
def DrainCaller.uncounted : DrainCaller n → ℕ
  | .pump _ => 0
  | .reply _ _ _ _ => 1

/-- Commands a worker has popped, or inserted, and not yet counted. -/
def Pc.uncounted : Pc n → ℕ
  | .countLocal _ | .apply _ _ _ | .count _ _ | .answer _ _ _ _ _ | .reply _ _ _ _ => 1
  | .drain c _ => c.uncounted
  | _ => 0

/-- Commands a worker holds between two steps. -/
def Pc.held (pc : Pc n) : ℕ := pc.caller.hand.length + pc.uncounted

@[simp] theorem resume_caller (c : DrainCaller n) : c.resume.caller = c.caller := by
  rcases c with c | _
  · cases c <;> rfl
  · rfl

@[simp] theorem resume_taken (c : DrainCaller n) : c.resume.taken = [] := by
  rcases c with c | _
  · cases c <;> rfl
  · rfl

@[simp] theorem resume_uncounted (c : DrainCaller n) : c.resume.uncounted = c.uncounted := by
  rcases c with c | _
  · cases c <;> rfl
  · rfl

/-! ## Conservation -/

/-- Commands in the queues. -/
def State.queued (s : State n) : ℕ := ∑ ij, (s.cmd ij).length

@[simp] theorem queued_goto (s : State n) (i : Fin n) (pc : Pc n) : (s.goto i pc).queued = s.queued :=
  rfl

theorem queued_setCmd (s : State n) (ij : Fin n × Fin n) (q : List (Command n)) :
    (s.setCmd ij q).queued + (s.cmd ij).length = s.queued + q.length :=
  sum_update (fun _ l => l.length) s.cmd ij q

/-- What was sent is what was applied, queued or held; what was not sent is still to do; and
`phase1_done` counts the workers that have announced. -/
structure Counted (work : Fin n → List Item) (s : State n) : Prop where
  conserve : s.applied + ∑ i, (s.workers i).pc.held + s.queued = s.sent
  total : s.sent + ∑ i, (s.workers i).pc.caller.todo.length = ∑ i, (work i).length
  announced : s.phase1Done = ∑ i, (s.workers i).pc.caller.announced.toNat

variable {work : Fin n → List Item} {s s' : State n} {i : Fin n}

/-- One worker moves: its own contribution is all that has to be balanced. -/
theorem Counted.move {w : Worker n} (h : Counted work s)
    (hw : s'.workers = Function.update s.workers i w)
    (hcons : s'.applied + w.pc.held + s'.queued + s.sent =
      s.applied + (s.workers i).pc.held + s.queued + s'.sent)
    (htodo : s'.sent + w.pc.caller.todo.length = s.sent + (s.workers i).pc.caller.todo.length)
    (hann : s'.phase1Done + (s.workers i).pc.caller.announced.toNat =
      s.phase1Done + w.pc.caller.announced.toNat) : Counted work s' := by
  obtain ⟨h1, h2, h3⟩ := h
  have hheld := sum_update (fun _ (w : Worker n) => w.pc.held) s.workers i w
  have hdo := sum_update (fun _ (w : Worker n) => w.pc.caller.todo.length) s.workers i w
  have han := sum_update (fun _ (w : Worker n) => w.pc.caller.announced.toNat) s.workers i w
  rw [← hw] at hheld hdo han
  constructor <;> omega

/-- A step that stays in its loop and neither counts nor moves a command. -/
theorem Counted.stay {w : Worker n} (h : Counted work s)
    (hw : s'.workers = Function.update s.workers i w)
    (hcaller : w.pc.caller = (s.workers i).pc.caller)
    (hun : w.pc.uncounted = (s.workers i).pc.uncounted) (hsent : s'.sent = s.sent)
    (happ : s'.applied = s.applied) (hdone : s'.phase1Done = s.phase1Done)
    (hcmd : s'.cmd = s.cmd) : Counted work s' := by
  refine h.move hw ?_ ?_ ?_
  · simp only [Pc.held, State.queued, hcaller, hun, hsent, happ, hcmd]
  · rw [hcaller, hsent]
  · rw [hcaller, hdone]

theorem Counted.step [NeZero n] {cap : ℕ} (h : Counted work s) (hst : StepTo cap s i s') :
    Counted work s' := by
  cases hst with
  | @pushOk item rest hpc hcap =>
      have hq := queued_setCmd s (i, owner n item.1)
        (s.cmd (i, owner n item.1) ++ [.put item.1 item.2])
      rw [List.length_append, List.length_singleton] at hq
      refine h.move (i := i) rfl ?_ ?_ ?_ <;> rw [hpc]
      · show s.applied + 0 + (s.setCmd _ _).queued + s.sent = s.applied + 1 + s.queued + s.sent
        omega
      all_goals rfl
  | @pumpPut c key val q j hpc hq =>
      have hlen := queued_setCmd s (j, i) q
      rw [hq, List.length_cons] at hlen
      refine h.move (i := i) rfl ?_ ?_ ?_ <;> rw [hpc]
      · show s.applied + (c.hand.length + 1) + (s.setCmd _ _).queued + s.sent =
          s.applied + (c.hand.length + 0) + s.queued + s.sent
        omega
      all_goals rfl
  | @pumpGet c key dst token q j hpc hq =>
      have hlen := queued_setCmd s (j, i) q
      rw [hq, List.length_cons] at hlen
      refine h.move (i := i) rfl ?_ ?_ ?_ <;> rw [hpc]
      · show s.applied + (c.hand.length + 1) + (s.setCmd _ _).queued + s.sent =
          s.applied + (c.hand.length + 0) + s.queued + s.sent
        omega
      all_goals rfl
  | announce hpc | takeLocal hpc _ | takeRemote hpc _ | insertLocal hpc | countLocal hpc
  | apply hpc | count hpc | leave hpc _ =>
      refine h.move (i := i) rfl ?_ ?_ ?_ <;> rw [hpc] <;>
        simp [State.goto, State.insert, State.queued, Pc.held, Pc.caller, Pc.uncounted,
          Caller.hand, Caller.todo, Caller.announced] <;> omega
  | pushFull hpc | pumpEmpty hpc | pumpEnd hpc | answer hpc | replyOk hpc | replyFull hpc
  | drainEmpty hpc | drainTake hpc | drainEnd hpc | loadDone hpc | loadSent hpc | again hpc =>
      refine h.stay (i := i) rfl ?_ ?_ rfl rfl rfl rfl <;> simp [hpc, State.setReply] <;> rfl

/-! ## Leaving -/

/-- Every worker has announced the end of its workload. -/
def AllAnnounced (s : State n) : Prop := ∀ j, (s.workers j).pc.caller.announced = true

/-- What the exit test has established so far. -/
def ExitOk (s : State n) : Pc n → Prop
  | .loadSent allDone => allDone = true → AllAnnounced s
  | .loadApplied allDone sent => allDone = true → AllAnnounced s ∧ sent = s.sent
  | pc => pc.caller = .last → AllAnnounced s ∧ s.sent = s.applied

/-- The counter reaches `n` only when everybody has announced. -/
theorem Counted.allAnnounced (h : Counted work s) (hn : s.phase1Done = n) : AllAnnounced s := by
  have hsum : ∑ j, (s.workers j).pc.caller.announced.toNat = ∑ _j : Fin n, 1 := by
    rw [← h.announced, hn]
    simp
  have hone := (Finset.sum_eq_sum_iff_of_le fun j _ => Bool.toNat_le _).mp hsum
  intro j
  simpa using hone j (Finset.mem_univ j)

/-- When both counters agree nothing is queued and nothing is held. -/
theorem Counted.empty (h : Counted work s) (he : s.sent = s.applied) (ij : Fin n × Fin n) :
    s.cmd ij = [] := by
  have hz : s.queued = 0 := by
    have := h.conserve
    omega
  have := (Finset.sum_eq_zero_iff.mp hz) ij (Finset.mem_univ ij)
  exact List.length_eq_zero_iff.mp this

variable [NeZero n] {cap : ℕ}

/-- A worker never takes its announcement back. -/
theorem announced_step (hst : StepTo cap s i s') (j : Fin n)
    (hj : (s.workers j).pc.caller.announced = true) :
    (s'.workers j).pc.caller.announced = true := by
  have hw : ∃ w, s'.workers = Function.update s.workers i w ∧
      ((s.workers i).pc.caller.announced = true → w.pc.caller.announced = true) := by
    cases hst with
    | announce hpc | takeLocal hpc _ | takeRemote hpc _ | insertLocal hpc | countLocal hpc
    | pushOk hpc _ | pushFull hpc | pumpEmpty hpc | pumpPut hpc _ | pumpGet hpc _ | pumpEnd hpc
    | apply hpc | count hpc | answer hpc | replyOk hpc | replyFull hpc | drainEmpty hpc
    | drainTake hpc | loadDone hpc | loadSent hpc | again hpc | leave hpc _ =>
        refine ⟨_, rfl, ?_⟩
        simp [hpc, State.setReply, Pc.caller, DrainCaller.caller, Caller.announced]
    | @drainEnd c src hpc =>
        refine ⟨_, rfl, ?_⟩
        rw [hpc, resume_caller]
        exact id
  obtain ⟨w, hw, hmono⟩ := hw
  rw [hw]
  by_cases hji : j = i
  · subst hji
    simpa using hmono hj
  · simpa [hji] using hj

/-- A worker that has announced sends nothing, and no counter goes back. -/
theorem counters_step (hst : StepTo cap s i s') :
    (s'.sent = s.sent ∨ (s.workers i).pc.caller.announced = false) ∧ s.applied ≤ s'.applied := by
  cases hst with
  | takeLocal hpc _ | takeRemote hpc _ =>
      rw [hpc]
      exact ⟨.inr rfl, le_rfl⟩
  | countLocal _ | count _ => exact ⟨.inl rfl, Nat.le_succ _⟩
  | _ => exact ⟨.inl rfl, le_rfl⟩

theorem AllAnnounced.step (h : AllAnnounced s) (hst : StepTo cap s i s') :
    AllAnnounced s' ∧ s'.sent = s.sent := by
  refine ⟨fun j => announced_step hst j (h j), (counters_step hst).1.resolve_right ?_⟩
  rw [h i]
  decide

/-- What a worker has established survives the steps of the others. -/
theorem ExitOk.mono {pc : Pc n} (hc : Counted work s) (hst : StepTo cap s i s') (h : ExitOk s pc) :
    ExitOk s' pc := by
  have hlast : AllAnnounced s ∧ s.sent = s.applied → AllAnnounced s' ∧ s'.sent = s'.applied := by
    rintro ⟨hall, he⟩
    obtain ⟨hall', hs⟩ := hall.step hst
    have h1 := (counters_step hst).2
    have h2 := (hc.step hst).conserve
    exact ⟨hall', by omega⟩
  cases pc with
  | loadSent b => exact fun hb => ((h hb).step hst).1
  | loadApplied b v =>
      exact fun hb => ⟨((h hb).1.step hst).1, (h hb).2.trans ((h hb).1.step hst).2.symm⟩
  | _ => exact fun hl => hlast (h hl)

theorem exitOk_step (hc : Counted work s) (h : ∀ j, ExitOk s (s.workers j).pc)
    (hst : StepTo cap s i s') (j : Fin n) : ExitOk s' (s'.workers j).pc := by
  have hw : ∃ w, s'.workers = Function.update s.workers i w ∧ ExitOk s w.pc := by
    have hi := h i
    cases hst with
    | announce hpc | takeLocal hpc _ | takeRemote hpc _ | insertLocal hpc | countLocal hpc
    | pushOk hpc _ | pushFull hpc | again hpc => exact ⟨_, rfl, nofun⟩
    | loadDone hpc => exact ⟨_, rfl, fun hn => hc.allAnnounced (of_decide_eq_true hn)⟩
    | loadSent hpc =>
        rw [hpc] at hi
        exact ⟨_, rfl, fun hb => ⟨hi hb, rfl⟩⟩
    | leave hpc he =>
        rw [hpc] at hi
        exact ⟨_, rfl, fun _ => ⟨(hi rfl).1, (hi rfl).2 ▸ he⟩⟩
    | @drainEnd c src hpc =>
        rw [hpc] at hi
        refine ⟨_, rfl, ?_⟩
        rcases c with c | _
        · cases c with
          | last => exact hi
          | _ => exact nofun
        · exact hi
    | drainTake hpc =>
        refine ⟨_, rfl, ?_⟩
        exact hi
    | pumpEmpty hpc | pumpPut hpc _ | pumpGet hpc _ | pumpEnd hpc | apply hpc | count hpc
    | answer hpc | replyOk hpc | replyFull hpc | drainEmpty hpc =>
        rw [hpc] at hi
        exact ⟨_, rfl, hi⟩
  obtain ⟨w, hw, hok⟩ := hw
  rw [hw]
  by_cases hji : j = i
  · subst hji
    simpa using hok.mono hc hst
  · simpa [hji] using (h j).mono hc hst

/-! ## Order -/

/-- The puts of a queue. -/
def putsOf (q : List (Command n)) : List Item :=
  q.filterMap fun
    | .put key val => some (key, val)
    | .get _ _ _ => none

/-- What a worker has received from `a`, oldest first. -/
def Worker.received (w : Worker n) (a : Fin n) : List Item :=
  ((w.log.filter (·.1 = a)).map (·.2)).reverse ++ (w.pc.taken.filter (·.1 = a)).map (·.2)

/-- What a worker has still to send to `b`, in the order of its workload. -/
def Worker.outgoing (w : Worker n) (b : Fin n) : List Item :=
  (w.pc.caller.hand ++ w.pc.caller.todo).filter (owner n ·.1 = b)

/-- A worker routes by owner: it inserts its own keys and pushes the others. -/
def PcOk (i : Fin n) : Pc n → Prop
  | .insertLocal item _ => owner n item.1 = i
  | pc => ∀ item ∈ pc.caller.hand, owner n item.1 ≠ i

/-- Everything worker `a` has for the shard of `b` is on its way in the order of the workload. -/
structure Streamed (work : Fin n → List Item) (s : State n) : Prop where
  stream : ∀ a b, (s.workers b).received a ++ (putsOf (s.cmd (a, b)) ++ (s.workers a).outgoing b) =
    (work a).filter (owner n ·.1 = b)
  self : ∀ a, s.cmd (a, a) = []
  routed : ∀ a, PcOk a (s.workers a).pc
  shard : ∀ b key, (s.workers b).shard key = ((s.workers b).log.map (·.2)).lookup key

/-- The general shape of a step: worker `i` becomes `w`. -/
theorem Streamed.move {w : Worker n} (h : Streamed work s)
    (hw : s'.workers = Function.update s.workers i w)
    (hstream : ∀ a b, (Function.update s.workers i w b).received a ++
        (putsOf (s'.cmd (a, b)) ++ (Function.update s.workers i w a).outgoing b) =
      (s.workers b).received a ++ (putsOf (s.cmd (a, b)) ++ (s.workers a).outgoing b))
    (hself : ∀ a, s'.cmd (a, a) = []) (hpc : PcOk i w.pc)
    (hshard : ∀ key, w.shard key = (w.log.map (·.2)).lookup key) : Streamed work s' := by
  refine ⟨fun a b => ?_, hself, fun a => ?_, fun b => ?_⟩ <;> rw [hw]
  · rw [← h.stream a b, hstream]
  · by_cases ha : a = i
    · subst ha
      simpa using hpc
    · simpa [ha] using h.routed a
  · by_cases hb : b = i
    · subst hb
      simpa using hshard
    · simpa [hb] using h.shard b

/-- A step of worker `i` that moves no put. -/
theorem Streamed.stay {w : Worker n} (h : Streamed work s)
    (hw : s'.workers = Function.update s.workers i w)
    (hrec : w.received = (s.workers i).received) (hout : w.outgoing = (s.workers i).outgoing)
    (hcmd : ∀ ij, putsOf (s'.cmd ij) = putsOf (s.cmd ij)) (hself : ∀ a, s'.cmd (a, a) = [])
    (hpc : PcOk i w.pc) (hshard : ∀ key, w.shard key = (w.log.map (·.2)).lookup key) :
    Streamed work s' := by
  refine h.move hw (fun a b => ?_) hself hpc hshard
  have hr : ∀ b, (Function.update s.workers i w b).received = (s.workers b).received := by
    intro b
    by_cases hb : b = i
    · subst hb
      simpa using hrec
    · simp [hb]
  have ho : ∀ a, (Function.update s.workers i w a).outgoing = (s.workers a).outgoing := by
    intro a
    by_cases ha : a = i
    · subst ha
      simpa using hout
    · simp [ha]
  rw [hr, ho, hcmd]

/-- A step of worker `i` that only moves its program point. -/
theorem Streamed.goto (h : Streamed work s) {pc : Pc n} (hcmd : s'.cmd = s.cmd)
    (hw : s'.workers = Function.update s.workers i { s.workers i with pc := pc })
    (htaken : pc.taken = (s.workers i).pc.taken)
    (hitems : pc.caller.hand ++ pc.caller.todo =
      (s.workers i).pc.caller.hand ++ (s.workers i).pc.caller.todo)
    (hpc : PcOk i pc) : Streamed work s' := by
  refine h.stay hw ?_ ?_ (fun ij => by rw [hcmd]) (by rw [hcmd]; exact h.self) hpc (h.shard i)
  · funext a
    simp only [Worker.received, htaken]
  · funext b
    simp only [Worker.outgoing, hitems]

omit [NeZero n] in
@[simp] theorem putsOf_append_put (q : List (Command n)) (item : Item) :
    putsOf (q ++ [.put item.1 item.2]) = putsOf q ++ [item] := by
  simp [putsOf]

omit [NeZero n] in
@[simp] theorem putsOf_put (q : List (Command n)) (key val : Bytes) :
    putsOf (.put key val :: q) = (key, val) :: putsOf q := by
  simp [putsOf]

omit [NeZero n] in
/-- The shard stays the replay of its log. -/
theorem shard_insert {m : Shard} {log : List (Fin n × Item)}
    (h : ∀ key, m key = (log.map (·.2)).lookup key) (src : Fin n) (item : Item) (key : Bytes) :
    m.insert item.1 item.2 key = (((src, item) :: log).map (·.2)).lookup key := by
  rw [Shard.insert_apply, h, List.map_cons, List.lookup_cons]
  by_cases hk : key = item.1
  · simp [hk]
  · simp [hk, beq_false_of_ne hk]

/-- A put of our own: it skips the queue to ourselves, which is always empty. -/
theorem Streamed.insertLocal (h : Streamed work s) {item : Item} {rest : List Item}
    (hpc : (s.workers i).pc = .insertLocal item rest) :
    Streamed work (s.insert i i item (.countLocal rest)) := by
  have hi : owner n item.1 = i := by
    have := h.routed i
    rwa [hpc] at this
  refine h.move (i := i) rfl (fun a b => ?_) h.self nofun (shard_insert (h.shard i) i item)
  show _ ++ (putsOf (s.cmd (a, b)) ++ _) = _
  by_cases ha : a = i <;> by_cases hb : b = i
  · subst ha hb
    simp [Worker.received, Worker.outgoing, hpc, Pc.taken, Pc.caller, Caller.hand, Caller.todo, hi,
      h.self, putsOf]
  · subst ha
    simp [Worker.outgoing, hpc, Pc.caller, Caller.hand, Caller.todo, hi, hb, Ne.symm hb]
  · subst hb
    simp [Worker.received, hpc, Pc.taken, ha, Ne.symm ha]
  · simp [ha, hb]

theorem Streamed.pushOk (h : Streamed work s) {item : Item} {rest : List Item}
    (hpc : (s.workers i).pc = .push item rest) :
    Streamed work ((s.setCmd (i, owner n item.1)
      (s.cmd (i, owner n item.1) ++ [.put item.1 item.2])).goto i (.pump (.items rest) 0)) := by
  have hi : owner n item.1 ≠ i := by
    have := h.routed i
    rw [hpc] at this
    exact this item (by simp [Pc.caller, Caller.hand])
  refine h.move (i := i) rfl (fun a b => ?_) (fun a => ?_) nofun (h.shard i)
  · have hrec : (Function.update s.workers i { s.workers i with pc := .pump (.items rest) 0 }
        b).received a = (s.workers b).received a := by
      by_cases hb : b = i
      · subst hb
        simp [Worker.received, hpc, Pc.taken]
      · simp [hb]
    show (Function.update s.workers i _ b).received a ++
      (putsOf (Function.update s.cmd _ _ (a, b)) ++ _) = _
    rw [State.setCmd, hrec]
    by_cases hab : (a, b) = (i, owner n item.1)
    · obtain ⟨rfl, rfl⟩ := Prod.mk.inj hab
      simp [Worker.outgoing, hpc, Pc.caller, Caller.hand, Caller.todo]
    · rw [Function.update_of_ne hab]
      by_cases ha : a = i
      · subst ha
        have hb : owner n item.1 ≠ b := by
          rintro rfl
          exact hab rfl
        simp [Worker.outgoing, hpc, Pc.caller, Caller.hand, Caller.todo, hb]
      · simp [ha]
  · show Function.update s.cmd _ _ (a, a) = []
    rw [Function.update_of_ne, h.self]
    rintro he
    obtain ⟨rfl, ho⟩ := Prod.mk.inj he
    exact hi ho.symm

theorem Streamed.self_pop (h : Streamed work s) {j : Fin n} {c : Command n} {q : List (Command n)}
    (hq : s.cmd (j, i) = c :: q) (a : Fin n) : Function.update s.cmd (j, i) q (a, a) = [] := by
  rw [Function.update_of_ne, h.self]
  rintro he
  obtain ⟨rfl, rfl⟩ := Prod.mk.inj he
  simp [h.self] at hq

theorem Streamed.pumpPut (h : Streamed work s) {c : Caller} {key val : Bytes} {q : List (Command n)}
    {j : Fin n} (hpc : (s.workers i).pc = .pump c j) (hq : s.cmd (j, i) = .put key val :: q) :
    Streamed work ((s.setCmd (j, i) q).goto i (.apply c j (key, val))) := by
  have hi := h.routed i
  rw [hpc] at hi
  refine h.move (i := i) rfl (fun a b => ?_) (h.self_pop hq) hi (h.shard i)
  have hout : (Function.update s.workers i { s.workers i with pc := .apply c j (key, val) }
      a).outgoing b = (s.workers a).outgoing b := by
    by_cases ha : a = i
    · subst ha
      simp [Worker.outgoing, hpc, Pc.caller]
    · simp [ha]
  show _ ++ (putsOf (Function.update s.cmd (j, i) q (a, b)) ++
    (Function.update s.workers i _ a).outgoing b) = _
  rw [State.setCmd, hout]
  by_cases hab : (a, b) = (j, i)
  · obtain ⟨rfl, rfl⟩ := Prod.mk.inj hab
    simp [Worker.received, hpc, Pc.taken, hq]
  · rw [Function.update_of_ne hab]
    by_cases hb : b = i
    · subst hb
      have ha : j ≠ a := by
        rintro rfl
        exact hab rfl
      simp [Worker.received, hpc, Pc.taken, ha]
    · simp [hb]

theorem Streamed.step (h : Streamed work s) (hst : StepTo cap s i s') : Streamed work s' := by
  have hi := h.routed i
  cases hst with
  | insertLocal hpc => exact h.insertLocal hpc
  | pushOk hpc _ => exact h.pushOk hpc
  | pumpPut hpc hq => exact h.pumpPut hpc hq
  -- a `Get` is not part of any stream of puts
  | @pumpGet c key dst token q j hpc hq =>
      rw [hpc] at hi
      refine h.stay (i := i) rfl ?_ ?_ (fun ij => ?_) (fun a => ?_) hi (h.shard i)
      · funext a
        simp [Worker.received, hpc, Pc.taken, State.setCmd]
      · funext b
        simp [Worker.outgoing, hpc, Pc.caller]
      · show putsOf (Function.update s.cmd (j, i) q ij) = _
        by_cases hij : ij = (j, i)
        · subst hij
          simp [hq, putsOf]
        · rw [Function.update_of_ne hij]
      · exact h.self_pop hq a
  | @apply c src item hpc =>
      rw [hpc] at hi
      refine h.stay (i := i) rfl ?_ ?_ (fun _ => rfl) h.self hi (shard_insert (h.shard i) src item)
      · funext a
        by_cases ha : src = a <;> simp [Worker.received, hpc, Pc.taken, ha]
      · funext b
        simp [Worker.outgoing, hpc, Pc.caller]
  | @takeLocal item rest hpc ho =>
      exact h.goto (i := i) rfl rfl (by rw [hpc]; rfl) (by rw [hpc]; rfl) ho
  | @takeRemote item rest hpc ho =>
      refine h.goto (i := i) rfl rfl (by rw [hpc]; rfl) (by rw [hpc]; rfl) ?_
      simpa [PcOk, Pc.caller, Caller.hand] using ho
  | @drainEnd c src hpc =>
      rw [hpc] at hi
      refine h.goto (i := i) rfl rfl (by rw [hpc, resume_taken]; rfl)
        (by rw [hpc, resume_caller]; rfl) ?_
      rcases c with c | _
      · cases c <;> exact hi
      · exact hi
  | @drainTake c r q j hpc =>
      exact h.stay (i := i) rfl rfl rfl (fun _ => rfl) h.self hi (h.shard i)
  -- the other steps move no put
  | announce hpc | countLocal hpc | pushFull hpc | pumpEmpty hpc | pumpEnd hpc | count hpc
  | answer hpc | replyOk hpc | replyFull hpc | drainEmpty hpc | loadDone hpc | loadSent hpc
  | again hpc | leave hpc _ =>
      rw [hpc] at hi
      exact h.goto (i := i) rfl rfl (by rw [hpc]; rfl) (by rw [hpc]; rfl) hi

/-! ## Quiescence -/

structure Inv (work : Fin n → List Item) (s : State n) : Prop where
  counted : Counted work s
  leaving : ∀ j, ExitOk s (s.workers j).pc
  streamed : Streamed work s

theorem inv_of_reachable (hs : (machine cap work).Reachable s) : Inv work s := by
  refine hs.invariant ?_ ?_
  · rintro s rfl
    refine ⟨⟨?_, ?_, ?_⟩, fun _ => nofun, ⟨fun a b => ?_, fun _ => rfl, fun _ => nofun, fun _ _ => rfl⟩⟩
    · simp [State.new, State.queued, Pc.held, Pc.caller, Caller.hand, Pc.uncounted]
    · simp [State.new, Pc.caller, Caller.todo]
    · simp [State.new, Pc.caller, Caller.announced]
    · simp [State.new, Worker.received, Worker.outgoing, Pc.taken, putsOf, Pc.caller, Caller.hand,
        Caller.todo]
  · intro s i t _ hi hst
    have hto := stepTo_of_step hst
    exact ⟨hi.counted.step hto, exitOk_step hi.counted hi.leaving hto, hi.streamed.step hto⟩

theorem lookup_cons_ne {key k v : Bytes} (l : List Item) (hk : key ≠ k) :
    ((k, v) :: l).lookup key = l.lookup key := by
  rw [List.lookup_cons, beq_false_of_ne hk]

omit [NeZero n] in
/-- The latest entry for a key is the latest one of the worker it came from. -/
theorem lookup_of_log {log : List (Fin n × Item)} {key v : Bytes}
    (h : (log.map (·.2)).lookup key = some v) :
    ∃ a, ((log.filter (·.1 = a)).map (·.2)).lookup key = some v := by
  induction log with
  | nil => simp at h
  | cons x log ih =>
      obtain ⟨src, k, w⟩ := x
      by_cases hk : key = k
      · subst hk
        exact ⟨src, by simpa using h⟩
      · rw [List.map_cons, lookup_cons_ne _ hk] at h
        obtain ⟨a, ha⟩ := ih h
        refine ⟨a, ?_⟩
        by_cases hs : src = a
        · rw [List.filter_cons_of_pos (by simpa using hs), List.map_cons, lookup_cons_ne _ hk, ha]
        · rw [List.filter_cons_of_neg (by simpa using hs), ha]

/-- A key is looked up among the items of its owner. -/
theorem lookup_filter_owner (key : Bytes) (l : List Item) :
    (l.filter (owner n ·.1 = owner n key)).lookup key = l.lookup key := by
  induction l with
  | nil => rfl
  | cons x l ih =>
      obtain ⟨k, w⟩ := x
      by_cases hk : key = k
      · subst hk
        simp
      · rw [lookup_cons_ne _ hk, ← ih]
        by_cases ho : owner n k = owner n key
        · rw [List.filter_cons_of_pos (by simpa using ho), lookup_cons_ne _ hk]
        · rw [List.filter_cons_of_neg (by simpa using ho)]

/-- In the end the log of `b` holds, worker by worker, what the workloads have for it. -/
theorem Streamed.log_eq (h : Streamed work s) (hall : ∀ i, (s.workers i).pc = .exited)
    (hempty : ∀ ij, s.cmd ij = []) (a b : Fin n) :
    ((s.workers b).log.filter (·.1 = a)).map (·.2) =
      ((work a).filter (owner n ·.1 = b)).reverse := by
  have := h.stream a b
  rw [hempty] at this
  simp only [Worker.received, Worker.outgoing, hall, Pc.taken, Pc.caller, Caller.hand, Caller.todo,
    putsOf, List.filter_nil, List.map_nil, List.append_nil, List.filterMap_nil] at this
  rw [← this, List.reverse_reverse]

theorem Streamed.isSome_iff (h : Streamed work s)
    (hlog : ∀ a b, ((s.workers b).log.filter (·.1 = a)).map (·.2) =
      ((work a).filter (owner n ·.1 = b)).reverse) (j : Fin n) (key : Bytes) :
    ((s.workers j).shard key).isSome = true ↔
      owner n key = j ∧ ∃ i, key ∈ (work i).map (·.1) := by
  have hmem : ∀ a item, (a, item) ∈ (s.workers j).log ↔ item ∈ work a ∧ owner n item.1 = j := by
    intro a item
    have : item ∈ ((s.workers j).log.filter (·.1 = a)).map (·.2) ↔
        item ∈ ((work a).filter (owner n ·.1 = j)).reverse := by rw [hlog]
    simpa using this
  rw [h.shard, List.lookup_isSome_iff]
  constructor
  · rintro ⟨item, hitem, hk⟩
    obtain ⟨⟨a, item'⟩, hin, rfl⟩ := List.mem_map.mp hitem
    obtain rfl : key = item'.1 := by simpa using hk
    obtain ⟨hw, ho⟩ := (hmem a item').mp hin
    exact ⟨ho, a, List.mem_map_of_mem hw⟩
  · rintro ⟨ho, a, ha⟩
    obtain ⟨item, hw, rfl⟩ := List.mem_map.mp ha
    exact ⟨item, List.mem_map_of_mem ((hmem a item).mpr ⟨hw, ho⟩), by simp⟩

/-- **Quiescence of the put mesh.**  No worker leaves while a command is queued or a worker is still
producing.  Once all have left, the queues are empty, both counters are the number of puts, every
shard holds exactly the keys it owns, and the value of a key is the last one some worker put. -/
theorem put_mesh_quiesces (hs : (machine cap work).Reachable s) :
    (∀ i, (s.workers i).pc = .exited → (∀ ij, s.cmd ij = []) ∧ AllAnnounced s) ∧
      ((∀ i, (s.workers i).pc = .exited) →
        (∀ ij, s.cmd ij = []) ∧ s.sent = ∑ i, (work i).length ∧ s.applied = ∑ i, (work i).length ∧
          (∀ j key, ((s.workers j).shard key).isSome = true ↔
            owner n key = j ∧ ∃ i, key ∈ (work i).map (·.1)) ∧
          ∀ j key v, (s.workers j).shard key = some v →
            ∃ i, (work i).reverse.lookup key = some v) := by
  have hi := inv_of_reachable hs
  have hexit : ∀ i, (s.workers i).pc = .exited → AllAnnounced s ∧ s.sent = s.applied := by
    intro i he
    have := hi.leaving i
    rw [he] at this
    exact this rfl
  refine ⟨fun i he => ⟨hi.counted.empty (hexit i he).2, (hexit i he).1⟩, fun hall => ?_⟩
  have heq : s.sent = s.applied := (hexit ⟨0, Nat.pos_of_ne_zero (NeZero.ne n)⟩ (hall _)).2
  have hlog := hi.streamed.log_eq hall (hi.counted.empty heq)
  have htotal : s.sent = ∑ i, (work i).length := by
    have := hi.counted.total
    simpa [hall, Pc.caller, Caller.todo] using this
  refine ⟨hi.counted.empty heq, htotal, heq ▸ htotal, fun j key => ?_, fun j key v hv => ?_⟩
  · exact hi.streamed.isSome_iff hlog j key
  · have hown : owner n key = j := ((hi.streamed.isSome_iff hlog j key).mp (by simp [hv])).1
    rw [hi.streamed.shard] at hv
    obtain ⟨a, ha⟩ := lookup_of_log hv
    rw [hlog, ← hown, ← List.filter_reverse, lookup_filter_owner] at ha
    exact ⟨a, ha⟩

/-- Two workers; the first puts key 0 of the other's shard twice and its own key 1 in between, and the second
puts key 1, too. -/
def sampleWork (i : Fin 2) : List Item :=
  if i = 0 then [([0], [5]), ([1], [6]), ([0], [7])] else [([1], [8])]

/-- The first worker sends and announces, then the second one, which finds its inbox full; then the first
leaves, then the second. -/
def sampleSchedule : List (Fin 2) :=
  List.flatten [List.replicate 32 0, List.replicate 21 1, List.replicate 21 0, List.replicate 9 1]

def sampleEnd : State 2 :=
  (Machine.runFn (step 2) (.new sampleWork) sampleSchedule).getD (.new sampleWork)

theorem put_mesh_quiesces_sample :
    (∀ i, (sampleEnd.workers i).pc = .exited) ∧ (∀ ij, sampleEnd.cmd ij = []) ∧ sampleEnd.applied = 4 ∧
      ((sampleEnd.workers 1).shard [0]).isSome = true ∧ ((sampleEnd.workers 0).shard [1]).isSome = true := by
  have hs : (machine 2 sampleWork).Reachable sampleEnd :=
    Machine.reachable_of_runFn
      (show Machine.runFn _ _ sampleSchedule = some sampleEnd from rfl)
  have hall : ∀ i, (sampleEnd.workers i).pc = .exited := Fin.forall_fin_two.mpr ⟨rfl, rfl⟩
  obtain ⟨hempty, -, happlied, hkeys, -⟩ := (put_mesh_quiesces hs).2 hall
  exact ⟨hall, hempty, happlied.trans (by decide), (hkeys 1 [0]).mpr ⟨by decide, 0, by decide⟩,
    (hkeys 0 [1]).mpr ⟨by decide, 1, by decide⟩⟩

end ZeroKv.Mesh.Put
