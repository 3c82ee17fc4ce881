/-
# ZeroKv.Executor — the run loop, its ready queue and the wakers.

One thread is in `Executor::run`; any other thread, and the future that is being polled, may call `spawn`
and wake any task that was polled before, at any moment and as often as it likes.  A step is one locked
section of `ready`, or one access to `outstanding` or to the condition variable; the exit test of `run` is
a locked section with the load of `outstanding` inside, so it takes two steps between which nothing can be
pushed.

The lock of a task's slot is held by the runner while it polls, which is the slot value `busy`.  Of the
other fields of `Task` here, `polled` says that a waker exists, and `completed`, `accounted` and `pushed`
are history: the poll returned `Ready`, the runner has counted it, a waker has pushed the task since its
last poll began.

Two things are shown.  The bookkeeping of `run` is right: no task is polled after it completed, no wake is
lost, and `run` returns only when all are done.  And the sleep of the runner is right only as far as
`wake` goes: `spawn` pushes without raising the signal, so a spawn from another thread can find the
runner asleep and leave it there.
-/
import ZeroKv.Lib.Threads
import ZeroKv.Lib.Word

namespace ZeroKv.Executor

/-! ## Tasks and threads -/

/-- `Mutex<Option<BoxFuture>>`: the future, the lock held with the future taken out, or `None`. -/
inductive Slot
  | full
  | busy
  | empty
  deriving DecidableEq

/-- `Task`, with its history. -/
structure Task where
  future : Slot
  polled : Bool
  completed : Bool
  accounted : Bool
  pushed : Bool

/-- A task as `spawn` makes it. -/
def Task.fresh : Task where
  future := .full
  polled := false
  completed := false
  accounted := false
  pushed := false

/-- `SharedQueue`.  A task is named by its place in `tasks`, the list of all that were spawned.  `locked`
is the lock of `ready` across the two steps of the exit test, `asleep` says that the runner is blocked in
`signal` and no notification has reached it, and `running` that a thread is in `run`.  The counter is a
word in the source, which holds the same number while fewer than `2 ^ 64` tasks were spawned
(`outstanding_fits`). -/
structure SharedQueue where
  ready : List ℕ
  locked : Bool
  asleep : Bool
  outstanding : ℕ
  tasks : List Task
  running : Bool

/-- `Executor::new`. -/
def SharedQueue.new : SharedQueue where
  ready := []
  locked := false
  asleep := false
  outstanding := 0
  tasks := []
  running := false

/-- Where the caller of `spawn`, `wake` or `wake_by_ref` is. -/
inductive Call
  | idle
  | push (t : ℕ)
  | notify

/-- Program points of a thread: outside `run`, or in it. -/
inductive Pc
  | out (c : Call)
  | check
  | test
  | wait
  | hold (t : ℕ)
  | poll (t : ℕ) (c : Call)
  | account (t : ℕ)

/-- The choices of a step.  `finish` ends a poll, with `Ready` or with `Pending`; `spurious` ends a wait
that nobody notified. -/
inductive Act
  | spawn
  | wake (t : ℕ)
  | run
  | go
  | finish (ready : Bool)
  | spurious

/-- The shared state with task `t` replaced. -/
def SharedQueue.edit (m : SharedQueue) (t : ℕ) (k : Task) : SharedQueue :=
  { m with tasks := m.tasks.set t k }

/-- What any code may do, inside a poll or outside of `run`. -/
def Call.step (m : SharedQueue) : Call → Act → Option (SharedQueue × Call)
  | .idle, .spawn =>
      some ({ m with tasks := m.tasks ++ [.fresh], outstanding := m.outstanding + 1 },
        .push m.tasks.length)
  | .push t, .go => if m.locked then none else some ({ m with ready := m.ready ++ [t] }, .idle)
  | .idle, .wake t =>
      match m.tasks[t]? with
      | none => none
      | some k =>
          -- a waker is made when the task is polled for the first time
          if m.locked ∨ k.polled = false then none
          else some ({ m with ready := m.ready ++ [t] }.edit t { k with pushed := true }, .notify)
  | .notify, .go => some ({ m with asleep := false }, .idle)
  | _, _ => none

/-- One step of a thread. -/
def step (m : SharedQueue) : Pc → Act → Option (SharedQueue × Pc)
  | .out .idle, .run => if m.running then none else some ({ m with running := true }, .check)
  | .out c, a => (c.step m a).map fun r => (r.1, .out r.2)
  | .check, .go =>
      if m.locked then none
      else match m.ready with
        | t :: rest => some ({ m with ready := rest }, .hold t)
        | [] => some ({ m with locked := true }, .test)
  | .test, .go =>
      -- still under the lock of `ready`, which the wait gives up
      if m.outstanding = 0 then some ({ m with locked := false, running := false }, .out .idle)
      else some ({ m with locked := false, asleep := true }, .wait)
  | .wait, .go => if m.asleep then none else some (m, .check)
  | .wait, .spurious => some ({ m with asleep := false }, .check)
  | .hold t, .go =>
      match m.tasks[t]? with
      | none => none
      | some k =>
          match k.future with
          | .full =>
              some (m.edit t { k with future := .busy, polled := true, pushed := false },
                .poll t .idle)
          | .busy => none
          -- a wake-up of a task that has completed
          | .empty => some (m, .check)
  | .poll t .idle, .finish ready =>
      match m.tasks[t]? with
      | none => none
      | some k =>
          if ready then some (m.edit t { k with future := .empty, completed := true }, .account t)
          else some (m.edit t { k with future := .full }, .check)
  | .poll t c, a => (c.step m a).map fun r => (r.1, .poll t r.2)
  | .account t, .go =>
      match m.tasks[t]? with
      | none => none
      | some k =>
          some ({ m with outstanding := m.outstanding - 1 }.edit t { k with accounted := true }, .check)
  | _, _ => none

/-- The executor. -/
def threads : Threads SharedQueue Pc Act where
  mem := .new
  loc := .out .idle
  step := step

/-! ## The steps, one by one -/

/-- A step of `spawn` or of a waker. -/
inductive Call.Move (m : SharedQueue) : Call → SharedQueue → Call → Prop
  | spawn : Call.Move m .idle
      { m with tasks := m.tasks ++ [.fresh], outstanding := m.outstanding + 1 } (.push m.tasks.length)
  | push {t : ℕ} (hfree : m.locked = false) :
      Call.Move m (.push t) { m with ready := m.ready ++ [t] } .idle
  | wake {t : ℕ} {k : Task} (hk : m.tasks[t]? = some k) (hfree : m.locked = false)
      (hpolled : k.polled = true) :
      Call.Move m .idle ({ m with ready := m.ready ++ [t] }.edit t { k with pushed := true }) .notify
  | notify : Call.Move m .notify { m with asleep := false } .idle

/-- A step of a thread. -/
inductive Move (m : SharedQueue) : Pc → SharedQueue → Pc → Prop
  | run (hfree : m.running = false) : Move m (.out .idle) { m with running := true } .check
  | out {c c' : Call} {m' : SharedQueue} (h : c.Move m m' c') : Move m (.out c) m' (.out c')
  | pop {t : ℕ} {rest : List ℕ} (hfree : m.locked = false) (hready : m.ready = t :: rest) :
      Move m .check { m with ready := rest } (.hold t)
  | lock (hfree : m.locked = false) (hready : m.ready = []) :
      Move m .check { m with locked := true } .test
  | leave (hzero : m.outstanding = 0) :
      Move m .test { m with locked := false, running := false } (.out .idle)
  | sleep (hpos : m.outstanding ≠ 0) : Move m .test { m with locked := false, asleep := true } .wait
  | woken (hawake : m.asleep = false) : Move m .wait m .check
  | spurious : Move m .wait { m with asleep := false } .check
  | begin {t : ℕ} {k : Task} (hk : m.tasks[t]? = some k) (hfull : k.future = .full) :
      Move m (.hold t) (m.edit t { k with future := .busy, polled := true, pushed := false })
        (.poll t .idle)
  | skip {t : ℕ} {k : Task} (hk : m.tasks[t]? = some k) (hempty : k.future = .empty) :
      Move m (.hold t) m .check
  | inner {t : ℕ} {c c' : Call} {m' : SharedQueue} (h : c.Move m m' c') :
      Move m (.poll t c) m' (.poll t c')
  | pending {t : ℕ} {k : Task} (hk : m.tasks[t]? = some k) :
      Move m (.poll t .idle) (m.edit t { k with future := .full }) .check
  | ready {t : ℕ} {k : Task} (hk : m.tasks[t]? = some k) :
      Move m (.poll t .idle) (m.edit t { k with future := .empty, completed := true }) (.account t)
  | account {t : ℕ} {k : Task} (hk : m.tasks[t]? = some k) :
      Move m (.account t)
        ({ m with outstanding := m.outstanding - 1 }.edit t { k with accounted := true }) .check

theorem Call.move_of_step {m m' : SharedQueue} {c c' : Call} {a : Act}
    (h : c.step m a = some (m', c')) : c.Move m m' c' := by
  unfold Call.step at h
  split at h
  · cases h
    exact .spawn
  · split at h
    · cases h
    · next hfree =>
        cases h
        exact .push (by simpa using hfree)
  · split at h
    · cases h
    · next hk =>
        split at h
        · cases h
        · next hguard =>
            cases h
            simp only [not_or, Bool.not_eq_true, Bool.not_eq_false] at hguard
            exact .wake hk hguard.1 hguard.2
  · cases h
    exact .notify
  · cases h

theorem move_of_step {m m' : SharedQueue} {pc pc' : Pc} {a : Act}
    (h : step m pc a = some (m', pc')) : Move m pc m' pc' := by
  unfold step at h
  -- the cases are the clauses of `step`, in their order
  split at h
  · split at h
    · cases h
    · next hfree =>
        cases h
        exact .run (by simpa using hfree)
  · obtain ⟨⟨m₁, c₁⟩, hc, heq⟩ := Option.map_eq_some_iff.mp h
    cases heq
    exact .out (Call.move_of_step hc)
  · split at h
    · cases h
    · next hfree =>
        split at h
        · next hready =>
            cases h
            exact .pop (by simpa using hfree) hready
        · next hready =>
            cases h
            exact .lock (by simpa using hfree) hready
  · split at h
    · next hzero =>
        cases h
        exact .leave hzero
    · next hpos =>
        cases h
        exact .sleep hpos
  · split at h
    · cases h
    · next hawake =>
        cases h
        exact .woken (by simpa using hawake)
  · cases h
    exact .spurious
  · split at h
    · cases h
    · next hk =>
        split at h
        · next hfull =>
            cases h
            exact .begin hk hfull
        · cases h
        · next hempty =>
            cases h
            exact .skip hk hempty
  · split at h
    · cases h
    · next hk =>
        split at h
        · cases h
          exact .ready hk
        · cases h
          exact .pending hk
  · obtain ⟨⟨m₁, c₁⟩, hc, heq⟩ := Option.map_eq_some_iff.mp h
    cases heq
    exact .inner (Call.move_of_step hc)
  · split at h
    · cases h
    · next hk =>
        cases h
        exact .account hk
  · cases h

/-! ## The tasks and the counter -/

/-- The tasks the runner has not accounted for. -/
def live (tasks : List Task) : ℕ := tasks.countP fun k => !k.accounted

/-- A task that was counted has completed, and one that completed has lost its future. -/
structure Task.Ok (k : Task) : Prop where
  empty_iff : k.future = .empty ↔ k.completed = true
  completed : k.accounted = true → k.completed = true

/-- The counter counts, and every task is in order. -/
structure SharedQueue.Ok (m : SharedQueue) : Prop where
  count : m.outstanding = live m.tasks
  tasks : ∀ k ∈ m.tasks, k.Ok

/-- Replacing a task changes the count by what the two tasks contribute. -/
theorem live_set {tasks : List Task} {t : ℕ} {k : Task} (k' : Task) (hk : tasks[t]? = some k) :
    live (tasks.set t k') + (if k.accounted then 0 else 1) =
      live tasks + (if k'.accounted then 0 else 1) := by
  obtain ⟨ht, rfl⟩ := List.getElem?_eq_some_iff.mp hk
  induction tasks generalizing t with
  | nil => exact absurd ht (Nat.not_lt_zero t)
  | cons x xs ih =>
      cases t with
      | zero =>
          cases hx : x.accounted <;> cases hk' : k'.accounted <;> simp [live, hx, hk']
      | succ t =>
          have hlt : t < xs.length := by simpa using ht
          have := ih hlt (List.getElem?_eq_getElem hlt)
          simp only [live, List.set_cons_succ, List.countP_cons, List.getElem_cons_succ] at this ⊢
          omega

theorem tasks_edit_self {m : SharedQueue} {t : ℕ} {k k' : Task} (hk : m.tasks[t]? = some k) :
    (m.edit t k').tasks[t]? = some k' := by
  obtain ⟨ht, -⟩ := List.getElem?_eq_some_iff.mp hk
  exact List.getElem?_set_self ht

theorem tasks_edit_ne {m : SharedQueue} {t i : ℕ} (k' : Task) (hne : t ≠ i) :
    (m.edit t k').tasks[i]? = m.tasks[i]? :=
  List.getElem?_set_ne hne

/-- A task can be replaced by one that is in order and is counted as it was. -/
theorem SharedQueue.Ok.edit {m : SharedQueue} (h : m.Ok) {t : ℕ} {k k' : Task}
    (hk : m.tasks[t]? = some k) (hk' : k'.Ok) (hsame : k'.accounted = k.accounted) :
    (m.edit t k').Ok := by
  refine ⟨?_, ?_⟩
  · have := live_set k' hk
    have hcount := h.count
    simp only [hsame] at this
    simp only [SharedQueue.edit]
    omega
  · intro x hx
    rcases List.mem_or_eq_of_mem_set hx with hx | rfl
    · exact h.tasks x hx
    · exact hk'

/-- What `spawn` and the wakers leave alone: the runner's flag, the queue while it is locked, and of an
old task all but the marks that say it was pushed. -/
structure Call.Frame (m m' : SharedQueue) : Prop where
  running : m'.running = m.running
  locked : m.locked = true → m'.locked = true ∧ m'.ready = m.ready
  task : ∀ {t : ℕ} {k : Task}, m.tasks[t]? = some k → ∃ k' : Task, m'.tasks[t]? = some k' ∧
    k'.future = k.future ∧ k'.completed = k.completed ∧ k'.accounted = k.accounted

theorem Call.Move.frame {m m' : SharedQueue} {c c' : Call} (h : c.Move m m' c') :
    Call.Frame m m' := by
  cases h with
  | spawn =>
      refine ⟨rfl, fun hl => ⟨hl, rfl⟩, ?_⟩
      intro t k hk
      obtain ⟨ht, -⟩ := List.getElem?_eq_some_iff.mp hk
      exact ⟨k, by rw [List.getElem?_append_left ht]; exact hk, rfl, rfl, rfl⟩
  | push hfree => exact ⟨rfl, fun hl => absurd hl (by simp [hfree]), fun hk => ⟨_, hk, rfl, rfl, rfl⟩⟩
  | notify => exact ⟨rfl, fun hl => ⟨hl, rfl⟩, fun hk => ⟨_, hk, rfl, rfl, rfl⟩⟩
  | @wake t₀ k₀ hk₀ hfree hpolled =>
      refine ⟨rfl, fun hl => absurd hl (by simp [hfree]), ?_⟩
      intro t k hk
      by_cases ht : t₀ = t
      · subst ht
        obtain rfl := Option.some.inj (hk₀.symm.trans hk)
        exact ⟨_, tasks_edit_self (m := { m with ready := m.ready ++ [t₀] }) hk, rfl, rfl, rfl⟩
      · exact ⟨k, (tasks_edit_ne _ ht).trans hk, rfl, rfl, rfl⟩

theorem Call.Move.ok {m m' : SharedQueue} {c c' : Call} (h : c.Move m m' c') (hm : m.Ok) :
    m'.Ok := by
  cases h with
  | spawn =>
      refine ⟨?_, ?_⟩
      · simp [live, Task.fresh, hm.count]
      · intro k hk
        rcases List.mem_append.mp hk with hk | hk
        · exact hm.tasks k hk
        · obtain rfl := List.mem_singleton.mp hk
          exact ⟨by simp [Task.fresh], nofun⟩
  | push _ => exact ⟨hm.count, hm.tasks⟩
  | notify => exact ⟨hm.count, hm.tasks⟩
  | @wake t k hk _ _ =>
      have hk' := hm.tasks k (List.mem_of_getElem? hk)
      exact SharedQueue.Ok.edit (m := { m with ready := m.ready ++ [t] }) ⟨hm.count, hm.tasks⟩ hk
        ⟨hk'.empty_iff, hk'.completed⟩ rfl

/-! ## The runner -/

/-- The program points inside `run`. -/
def Pc.inRun : Pc → Bool
  | .out _ => false
  | _ => true

/-- What a thread knows of the shared state. -/
def Pc.Ok (m : SharedQueue) : Pc → Prop
  | .test => m.locked = true ∧ m.ready = []
  | .poll t _ => ∃ k, m.tasks[t]? = some k ∧ k.future = .busy
  | .account t => ∃ k, m.tasks[t]? = some k ∧ k.completed = true ∧ k.accounted = false
  | _ => True

theorem Pc.Ok.frame {m m' : SharedQueue} {pc : Pc} (h : pc.Ok m) (hf : Call.Frame m m') :
    pc.Ok m' := by
  cases pc with
  | test =>
      obtain ⟨hlock, hready⟩ := hf.locked h.1
      exact ⟨hlock, hready.trans h.2⟩
  | poll t c =>
      obtain ⟨k, hk, hbusy⟩ := h
      obtain ⟨k', hk', hfuture, -⟩ := hf.task hk
      exact ⟨k', hk', hfuture.trans hbusy⟩
  | account t =>
      obtain ⟨k, hk, hdone, hopen⟩ := h
      obtain ⟨k', hk', -, hcompleted, haccounted⟩ := hf.task hk
      exact ⟨k', hk', hcompleted.trans hdone, haccounted.trans hopen⟩
  | _ => trivial

theorem Move.ok {m m' : SharedQueue} {pc pc' : Pc} (h : Move m pc m' pc') (hm : m.Ok)
    (hpc : pc.Ok m) : m'.Ok ∧ pc'.Ok m' := by
  cases h with
  | run _ => exact ⟨⟨hm.count, hm.tasks⟩, trivial⟩
  | out hc => exact ⟨hc.ok hm, trivial⟩
  | pop _ _ => exact ⟨⟨hm.count, hm.tasks⟩, trivial⟩
  | lock _ hready => exact ⟨⟨hm.count, hm.tasks⟩, rfl, hready⟩
  | leave _ => exact ⟨⟨hm.count, hm.tasks⟩, trivial⟩
  | sleep _ => exact ⟨⟨hm.count, hm.tasks⟩, trivial⟩
  | woken _ => exact ⟨hm, trivial⟩
  | spurious => exact ⟨⟨hm.count, hm.tasks⟩, trivial⟩
  | skip _ _ => exact ⟨hm, trivial⟩
  | @begin t k hk hfull =>
      have hok := hm.tasks k (List.mem_of_getElem? hk)
      refine ⟨hm.edit hk ⟨?_, hok.completed⟩ rfl, _, tasks_edit_self hk, rfl⟩
      have := hok.empty_iff
      simp_all
  | @inner t c c' _ hc =>
      have hpoll : Pc.Ok m (.poll t c') := hpc
      exact ⟨hc.ok hm, hpoll.frame hc.frame⟩
  | @pending t k hk =>
      obtain ⟨k₁, hk₁, hbusy⟩ := hpc
      obtain rfl := Option.some.inj (hk.symm.trans hk₁)
      have hok := hm.tasks k (List.mem_of_getElem? hk)
      refine ⟨hm.edit hk ⟨?_, hok.completed⟩ rfl, trivial⟩
      have := hok.empty_iff
      simp_all
  | @ready t k hk =>
      obtain ⟨k₁, hk₁, hbusy⟩ := hpc
      obtain rfl := Option.some.inj (hk.symm.trans hk₁)
      have hok := hm.tasks k (List.mem_of_getElem? hk)
      have hopen : k.accounted = false := by
        -- a task that was counted has no future left to poll
        by_contra hcounted
        have := hok.empty_iff.mpr (hok.completed (by simpa using hcounted))
        simp [hbusy] at this
      exact ⟨hm.edit hk ⟨by simp, fun _ => rfl⟩ rfl, _, tasks_edit_self hk, rfl, hopen⟩
  | @account t k hk =>
      obtain ⟨k₁, hk₁, hdone, hopen⟩ := hpc
      obtain rfl := Option.some.inj (hk.symm.trans hk₁)
      have hok := hm.tasks k (List.mem_of_getElem? hk)
      refine ⟨⟨?_, ?_⟩, trivial⟩
      · have hcount := hm.count
        have := live_set { k with accounted := true } hk
        simp only [hopen, Bool.false_eq_true, if_false, if_true] at this
        simp only [SharedQueue.edit]
        omega
      · intro x hx
        rcases List.mem_or_eq_of_mem_set hx with hx | rfl
        · exact hm.tasks x hx
        · exact ⟨hok.empty_iff, fun _ => hdone⟩

/-- A step outside of `run` that does not enter it is one of `spawn` or of a waker. -/
theorem Move.outside {m m' : SharedQueue} {pc pc' : Pc} (h : Move m pc m' pc')
    (hpc : pc.inRun = false) :
    m.running = false ∧ pc'.inRun = true ∨ Call.Frame m m' ∧ pc'.inRun = false := by
  cases h with
  | run hfree => exact Or.inl ⟨hfree, rfl⟩
  | out hc => exact Or.inr ⟨hc.frame, rfl⟩
  | _ => cases hpc

theorem Move.running {m m' : SharedQueue} {pc pc' : Pc} (h : Move m pc m' pc')
    (hpc : pc.inRun = true → m.running = true) : pc'.inRun = true → m'.running = true := by
  cases h with
  | run _ => exact fun _ => rfl
  | inner hc => exact fun _ => hc.frame.running.trans (hpc rfl)
  | out _ => exact nofun
  | leave _ => exact nofun
  | _ => exact fun _ => hpc rfl

/-- The invariant: one runner, who alone moves futures in and out of their slots. -/
def invariant : threads.Invariant where
  shared := SharedQueue.Ok
  own m pc := (pc.inRun = true → m.running = true) ∧ pc.Ok m
  apart pc b := pc.inRun = true → b.inRun = false
  init_shared := ⟨rfl, nofun⟩
  init_own := ⟨nofun, trivial⟩
  init_apart := nofun
  keep hm hpc hst := by
    have hmove := move_of_step hst
    obtain ⟨hm', hpc'⟩ := hmove.ok hm hpc.2
    exact ⟨hm', hmove.running hpc.1, hpc'⟩
  bystander {m pc a m' pc' b} hm hpc hb hlb hbl hst := by
    have hmove := move_of_step hst
    cases hrun : b.inRun with
    | false =>
        refine ⟨⟨nofun, ?_⟩, fun _ => rfl, fun h => absurd h (by simp)⟩
        cases b with
        | out c => trivial
        | _ => cases hrun
    | true =>
        -- the bystander is the runner, so the acting thread is not, and does not become one
        have hout : pc.inRun = false := hbl hrun
        rcases hmove.outside hout with ⟨hfree, -⟩ | ⟨hframe, hstays⟩
        · exact absurd (hb.1 hrun) (by simp [hfree])
        · exact ⟨⟨fun _ => hframe.running.trans (hb.1 hrun), hb.2.frame hframe⟩,
            fun h => absurd h (by simp [hstays]), fun _ => hstays⟩

/-! ## No wake is lost -/

section Runs

variable {τ : Type} [DecidableEq τ]

/-- A task that a waker has pushed since its last poll began is in the queue or in the runner's hands. -/
def Heard (s : Config τ SharedQueue Pc) : Prop :=
  ∀ (t : ℕ) (k : Task), s.mem.tasks[t]? = some k → k.completed = false → k.pushed = true →
    t ∈ s.mem.ready ∨ ∃ u, s.loc u = .hold t

/-- The runner keeps what it holds while another thread, or the runner elsewhere, takes a step. -/
theorem held_update {loc : τ → Pc} {u : τ} {t : ℕ} (pc' : Pc) (h : ∃ v, loc v = .hold t)
    (hpc : loc u ≠ .hold t) : ∃ v, Function.update loc u pc' v = .hold t :=
  exists_apply_update (p := fun pc : Pc => pc = .hold t) h hpc

/-- A step of `spawn` or of a waker: a new task was not pushed by a waker, and a task that one has pushed
is in the queue behind the others. -/
theorem Call.Move.heard {m m' : SharedQueue} {c c' : Call} (h : c.Move m m' c') {t : ℕ} {k : Task}
    (hk : m'.tasks[t]? = some k) (hpushed : k.pushed = true) :
    t ∈ m'.ready ∨ (∃ k₀, m.tasks[t]? = some k₀ ∧ k₀.completed = k.completed ∧
      k₀.pushed = true) ∧ ∀ i ∈ m.ready, i ∈ m'.ready := by
  cases h with
  | spawn =>
      refine Or.inr ⟨⟨k, ?_, rfl, hpushed⟩, fun _ hi => hi⟩
      rcases Nat.lt_or_ge t m.tasks.length with ht | ht
      · rwa [List.getElem?_append_left ht] at hk
      · rw [List.getElem?_append_right ht] at hk
        obtain rfl := List.mem_singleton.mp (List.mem_of_getElem? hk)
        cases hpushed
  | push _ => exact Or.inr ⟨⟨k, hk, rfl, hpushed⟩, fun _ hi => List.mem_append_left _ hi⟩
  | notify => exact Or.inr ⟨⟨k, hk, rfl, hpushed⟩, fun _ hi => hi⟩
  | @wake t₀ k₀ hk₀ _ _ =>
      by_cases ht : t₀ = t
      · subst ht
        exact Or.inl (List.mem_append_right _ List.mem_cons_self)
      · exact Or.inr ⟨⟨k, (tasks_edit_ne _ ht).symm.trans hk, rfl, hpushed⟩,
          fun _ hi => List.mem_append_left _ hi⟩

/-- A step of the runner that changes one task and nothing in the queue. -/
theorem Heard.edit {s : Config τ SharedQueue Pc} (h : Heard s) {u : τ} {pc' : Pc} {m' : SharedQueue}
    {t₀ : ℕ} {k₀ k' : Task} (hk₀ : s.mem.tasks[t₀]? = some k₀)
    (htasks : m'.tasks = s.mem.tasks.set t₀ k') (hready : m'.ready = s.mem.ready)
    (hheld : ∀ t, s.loc u = .hold t → t = t₀)
    (hnew : k'.completed = false → k'.pushed = true →
      k₀.completed = false ∧ k₀.pushed = true ∧ s.loc u ≠ .hold t₀) :
    Heard (⟨m', Function.update s.loc u pc'⟩ : Config τ SharedQueue Pc) := by
  intro t k hk hopen hpushed
  obtain ⟨hlt, -⟩ := List.getElem?_eq_some_iff.mp hk₀
  simp only [htasks] at hk
  simp only [hready]
  by_cases ht : t₀ = t
  · subst ht
    obtain rfl : k' = k := by
      rw [List.getElem?_set_self hlt] at hk
      exact Option.some.inj hk
    obtain ⟨hopen₀, hpushed₀, hpc⟩ := hnew hopen hpushed
    exact (h _ _ hk₀ hopen₀ hpushed₀).imp_right fun hv => held_update pc' hv hpc
  · rw [List.getElem?_set_ne ht] at hk
    exact (h _ _ hk hopen hpushed).imp_right fun hv =>
      held_update pc' hv fun hpc => ht (hheld _ hpc).symm

/-- A step of `spawn` or of a waker keeps it, for any caller that does not hold a task. -/
theorem Heard.call {s : Config τ SharedQueue Pc} (h : Heard s) {u : τ} {pc' : Pc} {m' : SharedQueue}
    {c c' : Call} (hc : c.Move s.mem m' c') (hpc : ∀ t, s.loc u ≠ .hold t) :
    Heard (⟨m', Function.update s.loc u pc'⟩ : Config τ SharedQueue Pc) := by
  intro t k hk hopen hpushed
  rcases hc.heard hk hpushed with hin | ⟨⟨k₀, hk₀, hsame, hpushed₀⟩, hready⟩
  · exact Or.inl hin
  · rcases h t k₀ hk₀ (hsame.trans hopen) hpushed₀ with hin | hv
    · exact Or.inl (hready t hin)
    · exact Or.inr (held_update pc' hv (hpc t))

theorem Heard.move {s : Config τ SharedQueue Pc} (h : Heard s) (hm : s.mem.Ok) {u : τ} {pc pc' : Pc}
    {m' : SharedQueue} (hpc : s.loc u = pc) (hmove : Move s.mem pc m' pc') :
    Heard (⟨m', Function.update s.loc u pc'⟩ : Config τ SharedQueue Pc) := by
  -- most steps leave the tasks and the queue alone, and the acting thread holds nothing
  have hquiet : m'.tasks = s.mem.tasks → m'.ready = s.mem.ready → (∀ t, pc ≠ .hold t) →
      Heard (⟨m', Function.update s.loc u pc'⟩ : Config τ SharedQueue Pc) := by
    intro htasks hready hnot t k hk hopen hpushed
    simp only [htasks] at hk
    simp only [hready]
    exact (h t k hk hopen hpushed).imp_right fun hv =>
      held_update pc' hv (hpc ▸ hnot t)
  cases hmove with
  | run _ => exact hquiet rfl rfl nofun
  | lock _ _ => exact hquiet rfl rfl nofun
  | leave _ => exact hquiet rfl rfl nofun
  | sleep _ => exact hquiet rfl rfl nofun
  | woken _ => exact hquiet rfl rfl nofun
  | spurious => exact hquiet rfl rfl nofun
  | out hc => exact h.call hc (by simp [hpc])
  | inner hc => exact h.call hc (by simp [hpc])
  | @pop t₀ rest _ hready =>
      intro t k hk hopen hpushed
      rcases h t k hk hopen hpushed with hin | hv
      · rw [hready] at hin
        rcases List.mem_cons.mp hin with rfl | hin
        · exact Or.inr ⟨u, Function.update_self u _ s.loc⟩
        · exact Or.inl hin
      · exact Or.inr (held_update _ hv (by simp [hpc]))
  | begin hk₀ _ =>
      refine h.edit hk₀ rfl rfl ?_ (fun _ hpushed => by simp at hpushed)
      intro t ht
      simpa using (hpc.symm.trans ht).symm
  | @skip t₀ k₀ hk₀ hempty =>
      -- what the runner drops has completed
      intro t k hk hopen hpushed
      refine (h t k hk hopen hpushed).imp_right fun hv => held_update _ hv ?_
      rw [hpc]
      intro hhold
      obtain rfl : t₀ = t := by simpa using hhold
      obtain rfl := Option.some.inj (hk₀.symm.trans hk)
      have := (hm.tasks k₀ (List.mem_of_getElem? hk₀)).empty_iff.mp hempty
      simp [hopen] at this
  | pending hk₀ => exact h.edit hk₀ rfl rfl (by simp [hpc]) (by simp +contextual [hpc])
  | ready hk₀ => exact h.edit hk₀ rfl rfl (by simp [hpc]) (fun hopen => by simp at hopen)
  | account hk₀ => exact h.edit hk₀ rfl rfl (by simp [hpc]) (by simp +contextual [hpc])

theorem heard {s : Config τ SharedQueue Pc} (hs : (threads.machine τ).Reachable s) : Heard s := by
  refine hs.invariant (I := Heard) ?_ ?_
  · rintro s rfl t k hk
    cases hk
  · rintro s ⟨u, a⟩ s' hr hheard hst
    obtain ⟨m', pc', hact, rfl⟩ := Threads.stepOf_eq_some.mp hst
    exact hheard.move (invariant.holds hr).shared rfl (move_of_step hact)

/-- The word of the source does not wrap: it is at most the number of tasks, and the runner takes one off
only while the task it accounts for is counted. -/
theorem outstanding_fits {s : Config τ SharedQueue Pc} (hs : (threads.machine τ).Reachable s)
    (htasks : s.mem.tasks.length < 2 ^ 64) :
    s.mem.outstanding < 2 ^ 64 ∧ ∀ u t, s.loc u = .account t → 0 < s.mem.outstanding := by
  have hi := invariant.holds hs
  have hcount : s.mem.outstanding = live s.mem.tasks := hi.shared.count
  rw [hcount]
  refine ⟨Nat.lt_of_le_of_lt List.countP_le_length htasks, fun u t hu => ?_⟩
  have hown := (hi.own u).2
  rw [hu] at hown
  obtain ⟨k, hk, -, hopen⟩ := hown
  exact List.countP_pos_iff.mpr ⟨k, List.mem_of_getElem? hk, by simp [hopen]⟩

/-- Threads that have pushed and are about to raise the signal. -/
def Pc.notifies : Pc → Bool
  | .out .notify => true
  | .poll _ .notify => true
  | _ => false

/-- Threads that are about to push the task they spawned. -/
def Pc.spawning : Pc → Bool
  | .out (.push _) => true
  | .poll _ (.push _) => true
  | _ => false

/-- The runner is blocked, no notification has reached it or is about to be issued, and the queue is not
empty. -/
def SleepsOnReady (s : Config τ SharedQueue Pc) : Prop :=
  (∃ u, s.loc u = .wait) ∧ s.mem.asleep = true ∧ s.mem.ready ≠ [] ∧
    ∀ v, (s.loc v).notifies = false

/-- A spawn pushes onto an empty queue while the runner sleeps only if some waker has yet to raise the
signal. -/
def pushesAwake (s : Config τ SharedQueue Pc) (l : τ × Act) : Prop :=
  (s.loc l.1).spawning = true → s.mem.asleep = true → s.mem.ready = [] →
    ∃ v, (s.loc v).notifies = true

/-- Whenever the runner sleeps over a task that is ready, the signal is about to be raised. -/
def Alert (s : Config τ SharedQueue Pc) : Prop :=
  s.mem.asleep = true → s.mem.ready ≠ [] → ∃ v, (s.loc v).notifies = true

theorem notifies_update {loc : τ → Pc} {u : τ} (pc' : Pc) (h : ∃ v, (loc v).notifies = true)
    (hpc : (loc u).notifies = false) : ∃ v, (Function.update loc u pc' v).notifies = true :=
  exists_apply_update (p := fun pc : Pc => pc.notifies = true) h (by simp [hpc])

/-- A step of `spawn` or of a waker, for the thread at `pc`. -/
theorem Alert.call {s : Config τ SharedQueue Pc} (h : Alert s) {u : τ} {pc' : Pc} {m' : SharedQueue}
    {c c' : Call} (hc : c.Move s.mem m' c')
    (hpush : (∃ t, c = .push t) → s.mem.asleep = true → s.mem.ready = [] →
      ∃ v, (s.loc v).notifies = true)
    (hnow : c' = .notify → pc'.notifies = true)
    (hpc : c ≠ .notify → (s.loc u).notifies = false) :
    Alert (⟨m', Function.update s.loc u pc'⟩ : Config τ SharedQueue Pc) := by
  intro hasleep hready
  cases hc with
  | spawn => exact notifies_update pc' (h hasleep hready) (hpc nofun)
  | push _ =>
      refine notifies_update pc' ?_ (hpc nofun)
      by_cases hempty : s.mem.ready = []
      · exact hpush ⟨_, rfl⟩ hasleep hempty
      · exact h hasleep hempty
  | wake _ _ _ => exact ⟨u, by simpa using hnow rfl⟩
  | notify => cases hasleep

theorem Alert.move {s : Config τ SharedQueue Pc} (h : Alert s) {u : τ} {pc pc' : Pc}
    {m' : SharedQueue} (hpc : s.loc u = pc) (hown : pc.Ok s.mem) (hmove : Move s.mem pc m' pc')
    (hawake : pc.spawning = true → s.mem.asleep = true → s.mem.ready = [] →
      ∃ v, (s.loc v).notifies = true) :
    Alert (⟨m', Function.update s.loc u pc'⟩ : Config τ SharedQueue Pc) := by
  have hquiet : m'.asleep = s.mem.asleep → (m'.ready ≠ [] → s.mem.ready ≠ []) →
      pc.notifies = false →
      Alert (⟨m', Function.update s.loc u pc'⟩ : Config τ SharedQueue Pc) := by
    intro hsame hmore hnot hasleep hready
    exact notifies_update pc' (h (hsame ▸ hasleep) (hmore hready)) (hpc ▸ hnot)
  cases hmove with
  | out hc =>
      refine h.call hc (fun ⟨t, ht⟩ => hawake (ht ▸ rfl)) (fun hc' => hc' ▸ rfl) ?_
      intro hne
      rw [hpc]
      unfold Pc.notifies
      split <;> simp_all
  | inner hc =>
      refine h.call hc (fun ⟨t, ht⟩ => hawake (ht ▸ rfl)) (fun hc' => hc' ▸ rfl) ?_
      intro hne
      rw [hpc]
      unfold Pc.notifies
      split <;> simp_all
  | sleep _ =>
      -- the exit test holds the lock, and found the queue empty
      intro _ hready
      exact absurd hown.2 hready
  | spurious => exact fun hasleep => absurd hasleep (by simp)
  | pop _ hready => exact hquiet rfl (fun _ => by simp [hready]) rfl
  | _ => exact hquiet rfl id rfl

/-- The runner does not sleep on ready work as long as no spawn pushes onto an empty queue behind its
back. -/
theorem not_sleepsOnReady {s : Config τ SharedQueue Pc}
    (hs : ((threads.machine τ).restrict pushesAwake).Reachable s) : ¬ SleepsOnReady s := by
  have halert : Alert s := by
    refine hs.invariant (I := Alert) ?_ ?_
    · rintro s rfl hasleep
      cases hasleep
    · rintro s ⟨u, a⟩ s' hr ih ⟨hawake, hst⟩
      obtain ⟨m', pc', hact, rfl⟩ := Threads.stepOf_eq_some.mp hst
      exact ih.move rfl ((invariant.holds hr.of_restrict).own u).2 (move_of_step hact) hawake
  rintro ⟨-, hasleep, hready, hnone⟩
  obtain ⟨v, hv⟩ := halert hasleep hready
  simp [hnone v] at hv

/-- The thread `false` spawns a task and runs it; the poll is pending, so the runner goes to sleep. -/
def dozing : List (Bool × Act) :=
  [(false, .spawn), (false, .go), (false, .run), (false, .go), (false, .go),
    (false, .finish false), (false, .go), (false, .go)]

instance (s : Config Bool SharedQueue Pc) (l : Bool × Act) : Decidable (pushesAwake s l) := by
  unfold pushesAwake
  infer_instance

/-- The sleeping runner, while another thread has woken the task and not raised the signal yet: the
condition was met at every step. -/
theorem not_sleepsOnReady_dozing :
    ∃ s, Machine.runFn threads.stepOf ⟨.new, fun _ => .out .idle⟩ (dozing ++ [(true, .wake 0)])
        = some s ∧ s.loc false = .wait ∧ s.mem.ready = [0] ∧ ¬ SleepsOnReady s := by
  obtain ⟨s, hs⟩ : ∃ s, Machine.runFn threads.stepOf ⟨.new, fun _ => .out .idle⟩
      (dozing ++ [(true, .wake 0)]) = some s := ⟨_, rfl⟩
  have hr : ((threads.machine Bool).restrict pushesAwake).Reachable s := by
    have hrun : Machine.runFn (fun s l => if pushesAwake s l then threads.stepOf s l else none)
        ⟨.new, fun _ => .out .idle⟩ (dozing ++ [(true, .wake 0)]) = some s := by
      cases hs
      rfl
    exact Machine.reachable_restrict_of_runFn hrun
  refine ⟨s, hs, ?_, ?_, not_sleepsOnReady hr⟩
  · cases hs
    rfl
  · cases hs
    rfl

/-- The sleeping runner is not told of a task that another thread spawns. -/
theorem spawn_sleepsOnReady :
    ∃ s, (threads.machine Bool).Reachable s ∧ SleepsOnReady s := by
  obtain ⟨s, hs⟩ : ∃ s, Machine.runFn threads.stepOf ⟨.new, fun _ => .out .idle⟩
      (dozing ++ [(true, .spawn), (true, .go)]) = some s := ⟨_, rfl⟩
  refine ⟨s, Machine.reachable_of_runFn hs, ?_⟩
  cases hs
  exact ⟨⟨false, rfl⟩, rfl, by decide, by decide⟩

end Runs

end ZeroKv.Executor
