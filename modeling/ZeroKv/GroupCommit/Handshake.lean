/-
# ZeroKv.GroupCommit.Handshake — a commit future does not miss its wake.

A `Completion` is two cells: the flag `done`, and the waker behind a lock.  `poll` loads the flag, stores its
waker, and loads the flag again; `signal` sets the flag, takes the waker, and wakes it.  Here one completion is
looked at on its own, with every access a step, so that the call of `wake` is apart from taking the waker.
The guard of the lock lives until `wake` has returned; leaving that out only adds interleavings.

The argument is in `Told`: a poll that saw the flag down at its second load had its waker in the cell at that
moment, and whoever sets the flag later finds it there.
-/
import ZeroKv.Lib.Machine

namespace ZeroKv.GroupCommit.Handshake

/-! ## One completion -/

/-- Program points of `CommitFuture::poll`, with the waker of the call. -/
inductive PollPc (ω : Type)
  | idle
  | load (w : ω)
  | store (w : ω)
  | check (w : ω)

/-- Program points of `Completion::signal`. -/
inductive SignalPc (ω : Type)
  | idle
  | store
  | take
  | wake (w : ω)

/-- `Completion`, the call of `poll` and the call of `signal`, and what has happened: the polls that returned
with their wakers and whether they were `Ready`, the wakers that were woken, and how many signals returned. -/
structure State (ω : Type) where
  done : Bool
  waker : Option ω
  poll : PollPc ω
  signal : SignalPc ω
  polls : List (ω × Bool)
  woken : List ω
  signals : ℕ

/-- Start one of the two calls, or go on with it. -/
inductive Act (ω : Type)
  | poll (w : ω)
  | goPoll
  | signal
  | goSignal

variable {ω : Type}

/-- `Completion::new`. -/
def State.new : State ω where
  done := false
  waker := none
  poll := .idle
  signal := .idle
  polls := []
  woken := []
  signals := 0

def State.endPoll (s : State ω) (w : ω) (ready : Bool) : State ω :=
  { s with poll := .idle, polls := s.polls ++ [(w, ready)] }

/-- The next access of `poll`. -/
def stepPoll (s : State ω) : PollPc ω → Option (State ω)
  | .idle => none
  | .load w => some (if s.done then s.endPoll w true else { s with poll := .store w })
  | .store w => some { s with waker := some w, poll := .check w }
  | .check w => some (s.endPoll w s.done)

/-- The next access of `signal`. -/
def stepSignal (s : State ω) : SignalPc ω → Option (State ω)
  | .idle => none
  | .store => some { s with done := true, signal := .take }
  | .take =>
      match s.waker with
      | none => some { s with signal := .idle, signals := s.signals + 1 }
      | some w => some { s with waker := none, signal := .wake w }
  | .wake w =>
      some { s with woken := s.woken ++ [w], signal := .idle, signals := s.signals + 1 }

def step (s : State ω) : Act ω → Option (State ω)
  | .poll w =>
      match s.poll with
      | .idle => some { s with poll := .load w }
      | _ => none
  | .goPoll => stepPoll s s.poll
  | .signal =>
      match s.signal with
      | .idle => some { s with signal := .store }
      | _ => none
  | .goSignal => stepSignal s s.signal

/-- The polls of one future, one after the other, and the signals of its completion. -/
def machine (ω : Type) : Machine (State ω) (Act ω) := .ofFn .new step

/-! ## The invariant -/

/-- The waker `w` has been woken, or the first signal is on its way to it. -/
def Told (s : State ω) (w : ω) : Prop :=
  w ∈ s.woken ∨ s.signals = 0 ∧
    (s.waker = some w ∧ (s.done = false ∨ s.signal = .take) ∨ s.signal = .wake w)

/-- The signal has set the flag. -/
def Set (s : State ω) : Prop := 0 < s.signals ∨ s.signal = .take ∨ ∃ w, s.signal = .wake w

structure Inv (s : State ω) : Prop where
  set_iff : s.done = true ↔ Set s
  ready : ∀ w, (w, true) ∈ s.polls → s.done = true
  /-- Between its store and its second load a poll has its waker in the cell, while the flag is down. -/
  check : ∀ w, s.poll = .check w → s.done = false → s.waker = some w
  told : s.poll = .idle → ∀ w, s.polls.getLast? = some (w, false) → Told s w

theorem inv_new : Inv (State.new : State ω) where
  set_iff := by simp [State.new, Set]
  ready w hw := absurd hw List.not_mem_nil
  check w hpc := nomatch hpc
  told _ w hlast := nomatch hlast

section Step

variable {s s₁ : State ω}

/-- While the flag is down no signal is past its store. -/
theorem Inv.fresh (h : Inv s) (hd : s.done = false) :
    s.signals = 0 ∧ s.signal ≠ .take ∧ ∀ w, s.signal ≠ .wake w := by
  have hset : ¬ Set s := fun hs => by simp [h.set_iff.mpr hs] at hd
  refine ⟨?_, fun ht => hset (.inr (.inl ht)), fun w hw => hset (.inr (.inr ⟨w, hw⟩))⟩
  exact Nat.eq_zero_of_not_pos fun hpos => hset (.inl hpos)

theorem Inv.endPoll (h : Inv s) {w : ω} (hcheck : s.done = false → s.waker = some w) :
    Inv (s.endPoll w s.done) where
  set_iff := h.set_iff
  ready v hv := by
    rcases List.mem_append.mp hv with hv | hv
    · exact h.ready v hv
    · simp only [List.mem_singleton, Prod.mk.injEq] at hv
      exact hv.2.symm
  check v hpc := nomatch hpc
  told _ v hlast := by
    simp only [State.endPoll, List.getLast?_append, List.getLast?_singleton, Option.some_or,
      Option.some.injEq, Prod.mk.injEq] at hlast
    obtain ⟨rfl, hd⟩ := hlast
    exact .inr ⟨(h.fresh hd).1, .inl ⟨hcheck hd, .inl hd⟩⟩

theorem Inv.stepPoll (h : Inv s) (hst : Handshake.stepPoll s s.poll = some s₁) : Inv s₁ := by
  cases hpc : s.poll with
  | idle => simp [Handshake.stepPoll, hpc] at hst
  | load w =>
      rw [hpc, Handshake.stepPoll] at hst
      by_cases hd : s.done = true
      · rw [if_pos hd] at hst
        cases hst
        exact hd ▸ h.endPoll fun hdown => absurd (hd.symm.trans hdown) (by decide)
      · rw [if_neg hd] at hst
        cases hst
        exact ⟨h.set_iff, h.ready, nofun, nofun⟩
  | store w =>
      rw [hpc] at hst
      cases hst
      refine ⟨h.set_iff, h.ready, ?_, nofun⟩
      intro v hv _
      cases hv
      rfl
  | check w =>
      rw [hpc] at hst
      cases hst
      exact h.endPoll (h.check w hpc)

theorem Inv.stepSignal (h : Inv s) (hst : Handshake.stepSignal s s.signal = some s₁) : Inv s₁ := by
  cases hpc : s.signal with
  | idle => simp [Handshake.stepSignal, hpc] at hst
  -- a poll that saw `done` down has left its waker, and `take` comes after this store
  | store =>
      rw [hpc] at hst
      cases hst
      refine ⟨⟨fun _ => .inr (.inl rfl), fun _ => rfl⟩, fun _ _ => rfl, nofun, fun hidle w hlast => ?_⟩
      rcases h.told hidle w hlast with hw | ⟨h0, ⟨hw, -⟩ | hw⟩
      · exact .inl hw
      · exact .inr ⟨h0, .inl ⟨hw, .inr rfl⟩⟩
      · simp [hpc] at hw
  | take =>
      have hd : s.done = true := h.set_iff.mpr (.inr (.inl hpc))
      have hup : s.done ≠ false := by simp [hd]
      rw [hpc, Handshake.stepSignal] at hst
      cases hwaker : s.waker with
      | none =>
          simp only [hwaker, Option.some.injEq] at hst
          subst hst
          refine ⟨⟨fun _ => .inl (Nat.succ_pos _), fun _ => hd⟩, h.ready,
            fun _ _ hdown => absurd hdown hup, fun hidle w hlast => ?_⟩
          rcases h.told hidle w hlast with hw | ⟨-, ⟨hw, -⟩ | hw⟩
          · exact .inl hw
          · simp [hwaker] at hw
          · simp [hpc] at hw
      -- the waker moves from the slot to the signalling thread
      | some v =>
          simp only [hwaker, Option.some.injEq] at hst
          subst hst
          refine ⟨⟨fun _ => .inr (.inr ⟨v, rfl⟩), fun _ => hd⟩, h.ready,
            fun _ _ hdown => absurd hdown hup, fun hidle w hlast => ?_⟩
          rcases h.told hidle w hlast with hw | ⟨h0, ⟨hw, -⟩ | hw⟩
          · exact .inl hw
          · obtain rfl : v = w := by simpa [hwaker] using hw
            exact .inr ⟨h0, .inr rfl⟩
          · simp [hpc] at hw
  | wake v =>
      have hd : s.done = true := h.set_iff.mpr (.inr (.inr ⟨v, hpc⟩))
      have hup : s.done ≠ false := by simp [hd]
      rw [hpc] at hst
      cases hst
      refine ⟨⟨fun _ => .inl (Nat.succ_pos _), fun _ => hd⟩, h.ready,
        fun _ _ hdown => absurd hdown hup, fun hidle w hlast => ?_⟩
      rcases h.told hidle w hlast with hw | ⟨-, ⟨-, hdown | htake⟩ | hw⟩
      · exact .inl (List.mem_append_left _ hw)
      · exact absurd hdown hup
      · simp [hpc] at htake
      · obtain rfl : v = w := by simpa [hpc] using hw
        exact .inl (List.mem_append_right _ List.mem_cons_self)

/-- The call of a signal changes nothing yet. -/
theorem Inv.signal (h : Inv s) (hidle : s.signal = .idle) : Inv { s with signal := .store } where
  set_iff := by
    have hset := h.set_iff
    simp only [Set, hidle, reduceCtorEq, exists_false, or_false] at hset ⊢
    exact hset
  ready := h.ready
  check := h.check
  told hpoll w hlast := by
    rcases h.told hpoll w hlast with hw | ⟨h0, ⟨hw, hdown | htake⟩ | hw⟩
    · exact .inl hw
    · exact .inr ⟨h0, .inl ⟨hw, .inl hdown⟩⟩
    · simp [hidle] at htake
    · simp [hidle] at hw

theorem Inv.step (h : Inv s) {a : Act ω} (hst : Handshake.step s a = some s₁) : Inv s₁ := by
  cases a with
  | poll w =>
      simp only [Handshake.step] at hst
      split at hst
      · cases hst
        exact ⟨h.set_iff, h.ready, nofun, nofun⟩
      · cases hst
  | goPoll => exact h.stepPoll hst
  | signal =>
      simp only [Handshake.step] at hst
      split at hst
      · next hidle =>
          cases hst
          exact h.signal hidle
      · cases hst
  | goSignal => exact h.stepSignal hst

end Step

theorem inv_of_reachable {s : State ω} (hs : (machine ω).Reachable s) : Inv s :=
  hs.invariant (fun _ hinit => hinit ▸ inv_new) fun _ _ _ _ h hst => h.step hst

/-- In every interleaving of polls, each with its own waker, and of signals: once a signal has returned, the
waker of the last poll was woken, if that poll has returned `Pending`; and a poll returns `Ready` only when a
signal has set the flag. -/
theorem no_missed_wake {s : State ω} (hs : (machine ω).Reachable s) :
    (∀ w, ¬ (0 < s.signals ∧ s.poll = .idle ∧ s.polls.getLast? = some (w, false) ∧ w ∉ s.woken)) ∧
      ∀ w, (w, true) ∈ s.polls → s.done = true ∧ Set s := by
  have h := inv_of_reachable hs
  refine ⟨?_, fun w hw => ⟨h.ready w hw, h.set_iff.mp (h.ready w hw)⟩⟩
  rintro w ⟨hpos, hidle, hlast, hwoken⟩
  rcases h.told hidle w hlast with hw | ⟨h0, -⟩
  · exact hwoken hw
  · omega

/-- A poll that stores its waker after a signal has looked for one, and a second poll before it. -/
def closeCall : List (Act ℕ) :=
  [.poll 1, .goPoll, .goPoll, .goPoll, .poll 2, .goPoll, .signal, .goSignal, .goSignal, .goPoll,
    .goSignal, .goPoll]

theorem no_missed_wake_closeCall :
    ∃ s, Machine.runFn step (State.new : State ℕ) closeCall = some s ∧
      s.polls = [(1, false), (2, true)] ∧ s.woken = [1] ∧ s.waker = some 2 ∧ s.done = true := by
  obtain ⟨s, hs⟩ : ∃ s, Machine.runFn step (State.new : State ℕ) closeCall = some s := ⟨_, rfl⟩
  have hpolls : s.polls = [(1, false), (2, true)] := by
    cases hs
    rfl
  have hready := (no_missed_wake (Machine.reachable_of_runFn hs)).2 2 (by simp [hpolls])
  refine ⟨s, hs, hpolls, ?_, ?_, hready.1⟩
  · cases hs
    rfl
  · cases hs
    rfl

end ZeroKv.GroupCommit.Handshake
