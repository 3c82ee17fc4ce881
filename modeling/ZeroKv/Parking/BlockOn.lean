/-
# ZeroKv.Parking.BlockOn — `block_on` parks only when no wake is pending.

`block_on` polls a future and parks when nothing has raised `awake` since its last look.  A waker raises the
flag first and unparks afterwards, from any thread, and as often as it likes.

The token of the thread is shared by everything that may unpark it.  Here an unpark from elsewhere can come at
any time, `park` may return for no reason, the token may be set before the call begins, and the future may do
to the token of its own thread what it likes while it is polled.  A waker called from inside the poll is one of
the callers.  The reference count of the waker is left out: a call can be made at any time, also after
`block_on` has returned.
-/
import ZeroKv.Lib.Machine
import ZeroKv.Lib.Park

namespace ZeroKv.Parking

open Park

namespace BlockOn

/-- Where `block_on` is. -/
inductive Pc
  /-- `signal.awake.swap(false)` -/
  | swap
  /-- in front of the call of `poll` -/
  | poll
  /-- inside `poll` -/
  | polling
  /-- `thread::park()` -/
  | park
  | returned
deriving DecidableEq

/-- Where a caller of `wake` or `wake_by_ref` is.  History: `began` is the number of polls started when the
call began, `set` the number of swaps made when it set the flag. -/
inductive WakePc
  | idle
  /-- `arc.awake.store(true)` -/
  | store (began : ℕ)
  /-- `arc.thread.unpark()` -/
  | unpark (began set : ℕ)
deriving DecidableEq

/-- The flag of `ThreadSignal`, the token of its thread, and the threads.  History: the polls started, the
swaps made, and for every finished call of a waker the polls that were started when it began. -/
structure State (τ : Type) where
  awake : Bool
  token : Bool
  pc : Pc
  wakers : τ → WakePc
  polls : ℕ
  swaps : ℕ
  finished : List ℕ

inductive Act (τ : Type)
  /-- The next step of `block_on`; `spurious` matters to `park` only. -/
  | run (spurious : Bool)
  /-- The future that is being polled parks or unparks its own thread. -/
  | future (token : Bool)
  /-- `poll` returns `Ready` or `Pending`. -/
  | answer (ready : Bool)
  | wake (t : τ)
  | wakeByRef (t : τ)
  /-- The next step of a waker. -/
  | go (t : τ)
  /-- An unpark that has nothing to do with this call. -/
  | stray

/-- The start of `block_on`, on a thread with any token. -/
def State.new (τ : Type) (token : Bool) : State τ where
  awake := true
  token := token
  pc := .swap
  wakers := fun _ => .idle
  polls := 0
  swaps := 0
  finished := []

/-- `block_on` is blocked in `park`. -/
def State.Blocked {τ : Type} (s : State τ) : Prop := s.pc = .park ∧ s.token = false

section Step

variable {τ : Type} [DecidableEq τ]

def State.goto (s : State τ) (t : τ) (pc : WakePc) : State τ :=
  { s with wakers := Function.update s.wakers t pc }

/-- The loop of `block_on`. -/
def stepLoop (s : State τ) (spurious : Bool) : Option (State τ) :=
  match s.pc with
  | .swap =>
      some { s with awake := false, swaps := s.swaps + 1, pc := if s.awake then .poll else .park }
  | .poll => some { s with polls := s.polls + 1, pc := .polling }
  | .park => (park s.token spurious).map fun token => { s with token := token, pc := .swap }
  | .polling | .returned => none

/-- `rw_wake` and `rw_wake_by_ref`, which differ in what they do to the reference count. -/
def stepWaker (s : State τ) (t : τ) : Option (State τ) :=
  match s.wakers t with
  | .idle => none
  | .store began => some { s.goto t (.unpark began s.swaps) with awake := true }
  | .unpark began _ =>
      some { s.goto t .idle with token := true, finished := began :: s.finished }

def step (s : State τ) : Act τ → Option (State τ)
  | .run spurious => stepLoop s spurious
  | .future token => if s.pc = .polling then some { s with token := token } else none
  | .answer ready =>
      if s.pc = .polling then some { s with pc := if ready then .returned else .swap } else none
  | .wake t | .wakeByRef t =>
      if s.wakers t = .idle then some (s.goto t (.store s.polls)) else none
  | .go t => stepWaker s t
  | .stray => some { s with token := true }

end Step

/-- One call of `block_on` and its wakers. -/
def machine (τ : Type) [DecidableEq τ] (token : Bool) : Machine (State τ) (Act τ) :=
  .ofFn (.new τ token) step

/-! ## The flag and the token -/

variable {τ : Type} {s s' : State τ} {l : Act τ}

/-- A waker that has raised the flag since the last swap, and has not unparked. -/
def State.Owed (s : State τ) : Prop := ∃ t began, s.wakers t = .unpark began s.swaps

/-- A waker that began after the last poll started has raised the flag. -/
def State.Raised (s : State τ) : Prop :=
  (∃ t set, s.wakers t = .unpark s.polls set) ∨ s.polls ∈ s.finished

/-- When a call that is under way began. -/
def WakePc.began : WakePc → ℕ
  | .idle => 0
  | .store began | .unpark began _ => began

/-- What `block_on` relies on.  No call began later than now.  Between the swap that returned `true` and the
poll the flag is down for the wakes that the coming poll answers; otherwise it is up for every wake that
belongs to the last poll. -/
structure Inv (s : State τ) : Prop where
  began_le : ∀ t, (s.wakers t).began ≤ s.polls
  finished_le : ∀ began ∈ s.finished, began ≤ s.polls
  raised : s.pc ≠ .poll → s.Raised → s.awake = true
  guarded : Guarded (s.pc = .park) s.awake s.token s.Owed (s.polls ∈ s.finished)

theorem inv_new {token : Bool} : Inv (State.new τ token) where
  began_le _ := Nat.le_refl _
  finished_le _ h := by cases h
  raised _ _ := rfl
  guarded := .of_not_parked (by simp [State.new])

variable [DecidableEq τ]

omit [DecidableEq τ] in
theorem Inv.stepLoop {spurious : Bool} (h : Inv s) (hst : stepLoop s spurious = some s') : Inv s' := by
  cases hpc : s.pc with
  | swap =>
      simp only [BlockOn.stepLoop, hpc, Option.some.injEq] at hst
      subst hst
      cases haw : s.awake with
      | true => exact ⟨h.began_le, h.finished_le, fun hne => absurd rfl hne, .of_not_parked (by simp)⟩
      | false =>
          have hnot : ¬ s.Raised := fun hr => by simpa [haw] using h.raised (by simp [hpc]) hr
          exact ⟨h.began_le, h.finished_le, fun _ hr => absurd hr hnot,
            .check rfl fun hf => hnot (.inr hf)⟩
  | poll =>
      simp only [BlockOn.stepLoop, hpc, Option.some.injEq] at hst
      subst hst
      refine ⟨fun t => Nat.le_succ_of_le (h.began_le t),
        fun b hb => Nat.le_succ_of_le (h.finished_le b hb), ?_, .of_not_parked (by simp)⟩
      rintro - (⟨t, n, hb⟩ | hb)
      · have hle := h.began_le t
        rw [show s.wakers t = _ from hb] at hle
        exact absurd hle (Nat.not_succ_le_self _)
      · exact absurd (h.finished_le _ hb) (Nat.not_succ_le_self _)
  | park =>
      simp only [BlockOn.stepLoop, hpc, Option.map_eq_some_iff] at hst
      obtain ⟨token, -, rfl⟩ := hst
      exact ⟨h.began_le, h.finished_le, fun _ => h.raised (by simp [hpc]), .of_not_parked (by simp)⟩
  | polling | returned => simp [BlockOn.stepLoop, hpc] at hst

theorem began_le_goto {t : τ} {pc : WakePc} (h : ∀ t, (s.wakers t).began ≤ s.polls)
    (hpc : pc.began ≤ s.polls) (u : τ) : ((s.goto t pc).wakers u).began ≤ s.polls := by
  exact (Function.forall_update_iff s.wakers fun _ pc => pc.began ≤ s.polls).mpr
    ⟨hpc, fun u _ => h u⟩ u

/-- A thread that is not in front of an unpark is not the one that is owed. -/
theorem State.Owed.goto {t : τ} {pc : WakePc} (h : s.Owed)
    (hpc : ∀ began set, s.wakers t ≠ .unpark began set) : (s.goto t pc).Owed := by
  exact exists_apply_update (p := fun pc : WakePc => ∃ began, pc = .unpark began s.swaps) h
    fun ⟨began, hb⟩ => hpc _ _ hb

/-- A new program point that is not in front of an unpark raises nothing. -/
theorem State.Raised.of_goto {t : τ} {pc : WakePc} (h : (s.goto t pc).Raised)
    (hpc : ∀ set, pc ≠ .unpark s.polls set) : s.Raised := by
  refine h.imp_left fun ⟨u, n, hu⟩ => ⟨u, n, ?_⟩
  exact of_apply_update (p := fun pc : WakePc => pc = .unpark s.polls n) (fun hb => absurd hb (hpc n)) hu

theorem Inv.stepWaker {t : τ} (h : Inv s) (hst : stepWaker s t = some s') : Inv s' := by
  have hle := h.began_le t
  cases hpc : s.wakers t with
  | idle => simp [BlockOn.stepWaker, hpc] at hst
  | store began =>
      simp only [BlockOn.stepWaker, hpc, Option.some.injEq] at hst
      subst hst
      rw [hpc] at hle
      exact ⟨began_le_goto h.began_le hle, h.finished_le, fun _ _ => rfl,
        h.guarded.raise ⟨t, began, by simp [State.goto]⟩ id⟩
  | unpark began set =>
      simp only [BlockOn.stepWaker, hpc, Option.some.injEq] at hst
      subst hst
      rw [hpc] at hle
      refine ⟨began_le_goto h.began_le (Nat.zero_le _), ?_, fun hne hr => h.raised hne ?_, .unpark⟩
      · rintro b (_ | ⟨_, hb⟩)
        · exact hle
        · exact h.finished_le b hb
      · -- the call that finishes was among those that had raised the flag
        rcases hr with hr | hr
        · have hr' : (s.goto t .idle).Raised := .inl hr
          exact hr'.of_goto (by simp)
        · rcases List.mem_cons.mp hr with (he : s.polls = began) | hr
          · exact .inl ⟨t, set, he ▸ hpc⟩
          · exact .inr hr

theorem Inv.begin {t : τ} (h : Inv s) (hpc : s.wakers t = .idle) : Inv (s.goto t (.store s.polls)) where
  began_le := began_le_goto h.began_le (Nat.le_refl _)
  finished_le := h.finished_le
  raised hne hr := h.raised hne (hr.of_goto (by simp))
  guarded := h.guarded.frame id (fun ho => ho.goto (by simp [hpc])) id

theorem Inv.step (h : Inv s) (hst : step s l = some s') : Inv s' := by
  cases l with
  | run spurious => exact h.stepLoop hst
  | go t => exact h.stepWaker hst
  | future token =>
      obtain ⟨hpc, hst⟩ := Option.ite_none_right_eq_some.mp hst
      cases hst
      exact ⟨h.began_le, h.finished_le, h.raised, .of_not_parked (by simp [hpc])⟩
  | answer ready =>
      obtain ⟨hpc, hst⟩ := Option.ite_none_right_eq_some.mp hst
      cases hst
      refine ⟨h.began_le, h.finished_le, fun _ => h.raised (by simp [hpc]), .of_not_parked ?_⟩
      cases ready <;> simp
  | wake t | wakeByRef t =>
      obtain ⟨hpc, hst⟩ := Option.ite_none_right_eq_some.mp hst
      cases hst
      exact h.begin hpc
  | stray =>
      cases hst
      exact ⟨h.began_le, h.finished_le, h.raised, .unpark⟩

theorem inv_of_reachable {token : Bool} (hs : (machine τ token).Reachable s) : Inv s :=
  hs.invariant (fun _ hinit => hinit ▸ inv_new) fun _ _ _ _ h hst => h.step hst

end BlockOn

end ZeroKv.Parking
