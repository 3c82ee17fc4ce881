/-
# ZeroKv.Lib.Fair — infinite runs, weak fairness, and what a fair run comes to.

Safety speaks of reachable states.  That something does happen is a statement about a whole run, and it needs
an assumption: a thread that can go on does go on some time.  A run here is an infinite sequence of states in
which nothing may happen at some times, so that a system that comes to rest has infinite runs too.

One rule is enough for the proofs.  `Pursuit` says of a goal how far away it is and which kind of step brings
it nearer; every other step leaves it at least as near, and leaves the helpful kind of step possible.  In a
run that is fair to each kind the goal is then reached: `Pursuit.leads`.
-/
import Mathlib.Order.WellFounded
import ZeroKv.Lib.Machine

namespace ZeroKv.Machine

universe u v

variable {σ : Type u} {ℓ : Type v} {M : Machine σ ℓ}

/-! ## Runs -/

/-- An infinite run.  At each time the system takes a step, or nothing happens. -/
structure Run (M : Machine σ ℓ) where
  state : ℕ → σ
  label : ℕ → Option ℓ
  init : M.init (state 0)
  idle : ∀ {i}, label i = none → state (i + 1) = state i
  step : ∀ {i l}, label i = some l → M.step (state i) l (state (i + 1))

namespace Run

variable (r : M.Run)

theorem reachable (i : ℕ) : M.Reachable (r.state i) := by
  induction i with
  | zero => exact .start r.init
  | succ i ih =>
      cases hl : r.label i with
      | none => rwa [r.idle hl]
      | some l => exact ih.next (r.step hl)

/-- What no step destroys lasts. -/
theorem lasts {I : σ → Prop} (hstep : ∀ s l t, M.Reachable s → I s → M.step s l t → I t) {i j : ℕ}
    (hij : i ≤ j) (hi : I (r.state i)) : I (r.state j) := by
  induction j, hij using Nat.le_induction with
  | base => exact hi
  | succ j _ ih =>
      cases hl : r.label j with
      | none => rwa [r.idle hl]
      | some l => exact hstep _ l _ (r.reachable j) ih (r.step hl)

end Run

/-- A step of the kind `A` is possible. -/
def Enabled (M : Machine σ ℓ) (A : ℓ → Prop) (s : σ) : Prop := ∃ l t, A l ∧ M.step s l t

/-- Weak fairness: if from some time on a step of the kind `A` is always possible, one is taken. -/
def Run.WeaklyFair (r : M.Run) (A : ℓ → Prop) : Prop :=
  ∀ i, (∀ j, i ≤ j → M.Enabled A (r.state j)) → ∃ j, i ≤ j ∧ ∃ l, r.label j = some l ∧ A l

/-! ## The rule -/

section Pursuit

variable {α κ : Type*} [Preorder α]

/-- How a goal is pursued.  `P a k s` says that in `s` the goal is `a` away and that the steps of kind `k`
bring it nearer.  Only the steps that meet `Q` are spoken of. -/
structure Pursuit (M : Machine σ ℓ) (Q : ℓ → Prop) (A : κ → ℓ → Prop) (P : α → κ → σ → Prop)
    (Goal : σ → Prop) : Prop where
  enabled : ∀ {a k s}, M.Reachable s → P a k s → M.Enabled (A k) s
  step : ∀ {a k s l t}, M.Reachable s → P a k s → Q l → M.step s l t →
    Goal t ∨ (∃ b k', b < a ∧ P b k' t) ∨ P a k t ∧ ¬ A k l

variable [WellFoundedLT α] {Q : ℓ → Prop} {A : κ → ℓ → Prop} {P : α → κ → σ → Prop} {Goal : σ → Prop}

/-- **A pursued goal is reached**, in every run that is fair to the helpful kinds and whose steps meet `Q`
from now on. -/
theorem Pursuit.leads (h : Pursuit M Q A P Goal) (r : M.Run) (hfair : ∀ k, r.WeaklyFair (A k)) {a : α}
    {k : κ} {i : ℕ} (hQ : ∀ j, i ≤ j → ∀ l, r.label j = some l → Q l) (hP : P a k (r.state i)) :
    ∃ j, i ≤ j ∧ Goal (r.state j) := by
  induction a using WellFoundedLT.induction generalizing k i with
  | _ a ih =>
      by_contra hno
      -- as long as the goal is not reached nothing changes, or else the goal comes nearer
      have hnext : ∀ j, i ≤ j → P a k (r.state j) → ∀ l, r.label j = some l →
          P a k (r.state (j + 1)) ∧ ¬ A k l := by
        intro j hj hPj l hl
        rcases h.step (r.reachable j) hPj (hQ j hj l hl) (r.step hl) with hgoal | ⟨b, k', hlt, hnear⟩ | hsame
        · exact absurd ⟨j + 1, by omega, hgoal⟩ hno
        · obtain ⟨m, hm, hgoal⟩ := ih b hlt (fun n hn => hQ n (by omega)) hnear
          exact absurd ⟨m, by omega, hgoal⟩ hno
        · exact hsame
      have hstay : ∀ j, i ≤ j → P a k (r.state j) := by
        intro j hj
        induction j, hj using Nat.le_induction with
        | base => exact hP
        | succ j hj hPj =>
            cases hl : r.label j with
            | none => rwa [r.idle hl]
            | some l => exact (hnext j hj hPj l hl).1
      obtain ⟨j, hj, l, hl, hA⟩ := hfair k i fun j hj => h.enabled (r.reachable j) (hstay j hj)
      exact (hnext j hj (hstay j hj) l hl).2 hA

end Pursuit

/-! ## Runs of a schedule -/

section Schedule

variable (s₀ : σ) (f : σ → ℓ → Option σ) (sched : ℕ → ℓ)

/-- The states of a schedule, in which a step that is not possible is left out. -/
def follow : ℕ → σ
  | 0 => s₀
  | i + 1 => (f (follow i) (sched i)).getD (follow i)

/-- The run of a schedule. -/
def Run.ofSchedule : (ofFn s₀ f).Run where
  state := follow s₀ f sched
  label i := (f (follow s₀ f sched i) (sched i)).map fun _ => sched i
  init := rfl
  idle {i} h := by
    rw [follow, Option.map_eq_none_iff.mp h]
    rfl
  step {i l} h := by
    obtain ⟨t, ht, rfl⟩ := Option.map_eq_some_iff.mp h
    show f (follow s₀ f sched i) (sched i) = some (follow s₀ f sched (i + 1))
    rw [follow, ht]
    rfl

theorem Run.eq_sched_of_label {i : ℕ} {l : ℓ} (h : (Run.ofSchedule s₀ f sched).label i = some l) :
    l = sched i := by
  obtain ⟨-, -, rfl⟩ := Option.map_eq_some_iff.mp h
  rfl

/-- The run of a schedule is fair to a kind of step that the schedule goes on trying. -/
theorem Run.weaklyFair_ofSchedule {A : ℓ → Prop}
    (h : ∀ i, ∃ j, i ≤ j ∧ A (sched j) ∧
      ((ofFn s₀ f).Enabled A (follow s₀ f sched j) → (f (follow s₀ f sched j) (sched j)).isSome = true)) :
    (Run.ofSchedule s₀ f sched).WeaklyFair A := by
  intro i hen
  obtain ⟨j, hj, hA, hsome⟩ := h i
  obtain ⟨t, ht⟩ := Option.isSome_iff_exists.mp (hsome (hen j hj))
  exact ⟨j, hj, sched j, by simp [Run.ofSchedule, ht], hA⟩

end Schedule

end ZeroKv.Machine
