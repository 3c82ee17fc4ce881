/-
# ZeroKv.Lib.Machine — labelled transition systems, reachability and finite executions.

Every concurrent component of the engine is modelled as one transition system whose labels name the
acting thread and resolve its choices.  This module holds the views of such a system that the rest
of the development uses: the reachable states with their invariant rule, the system restricted
to the steps that meet a condition, and a finite execution as an indexed sequence of states, for the
arguments that look back at an earlier state of the same run.  A trace keeps the labels of a run, for
statements about what the threads were asked to do.  Nothing here knows about the engine.
-/
import Mathlib.Logic.Function.Basic
import Mathlib.Data.List.Basic

namespace ZeroKv

universe u v

/-- A labelled transition system.  The label carries the acting thread and every choice the step
makes, so that a schedule is a list of labels. -/
structure Machine (σ : Type u) (ℓ : Type v) where
  init : σ → Prop
  step : σ → ℓ → σ → Prop

namespace Machine

variable {σ : Type u} {ℓ : Type v}

/-- The transition system of an executable step function. -/
def ofFn (s₀ : σ) (f : σ → ℓ → Option σ) : Machine σ ℓ where
  init s := s = s₀
  step s l t := f s l = some t

/-- The same system, with only those steps that meet `P` in the state they start from. -/
def restrict (M : Machine σ ℓ) (P : σ → ℓ → Prop) : Machine σ ℓ where
  init := M.init
  step s l t := P s l ∧ M.step s l t

/-! ## Reachable states -/

/-- States some run of the system ends in. -/
inductive Reachable (M : Machine σ ℓ) : σ → Prop
  | start {s : σ} : M.init s → Reachable M s
  | next {s t : σ} {l : ℓ} : Reachable M s → M.step s l t → Reachable M t

/-- The invariant rule.  The step premise may use that its source state is reachable, so that
invariants can be proved one after the other. -/
theorem Reachable.invariant {M : Machine σ ℓ} {I : σ → Prop}
    (h0 : ∀ s, M.init s → I s)
    (hstep : ∀ s l t, M.Reachable s → I s → M.step s l t → I t)
    {s : σ} (hs : M.Reachable s) : I s := by
  induction hs with
  | start h => exact h0 _ h
  | next hr hst ih => exact hstep _ _ _ hr ih hst

theorem Reachable.of_restrict {M : Machine σ ℓ} {P : σ → ℓ → Prop} {s : σ}
    (hs : (M.restrict P).Reachable s) : M.Reachable s := by
  induction hs with
  | start h => exact .start h
  | next _ hst ih => exact .next ih hst.2

theorem Reachable.restrict {M : Machine σ ℓ} {P : σ → ℓ → Prop} {s : σ} (hP : ∀ s l, P s l)
    (hs : M.Reachable s) : (M.restrict P).Reachable s := by
  induction hs with
  | start h => exact .start h
  | next _ hst ih => exact .next ih ⟨hP _ _, hst⟩

/-- `ls` are the labels of a run that ends in `s`, in order. -/
inductive Trace (M : Machine σ ℓ) : List ℓ → σ → Prop
  | start {s : σ} : M.init s → Trace M [] s
  | next {ls : List ℓ} {s t : σ} {l : ℓ} : Trace M ls s → M.step s l t → Trace M (ls ++ [l]) t

theorem Trace.reachable {M : Machine σ ℓ} {ls : List ℓ} {s : σ} (hs : M.Trace ls s) : M.Reachable s := by
  induction hs with
  | start h => exact .start h
  | next _ hst ih => exact ih.next hst

theorem Trace.of_restrict {M : Machine σ ℓ} {P : σ → ℓ → Prop} {ls : List ℓ} {s : σ}
    (hs : (M.restrict P).Trace ls s) : M.Trace ls s := by
  induction hs with
  | start h => exact .start h
  | next _ hst ih => exact ih.next hst.2

/-- The invariant rule for what relates a state to the labels that led to it. -/
theorem Trace.invariant {M : Machine σ ℓ} {I : List ℓ → σ → Prop}
    (h0 : ∀ s, M.init s → I [] s)
    (hstep : ∀ ls s l t, M.Reachable s → I ls s → M.step s l t → I (ls ++ [l]) t)
    {ls : List ℓ} {s : σ} (hs : M.Trace ls s) : I ls s := by
  induction hs with
  | start h => exact h0 _ h
  | next hr hst ih => exact hstep _ _ _ _ hr.reachable ih hst

/-- `t` is reached from `s` through states that all satisfy `P`, both ends included. -/
inductive StaysIn (M : Machine σ ℓ) (P : σ → Prop) : σ → σ → Prop
  | refl {s : σ} : P s → StaysIn M P s s
  | next {s t u : σ} {l : ℓ} : StaysIn M P s t → M.step t l u → P u → StaysIn M P s u

theorem StaysIn.reachable {M : Machine σ ℓ} {P : σ → Prop} {s t : σ} (hs : M.Reachable s)
    (h : M.StaysIn P s t) : M.Reachable t := by
  induction h with
  | refl _ => exact hs
  | next _ hst _ ih => exact .next ih hst

theorem StaysIn.last {M : Machine σ ℓ} {P : σ → Prop} {s t : σ} (h : M.StaysIn P s t) : P t := by
  cases h with
  | refl h => exact h
  | next _ _ h => exact h

theorem StaysIn.trans {M : Machine σ ℓ} {P : σ → Prop} {s t u : σ} (h : M.StaysIn P s t)
    (h' : M.StaysIn P t u) : M.StaysIn P s u := by
  induction h' with
  | refl _ => exact h
  | next _ hst hP ih => exact .next ih hst hP

/-- The invariant rule along a stretch of a run that stays in `P`. -/
theorem StaysIn.invariant {M : Machine σ ℓ} {P I : σ → Prop} {s t : σ} (hs : M.Reachable s)
    (h0 : I s) (hstep : ∀ u l v, M.Reachable u → P u → P v → I u → M.step u l v → I v)
    (h : M.StaysIn P s t) : I t := by
  induction h with
  | refl _ => exact h0
  | next hpath hst hP ih => exact hstep _ _ _ (hpath.reachable hs) hpath.last hP ih hst

/-! ## Running a schedule -/

/-- Run a list of labels through a step function. -/
def runFn (f : σ → ℓ → Option σ) : σ → List ℓ → Option σ
  | s, [] => some s
  | s, l :: ls => (f s l).bind fun t => runFn f t ls

theorem runFn_append {f : σ → ℓ → Option σ} {s : σ} {ls ls' : List ℓ} :
    runFn f s (ls ++ ls') = (runFn f s ls).bind fun t => runFn f t ls' := by
  induction ls generalizing s with
  | nil => rfl
  | cons l ls ih =>
      rw [List.cons_append, runFn, runFn, Option.bind_assoc]
      exact congrArg _ (funext fun t => ih)

theorem reachable_runFn {s₀ s t : σ} {f : σ → ℓ → Option σ} {ls : List ℓ}
    (hs : (ofFn s₀ f).Reachable s) (h : runFn f s ls = some t) : (ofFn s₀ f).Reachable t := by
  induction ls generalizing s with
  | nil =>
      simp only [runFn, Option.some.injEq] at h
      exact h ▸ hs
  | cons l ls ih =>
      obtain ⟨u, hu, hrest⟩ := Option.bind_eq_some_iff.mp h
      exact ih (hs.next hu) hrest

/-- A schedule that runs to its end shows that the state it ends in is reachable. -/
theorem reachable_of_runFn {s₀ t : σ} {f : σ → ℓ → Option σ} {ls : List ℓ}
    (h : runFn f s₀ ls = some t) : (ofFn s₀ f).Reachable t :=
  reachable_runFn (.start rfl) h

/-- The same for a system restricted by a condition that the schedule meets at every step. -/
theorem reachable_restrict_of_runFn {s₀ t : σ} {f : σ → ℓ → Option σ} {P : σ → ℓ → Prop}
    [∀ s l, Decidable (P s l)] {ls : List ℓ}
    (h : runFn (fun s l => if P s l then f s l else none) s₀ ls = some t) :
    ((ofFn s₀ f).restrict P).Reachable t := by
  have hs := reachable_of_runFn h
  clear h
  induction hs with
  | start h => exact .start h
  | next _ hst ih => exact .next ih (Option.ite_none_right_eq_some.mp hst)

/-- What a restricted step function runs, the step function runs too. -/
theorem runFn_of_restrict {s t : σ} {f : σ → ℓ → Option σ} {P : σ → ℓ → Prop}
    [∀ s l, Decidable (P s l)] {ls : List ℓ}
    (h : runFn (fun s l => if P s l then f s l else none) s ls = some t) :
    runFn f s ls = some t := by
  induction ls generalizing s with
  | nil => exact h
  | cons l ls ih =>
      obtain ⟨u, hu, hrest⟩ := Option.bind_eq_some_iff.mp h
      obtain ⟨-, hf⟩ := Option.ite_none_right_eq_some.mp hu
      rw [runFn, hf]
      exact ih hrest

/-- A schedule whose steps end in `P` is a stretch of a run, of any system that allows its steps. -/
theorem StaysIn.runFn {M : Machine σ ℓ} {P : σ → Prop} {s₀ s t : σ} {f : σ → ℓ → Option σ} {ls : List ℓ}
    (hs : M.StaysIn P s₀ s) (hM : ∀ s t, ∀ l ∈ ls, f s l = some t → M.step s l t ∧ P t)
    (h : Machine.runFn f s ls = some t) : M.StaysIn P s₀ t := by
  induction ls generalizing s with
  | nil =>
      simp only [Machine.runFn, Option.some.injEq] at h
      exact h ▸ hs
  | cons l ls ih =>
      obtain ⟨u, hu, hrest⟩ := Option.bind_eq_some_iff.mp h
      obtain ⟨hst, hP⟩ := hM s u l List.mem_cons_self hu
      exact ih (hs.next hst hP) (fun s t l hl => hM s t l (List.mem_cons_of_mem _ hl)) hrest

/-- A schedule prolongs a run of any system that allows its steps. -/
theorem Trace.runFn {M : Machine σ ℓ} {s t : σ} {f : σ → ℓ → Option σ} {ls₀ ls : List ℓ}
    (hs : M.Trace ls₀ s) (hM : ∀ s t, ∀ l ∈ ls, f s l = some t → M.step s l t)
    (h : Machine.runFn f s ls = some t) : M.Trace (ls₀ ++ ls) t := by
  induction ls generalizing s ls₀ with
  | nil =>
      simp only [Machine.runFn, Option.some.injEq] at h
      rw [List.append_nil]
      exact h ▸ hs
  | cons l ls ih =>
      obtain ⟨u, hu, hrest⟩ := Option.bind_eq_some_iff.mp h
      have hlong := ih (hs.next (hM s u l List.mem_cons_self hu))
        (fun s t l hl => hM s t l (List.mem_cons_of_mem _ hl)) hrest
      rwa [List.append_assoc, List.singleton_append] at hlong

/-! ## Systems side by side -/

section Pi

variable {ι : Type*} [DecidableEq ι]

/-- Copies of one system, one for each `i`, that step one at a time and share nothing. -/
def pi (ι : Type*) [DecidableEq ι] (M : Machine σ ℓ) : Machine (ι → σ) (ι × ℓ) where
  init s := ∀ i, M.init (s i)
  step s l t := ∃ u, M.step (s l.1) l.2 u ∧ t = Function.update s l.1 u

theorem StaysIn.of_pi {M : Machine σ ℓ} {s t : ι → σ} (h : (M.pi ι).StaysIn (fun _ => True) s t)
    (i : ι) : M.StaysIn (fun _ => True) (s i) (t i) := by
  induction h with
  | refl _ => exact .refl trivial
  | @next t v l _ hst _ ih =>
      obtain ⟨u, hu, rfl⟩ := hst
      by_cases hi : i = l.1
      · subst hi
        rw [Function.update_self]
        exact ih.next hu trivial
      · rwa [Function.update_of_ne hi]

theorem Reachable.of_pi {M : Machine σ ℓ} {s : ι → σ} (hs : (M.pi ι).Reachable s) (i : ι) :
    M.Reachable (s i) := by
  induction hs with
  | start h => exact .start (h i)
  | @next s v l _ hst ih =>
      have hstep : (M.pi ι).StaysIn (fun _ => True) s v := .next (.refl trivial) hst trivial
      exact (hstep.of_pi i).reachable ih

/-- One copy runs, the others have not moved. -/
theorem Reachable.update_pi {M : Machine σ ℓ} {s₀ : ι → σ} {s : σ} (h₀ : ∀ i, M.init (s₀ i))
    (hs : M.Reachable s) (i : ι) : (M.pi ι).Reachable (Function.update s₀ i s) := by
  induction hs with
  | @start s h =>
      refine .start fun j => ?_
      by_cases hj : j = i
      · subst hj
        rwa [Function.update_self]
      · rw [Function.update_of_ne hj]
        exact h₀ j
  | @next s t l _ hst ih =>
      refine ih.next (l := (i, l)) ⟨t, ?_, (Function.update_idem ..).symm⟩
      rwa [Function.update_self]

end Pi

end Machine

/-! ## When one party moves -/

section Update

variable {ι : Type*} {β : Type*} {γ : Type*} [DecidableEq ι] {f : ι → β} {i j : ι} {b : β}

/-- What the move of one party does not change is the same for all. -/
theorem apply_update_of_eq (g : β → γ) (h : g b = g (f i)) (j : ι) :
    g (Function.update f i b j) = g (f j) := by
  by_cases hj : j = i
  · subst hj
    rwa [Function.update_self]
  · rw [Function.update_of_ne hj]

/-- What holds of a party after the move held before, if the move does not bring it about. -/
theorem of_apply_update {p : β → Prop} (hb : p b → p (f i)) (h : p (Function.update f i b j)) :
    p (f j) := by
  by_cases hj : j = i
  · subst hj
    exact hb (by rwa [Function.update_self] at h)
  · rwa [Function.update_of_ne hj] at h

/-- A party that stands out still does so when another one moves. -/
theorem exists_apply_update {p : β → Prop} (h : ∃ j, p (f j)) (hi : ¬ p (f i)) :
    ∃ j, p (Function.update f i b j) := by
  obtain ⟨j, hj⟩ := h
  have hne : j ≠ i := fun he => hi (he ▸ hj)
  exact ⟨j, by rwa [Function.update_of_ne hne]⟩

end Update

end ZeroKv
