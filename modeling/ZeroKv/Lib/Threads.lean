/-
# ZeroKv.Lib.Threads — threads over shared memory, and the thread-modular invariant rule.

A concurrent component is given by what *one* thread does: a function from the shared memory and the
thread's own registers to their next values.  The system runs any number of copies of it, one step of
one thread at a time.

`System.invariant` is the rule the safety proofs use.  It asks for three things: what holds of the
shared memory, what holds between the memory and one thread, and what holds between two different
threads.  A step has to keep the first two for the acting thread, and must not disturb a bystander;
the induction over interleavings is done here once.
-/
import ZeroKv.Lib.Machine

namespace ZeroKv

universe u v w x y

/-- What one thread does: `step mem loc a` is the effect of choice `a` on the shared memory and on
the registers of the acting thread, `none` when the choice is not enabled. -/
structure Threads (μ : Type u) (lo : Type v) (α : Type w) where
  mem : μ
  loc : lo
  step : μ → lo → α → Option (μ × lo)

/-- A configuration: the shared memory and the registers of every thread. -/
@[ext]
structure Config (τ : Type x) (μ : Type u) (lo : Type v) where
  mem : μ
  loc : τ → lo

namespace Threads

variable {τ : Type x} {μ : Type u} {lo : Type v} {α : Type w} [DecidableEq τ]

/-- One step of thread `t`. -/
def stepOf (P : Threads μ lo α) (s : Config τ μ lo) (ta : τ × α) : Option (Config τ μ lo) :=
  (P.step s.mem (s.loc ta.1) ta.2).map fun r =>
    { mem := r.1, loc := Function.update s.loc ta.1 r.2 }

/-- The interleavings of one copy of `P` for each `t : τ`. -/
def machine (τ : Type x) [DecidableEq τ] (P : Threads μ lo α) :
    Machine (Config τ μ lo) (τ × α) :=
  .ofFn { mem := P.mem, loc := fun _ => P.loc } P.stepOf

theorem stepOf_eq_some {P : Threads μ lo α} {s t : Config τ μ lo} {u : τ} {a : α} :
    P.stepOf s (u, a) = some t ↔
      ∃ m l, P.step s.mem (s.loc u) a = some (m, l) ∧
        t = { mem := m, loc := Function.update s.loc u l } := by
  constructor
  · intro h
    obtain ⟨⟨m, l⟩, hml, rfl⟩ := Option.map_eq_some_iff.mp h
    exact ⟨m, l, hml, rfl⟩
  · rintro ⟨m, l, hml, rfl⟩
    simp [stepOf, hml]

/-- The same threads, taking only the steps that meet `R` in the memory and registers they start
from. -/
def restrict (P : Threads μ lo α) (R : μ → lo → α → Bool) : Threads μ lo α where
  mem := P.mem
  loc := P.loc
  step m l a := if R m l a then P.step m l a else none

theorem restrict_step {P : Threads μ lo α} {R : μ → lo → α → Bool} {m m' : μ} {l l' : lo} {a : α} :
    (P.restrict R).step m l a = some (m', l') ↔
      R m l a = true ∧ P.step m l a = some (m', l') := by
  simp [restrict]

/-- A thread-modular invariant: `shared` of the memory, `own` of the memory and one thread, `apart`
of two different threads. -/
structure Invariant (P : Threads μ lo α) where
  shared : μ → Prop
  own : μ → lo → Prop
  apart : lo → lo → Prop
  init_shared : shared P.mem
  init_own : own P.mem P.loc
  init_apart : apart P.loc P.loc
  /-- The acting thread keeps the memory and itself in order. -/
  keep : ∀ {m l a m' l'}, shared m → own m l → P.step m l a = some (m', l') →
    shared m' ∧ own m' l'
  /-- A bystander `b` is not disturbed. -/
  bystander : ∀ {m l a m' l' b}, shared m → own m l → own m b → apart l b → apart b l →
    P.step m l a = some (m', l') → own m' b ∧ apart l' b ∧ apart b l'

/-- What an invariant says of a configuration. -/
structure Invariant.Holds {P : Threads μ lo α} (I : Invariant P) (s : Config τ μ lo) : Prop where
  shared : I.shared s.mem
  own : ∀ t, I.own s.mem (s.loc t)
  apart : ∀ t u, t ≠ u → I.apart (s.loc t) (s.loc u)

theorem Invariant.holds_step {P : Threads μ lo α} (I : Invariant P) {s t : Config τ μ lo}
    {u : τ} {a : α} (h : I.Holds s) (hst : P.stepOf s (u, a) = some t) : I.Holds t := by
  obtain ⟨m, l, hml, rfl⟩ := stepOf_eq_some.mp hst
  have hkeep := I.keep h.shared (h.own u) hml
  have hby : ∀ v, v ≠ u → I.own m (s.loc v) ∧ I.apart l (s.loc v) ∧ I.apart (s.loc v) l :=
    fun v hv => I.bystander h.shared (h.own u) (h.own v) (h.apart u v hv.symm) (h.apart v u hv) hml
  refine ⟨hkeep.1, ?_, ?_⟩
  · intro v
    by_cases hv : v = u
    · subst hv
      simpa using hkeep.2
    · simpa [Function.update_of_ne hv] using (hby v hv).1
  · intro v v' hne
    by_cases hv : v = u
    · subst hv
      simpa [Function.update_of_ne hne.symm] using (hby v' hne.symm).2.1
    · by_cases hv' : v' = u
      · subst hv'
        simpa [Function.update_of_ne hv] using (hby v hv).2.2
      · simpa [Function.update_of_ne hv, Function.update_of_ne hv'] using h.apart v v' hne

/-- **The thread-modular invariant rule.** -/
theorem Invariant.holds {P : Threads μ lo α} (I : Invariant P) {s : Config τ μ lo}
    (hs : (P.machine τ).Reachable s) : I.Holds s := by
  refine hs.invariant ?_ ?_
  · rintro s rfl
    exact ⟨I.init_shared, fun _ => I.init_own, fun _ _ _ => I.init_apart⟩
  · rintro s ⟨u, a⟩ t _ hi hst
    exact I.holds_step hi hst

/-! ## Building invariants on invariants -/

/-- An invariant holds when some of the steps are left out. -/
def Invariant.restrict {P : Threads μ lo α} (I : Invariant P) (R : μ → lo → α → Bool) :
    Invariant (P.restrict R) where
  shared := I.shared
  own := I.own
  apart := I.apart
  init_shared := I.init_shared
  init_own := I.init_own
  init_apart := I.init_apart
  keep hs ho hst := I.keep hs ho (restrict_step.mp hst).2
  bystander hs ho hb hlb hbl hst := I.bystander hs ho hb hlb hbl (restrict_step.mp hst).2

/-- Further facts, whose proof may use the invariant `I`. -/
structure Invariant.Extra {P : Threads μ lo α} (I : Invariant P) where
  shared : μ → Prop
  own : μ → lo → Prop
  apart : lo → lo → Prop
  init_shared : shared P.mem
  init_own : own P.mem P.loc
  init_apart : apart P.loc P.loc
  keep : ∀ {m l a m' l'}, I.shared m → I.own m l → shared m → own m l →
    P.step m l a = some (m', l') → shared m' ∧ own m' l'
  bystander : ∀ {m l a m' l' b}, I.shared m → I.own m l → I.own m b → I.apart l b →
    shared m → own m l → own m b → apart l b → apart b l →
    P.step m l a = some (m', l') → own m' b ∧ apart l' b ∧ apart b l'

/-- The invariant together with the further facts. -/
def Invariant.and {P : Threads μ lo α} (I : Invariant P) (E : I.Extra) : Invariant P where
  shared m := I.shared m ∧ E.shared m
  own m l := I.own m l ∧ E.own m l
  apart l b := I.apart l b ∧ E.apart l b
  init_shared := ⟨I.init_shared, E.init_shared⟩
  init_own := ⟨I.init_own, E.init_own⟩
  init_apart := ⟨I.init_apart, E.init_apart⟩
  keep hs ho hst := by
    obtain ⟨h₁, h₂⟩ := I.keep hs.1 ho.1 hst
    obtain ⟨h₃, h₄⟩ := E.keep hs.1 ho.1 hs.2 ho.2 hst
    exact ⟨⟨h₁, h₃⟩, h₂, h₄⟩
  bystander hs ho hb hlb hbl hst := by
    obtain ⟨h₁, h₂, h₃⟩ := I.bystander hs.1 ho.1 hb.1 hlb.1 hbl.1 hst
    obtain ⟨h₄, h₅, h₆⟩ :=
      E.bystander hs.1 ho.1 hb.1 hlb.1 hs.2 ho.2 hb.2 hlb.2 hbl.2 hst
    exact ⟨⟨h₁, h₄⟩, ⟨h₂, h₅⟩, h₃, h₆⟩

/-- Facts about the run so far, kept in a history variable that no step reads.  A step of one thread
chooses the next value of the variable; what the others know must survive that choice. -/
structure Invariant.History {P : Threads μ lo α} (I : Invariant P) (γ : Type y) where
  shared : μ → γ → Prop
  own : μ → γ → lo → Prop
  init : ∃ g, shared P.mem g ∧ own P.mem g P.loc
  step : ∀ {m l a m' l' g}, I.shared m → I.own m l → shared m g → own m g l →
    P.step m l a = some (m', l') → ∃ g', shared m' g' ∧ own m' g' l' ∧
      ∀ b, I.own m b → I.apart l b → own m g b → own m' g' b

/-- **The rule for history variables.** -/
theorem Invariant.History.holds {P : Threads μ lo α} {I : Invariant P} {γ : Type y}
    (H : I.History γ) {s : Config τ μ lo} (hs : (P.machine τ).Reachable s) :
    ∃ g, H.shared s.mem g ∧ ∀ t, H.own s.mem g (s.loc t) := by
  refine hs.invariant (I := fun s => ∃ g, H.shared s.mem g ∧ ∀ t, H.own s.mem g (s.loc t)) ?_ ?_
  · rintro s rfl
    obtain ⟨g, hg, ho⟩ := H.init
    exact ⟨g, hg, fun _ => ho⟩
  · rintro s ⟨u, a⟩ t hr ⟨g, hg, ho⟩ hst
    have hi := I.holds hr
    obtain ⟨m, l, hml, rfl⟩ := stepOf_eq_some.mp hst
    obtain ⟨g', hg', hl, hby⟩ := H.step hi.shared (hi.own u) hg (ho u) hml
    refine ⟨g', hg', fun v => ?_⟩
    by_cases hv : v = u
    · subst hv
      simpa using hl
    · simpa [Function.update_of_ne hv] using
        hby (s.loc v) (hi.own v) (hi.apart u v (Ne.symm hv)) (ho v)

/-- What is reached with some of the steps left out is reached. -/
theorem reachable_of_restrict {P : Threads μ lo α} {R : μ → lo → α → Bool} {s : Config τ μ lo}
    (hs : ((P.restrict R).machine τ).Reachable s) : (P.machine τ).Reachable s := by
  induction hs with
  | start h => exact .start h
  | @next s t ua _ hst ih =>
      obtain ⟨m, l, hml, rfl⟩ := stepOf_eq_some.mp hst
      exact ih.next (l := ua) (stepOf_eq_some.mpr ⟨m, l, (restrict_step.mp hml).2, rfl⟩)

/-- What is reached with more steps left out is reached. -/
theorem reachable_restrict_mono {P : Threads μ lo α} {R R' : μ → lo → α → Bool} {s : Config τ μ lo}
    (hR : ∀ m l a, R m l a = true → R' m l a = true) (hs : ((P.restrict R).machine τ).Reachable s) :
    ((P.restrict R').machine τ).Reachable s := by
  induction hs with
  | start h => exact .start h
  | @next s t ua _ hst ih =>
      obtain ⟨m, l, hml, rfl⟩ := stepOf_eq_some.mp hst
      obtain ⟨hr, hml⟩ := restrict_step.mp hml
      exact ih.next (l := ua) (stepOf_eq_some.mpr ⟨m, l, restrict_step.mpr ⟨hR _ _ _ hr, hml⟩, rfl⟩)

/-! ## One component of a system -/

/-- A view of the threads `P` as the threads `Q`: part of the memory and part of the registers.  A step
of `P` is a step of `Q` by the same thread, or is not seen. -/
structure Projection {μ' : Type u} {lo' : Type v} {β : Type w} (P : Threads μ lo α)
    (Q : Threads μ' lo' β) where
  mem : μ → μ'
  loc : lo → lo'
  init_mem : mem P.mem = Q.mem
  init_loc : loc P.loc = Q.loc
  step : ∀ {m l a m' l'}, P.step m l a = some (m', l') →
    (mem m' = mem m ∧ loc l' = loc l) ∨ ∃ b, Q.step (mem m) (loc l) b = some (mem m', loc l')

namespace Projection

variable {μ' : Type u} {lo' : Type v} {β : Type w} {P : Threads μ lo α} {Q : Threads μ' lo' β}

/-- What is seen of a configuration. -/
def view (π : Projection P Q) (s : Config τ μ lo) : Config τ μ' lo' where
  mem := π.mem s.mem
  loc t := π.loc (s.loc t)

theorem view_update (π : Projection P Q) (m : μ) (loc : τ → lo) (u : τ) (l : lo) :
    π.view ⟨m, Function.update loc u l⟩ =
      ⟨π.mem m, Function.update (fun t => π.loc (loc t)) u (π.loc l)⟩ :=
  Config.ext rfl (funext fun t => Function.apply_update (fun _ => π.loc) loc u l t)

theorem view_step (π : Projection P Q) {s t : Config τ μ lo} {u : τ} {a : α}
    (hst : P.stepOf s (u, a) = some t) :
    π.view t = π.view s ∨ ∃ b, Q.stepOf (π.view s) (u, b) = some (π.view t) := by
  obtain ⟨m, l, hml, rfl⟩ := stepOf_eq_some.mp hst
  rw [view_update]
  rcases π.step hml with ⟨hm, hl⟩ | ⟨b, hb⟩
  · exact .inl (Config.ext hm (by rw [hl]; exact Function.update_eq_self u _))
  · exact .inr ⟨b, stepOf_eq_some.mpr ⟨_, _, hb, rfl⟩⟩

theorem reachable (π : Projection P Q) {s : Config τ μ lo} (hs : (P.machine τ).Reachable s) :
    (Q.machine τ).Reachable (π.view s) := by
  refine hs.invariant (I := fun s => (Q.machine τ).Reachable (π.view s)) ?_ ?_
  · rintro s rfl
    exact .start (Config.ext π.init_mem (funext fun _ => π.init_loc))
  · rintro s ⟨u, a⟩ t _ hr hst
    rcases π.view_step hst with he | ⟨b, hb⟩
    · exact he ▸ hr
    · exact hr.next hb

end Projection

end Threads

end ZeroKv
