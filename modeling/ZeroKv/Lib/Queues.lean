/-
# ZeroKv.Lib.Queues — programs over bounded queues, and queues made of smaller steps.

A system of parties that talk over bounded FIFO queues is easiest to reason about when a push and a pop
are one step.  A real queue takes several, and the two ends of it interleave.  This module closes the gap
once, for any program and any queue that has the shape below: every queue has one party at either end, a
call takes effect in one of its steps, and what the caller does with the answer is private to it.

Both directions are here.  A run over the real queues is a run over the atomic ones, in which some steps
are not seen; and whatever the atomic system can do next, the real one can catch up with, because a call
returns after boundedly many steps of its own.  Nothing here knows about the engine.
-/
import Mathlib.Data.Prod.Lex
import ZeroKv.Lib.Machine

namespace ZeroKv

/-! ## Queues -/

/-- Where one end of a queue is: between calls, in one, or with the answer in hand. -/
inductive Call (α β : Type)
  | idle
  | running (arg : α)
  | returned (answer : β)

/-- What a step of the producing end does to the contents of a queue of `cap` places and to its own call. -/
inductive ProducerStep {V : Type} (cap : ℕ) :
    List V → Call V (Except V Unit) → List V → Call V (Except V Unit) → Prop
  | silent {q v} : ProducerStep cap q (.running v) q (.running v)
  | accept {q v} (h : q.length < cap) : ProducerStep cap q (.running v) (q ++ [v]) (.returned (.ok ()))
  | refuse {q v} (h : cap ≤ q.length) : ProducerStep cap q (.running v) q (.returned (.error v))
  | finish {q r} : ProducerStep cap q (.returned r) q .idle

/-- The same for the consuming end. -/
inductive ConsumerStep {V : Type} : List V → Call Unit (Option V) → List V → Call Unit (Option V) → Prop
  | silent {q} : ConsumerStep q (.running ()) q (.running ())
  | take {q v} : ConsumerStep (v :: q) (.running ()) q (.returned (some v))
  | none : ConsumerStep [] (.running ()) [] (.returned none)
  | finish {q r} : ConsumerStep q (.returned r) q .idle

/-- A bounded queue made of smaller steps, with what it promises in the states that are `Ok`. -/
structure QueueImpl (V : Type) (cap : ℕ) where
  State : Type
  new : State
  contents : State → List V
  producer : State → Call V (Except V Unit)
  consumer : State → Call Unit (Option V)
  push : State → V → Option State
  pop : State → Option State
  stepProducer : State → Option State
  stepConsumer : State → Option State
  /-- How many more steps a running call takes at most before it takes effect. -/
  producerRank : State → ℕ
  consumerRank : State → ℕ
  Ok : State → Prop
  ok_new : Ok new
  contents_new : contents new = []
  producer_new : producer new = .idle
  consumer_new : consumer new = .idle
  push_spec : ∀ {r v}, Ok r → producer r = .idle → ∃ r', push r v = some r' ∧ Ok r' ∧
    producer r' = .running v ∧ consumer r' = consumer r ∧ contents r' = contents r
  pop_spec : ∀ {r}, Ok r → consumer r = .idle → ∃ r', pop r = some r' ∧ Ok r' ∧
    consumer r' = .running () ∧ producer r' = producer r ∧ contents r' = contents r
  producer_spec : ∀ {r}, Ok r → producer r ≠ .idle → ∃ r', stepProducer r = some r' ∧ Ok r' ∧
    ProducerStep cap (contents r) (producer r) (contents r') (producer r') ∧ consumer r' = consumer r ∧
    ∀ v, producer r' = .running v → producerRank r' < producerRank r
  consumer_spec : ∀ {r}, Ok r → consumer r ≠ .idle → ∃ r', stepConsumer r = some r' ∧ Ok r' ∧
    ConsumerStep (contents r) (consumer r) (contents r') (consumer r') ∧ producer r' = producer r ∧
    (consumer r' = .running () → consumerRank r' < consumerRank r)

/-! ## Programs -/

/-- What a party wants of a queue next, if anything. -/
inductive Access (κ : Type) (V : κ → Type)
  | none
  | push (k : κ) (v : V k)
  | pop (k : κ)

/-- Parties `ι` with private registers over a shared memory and the queues `κ`.  What a party wants next
only depends on its registers, and the answer only goes there.  Steps `α` are taken by the rest of the
system, which the queues and the registers are hidden from. -/
structure QueueProgram (ι κ : Type) (V : κ → Type) (μ lo α : Type) where
  mem : μ
  loc : ι → lo
  access : ι → lo → Access κ V
  move : ι → μ → lo → Option (μ × lo)
  afterPush : (k : κ) → lo → Except (V k) Unit → lo
  afterPop : (k : κ) → lo → Option (V k) → lo
  other : μ → α → Option μ
  /-- The parties at the two ends of a queue. -/
  source : κ → ι
  target : κ → ι
  access_push : ∀ {i l k v}, access i l = .push k v → source k = i
  access_pop : ∀ {i l k}, access i l = .pop k → target k = i

/-- The shared memory, the registers and the queues, whatever they are made of. -/
@[ext]
structure QueueState (ι κ : Type) (Q : κ → Type) (μ lo : Type) where
  mem : μ
  loc : ι → lo
  queues : ∀ k, Q k

namespace QueueProgram

variable {ι κ : Type} {V : κ → Type} {μ lo α : Type} [DecidableEq ι] [DecidableEq κ]

section Update

variable {Q : κ → Type}

/-- Party `i` goes on with other registers. -/
def goto (s : QueueState ι κ Q μ lo) (i : ι) (l : lo) : QueueState ι κ Q μ lo :=
  { s with loc := Function.update s.loc i l }

/-- A queue changes. -/
def setQueue (s : QueueState ι κ Q μ lo) (k : κ) (q : Q k) : QueueState ι κ Q μ lo :=
  { s with queues := Function.update s.queues k q }

end Update

/-- One step of party `i`, a push and a pop being one step. -/
def stepAtomic (P : QueueProgram ι κ V μ lo α) (cap : ℕ)
    (s : QueueState ι κ (fun k => List (V k)) μ lo) (i : ι) :
    Option (QueueState ι κ (fun k => List (V k)) μ lo) :=
  match P.access i (s.loc i) with
  | .none => (P.move i s.mem (s.loc i)).map fun r => { goto s i r.2 with mem := r.1 }
  | .push k v =>
      if (s.queues k).length < cap then
        some (goto (setQueue s k (s.queues k ++ [v])) i (P.afterPush k (s.loc i) (.ok ())))
      else some (goto s i (P.afterPush k (s.loc i) (.error v)))
  | .pop k =>
      match s.queues k with
      | [] => some (goto s i (P.afterPop k (s.loc i) none))
      | v :: q => some (goto (setQueue s k q) i (P.afterPop k (s.loc i) (some v)))

/-- One step of party `i`, over the queues `I`. -/
def stepImpl {cap : ℕ} (P : QueueProgram ι κ V μ lo α) (I : ∀ k, QueueImpl (V k) cap)
    (s : QueueState ι κ (fun k => (I k).State) μ lo) (i : ι) :
    Option (QueueState ι κ (fun k => (I k).State) μ lo) :=
  match P.access i (s.loc i) with
  | .none => (P.move i s.mem (s.loc i)).map fun r => { goto s i r.2 with mem := r.1 }
  | .push k v =>
      match (I k).producer (s.queues k) with
      | .idle => ((I k).push (s.queues k) v).map (setQueue s k)
      | .running _ => ((I k).stepProducer (s.queues k)).map (setQueue s k)
      | .returned r => ((I k).stepProducer (s.queues k)).map fun q =>
          goto (setQueue s k q) i (P.afterPush k (s.loc i) r)
  | .pop k =>
      match (I k).consumer (s.queues k) with
      | .idle => ((I k).pop (s.queues k)).map (setQueue s k)
      | .running _ => ((I k).stepConsumer (s.queues k)).map (setQueue s k)
      | .returned r => ((I k).stepConsumer (s.queues k)).map fun q =>
          goto (setQueue s k q) i (P.afterPop k (s.loc i) r)

/-- A step of the rest of the system, or of a party as `f` has it. -/
def withOther {Q : κ → Type} (P : QueueProgram ι κ V μ lo α)
    (f : QueueState ι κ Q μ lo → ι → Option (QueueState ι κ Q μ lo)) (s : QueueState ι κ Q μ lo) :
    ι ⊕ α → Option (QueueState ι κ Q μ lo)
  | .inl i => f s i
  | .inr a => (P.other s.mem a).map fun m => { s with mem := m }

/-- The program over atomic queues of `cap` places. -/
def atomic (P : QueueProgram ι κ V μ lo α) (cap : ℕ) :
    Machine (QueueState ι κ (fun k => List (V k)) μ lo) (ι ⊕ α) :=
  .ofFn { mem := P.mem, loc := P.loc, queues := fun _ => [] } (P.withOther (P.stepAtomic cap))

/-- The program over the queues `I`. -/
def onImpl {cap : ℕ} (P : QueueProgram ι κ V μ lo α) (I : ∀ k, QueueImpl (V k) cap) :
    Machine (QueueState ι κ (fun k => (I k).State) μ lo) (ι ⊕ α) :=
  .ofFn { mem := P.mem, loc := P.loc, queues := fun k => (I k).new } (P.withOther (P.stepImpl I))

/-! ## What is seen of the queues -/

section View

variable {cap : ℕ} {P : QueueProgram ι κ V μ lo α} {I : ∀ k, QueueImpl (V k) cap}
  {s t : QueueState ι κ (fun k => (I k).State) μ lo} {i j : ι}

/-- The registers of a party as they will be when it has picked up the answer that waits for it. -/
def settled (P : QueueProgram ι κ V μ lo α) (I : ∀ k, QueueImpl (V k) cap) (queues : ∀ k, (I k).State)
    (i : ι) (l : lo) : lo :=
  match P.access i l with
  | .none => l
  | .push k _ =>
      match (I k).producer (queues k) with
      | .returned r => P.afterPush k l r
      | _ => l
  | .pop k =>
      match (I k).consumer (queues k) with
      | .returned r => P.afterPop k l r
      | _ => l

/-- The state of the atomic system that a state stands for. -/
def view (P : QueueProgram ι κ V μ lo α) (I : ∀ k, QueueImpl (V k) cap)
    (s : QueueState ι κ (fun k => (I k).State) μ lo) : QueueState ι κ (fun k => List (V k)) μ lo where
  mem := s.mem
  loc i := settled P I s.queues i (s.loc i)
  queues k := (I k).contents (s.queues k)

/-- Every queue is in order, and a call that is under way is the one its caller wants. -/
structure Wired (P : QueueProgram ι κ V μ lo α) (I : ∀ k, QueueImpl (V k) cap)
    (s : QueueState ι κ (fun k => (I k).State) μ lo) : Prop where
  ok : ∀ k, (I k).Ok (s.queues k)
  producing : ∀ k, (I k).producer (s.queues k) = .idle ∨
    ∃ v, P.access (P.source k) (s.loc (P.source k)) = .push k v ∧
      ((I k).producer (s.queues k) = .running v ∨ ∃ a, (I k).producer (s.queues k) = .returned a)
  consuming : ∀ k, (I k).consumer (s.queues k) = .idle ∨
    P.access (P.target k) (s.loc (P.target k)) = .pop k

/-- No call of party `i` is under way. -/
structure Free (P : QueueProgram ι κ V μ lo α) (I : ∀ k, QueueImpl (V k) cap) (queues : ∀ k, (I k).State)
    (i : ι) : Prop where
  source : ∀ k, P.source k = i → (I k).producer (queues k) = .idle
  target : ∀ k, P.target k = i → (I k).consumer (queues k) = .idle

omit [DecidableEq ι] [DecidableEq κ] in
/-- A party with no call under way has nothing to pick up, wherever it is. -/
theorem Free.settled {queues : ∀ k, (I k).State} (h : Free P I queues i) (l : lo) :
    settled P I queues i l = l := by
  unfold QueueProgram.settled
  cases ha : P.access i l with
  | none => rfl
  | push k v => simp only [h.source k (P.access_push ha)]
  | pop k => simp only [h.target k (P.access_pop ha)]

omit [DecidableEq ι] [DecidableEq κ] in
theorem settled_congr {queues queues' : ∀ k, (I k).State} {l : lo}
    (hpush : ∀ k v, P.access i l = .push k v → (I k).producer (queues' k) = (I k).producer (queues k))
    (hpop : ∀ k, P.access i l = .pop k → (I k).consumer (queues' k) = (I k).consumer (queues k)) :
    settled P I queues' i l = settled P I queues i l := by
  unfold settled
  cases ha : P.access i l with
  | none => rfl
  | push k v => simp only [hpush k v ha]
  | pop k => simp only [hpop k ha]

omit [DecidableEq ι] in
/-- A step at the producing end is not seen by other parties. -/
theorem settled_of_ne_source {queues : ∀ k, (I k).State} {k : κ} {r : (I k).State} {l : lo}
    (hk : P.source k ≠ j) (hr : (I k).consumer r = (I k).consumer (queues k)) :
    settled P I (Function.update queues k r) j l = settled P I queues j l := by
  refine settled_congr (fun k' v ha => ?_) fun k' _ => ?_
  · have hne : k' ≠ k := by
      rintro rfl
      exact hk (P.access_push ha)
    rw [Function.update_of_ne hne]
  · by_cases hkk : k' = k
    · subst hkk
      rw [Function.update_self, hr]
    · rw [Function.update_of_ne hkk]

omit [DecidableEq ι] in
/-- A step at the consuming end is not seen by other parties. -/
theorem settled_of_ne_target {queues : ∀ k, (I k).State} {k : κ} {r : (I k).State} {l : lo}
    (hk : P.target k ≠ j) (hr : (I k).producer r = (I k).producer (queues k)) :
    settled P I (Function.update queues k r) j l = settled P I queues j l := by
  refine settled_congr (fun k' v _ => ?_) fun k' ha => ?_
  · by_cases hkk : k' = k
    · subst hkk
      rw [Function.update_self, hr]
    · rw [Function.update_of_ne hkk]
  · have hne : k' ≠ k := by
      rintro rfl
      exact hk (P.access_pop ha)
    rw [Function.update_of_ne hne]

/-- What is seen when party `i` moves and the others are not affected. -/
theorem view_eq {k : κ} {r : (I k).State} {l : lo}
    (hby : ∀ j ≠ i, settled P I (Function.update s.queues k r) j (s.loc j) =
      settled P I s.queues j (s.loc j)) :
    view P I (goto (setQueue s k r) i l) =
      goto (setQueue (view P I s) k ((I k).contents r)) i
        (settled P I (Function.update s.queues k r) i l) := by
  refine QueueState.ext rfl (funext fun j => ?_) (funext fun k' => ?_)
  · by_cases hj : j = i
    · subst hj
      simp [view, goto, setQueue]
    · simpa [view, goto, setQueue, Function.update_of_ne hj] using hby j hj
  · by_cases hk : k' = k
    · subst hk
      simp [view, goto, setQueue]
    · simp [view, goto, setQueue, Function.update_of_ne hk]

omit [DecidableEq κ] in
theorem goto_self {Q : κ → Type} (s : QueueState ι κ Q μ lo) (i : ι) : goto s i (s.loc i) = s := by
  simp [goto]

omit [DecidableEq ι] in
theorem setQueue_self {Q : κ → Type} (s : QueueState ι κ Q μ lo) (k : κ) :
    setQueue s k (s.queues k) = s := by
  simp [setQueue]

/-! ## Keeping the wiring -/

omit [DecidableEq ι] [DecidableEq κ] in
theorem Wired.free_of_none (h : Wired P I s) (ha : P.access i (s.loc i) = .none) : Free P I s.queues i where
  source k hk := by
    rcases h.producing k with hidle | ⟨v, hv, -⟩
    · exact hidle
    · rw [hk, ha] at hv
      cases hv
  target k hk := by
    rcases h.consuming k with hidle | hv
    · exact hidle
    · rw [hk, ha] at hv
      cases hv

omit [DecidableEq ι] in
/-- A party whose push is over has no call under way. -/
theorem Wired.free_of_push (h : Wired P I s) {k : κ} {v : V k} (ha : P.access i (s.loc i) = .push k v)
    {r : (I k).State} (hr : (I k).producer r = .idle)
    (hc : (I k).consumer r = (I k).consumer (s.queues k)) :
    Free P I (Function.update s.queues k r) i where
  source k' hk' := by
    by_cases hkk : k' = k
    · subst hkk
      rw [Function.update_self, hr]
    · rw [Function.update_of_ne hkk]
      rcases h.producing k' with hidle | ⟨v', hv, -⟩
      · exact hidle
      · rw [hk', ha] at hv
        cases hv
        exact absurd rfl hkk
  target k' hk' := by
    have hidle : (I k').consumer (s.queues k') = .idle := by
      rcases h.consuming k' with hidle | hv
      · exact hidle
      · rw [hk', ha] at hv
        cases hv
    by_cases hkk : k' = k
    · subst hkk
      rw [Function.update_self, hc, hidle]
    · rw [Function.update_of_ne hkk, hidle]

omit [DecidableEq ι] in
/-- A party whose pop is over has no call under way. -/
theorem Wired.free_of_pop (h : Wired P I s) {k : κ} (ha : P.access i (s.loc i) = .pop k)
    {r : (I k).State} (hr : (I k).consumer r = .idle)
    (hp : (I k).producer r = (I k).producer (s.queues k)) :
    Free P I (Function.update s.queues k r) i where
  source k' hk' := by
    have hidle : (I k').producer (s.queues k') = .idle := by
      rcases h.producing k' with hidle | ⟨v, hv, -⟩
      · exact hidle
      · rw [hk', ha] at hv
        cases hv
    by_cases hkk : k' = k
    · subst hkk
      rw [Function.update_self, hp, hidle]
    · rw [Function.update_of_ne hkk, hidle]
  target k' hk' := by
    by_cases hkk : k' = k
    · subst hkk
      rw [Function.update_self, hr]
    · rw [Function.update_of_ne hkk]
      rcases h.consuming k' with hidle | hv
      · exact hidle
      · rw [hk', ha] at hv
        cases hv
        exact absurd rfl hkk

omit [DecidableEq κ] in
theorem Wired.goto (h : Wired P I s) (hf : Free P I s.queues i) (m : μ) (l : lo) :
    Wired P I { QueueProgram.goto s i l with mem := m } where
  ok := h.ok
  producing k := by
    by_cases hk : P.source k = i
    · exact .inl (hf.source k hk)
    · simpa [QueueProgram.goto, Function.update_of_ne hk] using h.producing k
  consuming k := by
    by_cases hk : P.target k = i
    · exact .inl (hf.target k hk)
    · simpa [QueueProgram.goto, Function.update_of_ne hk] using h.consuming k

omit [DecidableEq ι] in
theorem Wired.push (h : Wired P I s) {k : κ} {v : V k} (ha : P.access i (s.loc i) = .push k v)
    {r : (I k).State} (hok : (I k).Ok r) (hc : (I k).consumer r = (I k).consumer (s.queues k))
    (hr : (I k).producer r = .idle ∨ (I k).producer r = .running v ∨
      ∃ a, (I k).producer r = .returned a) : Wired P I (setQueue s k r) where
  ok k' := by
    by_cases hkk : k' = k
    · subst hkk
      simpa [setQueue] using hok
    · simpa [setQueue, Function.update_of_ne hkk] using h.ok k'
  producing k' := by
    by_cases hkk : k' = k
    · subst hkk
      rcases hr with hr | hr
      · exact .inl (by simpa [setQueue] using hr)
      · exact .inr ⟨v, P.access_push ha ▸ ha, by simpa [setQueue] using hr⟩
    · simpa [setQueue, Function.update_of_ne hkk] using h.producing k'
  consuming k' := by
    by_cases hkk : k' = k
    · subst hkk
      simpa [setQueue, hc] using h.consuming k'
    · simpa [setQueue, Function.update_of_ne hkk] using h.consuming k'

omit [DecidableEq ι] in
theorem Wired.pop (h : Wired P I s) {k : κ} (ha : P.access i (s.loc i) = .pop k) {r : (I k).State}
    (hok : (I k).Ok r) (hp : (I k).producer r = (I k).producer (s.queues k)) :
    Wired P I (setQueue s k r) where
  ok k' := by
    by_cases hkk : k' = k
    · subst hkk
      simpa [setQueue] using hok
    · simpa [setQueue, Function.update_of_ne hkk] using h.ok k'
  producing k' := by
    by_cases hkk : k' = k
    · subst hkk
      simpa [setQueue, hp] using h.producing k'
    · simpa [setQueue, Function.update_of_ne hkk] using h.producing k'
  consuming k' := by
    by_cases hkk : k' = k
    · subst hkk
      exact .inr (P.access_pop ha ▸ ha)
    · simpa [setQueue, Function.update_of_ne hkk] using h.consuming k'

/-! ## One step over the queues -/

/-- How far party `i` is from the step in which its next call takes effect. -/
def delay (P : QueueProgram ι κ V μ lo α) (I : ∀ k, QueueImpl (V k) cap)
    (s : QueueState ι κ (fun k => (I k).State) μ lo) (i : ι) : ℕ ×ₗ ℕ :=
  match P.access i (s.loc i) with
  | .none => toLex (0, 0)
  | .push k _ =>
      match (I k).producer (s.queues k) with
      | .idle => toLex (1, 0)
      | .running _ => toLex (0, (I k).producerRank (s.queues k))
      | .returned _ => toLex (2, 0)
  | .pop k =>
      match (I k).consumer (s.queues k) with
      | .idle => toLex (1, 0)
      | .running _ => toLex (0, (I k).consumerRank (s.queues k))
      | .returned _ => toLex (2, 0)

omit [DecidableEq ι] [DecidableEq κ] in
theorem Free.delay_lt (h : Free P I s.queues i) : delay P I s i < toLex (2, 0) := by
  unfold delay
  cases ha : P.access i (s.loc i) with
  | none => simp [Prod.Lex.toLex_lt_toLex]
  | push k v => simp [h.source k (P.access_push ha), Prod.Lex.toLex_lt_toLex]
  | pop k => simp [h.target k (P.access_pop ha), Prod.Lex.toLex_lt_toLex]

/-- The step from `s` to `t` is not seen and brings the call of `i` on, or is a step of the atomic system. -/
def Seen (P : QueueProgram ι κ V μ lo α) (I : ∀ k, QueueImpl (V k) cap)
    (s t : QueueState ι κ (fun k => (I k).State) μ lo) (i : ι) : Prop :=
  (view P I t = view P I s ∧ delay P I t i < delay P I s i) ∨
    P.stepAtomic cap (view P I s) i = some (view P I t)

omit [DecidableEq κ] in
theorem Wired.step_none (h : Wired P I s) (ha : P.access i (s.loc i) = .none) {m : μ} {l : lo} :
    Wired P I { QueueProgram.goto s i l with mem := m } ∧
      view P I { QueueProgram.goto s i l with mem := m } =
        { QueueProgram.goto (view P I s) i l with mem := m } := by
  have hf := h.free_of_none ha
  refine ⟨h.goto hf m l, QueueState.ext rfl (funext fun j => ?_) rfl⟩
  by_cases hj : j = i
  · subst hj
    simpa [view, QueueProgram.goto] using hf.settled l
  · simp [view, QueueProgram.goto, Function.update_of_ne hj]

theorem Wired.step_push (h : Wired P I s) {k : κ} {v : V k} (ha : P.access i (s.loc i) = .push k v) :
    ∃ t, P.stepImpl I s i = some t ∧ Wired P I t ∧ Seen P I s t i := by
  have hsrc := P.access_push ha
  -- what is seen of a state in which only the queue has changed
  have hview : ∀ {r}, (I k).consumer r = (I k).consumer (s.queues k) → view P I (setQueue s k r) =
      QueueProgram.goto (setQueue (view P I s) k ((I k).contents r)) i
        (settled P I (Function.update s.queues k r) i (s.loc i)) := fun hr => by
    rw [← view_eq fun j hj => settled_of_ne_source (hsrc ▸ hj.symm) hr]
    exact congrArg _ (goto_self (setQueue s k _) i).symm
  have hloc : (view P I s).loc i = settled P I s.queues i (s.loc i) := rfl
  have hqueue : (view P I s).queues k = (I k).contents (s.queues k) := rfl
  rcases h.producing k with hidle | ⟨v', hv', hcall⟩
  · obtain ⟨r, hpush, hok, hp, hc, hq⟩ := (I k).push_spec (v := v) (h.ok k) hidle
    refine ⟨setQueue s k r, by simp [stepImpl, ha, hidle, hpush],
      h.push ha hok hc (.inr (.inl hp)), .inl ⟨?_, ?_⟩⟩
    · have he : settled P I (Function.update s.queues k r) i (s.loc i) = (view P I s).loc i := by
        simp [settled, hloc, ha, hp, hidle]
      rw [hview hc, he, hq, ← hqueue, setQueue_self, goto_self]
    · simp [delay, setQueue, ha, hp, hidle, Prod.Lex.toLex_lt_toLex]
  · rw [hsrc, ha] at hv'
    cases hv'
    obtain ⟨r, hstep, hok, hps, hc, hrank⟩ := (I k).producer_spec (h.ok k)
      (by rcases hcall with hcall | ⟨a, hcall⟩ <;> simp [hcall])
    generalize hq : (I k).contents (s.queues k) = q, hq' : (I k).contents r = q',
      hp' : (I k).producer r = p' at hps
    rcases hcall with hcall | ⟨a, hcall⟩
    · have hrun : P.stepImpl I s i = some (setQueue s k r) := by simp [stepImpl, ha, hcall, hstep]
      have hseen : (view P I s).loc i = s.loc i := by simp [settled, hloc, ha, hcall]
      rw [hcall] at hps
      cases hps with
      | silent =>
          refine ⟨_, hrun, h.push ha hok hc (.inr (.inl hp')), .inl ⟨?_, ?_⟩⟩
          · have he : settled P I (Function.update s.queues k r) i (s.loc i) = (view P I s).loc i := by
              simp [settled, hseen, ha, hp']
            rw [hview hc, he, hq', ← hq, ← hqueue, setQueue_self, goto_self]
          · simpa [delay, setQueue, ha, hp', hcall, Prod.Lex.toLex_lt_toLex] using hrank v hp'
      | accept hroom =>
          refine ⟨_, hrun, h.push ha hok hc (.inr (.inr ⟨_, hp'⟩)), .inr ?_⟩
          have he : settled P I (Function.update s.queues k r) i (s.loc i) =
              P.afterPush k (s.loc i) (.ok ()) := by simp [settled, ha, hp']
          rw [hview hc, he, hq']
          simp [stepAtomic, hseen, ha, hqueue, hq, hroom]
      | refuse hfull =>
          refine ⟨_, hrun, h.push ha hok hc (.inr (.inr ⟨_, hp'⟩)), .inr ?_⟩
          have he : settled P I (Function.update s.queues k r) i (s.loc i) =
              P.afterPush k (s.loc i) (.error v) := by simp [settled, ha, hp']
          rw [hview hc, he, hq', ← hq, ← hqueue, setQueue_self]
          simp [stepAtomic, hseen, ha, hqueue, hq, Nat.not_lt.mpr hfull]
    · rw [hcall] at hps
      cases hps with
      | finish =>
          have hf := h.free_of_push ha hp' hc
          refine ⟨QueueProgram.goto (setQueue s k r) i (P.afterPush k (s.loc i) a),
            by simp [stepImpl, ha, hcall, hstep],
            (h.push ha hok hc (.inl hp')).goto hf s.mem _, .inl ⟨?_, ?_⟩⟩
          · have he : P.afterPush k (s.loc i) a = (view P I s).loc i := by simp [settled, hloc, ha, hcall]
            rw [view_eq fun j hj => settled_of_ne_source (hsrc ▸ hj.symm) hc, hf.settled, he, hq', ← hq,
              ← hqueue, setQueue_self, goto_self]
          · have hs : delay P I s i = toLex (2, 0) := by simp [delay, ha, hcall]
            rw [hs]
            exact Free.delay_lt hf

theorem Wired.step_pop (h : Wired P I s) {k : κ} (ha : P.access i (s.loc i) = .pop k) :
    ∃ t, P.stepImpl I s i = some t ∧ Wired P I t ∧ Seen P I s t i := by
  have htgt := P.access_pop ha
  have hview : ∀ {r}, (I k).producer r = (I k).producer (s.queues k) → view P I (setQueue s k r) =
      QueueProgram.goto (setQueue (view P I s) k ((I k).contents r)) i
        (settled P I (Function.update s.queues k r) i (s.loc i)) := fun hr => by
    rw [← view_eq fun j hj => settled_of_ne_target (htgt ▸ hj.symm) hr]
    exact congrArg _ (goto_self (setQueue s k _) i).symm
  have hloc : (view P I s).loc i = settled P I s.queues i (s.loc i) := rfl
  have hqueue : (view P I s).queues k = (I k).contents (s.queues k) := rfl
  -- the call has not started, or it is under way in the queue
  by_cases hidle : (I k).consumer (s.queues k) = .idle
  · obtain ⟨r, hpop, hok, hc, hp, hq⟩ := (I k).pop_spec (h.ok k) hidle
    refine ⟨setQueue s k r, by simp [stepImpl, ha, hidle, hpop], h.pop ha hok hp, .inl ⟨?_, ?_⟩⟩
    · have he : settled P I (Function.update s.queues k r) i (s.loc i) = (view P I s).loc i := by
        simp [settled, hloc, ha, hc, hidle]
      rw [hview hp, he, hq, ← hqueue, setQueue_self, goto_self]
    · simp [delay, setQueue, ha, hc, hidle, Prod.Lex.toLex_lt_toLex]
  · obtain ⟨r, hstep, hok, hcs, hp, hrank⟩ := (I k).consumer_spec (h.ok k) hidle
    generalize hq : (I k).contents (s.queues k) = q, hq' : (I k).contents r = q',
      hc : (I k).consumer (s.queues k) = c, hc' : (I k).consumer r = c' at hcs
    have hrun : ∀ {u}, c = .running u → P.stepImpl I s i = some (setQueue s k r) := fun he => by
      simp [stepImpl, ha, hc, he, hstep]
    have hseen : ∀ {u}, c = .running u → (view P I s).loc i = s.loc i := fun he => by
      simp [settled, hloc, ha, hc, he]
    cases hcs with
    | silent =>
        refine ⟨_, hrun rfl, h.pop ha hok hp, .inl ⟨?_, ?_⟩⟩
        · have he : settled P I (Function.update s.queues k r) i (s.loc i) = (view P I s).loc i := by
            simp [settled, hseen rfl, ha, hc']
          rw [hview hp, he, hq', ← hq, ← hqueue, setQueue_self, goto_self]
        · simpa [delay, setQueue, ha, hc, hc', Prod.Lex.toLex_lt_toLex] using hrank hc'
    -- the step that takes effect is the atomic pop; all others are not seen
    | @take _ v =>
        refine ⟨_, hrun rfl, h.pop ha hok hp, .inr ?_⟩
        have he : settled P I (Function.update s.queues k r) i (s.loc i) =
            P.afterPop k (s.loc i) (some v) := by simp [settled, ha, hc']
        rw [hview hp, he, hq']
        simp [stepAtomic, hseen rfl, ha, hqueue, hq]
    | none =>
        refine ⟨_, hrun rfl, h.pop ha hok hp, .inr ?_⟩
        have he : settled P I (Function.update s.queues k r) i (s.loc i) =
            P.afterPop k (s.loc i) none := by simp [settled, ha, hc']
        rw [hview hp, he, hq', ← hq, ← hqueue, setQueue_self]
        simp [stepAtomic, hseen rfl, ha, hqueue, hq]
    | @finish _ a =>
        have hf := h.free_of_pop ha hc' hp
        refine ⟨QueueProgram.goto (setQueue s k r) i (P.afterPop k (s.loc i) a),
          by simp [stepImpl, ha, hc, hstep], (h.pop ha hok hp).goto hf s.mem _, .inl ⟨?_, ?_⟩⟩
        · have he : P.afterPop k (s.loc i) a = (view P I s).loc i := by simp [settled, hloc, ha, hc]
          rw [view_eq fun j hj => settled_of_ne_target (htgt ▸ hj.symm) hp, hf.settled, he, hq', ← hq,
            ← hqueue, setQueue_self, goto_self]
        · have hs : delay P I s i = toLex (2, 0) := by simp [delay, ha, hc]
          rw [hs]
          exact Free.delay_lt hf

/-! ## Runs over the queues -/

omit [DecidableEq ι] [DecidableEq κ] in
theorem wired_new : Wired P I { mem := P.mem, loc := P.loc, queues := fun k => (I k).new } where
  ok k := (I k).ok_new
  producing k := .inl (I k).producer_new
  consuming k := .inl (I k).consumer_new

omit [DecidableEq ι] [DecidableEq κ] in
theorem view_new : view P I { mem := P.mem, loc := P.loc, queues := fun k => (I k).new } =
    { mem := P.mem, loc := P.loc, queues := fun _ => [] } := by
  refine QueueState.ext rfl (funext fun i => ?_) (funext fun k => (I k).contents_new)
  exact Free.settled ⟨fun k _ => (I k).producer_new, fun k _ => (I k).consumer_new⟩ _

/-- A step of a party keeps the wiring and is seen as `Seen` says. -/
theorem Wired.step (h : Wired P I s) (hst : P.stepImpl I s i = some t) :
    Wired P I t ∧ Seen P I s t i := by
  cases ha : P.access i (s.loc i) with
  | none =>
      simp only [stepImpl, ha, Option.map_eq_some_iff] at hst
      obtain ⟨⟨m, l⟩, hmove, rfl⟩ := hst
      obtain ⟨hw, hv⟩ := h.step_none ha (m := m) (l := l)
      have hloc : (view P I s).loc i = s.loc i := (h.free_of_none ha).settled _
      refine ⟨hw, .inr ?_⟩
      rw [hv]
      simp only [stepAtomic, hloc, ha, show (view P I s).mem = s.mem from rfl, hmove, Option.map_some]
  | push k v =>
      obtain ⟨t', ht', hw, hseen⟩ := h.step_push ha
      obtain rfl := Option.some.inj (hst.symm.trans ht')
      exact ⟨hw, hseen⟩
  | pop k =>
      obtain ⟨t', ht', hw, hseen⟩ := h.step_pop ha
      obtain rfl := Option.some.inj (hst.symm.trans ht')
      exact ⟨hw, hseen⟩

omit [DecidableEq ι] [DecidableEq κ] in
theorem Wired.other (h : Wired P I s) (m : μ) : Wired P I { s with mem := m } :=
  ⟨h.ok, h.producing, h.consuming⟩

theorem Wired.next (h : Wired P I s) {l : ι ⊕ α} (hst : (P.onImpl I).step s l t) :
    Wired P I t ∧ (view P I t = view P I s ∨ (P.atomic cap).step (view P I s) l (view P I t)) := by
  cases l with
  | inl i =>
      obtain ⟨hw, hseen⟩ := h.step hst
      exact ⟨hw, hseen.imp_left And.left⟩
  | inr a =>
      obtain ⟨m, hm, rfl⟩ := Option.map_eq_some_iff.mp hst
      refine ⟨h.other m, .inr ?_⟩
      show (P.other s.mem a).map _ = _
      rw [hm]
      rfl

/-- **What is reached over the queues is reached over atomic queues.**  Both systems may be restricted, the
real one to steps that meet the condition on the atomic one. -/
theorem reachable_view {R : QueueState ι κ (fun k => List (V k)) μ lo → ι ⊕ α → Prop}
    {R' : QueueState ι κ (fun k => (I k).State) μ lo → ι ⊕ α → Prop}
    (hR : ∀ s l, R' s l → R (view P I s) l) (hs : ((P.onImpl I).restrict R').Reachable s) :
    Wired P I s ∧ ((P.atomic cap).restrict R).Reachable (view P I s) := by
  refine hs.invariant
    (I := fun s => Wired P I s ∧ ((P.atomic cap).restrict R).Reachable (view P I s)) ?_ ?_
  · rintro s rfl
    exact ⟨wired_new, .start view_new⟩
  · rintro s l t - ⟨hw, hr⟩ ⟨hR', hst⟩
    obtain ⟨hw', he | hst'⟩ := hw.next hst
    · exact ⟨hw', he ▸ hr⟩
    · exact ⟨hw', hr.next ⟨hR s l hR', hst'⟩⟩

/-- **What the atomic system can do next, the real one catches up with.**  The induction is on how far the
party is from the step in which its call takes effect. -/
theorem Wired.catchUp (h : Wired P I s) {A : QueueState ι κ (fun k => List (V k)) μ lo}
    (hA : P.stepAtomic cap (view P I s) i = some A) :
    ∃ t, (P.onImpl I).StaysIn (fun _ => True) s t ∧ Wired P I t ∧ view P I t = A := by
  generalize hd : delay P I s i = d
  induction d using WellFoundedLT.induction generalizing s with
  | ind d ih =>
      have hstep : ∃ t, P.stepImpl I s i = some t := by
        cases ha : P.access i (s.loc i) with
        | none =>
            have hloc : (view P I s).loc i = s.loc i := (h.free_of_none ha).settled _
            simp only [stepAtomic, hloc, ha, Option.map_eq_some_iff] at hA
            obtain ⟨r, hr, -⟩ := hA
            exact ⟨_, by simp only [stepImpl, ha]; rw [show P.move i s.mem _ = _ from hr]; rfl⟩
        | push k v => exact (h.step_push ha).imp fun _ ht => ht.1
        | pop k => exact (h.step_pop ha).imp fun _ ht => ht.1
      obtain ⟨t, ht⟩ := hstep
      have hone : (P.onImpl I).StaysIn (fun _ => True) s t := .next (l := .inl i) (.refl trivial) ht trivial
      obtain ⟨hw, ⟨hv, hlt⟩ | hat⟩ := h.step ht
      · obtain ⟨t', hpath, hw', hA'⟩ := ih _ (hd ▸ hlt) hw (hv ▸ hA) rfl
        exact ⟨t', hone.trans hpath, hw', hA'⟩
      · exact ⟨t, hone, hw, Option.some.inj (hat.symm.trans hA)⟩

/-- Any run of the atomic system from what is seen can be followed. -/
theorem Wired.follow (h : Wired P I s) {A : QueueState ι κ (fun k => List (V k)) μ lo}
    (hA : (P.atomic cap).StaysIn (fun _ => True) (view P I s) A) :
    ∃ t, (P.onImpl I).StaysIn (fun _ => True) s t ∧ Wired P I t ∧ view P I t = A := by
  induction hA with
  | refl _ => exact ⟨s, .refl trivial, h, rfl⟩
  | @next B C l _ hst _ ih =>
      obtain ⟨t, hpath, hw, rfl⟩ := ih
      cases l with
      | inl i =>
          obtain ⟨t', hpath', hw', hv⟩ := hw.catchUp (show P.stepAtomic cap _ i = some C from hst)
          exact ⟨t', hpath.trans hpath', hw', hv⟩
      | inr a =>
          obtain ⟨m, hm, rfl⟩ := Option.map_eq_some_iff.mp
            (show (P.other t.mem a).map _ = some C from hst)
          refine ⟨{ t with mem := m }, hpath.next (l := .inr a) ?_ trivial, hw.other m, rfl⟩
          show (P.other t.mem a).map _ = _
          rw [hm]
          rfl

end View

end QueueProgram

end ZeroKv
