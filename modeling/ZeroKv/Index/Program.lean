/-
# ZeroKv.Index.Program — the sharded index in the hands of many threads.

The models of `skiplist.rs` and `ebr.rs` each stop where the other begins: a skiplist hands its garbage to a
list that nobody frees, and a domain frees records that mean nothing to it.  Here they run together, as
`shard.rs` has them.  A thread pins the domain, calls the skiplist of the key's shard while it holds the
guard, retires into the domain what the call unlinks, and drops the guard.  Any other thread may take a step
between any two accesses of this, to the same shard, to another one or to the domain.

A slice that `get` returned is kept with the node and the value cell it was read from, until the guard it
borrows from is dropped.  `hist` is the history of the calls over all shards; the call `j` of shard `i` has
the number `Nat.pair i j` in it.
-/
import Mathlib.Data.Nat.Pairing
import ZeroKv.Ebr.Custody
import ZeroKv.Mesh.Route
import ZeroKv.SkipList.Lifetimes

namespace ZeroKv.Index

open SkipList (Mem Thread Choice Op Ret Garbage Regs Move)

/-- What a record of the domain holds: the shard, and the node or the cell to free there. -/
abbrev Scrap (n : ℕ) := Fin n × Garbage

/-- A slice returned by `get`: the shard, the node it was found at, the cell it points into. -/
structure Slice (n : ℕ) where
  shard : Fin n
  node : ℕ
  cell : ℕ
deriving DecidableEq

/-- The domain of the process and the shards of the index. -/
structure Shared (n : ℕ) where
  dom : Ebr.Domain (Scrap n)
  shards : Fin n → Mem
  hist : List (Event Op Ret)

/-- A thread: its registers in the domain, the call it is in with the shard it works on, and the slices
that its guard keeps alive. -/
structure Local (n : ℕ) where
  ebr : Ebr.Local (Scrap n)
  shard : Fin n
  call : Thread
  slices : List (Slice n)

/-- What a thread may do next: start a call of the domain or of the index, or go on with the one it is in.
The flag of `run` is the one of `Ebr.Action.run`. -/
inductive Action
  | pin
  | unpin
  | collect
  | run (strong : Bool)
  | call (op : Op) (topLevel : ℕ)
  | exec

/-- What `get` borrows at this point. -/
def borrows {n : ℕ} (i : Fin n) (m : Mem) : SkipList.Pc → List (Slice n)
  | .getVal curr => ((m.nodes.valueOf curr).map fun c => ⟨i, curr, c⟩).toList
  | _ => []

/-- What the call `id` answers at this point. -/
def answers (id : ℕ) : SkipList.Pc → List (Event Op Ret)
  | .ret v => [.res id v]
  | _ => []

section

variable {n : ℕ}

/-- An access of the domain. -/
def onDomain (m : Shared n) (l : Local n) (a : Ebr.Action (Scrap n)) :
    Option (Shared n × Local n) := do
  let (dom, ebr) ← Ebr.step m.dom l.ebr a
  some ({ m with dom := dom }, { l with ebr := ebr })

/-- The call `r` goes on at `pc`.  What is retired goes to the domain, whose `retire` begins. -/
def onShard (maxLevel : ℕ) (m : Shared n) (l : Local n) (r : Regs) (pc : SkipList.Pc) :
    Option (Shared n × Local n) := do
  let (mem, call) ← SkipList.exec maxLevel (m.shards l.shard) r pc
  some
    ({ m with
        shards := Function.update m.shards l.shard mem
        hist := m.hist ++ answers (Nat.pair l.shard r.id) pc },
      { l with
        ebr := { l.ebr with pc := pc.retires.elim .idle fun g => .retireLoad (l.shard, g) }
        call := call
        slices := l.slices ++ borrows l.shard (m.shards l.shard) pc })

variable [NeZero n]

/-- Everything a thread can do.  A call of the index is made between two calls of the domain, under a
guard; the guard is dropped after the call, and what borrows from it with it. -/
def step (maxLevel : ℕ) (m : Shared n) (l : Local n) : Action → Option (Shared n × Local n)
  | .pin =>
      match l.call with
      | .idle => onDomain m l .pin
      | .busy _ _ => none
  | .unpin =>
      match l.call with
      | .idle => (onDomain m l .unpin).map fun x => (x.1, { x.2 with slices := [] })
      | .busy _ _ => none
  | .collect =>
      match l.call with
      | .idle => onDomain m l .collect
      | .busy _ _ => none
  | .run strong => onDomain m l (.run strong)
  | .call op topLevel =>
      match l.ebr.pc with
      | .idle =>
          if 0 < l.ebr.guards then do
            let i := Mesh.owner n op.key
            let (mem, call) ← SkipList.step maxLevel (m.shards i) l.call (.call op topLevel)
            some
              ({ m with
                  shards := Function.update m.shards i mem
                  hist := m.hist ++ [.inv (Nat.pair i (m.shards i).calls) op] },
                { l with shard := i, call := call })
          else none
      | _ => none
  | .exec =>
      match l.ebr.pc, l.call with
      | .idle, .busy r pc => onShard maxLevel m l r pc
      | _, _ => none

/-- The threads that share the index. -/
def threads (n : ℕ) [NeZero n] (maxLevel : ℕ) : Threads (Shared n) (Local n) Action where
  mem := { dom := .new _, shards := fun _ => .withMaxLevel, hist := [] }
  loc := { ebr := .new _, shard := 0, call := .idle, slices := [] }
  step := step maxLevel

/-! ## What a step can do -/

/-- The steps of a thread, one constructor for each kind. -/
inductive StepTo (maxLevel : ℕ) (m : Shared n) (l : Local n) : Action → Shared n → Local n → Prop
  | start {a b d e} (ha : a = .pin ∧ b = .pin ∨ a = .collect ∧ b = .collect) (hcall : l.call = .idle)
      (h : Ebr.step m.dom l.ebr b = some (d, e)) :
      StepTo maxLevel m l a { m with dom := d } { l with ebr := e }
  | unpin {d e} (hcall : l.call = .idle) (h : Ebr.step m.dom l.ebr .unpin = some (d, e)) :
      StepTo maxLevel m l .unpin { m with dom := d } { l with ebr := e, slices := [] }
  | run {strong d e} (h : Ebr.step m.dom l.ebr (.run strong) = some (d, e)) :
      StepTo maxLevel m l (.run strong) { m with dom := d } { l with ebr := e }
  | call {op topLevel} (hebr : l.ebr.pc = .idle) (hguard : 0 < l.ebr.guards) (hcall : l.call = .idle)
      (htop : topLevel ≤ maxLevel) :
      StepTo maxLevel m l (.call op topLevel)
        { m with
          shards := Function.update m.shards (Mesh.owner n op.key)
            ((m.shards (Mesh.owner n op.key)).invoke op)
          hist := m.hist ++ [.inv (Nat.pair (Mesh.owner n op.key)
            (m.shards (Mesh.owner n op.key)).calls) op] }
        { l with
          shard := Mesh.owner n op.key
          call := .busy (.start (m.shards (Mesh.owner n op.key)).calls op topLevel)
            (.start maxLevel op) }
  | exec {r pc mem th} (hebr : l.ebr.pc = .idle) (hcall : l.call = .busy r pc)
      (h : Move maxLevel (m.shards l.shard) r pc mem th) :
      StepTo maxLevel m l .exec
        { m with
          shards := Function.update m.shards l.shard mem
          hist := m.hist ++ answers (Nat.pair l.shard r.id) pc }
        { l with
          ebr := { l.ebr with pc := pc.retires.elim .idle fun g => .retireLoad (l.shard, g) }
          call := th
          slices := l.slices ++ borrows l.shard (m.shards l.shard) pc }

variable {maxLevel : ℕ} {m m' : Shared n} {l l' : Local n} {a : Action}

omit [NeZero n] in
theorem onDomain_eq_some {b : Ebr.Action (Scrap n)} {x : Shared n × Local n}
    (h : onDomain m l b = some x) :
    ∃ d e, Ebr.step m.dom l.ebr b = some (d, e) ∧ x = ({ m with dom := d }, { l with ebr := e }) := by
  obtain ⟨⟨d, e⟩, hde, hx⟩ := Option.bind_eq_some_iff.mp h
  cases hx
  exact ⟨d, e, hde, rfl⟩

/-- Every step is of one of the kinds. -/
theorem stepTo_of_step (h : step maxLevel m l a = some (m', l')) : StepTo maxLevel m l a m' l' := by
  cases a with
  | pin | collect =>
      rw [step] at h
      split at h
      · rename_i hcall
        obtain ⟨d, e, hde, hx⟩ := onDomain_eq_some h
        cases hx
        exact .start (by simp) hcall hde
      · cases h
  | unpin =>
      rw [step] at h
      split at h
      · rename_i hcall
        obtain ⟨x, hx, he⟩ := Option.map_eq_some_iff.mp h
        obtain ⟨d, e, hde, rfl⟩ := onDomain_eq_some hx
        cases he
        exact .unpin hcall hde
      · cases h
  | run strong =>
      obtain ⟨d, e, hde, hx⟩ := onDomain_eq_some h
      cases hx
      exact .run hde
  | call op topLevel =>
      rw [step] at h
      split at h
      · rename_i hebr
        obtain ⟨hguard, h⟩ := Option.ite_none_right_eq_some.mp h
        obtain ⟨⟨mem, th⟩, hst, he⟩ := Option.bind_eq_some_iff.mp h
        -- a call is started, not continued
        rcases SkipList.step_cases hst with ⟨op', top', hc, htop, hcall, rfl, rfl⟩ | ⟨r, pc, hc, -⟩
        · cases hc
          cases he
          exact .call hebr hguard hcall htop
        · cases hc
      · cases h
  | exec =>
      rw [step] at h
      split at h
      · rename_i r pc hebr hcall
        obtain ⟨⟨mem, th⟩, hst, he⟩ := Option.bind_eq_some_iff.mp h
        cases he
        exact .exec hebr hcall (SkipList.move_of_exec hst)
      · cases h

theorem step_of_call {op : Op} {topLevel : ℕ} (hebr : l.ebr.pc = .idle) (hguard : 0 < l.ebr.guards)
    (hcall : l.call = .idle) (htop : topLevel ≤ maxLevel) :
    step maxLevel m l (.call op topLevel) = some
      ({ m with
          shards := Function.update m.shards (Mesh.owner n op.key)
            ((m.shards (Mesh.owner n op.key)).invoke op)
          hist := m.hist ++ [.inv (Nat.pair (Mesh.owner n op.key)
            (m.shards (Mesh.owner n op.key)).calls) op] },
        { l with
          shard := Mesh.owner n op.key
          call := .busy (.start (m.shards (Mesh.owner n op.key)).calls op topLevel)
            (.start maxLevel op) }) := by
  simp [step, hebr, hguard, hcall, htop, SkipList.step]

/-- Every move of a call is a step. -/
theorem step_of_move {r : Regs} {pc : SkipList.Pc} {mem : Mem} {th : Thread} (hebr : l.ebr.pc = .idle)
    (hcall : l.call = .busy r pc) (h : Move maxLevel (m.shards l.shard) r pc mem th) :
    step maxLevel m l .exec = some
      ({ m with
          shards := Function.update m.shards l.shard mem
          hist := m.hist ++ answers (Nat.pair l.shard r.id) pc },
        { l with
          ebr := { l.ebr with pc := pc.retires.elim .idle fun g => .retireLoad (l.shard, g) }
          call := th
          slices := l.slices ++ borrows l.shard (m.shards l.shard) pc }) := by
  simp only [step, hebr, hcall, onShard, h.exec]
  rfl

end

/-! ## The domain and the shards, each by itself -/

/-- The steps under a condition on the calls of the shards. -/
def meets {n : ℕ} (K : Mem → Thread → Choice → Bool) (m : Shared n) (l : Local n) : Action → Bool
  | .exec => K (m.shards l.shard) l.call .run
  | _ => true

/-- The steps that the grace period is about, as `Ebr.inScope` has them. -/
def inScope {n : ℕ} (m : Shared n) (l : Local n) : Action → Bool
  | .pin => m.dom.epoch < Ebr.unpinned && l.ebr.guards == 0
  | _ => m.dom.epoch < Ebr.unpinned

/-- The call of a thread as a shard sees it: a thread that works on another shard is between calls. -/
def Local.callOn {n : ℕ} (l : Local n) (i : Fin n) : Thread := if l.shard = i then l.call else .idle

section

variable {n : ℕ} [NeZero n] {maxLevel : ℕ} {m m' : Shared n} {l l' : Local n} {a : Action}

omit [NeZero n] in
theorem Local.callOn_of_idle (h : l.call = .idle) (i : Fin n) : l.callOn i = .idle := by
  rw [callOn, h, ite_self]

omit [NeZero n] in
theorem Local.callOn_self : l.callOn l.shard = l.call := if_pos rfl

/-- A step as a shard sees it: a step of one thread of the skiplist, or nothing. -/
theorem StepTo.callOn (h : StepTo maxLevel m l a m' l') (i : Fin n) :
    (m'.shards i = m.shards i ∧ l'.callOn i = l.callOn i) ∨
      ∃ c, (∀ K, (∀ m op top, K m .idle (.call op top) = true) → meets K m l a = true →
          K (m.shards i) (l.callOn i) c = true) ∧
        SkipList.step maxLevel (m.shards i) (l.callOn i) c = some (m'.shards i, l'.callOn i) := by
  cases h with
  | start _ _ _ | unpin _ _ | run _ => exact .inl ⟨rfl, rfl⟩
  | @call op topLevel hebr hguard hcall htop =>
      by_cases hi : Mesh.owner n op.key = i
      · subst hi
        refine .inr ⟨.call op topLevel, fun K hK _ => ?_, ?_⟩
        · rw [Local.callOn_of_idle hcall]
          exact hK _ _ _
        · rw [Local.callOn_of_idle hcall]
          simp [SkipList.step, htop, Local.callOn]
      · refine .inl ⟨Function.update_of_ne (Ne.symm hi) .., ?_⟩
        rw [Local.callOn_of_idle hcall]
        exact if_neg hi
  | @exec r pc mem th hebr hcall hmv =>
      by_cases hi : l.shard = i
      · subst hi
        refine .inr ⟨.run, fun K _ hK => ?_, ?_⟩
        · rw [Local.callOn_self]
          exact hK
        · rw [Local.callOn_self, hcall]
          simpa [Local.callOn, SkipList.step] using hmv.exec
      · refine .inl ⟨Function.update_of_ne (Ne.symm hi) .., ?_⟩
        rw [Local.callOn, Local.callOn, if_neg hi, if_neg hi]

/-- A step as the domain sees it. -/
theorem StepTo.onDomain (h : StepTo maxLevel m l a m' l') :
    (m'.dom = m.dom ∧ l'.ebr = l.ebr) ∨
      ∃ b, (inScope m l a = true → Ebr.inScope m.dom l.ebr b = true) ∧
        Ebr.step m.dom l.ebr b = some (m'.dom, l'.ebr) := by
  cases h with
  | start ha _ hst =>
      refine .inr ⟨_, ?_, hst⟩
      rcases ha with ⟨rfl, rfl⟩ | ⟨rfl, rfl⟩ <;> exact id
  | unpin _ hst => exact .inr ⟨_, id, hst⟩
  | run hst => exact .inr ⟨_, id, hst⟩
  | call => exact .inl ⟨rfl, rfl⟩
  | @exec r pc mem th hebr _ _ =>
      cases hg : pc.retires with
      | none => exact .inl ⟨rfl, by simp [← hebr]⟩
      | some g => exact .inr ⟨.retire (l.shard, g), id, by simp [Ebr.step, hebr]⟩

/-- One shard of the index is a skiplist. -/
def onList (n : ℕ) [NeZero n] (maxLevel : ℕ) (K : Mem → Thread → Choice → Bool)
    (hK : ∀ m op top, K m .idle (.call op top) = true) (R : Shared n → Local n → Action → Bool)
    (hR : ∀ m l a, R m l a = true → meets K m l a = true) (i : Fin n) :
    Threads.Projection ((threads n maxLevel).restrict R) ((SkipList.threads maxLevel).restrict K) where
  mem m := m.shards i
  loc l := l.callOn i
  init_mem := rfl
  init_loc := ite_self _
  step hst := by
    obtain ⟨hr, hst⟩ := Threads.restrict_step.mp hst
    rcases (stepTo_of_step hst).callOn i with hsame | ⟨c, hc, hstep⟩
    · exact .inl hsame
    · exact .inr ⟨c, Threads.restrict_step.mpr ⟨hc K hK (hR _ _ _ hr), hstep⟩⟩

/-- The domain of the index is a domain. -/
def onEbr (n : ℕ) [NeZero n] (maxLevel : ℕ) (R : Shared n → Local n → Action → Bool)
    (hR : ∀ m l a, R m l a = true → inScope m l a = true) :
    Threads.Projection ((threads n maxLevel).restrict R) (Ebr.disciplined (Scrap n)) where
  mem m := m.dom
  loc l := l.ebr
  init_mem := rfl
  init_loc := rfl
  step hst := by
    obtain ⟨hr, hst⟩ := Threads.restrict_step.mp hst
    rcases (stepTo_of_step hst).onDomain with hsame | ⟨b, hb, hstep⟩
    · exact .inl hsame
    · exact .inr ⟨b, Threads.restrict_step.mpr ⟨hb (hR _ _ _ hr), hstep⟩⟩

end

end ZeroKv.Index
