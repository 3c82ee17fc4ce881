/-
# ZeroKv.Index.Reuse — the memory of freed nodes may be used again.

The models of the index give every node a number that no other node ever gets.  The process gives it an
address, and gives the same address to a later node once the first one is freed.  Then a compare-exchange may
find the word it expects in a link that stands for another node.  It does not: what a call expects to find is a
node that its guard keeps from being freed, and what it finds in an unmarked link of a level is a node on that
level; so both are in memory, at different addresses unless they are the same.

There is one exception.  The loop of `remove` that marks the upper levels may hold an address that was
read out of the tower of a half-linked node, and the node it belonged to may be gone.  The compare-exchange
then marks whatever the link stands for now, which is what the loop is there to do: it acts as if it had read
the link again.

So the index over addresses does nothing that the index over numbers cannot do.
-/
import ZeroKv.Ebr.Relabel
import ZeroKv.Index.Linear
import ZeroKv.Index.Teardown
import ZeroKv.SkipList.Tagged

namespace ZeroKv.Index

open SkipList (Mem Thread Choice Op Ret Garbage Regs Move keepsLevels keepsMarks maxHeight mapSpec IsAddress)
open SkipList.Tagged (Block Own Ram Shadow objOf)

/-! ## The index over addresses -/

/-- What the allocator answers: the address of each node that a shard allocates, the sentinels first.  The same
address may come up many times. -/
structure Addresses (n : ℕ) where
  place : Fin n → ℕ → ℕ
  valid : ∀ i p, IsAddress (place i p)
  /-- Nothing is freed before the index is built. -/
  sentinels : ∀ i j p q, p < 2 → q < 2 → place i p = place j q → i = j ∧ p = q

/-- What a record holds: the address of a node, or a cell of a shard. -/
inductive Waste (n : ℕ)
  | node (a : ℕ)
  | cell (i : Fin n) (c : ℕ)
deriving DecidableEq

/-- The memory of the process: the heap of the nodes, what else the shards have, and the domain. -/
structure Words (n : ℕ) where
  heap : ℕ → Option Block
  shards : Fin n → Own
  dom : Ebr.Domain (Waste n)
  hist : List (Event Op Ret)

/-- A thread. -/
structure Registers (n : ℕ) where
  ebr : Ebr.Local (Waste n)
  shard : Fin n
  call : Thread

section

variable {n : ℕ}

/-- What a shard hands to the domain. -/
def wasteOf (i : Fin n) : Garbage → Waste n
  | .node a => .node a
  | .cell c => .cell i c

/-- A drop function runs. -/
def release (heap : ℕ → Option Block) : Waste n → ℕ → Option Block
  | .node a => Function.update heap a none
  | .cell _ _ => heap

/-- The memory as a shard uses it. -/
def Words.ram (w : Words n) (i : Fin n) : Ram where
  heap := w.heap
  own := w.shards i

/-- An access of the domain, with the drop functions that it runs. -/
def Words.onDomain (w : Words n) (l : Registers n) (a : Ebr.Action (Waste n)) :
    Option (Words n × Registers n) := do
  let (dom, ebr) ← Ebr.step w.dom l.ebr a
  let freed := (dom.dropped.drop w.dom.dropped.length).filterMap dom.garbageOf
  some ({ w with dom := dom, heap := freed.foldl release w.heap }, { l with ebr := ebr })

/-- The call `r` goes on at `pc`. -/
def Words.onShard (A : Addresses n) (maxLevel : ℕ) (w : Words n) (l : Registers n) (r : Regs)
    (pc : SkipList.Pc) : Option (Words n × Registers n) := do
  let a := A.place l.shard (w.shards l.shard).allocs
  let (m, call) ← SkipList.Tagged.exec maxLevel a (w.ram l.shard) r pc
  some
    ({ w with
        heap := m.heap
        shards := Function.update w.shards l.shard m.own
        hist := w.hist ++ answers (Nat.pair l.shard r.id) pc },
      { l with
        ebr := { l.ebr with pc := pc.retires.elim .idle fun g => .retireLoad (wasteOf l.shard g) }
        call := call })

/-- The first program point of a call: it has no pointer but `self.head`. -/
def firstPoint (maxLevel : ℕ) (own : Own) (op : Op) (topLevel : ℕ) : Thread :=
  (Thread.busy (.start own.calls op topLevel) (.start maxLevel op)).map fun _ => own.head

variable [NeZero n]

/-- Everything a thread can do. -/
def Words.step (A : Addresses n) (maxLevel : ℕ) (w : Words n) (l : Registers n) :
    Action → Option (Words n × Registers n)
  | .pin =>
      match l.call with
      | .idle => w.onDomain l .pin
      | .busy _ _ => none
  | .unpin =>
      match l.call with
      | .idle => w.onDomain l .unpin
      | .busy _ _ => none
  | .collect =>
      match l.call with
      | .idle => w.onDomain l .collect
      | .busy _ _ => none
  | .run strong => w.onDomain l (.run strong)
  | .call op topLevel =>
      match l.ebr.pc, l.call with
      | .idle, .idle =>
          if 0 < l.ebr.guards ∧ topLevel ≤ maxLevel then
            let i := Mesh.owner n op.key
            some
              ({ w with
                  shards := Function.update w.shards i { w.shards i with calls := (w.shards i).calls + 1 }
                  hist := w.hist ++ [.inv (Nat.pair i (w.shards i).calls) op] },
                { l with shard := i, call := firstPoint maxLevel (w.shards i) op topLevel })
          else none
      | _, _ => none
  | .exec =>
      match l.ebr.pc, l.call with
      | .idle, .busy r pc => w.onShard A maxLevel l r pc
      | _, _ => none

theorem Words.step_exec {A : Addresses n} {maxLevel : ℕ} {w : Words n} {l : Registers n}
    {x : Words n × Registers n} (h : w.step A maxLevel l .exec = some x) :
    l.ebr.pc = .idle ∧ ∃ r pc, l.call = .busy r pc ∧ w.onShard A maxLevel l r pc = some x := by
  rw [Words.step] at h
  split at h
  · exact ⟨‹_›, _, _, ‹_›, h⟩
  · cases h

theorem Words.step_call {A : Addresses n} {maxLevel topLevel : ℕ} {w : Words n} {l : Registers n} {op : Op}
    {x : Words n × Registers n} (h : w.step A maxLevel l (.call op topLevel) = some x) :
    l.ebr.pc = .idle ∧ l.call = .idle ∧ 0 < l.ebr.guards ∧ topLevel ≤ maxLevel ∧
      x = ({ w with
              shards := Function.update w.shards (Mesh.owner n op.key)
                { w.shards (Mesh.owner n op.key) with calls := (w.shards (Mesh.owner n op.key)).calls + 1 }
              hist := w.hist ++ [.inv (Nat.pair (Mesh.owner n op.key)
                (w.shards (Mesh.owner n op.key)).calls) op] },
        { l with
          shard := Mesh.owner n op.key
          call := firstPoint maxLevel (w.shards (Mesh.owner n op.key)) op topLevel }) := by
  rw [Words.step] at h
  split at h
  · obtain ⟨⟨hguard, htop⟩, h⟩ := Option.ite_none_right_eq_some.mp h
    cases h
    exact ⟨‹_›, ‹_›, hguard, htop, rfl⟩
  · cases h

/-- The access of the domain that an action makes, if it makes one. -/
def Action.toDomain (G : Type) : Action → Option (Ebr.Action G)
  | .pin => some .pin
  | .unpin => some .unpin
  | .collect => some .collect
  | .run strong => some (.run strong)
  | .call _ _ | .exec => none

theorem Words.step_domain {A : Addresses n} {maxLevel : ℕ} {w : Words n} {l : Registers n} {a : Action}
    {b : Ebr.Action (Waste n)} {x : Words n × Registers n} (hb : a.toDomain (Waste n) = some b)
    (h : w.step A maxLevel l a = some x) :
    (l.call = .idle ∨ ∃ strong, a = .run strong) ∧ w.onDomain l b = some x := by
  cases a with
  | run strong =>
      cases hb
      exact ⟨.inr ⟨strong, rfl⟩, h⟩
  | call | exec => cases hb
  | _ =>
      cases hb
      rw [Words.step] at h
      split at h
      · exact ⟨.inl ‹_›, h⟩
      · cases h

/-- The conditions of `managed`, over addresses. -/
def Words.allows (w : Words n) (l : Registers n) : Action → Bool
  | .pin => w.dom.epoch < Ebr.unpinned && l.ebr.guards == 0
  | .exec => w.dom.epoch < Ebr.unpinned && SkipList.Tagged.keepsLevels (w.ram l.shard) l.call
  | _ => w.dom.epoch < Ebr.unpinned

/-- The sentinels of the shards. -/
def Addresses.sentinelAt (A : Addresses n) (a : ℕ) : Option Block :=
  (List.finRange n).findSome? fun i =>
    if a = A.place i SkipList.head then
      some ((SkipList.sentinel .negInf (some SkipList.tail)).block (A.place i))
    else if a = A.place i SkipList.tail then some ((SkipList.sentinel .posInf none).block (A.place i))
    else none

/-- The threads that share the index over addresses. -/
def recycled (A : Addresses n) (maxLevel : ℕ) : Threads (Words n) (Registers n) Action where
  mem :=
    { heap := A.sentinelAt
      shards := fun i => Mem.withMaxLevel.own (A.place i)
      dom := .new _
      hist := [] }
  loc := { ebr := .new _, shard := 0, call := .idle }
  step w l a := if w.allows l a then w.step A maxLevel l a else none

end

/-! ## The addresses of the nodes -/

section Refines

variable {n : ℕ}

/-- What a record of the index over numbers holds, in memory. -/
def Addresses.waste (A : Addresses n) (x : Scrap n) : Waste n :=
  match x.2 with
  | .node p => .node (A.place x.1 p)
  | .cell c => .cell x.1 c

/-- The domain has freed the node. -/
def Dead (m : Shared n) (i : Fin n) (p : ℕ) : Prop :=
  ∃ r ∈ m.dom.dropped, m.dom.garbageOf r = some (i, .node p)

/-- The nodes that are there, as blocks. -/
noncomputable def objects (A : Addresses n) (m : Shared n) (i : Fin n) : ℕ → Option Block :=
  objOf (A.place i) (Dead m i) (m.shards i)

def Local.registers (A : Addresses n) (l : Local n) : Registers n where
  ebr := l.ebr.map A.waste
  shard := l.shard
  call := l.call.map (A.place l.shard)

variable {τ : Type} {A : Addresses n} {maxLevel : ℕ} {s s' : Config τ (Shared n) (Local n)}
  {w w' : Config τ (Words n) (Registers n)} {t : τ} {i : Fin n} {q : ℕ}

/-- A configuration over addresses shows one over numbers. -/
structure Refines (A : Addresses n) (s : Config τ (Shared n) (Local n))
    (w : Config τ (Words n) (Registers n)) : Prop where
  mirrors : Mirrors (Function.uncurry A.place) (Function.uncurry (objects A s.mem)) w.mem.heap
  own : ∀ i, w.mem.shards i = (s.mem.shards i).own (A.place i)
  dom : w.mem.dom = s.mem.dom.map A.waste
  hist : w.mem.hist = s.mem.hist
  loc : ∀ t, w.loc t = (s.loc t).registers A

theorem objects_eq_some {b : Block} :
    objects A s.mem i q = some b ↔
      ¬ FreedNode s i q ∧ ∃ nd, (s.mem.shards i).nodes[q]? = some nd ∧ nd.block (A.place i) = b := by
  rw [objects, SkipList.Tagged.objOf_eq_some, FreedNode, or_comm]
  rfl

theorem exists_object (hlive : ¬ FreedNode s i q) (hlt : q < (s.mem.shards i).nodes.length) :
    ∃ b, objects A s.mem i q = some b :=
  ⟨_, objects_eq_some.mpr ⟨hlive, _, List.getElem?_eq_getElem hlt, rfl⟩⟩

/-- Nodes that are there are at different addresses. -/
theorem Refines.place_inj (h : Refines A s w) {p : ℕ} {b b' : Block} (hp : objects A s.mem i p = some b)
    (hq : objects A s.mem i q = some b') (he : A.place i p = A.place i q) : p = q := by
  have := h.mirrors.apart (i, p) (i, q) b b' hp hq he
  exact (Prod.mk.inj this).2

theorem Refines.shadow (h : Refines A s w) (i : Fin n) :
    Shadow A.place (objects A s.mem) i (Dead s.mem i) (s.mem.shards i) (w.mem.ram i) := by
  refine ⟨h.own i, ?_⟩
  rw [show objOf (A.place i) (Dead s.mem i) (s.mem.shards i) = objects A s.mem i from rfl,
    Function.update_eq_self]
  exact h.mirrors

/-! ## Who is there -/

variable [NeZero n] [DecidableEq τ]

section Live

variable (hmax : maxLevel < maxHeight) (hs : ((managed n maxLevel).machine τ).Reachable s)
include hmax hs

/-- A node that a call has a pointer to is there. -/
theorem exists_held (hq : ((s.loc t).callOn i).Holds q) : ∃ b, objects A s.mem i q = some b := by
  have hr := Threads.reachable_of_restrict ((list n maxLevel i).reachable hs)
  exact exists_object (not_freedNode_of_holds hmax hs hq) (SkipList.lt_length_of_holds (t := t) hr hq)

/-- A node that an unmarked link of a level leads to is there. -/
theorem exists_next {p l : ℕ} (hl : l ≤ maxLevel) (hp : (s.mem.shards i).nodes.LinkedAt l p)
    (hq : (s.mem.shards i).nodes.link p l = some ⟨some q, false⟩) :
    ∃ b, objects A s.mem i q = some b := by
  have hL := ((SkipList.leveled maxLevel hmax).holds ((list n maxLevel i).reachable hs)).shared.2
  have hon : (s.mem.shards i).nodes.OnLevel l q := by
    obtain ⟨ch, hb, hmem⟩ := hL.onLevel hl hp ⟨_, hq⟩
    obtain ⟨a, c, rfl⟩ := hb.split hmem ⟨false, hq⟩
    exact ⟨_, hb, by simp⟩
  have hlinked : (s.mem.shards i).nodes.LinkedAt l q := by
    obtain ⟨ch, hb, hmem⟩ := hon
    exact hb.published q hmem
  exact exists_object (not_freedNode_of_onLevel hmax hs hl hon) hlinked.lt_length

/-- The node that `remove` expects behind the one it is about to mark at level 0 is there. -/
theorem exists_expected {r : Regs} {node e : ℕ}
    (hcall : (s.loc t).callOn i = .busy r (.rmCas0 node (some e))) : ∃ b, objects A s.mem i e = some b := by
  have hr := Threads.reachable_of_restrict ((list n maxLevel i).reachable hs)
  have hexp : ((s.loc t).callOn i).expects = some e := by
    rw [hcall]
    rfl
  have hpub : (s.mem.shards i).nodes.Published e :=
    ((((SkipList.views maxLevel).and (SkipList.expecting maxLevel)).holds hr).own t).2 e hexp
  refine exists_object ?_ hpub.lt_length
  rintro (hf | ⟨r', hdrop, hrec⟩)
  · exact not_freed_of_published hs hpub hf
  · rcases covered_or_blind hmax hs hrec t with hc | ⟨W, hb, hsaw⟩
    · exact hc.kept hdrop
    · -- the call began after the node was lost, and has seen it on the bottom level
      rw [hcall] at hsaw
      obtain ⟨m₀, h₀, hon⟩ := hsaw.2 e rfl
      exact (hb.lost m₀ h₀).off 0 (Nat.zero_le _) hon

/-- An unmarked link of a level that looks as expected is as expected. -/
theorem link_of_same (h : Refines A s w) {p l : ℕ} {e : Option ℕ} {lk : SkipList.Link} (hl : l ≤ maxLevel)
    (hp : (s.mem.shards i).nodes.LinkedAt l p) (hlk : (s.mem.shards i).nodes.link p l = some lk)
    (he : ∀ q, e = some q → ∃ b, objects A s.mem i q = some b)
    (hsame : lk.map (A.place i) = SkipList.Link.map (A.place i) ⟨e, false⟩) : lk = ⟨e, false⟩ := by
  obtain ⟨o, mk⟩ := lk
  obtain ⟨href, rfl⟩ := SkipList.Link.mk.inj hsame
  cases o with
  | none =>
      have hnone : e = none := Option.map_eq_none_iff.mp href.symm
      rw [hnone]
  | some q =>
      obtain ⟨q', rfl, hq⟩ := Option.map_eq_some_iff.mp href.symm
      obtain ⟨b, hb⟩ := exists_next (A := A) hmax hs hl hp hlk
      obtain ⟨b', hb'⟩ := he q' rfl
      rw [h.place_inj hb' hb hq]

/-- **A compare-exchange is not taken in by an address that came back**, except in the loop over the upper
levels. -/
theorem tells (h : Refines A s w) {r : Regs} {pc : SkipList.Pc} (hcall : (s.loc t).callOn i = .busy r pc)
    (hpc : ∀ node level succ, pc ≠ .rmMark node level succ) :
    pc.Tells (A.place i) (s.mem.shards i) r := by
  intro p l old lk hcmp hlk hsame
  have hi := (SkipList.leveled maxLevel hmax).holds ((list n maxLevel i).reachable hs)
  have hb : ((s.loc t).callOn i).Builds maxLevel (s.mem.shards i).nodes := (hi.own t).2
  have hheld : ∀ q, (Thread.busy r pc).Holds q → ∃ b, objects A s.mem i q = some b :=
    fun q hq => exists_held (t := t) hmax hs (hcall ▸ hq)
  rw [hcall] at hb
  obtain ⟨htop, hregs, hb⟩ := hb
  cases pc with
  | findSplice k level pred curr succ =>
      cases hcmp
      refine link_of_same hmax hs h hb.1 hb.2.1 hlk ?_ hsame
      rintro q ⟨⟩
      exact hheld curr (.inr (List.mem_cons_of_mem _ List.mem_cons_self))
  | insPub node =>
      cases hcmp
      refine link_of_same hmax hs h (Nat.zero_le _) (hregs 0 (Nat.zero_le _)).1 hlk ?_ hsame
      rintro q ⟨⟩
      exact hheld _ (.inl ⟨0, .inr rfl⟩)
  | insLink node level =>
      cases hcmp
      have hle : l ≤ maxLevel := hb.2.1.le_top.trans htop
      refine link_of_same hmax hs h hle (hregs l hle).1 hlk ?_ hsame
      rintro q ⟨⟩
      exact hheld _ (.inl ⟨l, .inr rfl⟩)
  | rmCas0 node succ =>
      cases hcmp
      have hr := Threads.reachable_of_restrict ((list n maxLevel i).reachable hs)
      have hk : ((s.loc t).callOn i).Knows (s.mem.shards i).nodes := ((SkipList.views maxLevel).holds hr).own t
      rw [hcall] at hk
      refine link_of_same hmax hs h (Nat.zero_le _) hk.2.1 hlk ?_ hsame
      rintro q rfl
      exact exists_expected hmax hs hcall
  | rmMark node level succ => exact absurd rfl (hpc node level succ)
  | _ => cases hcmp

/-- A number that is not given out yet is of no freed node. -/
theorem fresh_length (i : Fin n) :
    ¬ (Dead s.mem i (s.mem.shards i).nodes.length ∨
      (s.mem.shards i).nodes.length ∈ (s.mem.shards i).freed) := by
  have hr := Threads.reachable_of_restrict ((list n maxLevel i).reachable hs)
  rintro (⟨r, -, hrec⟩ | hf)
  · exact lt_irrefl _ (SkipList.lt_length_of_gone (lost_of_record hmax hs hrec).gone)
  · have hmem : _ ∈ SkipList.stages ((list n maxLevel i).view s) .freed := hf
    exact lt_irrefl _ ((SkipList.stages_split hr).lt hmem)

end Live

/-! ## A step of a call -/

section Exec

variable {r : Regs} {pc : SkipList.Pc}

/-- A step of a call that nobody sees. -/
theorem stepOf_quiet {pc' : SkipList.Pc} (hepoch : s.mem.dom.epoch < Ebr.unpinned)
    (hebr : (s.loc t).ebr.pc = .idle) (hcall : (s.loc t).call = .busy r pc)
    (hmv : Move maxLevel (s.mem.shards (s.loc t).shard) r pc (s.mem.shards (s.loc t).shard) (.busy r pc'))
    (hpc : (∃ node level succ, pc = .rmMark node level succ) ∨ ∃ node level, pc = .rmGet node level) :
    (managed n maxLevel).stepOf s (t, .exec) =
      some ⟨s.mem, Function.update s.loc t { s.loc t with call := .busy r pc' }⟩ := by
  have hstep := step_of_move hebr hcall hmv
  have hmem : { s.mem with
      shards := Function.update s.mem.shards (s.loc t).shard (s.mem.shards (s.loc t).shard) } = s.mem := by
    rw [Function.update_eq_self]
  have hkeep : keepsLevels (s.mem.shards (s.loc t).shard) (s.loc t).call .run = true := by
    rw [hcall]
    rcases hpc with ⟨_, _, _, rfl⟩ | ⟨_, _, rfl⟩ <;> rfl
  refine Threads.stepOf_eq_some.mpr ⟨s.mem, { s.loc t with call := .busy r pc' },
    Threads.restrict_step.mpr ⟨?_, hstep.trans ?_⟩, rfl⟩
  · simp [inScope, meets, hepoch, hkeep]
  · rcases hpc with ⟨_, _, _, rfl⟩ | ⟨_, _, rfl⟩ <;>
      simp [answers, borrows, SkipList.Pc.retires, ← hebr]

/-- Before a compare-exchange that an address could mislead, the call reads the link again. -/
theorem refresh (hmax : maxLevel < maxHeight) (hs : ((managed n maxLevel).machine τ).Reachable s)
    (h : Refines A s w) (hepoch : s.mem.dom.epoch < Ebr.unpinned) (hebr : (s.loc t).ebr.pc = .idle)
    (hcall : (s.loc t).call = .busy r pc) :
    ∃ s' pc', ((managed n maxLevel).machine τ).Reachable s' ∧ Refines A s' w ∧ s'.mem = s.mem ∧
      s'.loc t = { s.loc t with call := .busy r pc' } ∧
      pc'.Tells (A.place (s.loc t).shard) (s.mem.shards (s.loc t).shard) r := by
  by_cases hT : pc.Tells (A.place (s.loc t).shard) (s.mem.shards (s.loc t).shard) r
  · exact ⟨s, pc, hs, h, rfl, by rw [← hcall], hT⟩
  · obtain ⟨node, level, succ, rfl⟩ : ∃ node level succ, pc = .rmMark node level succ := by
      by_contra hpc
      simp only [not_exists] at hpc
      exact hT (tells hmax hs h (Local.callOn_self.trans hcall) hpc)
    simp only [SkipList.Pc.Tells, not_forall] at hT
    obtain ⟨p, l, old, ⟨o, mk⟩, hcmp, hlk, hsame, hne⟩ := hT
    cases hcmp
    obtain ⟨href, rfl⟩ := SkipList.Link.mk.inj hsame
    -- the compare-exchange fails, the loop reads the link and is back where it was
    have hlost := hs.next (stepOf_quiet hepoch hebr hcall (.rmMarkLost hlk hne) (.inl ⟨_, _, _, rfl⟩))
    have hread := hlost.next (stepOf_quiet (t := t) hepoch (by simpa using hebr)
      (show _ = Thread.busy r (.rmGet node level) by simp) (.rmGet (by simpa using hlk)) (.inr ⟨_, _, rfl⟩))
    refine ⟨_, .rmMark node level o, hread, ⟨h.mirrors, h.own, h.dom, h.hist, fun u => ?_⟩, rfl, by simp, ?_⟩
    · rw [h.loc]
      by_cases hu : u = t
      · subst hu
        simp only [Function.update_self, Local.registers, hcall, Thread.map, SkipList.Pc.map]
        rw [show o.map (A.place _) = succ.map (A.place _) from href]
      · simp [Function.update_of_ne hu]
    · intro p' l' old' lk' hcmp' hlk' hsame'
      cases hcmp'
      exact Option.some.inj (hlk'.symm.trans hlk)

omit [NeZero n] [DecidableEq τ] in
/-- A shard changes, and the domain does not. -/
theorem objects_update {m : Shared n} {mem : Mem} {hist : List (Event Op Ret)} :
    objects A { m with shards := Function.update m.shards i mem, hist := hist } =
      Function.update (objects A m) i (objOf (A.place i) (Dead m i) mem) := by
  funext j
  by_cases hj : j = i
  · subst hj
    rw [Function.update_self]
    show objOf (A.place j) (Dead m j) (Function.update m.shards j mem j) = _
    rw [Function.update_self]
  · rw [Function.update_of_ne hj]
    show objOf (A.place j) (Dead m j) (Function.update m.shards i mem j) = _
    rw [Function.update_of_ne hj]
    rfl

omit [NeZero n] in
theorem retires_map (i : Fin n) (pc : SkipList.Pc) :
    ((pc.map (A.place i)).retires.elim Ebr.Pc.idle fun g => .retireLoad (wasteOf i g)) =
      (pc.retires.elim Ebr.Pc.idle fun g => .retireLoad (i, g)).map A.waste := by
  cases pc <;> rfl

theorem answers_map (f : ℕ → ℕ) (id : ℕ) (pc : SkipList.Pc) : answers id (pc.map f) = answers id pc := by
  cases pc <;> rfl

/-- A step of a call whose compare-exchange tells links apart. -/
theorem exec_refined (hmax : maxLevel < maxHeight) (hs : ((managed n maxLevel).machine τ).Reachable s)
    (h : Refines A s w) (hcall : (s.loc t).call = .busy r pc)
    (htells : pc.Tells (A.place (s.loc t).shard) (s.mem.shards (s.loc t).shard) r)
    (hst : (recycled A maxLevel).stepOf w (t, .exec) = some w') :
    ∃ s', (managed n maxLevel).stepOf s (t, .exec) = some s' ∧ Refines A s' w' := by
  obtain ⟨mw, lw, hml, rfl⟩ := Threads.stepOf_eq_some.mp hst
  obtain ⟨hallow, hml⟩ := Option.ite_none_right_eq_some.mp hml
  obtain ⟨hepoch, hkeep⟩ := Bool.and_eq_true_iff.mp hallow
  replace hepoch : s.mem.dom.epoch < Ebr.unpinned := by simpa [h.dom] using hepoch
  obtain ⟨hebr, r', pc', hcall', hml⟩ := Words.step_exec hml
  rw [h.loc t] at hebr hcall' hml hkeep
  replace hebr : (s.loc t).ebr.pc = .idle := by simpa [Local.registers, Ebr.Local.map] using hebr
  have hmap : ((s.loc t).registers A).call = (Thread.busy r pc).map (A.place (s.loc t).shard) := by
    rw [Local.registers, hcall]
  -- both threads are at the same point, with addresses for numbers
  obtain ⟨rfl, rfl⟩ := Thread.busy.inj (hmap.symm.trans hcall')
  have hheld : ∀ q, (Thread.busy r pc).Holds q → ∃ b, objects A s.mem (s.loc t).shard q = some b := by
    intro q hq
    refine exists_held (t := t) hmax hs ?_
    rwa [Local.callOn_self, hcall]
  have hshadow := h.shadow (s.loc t).shard
  obtain ⟨⟨x, th'⟩, hexec, he⟩ := Option.bind_eq_some_iff.mp hml
  cases he
  obtain ⟨m', th, hmv, rfl, hsh⟩ := SkipList.Tagged.exec_refines (A.valid _) hshadow hheld htells
    (fresh_length hmax hs _) hexec
  -- the condition on the step is one on the links it reads, and they agree
  rw [hmap] at hkeep
  replace hkeep := (SkipList.Tagged.keepsLevels_map (A.valid _) (fun q hq => hshadow.at (hheld q hq))
    htells).symm.trans hkeep
  refine ⟨_, Threads.stepOf_eq_some.mpr ⟨_, _, Threads.restrict_step.mpr
    ⟨?_, step_of_move hebr hcall hmv⟩, rfl⟩, ?_, fun j => ?_, h.dom, ?_, fun u => ?_⟩
  · simp [inScope, meets, hepoch, hcall, hkeep]
  · rw [objects_update]
    exact hsh.mirrors
  · by_cases hj : j = (s.loc t).shard
    · subst hj
      simpa [Local.registers] using hsh.own
    · simpa [Local.registers, hj] using h.own j
  · show w.mem.hist ++ answers _ (pc.map _) = s.mem.hist ++ answers _ pc
    rw [h.hist, answers_map]
    rfl
  · by_cases hu : u = t
    · subst hu
      simp only [Function.update_self, Local.registers, Ebr.Local.map, retires_map]
    · simpa [Function.update_of_ne hu] using h.loc u

/-- **A step of a call over addresses is a step of a call over numbers**, or three of them. -/
theorem exec_simulated (hmax : maxLevel < maxHeight) (hs : ((managed n maxLevel).machine τ).Reachable s)
    (h : Refines A s w) (hst : (recycled A maxLevel).stepOf w (t, .exec) = some w') :
    ∃ s', ((managed n maxLevel).machine τ).Reachable s' ∧ Refines A s' w' := by
  obtain ⟨mw, lw, hml, -⟩ := Threads.stepOf_eq_some.mp hst
  obtain ⟨hallow, hml⟩ := Option.ite_none_right_eq_some.mp hml
  obtain ⟨hebr, r', pc', hcall', -⟩ := Words.step_exec hml
  rw [h.loc t] at hebr hcall'
  have hepoch : s.mem.dom.epoch < Ebr.unpinned := by
    simpa [h.dom] using (Bool.and_eq_true_iff.mp hallow).1
  cases hcall : (s.loc t).call with
  | idle => simp [Local.registers, hcall, Thread.map] at hcall'
  | busy r pc =>
      obtain ⟨s₁, pc₁, hs₁, h₁, hmem, hloc, htells⟩ := refresh hmax hs h hepoch
        (by simpa [Local.registers, Ebr.Local.map] using hebr) hcall
      have hcall₁ : (s₁.loc t).call = .busy r pc₁ := by rw [hloc]
      rw [← hmem, show (s.loc t).shard = (s₁.loc t).shard by rw [hloc]] at htells
      obtain ⟨s', hstep, h'⟩ := exec_refined hmax hs₁ h₁ hcall₁ htells hst
      exact ⟨s', hs₁.next hstep, h'⟩

end Exec

/-! ## A step of the domain -/

section Domain

variable {a : Action} {b : Ebr.Action (Scrap n)} {d : Ebr.Domain (Scrap n)} {e : Ebr.Local (Scrap n)}

omit [NeZero n] [DecidableEq τ] in
theorem objects_congr {m m' : Shared n} (hshards : m'.shards = m.shards)
    (hdead : ∀ i p, Dead m' i p ↔ Dead m i p) : objects A m' = objects A m := by
  funext i
  rw [objects, objects, hshards, funext fun p => propext (hdead i p)]

omit [NeZero n] [DecidableEq τ] in
/-- One more node is freed. -/
theorem objects_release {m m' : Shared n} (hshards : m'.shards = m.shards) {j : Fin n}
    (hdead : ∀ i p, Dead m' i p ↔ Dead m i p ∨ i = j ∧ p = q) :
    objects A m' = Function.update (objects A m) j (Function.update (objects A m j) q none) := by
  funext i p
  rw [objects, hshards]
  by_cases hi : i = j
  · subst hi
    rw [Function.update_self]
    by_cases hp : p = q
    · subst hp
      rw [Function.update_self]
      exact SkipList.Tagged.objOf_of_dead ((hdead i p).mpr (.inr ⟨rfl, rfl⟩))
    · rw [Function.update_of_ne hp]
      exact SkipList.Tagged.objOf_congr_dead (by simp [hdead, hp])
  · rw [Function.update_of_ne hi]
    exact SkipList.Tagged.objOf_congr_dead (by simp [hdead, hi])

/-- What the domain frees is there until then. -/
theorem exists_dropped (hmax : maxLevel < maxHeight) (hs : ((managed n maxLevel).machine τ).Reachable s)
    {r : ℕ} (hr : r ∉ s.mem.dom.dropped) (hrec : s.mem.dom.garbageOf r = some (i, .node q)) :
    ∃ b, objects A s.mem i q = some b := by
  have hgone := (lost_of_record hmax hs hrec).gone
  have hr' := Threads.reachable_of_restrict ((list n maxLevel i).reachable hs)
  have hpub := ((SkipList.views maxLevel).holds hr').shared.gone q hgone
  refine exists_object ?_ hpub.lt_length
  rintro (hf | ⟨r', hdrop, hrec'⟩)
  · exact not_freed_of_published hs hpub hf
  · exact hr ((handed hs).once r' r _ hrec' hrec ▸ hdrop)

/-- The drop functions that a step runs free what the step has dropped. -/
theorem mirrors_dropped (hmax : maxLevel < maxHeight) (hs : ((managed n maxLevel).machine τ).Reachable s)
    (h : Refines A s w) (hst : (managed n maxLevel).stepOf s (t, a) = some s')
    (hshards : s'.mem.shards = s.mem.shards) (hdom : Ebr.StepTo s.mem.dom (s.loc t).ebr b s'.mem.dom e) :
    Mirrors (Function.uncurry A.place) (Function.uncurry (objects A s'.mem))
      (((s'.mem.dom.dropped.drop s.mem.dom.dropped.length).filterMap
        (s'.mem.dom.map A.waste).garbageOf).foldl release w.mem.heap) := by
  have hlt := ((Ebr.domainInvariant _).holds ((domain n maxLevel).reachable hs)).shared.dropped
  rcases hdom.dropped_cases with hsame | ⟨r, hnew, hrecs⟩
  · rw [hsame, List.drop_length]
    rw [objects_congr hshards]
    · exact h.mirrors
    · intro i p
      rw [Dead, Dead, hsame]
      refine exists_congr fun r => and_congr_right fun hr => ?_
      rw [hdom.garbageOf_of_lt (hlt r hr)]
  · have hgarbage : s'.mem.dom.garbageOf = s.mem.dom.garbageOf := by
      funext q
      rw [Ebr.Domain.garbageOf, Ebr.Domain.garbageOf, hrecs]
    -- a record is freed once, so its node was in memory until now
    have hfresh : r ∉ s.mem.dom.dropped := by
      have hreach := Threads.reachable_of_restrict (P := Ebr.threads (Scrap n))
        ((domain n maxLevel).reachable (hs.next hst))
      obtain ⟨lists, hcust⟩ := Ebr.custody hreach
      have hnd := hcust.split.nodup .freed
      rw [hcust.freed, show ((domain n maxLevel).view s').mem.dropped = _ from hnew] at hnd
      exact fun hr => (List.nodup_append.mp hnd).2.2 r hr r (List.mem_singleton.mpr rfl) rfl
    have hdead : ∀ i p, Dead s'.mem i p ↔ Dead s.mem i p ∨ s.mem.dom.garbageOf r = some (i, .node p) := by
      intro i p
      simp only [Dead, hnew, hgarbage, List.mem_append, List.mem_singleton, or_and_right, exists_or,
        exists_eq_left]
    have hlist : (s'.mem.dom.dropped.drop s.mem.dom.dropped.length).filterMap
        (s'.mem.dom.map A.waste).garbageOf = ((s.mem.dom.garbageOf r).map A.waste).toList := by
      rw [hnew, List.drop_left]
      simp only [List.filterMap_cons, List.filterMap_nil, Ebr.Domain.garbageOf_map, hgarbage]
      cases s.mem.dom.garbageOf r <;> rfl
    rw [hlist]
    rcases hg : s.mem.dom.garbageOf r with _ | ⟨j, p | c⟩
    · rw [objects_congr hshards fun i p => by simp [hdead, hg]]
      exact h.mirrors
    · -- the memory of a node is given back
      rw [objects_release hshards (j := j) (q := p) fun i p' => by simp [hdead, hg, eq_comm], uncurry_update]
      obtain ⟨b, hb⟩ := exists_dropped (A := A) hmax hs hfresh hg
      exact h.mirrors.update (k := (j, p)) (h.mirrors.sole (k := (j, p)) hb) none
    · rw [objects_congr hshards fun i p => by simp [hdead, hg]]
      exact h.mirrors

omit [DecidableEq τ] in
theorem step_of_domain (maxLevel : ℕ) {m : Shared n} {l : Local n} (hb : a.toDomain (Scrap n) = some b)
    (hidle : l.call = .idle ∨ ∃ strong, a = .run strong) (h : Ebr.step m.dom l.ebr b = some (d, e)) :
    ∃ slices, step maxLevel m l a = some ({ m with dom := d }, { l with ebr := e, slices := slices }) := by
  cases a with
  | run strong =>
      cases hb
      exact ⟨l.slices, by simp [step, onDomain, h]⟩
  | call | exec => cases hb
  | _ =>
      cases hb
      have hcall : l.call = .idle := hidle.resolve_right (by simp)
      exact ⟨_, by simp [step, onDomain, hcall, h]; rfl⟩

/-- **A step of the domain over addresses is one over numbers.** -/
theorem domain_refined (hmax : maxLevel < maxHeight) (hs : ((managed n maxLevel).machine τ).Reachable s)
    (h : Refines A s w) (hb : a.toDomain (Scrap n) = some b)
    (hst : (recycled A maxLevel).stepOf w (t, a) = some w') :
    ∃ s', (managed n maxLevel).stepOf s (t, a) = some s' ∧ Refines A s' w' := by
  obtain ⟨mw, lw, hml, rfl⟩ := Threads.stepOf_eq_some.mp hst
  obtain ⟨hallow, hml⟩ := Option.ite_none_right_eq_some.mp hml
  have hbw : a.toDomain (Waste n) = some (b.map A.waste) := by
    cases a <;> cases hb <;> rfl
  obtain ⟨hidle, hml⟩ := Words.step_domain hbw hml
  obtain ⟨⟨dw, ew⟩, hstep, he⟩ := Option.bind_eq_some_iff.mp hml
  cases he
  rw [h.dom, h.loc t, Local.registers, Ebr.step_map] at hstep
  obtain ⟨⟨d, e⟩, hde, he⟩ := Option.map_eq_some_iff.mp hstep
  cases he
  replace hidle : (s.loc t).call = .idle ∨ ∃ strong, a = .run strong := by
    refine hidle.imp_left fun hidle => ?_
    rw [h.loc t, Local.registers] at hidle
    cases hcall : (s.loc t).call with
    | idle => rfl
    | busy r pc => simp [hcall, Thread.map] at hidle
  obtain ⟨slices, hto⟩ := step_of_domain maxLevel hb hidle hde
  have hscope : (inScope s.mem (s.loc t) a && meets keepsLevels s.mem (s.loc t) a) = true := by
    rw [h.loc t] at hallow
    cases a with
    | call | exec => cases hb
    | _ => simpa [inScope, meets, Words.allows, h.dom, Local.registers, Ebr.Local.map] using hallow
  have hst' : (managed n maxLevel).stepOf s (t, a) = some
      ⟨{ s.mem with dom := d }, Function.update s.loc t { s.loc t with ebr := e, slices := slices }⟩ :=
    Threads.stepOf_eq_some.mpr ⟨_, _, Threads.restrict_step.mpr ⟨hscope, hto⟩, rfl⟩
  refine ⟨_, hst', ?_, h.own, rfl, h.hist, fun u => ?_⟩
  · have := mirrors_dropped hmax hs h hst' rfl (Ebr.stepTo_of_step hde)
    rw [h.dom]
    exact this
  · by_cases hu : u = t
    · subst hu
      simp [Local.registers, h.loc u]
    · simpa [Function.update_of_ne hu] using h.loc u

end Domain

/-! ## Runs -/

omit [NeZero n] [DecidableEq τ] in
theorem firstPoint_own {m : Mem} {op : Op} {topLevel : ℕ} :
    firstPoint maxLevel (m.own (A.place i)) op topLevel =
      (Thread.busy (.start m.calls op topLevel) (.start maxLevel op)).map (A.place i) := by
  cases op <;> rfl

theorem call_refined (h : Refines A s w) {op : Op} {topLevel : ℕ}
    (hst : (recycled A maxLevel).stepOf w (t, .call op topLevel) = some w') :
    ∃ s', (managed n maxLevel).stepOf s (t, .call op topLevel) = some s' ∧ Refines A s' w' := by
  obtain ⟨mw, lw, hml, rfl⟩ := Threads.stepOf_eq_some.mp hst
  obtain ⟨hallow, hml⟩ := Option.ite_none_right_eq_some.mp hml
  obtain ⟨hebr, hcall, hguard, htop, he⟩ := Words.step_call hml
  cases he
  rw [h.loc t] at hebr hcall hguard
  replace hebr : (s.loc t).ebr.pc = .idle := by simpa [Local.registers, Ebr.Local.map] using hebr
  replace hcall : (s.loc t).call = .idle := by
    cases hcall' : (s.loc t).call with
    | idle => rfl
    | busy r pc => simp [Local.registers, hcall', Thread.map] at hcall
  have hscope : s.mem.dom.epoch < Ebr.unpinned := by simpa [Words.allows, h.dom] using hallow
  refine ⟨_, Threads.stepOf_eq_some.mpr ⟨_, _, Threads.restrict_step.mpr
    ⟨?_, step_of_call hebr hguard hcall htop⟩, rfl⟩, ?_, fun j => ?_, h.dom, ?_, fun u => ?_⟩
  · simp [inScope, meets, hscope]
  · have hobj : objOf (A.place (Mesh.owner n op.key)) (Dead s.mem (Mesh.owner n op.key))
        ((s.mem.shards (Mesh.owner n op.key)).invoke op) = objects A s.mem (Mesh.owner n op.key) :=
      SkipList.Tagged.objOf_congr rfl rfl
    rw [objects_update, hobj, Function.update_eq_self]
    exact h.mirrors
  · by_cases hj : j = Mesh.owner n op.key
    · subst hj
      simp [h.own, Mem.own, Mem.invoke]
    · simpa [hj] using h.own j
  · show w.mem.hist ++ _ = s.mem.hist ++ _
    rw [h.hist, h.own]
    rfl
  · by_cases hu : u = t
    · subst hu
      simp only [Function.update_self, h.own, firstPoint_own, h.loc, Local.registers]
    · simpa [Function.update_of_ne hu] using h.loc u

omit [NeZero n] [DecidableEq τ] in
/-- At the start the sentinels are there. -/
theorem sentinelAt_eq_some {a : ℕ} {b : Block} :
    A.sentinelAt a = some b ↔ ∃ i p, p < 2 ∧ A.place i p = a ∧
      (Mem.withMaxLevel.nodes[p]?).map (SkipList.Node.block (A.place i)) = some b := by
  have hfind : ∀ b, A.sentinelAt a = some b → ∃ i p, p < 2 ∧ A.place i p = a ∧
      (Mem.withMaxLevel.nodes[p]?).map (SkipList.Node.block (A.place i)) = some b := by
    intro b hb
    obtain ⟨i, -, hi⟩ := List.exists_of_findSome?_eq_some hb
    split at hi
    · next ha => exact ⟨i, SkipList.head, by decide, ha.symm, hi⟩
    · obtain ⟨ha, hi⟩ := Option.ite_none_right_eq_some.mp hi
      exact ⟨i, SkipList.tail, by decide, ha.symm, hi⟩
  refine ⟨hfind b, ?_⟩
  rintro ⟨i, p, hp, rfl, hb⟩
  have hsome : (A.sentinelAt (A.place i p)).isSome := by
    refine List.findSome?_isSome_iff.mpr ⟨i, List.mem_finRange i, ?_⟩
    obtain rfl | rfl : p = SkipList.head ∨ p = SkipList.tail := by
      simp only [SkipList.head, SkipList.tail]
      omega
    · simp
    · split <;> simp
  obtain ⟨b', hb'⟩ := Option.isSome_iff_exists.mp hsome
  obtain ⟨i', p', hp', he, hblock⟩ := hfind b' hb'
  obtain ⟨rfl, rfl⟩ := A.sentinels i' i p' p hp' hp he
  rw [hb', ← hblock, hb]

omit [DecidableEq τ] in
theorem refines_init : Refines A (τ := τ) ⟨(managed n maxLevel).mem, fun _ => (managed n maxLevel).loc⟩
    ⟨(recycled A maxLevel).mem, fun _ => (recycled A maxLevel).loc⟩ := by
  have hobj : ∀ i p, objects A (managed n maxLevel).mem i p =
      (Mem.withMaxLevel.nodes[p]?).map (SkipList.Node.block (A.place i)) := by
    intro i p
    refine if_neg ?_
    rintro (⟨r, hr, -⟩ | hf)
    · cases hr
    · cases hf
  have hlt : ∀ {i p b}, objects A (managed n maxLevel).mem i p = some b → p < 2 := by
    intro i p b hb
    rw [hobj] at hb
    obtain ⟨nd, hnd, -⟩ := Option.map_eq_some_iff.mp hb
    exact (List.getElem?_eq_some_iff.mp hnd).1
  refine ⟨⟨?_, ?_, ?_⟩, fun i => rfl, rfl, rfl, fun t => rfl⟩
  · rintro ⟨i, p⟩ b hb
    exact sentinelAt_eq_some.mpr ⟨i, p, hlt hb, rfl, (hobj i p).symm.trans hb⟩
  · intro a b ha
    obtain ⟨i, p, -, rfl, hb⟩ := sentinelAt_eq_some.mp ha
    exact ⟨(i, p), rfl, (hobj i p).trans hb⟩
  · rintro ⟨i, p⟩ ⟨j, q⟩ b b' hb hb' he
    obtain ⟨rfl, rfl⟩ := A.sentinels i j p q (hlt hb) (hlt hb') he
    rfl

/-- **The index over addresses does what the index over numbers can do.** -/
theorem refined (hmax : maxLevel < maxHeight) (hw : ((recycled A maxLevel).machine τ).Reachable w) :
    ∃ s, ((managed n maxLevel).machine τ).Reachable s ∧ Refines A s w := by
  refine hw.invariant (I := fun w => ∃ s, ((managed n maxLevel).machine τ).Reachable s ∧ Refines A s w) ?_ ?_
  · rintro w rfl
    exact ⟨_, .start rfl, refines_init⟩
  · rintro w ⟨t, a⟩ w' - ⟨s, hs, h⟩ hst
    have hone : (∃ s', (managed n maxLevel).stepOf s (t, a) = some s' ∧ Refines A s' w') →
        ∃ s', ((managed n maxLevel).machine τ).Reachable s' ∧ Refines A s' w' :=
      fun hex => hex.imp fun s' hs' => ⟨hs.next hs'.1, hs'.2⟩
    cases a with
    | call op topLevel => exact hone (call_refined h hst)
    | exec => exact exec_simulated hmax hs h hst
    | _ => exact hone (domain_refined hmax hs h rfl hst)

end Refines

/-- **Reused memory is harmless.**  Let the allocator give out any address that is free, as often as it likes,
and let links be words that compare-exchanges compare.  Then the index is one map to all its threads, and every
pointer that a call has leads to a node that is in memory. -/
theorem reuse_linearizable {n : ℕ} [NeZero n] {τ : Type} [DecidableEq τ] {A : Addresses n} {maxLevel : ℕ}
    {w : Config τ (Words n) (Registers n)} (hmax : maxLevel < maxHeight)
    (hw : ((recycled A maxLevel).machine τ).Reachable w) :
    Linearizable mapSpec w.mem.hist ∧ ∀ t a, (w.loc t).call.Holds a → ∃ b, w.mem.heap a = some b := by
  obtain ⟨s, hs, h⟩ := refined hmax hw
  refine ⟨?_, fun t a ha => ?_⟩
  · have hmark : ((marking n maxLevel).machine τ).Reachable s := by
      refine Threads.reachable_restrict_mono (fun m l a hR => ?_) hs
      cases a with
      | exec => exact SkipList.keepsMarks_of_keepsLevels _ _ _ (Bool.and_eq_true_iff.mp hR).2
      | _ => rfl
    rw [h.hist]
    exact (recorded hmark).linearizable (shard_linearizable hmark)
  · rw [h.loc t] at ha
    obtain ⟨q, hq, rfl⟩ := SkipList.Thread.exists_of_holds_map ha
    obtain ⟨b, hb⟩ := exists_held (A := A) (t := t) hmax hs (Local.callOn_self.symm ▸ hq)
    exact ⟨b, h.mirrors.here (_, q) b hb⟩

/-- An allocator that has room for one node besides the sentinels. -/
def oneRoom : Addresses 1 where
  place _ p := 8 * (min p 2 + 1)
  valid _ p := ⟨by omega, by omega, ⟨_, rfl⟩⟩
  sentinels i j p q hp hq h := ⟨Subsingleton.elim i j, by omega⟩

/-- Key 5 is inserted and removed, and two collections of the other thread free its node.  Key 6 gets the same
memory, and while it is linked at the upper level a search of the other thread comes to it. -/
def comeback : List (Bool × Action) :=
  List.flatten
    [[(false, .pin)], List.replicate 5 (false, .run true), [(false, .call (.insert [5] [1]) 1)],
      List.replicate 12 (false, .exec), [(false, .call (.remove [5]) 0)], List.replicate 20 (false, .exec),
      List.replicate 3 (false, .run true), [(false, .exec), (false, .unpin), (true, .collect)],
      List.replicate 14 (true, .run true), [(true, .collect)], List.replicate 12 (true, .run true),
      [(false, .pin)], List.replicate 2 (false, .run true), [(true, .pin)], List.replicate 6 (true, .run true),
      [(false, .call (.insert [6] [2]) 1)], List.replicate 9 (false, .exec), [(true, .call (.get [6]) 0)],
      List.replicate 4 (true, .exec), List.replicate 3 (false, .exec)]

/-- The nodes that the call of a thread is at. -/
def Registers.nodes {n : ℕ} (l : Registers n) : List ℕ :=
  match l.call with
  | .idle => []
  | .busy _ pc => pc.nodes

theorem Registers.holds_of_mem {n : ℕ} {l : Registers n} {a : ℕ} (h : a ∈ l.nodes) : l.call.Holds a := by
  unfold Registers.nodes at h
  split at h
  · cases h
  · next hcall =>
    rw [hcall]
    exact .inr h

theorem reuse_linearizable_comeback :
    ∃ w : Config Bool (Words 1) (Registers 1),
      (0 ∈ w.mem.dom.dropped ∧ w.mem.dom.garbageOf 0 = some (.node 24)) ∧
      (w.loc true).call.Holds 24 ∧ (∃ b, w.mem.heap 24 = some b) ∧ Linearizable mapSpec w.mem.hist := by
  have hrun : (Machine.runFn (recycled oneRoom 1).stepOf
      { mem := (recycled oneRoom 1).mem, loc := fun _ : Bool => (recycled oneRoom 1).loc } comeback).any
        (fun w => 0 ∈ w.mem.dom.dropped ∧ w.mem.dom.garbageOf 0 = some (.node 24) ∧
          24 ∈ (w.loc true).nodes) = true := by decide +kernel
  obtain ⟨w, hw, hend⟩ := (Option.any_eq_true _ _).mp hrun
  obtain ⟨hdrop, hrec, hmem⟩ := of_decide_eq_true hend
  have hholds := Registers.holds_of_mem hmem
  obtain ⟨hlin, hheap⟩ := reuse_linearizable (by decide) (Machine.reachable_of_runFn hw)
  exact ⟨w, ⟨hdrop, hrec⟩, hholds, hheap true 24 hholds, hlin⟩

end ZeroKv.Index
