/-
# ZeroKv.Index.Reclaim — nothing that is in use is freed.

The contract of `Guard::retire` is about the skiplist: no thread can get a pointer to the node any more.  Its
promise is about the domain: whoever holds a guard now keeps it from being freed.  Put together they cover
every thread.  When a record is tagged, a thread that holds a guard is covered by the grace period for as
long as it holds it.  A thread without a guard is in no call of the index; the calls it starts later begin
after the node was lost, and never come to it.  When a covered thread drops its guard it becomes one of
those.

The runs are those of `managed`: one guard a thread at a time, as `Ebr.inScope` has it, and no link of an
upper level that `keepsLevels` forbids.
-/
import ZeroKv.Index.Program
import ZeroKv.SkipList.Cells

namespace ZeroKv.Index

open SkipList (Mem Thread Choice Op Ret Garbage Regs Move keepsLevels maxHeight Lost Unaware)

variable {n : ℕ} [NeZero n]

/-- The threads that share the index, under both conditions. -/
def managed (n : ℕ) [NeZero n] (maxLevel : ℕ) : Threads (Shared n) (Local n) Action :=
  (threads n maxLevel).restrict fun m l a => inScope m l a && meets keepsLevels m l a

/-- The domain in a run of the index. -/
def domain (n : ℕ) [NeZero n] (maxLevel : ℕ) :
    Threads.Projection (managed n maxLevel) (Ebr.disciplined (Scrap n)) :=
  onEbr n maxLevel _ fun _ _ _ h => (Bool.and_eq_true_iff.mp h).1

/-- A shard in a run of the index. -/
def list (n : ℕ) [NeZero n] (maxLevel : ℕ) (i : Fin n) :
    Threads.Projection (managed n maxLevel) ((SkipList.threads maxLevel).restrict keepsLevels) :=
  onList n maxLevel keepsLevels (fun _ _ _ => rfl) _ (fun _ _ _ h => (Bool.and_eq_true_iff.mp h).2) i

section Managed

variable {maxLevel : ℕ} {m m' : Shared n} {l l' : Local n} {a : Action}

theorem managed_step (h : (managed n maxLevel).step m l a = some (m', l')) :
    StepTo maxLevel m l a m' l' :=
  stepTo_of_step (Threads.restrict_step.mp h).2

/-- Only the drop of the guard takes it away, and there is no call in progress then. -/
theorem StepTo.guards_le (h : StepTo maxLevel m l a m' l') (ha : a ≠ .unpin) :
    l.ebr.guards ≤ l'.ebr.guards := by
  cases h with
  | start hb _ hst =>
      refine (Ebr.stepTo_of_step hst).guards_le ?_
      rcases hb with ⟨-, rfl⟩ | ⟨-, rfl⟩ <;> simp
  | unpin => exact absurd rfl ha
  | run hst => exact (Ebr.stepTo_of_step hst).guards_le (by simp)
  | call | exec => exact le_rfl

/-- The record that a step adds holds what its thread was about to retire. -/
theorem StepTo.garbageOf_cases (h : StepTo maxLevel m l a m' l') {r : ℕ} {x : Scrap n}
    (hr : m'.dom.garbageOf r = some x) :
    m.dom.garbageOf r = some x ∨
      (∃ strong, a = .run strong) ∧ r = m.dom.recs.length ∧ l.ebr.pc = .retireLoad x := by
  have hdom : ∀ {b d e}, Ebr.step m.dom l.ebr b = some (d, e) → d.garbageOf r = some x →
      m.dom.garbageOf r = some x ∨
        (∃ strong, b = .run strong) ∧ r = m.dom.recs.length ∧ l.ebr.pc = .retireLoad x := by
    intro b d e hst hr
    rcases (Ebr.stepTo_of_step hst).garbageOf_cases r with he | ⟨g, strong, hpc, rfl, hlen, he⟩
    · exact .inl (he ▸ hr)
    · obtain rfl : g = x := Option.some.inj (he.symm.trans hr)
      exact .inr ⟨⟨strong, rfl⟩, hlen, hpc⟩
  cases h with
  | start hb _ hst =>
      rcases hdom hst hr with hr | ⟨⟨strong, rfl⟩, -⟩
      · exact .inl hr
      · simp at hb
  | unpin _ hst =>
      rcases hdom hst hr with hr | ⟨⟨strong, hb⟩, -⟩
      · exact .inl hr
      · cases hb
  | run hst => exact (hdom hst hr).imp_right fun ⟨⟨strong, _⟩, h⟩ => ⟨⟨_, rfl⟩, h⟩
  | call | exec => exact .inl hr

/-- A thread is about to box what the call it is in has just retired. -/
theorem StepTo.retired_of_pc (h : StepTo maxLevel m l a m' l') {i : Fin n} {g : Garbage}
    (hpc : l'.ebr.pc = .retireLoad (i, g)) :
    (m'.shards i).retired = (m.shards i).retired ++ [g] := by
  cases h with
  | start hb _ hst =>
      cases (Ebr.stepTo_of_step hst).retire_of_pc hpc
      simp at hb
  | unpin _ hst => cases (Ebr.stepTo_of_step hst).retire_of_pc hpc
  | run hst => cases (Ebr.stepTo_of_step hst).retire_of_pc hpc
  | call hebr => cases hebr.symm.trans hpc
  | @exec r pc mem th hebr hcall hmv =>
      cases hg : pc.retires with
      | none =>
          rw [hg] at hpc
          cases hpc
      | some g' =>
          rw [hg] at hpc
          cases hpc
          simp [hmv.retired_eq, hg]

/-- What a call retires goes to the domain. -/
theorem StepTo.retired_cases (h : StepTo maxLevel m l a m' l') (i : Fin n) :
    (m'.shards i).retired = (m.shards i).retired ∨
      ∃ g, l'.ebr.pc = .retireLoad (i, g) ∧ (m'.shards i).retired = (m.shards i).retired ++ [g] := by
  cases h with
  | start | unpin | run => exact .inl rfl
  | call =>
      exact .inl (apply_update_of_eq Mem.retired (by rfl) i)
  | @exec r pc mem th hebr hcall hmv =>
      by_cases hi : i = l.shard
      · subst hi
        simp only [Function.update_self, hmv.retired_eq]
        cases pc.retires with
        | none => exact .inl (List.append_nil _)
        | some g => exact .inr ⟨g, rfl, rfl⟩
      · exact .inl (congrArg Mem.retired (Function.update_of_ne hi ..))

theorem StepTo.retired_mono (h : StepTo maxLevel m l a m' l') (i : Fin n) :
    (m.shards i).retired ⊆ (m'.shards i).retired := by
  rcases h.retired_cases i with he | ⟨g, -, he⟩ <;> rw [he]
  · exact List.Subset.refl _
  · exact List.subset_append_left _ _

/-- A call is made under a guard, and the guard lives as long as the call. -/
def guarded (n : ℕ) [NeZero n] (maxLevel : ℕ) : (managed n maxLevel).Invariant where
  shared _ := True
  own _ l := l.call ≠ .idle → 0 < l.ebr.guards
  apart _ _ := True
  init_shared := trivial
  init_own h := absurd rfl h
  init_apart := trivial
  keep {m l a m' l'} _ hg hst := by
    refine ⟨trivial, fun hcall => ?_⟩
    have hto := managed_step hst
    have hle := hto.guards_le
    cases hto with
    | start _ hidle _ | unpin hidle _ => exact absurd hidle hcall
    | run _ => exact (hg hcall).trans_le (hle (by simp))
    | call _ hguard _ _ => exact hguard
    | exec _ hbusy _ => exact hg (by simp [hbusy])
  bystander _ _ hb _ _ _ := ⟨hb, trivial, trivial⟩

/-- What is on its way to the domain, or there, was retired by a call of its shard. -/
def known (n : ℕ) [NeZero n] (maxLevel : ℕ) : (managed n maxLevel).Invariant where
  shared m := ∀ r i g, m.dom.garbageOf r = some (i, g) → g ∈ (m.shards i).retired
  own m l := ∀ i g, l.ebr.pc = .retireLoad (i, g) → g ∈ (m.shards i).retired
  apart _ _ := True
  init_shared r i g h := by cases h
  init_own i g h := by cases h
  init_apart := trivial
  keep {m l a m' l'} hrec hpend hst := by
    have hto := managed_step hst
    refine ⟨fun r i g hr => ?_, fun i g hpc => ?_⟩
    · rcases hto.garbageOf_cases hr with hr | ⟨-, -, hpc⟩
      · exact hto.retired_mono i (hrec r i g hr)
      · exact hto.retired_mono i (hpend i g hpc)
    · rw [hto.retired_of_pc hpc]
      exact List.mem_append_right _ (List.mem_singleton.mpr rfl)
  bystander _ _ hb _ _ hst :=
    ⟨fun i g hpc => (managed_step hst).retired_mono i (hb i g hpc), trivial, trivial⟩

end Managed

/-! ## Covered by the guard, or never there -/

variable {τ : Type} {maxLevel : ℕ} {s t : Config τ (Shared n) (Local n)} {u T : τ} {a : Action}
  {r q : ℕ} {i : Fin n}

/-- The thread holds a guard that is older than the record. -/
def Covered (maxLevel : ℕ) (s : Config τ (Shared n) (Local n)) (T : τ) (r : ℕ) : Prop :=
  0 < (s.loc T).ebr.guards ∧ ∃ i e, e < Ebr.unpinned ∧ Ebr.Grace T i e r ((domain n maxLevel).view s)

/-- The thread is in no call that began before the node was lost. -/
def Blind (maxLevel : ℕ) (s : Config τ (Shared n) (Local n)) (T : τ) (i : Fin n) (q : ℕ) : Prop :=
  ∃ W, Unaware maxLevel q W (s.mem.shards i) ((s.loc T).callOn i) ∧ ((s.loc T).callOn i).Saw W

/-- What is covered is not freed. -/
theorem Covered.kept (h : Covered maxLevel s T r) : r ∉ s.mem.dom.dropped := by
  obtain ⟨-, i, e, -, hg⟩ := h
  exact hg.kept

variable [DecidableEq τ]

theorem Covered.step (hs : ((managed n maxLevel).machine τ).Reachable s) (h : Covered maxLevel s T r)
    (hst : (managed n maxLevel).stepOf s (u, a) = some t) (hT : 0 < (t.loc T).ebr.guards) :
    Covered maxLevel t T r := by
  obtain ⟨hguard, i, e, he, hg⟩ := h
  refine ⟨hT, i, e, he, ?_⟩
  rcases (domain n maxLevel).view_step hst with hsame | ⟨b, hb⟩
  · rw [hsame]
    exact hg
  · exact hg.step he ((Ebr.domainInvariant _).holds ((domain n maxLevel).reachable hs)) hguard hT hb

omit [NeZero n] [DecidableEq τ] in
theorem Blind.start (hidle : (s.loc T).call = .idle)
    (hq : Lost maxLevel (s.mem.shards i).nodes q) : Blind maxLevel s T i q := by
  rw [Blind, Local.callOn_of_idle hidle]
  refine ⟨{s.mem.shards i}, ⟨SkipList.Era.start maxLevel _, ?_, trivial, id⟩, trivial⟩
  rintro m₀ rfl
  exact hq

theorem Blind.step (hmax : maxLevel < maxHeight) (hs : ((managed n maxLevel).machine τ).Reachable s)
    (h : Blind maxLevel s T i q) (hst : (managed n maxLevel).stepOf s (u, a) = some t) :
    Blind maxLevel t T i q := by
  obtain ⟨W, hv, hsaw⟩ := h
  have hr := (list n maxLevel i).reachable hs
  rcases (list n maxLevel i).view_step hst with hsame | ⟨c, hc⟩
  · refine ⟨W, ?_⟩
    have hmem : t.mem.shards i = s.mem.shards i := congrArg Config.mem hsame
    have hloc : (t.loc T).callOn i = (s.loc T).callOn i := congrFun (congrArg Config.loc hsame) T
    rw [hmem, hloc]
    exact ⟨hv, hsaw⟩
  · obtain ⟨m', l', hml, he⟩ := Threads.stepOf_eq_some.mp hc
    have hmem : t.mem.shards i = m' := congrArg Config.mem he
    have hloc : (t.loc T).callOn i = Function.update (fun v => (s.loc v).callOn i) u l' T :=
      congrFun (congrArg Config.loc he) T
    have hadv := SkipList.advance_of_step hmax hr hml
    refine ⟨insert m' W, ?_⟩
    rw [hmem, hloc]
    by_cases hT : T = u
    · subst hT
      have hi := (SkipList.leveled maxLevel hmax).holds hr
      obtain ⟨⟨-, htop⟩, hL⟩ := hi.shared
      rw [Function.update_self]
      have hstep := (Threads.restrict_step.mp hml).2
      refine ⟨hv.step hL htop (hi.own T).2 hadv hstep, ?_⟩
      rcases SkipList.step_cases hstep with ⟨op, top, -, -, -, -, rfl⟩ | ⟨r, pc, -, hcall, hmv⟩
      · cases op <;> trivial
      · rw [show (s.loc T).callOn i = _ from hcall] at hv hsaw
        exact (hmv.saw hv.era hv.walks hsaw).mono (Set.subset_insert _ _)
    · rw [Function.update_of_ne hT]
      exact ⟨hv.bystander hadv, hsaw.mono (Set.subset_insert _ _)⟩

/-- A thread that holds a guard when a record is boxed is covered. -/
theorem Covered.start (hs : ((managed n maxLevel).machine τ).Reachable s) {x : Scrap n}
    (hu : (s.loc u).ebr.pc = .retireLoad x) (hT : 0 < (s.loc T).ebr.guards)
    (hst : (managed n maxLevel).stepOf s (u, a) = some t) (hT' : 0 < (t.loc T).ebr.guards)
    (hr : s.mem.dom.recs.length < t.mem.dom.recs.length) :
    Covered maxLevel t T s.mem.dom.recs.length := by
  refine ⟨hT', ?_⟩
  rcases (domain n maxLevel).view_step hst with hsame | ⟨b, hb⟩
  · have hdom : t.mem.dom = s.mem.dom := congrArg Config.mem hsame
    rw [hdom] at hr
    exact absurd hr (lt_irrefl _)
  · exact Ebr.Grace.start ((Ebr.domainInvariant _).holds ((domain n maxLevel).reachable hs)) hT hu hb

theorem lost_of_record (hmax : maxLevel < maxHeight) (hs : ((managed n maxLevel).machine τ).Reachable s)
    (hr : s.mem.dom.garbageOf r = some (i, .node q)) : Lost maxLevel (s.mem.shards i).nodes q :=
  SkipList.lost_of_retired hmax ((list n maxLevel i).reachable hs)
    (((known n maxLevel).holds hs).shared r i _ hr)

/-- Every record of a run was there before the step, or is boxed by it. -/
theorem record_cases (hst : (managed n maxLevel).stepOf s (u, a) = some t) {x : Scrap n}
    (hr : t.mem.dom.garbageOf r = some x) :
    s.mem.dom.garbageOf r = some x ∨
      (∃ strong, a = .run strong) ∧ r = s.mem.dom.recs.length ∧ (s.loc u).ebr.pc = .retireLoad x := by
  obtain ⟨m', l', hml, rfl⟩ := Threads.stepOf_eq_some.mp hst
  exact (managed_step hml).garbageOf_cases hr

/-- A guard is held on until it is dropped. -/
theorem guards_pos (hst : (managed n maxLevel).stepOf s (u, a) = some t) (ha : T = u → a ≠ .unpin)
    (hT : 0 < (s.loc T).ebr.guards) : 0 < (t.loc T).ebr.guards := by
  obtain ⟨m', l', hml, rfl⟩ := Threads.stepOf_eq_some.mp hst
  by_cases hu : T = u
  · subst hu
    simpa using hT.trans_le ((managed_step hml).guards_le (ha rfl))
  · simpa [Function.update_of_ne hu] using hT

/-- An access of the domain leaves every call where it is. -/
theorem call_of_run {strong : Bool} (hst : (managed n maxLevel).stepOf s (u, .run strong) = some t) :
    (t.loc T).call = (s.loc T).call := by
  obtain ⟨m', l', hml, rfl⟩ := Threads.stepOf_eq_some.mp hst
  refine apply_update_of_eq Local.call ?_ T
  cases managed_step hml with
  | start hb => simp at hb
  | run => rfl

/-- A new record covers every thread that holds a guard. -/
theorem covered_of_new (hs : ((managed n maxLevel).machine τ).Reachable s)
    (hst : (managed n maxLevel).stepOf s (u, a) = some t) {x : Scrap n}
    (hr : t.mem.dom.garbageOf r = some x) (hnew : s.mem.dom.garbageOf r ≠ some x)
    (hT : 0 < (s.loc T).ebr.guards) : Covered maxLevel t T r := by
  rcases record_cases hst hr with hold | ⟨⟨strong, rfl⟩, rfl, hpc⟩
  · exact absurd hold hnew
  · refine Covered.start hs hpc hT hst (guards_pos hst (by simp) hT) ?_
    by_contra hlt
    rw [Ebr.Domain.garbageOf, List.getElem?_eq_none (Nat.le_of_not_lt hlt)] at hr
    cases hr

/-- **Every thread is covered by its guard or does not know the node**, for every node in the domain. -/
theorem covered_or_blind (hmax : maxLevel < maxHeight)
    (hs : ((managed n maxLevel).machine τ).Reachable s)
    (hr : s.mem.dom.garbageOf r = some (i, .node q)) (T : τ) :
    Covered maxLevel s T r ∨ Blind maxLevel s T i q := by
  refine hs.invariant (I := fun s => ∀ r i q, s.mem.dom.garbageOf r = some (i, .node q) →
    ∀ T, Covered maxLevel s T r ∨ Blind maxLevel s T i q) ?_ ?_ r i q hr T
  · rintro s rfl r i q hr
    cases hr
  · rintro s ⟨u, a⟩ t hs ih hst r i q hr T
    have ht := hs.next hst
    have hlost := lost_of_record hmax ht hr
    by_cases hold : s.mem.dom.garbageOf r = some (i, .node q)
    · rcases ih r i q hold T with hc | hb
      · by_cases hT : 0 < (t.loc T).ebr.guards
        · exact .inl (hc.step hs hst hT)
        · -- the guard is dropped: the thread is in no call
          have hidle : (t.loc T).call = .idle :=
            by_contra fun hcall => hT (((guarded n maxLevel).holds ht).own T hcall)
          exact .inr (.start hidle hlost)
      · exact .inr (hb.step hmax hs hst)
    · by_cases hT : 0 < (s.loc T).ebr.guards
      · exact .inl (covered_of_new hs hst hr hold hT)
      · -- the record is boxed while the thread has no guard, and so is in no call
        obtain ⟨⟨strong, rfl⟩, -⟩ := (record_cases hst hr).resolve_left hold
        have hidle : (s.loc T).call = .idle :=
          by_contra fun hcall => hT (((guarded n maxLevel).holds hs).own T hcall)
        exact .inr (.start ((call_of_run hst).trans hidle) hlost)

/-! ## The slices of a guard -/

/-- What keeps the bytes of a slice in place: the guard it borrows from is held, its cell is in no other node
than the one it was found at, and whatever record would free the cell or that node is younger than the
guard. -/
structure Backed (maxLevel : ℕ) (s : Config τ (Shared n) (Local n)) (T : τ) (b : Slice n) : Prop where
  guard : 0 < (s.loc T).ebr.guards
  boxed : b.cell < (s.mem.shards b.shard).cells.length
  published : (s.mem.shards b.shard).nodes.Published b.node
  owner : ∀ p, (s.mem.shards b.shard).nodes.valueOf p = some b.cell → p = b.node
  cell : ∀ r, s.mem.dom.garbageOf r = some (b.shard, .cell b.cell) → Covered maxLevel s T r
  node : ∀ r, s.mem.dom.garbageOf r = some (b.shard, .node b.node) → Covered maxLevel s T r

theorem later_of_step (hmax : maxLevel < maxHeight)
    (hs : ((managed n maxLevel).machine τ).Reachable s)
    (hst : (managed n maxLevel).stepOf s (u, a) = some t) (i : Fin n) :
    SkipList.Later (s.mem.shards i).nodes (t.mem.shards i).nodes ∧
      (s.mem.shards i).cells.length ≤ (t.mem.shards i).cells.length ∧
      ∀ p v, (t.mem.shards i).nodes.valueOf p = some v →
        (s.mem.shards i).nodes.valueOf p = some v ∨ v = (s.mem.shards i).cells.length := by
  rcases (list n maxLevel i).view_step hst with hsame | ⟨c, hc⟩
  · have hmem : t.mem.shards i = s.mem.shards i := congrArg Config.mem hsame
    rw [hmem]
    exact ⟨.refl _, le_rfl, fun p v hp => .inl hp⟩
  · obtain ⟨m', l', hml, he⟩ := Threads.stepOf_eq_some.mp hc
    have hmem : t.mem.shards i = m' := congrArg Config.mem he
    rw [hmem]
    exact ⟨(SkipList.advance_of_step hmax ((list n maxLevel i).reachable hs) hml).later,
      SkipList.step_values (Threads.restrict_step.mp hml).2⟩

/-- A slice that is there stays backed as long as its guard is held. -/
theorem Backed.step (hmax : maxLevel < maxHeight) (hs : ((managed n maxLevel).machine τ).Reachable s)
    {b : Slice n} (h : Backed maxLevel s T b) (hst : (managed n maxLevel).stepOf s (u, a) = some t)
    (hT : 0 < (t.loc T).ebr.guards) : Backed maxLevel t T b := by
  obtain ⟨hlater, hcells, hvalues⟩ := later_of_step hmax hs hst b.shard
  have hcov : ∀ {r x}, (s.mem.dom.garbageOf r = some x → Covered maxLevel s T r) →
      t.mem.dom.garbageOf r = some x → Covered maxLevel t T r := by
    intro r x hold hr
    by_cases hr₀ : s.mem.dom.garbageOf r = some x
    · exact (hold hr₀).step hs hst hT
    · exact covered_of_new hs hst hr hr₀ h.guard
  refine ⟨hT, h.boxed.trans_le hcells, hlater.published _ h.published, fun p hp => ?_,
    fun r => hcov (h.cell r), fun r => hcov (h.node r)⟩
  rcases hvalues p b.cell hp with hp | hnew
  · exact h.owner p hp
  · exact absurd h.boxed (hnew ▸ lt_irrefl _)

/-- A slice that `get` has just found is backed: the call holds the node, and the cell is its value. -/
theorem Backed.start (hmax : maxLevel < maxHeight)
    (hs : ((managed n maxLevel).machine τ).Reachable s) {b : Slice n} {regs : Regs}
    (hcall : (s.loc T).callOn b.shard = .busy regs (.getVal b.node))
    (hval : (s.mem.shards b.shard).nodes.valueOf b.node = some b.cell)
    (hguard : 0 < (s.loc T).ebr.guards) : Backed maxLevel s T b := by
  have hr := Threads.reachable_of_restrict ((list n maxLevel b.shard).reachable hs)
  have hsplit := SkipList.holders_split hr
  have hnode : b.cell ∈ SkipList.holders ((list n maxLevel b.shard).view s) (.node b.node) :=
    SkipList.mem_node.mpr hval
  have hk := ((SkipList.views maxLevel).holds hr).own T
  rw [show ((list n maxLevel b.shard).view s).loc T = _ from hcall] at hk
  refine ⟨hguard, hsplit.lt hnode, hk.2.1, fun p hp => ?_, fun r hrec => ?_, fun r hrec => ?_⟩
  · cases hsplit.unique (SkipList.mem_node.mpr hp) hnode
    rfl
  · -- the cell is in its node, so nobody has retired it yet
    have hret := ((known n maxLevel).holds hs).shared r _ _ hrec
    cases hsplit.unique (SkipList.mem_retired.mpr hret) hnode
  · rcases covered_or_blind hmax hs hrec T with hc | ⟨W, hb⟩
    · exact hc
    · refine absurd ?_ hb.1.holds
      rw [hcall]
      exact .inr (List.mem_singleton.mpr rfl)

/-- The memory of the node is given back: by an insert that lost the race to publish it, or by the
domain. -/
def FreedNode (s : Config τ (Shared n) (Local n)) (i : Fin n) (q : ℕ) : Prop :=
  q ∈ (s.mem.shards i).freed ∨ ∃ r ∈ s.mem.dom.dropped, s.mem.dom.garbageOf r = some (i, .node q)

section Freed

variable (hmax : maxLevel < maxHeight) (hs : ((managed n maxLevel).machine τ).Reachable s)
include hmax hs

omit hmax in
theorem not_freed_of_published (hq : (s.mem.shards i).nodes.Published q) : q ∉ (s.mem.shards i).freed := by
  intro hf
  have hr := Threads.reachable_of_restrict ((list n maxLevel i).reachable hs)
  cases (SkipList.stages_split hr).unique (p := .freed) (q := .published) hf
    (SkipList.mem_published.mpr hq)

/-- A node that a call has a pointer to is there. -/
theorem not_freedNode_of_holds (hq : ((s.loc T).callOn i).Holds q) : ¬ FreedNode s i q := by
  have hr := Threads.reachable_of_restrict ((list n maxLevel i).reachable hs)
  rintro (hf | ⟨r, hdrop, hrec⟩)
  · exact SkipList.not_freed_of_holds (t := T) hr hq hf
  · rcases covered_or_blind hmax hs hrec T with hc | ⟨W, hb, -⟩
    · exact hc.kept hdrop
    · exact hb.holds hq

/-- A node on a level is there. -/
theorem not_freedNode_of_onLevel {l : ℕ} (hl : l ≤ maxLevel) (hq : (s.mem.shards i).nodes.OnLevel l q) :
    ¬ FreedNode s i q := by
  rintro (hf | ⟨r, -, hrec⟩)
  · obtain ⟨ch, hb, hmem⟩ := hq
    exact not_freed_of_published hs ((hb.published q hmem).down (Nat.zero_le l)) hf
  · exact (lost_of_record hmax hs hrec).off l hl hq

end Freed

end ZeroKv.Index
