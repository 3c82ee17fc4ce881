/-
# ZeroKv.SkipList.Owners — who frees a value cell.

A value cell is boxed by an insert.  It is freed by `drop_value` after an update swapped it out, or
together with the node it is in.  For that to happen once, every cell must have one owner at any time, and
every way a cell can go must hand it over to exactly one new owner.

Two partitions carry this.  `stages` shares out the nodes: a node is private to the insert that allocated
it, published, or freed by an insert that lost the race to publish it.  `holders` shares out the cells: a
cell is in the value field of one node, in the hands of the update that has just swapped it out, or retired.
Nothing is assumed about the nodes an update meets: it may swap the value of a node that was removed
and retired after it was found.
-/
import ZeroKv.Lib.Partition
import ZeroKv.SkipList.Views

namespace ZeroKv.SkipList

variable {τ : Type}

/-! ## The stages of a node -/

/-- Where a node is in its life; removal does not matter here. -/
inductive Stage (τ : Type)
  /-- Only the insert of thread `t` can see it. -/
  | building (t : τ)
  | published
  | freed

/-- The nodes at each stage. -/
def stages (s : Config τ Mem Thread) : Stage τ → List ℕ
  | .building t => (s.loc t).fresh.toList
  | .published => (List.range s.mem.nodes.length).filter fun p => 0 < s.mem.nodes.linkedOf p
  | .freed => s.mem.freed

theorem mem_published {s : Config τ Mem Thread} {p : ℕ} :
    p ∈ stages s .published ↔ s.mem.nodes.Published p := by
  simp only [stages, List.mem_filter, List.mem_range, decide_eq_true_eq]
  exact ⟨And.right, fun hp => ⟨hp.lt_length, hp⟩⟩

theorem nodup_published {s : Config τ Mem Thread} : (stages s .published).Nodup :=
  List.nodup_range.filter _

section Stages

variable [DecidableEq τ] {maxLevel : ℕ} {s : Config τ Mem Thread} {t : τ} {m' : Mem} {l' : Thread}

theorem building_of_ne {u : τ} (hu : u ≠ t) :
    stages ⟨m', Function.update s.loc t l'⟩ (.building u) = stages s (.building u) := by
  show (Function.update s.loc t l' u).fresh.toList = _
  rw [Function.update_of_ne hu]
  rfl

theorem building_self : stages ⟨m', Function.update s.loc t l'⟩ (.building t) = l'.fresh.toList := by
  show (Function.update s.loc t l' t).fresh.toList = _
  rw [Function.update_self]

/-- A step that neither allocates, publishes nor frees. -/
theorem stages_quiet (h : Partition s.mem.nodes.length (stages s))
    (hlen : m'.nodes.length = s.mem.nodes.length)
    (hpub : ∀ p, m'.nodes.Published p ↔ s.mem.nodes.Published p)
    (hfreed : m'.freed = s.mem.freed) (hfresh : l'.fresh = (s.loc t).fresh) :
    Partition m'.nodes.length (stages ⟨m', Function.update s.loc t l'⟩) := by
  have hsame : stages ⟨m', Function.update s.loc t l'⟩ = stages s := by
    funext st
    cases st with
    | building u =>
        by_cases hu : u = t
        · subst hu
          rw [building_self, hfresh]
          rfl
        · exact building_of_ne hu
    | published =>
        show List.filter _ (List.range m'.nodes.length) = _
        rw [hlen]
        exact List.filter_congr fun p _ => decide_eq_decide.mpr (hpub p)
    | freed => exact hfreed
  rw [hlen, hsame]
  exact h

omit [DecidableEq τ] in
/-- The new node of an insert is not published. -/
theorem published_alloc_nodes {key : BoundKey} {v : Option ℕ} {top : ℕ} {loc : τ → Thread}
    (hn : m'.nodes = s.mem.nodes.alloc (.new key v top)) :
    stages ⟨m', loc⟩ .published = stages s .published := by
  show (List.range m'.nodes.length).filter _ = _
  have hlen : m'.nodes.length = s.mem.nodes.length + 1 := by simp [hn, Heap.alloc]
  rw [hlen, List.range_succ, List.filter_append]
  have hnew : ¬ 0 < m'.nodes.linkedOf s.mem.nodes.length := by
    rw [hn, Heap.linkedOf_alloc_self]
    exact Nat.lt_irrefl 0
  rw [List.filter_singleton, decide_eq_false hnew, Bool.cond_false, List.append_nil]
  refine List.filter_congr fun p hp => ?_
  rw [hn, Heap.linkedOf_alloc_of_ne (List.mem_range.mp hp).ne]

/-- A move takes at most one node from one stage to another. -/
theorem Move.stages {r : Regs} {pc : Pc} (hmv : Move maxLevel s.mem r pc m' l')
    (hl : s.loc t = .busy r pc) (hk : (s.loc t).Knows s.mem.nodes)
    (h : Partition s.mem.nodes.length (stages s)) :
    Partition m'.nodes.length (stages ⟨m', Function.update s.loc t l'⟩) := by
  rw [hl] at hk
  have hfresh : SkipList.stages s (.building t) = (Thread.busy r pc).fresh.toList := by
    rw [← hl]
    rfl
  cases hmv with
  | insAlloc =>
      simp only [Mem.allocNode, Mem.boxValue, Heap.alloc, List.length_append, List.length_singleton]
      refine h.grow (p := .building t) ?_ ?_
      · rw [building_self, hfresh]
        rfl
      · intro st hst
        cases st with
        | building u => exact building_of_ne fun hu => hst (hu ▸ rfl)
        | published => exact published_alloc_nodes rfl
        | freed => rfl
  | @published node hlk =>
      -- the CAS takes the node from the call that built it to the list
      have hlen : node < s.mem.nodes.length := hk.2.2.1.lt_length
      have hnew : ¬ s.mem.nodes.Published node := fun hp => hp.ne' hk.2.2.1.linked
      simp only [Mem.linkedAt, Mem.store, Heap.length_setLinked, Heap.length_setLink]
      refine h.exchange (p := .building t) (q := .published) (by simp) ?_ ?_
      · rw [building_self, hfresh, fresh_insUp]
        refine (List.perm_ext_iff_of_nodup nodup_published
          (List.nodup_cons.mpr ⟨fun hp => hnew (mem_published.mp hp), nodup_published⟩)).mpr ?_
        intro p
        rw [List.mem_cons, mem_published, mem_published]
        simpa using Heap.published_setLinked (h := s.mem.nodes.setLink _ 0 _) (n := 0)
          (by simpa using hlen)
      · intro st hb hp
        cases st with
        | building u => exact building_of_ne fun hu => hb (hu ▸ rfl)
        | published => exact absurd rfl hp
        | freed => rfl
  | @publishLost node lk hlk hne =>
      -- nobody else has seen the node, and the call frees it itself
      refine h.exchange (p := .building t) (q := .freed) (by simp) ?_ ?_
      · rw [building_self, hfresh]
        exact List.perm_append_singleton node s.mem.freed
      · intro st hb hf
        cases st with
        | building u => exact building_of_ne fun hu => hb (hu ▸ rfl)
        | published => rfl
        | freed => exact absurd rfl hf
  | linked hlk =>
      refine stages_quiet h (by simp [Mem.linkedAt, Mem.store]) (fun p => ?_) rfl ?_
      · refine (Heap.published_setLinked_of_published ?_).trans Heap.published_setLink
        exact Heap.published_setLink.mpr hk.2.1
      · rw [hl, fresh_insUp]
        rfl
  | insLen =>
      obtain ⟨n, hn⟩ := s.mem.incLen_eq
      rw [hn]
      exact stages_quiet h rfl (fun _ => Iff.rfl) rfl (by rw [hl]; rfl)
  | rmLen =>
      obtain ⟨n, hn⟩ := s.mem.decLen_eq
      rw [hn]
      exact stages_quiet h rfl (fun _ => Iff.rfl) rfl (by rw [hl]; rfl)
  | findDone => exact stages_quiet h rfl (fun _ => Iff.rfl) rfl (by rw [hl, fresh_found]; rfl)
  | rmPassed => exact stages_quiet h rfl (fun _ => Iff.rfl) rfl (by rw [hl, fresh_rmDown]; rfl)
  | _ =>
      exact stages_quiet h (by simp [Mem.store, Mem.swapValue, Mem.boxValue, Mem.retire, Mem.respond])
        (fun p => by simp [Mem.store, Mem.swapValue, Mem.boxValue, Mem.retire, Mem.respond]) rfl
        (by rw [hl]; rfl)

/-- **Every node is at one stage.** -/
theorem stages_split (hs : ((threads maxLevel).machine τ).Reachable s) :
    Partition s.mem.nodes.length (stages s) := by
  refine hs.invariant (I := fun s => Partition s.mem.nodes.length (stages s)) ?_ ?_
  · rintro s rfl
    refine .single (p := .published) nodup_published ?_ ?_
    · intro p
      rw [mem_published]
      refine ⟨fun hp => ?_, fun hp => hp.lt_length⟩
      -- the two sentinels are linked from the start
      match p with
      | 0 | 1 => exact (by decide : 0 < maxHeight)
      | p + 2 => exact absurd hp (by simp [threads, Mem.withMaxLevel])
    · intro st hst
      cases st with
      | published => exact absurd rfl hst
      | building u | freed => rfl
  · rintro s ⟨t, c⟩ u hr h hst
    have hv := (views maxLevel).holds hr
    obtain ⟨m', l', hst', rfl⟩ := Threads.stepOf_eq_some.mp hst
    rcases step_cases hst' with ⟨op, topLevel, -, -, hidle, rfl, rfl⟩ | ⟨r, pc, -, hl, hmv⟩
    · refine stages_quiet h rfl (fun _ => Iff.rfl) rfl ?_
      rw [hidle]
      cases op <;> rfl
    · exact hmv.stages hl (hv.own t) h

end Stages

/-! ## The holders of the cells -/

/-- The cell that an update has swapped out and not yet retired. -/
def Thread.displaced : Thread → Option ℕ
  | .busy _ (.insRetire old) => some old
  | _ => none

/-- The cell that `drop_value` is called for. -/
def Garbage.dropped : Garbage → Option ℕ
  | .cell c => some c
  | .node _ => none

/-- Who has a cell. -/
inductive Holder (τ : Type)
  /-- The value field of a node. -/
  | node (p : ℕ)
  /-- The update of thread `t`. -/
  | update (t : τ)
  | retired
deriving DecidableEq

/-- The cells each holder has. -/
def holders (s : Config τ Mem Thread) : Holder τ → List ℕ
  | .node p => (s.mem.nodes.valueOf p).toList
  | .update t => (s.loc t).displaced.toList
  | .retired => s.mem.retired.filterMap Garbage.dropped

section Holders

variable {maxLevel : ℕ} {s : Config τ Mem Thread} {t : τ} {m' : Mem} {l' : Thread} {c : ℕ}

theorem mem_retired : c ∈ holders s .retired ↔ .cell c ∈ s.mem.retired := by
  rw [holders, List.mem_filterMap]
  constructor
  · rintro ⟨g, hg, hc⟩
    cases g with
    | cell c' =>
        cases hc
        exact hg
    | node p => cases hc
  · intro hc
    exact ⟨_, hc, rfl⟩

theorem Heap.valueOf_length {h : Heap} : h.valueOf h.length = none := by
  simp [Heap.valueOf, readField]

theorem Heap.lt_length_of_valueOf {h : Heap} {p : ℕ} (hp : h.valueOf p = some c) : p < h.length := by
  by_contra hlt
  simp [Heap.valueOf, readField, List.getElem?_eq_none (Nat.le_of_not_lt hlt)] at hp

variable [DecidableEq τ]

theorem update_of_ne {u : τ} (hu : u ≠ t) :
    holders ⟨m', Function.update s.loc t l'⟩ (.update u) = holders s (.update u) := by
  show (Function.update s.loc t l' u).displaced.toList = _
  rw [Function.update_of_ne hu]
  rfl

theorem update_self :
    holders ⟨m', Function.update s.loc t l'⟩ (.update t) = l'.displaced.toList := by
  show (Function.update s.loc t l' t).displaced.toList = _
  rw [Function.update_self]

@[simp] theorem displaced_found {m : Mem} {r : Regs} {curr : ℕ} {k : After} :
    (Thread.busy r (.found m r curr k)).displaced = none := by
  cases k <;> simp only [Pc.found, Pc.rmDown] <;> (repeat' split) <;> rfl

@[simp] theorem displaced_insUp {r : Regs} {node level : ℕ} :
    (Thread.busy r (.insUp r.topLevel node level)).displaced = none := by
  rw [Pc.insUp]
  split <;> rfl

@[simp] theorem displaced_rmDown {r : Regs} {node level : ℕ} :
    (Thread.busy r (.rmDown node level)).displaced = none := by
  rw [Pc.rmDown]
  split <;> rfl

/-- A step that moves no cell. -/
theorem holders_quiet (h : Partition s.mem.cells.length (holders s)) (hcells : m'.cells = s.mem.cells)
    (hval : m'.nodes.valueOf = s.mem.nodes.valueOf)
    (hret : m'.retired.filterMap Garbage.dropped = s.mem.retired.filterMap Garbage.dropped)
    (hdis : l'.displaced = (s.loc t).displaced) :
    Partition m'.cells.length (holders ⟨m', Function.update s.loc t l'⟩) := by
  have hsame : holders ⟨m', Function.update s.loc t l'⟩ = holders s := by
    funext x
    cases x with
    | node p =>
        show (m'.nodes.valueOf p).toList = _
        rw [hval]
        rfl
    | update u =>
        by_cases hu : u = t
        · subst hu
          rw [update_self, hdis]
          rfl
        · exact update_of_ne hu
    | retired => exact hret
  rw [hcells, hsame]
  exact h

/-- An update puts a new cell into a node; what was there is in its hands now. -/
theorem holders_swap (h : Partition s.mem.cells.length (holders s)) {node : ℕ} {bytes : Bytes}
    (hnode : node < s.mem.nodes.length) (hdis : (s.loc t).displaced = none)
    (hdis' : l'.displaced = s.mem.nodes.valueOf node) :
    Partition (s.mem.cells.length + 1)
      (holders ⟨(s.mem.boxValue bytes).swapValue node s.mem.cells.length,
        Function.update s.loc t l'⟩) := by
  have hold : holders s (.update t) = [] := congrArg Option.toList hdis
  -- for a moment the node has both cells
  have hboth : Partition (s.mem.cells.length + 1)
      (Function.update (holders s) (.node node) (s.mem.cells.length :: holders s (.node node))) :=
    h.grow (by rw [Function.update_self]) fun x hx => Function.update_of_ne hx _ _
  refine hboth.exchange (p := .node node) (q := .update t) (by simp) ?_ ?_
  · rw [Function.update_self, Function.update_of_ne (by simp), hold, update_self, hdis', List.append_nil]
    show (((s.mem.nodes.setValue node (some s.mem.cells.length)).valueOf node).toList ++ _).Perm _
    rw [Heap.valueOf_setValue_self hnode]
    exact List.Perm.refl _
  · intro x hx hu
    rw [Function.update_of_ne hx]
    cases x with
    | node p =>
        show ((s.mem.nodes.setValue node (some s.mem.cells.length)).valueOf p).toList = _
        have hp : p ≠ node := fun he => hx (he ▸ rfl)
        rw [Heap.valueOf_setValue_of_ne hp]
        rfl
    | update u => exact update_of_ne fun he => hu (he ▸ rfl)
    | retired => rfl

/-- A move boxes at most one cell, and takes at most one from its holder to another. -/
theorem Move.holders {r : Regs} {pc : Pc} (hmv : Move maxLevel s.mem r pc m' l')
    (hl : s.loc t = .busy r pc) (hk : (s.loc t).Knows s.mem.nodes)
    (h : Partition s.mem.cells.length (holders s)) :
    Partition m'.cells.length (holders ⟨m', Function.update s.loc t l'⟩) := by
  rw [hl] at hk
  have hdis : SkipList.holders s (.update t) = (Thread.busy r pc).displaced.toList := by
    rw [← hl]
    rfl
  cases hmv with
  | insAlloc =>
      simp only [Mem.allocNode, Mem.boxValue, List.length_append, List.length_singleton]
      refine h.grow (p := .node s.mem.nodes.length) ?_ ?_
      · show ((s.mem.nodes.alloc _).valueOf s.mem.nodes.length).toList.Perm
          (_ :: (s.mem.nodes.valueOf s.mem.nodes.length).toList)
        rw [Heap.valueOf_alloc_self, Heap.valueOf_length]
        exact List.Perm.refl _
      · intro x hx
        cases x with
        | node p =>
            have hp : p ≠ s.mem.nodes.length := fun he => hx (he ▸ rfl)
            show ((s.mem.nodes.alloc _).valueOf p).toList = _
            rw [Heap.valueOf_alloc_of_ne hp]
            rfl
        | update u =>
            by_cases hu : u = t
            · subst hu
              rw [update_self, hdis]
              rfl
            · exact update_of_ne hu
        | retired => rfl
  | swapped hv =>
      simp only [Mem.swapValue, Mem.boxValue, List.length_append, List.length_singleton]
      exact holders_swap h hk.2.1.lt_length (by rw [hl]; rfl) hv.symm
  | swappedNull hv =>
      simp only [Mem.swapValue, Mem.boxValue, List.length_append, List.length_singleton]
      exact holders_swap h hk.2.1.lt_length (by rw [hl]; rfl) hv.symm
  | @insRetire old =>
      -- the displaced cell goes from the call that swapped it out to the garbage
      refine h.exchange (p := .update t) (q := .retired) (by simp) ?_ ?_
      · rw [update_self, hdis]
        show ((s.mem.retired ++ [Garbage.cell old]).filterMap Garbage.dropped).Perm _
        rw [List.filterMap_append]
        exact List.perm_append_singleton old _
      · intro x hu hr
        cases x with
        | node p => rfl
        | update u => exact update_of_ne fun he => hu (he ▸ rfl)
        | retired => exact absurd rfl hr
  | rmRetire =>
      -- a retired node keeps its cell, so the garbage gets none
      refine holders_quiet h rfl rfl ?_ (by rw [hl]; rfl)
      show (s.mem.retired ++ [Garbage.node _]).filterMap Garbage.dropped = _
      rw [List.filterMap_append]
      exact List.append_nil _
  | published hlk | linked hlk =>
      refine holders_quiet h rfl (by simp [Mem.linkedAt, Mem.store]) rfl ?_
      rw [hl, displaced_insUp]
      rfl
  | insLen =>
      obtain ⟨n, hn⟩ := s.mem.incLen_eq
      rw [hn]
      exact holders_quiet h rfl rfl rfl (by rw [hl]; rfl)
  | rmLen =>
      obtain ⟨n, hn⟩ := s.mem.decLen_eq
      rw [hn]
      exact holders_quiet h rfl rfl rfl (by rw [hl]; rfl)
  | findDone => exact holders_quiet h rfl rfl rfl (by rw [hl, displaced_found]; rfl)
  | rmPassed => exact holders_quiet h rfl rfl rfl (by rw [hl, displaced_rmDown]; rfl)
  | _ => exact holders_quiet h rfl (by simp [Mem.store, Mem.freeNode, Mem.respond]) rfl (by rw [hl]; rfl)

/-- **Every cell has one holder.** -/
theorem holders_split (hs : ((threads maxLevel).machine τ).Reachable s) :
    Partition s.mem.cells.length (holders s) := by
  refine hs.invariant (I := fun s => Partition s.mem.cells.length (holders s)) ?_ ?_
  · rintro s rfl
    have hnone : ∀ x, holders (τ := τ) ⟨(threads maxLevel).mem, fun _ => (threads maxLevel).loc⟩ x = [] := by
      intro x
      cases x with
      | node p =>
          match p with
          | 0 | 1 | _ + 2 => rfl
      | update u | retired => rfl
    refine .single (p := .retired) List.nodup_nil (fun c => ?_) fun x _ => hnone x
    rw [hnone]
    simp [threads, Mem.withMaxLevel]
  · rintro s ⟨t, c⟩ u hr h hst
    have hv := (views maxLevel).holds hr
    obtain ⟨m', l', hst', rfl⟩ := Threads.stepOf_eq_some.mp hst
    rcases step_cases hst' with ⟨op, topLevel, -, -, hidle, rfl, rfl⟩ | ⟨r, pc, -, hl, hmv⟩
    · refine holders_quiet h rfl rfl rfl ?_
      rw [hidle]
      cases op <;> rfl
    · exact hmv.holders hl (hv.own t) h

end Holders

/-! ## The situations of a cell -/

/-- What can be the case for a cell. -/
inductive Situation (τ : Type)
  /-- Private to the insert of thread `t`, which allocated it. -/
  | building (t : τ)
  /-- In the value field of the published node `p`. -/
  | installed (p : ℕ)
  /-- Swapped out by the update of thread `t`, which has not retired it yet. -/
  | displaced (t : τ)
  /-- Handed to `Guard::retire` with `drop_value`. -/
  | retired
  /-- Freed with a node that was never published. -/
  | freed

/-- Cell `c` is in this situation. -/
def InSituation (s : Config τ Mem Thread) (c : ℕ) : Situation τ → Prop
  | .building t => ∃ p, (s.loc t).fresh = some p ∧ s.mem.nodes.valueOf p = some c
  | .installed p => s.mem.nodes.Published p ∧ s.mem.nodes.valueOf p = some c
  | .displaced t => (s.loc t).displaced = some c
  | .retired => .cell c ∈ s.mem.retired
  | .freed => ∃ p ∈ s.mem.freed, s.mem.nodes.valueOf p = some c

section Situations

variable {maxLevel : ℕ} {s : Config τ Mem Thread} {c p : ℕ} {t : τ} {σ : Situation τ}

/-- The situation of a cell that is in a node goes by the stage of the node. -/
def Stage.situation (p : ℕ) : Stage τ → Situation τ
  | .building t => .building t
  | .published => .installed p
  | .freed => .freed

theorem mem_node : c ∈ holders s (.node p) ↔ s.mem.nodes.valueOf p = some c := Option.mem_toList

theorem mem_update : c ∈ holders s (.update t) ↔ (s.loc t).displaced = some c := Option.mem_toList

theorem mem_building : p ∈ stages s (.building t) ↔ (s.loc t).fresh = some p := Option.mem_toList

/-- The situations in terms of holders and stages. -/
theorem inSituation_iff : InSituation s c σ ↔
    (∃ p st, c ∈ holders s (.node p) ∧ p ∈ stages s st ∧ σ = st.situation p) ∨
      (∃ t, c ∈ holders s (.update t) ∧ σ = .displaced t) ∨ (c ∈ holders s .retired ∧ σ = .retired) := by
  constructor
  · intro h
    cases σ with
    | building t =>
        obtain ⟨p, hp, hc⟩ := h
        exact .inl ⟨p, .building t, mem_node.mpr hc, mem_building.mpr hp, rfl⟩
    | installed p => exact .inl ⟨p, .published, mem_node.mpr h.2, mem_published.mpr h.1, rfl⟩
    | displaced t => exact .inr (.inl ⟨t, mem_update.mpr h, rfl⟩)
    | retired => exact .inr (.inr ⟨mem_retired.mpr h, rfl⟩)
    | freed =>
        obtain ⟨p, hp, hc⟩ := h
        exact .inl ⟨p, .freed, mem_node.mpr hc, hp, rfl⟩
  · rintro (⟨p, st, hc, hp, rfl⟩ | ⟨t, hc, rfl⟩ | ⟨hc, rfl⟩)
    · have hv := mem_node.mp hc
      cases st with
      | building t => exact ⟨p, mem_building.mp hp, hv⟩
      | published => exact ⟨mem_published.mp hp, hv⟩
      | freed => exact ⟨p, hp, hv⟩
    · exact mem_update.mp hc
    · exact mem_retired.mp hc

variable [DecidableEq τ]

/-- **Each value cell has one owner**, in every interleaving of any number of calls.  A cell that was ever
allocated is in exactly one situation, is in the value field of at most one node of any kind, and is
retired at most once and only when no node has it.  A node that was never published is freed once. -/
theorem cell_has_one_owner (hs : ((threads maxLevel).machine τ).Reachable s) :
    (∀ c < s.mem.cells.length, ∃! σ : Situation τ, InSituation s c σ) ∧
      (∀ c p q, s.mem.nodes.valueOf p = some c → s.mem.nodes.valueOf q = some c → p = q) ∧
      (∀ c, s.mem.retired.count (.cell c) ≤ 1) ∧
      (∀ c p, .cell c ∈ s.mem.retired → s.mem.nodes.valueOf p ≠ some c) ∧ s.mem.freed.Nodup := by
  have hst := stages_split hs
  have hho := holders_split hs
  refine ⟨?_, ?_, ?_, ?_, hst.nodup .freed⟩
  -- who has the cell is unique, and so is the stage of a node that has it
  · intro c hc
    obtain ⟨x, hx⟩ := (hho.cover c).mp hc
    cases x with
    | node p =>
        obtain ⟨st, hp⟩ := (hst.cover p).mp (Heap.lt_length_of_valueOf (mem_node.mp hx))
        refine ⟨st.situation p, inSituation_iff.mpr (.inl ⟨p, st, hx, hp, rfl⟩), ?_⟩
        intro σ hσ
        rcases inSituation_iff.mp hσ with ⟨q, st', hx', hq, rfl⟩ | ⟨t, hx', -⟩ | ⟨hx', -⟩
        · cases hho.unique hx hx'
          rw [hst.unique hp hq]
        · cases hho.unique hx hx'
        · cases hho.unique hx hx'
    | update t =>
        refine ⟨.displaced t, inSituation_iff.mpr (.inr (.inl ⟨t, hx, rfl⟩)), ?_⟩
        intro σ hσ
        rcases inSituation_iff.mp hσ with ⟨q, st', hx', -, -⟩ | ⟨t', hx', rfl⟩ | ⟨hx', -⟩
        · cases hho.unique hx hx'
        · cases hho.unique hx hx'
          rfl
        · cases hho.unique hx hx'
    | retired =>
        refine ⟨.retired, inSituation_iff.mpr (.inr (.inr ⟨hx, rfl⟩)), ?_⟩
        intro σ hσ
        rcases inSituation_iff.mp hσ with ⟨q, st', hx', -, -⟩ | ⟨t', hx', -⟩ | ⟨-, rfl⟩
        · cases hho.unique hx hx'
        · cases hho.unique hx hx'
        · rfl
  · intro c p q hp hq
    cases hho.unique (mem_node.mpr hp) (mem_node.mpr hq)
    rfl
  · intro c
    have hnd := List.nodup_iff_count_le_one.mp (hho.nodup .retired) c
    refine le_trans ?_ hnd
    rw [holders, List.count_filterMap, List.count]
    refine List.countP_mono_left fun g _ hg => ?_
    rw [eq_of_beq hg]
    exact beq_self_eq_true _
  · intro c p hc hp
    cases hho.unique (mem_retired.mpr hc) (mem_node.mpr hp)

/-- Key 5 is inserted, and a second insert of it finds the node.  Then the key is removed and its node
retired; only after that does the second insert swap the value, and stops before it retires the old cell. -/
def lateUpdate : List (Bool × Choice) :=
  (false, .call (.insert [5] [1]) 0) :: List.replicate 7 (false, .run) ++
    (true, .call (.insert [5] [2]) 0) :: List.replicate 2 (true, .run) ++
    (false, .call (.remove [5]) 0) :: List.replicate 12 (false, .run) ++ [(true, .run)]

/-- With its last step the late update retires the first cell; the second one is in the removed node. -/
theorem cell_has_one_owner_lateUpdate :
    ∃ s : Config Bool Mem Thread, s.mem.cells.length = 2 ∧ s.mem.retired = [.node 2, .cell 0] ∧
      InSituation s 0 .retired ∧ InSituation s 1 (.installed 2) ∧
      (∀ c < 2, ∃! σ : Situation Bool, InSituation s c σ) ∧
      ∀ p, s.mem.nodes.valueOf p ≠ some 0 := by
  obtain ⟨s, hs⟩ : ∃ s, Machine.runFn (threads 0).stepOf { mem := .withMaxLevel, loc := fun _ => .idle }
      (lateUpdate ++ [(true, .run)]) = some s := ⟨_, rfl⟩
  have hr : ((threads 0).machine Bool).Reachable s := Machine.reachable_of_runFn hs
  obtain ⟨hlen, hret, hin⟩ : s.mem.cells.length = 2 ∧ s.mem.retired = [.node 2, .cell 0] ∧
      InSituation s 1 (.installed 2) := by
    cases hs
    exact ⟨rfl, rfl, Nat.one_pos, rfl⟩
  have hcell : .cell 0 ∈ s.mem.retired := by
    rw [hret]
    simp
  obtain ⟨h₁, -, -, h₄, -⟩ := cell_has_one_owner hr
  exact ⟨s, hlen, hret, hcell, hin, fun c hc => h₁ c (hlen ▸ hc), fun p => h₄ 0 p hcell⟩

/-- Between the swap and the retirement, the old cell is nobody's but the update's: it is not private to
the insert that allocated it, in no node, not retired and not freed with a node. -/
theorem displaced_cell_lateUpdate :
    ∃ s : Config Bool Mem Thread, ((threads 0).machine Bool).Reachable s ∧ 0 < s.mem.cells.length ∧
      (∀ t, ¬ InSituation s 0 (.building t)) ∧ (∀ p, s.mem.nodes.valueOf p ≠ some 0) ∧
      ¬ InSituation s 0 .retired ∧ ¬ InSituation s 0 .freed := by
  obtain ⟨s, hs⟩ : ∃ s, Machine.runFn (threads 0).stepOf { mem := .withMaxLevel, loc := fun _ => .idle }
      lateUpdate = some s := ⟨_, rfl⟩
  obtain ⟨hlen, hret, hval⟩ : s.mem.cells.length = 2 ∧ s.mem.retired = [.node 2] ∧
      s.mem.nodes.map Node.value = [none, none, some 1] := by
    cases hs
    exact ⟨rfl, rfl, rfl⟩
  have hnone : ∀ p, s.mem.nodes.valueOf p ≠ some 0 := by
    intro p
    have hp : s.mem.nodes.valueOf p = ((s.mem.nodes.map Node.value)[p]?).getD none := by
      rw [List.getElem?_map]
      rfl
    rw [hp, hval]
    match p with
    | 0 | 1 | 2 | _ + 3 => nofun
  refine ⟨s, Machine.reachable_of_runFn hs, hlen ▸ Nat.two_pos, ?_, hnone, ?_, ?_⟩
  · rintro t ⟨p, -, hp⟩
    exact hnone p hp
  · intro hc
    have hc : Garbage.cell 0 ∈ s.mem.retired := hc
    rw [hret] at hc
    simp at hc
  · rintro ⟨p, -, hp⟩
    exact hnone p hp

end Situations

end ZeroKv.SkipList
