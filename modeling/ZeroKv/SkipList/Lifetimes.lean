/-
# ZeroKv.SkipList.Lifetimes — every node and every cell is freed once.

A node is freed in one of three ways.  An insert that loses the race to publish its node frees it at once.
A remover hands its node to `Guard::retire`, and the domain frees it later.  What is left when the list goes
away is freed by the walk of `Drop for SkipList`, along level 0 and without a look at the marks.  The walk
and the domain do not know of each other: that no node falls to both of them, and none to nobody, is a fact
about the whole run.

`graves` shares out the nodes by what a removal has done to them: not marked, in the hands of the remover
that marked them, or retired.  With the stages of `Owners` and the levels of `Cleanup` it decides, for a list
at rest, what the walk meets.
-/
import ZeroKv.SkipList.Count
import ZeroKv.SkipList.Linear
import ZeroKv.SkipList.Owners
import ZeroKv.SkipList.Retire

namespace ZeroKv.SkipList

variable {τ : Type}

/-! ## The pointers of a call -/

/-- The node that a compare-exchange of a search, or of a remover at level 0, expects to find. -/
def Thread.expects : Thread → Option ℕ
  | .busy _ (.findSplice _ _ _ curr _) => some curr
  | .busy _ (.rmCas0 _ succ) => succ
  | _ => none

section Pointers

variable {maxLevel : ℕ} {m m' : Mem} {r : Regs} {pc : Pc} {th : Thread} {p q : ℕ}

@[simp] theorem expects_found {curr : ℕ} {k : After} :
    (Thread.busy r (.found m r curr k)).expects = none := by
  cases k <;> simp only [Pc.found, Pc.rmDown] <;> (repeat' split) <;> rfl

@[simp] theorem expects_insUp {node level : ℕ} :
    (Thread.busy r (.insUp r.topLevel node level)).expects = none := by
  rw [Pc.insUp]
  split <;> rfl

@[simp] theorem expects_rmDown {node level : ℕ} :
    (Thread.busy r (.rmDown node level)).expects = none := by
  rw [Pc.rmDown]
  split <;> rfl

theorem Move.expects (hmv : Move maxLevel m r pc m' th) (hs : Shape m.nodes)
    (hk : (Thread.busy r pc).Knows m.nodes) (hp : th.expects = some p) : m'.nodes.Published p := by
  cases hmv with
  | findMarked =>
      cases hp
      exact hk.2.2.1
  | rmGet0 hl | rmRetry hl =>
      cases hp
      exact hs.ref _ _ _ _ hl
  | findDone | published | linked | rmPassed => simp at hp
  | _ => cases hp

/-- What a compare-exchange expects was published. -/
def expecting (maxLevel : ℕ) : (views maxLevel).Extra where
  shared _ := True
  own m th := ∀ p, th.expects = some p → m.nodes.Published p
  apart _ _ := True
  init_shared := trivial
  init_own p hp := by cases hp
  init_apart := trivial
  keep {m l c m' l'} hs hk _ _ hst := by
    refine ⟨trivial, fun p hp => ?_⟩
    rcases step_cases hst with ⟨op, topLevel, -, -, -, rfl, rfl⟩ | ⟨r, pc, -, rfl, hmv⟩
    · cases op <;> cases hp
    · exact hmv.expects hs hk hp
  bystander {m l c m' l' b} hs hk _ _ _ _ hb _ _ hst :=
    ⟨fun p hp => ((step_write hs hk hst).1.later hs).published p (hb p hp), trivial, trivial⟩

theorem After.Knows.published {h : Heap} {a : After} (ha : a.Knows h)
    (hgone : ∀ p, h.Gone p → h.Published p) : ∀ q ∈ a.nodes, h.Published q := by
  cases a with
  | relink node level => exact List.forall_mem_singleton.mpr ha.1
  | clean node => exact List.forall_mem_singleton.mpr (hgone _ ha)
  | insert | remove => exact List.forall_mem_nil _

/-- The node a call has a pointer to was published, or it is the call's own. -/
theorem Thread.Knows.published_or_fresh {h : Heap} (hk : th.Knows h)
    (hexp : ∀ p, th.expects = some p → h.Published p) (hgone : ∀ p, h.Gone p → h.Published p)
    (hq : th.Holds q) : h.Published q ∨ th.fresh = some q := by
  cases th with
  | idle => exact hq.elim
  | busy r pc =>
      obtain ⟨hr, hk⟩ := hk
      rcases hq with ⟨l, rfl | rfl⟩ | hq
      · exact .inl (hr l).1
      · exact .inl (hr l).2
      · cases pc with
        | insInit node level | insPub node =>
            rw [List.mem_singleton.mp hq]
            exact .inr rfl
        | findRef a level pred =>
            exact .inl (List.forall_mem_cons.mpr ⟨hk.1.1, hk.2.published hgone⟩ q hq)
        | findGet a level pred curr =>
            exact .inl (List.forall_mem_cons.mpr
              ⟨hk.1.1, List.forall_mem_cons.mpr ⟨hk.2.1, hk.2.2.published hgone⟩⟩ q hq)
        | findSplice a level pred curr succ =>
            exact .inl (List.forall_mem_cons.mpr ⟨hk.1.1, List.forall_mem_cons.mpr ⟨hexp _ rfl,
              List.forall_mem_cons.mpr ⟨hk.2.1, hk.2.2.2.published hgone⟩⟩⟩ q hq)
        | getGet level pred curr =>
            exact .inl (List.forall_mem_cons.mpr ⟨hk.1.1, List.forall_mem_singleton.mpr hk.2⟩ q hq)
        | getRef level pred | insSwap node | getMark node | getVal node | rmGet0 node | rmCas0 node o
        | insStore node level | insLink node level =>
            exact .inl (List.forall_mem_singleton.mpr hk.1 q hq)
        | rmGet node level | rmMark node level o | rmChk node b =>
            exact .inl (List.forall_mem_singleton.mpr hk.1.1 q hq)
        | rmLen node | rmRetire node => exact .inl (List.forall_mem_singleton.mpr (hgone _ hk) q hq)
        | insAlloc | insLen | insRetire old | ret v => cases hq

section Stage

variable [DecidableEq τ] {s : Config τ Mem Thread} (hs : ((threads maxLevel).machine τ).Reachable s) {t : τ}
  (hq : (s.loc t).Holds q)
include hs hq

/-- What a call has a pointer to is published or under construction. -/
theorem exists_stage : ∃ st, q ∈ stages s st ∧ st ≠ .freed := by
  have hi := ((views maxLevel).and (expecting maxLevel)).holds hs
  rcases (hi.own t).1.published_or_fresh (hi.own t).2 hi.shared.1.gone hq with hp | hp
  · exact ⟨.published, mem_published.mpr hp, by simp⟩
  · exact ⟨.building t, mem_building.mpr hp, by simp⟩

/-- No call has a pointer to a node that was freed before it was published. -/
theorem not_freed_of_holds : q ∉ s.mem.freed := by
  intro hf
  obtain ⟨st, hst, hne⟩ := exists_stage hs hq
  exact hne ((stages_split hs).unique (q := .freed) hst hf)

theorem lt_length_of_holds : q < s.mem.nodes.length := by
  obtain ⟨st, hst, -⟩ := exists_stage hs hq
  exact (stages_split hs).lt hst

end Stage

/-- The node that a remover is at was on the bottom level, and so was the one it expects to find behind it. -/
def Pc.Saw (W : Set Mem) : Pc → Prop
  | .rmGet node _ | .rmMark node _ _ | .rmGet0 node | .rmChk node _ => Met 0 W node
  | .rmCas0 node succ => Met 0 W node ∧ ∀ e ∈ succ, Met 0 W e
  | _ => True

def Thread.Saw (W : Set Mem) : Thread → Prop
  | .idle => True
  | .busy _ pc => pc.Saw W

theorem Thread.Saw.mono {W W' : Set Mem} (h : th.Saw W) (hW : W ⊆ W') : th.Saw W' := by
  cases th with
  | idle => trivial
  | busy r pc =>
      cases pc with
      | rmGet | rmMark | rmGet0 | rmChk => exact Met.mono h hW
      | rmCas0 node succ => exact ⟨h.1.mono hW, fun e he => (h.2 e he).mono hW⟩
      | _ => trivial

theorem Move.saw {W : Set Mem} {m m' : Mem} {r : Regs} {pc : Pc} (hmv : Move maxLevel m r pc m' th)
    (he : Era maxLevel W m) (hw : pc.Walks W) (h : pc.Saw W) : th.Saw W := by
  have hbehind : ∀ {node o b}, Met 0 W node → m.nodes.link node 0 = some ⟨o, b⟩ →
      ∀ e ∈ o, Met 0 W e := by
    rintro node o b hn hl e rfl
    exact he.met_next (Nat.zero_le _) hn hl
  have hdown : ∀ {node level}, Met 0 W node → (Pc.rmDown node level).Saw W := by
    intro node level hn
    rw [Pc.rmDown]
    split <;> exact hn
  cases hmv with
  | @findDone a pred curr =>
      cases a with
      | remove =>
          rw [Thread.Saw, Pc.found]
          split
          · exact hdown hw.2
          · trivial
      | insert =>
          rw [Thread.Saw, Pc.found]
          split <;> trivial
      | relink | clean => trivial
  | published | linked =>
      rw [Thread.Saw, Pc.insUp]
      split <;> trivial
  | rmPassed => exact hdown h
  | rmGet | rmMarked | rmMarkLost => exact h
  | rmGet0 hl | rmRetry hl => exact ⟨h, hbehind h hl⟩
  | removed | removeLost => exact h.1
  | _ => trivial

end Pointers

/-! ## The nodes that are removed -/

/-- The node that a remover has marked and not yet retired. -/
def Thread.removing : Thread → Option ℕ
  | .busy _ (.rmChk node true) | .busy _ (.findRef (.clean node) _ _)
  | .busy _ (.findGet (.clean node) _ _ _) | .busy _ (.findSplice (.clean node) _ _ _ _)
  | .busy _ (.rmLen node) | .busy _ (.rmRetire node) => some node
  | _ => none

/-- The node that `drop_node` is called for. -/
def Garbage.buried : Garbage → Option ℕ
  | .node p => some p
  | .cell _ => none

/-- Is the level-0 link marked? -/
def Heap.isGone (h : Heap) (p : ℕ) : Bool := (h.link p 0).any Link.mark

/-- What a removal has done to a node. -/
inductive Grave (τ : Type)
  | standing
  /-- Marked by the remover `t`, which has not retired it yet. -/
  | removing (t : τ)
  | retired

/-- The nodes at each point of a removal. -/
def graves (s : Config τ Mem Thread) : Grave τ → List ℕ
  | .standing => (List.range s.mem.nodes.length).filter fun p => !s.mem.nodes.isGone p
  | .removing t => (s.loc t).removing.toList
  | .retired => s.mem.retired.filterMap Garbage.buried

theorem Heap.isGone_iff {h : Heap} {p : ℕ} : h.isGone p = true ↔ h.Gone p := by
  rw [Heap.isGone, Option.any_eq_true]
  constructor
  · rintro ⟨⟨o, mk⟩, hl, hm⟩
    cases hm
    exact ⟨o, hl⟩
  · rintro ⟨o, hl⟩
    exact ⟨_, hl, rfl⟩

theorem mem_standing {s : Config τ Mem Thread} {p : ℕ} :
    p ∈ graves s .standing ↔ p < s.mem.nodes.length ∧ ¬ s.mem.nodes.Gone p := by
  rw [graves, List.mem_filter, List.mem_range, ← Heap.isGone_iff, Bool.not_eq_true']
  simp

theorem nodup_standing {s : Config τ Mem Thread} : (graves s .standing).Nodup :=
  List.nodup_range.filter _

theorem mem_buried {s : Config τ Mem Thread} {p : ℕ} :
    p ∈ graves s .retired ↔ .node p ∈ s.mem.retired := by
  rw [graves, List.mem_filterMap]
  constructor
  · rintro ⟨g, hg, hp⟩
    cases g with
    | node p' =>
        cases hp
        exact hg
    | cell c => cases hp
  · exact fun hp => ⟨_, hp, rfl⟩

section Graves

variable [DecidableEq τ] {maxLevel : ℕ} {s : Config τ Mem Thread} {t : τ} {m' : Mem} {l' : Thread}
  {r : Regs} {pc : Pc} {p : ℕ}

theorem removing_of_ne {u : τ} (hu : u ≠ t) :
    graves ⟨m', Function.update s.loc t l'⟩ (.removing u) = graves s (.removing u) := by
  show (Function.update s.loc t l' u).removing.toList = _
  rw [Function.update_of_ne hu]
  rfl

theorem removing_self :
    graves ⟨m', Function.update s.loc t l'⟩ (.removing t) = l'.removing.toList := by
  show (Function.update s.loc t l' t).removing.toList = _
  rw [Function.update_self]

omit [DecidableEq τ] in
theorem standing_congr {loc loc' : τ → Thread} {m : Mem} (hlen : m'.nodes.length = m.nodes.length)
    (hgone : ∀ p, m'.nodes.Gone p ↔ m.nodes.Gone p) :
    graves ⟨m', loc'⟩ .standing = graves ⟨m, loc⟩ .standing := by
  show List.filter _ (List.range m'.nodes.length) = List.filter _ (List.range m.nodes.length)
  rw [hlen]
  refine List.filter_congr fun p _ => ?_
  rw [Bool.eq_iff_iff.mpr ((Heap.isGone_iff.trans (hgone p)).trans Heap.isGone_iff.symm)]

/-- A step that neither allocates, marks nor retires a node. -/
theorem graves_quiet (h : Partition s.mem.nodes.length (graves s))
    (hlen : m'.nodes.length = s.mem.nodes.length)
    (hgone : ∀ p, m'.nodes.Gone p ↔ s.mem.nodes.Gone p)
    (hret : m'.retired.filterMap Garbage.buried = s.mem.retired.filterMap Garbage.buried)
    (hrem : l'.removing = (s.loc t).removing) :
    Partition m'.nodes.length (graves ⟨m', Function.update s.loc t l'⟩) := by
  have hsame : graves ⟨m', Function.update s.loc t l'⟩ = graves s := by
    funext g
    cases g with
    | standing => exact standing_congr hlen hgone
    | removing u =>
        by_cases hu : u = t
        · subst hu
          rw [removing_self, hrem]
          rfl
        · exact removing_of_ne hu
    | retired => exact hret
  rw [hlen, hsame]
  exact h

@[simp] theorem removing_insUp {node level : ℕ} :
    (Thread.busy r (.insUp r.topLevel node level)).removing = none := by
  rw [Pc.insUp]
  split <;> rfl

@[simp] theorem removing_rmDown {node level : ℕ} :
    (Thread.busy r (.rmDown node level)).removing = none := by
  rw [Pc.rmDown]
  split <;> rfl

/-- The caller of a search goes on with the node it is removing. -/
theorem removing_found {m : Mem} {r' : Regs} {curr level pred : ℕ} {k : After} :
    (Thread.busy r' (.found m r' curr k)).removing =
      (Thread.busy r (.findGet k level pred curr)).removing := by
  cases k <;> simp only [Pc.found, Pc.rmDown] <;> (repeat' split) <;> rfl

theorem Move.gone_iff {m : Mem} (hmv : Move maxLevel m r pc m' l') (hs : Shape m.nodes)
    (hk : (Thread.busy r pc).Knows m.nodes) (hpc : ∀ p o, pc ≠ .rmCas0 p o) (p : ℕ) :
    m'.nodes.Gone p ↔ m.nodes.Gone p := by
  refine ⟨fun hp => ?_, ((hmv.write hs hk).later hs).gone⟩
  rcases hmv.gone_cases hk hp with hp | ⟨o, rfl, -⟩
  · exact hp
  · exact absurd rfl (hpc p o)

omit [DecidableEq τ] in
/-- The new node of an insert is not marked. -/
theorem standing_alloc {loc : τ → Thread} (hlen : m'.nodes.length = s.mem.nodes.length + 1)
    (hgone : ∀ p, m'.nodes.Gone p ↔ s.mem.nodes.Gone p) :
    (graves ⟨m', loc⟩ .standing).Perm (s.mem.nodes.length :: graves s .standing) := by
  refine (List.perm_ext_iff_of_nodup nodup_standing (List.nodup_cons.mpr
    ⟨fun hn => lt_irrefl _ (mem_standing.mp hn).1, nodup_standing⟩)).mpr fun p => ?_
  rw [List.mem_cons, mem_standing, mem_standing, hlen, hgone, Nat.lt_succ_iff_lt_or_eq]
  have hnew : ¬ s.mem.nodes.Gone s.mem.nodes.length := fun hg => lt_irrefl _ (lt_length_of_gone hg)
  grind

omit [DecidableEq τ] in
/-- A node is marked. -/
theorem standing_mark {loc : τ → Thread} (hlen : m'.nodes.length = s.mem.nodes.length)
    (hp : p < s.mem.nodes.length) (hnew : ¬ s.mem.nodes.Gone p)
    (hgone : ∀ q, m'.nodes.Gone q ↔ q = p ∨ s.mem.nodes.Gone q) :
    (graves ⟨m', loc⟩ .standing ++ [p]).Perm (graves s .standing) := by
  refine (List.perm_ext_iff_of_nodup ?_ nodup_standing).mpr fun q => ?_
  · refine List.nodup_append.mpr ⟨nodup_standing, List.nodup_singleton p, ?_⟩
    rintro a ha b hb rfl
    rw [List.mem_singleton.mp hb] at ha
    exact (mem_standing.mp ha).2 ((hgone p).mpr (.inl rfl))
  · rw [List.mem_append, List.mem_singleton, mem_standing, mem_standing, hlen, hgone]
    grind

/-- A move takes at most one node from one place to another. -/
theorem Move.graves (hmv : Move maxLevel s.mem r pc m' l') (hl : s.loc t = .busy r pc)
    (hs : Shape s.mem.nodes) (hk : (s.loc t).Knows s.mem.nodes)
    (h : Partition s.mem.nodes.length (graves s)) :
    Partition m'.nodes.length (graves ⟨m', Function.update s.loc t l'⟩) := by
  rw [hl] at hk
  have hrem : SkipList.graves s (.removing t) = (Thread.busy r pc).removing.toList := by
    rw [← hl]
    rfl
  have hgone := hmv.gone_iff hs hk
  cases hmv with
  | insAlloc =>
      have hlen : ((s.mem.boxValue r.val).allocNode (.new (.fin (.new r.key)) (some s.mem.cells.length)
          r.topLevel)).nodes.length = s.mem.nodes.length + 1 := by
        simp [Mem.allocNode, Mem.boxValue, Heap.alloc]
      rw [hlen]
      refine h.grow (p := .standing) (standing_alloc hlen (hgone (by simp))) ?_
      intro g hg
      cases g with
      | standing => exact absurd rfl hg
      | removing u =>
          by_cases hu : u = t
          · subst hu
            rw [removing_self, hrem]
            rfl
          · exact removing_of_ne hu
      | retired => rfl
  | @removed node succ hlk =>
      -- the compare-exchange that decides the removal: the node is the remover's now
      have hlen : (s.mem.store node 0 ⟨succ, true⟩).nodes.length = s.mem.nodes.length := Heap.length_setLink
      rw [hlen]
      refine h.exchange (p := .standing) (q := .removing t) (by simp) ?_ ?_
      · rw [removing_self, hrem]
        refine (standing_mark hlen (Heap.lt_length_of_link hlk) (Heap.UnmarkedAt.not_marked ⟨_, hlk⟩)
          fun q => gone_mark hlk).trans ?_
        exact (List.append_nil _).symm ▸ .refl _
      · intro g hst hrm
        cases g with
        | standing => exact absurd rfl hst
        | removing u => exact removing_of_ne fun hu => hrm (hu ▸ rfl)
        | retired => rfl
  | @rmRetire node =>
      refine h.exchange (p := .removing t) (q := .retired) (by simp) ?_ ?_
      · rw [removing_self, hrem]
        show ((s.mem.retired ++ [Garbage.node node]).filterMap Garbage.buried).Perm _
        rw [List.filterMap_append]
        exact List.perm_append_singleton node _
      · intro g hrm hret
        cases g with
        | standing => exact standing_congr rfl fun _ => Iff.rfl
        | removing u => exact removing_of_ne fun hu => hrm (hu ▸ rfl)
        | retired => exact absurd rfl hret
  | insRetire =>
      refine graves_quiet h rfl (hgone (by simp)) ?_ (by rw [hl]; rfl)
      simp [Mem.retire, Garbage.buried]
  | insLen =>
      obtain ⟨n, hn⟩ := s.mem.incLen_eq
      rw [hn]
      exact graves_quiet h rfl (fun _ => Iff.rfl) rfl (by rw [hl]; rfl)
  | rmLen =>
      obtain ⟨n, hn⟩ := s.mem.decLen_eq
      rw [hn]
      exact graves_quiet h rfl (fun _ => Iff.rfl) rfl (by rw [hl]; rfl)
  | findDone =>
      refine graves_quiet h rfl (hgone (by simp)) rfl ?_
      rw [hl]
      exact removing_found
  | @findRef a | @findMarked a | @findNext a | @findDown a | @spliced a | @spliceLost a =>
      refine graves_quiet h (by simp [Mem.store]) (hgone (by simp)) rfl ?_
      rw [hl]
      cases a <;> rfl
  | published | linked =>
      refine graves_quiet h (by simp [Mem.store, Mem.linkedAt]) (hgone (by simp)) rfl ?_
      rw [hl, removing_insUp]
      rfl
  | rmPassed =>
      refine graves_quiet h rfl (hgone (by simp)) rfl ?_
      rw [hl, removing_rmDown]
      rfl
  | removeLost => exact graves_quiet h rfl (fun _ => Iff.rfl) rfl (by rw [hl]; rfl)
  | _ =>
      exact graves_quiet h (by simp [Mem.store, Mem.swapValue, Mem.boxValue, Mem.respond, Mem.freeNode])
        (hgone (by simp)) rfl (by rw [hl]; rfl)

/-- **Every node is at one point of its removal.** -/
theorem graves_split (hs : ((threads maxLevel).machine τ).Reachable s) :
    Partition s.mem.nodes.length (graves s) := by
  refine hs.invariant (I := fun s => Partition s.mem.nodes.length (graves s)) ?_ ?_
  · rintro s rfl
    refine .single (p := .standing) nodup_standing ?_ ?_
    · intro p
      rw [mem_standing]
      refine ⟨fun hp => ⟨hp, ?_⟩, And.left⟩
      rintro ⟨o, ho⟩
      match p with
      | 0 | 1 => cases ho
      | p + 2 => exact absurd hp (by simp [threads, Mem.withMaxLevel])
    · intro g hg
      cases g with
      | standing => exact absurd rfl hg
      | removing u | retired => rfl
  · rintro s ⟨t, c⟩ u hr h hst
    have hv := (views maxLevel).holds hr
    obtain ⟨m', l', hst', rfl⟩ := Threads.stepOf_eq_some.mp hst
    rcases step_cases hst' with ⟨op, topLevel, -, -, hidle, rfl, rfl⟩ | ⟨r, pc, -, hl, hmv⟩
    · refine graves_quiet h rfl (fun _ => Iff.rfl) rfl ?_
      rw [hidle]
      cases op <;> rfl
    · exact hmv.graves hl hv.shared (hv.own t) h

end Graves

/-! ## What is retired -/

/-- What a call hands to `Guard::retire` at its program point. -/
def Pc.retires : Pc → Option Garbage
  | .insRetire old => some (.cell old)
  | .rmRetire node => some (.node node)
  | _ => none

theorem Pc.eq_of_retires_node {pc : Pc} {q : ℕ} (h : pc.retires = some (.node q)) :
    pc = .rmRetire q := by
  cases pc <;> cases h
  rfl

theorem Move.retired_eq {maxLevel : ℕ} {m m' : Mem} {r : Regs} {pc : Pc} {th : Thread}
    (hmv : Move maxLevel m r pc m' th) : m'.retired = m.retired ++ pc.retires.toList := by
  cases hmv with
  | insRetire | rmRetire => rfl
  | insLen =>
      obtain ⟨n, hn⟩ := m.incLen_eq
      rw [hn]
      exact (List.append_nil _).symm
  | rmLen =>
      obtain ⟨n, hn⟩ := m.decLen_eq
      rw [hn]
      exact (List.append_nil _).symm
  | _ => exact (List.append_nil _).symm

section Retired

variable [DecidableEq τ] {maxLevel : ℕ} {s : Config τ Mem Thread} {q : ℕ}

/-- **A retired node is on no level.** -/
theorem lost_of_retired (hmax : maxLevel < maxHeight)
    (hs : (((threads maxLevel).restrict keepsLevels).machine τ).Reachable s)
    (hq : .node q ∈ s.mem.retired) : Lost maxLevel s.mem.nodes q := by
  refine hs.invariant (I := fun s => ∀ q, .node q ∈ s.mem.retired → Lost maxLevel s.mem.nodes q)
    ?_ ?_ q hq
  · rintro s rfl q hq
    cases hq
  · rintro s ⟨t, c⟩ u hr ih hst q hq
    obtain ⟨m', l', hml, rfl⟩ := Threads.stepOf_eq_some.mp hst
    have hadv := advance_of_step hmax hr hml
    rcases step_cases (Threads.restrict_step.mp hml).2 with
      ⟨op, topLevel, -, -, -, rfl, -⟩ | ⟨r, pc, -, hl, hmv⟩
    · exact (ih q hq).advance hadv
    · rw [show (Config.mk m' _).mem = m' from rfl, hmv.retired_eq, List.mem_append] at hq
      rcases hq with hq | hq
      · exact (ih q hq).advance hadv
      · -- the remover has cleaned up before it retires
        have hown := (((leveled maxLevel hmax).and (cleanup maxLevel hmax)).holds hr).own t
        have hlost : Lost maxLevel s.mem.nodes q := by
          rw [hl, Pc.eq_of_retires_node (Option.mem_toList.mp hq)] at hown
          exact ⟨hown.1.1.1.2, (hown.2 q rfl).cleans⟩
        exact hlost.advance hadv

end Retired

/-! ## The value fields -/

section Values

variable {maxLevel : ℕ} {m m' : Mem} {r : Regs} {pc : Pc} {a a' : Thread} {c : Choice} {p v : ℕ}

theorem Heap.valueOf_setValue_cases {h : Heap} {q : ℕ} {w : Option ℕ}
    (hp : (h.setValue q w).valueOf p = some v) : h.valueOf p = some v ∨ w = some v := by
  by_cases he : p = q
  · subst he
    have hlt : p < h.length := by simpa using Heap.lt_length_of_valueOf hp
    exact .inr ((Heap.valueOf_setValue_self hlt).symm.trans hp)
  · exact .inl ((Heap.valueOf_setValue_of_ne he).symm.trans hp)

theorem Heap.valueOf_alloc_cases {h : Heap} {nd : Node} (hp : (h.alloc nd).valueOf p = some v) :
    h.valueOf p = some v ∨ nd.value = some v := by
  by_cases he : p = h.length
  · subst he
    exact .inr (Heap.valueOf_alloc_self.symm.trans hp)
  · exact .inl ((Heap.valueOf_alloc_of_ne he).symm.trans hp)

/-- A value field gets a new cell or keeps the one it has. -/
theorem Move.valueOf_cases (hmv : Move maxLevel m r pc m' a') (hp : m'.nodes.valueOf p = some v) :
    m.nodes.valueOf p = some v ∨ v = m.cells.length := by
  cases hmv with
  | insAlloc =>
      exact (Heap.valueOf_alloc_cases hp).imp_right fun he => (Option.some.inj he).symm
  | swapped | swappedNull =>
      exact (Heap.valueOf_setValue_cases hp).imp_right fun he => (Option.some.inj he).symm
  | insLen => exact .inl (by rwa [Mem.nodes_incLen] at hp)
  | rmLen => exact .inl (by rwa [Mem.nodes_decLen] at hp)
  | published | linked =>
      refine .inl ?_
      simpa [Mem.store, Mem.linkedAt] using hp
  | _ =>
      refine .inl ?_
      simpa [Mem.store, Mem.freeNode, Mem.retire, Mem.respond] using hp

theorem Move.cells_le (hmv : Move maxLevel m r pc m' a') : m.cells.length ≤ m'.cells.length := by
  cases hmv with
  | insAlloc | swapped | swappedNull => simp [Mem.boxValue, Mem.allocNode, Mem.swapValue]
  | insLen =>
      obtain ⟨n, hn⟩ := m.incLen_eq
      rw [hn]
  | rmLen =>
      obtain ⟨n, hn⟩ := m.decLen_eq
      rw [hn]
  | _ => exact le_rfl

/-- No step puts an old cell into a value field. -/
theorem step_values (hst : step maxLevel m a c = some (m', a')) :
    m.cells.length ≤ m'.cells.length ∧
      ∀ p v, m'.nodes.valueOf p = some v → m.nodes.valueOf p = some v ∨ v = m.cells.length := by
  rcases step_cases hst with ⟨op, topLevel, -, -, -, rfl, -⟩ | ⟨r, pc, -, -, hmv⟩
  · exact ⟨le_rfl, fun p v hp => .inl hp⟩
  · exact ⟨hmv.cells_le, fun p v hp => hmv.valueOf_cases hp⟩

end Values

/-! ## The end of the list -/

/-- The loop of `Drop for SkipList`: read the level-0 link of a node, free the node, go on.  A node that is
freed already can be neither read nor freed. -/
def dropWalk (h : Heap) : ℕ → List ℕ → Option ℕ → Option (List ℕ)
  | _, freed, none => some freed
  | 0, _, some _ => none
  | fuel + 1, freed, some cur =>
      if cur ∈ freed then none
      else do
        let next ← h.link cur 0
        dropWalk h fuel (freed ++ [cur]) next.ref

/-- Along a chain to the tail the walk frees every node once. -/
theorem dropWalk_chain {h : Heap} {ch freed : List ℕ} {fuel : ℕ} (hch : ch.IsChain (h.NextAt 0))
    (hlast : ch.getLast? = some tail) (htail : h.link tail 0 = some ⟨none, false⟩) (hnd : ch.Nodup)
    (hnew : ∀ p ∈ ch, p ∉ freed) (hfuel : ch.length ≤ fuel) :
    dropWalk h fuel freed ch.head? = some (freed ++ ch) := by
  induction ch generalizing freed fuel with
  | nil => cases hlast
  | cons p rest ih =>
      obtain ⟨k, rfl⟩ : ∃ k, fuel = k + 1 := ⟨fuel - 1, by simp at hfuel; omega⟩
      rw [List.head?_cons, dropWalk, if_neg (hnew p List.mem_cons_self)]
      cases rest with
      | nil =>
          have hp : p = tail := by simpa using hlast
          rw [hp, htail]
          simp [dropWalk]
      | cons q c =>
          obtain ⟨⟨b, hq⟩, hch⟩ := List.isChain_cons_cons.mp hch
          obtain ⟨hp, hnd⟩ := List.nodup_cons.mp hnd
          rw [hq]
          show dropWalk h k (freed ++ [p]) (List.head? (q :: c)) = _
          rw [ih hch (by simpa using hlast) hnd ?_ (by simpa using hfuel), List.append_assoc]
          · rfl
          · intro x hx hf
            rcases List.mem_append.mp hf with hf | hf
            · exact hnew x (List.mem_cons_of_mem p hx) hf
            · exact hp (List.mem_singleton.mp hf ▸ hx)

section Teardown

variable [DecidableEq τ] {maxLevel : ℕ} {s : Config τ Mem Thread}

/-- Of a list at rest: the nodes that were freed before they were published, the retired ones and the ones
on the chain of level 0 are all the nodes. -/
theorem nodes_at_rest (hmax : maxLevel < maxHeight)
    (hs : (((threads maxLevel).restrict keepsLevels).machine τ).Reachable s)
    (hrest : ∀ t, s.loc t = .idle) {ch : List ℕ} (hb : Bottom s.mem.nodes ch) :
    (s.mem.freed ++ graves s .retired ++ ch).Perm (List.range s.mem.nodes.length) := by
  have hs' := Threads.reachable_of_restrict hs
  have hgraves := graves_split hs'
  have hstages := stages_split hs'
  have hshape := ((views maxLevel).holds hs').shared
  have htop := ((leveled maxLevel hmax).holds hs).shared.1.2
  -- the three lists are disjoint: a retired node is off the chain, and a freed one was never published
  have hret : ∀ p, p ∈ graves s .retired → s.mem.nodes.Gone p ∧ p ∉ ch := by
    intro p hp
    have hlost := lost_of_retired hmax hs (mem_buried.mp hp)
    exact ⟨hlost.gone, fun hc => hlost.off 0 (Nat.zero_le _) (hb.onLevel_iff.mpr hc)⟩
  have hfreed : ∀ p, p ∈ s.mem.freed → ¬ s.mem.nodes.Published p := by
    intro p hp hpub
    cases hstages.unique (p := .freed) (q := .published) hp (mem_published.mpr hpub)
  refine (List.perm_ext_iff_of_nodup ?_ List.nodup_range).mpr fun p => ?_
  · refine List.nodup_append.mpr ⟨List.nodup_append.mpr
      ⟨hstages.nodup .freed, hgraves.nodup .retired, ?_⟩, hb.nodup, ?_⟩
    · rintro p hp q hq rfl
      exact hfreed p hp (hshape.gone p (hret p hq).1)
    · rintro p hp q hq rfl
      rcases List.mem_append.mp hp with hp | hp
      · exact hfreed p hp (hb.published p hq)
      · exact (hret p hp).2 hq
  · rw [List.mem_append, List.mem_append, List.mem_range]
    constructor
    · rintro ((hp | hp) | hp)
      · exact (hstages.cover p).mpr ⟨.freed, hp⟩
      · exact hgraves.lt hp
      · exact (hb.published p hp).lt_length
    · intro hp
      -- no thread is at work, so nothing is being built or removed
      obtain ⟨st, hst⟩ := (hstages.cover p).mp hp
      obtain ⟨g, hg⟩ := (hgraves.cover p).mp hp
      cases st with
      | freed => exact .inl (.inl hst)
      | building t =>
          rw [mem_building, hrest] at hst
          cases hst
      | published =>
          cases g with
          | retired => exact .inl (.inr hg)
          | removing t =>
              rw [graves, hrest] at hg
              cases hg
          | standing =>
              obtain ⟨hp, hg⟩ := mem_standing.mp hg
              obtain ⟨lk, hl⟩ := Option.isSome_iff_exists.mp ((htop.tall p hp 0).mpr (Nat.zero_le _))
              have hu := (Heap.marked_or_unmarked hl).resolve_left hg
              exact .inr (hb.complete p (mem_published.mp hst) hu)

omit [DecidableEq τ] in
/-- Of a list at rest: a cell is retired, or it is the value of one node. -/
theorem cells_at_rest (hholders : Partition s.mem.cells.length (holders s))
    (hrest : ∀ t, s.loc t = .idle) :
    (holders s .retired ++ (List.range s.mem.nodes.length).filterMap s.mem.nodes.valueOf).Perm
      (List.range s.mem.cells.length) := by
  have hmem : ∀ c, c ∈ (List.range s.mem.nodes.length).filterMap s.mem.nodes.valueOf ↔
      ∃ p, c ∈ holders s (.node p) := by
    intro c
    simp only [List.mem_filterMap, List.mem_range, mem_node]
    exact ⟨fun ⟨p, _, hp⟩ => ⟨p, hp⟩, fun ⟨p, hp⟩ => ⟨p, Heap.lt_length_of_valueOf hp, hp⟩⟩
  refine (List.perm_ext_iff_of_nodup ?_ List.nodup_range).mpr fun c => ?_
  · refine List.nodup_append.mpr ⟨hholders.nodup .retired, List.nodup_range.filterMap ?_, ?_⟩
    · intro p p' c hp hp'
      cases hholders.unique (mem_node.mpr hp) (mem_node.mpr hp')
      rfl
    · rintro c hc c' hc' rfl
      obtain ⟨p, hp⟩ := (hmem c).mp hc'
      cases hholders.unique hc hp
  · rw [List.mem_append, hmem, List.mem_range, hholders.cover]
    constructor
    · rintro (hc | ⟨p, hc⟩)
      · exact ⟨_, hc⟩
      · exact ⟨_, hc⟩
    · rintro ⟨x, hc⟩
      cases x with
      | node p => exact .inr ⟨p, hc⟩
      | retired => exact .inl hc
      | update t =>
          rw [mem_update, hrest] at hc
          cases hc

/-- **Everything is freed once.**  Let no call be in progress, and let the domain have reclaimed any of the
retired nodes.  The walk of `drop` then runs to its end and meets no freed node; what was freed before it,
what is retired and what it frees are all the nodes, each once; and the cells in the value fields of these
nodes together with the retired cells are all the cells, each once. -/
theorem drop_frees_once (hmax : maxLevel < maxHeight)
    (hs : (((threads maxLevel).restrict keepsLevels).machine τ).Reachable s)
    (hrest : ∀ t, s.loc t = .idle) :
    ∃ ch : List ℕ,
      (∀ reclaimed ⊆ graves s .retired, ∀ fuel ≥ s.mem.nodes.length,
        dropWalk s.mem.nodes fuel (s.mem.freed ++ reclaimed) (some head) =
          some (s.mem.freed ++ reclaimed ++ ch)) ∧
      (s.mem.freed ++ graves s .retired ++ ch).Perm (List.range s.mem.nodes.length) ∧
      (holders s .retired ++
        (s.mem.freed ++ graves s .retired ++ ch).filterMap s.mem.nodes.valueOf).Perm
          (List.range s.mem.cells.length) := by
  have hs' := Threads.reachable_of_restrict hs
  obtain ⟨ch, hb⟩ := ((views maxLevel).holds hs').shared.chain
  have hperm := nodes_at_rest hmax hs hrest hb
  obtain ⟨-, hnd, hdisj⟩ := List.nodup_append.mp (hperm.nodup_iff.mpr List.nodup_range)
  refine ⟨ch, fun reclaimed hsub fuel hfuel => ?_, hperm, ?_⟩
  · rw [← hb.first]
    refine dropWalk_chain hb.linked hb.last hb.tail_link hnd ?_ (le_trans ?_ hfuel)
    · intro p hp hf
      refine hdisj p ?_ p hp rfl
      rcases List.mem_append.mp hf with hf | hf
      · exact List.mem_append_left _ hf
      · exact List.mem_append_right _ (hsub hf)
    · have hlen := hperm.length_eq
      simp only [List.length_append, List.length_range] at hlen
      omega
  · exact ((hperm.filterMap _).append_left _).trans (cells_at_rest (holders_split hs') hrest)

end Teardown

end ZeroKv.SkipList
