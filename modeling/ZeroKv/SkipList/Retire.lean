/-
# ZeroKv.SkipList.Retire — what is still linked to a retired node.

`remove` hands its node to `Guard::retire`, whose contract is that no thread can get hold of the node any
more unless it already has.  Two readings of the contract are settled here, for runs that meet
`keepsLevels`.  No level leads from the head to a retired node, and a thread that starts a call after the
retirement never follows a pointer to it.

The literal reading, links followed at any level and levels changed at any node, needs one thing more.  A
node that is marked but not yet spliced out at an upper level may lead to a deleted node further down.  No
search goes there, since none descends at a marked node; `Cleared` says that there is no such node.
-/
import ZeroKv.SkipList.Cleanup

namespace ZeroKv.SkipList

/-! ## Descending from the head -/

/-- What is reached from the head, starting at the top level, by following links and going down. -/
inductive Heap.Descends (h : Heap) (maxLevel : ℕ) : ℕ → ℕ → Prop
  | start : Descends h maxLevel maxLevel head
  | next {l p q : ℕ} : Descends h maxLevel l p → h.NextAt l p q → Descends h maxLevel l q
  | down {l p : ℕ} : Descends h maxLevel (l + 1) p → Descends h maxLevel l p

/-- No node below the key of `q` is still linked at an upper level where it is marked. -/
def Heap.Cleared (h : Heap) (maxLevel q : ℕ) : Prop :=
  ∀ l p, 0 < l → l ≤ maxLevel → h.ReachedAt l p → h.MarkedAt l p → ¬ h.bound p < h.bound q

section Descends

variable {h h' : Heap} {x : Option ℕ} {maxLevel l p q : ℕ} {b : Bool}

theorem Heap.Descends.le (hd : h.Descends maxLevel l p) : l ≤ maxLevel := by
  induction hd with
  | start => exact le_rfl
  | next _ _ ih => exact ih
  | down _ ih => exact (Nat.le_succ _).trans ih

theorem Heap.Descends.linkedAt (hd : h.Descends maxLevel l p) (hL : Levels maxLevel h) :
    h.LinkedAt l p := by
  induction hd with
  | start => exact hL.linkedAt_head le_rfl
  | next _ hq _ =>
      obtain ⟨b, hq⟩ := hq
      exact hL.ref _ _ _ _ hq
  | down _ ih => exact ih.down (Nat.le_succ _)

theorem Heap.descends_head (hl : l ≤ maxLevel) : h.Descends maxLevel l head := by
  induction hl using Nat.decreasingInduction with
  | self => exact .start
  | of_succ l hl ih => exact ih.down

theorem Heap.ReachedAt.descends (hp : h.ReachedAt l p) (hl : l ≤ maxLevel) :
    h.Descends maxLevel l p := by
  induction hp with
  | refl => exact Heap.descends_head hl
  | tail _ hq ih => exact ih.next hq

theorem Levels.descends (hL : Levels maxLevel h) (hl : l ≤ maxLevel) (hp : h.LinkedAt l p)
    (hu : h.UnmarkedAt l p) : h.Descends maxLevel l p :=
  ((hL.onLevel_iff hl).mp (hL.onLevel hl hp hu)).descends hl

/-- The place that a step has just linked: what it leads to was there before. -/
structure Arrived (maxLevel : ℕ) (h h' : Heap) (l p : ℕ) : Prop where
  linked : h.linkedOf p = l
  unmarked : h.UnmarkedAt l p
  next : ∀ q, h'.NextAt l p q → h.Descends maxLevel l q

/-- One link after a step, from a place that was there before. -/
theorem Change.descends_next (hc : Change h x h') (hL : Levels maxLevel h)
    (hp : h.Descends maxLevel l p) (hq : h'.NextAt l p q) :
    h.Descends maxLevel l q ∨ Arrived maxLevel h h' l q := by
  have hlp := hp.linkedAt hL
  obtain ⟨b, hq⟩ := hq
  cases hc with
  | quiet => exact .inl (hp.next ⟨b, hq⟩)
  | swap => exact .inl (hp.next ⟨b, by simpa using hq⟩)
  | alloc =>
      rw [hlp.link_alloc] at hq
      exact .inl (hp.next ⟨b, hq⟩)
  | store hnode hl hlq =>
      rcases Heap.link_setLink_cases hq with ⟨rfl, rfl, -⟩ | hq
      · exact absurd hlp (Nat.not_lt.mpr hnode)
      · exact .inl (hp.next ⟨b, hq⟩)
  -- the only new node on the way is the one that was just linked, and it leads on to `succ`
  | @link pred succ node n hpred hl hnode hnl hlt hgt =>
      rw [Heap.link_setLinked] at hq
      rcases Heap.link_setLink_cases hq with ⟨rfl, rfl, he⟩ | hq
      · cases he
        refine .inr ⟨hnode, ⟨_, hnl⟩, fun q' hq' => ?_⟩
        have hne : q ≠ p := by
          rintro rfl
          exact lt_irrefl _ hlt
        obtain ⟨b', hq'⟩ := hq'
        rw [Heap.link_setLinked, Heap.link_setLink_of_ne (.inl hne), hnl] at hq'
        cases hq'
        exact hp.next ⟨false, hl⟩
      · exact .inl (hp.next ⟨b, hq⟩)
  | splice hpred hl hcurr =>
      rcases Heap.link_setLink_cases hq with ⟨rfl, rfl, he⟩ | hq
      · cases he
        exact .inl ((hp.next ⟨false, hl⟩).next ⟨true, hcurr⟩)
      · exact .inl (hp.next ⟨b, hq⟩)
  | mark hnode hl =>
      rcases Heap.link_setLink_cases hq with ⟨rfl, rfl, he⟩ | hq
      · cases he
        exact .inl (hp.next ⟨false, hl⟩)
      · exact .inl (hp.next ⟨b, hq⟩)

theorem Change.descends (hc : Change h x h') (hL : Levels maxLevel h) (ht : TopDown h)
    (hp : h'.Descends maxLevel l p) : h.Descends maxLevel l p ∨ Arrived maxLevel h h' l p := by
  induction hp with
  | start => exact .inl .start
  | next _ hq ih =>
      rcases ih with hp | hp
      · exact hc.descends_next hL hp hq
      · exact .inl (hp.next _ hq)
  | @down l p hd ih =>
      rcases ih with hp | hp
      · exact .inl hp.down
      · -- the node was linked below before, and is not marked there
        have hlp : h.LinkedAt l p := by
          rw [Heap.LinkedAt, hp.linked]
          exact Nat.lt_succ_self l
        have hle := (Nat.le_succ l).trans hd.le
        exact .inl (hL.descends hle hlp (ht.unmarked hp.unmarked (Nat.le_succ l)))

/-- **No way back**: a deleted node that no descent reaches is not reached after a step. -/
theorem Change.not_descends (hc : Change h x h') (hL : Levels maxLevel h) (ht : TopDown h)
    (hg : h.Gone q) (hq : ∀ l, ¬ h.Descends maxLevel l q) (l : ℕ) : ¬ h'.Descends maxLevel l q := by
  intro hd
  rcases hc.descends hL ht hd with hd | hd
  · exact hq l hd
  · exact Heap.UnmarkedAt.not_marked (ht.unmarked hd.unmarked (Nat.zero_le l)) hg

/-- A node on a level has a link there. -/
theorem Level.link_of_mem {ch : List ℕ} (hb : Level h l ch) (hp : p ∈ ch) :
    ∃ lk, h.link p l = some lk := by
  obtain ⟨a, rest, rfl⟩ := List.append_of_mem hp
  cases rest with
  | nil =>
      have hpt : p = tail := by simpa using hb.last
      exact ⟨_, hpt ▸ hb.tail_link⟩
  | cons y c =>
      obtain ⟨-, ⟨b, hy⟩, -⟩ := List.isChain_append_cons_cons.mp hb.linked
      exact ⟨_, hy⟩

/-- **A node that is off every level is not reached by a descent**, when the levels above are
cleared. -/
theorem Heap.Cleared.not_descends (hcl : h.Cleared maxLevel q) (hL : Levels maxLevel h)
    (ht : TopDown h) (hoff : ∀ l ≤ maxLevel, ¬ h.OnLevel l q) (l : ℕ) :
    ¬ h.Descends maxLevel l q := by
  -- along a descent everything below the key of the node is on its level
  suffices hon : ∀ l p, h.Descends maxLevel l p → (h.bound p < h.bound q → h.OnLevel l p) ∧ p ≠ q from
    fun hd => (hon l q hd).2 rfl
  intro l p hd
  induction hd with
  | start =>
      have hhead := hL.onLevel_head le_rfl
      refine ⟨fun _ => hhead, ?_⟩
      rintro rfl
      exact hoff maxLevel le_rfl hhead
  | @next l p p' hd hp' ih =>
      have hlt : h.bound p < h.bound p' := by
        obtain ⟨b, hp'⟩ := hp'
        exact hL.ordered p l p' b (hd.linkedAt hL) hp'
      have hstep : h.bound p < h.bound q → h.OnLevel l p' := by
        intro hlt
        have hp := (hL.onLevel_iff hd.le).mp (ih.1 hlt)
        exact (hL.onLevel_iff hd.le).mpr (hp.tail hp')
      refine ⟨fun hlt' => hstep (hlt.trans hlt'), ?_⟩
      rintro rfl
      exact hoff l hd.le (hstep hlt)
  | @down l p hd ih =>
      refine ⟨fun hlt => ?_, ih.2⟩
      obtain ⟨ch, hb, hp⟩ := ih.1 hlt
      obtain ⟨lk, hlk⟩ := hb.link_of_mem hp
      rcases Heap.marked_or_unmarked hlk with hm | hu
      · exact absurd hlt (hcl (l + 1) p (Nat.succ_pos l) hd.le (hb.mem_iff.mp hp) hm)
      · exact hL.onLevel ((Nat.le_succ l).trans hd.le) ((hb.published p hp).down (Nat.le_succ l))
          (ht.unmarked hu (Nat.le_succ l))

end Descends

/-! ## The pointers of a call -/

/-- The node that the caller of a running `find` holds. -/
def After.nodes : After → List ℕ
  | .relink node _ | .clean node => [node]
  | .insert | .remove => []

/-- The nodes that a call reads or writes from its program point on.  What a compare-exchange of `remove`
expects to find in a link is only compared, and not among them. -/
def Pc.nodes : Pc → List ℕ
  | .findRef a _ pred => pred :: a.nodes
  | .findGet a _ pred curr => pred :: curr :: a.nodes
  | .findSplice a _ pred curr succ => pred :: curr :: succ :: a.nodes
  | .getRef _ pred => [pred]
  | .getGet _ pred curr => [pred, curr]
  | .insInit node _ | .insPub node | .insStore node _ | .insLink node _ | .insSwap node | .getMark node
  | .getVal node | .rmGet node _ | .rmMark node _ _ | .rmGet0 node | .rmCas0 node _ | .rmChk node _
  | .rmLen node | .rmRetire node => [node]
  | .insAlloc | .insLen | .insRetire _ | .ret _ => []

def Regs.Holds (r : Regs) (q : ℕ) : Prop := ∃ l, r.preds l = q ∨ r.succs l = q

/-- The thread has a pointer to the node, in its arrays or at its program point. -/
def Thread.Holds (q : ℕ) : Thread → Prop
  | .idle => False
  | .busy r pc => r.Holds q ∨ q ∈ pc.nodes

/-- The link that a search reads next: its level, and the node it belongs to. -/
def Pc.reads : Pc → Option (ℕ × ℕ)
  | .findRef _ level pred | .getRef level pred => some (level, pred)
  | .findGet _ level _ curr | .getGet level _ curr => some (level, curr)
  | _ => none

section Holds

variable {maxLevel level pred curr q l p : ℕ} {W : Set Mem} {m m' : Mem} {r : Regs} {pc : Pc}
  {th : Thread}

theorem Regs.Holds.atLevel (hq : (r.atLevel level pred curr).Holds q) :
    r.Holds q ∨ q = pred ∨ q = curr := by
  obtain ⟨l, hq⟩ := hq
  by_cases he : l = level
  · subst he
    refine .inr ?_
    simpa [Regs.atLevel, eq_comm] using hq
  · exact .inl ⟨l, by simpa [Regs.atLevel, Function.update_of_ne he] using hq⟩

theorem Pc.Walks.met_reads (hw : pc.Walks W) (hr : pc.reads = some (l, p)) : Met l W p := by
  cases pc with
  | findRef a level pred | getRef level pred =>
      cases hr
      exact hw _ le_rfl
  | findGet a level pred curr | getGet level pred curr =>
      cases hr
      exact hw.2
  | _ => cases hr

theorem Pc.Builds.reads_le {h : Heap} (hb : pc.Builds maxLevel h r) (hr : pc.reads = some (l, p)) :
    l ≤ maxLevel := by
  cases pc with
  | findRef a level pred | getRef level pred | findGet a level pred curr | getGet level pred curr =>
      cases hr
      exact hb.1
  | _ => cases hr

theorem mem_nodes_found {a : After} (hq : q ∈ (Pc.found m r curr a).nodes) :
    q = curr ∨ q ∈ a.nodes := by
  cases a with
  | insert | remove =>
      simp only [Pc.found, Pc.rmDown] at hq
      repeat' split at hq
      all_goals simp_all [Pc.nodes]
  | relink node level | clean node => exact .inr hq

theorem mem_nodes_insUp {top node : ℕ} (hq : q ∈ (Pc.insUp top node level).nodes) : q = node := by
  rw [Pc.insUp] at hq
  split at hq
  · exact List.mem_singleton.mp hq
  · cases hq

theorem mem_nodes_rmDown {node : ℕ} (hq : q ∈ (Pc.rmDown node level).nodes) : q = node := by
  rw [Pc.rmDown] at hq
  split at hq <;> exact List.mem_singleton.mp hq

/-- Where a pointer to `q` may come from in one step: the call had it, it is the head, it is the node
allocated next, or the call reads it. -/
inductive Gets (m : Mem) (r : Regs) (pc : Pc) (q : ℕ) : Prop
  | had (hq : (Thread.busy r pc).Holds q)
  | first (hq : q = head)
  | new (hq : q = m.nodes.length)
  | read {l p : ℕ} {b : Bool} (hr : pc.reads = some (l, p))
      (hl : m.nodes.link p l = some ⟨some q, b⟩)

theorem Gets.of_nodes {pc' : Pc} (hq : (Thread.busy r pc').Holds q)
    (hn : q ∈ pc'.nodes → Gets m r pc q) : Gets m r pc q :=
  hq.elim (fun hr => .had (.inl hr)) hn

theorem Gets.of_subset {pc' : Pc} (hq : (Thread.busy r pc').Holds q) (hn : pc'.nodes ⊆ pc.nodes) :
    Gets m r pc q := .of_nodes hq fun hq => .had (.inr (hn hq))

/-- A search that goes on from the node it has read a link to. -/
theorem Gets.of_read {pc' : Pc} {succ : ℕ} {b : Bool} (hq : (Thread.busy r pc').Holds q)
    (hr : pc.reads = some (l, p)) (hlk : m.nodes.link p l = some ⟨some succ, b⟩)
    (hn : pc'.nodes ⊆ succ :: pc.nodes) : Gets m r pc q := by
  refine .of_nodes hq fun hq => ?_
  rcases List.mem_cons.mp (hn hq) with rfl | hq
  · exact .read hr hlk
  · exact .had (.inr hq)

/-- A search that ends a level writes its position to the arrays. -/
theorem Gets.of_atLevel {pc' : Pc} (hq : (Thread.busy (r.atLevel level pred curr) pc').Holds q)
    (hpred : pred ∈ pc.nodes) (hcurr : curr ∈ pc.nodes) (hn : pc'.nodes ⊆ pc.nodes) :
    Gets m r pc q := by
  refine .had ?_
  rcases hq with hq | hq
  · rcases hq.atLevel with hq | rfl | rfl
    · exact .inl hq
    · exact .inr hpred
    · exact .inr hcurr
  · exact .inr (hn hq)

/-- **Where a pointer comes from.** -/
theorem Move.gets (hmv : Move maxLevel m r pc m' th) (hq : th.Holds q) : Gets m r pc q := by
  cases hmv with
  | findRef hlk | findMarked hlk | findNext hlk _ | getRef hlk | getMarked hlk | getNext hlk _ =>
      refine .of_read hq rfl hlk fun p hp => ?_
      simp only [Pc.nodes, List.mem_cons] at hp ⊢
      tauto
  | findDown =>
      refine .of_atLevel hq (by simp [Pc.nodes]) (by simp [Pc.nodes]) fun p hp => ?_
      simp only [Pc.nodes, List.mem_cons] at hp ⊢
      tauto
  | findDone =>
      -- what follows the search may go on with the node it found, or with the one it was called for
      refine .of_atLevel hq (by simp [Pc.nodes]) (by simp [Pc.nodes]) fun p hp => ?_
      have := mem_nodes_found hp
      simp only [Pc.nodes, List.mem_cons]
      tauto
  | spliced => exact .of_subset hq (by simp [Pc.nodes])
  | spliceLost | linkLost | rmClean =>
      refine .of_nodes hq fun hn => ?_
      rcases List.mem_cons.mp hn with rfl | hn
      · exact .first rfl
      · exact .had (.inr (by simp_all [Pc.nodes, After.nodes]))
  | publishLost => exact .of_nodes hq fun hn => .first (List.mem_singleton.mp hn)
  | insAlloc => exact .of_nodes hq fun hn => .new (List.mem_singleton.mp hn)
  | published | linked =>
      refine .of_nodes hq fun hn => .had (.inr ?_)
      rw [mem_nodes_insUp hn]
      exact List.mem_cons_self
  | rmPassed =>
      refine .of_nodes hq fun hn => .had (.inr ?_)
      rw [mem_nodes_rmDown hn]
      exact List.mem_cons_self
  | ret => exact hq.elim
  | _ => exact .of_subset hq (by simp [Pc.nodes])

end Holds

/-! ## After the retirement -/

/-- The node is deleted and on no level. -/
structure Lost (maxLevel : ℕ) (h : Heap) (q : ℕ) : Prop where
  gone : h.Gone q
  off : ∀ l ≤ maxLevel, ¬ h.OnLevel l q

section Stretch

variable {τ : Type} [DecidableEq τ] {maxLevel q : ℕ} {s u : Config τ Mem Thread}
  {m m' : Mem} {a a' : Thread} {c : Choice} {W : Set Mem}

theorem Lost.advance {h h' : Heap} (hq : Lost maxLevel h q) (ha : Advance maxLevel h h') :
    Lost maxLevel h' q :=
  ⟨ha.later.gone hq.gone, fun l hl hon => hq.off l hl (ha.back l hl q hq.gone hon)⟩

theorem Lost.ne_head {h : Heap} (hq : Lost maxLevel h q) (hL : Levels maxLevel h) : q ≠ head := by
  rintro rfl
  exact hq.off maxLevel le_rfl (hL.onLevel_head le_rfl)

/-- What a step of some thread does, in a run that meets the condition. -/
theorem advance_of_step (hmax : maxLevel < maxHeight)
    (hs : (((threads maxLevel).restrict keepsLevels).machine τ).Reachable s) {t : τ}
    (hst : ((threads maxLevel).restrict keepsLevels).step s.mem (s.loc t) c = some (m', a')) :
    Advance maxLevel s.mem.nodes m'.nodes := by
  have hi := (leveled maxLevel hmax).holds hs
  obtain ⟨⟨hshape, htop⟩, hL⟩ := hi.shared
  obtain ⟨⟨hk, hw⟩, hb⟩ := hi.own t
  exact step_advance hshape htop hL hk hw hb hst

/-- A deleted node that is off every level stays so. -/
theorem Lost.stretch (hmax : maxLevel < maxHeight)
    (hs : (((threads maxLevel).restrict keepsLevels).machine τ).Reachable s)
    (hq : Lost maxLevel s.mem.nodes q)
    (hu : (((threads maxLevel).restrict keepsLevels).machine τ).StaysIn (fun _ => True) s u) :
    Lost maxLevel u.mem.nodes q := by
  refine hu.invariant (I := fun u => Lost maxLevel u.mem.nodes q) hs hq ?_
  rintro u ⟨t, c⟩ v hr - - hq hst
  obtain ⟨m', a', hml, rfl⟩ := Threads.stepOf_eq_some.mp hst
  exact hq.advance (advance_of_step hmax hr hml)

/-- A deleted node that no descent reaches is not reached later. -/
theorem not_descends_stretch (hmax : maxLevel < maxHeight)
    (hs : (((threads maxLevel).restrict keepsLevels).machine τ).Reachable s)
    (hq : Lost maxLevel s.mem.nodes q) (hd : ∀ l, ¬ s.mem.nodes.Descends maxLevel l q)
    (hu : (((threads maxLevel).restrict keepsLevels).machine τ).StaysIn (fun _ => True) s u) :
    ∀ l, ¬ u.mem.nodes.Descends maxLevel l q := by
  refine (hu.invariant (I := fun u => Lost maxLevel u.mem.nodes q ∧
    ∀ l, ¬ u.mem.nodes.Descends maxLevel l q) hs ⟨hq, hd⟩ ?_).2
  rintro u ⟨t, c⟩ v hr - - ⟨hq, hd⟩ hst
  obtain ⟨m', a', hml, rfl⟩ := Threads.stepOf_eq_some.mp hst
  refine ⟨hq.advance (advance_of_step hmax hr hml), ?_⟩
  have hi := (leveled maxLevel hmax).holds hr
  obtain ⟨⟨hshape, htop⟩, hL⟩ := hi.shared
  obtain ⟨⟨hk, -⟩, hb⟩ := hi.own t
  obtain ⟨hc, -⟩ := step_change hshape hk hL hb hml
  exact hc.not_descends hL htop hq.gone hd

/-- A call started after the node was lost, up to now: what it has met, and what it does not hold. -/
structure Unaware (maxLevel q : ℕ) (W : Set Mem) (m : Mem) (th : Thread) : Prop where
  era : Era maxLevel W m
  lost : ∀ m₀ ∈ W, Lost maxLevel m₀.nodes q
  walks : th.Walks W
  holds : ¬ th.Holds q

/-- A step of another thread. -/
theorem Unaware.bystander (hv : Unaware maxLevel q W m a) (ha : Advance maxLevel m.nodes m'.nodes) :
    Unaware maxLevel q (insert m' W) m' a := by
  have hnow := (hv.era.window 0 (Nat.zero_le _)).now
  refine ⟨hv.era.step ha, ?_, ?_, hv.holds⟩
  · rintro m₀ (rfl | h₀)
    · exact (hv.lost m hnow).advance ha
    · exact hv.lost m₀ h₀
  · cases a with
    | idle => trivial
    | busy r pc => exact hv.walks.mono (Set.subset_insert m' W)

/-- A step of the thread itself: every pointer it reads was on some level since its call began. -/
theorem Unaware.step (hv : Unaware maxLevel q W m a) (hL : Levels maxLevel m.nodes)
    (ht : TopDown m.nodes) (hb : a.Builds maxLevel m.nodes) (ha : Advance maxLevel m.nodes m'.nodes)
    (hst : step maxLevel m a c = some (m', a')) : Unaware maxLevel q (insert m' W) m' a' := by
  have hnow := (hv.era.window 0 (Nat.zero_le _)).now
  have hq := hv.lost m hnow
  obtain ⟨he, hlost, -, -⟩ := hv.bystander ha
  rcases step_cases hst with ⟨op, topLevel, -, -, rfl, rfl, rfl⟩ | ⟨r, pc, -, rfl, hmv⟩
  · have hhead : ∀ l ≤ maxLevel, Met l (insert (m.invoke op) W) head := fun l hl =>
      ⟨m.invoke op, Set.mem_insert _ _, hL.onLevel_head hl⟩
    refine ⟨he, hlost, ?_, ?_⟩
    · cases op <;> exact hhead
    · intro hh
      refine hq.ne_head hL ?_
      rcases hh with ⟨l, hl⟩ | hn
      · rcases hl with rfl | rfl <;> rfl
      · cases op <;> exact List.mem_singleton.mp hn
  · refine ⟨he, hlost, ?_, fun hh => ?_⟩
    · exact hmv.walks hL ht hb hv.era (Set.mem_insert m' W) (Set.subset_insert m' W) hv.walks
    · cases hmv.gets hh with
      | had hold => exact hv.holds hold
      | first h0 => exact hq.ne_head hL h0
      | new hlen =>
          obtain ⟨o, hl⟩ := hq.gone
          exact absurd (Heap.lt_length_of_link hl) (hlen ▸ lt_irrefl _)
      | read hr hl =>
          have hle := Pc.Builds.reads_le hb.2.2 hr
          obtain ⟨m₀, h₀, hon⟩ := hv.era.met_next hle (Pc.Walks.met_reads hv.walks hr) hl
          exact (hv.lost m₀ h₀).off _ hle hon

/-- A thread between calls when the node is lost never gets a pointer to it. -/
theorem Lost.not_holds (hmax : maxLevel < maxHeight)
    (hs : (((threads maxLevel).restrict keepsLevels).machine τ).Reachable s)
    (hq : Lost maxLevel s.mem.nodes q) {t : τ} (hidle : s.loc t = .idle)
    (hu : (((threads maxLevel).restrict keepsLevels).machine τ).StaysIn (fun _ => True) s u) :
    ¬ (u.loc t).Holds q := by
  have h0 : ∃ W, Unaware maxLevel q W s.mem (s.loc t) := by
    rw [hidle]
    refine ⟨{s.mem}, Era.start maxLevel s.mem, ?_, trivial, id⟩
    rintro m₀ rfl
    exact hq
  obtain ⟨W, hv⟩ := hu.invariant (I := fun u => ∃ W, Unaware maxLevel q W u.mem (u.loc t)) hs h0 (by
    rintro u ⟨t', c⟩ v hr - - ⟨W, hv⟩ hst
    obtain ⟨m', a', hml, rfl⟩ := Threads.stepOf_eq_some.mp hst
    have hadv := advance_of_step hmax hr hml
    refine ⟨insert m' W, ?_⟩
    by_cases he : t = t'
    · subst he
      have hi := (leveled maxLevel hmax).holds hr
      obtain ⟨⟨-, htop⟩, hL⟩ := hi.shared
      simpa using hv.step hL htop (hi.own t).2 hadv (Threads.restrict_step.mp hml).2
    · simpa [Function.update_of_ne he] using hv.bystander hadv)
  exact hv.holds

/-- **Retired nodes are unreachable.**  In a run that meets `keepsLevels`, from the moment a remover is about
to retire its node: no level leads from the head to it; if no smaller node is left marked at an upper
level, no descent from the head reaches it; and a thread that is between calls at some later moment never
gets a pointer to it from then on. -/
theorem retired_unreachable (hmax : maxLevel < maxHeight) {t : τ} {r : Regs}
    (hs : (((threads maxLevel).restrict keepsLevels).machine τ).Reachable s)
    (ht : s.loc t = .busy r (.rmRetire q))
    (hu : (((threads maxLevel).restrict keepsLevels).machine τ).StaysIn (fun _ => True) s u) :
    (∀ l ≤ maxLevel, ¬ u.mem.nodes.ReachedAt l q) ∧
      (s.mem.nodes.Cleared maxLevel q → ∀ l, ¬ u.mem.nodes.Descends maxLevel l q) ∧
      ∀ v w, u.loc v = .idle →
        (((threads maxLevel).restrict keepsLevels).machine τ).StaysIn (fun _ => True) u w →
        ¬ (w.loc v).Holds q := by
  have hi := ((leveled maxLevel hmax).and (cleanup maxLevel hmax)).holds hs
  obtain ⟨⟨⟨-, htop⟩, hL⟩, -⟩ := hi.shared
  have hq : Lost maxLevel s.mem.nodes q := by
    have hown := hi.own t
    rw [ht] at hown
    exact ⟨hown.1.1.1.2, (hown.2 q rfl).cleans⟩
  have hqu := hq.stretch hmax hs hu
  have hru := hu.reachable hs
  refine ⟨fun l hl hr => ?_, fun hcl => ?_, fun v w hidle hw => hqu.not_holds hmax hru hidle hw⟩
  · have hLu := ((leveled maxLevel hmax).holds hru).shared.2
    exact hqu.off l hl ((hLu.onLevel_iff hl).mpr hr)
  · exact not_descends_stretch hmax hs hq (hcl.not_descends hL htop hq.off) hu

/-- Key 5 is inserted with a tower of two levels and removed, up to the retirement of its node. -/
def retiring : List (Bool × Choice) :=
  (false, .call (.insert [5] [1]) 1) :: List.replicate 12 (false, .run) ++
    (false, .call (.remove [5]) 0) :: List.replicate 19 (false, .run)

/-- The heap at the end: both links of the removed node are marked. -/
def retiringHeap : Heap :=
  [sentinel .negInf (some tail), sentinel .posInf none,
    { key := .fin (.new [5]), value := some 0, topLevel := 1,
      tower := [⟨some tail, true⟩, ⟨some tail, true⟩], linked := 2 }]

theorem retiringHeap_cleared : retiringHeap.Cleared 1 2 := by
  rintro l p - hl - ⟨o, ho⟩ hlt
  match p with
  | 0 | 1 => cases List.eq_of_mem_replicate (List.mem_of_getElem? ho)
  | 2 => exact lt_irrefl _ hlt
  | p + 3 => cases ho

theorem retired_unreachable_sample :
    ∃ s u : Config Bool Mem Thread, ∃ r, s.loc false = .busy r (.rmRetire 2) ∧
      s.mem.nodes.Cleared 1 2 ∧ .node 2 ∈ u.mem.retired ∧ ¬ u.mem.nodes.ReachedAt 1 2 ∧
      (∀ l, ¬ u.mem.nodes.Descends 1 l 2) ∧ ¬ (u.loc true).Holds 2 := by
  obtain ⟨s, hs⟩ : ∃ s, Machine.runFn ((threads 1).restrict keepsLevels).stepOf
      { mem := .withMaxLevel, loc := fun _ => .idle } retiring = some s := ⟨_, rfl⟩
  obtain ⟨hheap, hidle, r, ht⟩ : s.mem.nodes = retiringHeap ∧ s.loc true = .idle ∧
      ∃ r, s.loc false = .busy r (.rmRetire 2) := by
    cases hs
    exact ⟨rfl, rfl, _, rfl⟩
  have hr : (((threads 1).restrict keepsLevels).machine Bool).Reachable s :=
    Machine.reachable_of_runFn hs
  -- the retirement
  obtain ⟨u, hu, hret, hut⟩ : ∃ u, ((threads 1).restrict keepsLevels).stepOf s (false, .run) = some u ∧
      .node 2 ∈ u.mem.retired ∧ u.loc true = .idle := by
    refine ⟨{ mem := s.mem.retire (.node 2),
              loc := Function.update s.loc false (.busy r (.ret (.flag true))) },
      Threads.stepOf_eq_some.mpr ⟨_, _, ?_, rfl⟩, ?_, hidle⟩
    · rw [ht]
      rfl
    · exact List.mem_append_right _ (List.mem_singleton.mpr rfl)
  have hsu : (((threads 1).restrict keepsLevels).machine Bool).StaysIn (fun _ => True) s u :=
    .next (.refl trivial) hu trivial
  have hcl : s.mem.nodes.Cleared 1 2 := hheap ▸ retiringHeap_cleared
  obtain ⟨h₁, h₂, h₃⟩ := retired_unreachable (by decide) hr ht hsu
  exact ⟨s, u, r, ht, hcl, hret, h₁ 1 le_rfl, h₂ hcl, h₃ true u hut (.refl trivial)⟩

end Stretch

/-- An insert of key 5 is about to link its node at level 1 when the key is removed and the node retired.
Then the insert goes on, and a `get` of key 5 starts. -/
def relinked : List (Bool × Choice) :=
  (false, .call (.insert [5] [1]) 1) :: List.replicate 9 (false, .run) ++
    (true, .call (.remove [5]) 0) :: List.replicate 19 (true, .run) ++
    [(false, .run), (true, .call (.get [5]) 0), (true, .run)]

/-- The retired node is linked again, and a call that started after the retirement has a pointer to it. -/
theorem relinked_reaches :
    ∃ s, ((threads 1).machine Bool).Reachable s ∧ .node 2 ∈ s.mem.retired ∧
      s.mem.nodes.Descends 1 1 2 ∧ (s.loc true).Holds 2 := by
  obtain ⟨s, hs⟩ : ∃ s, Machine.runFn (threads 1).stepOf
      { mem := .withMaxLevel, loc := fun _ => .idle } relinked = some s := ⟨_, rfl⟩
  refine ⟨s, Machine.reachable_of_runFn hs, ?_, ?_, ?_⟩
  · cases hs
    exact List.mem_singleton.mpr rfl
  · cases hs
    exact .next .start ⟨false, rfl⟩
  · cases hs
    exact .inr (List.mem_pair.mpr (.inr rfl))

/-- A second insert of key 5 has found the node of the first one at level 1.  The node is marked, and on
level 0 the insert does not find it any more, so it links a new one in front of it at level 1.  The cleanup
of the remover stops there. -/
def fronted : List (Bool × Choice) :=
  (false, .call (.insert [5] [1]) 1) :: List.replicate 12 (false, .run) ++
    (false, .call (.insert [5] [2]) 1) :: List.replicate 2 (false, .run) ++
    (true, .call (.remove [5]) 0) :: List.replicate 10 (true, .run) ++
    List.replicate 10 (false, .run) ++ List.replicate 6 (true, .run)

/-- The key of the successor matters: no store overwrites a mark in this run, and no marked node is
linked. -/
theorem fronted_reaches :
    ∃ s, (((threads 1).restrict keepsMarks).machine Bool).Reachable s ∧ .node 2 ∈ s.mem.retired ∧
      s.mem.nodes.Descends 1 1 2 := by
  obtain ⟨s, hs⟩ : ∃ s, Machine.runFn ((threads 1).restrict keepsMarks).stepOf
      { mem := .withMaxLevel, loc := fun _ => .idle } fronted = some s := ⟨_, rfl⟩
  refine ⟨s, Machine.reachable_of_runFn hs, ?_, ?_⟩
  · cases hs
    exact List.mem_singleton.mpr rfl
  · cases hs
    exact .next (p := 3) (.next .start ⟨false, rfl⟩) ⟨false, rfl⟩

end ZeroKv.SkipList
