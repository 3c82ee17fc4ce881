/-
# ZeroKv.SkipList.Views — what a call in progress knows about the nodes it holds.

A call keeps addresses it read in the past.  By the time it uses one, other threads may have marked and
spliced out the node.  Three facts survive: the node was published, its key is what it was, and a mark
seen on its level-0 link is still there.  `Pc.Knows` collects these for every program point, together
with what an insert knows about the node only it can see.

From them follows that every step is one of the writes of `Write`, and that a write of one thread does not
disturb what another one knows.
-/
import ZeroKv.SkipList.Bottom

namespace ZeroKv.SkipList

/-! ## What a call knows -/

/-- A published node below the key that the call is about. -/
def Regs.Below (h : Heap) (r : Regs) (p : ℕ) : Prop := h.Published p ∧ h.bound p < target r.key

/-- A published node that carries the key of the call. -/
def Regs.Carries (h : Heap) (r : Regs) (p : ℕ) : Prop := h.Published p ∧ h.bound p = target r.key

/-- What `find` left in `preds[0]` and `succs[0]` when it did not meet the key. -/
def Regs.Gap (h : Heap) (r : Regs) : Prop :=
  h.bound (r.preds 0) < target r.key ∧ target r.key < h.bound (r.succs 0)

/-- The node that only the calling insert can see. -/
structure Regs.Private (h : Heap) (r : Regs) (p : ℕ) : Prop where
  lt_length : p < h.length
  linked : h.linkedOf p = 0
  bound : h.bound p = target r.key

/-- What the caller of a running `find` will want afterwards. -/
def After.Knows (h : Heap) : After → Prop
  | .insert | .remove => True
  | .relink node level => h.Published node ∧ 0 < level
  | .clean node => h.Gone node

/-- What a call knows at its program point. -/
def Pc.Knows (h : Heap) (r : Regs) : Pc → Prop
  | .findRef a _ pred => r.Below h pred ∧ a.Knows h
  | .findGet a _ pred curr => r.Below h pred ∧ h.Published curr ∧ a.Knows h
  | .findSplice a level pred curr succ =>
      r.Below h pred ∧ h.Published succ ∧
        (level = 0 → h.link curr 0 = some ⟨some succ, true⟩) ∧ a.Knows h
  | .insAlloc => r.Gap h
  | .insInit node level =>
      r.Gap h ∧ r.Private h node ∧ (0 < level → h.link node 0 = some ⟨some (r.succs 0), false⟩)
  | .insPub node => r.Gap h ∧ r.Private h node ∧ h.link node 0 = some ⟨some (r.succs 0), false⟩
  | .insStore node level | .insLink node level => h.Published node ∧ 0 < level
  | .getRef _ pred => r.Below h pred
  | .getGet _ pred curr => r.Below h pred ∧ h.Published curr
  | .rmGet node level | .rmMark node level _ => r.Carries h node ∧ 0 < level
  | .insSwap node | .getMark node | .getVal node | .rmGet0 node | .rmCas0 node _ => r.Carries h node
  | .rmChk node iMarked => r.Carries h node ∧ (iMarked = true → h.Gone node)
  | .rmLen node | .rmRetire node => h.Gone node
  | .insLen | .insRetire _ | .ret _ => True

/-- What a thread knows. -/
def Thread.Knows (h : Heap) : Thread → Prop
  | .idle => True
  | .busy r pc => (∀ l, h.Published (r.preds l) ∧ h.Published (r.succs l)) ∧ pc.Knows h r

/-- The node a thread has allocated and not yet published. -/
def Thread.fresh : Thread → Option ℕ
  | .busy _ (.insInit node _) | .busy _ (.insPub node) => some node
  | _ => none

/-! ## Knowledge is stable -/

section Stable

variable {h h' : Heap} {r : Regs} {p : ℕ} {pc : Pc} {th : Thread} {x : Option ℕ}

theorem Regs.Below.later (hp : r.Below h p) (hl : Later h h') : r.Below h' p :=
  ⟨hl.published p hp.1, (hl.bound hp.1.lt_length).symm ▸ hp.2⟩

theorem Regs.Carries.later (hp : r.Carries h p) (hl : Later h h') : r.Carries h' p :=
  ⟨hl.published p hp.1, (hl.bound hp.1.lt_length).trans hp.2⟩

theorem After.Knows.later {a : After} (ha : a.Knows h) (hl : Later h h') : a.Knows h' := by
  cases a with
  | insert | remove => trivial
  | relink node level => exact ⟨hl.published node ha.1, ha.2⟩
  | clean node => exact hl.gone ha

theorem Regs.Gap.later (hg : r.Gap h) (hl : Later h h')
    (hr : ∀ l, h.Published (r.preds l) ∧ h.Published (r.succs l)) : r.Gap h' := by
  rw [Regs.Gap, hl.bound (hr 0).1.lt_length, hl.bound (hr 0).2.lt_length]
  exact hg

/-- A node that only one thread can see is not touched by the others. -/
theorem Regs.Private.write (hp : r.Private h p) (hs : Shape h) (hw : Write h x h')
    (hx : x ≠ some p) : r.Private h' p ∧ ∀ l, h'.link p l = h.link p l := by
  have hlater := hw.later hs
  refine ⟨⟨hp.lt_length.trans_le hlater.length, ?_, (hlater.bound hp.lt_length).trans hp.bound⟩, ?_⟩
  · exact (hw.private_link (l := 0) hp.lt_length hp.linked hx).2
  · intro l
    exact (hw.private_link hp.lt_length hp.linked hx).1

/-- What a bystander knows stays true. -/
theorem Thread.Knows.write (hk : th.Knows h) (hs : Shape h) (hw : Write h x h')
    (hx : ∀ p, th.fresh = some p → x ≠ some p) : th.Knows h' := by
  have hl := hw.later hs
  cases th with
  | idle => trivial
  | busy r pc =>
      obtain ⟨hr, hk⟩ := hk
      refine ⟨fun l => ⟨hl.published _ (hr l).1, hl.published _ (hr l).2⟩, ?_⟩
      cases pc with
      | findRef a level pred => exact ⟨hk.1.later hl, hk.2.later hl⟩
      | findGet a level pred curr => exact ⟨hk.1.later hl, hl.published _ hk.2.1, hk.2.2.later hl⟩
      | findSplice a level pred curr succ =>
          obtain ⟨hpred, hsucc, hm, ha⟩ := hk
          exact ⟨hpred.later hl, hl.published _ hsucc, fun h0 => hl.frozen _ _ (hm h0), ha.later hl⟩
      | insAlloc => exact hk.later hl hr
      | insInit node level =>
          obtain ⟨hp, hlink⟩ := hk.2.1.write hs hw (hx node rfl)
          exact ⟨hk.1.later hl hr, hp, fun h0 => (hlink 0).trans (hk.2.2 h0)⟩
      | insPub node =>
          obtain ⟨hp, hlink⟩ := hk.2.1.write hs hw (hx node rfl)
          exact ⟨hk.1.later hl hr, hp, (hlink 0).trans hk.2.2⟩
      | insStore node level | insLink node level => exact ⟨hl.published _ hk.1, hk.2⟩
      | getRef level pred => exact hk.later hl
      | getGet level pred curr => exact ⟨hk.1.later hl, hl.published _ hk.2⟩
      | rmGet node level | rmMark node level succ => exact ⟨hk.1.later hl, hk.2⟩
      | insSwap node | getMark node | getVal node | rmGet0 node | rmCas0 node succ =>
          exact hk.later hl
      | rmChk node iMarked => exact ⟨hk.1.later hl, fun hi => hl.gone (hk.2 hi)⟩
      | rmLen node | rmRetire node => exact hl.gone hk
      | insLen | insRetire old | ret v => trivial

end Stable

/-! ## Every step is a write -/

section Moves

variable {maxLevel : ℕ} {m m' : Mem} {r : Regs} {pc : Pc} {th : Thread}

/-- The effect of a step on the heap. -/
theorem Move.write (hmv : Move maxLevel m r pc m' th) (hs : Shape m.nodes)
    (hk : (Thread.busy r pc).Knows m.nodes) :
    Write m.nodes (Thread.busy r pc).fresh m'.nodes := by
  obtain ⟨hr, hk⟩ := hk
  cases hmv with
  | @spliced a level pred curr succ hl =>
      obtain ⟨hpred, hsucc, hm, -⟩ := hk
      cases level with
      | zero => exact .splice hpred.1 hl (hm rfl)
      | succ level =>
          refine .upper (Nat.succ_pos level) hpred.1 hl ?_
          rintro q ⟨⟩
          exact hsucc
  | insAlloc => exact .alloc
  | insInit hl | insInitLast hl => exact .init hk.2.1.linked hl (hr _).2
  | published hl =>
      obtain ⟨hgap, hp, hnl⟩ := hk
      exact .publish (hr 0).1 hl hp.linked hnl hp.bound hgap.1 hgap.2
  | insStore hl =>
      refine .upper hk.2 hk.1 hl ?_
      rintro q ⟨⟩
      exact (hr _).2
  | linked hl => exact .link hk.2 (hr _).1 hl hk.1
  | swapped | swappedNull => exact .swap
  | @rmMarked node level succ hl =>
      refine .upper hk.2 hk.1.1 hl ?_
      rintro q rfl
      exact hs.ref _ _ _ _ hl
  | removed hl => exact .mark hk.1 hk.2 hl
  | insLen =>
      rw [Mem.nodes_incLen]
      exact .quiet
  | rmLen =>
      rw [Mem.nodes_decLen]
      exact .quiet
  | _ => exact .quiet

/-- Every call may start from the head. -/
theorem Shape.below_head {h : Heap} (hs : Shape h) : r.Below h head := by
  obtain ⟨ch, hb⟩ := hs.chain
  exact ⟨hb.published head hb.head_mem, Heap.bound_head_lt hs.head_key r.key⟩

theorem Regs.Carries.rmDown {h : Heap} {node : ℕ} (hc : r.Carries h node) (level : ℕ) :
    (Pc.rmDown node level).Knows h r := by
  rw [Pc.rmDown]
  split
  · exact hc
  · next h0 => exact ⟨hc, Nat.pos_of_ne_zero h0⟩

theorem knows_insUp {h : Heap} {node level : ℕ} (hp : h.Published node) (hpos : 0 < level) :
    (Pc.insUp r.topLevel node level).Knows h r := by
  rw [Pc.insUp]
  split
  · exact ⟨hp, hpos⟩
  · trivial

/-- Preparing a link of the private node; the one of level 0 is prepared first. -/
theorem Regs.Private.init {h : Heap} {node level : ℕ} {lk : Link} (hp : r.Private h node)
    (hl : h.link node level = some lk)
    (hn : 0 < level → h.link node 0 = some ⟨some (r.succs 0), false⟩) :
    r.Private (h.setLink node level ⟨some (r.succs level), false⟩) node ∧
      (h.setLink node level ⟨some (r.succs level), false⟩).link node 0 =
        some ⟨some (r.succs 0), false⟩ := by
  refine ⟨⟨by simpa using hp.lt_length, by simpa using hp.linked, by simpa using hp.bound⟩, ?_⟩
  rcases Nat.eq_zero_or_pos level with rfl | hpos
  · exact Heap.link_setLink_self hl
  · exact (Heap.link_setLink_of_ne (.inr hpos.ne)).trans (hn hpos)

/-- What the caller of `find` learns from it. -/
theorem knows_found {a : After} {pred curr : ℕ} (hpred : r.Below m.nodes pred)
    (hcurr : m.nodes.Published curr) (hk : target r.key ≤ m.nodes.bound curr)
    (ha : a.Knows m.nodes) :
    (Pc.found m (r.atLevel 0 pred curr) curr a).Knows m.nodes (r.atLevel 0 pred curr) := by
  have hcarry : (m.nodes.keyOf curr).keyEq r.key = true →
      (r.atLevel 0 pred curr).Carries m.nodes curr :=
    fun he => ⟨hcurr, BoundKey.keyEq_iff.mp he⟩
  cases a with
  | insert =>
      simp only [Pc.found]
      split
      · next he => exact hcarry he
      · next he =>
          have hne : target r.key ≠ m.nodes.bound curr := fun h =>
            he (BoundKey.keyEq_iff.mpr h.symm)
          exact ⟨by simpa [Regs.atLevel] using hpred.2,
            by simpa [Regs.atLevel] using lt_of_le_of_ne hk hne⟩
  | relink node level => exact ha
  | remove =>
      simp only [Pc.found]
      split
      · next he => exact (hcarry he).rmDown _
      · trivial
  | clean node => exact ha

/-- The acting thread knows what its next program point asks for. -/
theorem Move.knows (hmv : Move maxLevel m r pc m' th) (hs : Shape m.nodes)
    (hk : (Thread.busy r pc).Knows m.nodes) : th.Knows m'.nodes := by
  have hl := (hmv.write hs hk).later hs
  have hs' := (hmv.write hs hk).shape hs
  obtain ⟨hr, hk⟩ := hk
  -- what was published stays so, hence the entries of the two arrays
  have hr' : ∀ l, m'.nodes.Published (r.preds l) ∧ m'.nodes.Published (r.succs l) :=
    fun l => ⟨hl.published _ (hr l).1, hl.published _ (hr l).2⟩
  have hup : ∀ {level pred curr}, m.nodes.Published pred → m.nodes.Published curr →
      ∀ l, m.nodes.Published ((r.atLevel level pred curr).preds l) ∧
        m.nodes.Published ((r.atLevel level pred curr).succs l) := by
    intro level pred curr hpred hcurr l
    by_cases he : l = level
    · subst he
      simpa [Regs.atLevel] using ⟨hpred, hcurr⟩
    · simpa [Regs.atLevel, Function.update_of_ne he] using hr l
  -- the searches learn a node from the link they read, and the updates keep what they knew
  cases hmv with
  | findRef hlk => exact ⟨hr, hk.1, hs.ref _ _ _ _ hlk, hk.2⟩
  | findMarked hlk =>
      refine ⟨hr, hk.1, hs.ref _ _ _ _ hlk, ?_, hk.2.2⟩
      rintro rfl
      exact hlk
  | findNext hlk hlt => exact ⟨hr, ⟨hk.2.1, hlt⟩, hs.ref _ _ _ _ hlk, hk.2.2⟩
  | findDown hlk hle => exact ⟨hup hk.1.1 hk.2.1, hk.1, hk.2.2⟩
  | findDone hlk hle => exact ⟨hup hk.1.1 hk.2.1, knows_found hk.1 hk.2.1 hle hk.2.2⟩
  | spliced hlk => exact ⟨hr', hk.1.later hl, hl.published _ hk.2.1, hk.2.2.2.later hl⟩
  | spliceLost => exact ⟨hr, hs.below_head, hk.2.2.2⟩
  | insAlloc =>
      refine ⟨hr', Regs.Gap.later hk hl hr, ⟨?_, ?_, ?_⟩, fun h0 => absurd h0 (lt_irrefl 0)⟩
      · simp [Mem.allocNode, Mem.boxValue, Heap.alloc]
      · exact Heap.linkedOf_alloc_self
      · simp [Mem.allocNode, Mem.boxValue, Heap.bound, Node.new]
  | insInit hlk ht =>
      obtain ⟨hp', hn'⟩ := hk.2.1.init hlk hk.2.2
      exact ⟨hr', hk.1.later hl hr, hp', fun _ => hn'⟩
  | insInitLast hlk ht => exact ⟨hr', hk.1.later hl hr, hk.2.1.init hlk hk.2.2⟩
  | published hlk =>
      refine ⟨hr', knows_insUp ((Heap.published_setLinked ?_).mpr (.inl rfl)) Nat.one_pos⟩
      simpa [Mem.store] using hk.2.1.lt_length
  | publishLost => exact ⟨hr', hs'.below_head, trivial⟩
  | insStore hlk => exact ⟨hr', hl.published _ hk.1, hk.2⟩
  | linked hlk => exact ⟨hr', knows_insUp (hl.published _ hk.1) (Nat.succ_pos _)⟩
  | linkLost => exact ⟨hr', hs'.below_head, hk⟩
  | insLen => exact ⟨hr', trivial⟩
  | swapped | swappedNull | insRetire => exact ⟨hr', trivial⟩
  | getRef hlk => exact ⟨hr, hk, hs.ref _ _ _ _ hlk⟩
  | getMarked hlk => exact ⟨hr, hk.1, hs.ref _ _ _ _ hlk⟩
  | getNext hlk hlt => exact ⟨hr, ⟨hk.2, hlt⟩, hs.ref _ _ _ _ hlk⟩
  | getDown => exact ⟨hr, hk.1⟩
  | getHit hlk he => exact ⟨hr, hk.2, he⟩
  | getMiss | getGone | getVal | getNull => exact ⟨hr, trivial⟩
  | getLive => exact ⟨hr, hk⟩
  | rmPassed => exact ⟨hr, hk.1.rmDown _⟩
  | rmGet => exact ⟨hr, hk⟩
  | rmMarked => exact ⟨hr', hk.1.later hl, hk.2⟩
  | rmMarkLost => exact ⟨hr, hk⟩
  | rmGet0 => exact ⟨hr, hk⟩
  | removed hlk =>
      exact ⟨hr', Regs.Carries.later hk hl, fun _ => ⟨_, Heap.link_setLink_self hlk⟩⟩
  | removeLost => exact ⟨hr, hk, fun h => Bool.noConfusion h⟩
  | rmClean => exact ⟨hr, hs.below_head, hk.2 rfl⟩
  | rmBeaten => exact ⟨hr, trivial⟩
  | rmRetry => exact ⟨hr, hk.1⟩
  | rmLen => exact ⟨hr', hl.gone hk⟩
  | rmRetire => exact ⟨hr', trivial⟩
  | ret => trivial

end Moves

/-! ## The invariant -/

/-- Two threads have not allocated the same node. -/
def Thread.Apart (a b : Thread) : Prop := ∀ p, a.fresh = some p → b.fresh ≠ some p

section Invariant

variable {maxLevel : ℕ} {m m' : Mem} {a b a' : Thread} {c : Choice}

@[simp] theorem fresh_found {r : Regs} {curr : ℕ} {k : After} :
    (Thread.busy r (.found m r curr k)).fresh = none := by
  cases k <;> simp only [Pc.found, Pc.rmDown] <;> (repeat' split) <;> rfl

@[simp] theorem fresh_insUp {r : Regs} {node level : ℕ} :
    (Thread.busy r (.insUp r.topLevel node level)).fresh = none := by
  rw [Pc.insUp]
  split <;> rfl

@[simp] theorem fresh_rmDown {r : Regs} {node level : ℕ} :
    (Thread.busy r (.rmDown node level)).fresh = none := by
  rw [Pc.rmDown]
  split <;> rfl

/-- A step starts a call or makes a move in one. -/
theorem step_cases (hst : step maxLevel m a c = some (m', a')) :
    (∃ op topLevel, c = .call op topLevel ∧ topLevel ≤ maxLevel ∧ a = .idle ∧ m' = m.invoke op ∧
        a' = .busy (.start m.calls op topLevel) (.start maxLevel op)) ∨
      ∃ r pc, c = .run ∧ a = .busy r pc ∧ Move maxLevel m r pc m' a' := by
  cases a with
  | idle =>
      cases c with
      | call op topLevel =>
          obtain ⟨htop, hst⟩ := Option.ite_none_right_eq_some.mp hst
          cases hst
          exact .inl ⟨op, topLevel, rfl, htop, rfl, rfl, rfl⟩
      | run => cases hst
  | busy r pc =>
      cases c with
      | call op topLevel => cases hst
      | run => exact .inr ⟨r, pc, rfl, rfl, move_of_exec hst⟩

theorem step_write (hs : Shape m.nodes) (ha : a.Knows m.nodes)
    (hst : step maxLevel m a c = some (m', a')) :
    Write m.nodes a.fresh m'.nodes ∧ a'.Knows m'.nodes := by
  rcases step_cases hst with ⟨op, topLevel, -, -, rfl, rfl, rfl⟩ | ⟨r, pc, -, rfl, hmv⟩
  · obtain ⟨ch, hb⟩ := hs.chain
    have hpub : m.nodes.Published head := hb.published head hb.head_mem
    refine ⟨.quiet, fun l => ⟨hpub, hpub⟩, ?_⟩
    cases op with
    | insert key val | remove key => exact ⟨hs.below_head, trivial⟩
    | get key => exact hs.below_head
  · exact ⟨hmv.write hs ha, hmv.knows hs ha⟩

/-- A move allocates at most the next address. -/
theorem Move.fresh {r : Regs} {pc : Pc} {th : Thread} (hmv : Move maxLevel m r pc m' th) {p : ℕ}
    (hp : th.fresh = some p) :
    (Thread.busy r pc).fresh = some p ∨ pc = .insAlloc ∧ p = m.nodes.length := by
  cases hmv with
  | insAlloc => exact .inr ⟨rfl, (Option.some.inj hp).symm⟩
  | insInit | insInitLast => exact .inl hp
  | findDone =>
      rw [fresh_found] at hp
      cases hp
  | published | linked =>
      rw [fresh_insUp] at hp
      cases hp
  | rmPassed =>
      rw [fresh_rmDown] at hp
      cases hp
  | _ => cases hp

theorem step_fresh (hst : step maxLevel m a c = some (m', a')) {p : ℕ} (hp : a'.fresh = some p) :
    a.fresh = some p ∨ p = m.nodes.length := by
  rcases step_cases hst with ⟨op, topLevel, -, -, rfl, rfl, rfl⟩ | ⟨r, pc, -, rfl, hmv⟩
  · cases op <;> cases hp
  · exact (hmv.fresh hp).imp_right And.right

theorem Thread.Knows.lt_length {h : Heap} {p : ℕ} (hk : b.Knows h) (hp : b.fresh = some p) :
    p < h.length := by
  cases b with
  | idle => cases hp
  | busy r pc =>
      cases pc with
      | insInit node level | insPub node =>
          cases hp
          exact hk.2.2.1.lt_length
      | _ => cases hp

/-- At the start the head is followed by the tail, at every level. -/
theorem shape_init : Shape Mem.withMaxLevel.nodes := by
  have hlink : ∀ p l lk, Mem.withMaxLevel.nodes.link p l = some lk →
      (p = head ∧ lk = ⟨some tail, false⟩) ∨ (p = tail ∧ lk = ⟨none, false⟩) := by
    intro p l lk hl
    match p with
    | 0 => exact .inl ⟨rfl, List.eq_of_mem_replicate (List.mem_of_getElem? hl)⟩
    | 1 => exact .inr ⟨rfl, List.eq_of_mem_replicate (List.mem_of_getElem? hl)⟩
    | p + 2 => cases hl
  refine ⟨?_, ?_, rfl, rfl, [head, tail], rfl, rfl, ?_, ?_, ?_, ?_, rfl⟩
  · intro p l q b hl
    rcases hlink p l _ hl with ⟨-, he⟩ | ⟨-, he⟩
    · cases he
      exact (by decide : 0 < maxHeight)
    · cases he
  · rintro p ⟨o, hl⟩
    rcases hlink p 0 _ hl with ⟨-, he⟩ | ⟨-, he⟩ <;> cases he
  · exact List.isChain_pair.mpr ⟨false, rfl⟩
  · exact List.pairwise_pair.mpr ((bot_lt_target []).trans (target_lt_top []))
  · intro p hp
    rcases List.mem_pair.mp hp with rfl | rfl <;> exact (by decide : 0 < maxHeight)
  · rintro p - ⟨o, hl⟩
    rcases hlink p 0 _ hl with ⟨rfl, -⟩ | ⟨rfl, -⟩ <;> simp

/-- **The level-0 invariant**: the heap is in shape, every thread knows what it needs, and no two
threads have allocated the same node. -/
def views (maxLevel : ℕ) : (threads maxLevel).Invariant where
  shared m := Shape m.nodes
  own m th := th.Knows m.nodes
  apart := Thread.Apart
  init_shared := shape_init
  init_own := trivial
  init_apart := nofun
  keep hs ha hst := by
    obtain ⟨hw, ha'⟩ := step_write hs ha hst
    exact ⟨hw.shape hs, ha'⟩
  bystander {m l c m' l' b} hs ha hb hab hba hst := by
    obtain ⟨hw, -⟩ := step_write hs ha hst
    refine ⟨hb.write hs hw fun p hp he => hba p hp he, ?_, ?_⟩
    · intro p hp
      rcases step_fresh hst hp with hl | rfl
      · exact hab p hl
      · exact fun hf => lt_irrefl _ (hb.lt_length hf)
    · intro p hp hl'
      rcases step_fresh hst hl' with hl | rfl
      · exact hba p hp hl
      · exact lt_irrefl _ (hb.lt_length hp)

end Invariant

end ZeroKv.SkipList
