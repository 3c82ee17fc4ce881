/-
# ZeroKv.SkipList.Upper — when every level of the skiplist is in order.

`insert` publishes its node on level 0 and links the upper levels later, with what an earlier `find` left in
the two arrays.  Meanwhile the node may be removed, and a node of the same key may stand where the array
says the successor is.  Level 0 does not suffer from it; an upper level does.

`linksLive` is the condition that no compare-exchange of a run links a node that is marked at that level, or
links it in front of a node of the same key.  Together with `keepsMarks` it keeps every level a chain from
the head to the tail that is strictly increasing in key, and lets no node return to a level it has left.
-/
import ZeroKv.SkipList.Hindsight
import ZeroKv.SkipList.Links

namespace ZeroKv.SkipList

/-- When `insert` links its node at an upper level, the node is not marked there and its successor has
another key. -/
def linksLive (m : Mem) : Thread → Choice → Bool
  | .busy r (.insLink node level), _ =>
      m.nodes.link (r.preds level) level ≠ some ⟨some (r.succs level), false⟩ ||
        ((m.nodes.link node level).all (!·.mark) && !(m.nodes.keyOf (r.succs level)).keyEq r.key)
  | _, _ => true

/-- The condition on the steps of `insert` above level 0. -/
def keepsLevels (m : Mem) (th : Thread) (c : Choice) : Bool := keepsMarks m th c && linksLive m th c

theorem keepsMarks_of_keepsLevels (m : Mem) (th : Thread) (c : Choice)
    (h : keepsLevels m th c = true) : keepsMarks m th c = true :=
  (Bool.and_eq_true_iff.mp h).1

/-! ## What a step does to the levels -/

/-- The links of every level, and the chains of the levels in use. -/
structure Levels (maxLevel : ℕ) (h : Heap) : Prop where
  /-- Only nodes linked at a level are linked to at that level. -/
  ref : ∀ p l q b, h.link p l = some ⟨some q, b⟩ → h.LinkedAt l q
  ordered : ∀ p l q b, h.LinkedAt l p → h.link p l = some ⟨some q, b⟩ → h.bound p < h.bound q
  chain : ∀ l ≤ maxLevel, ∃ ch, Level h l ch

/-- The effect of one step on the heap.  The index is the node that the acting thread is linking, from
its allocation until it is linked at all its levels. -/
inductive Change (h : Heap) : Option ℕ → Heap → Prop
  | quiet {x} : Change h x h
  | swap {x p v} : Change h x (h.setValue p v)
  | alloc {x key v top} : Change h x (h.alloc (.new key v top))
  | store {node l q lk} (hnode : h.linkedOf node ≤ l) (hl : h.link node l = some lk)
      (hq : h.LinkedAt l q) : Change h (some node) (h.setLink node l ⟨some q, false⟩)
  | link {pred succ node l} (hpred : h.LinkedAt l pred)
      (hl : h.link pred l = some ⟨some succ, false⟩) (hnode : h.linkedOf node = l)
      (hnl : h.link node l = some ⟨some succ, false⟩) (hlt : h.bound pred < h.bound node)
      (hgt : h.bound node < h.bound succ) :
      Change h (some node) ((h.setLink pred l ⟨some node, false⟩).setLinked node (l + 1))
  | splice {x pred curr succ l} (hpred : h.LinkedAt l pred)
      (hl : h.link pred l = some ⟨some curr, false⟩) (hc : h.link curr l = some ⟨some succ, true⟩) :
      Change h x (h.setLink pred l ⟨some succ, false⟩)
  | mark {x node l o} (hnode : node ≠ tail) (hl : h.link node l = some ⟨o, false⟩) :
      Change h x (h.setLink node l ⟨o, true⟩)

section Change

variable {h h' : Heap} {x : Option ℕ} {maxLevel l p q n : ℕ} {lk : Link} {ch : List ℕ}

/-- What else a change of this kind does is common to all steps. -/
theorem Change.relink (hc : Change h x h') : Relink h x h' := by
  cases hc with
  | quiet => exact .quiet
  | swap => exact .swap
  | alloc => exact .alloc
  | store hnode hl hq => exact .store hnode hl hq
  | link hpred hl hnode hnl => exact .link hpred hl hnode hnl
  | splice hpred hl hcurr => exact .splice hpred hl hcurr
  | mark hnode hl => exact .mark hnode hl

/-- Links go to larger keys. -/
theorem Change.ordered (hc : Change h x h') (hL : Levels maxLevel h) {b : Bool} (hp : h'.LinkedAt l p)
    (hq : h'.link p l = some ⟨some q, b⟩) : h'.bound p < h'.bound q := by
  -- links that were there keep their ends, and the keys of the ends
  have hold : h.LinkedAt l p → h.link p l = some ⟨some q, b⟩ → h'.bound p < h'.bound q := by
    intro hp hq
    rw [hc.relink.bound hp.lt_length, hc.relink.bound (hL.ref p l q b hq).lt_length]
    exact hL.ordered p l q b hp hq
  cases hc with
  | quiet => exact hold hp hq
  | swap => exact hold (Heap.linkedAt_setValue.mp hp) (by simpa using hq)
  | alloc =>
      rcases link_alloc_cases hq with he | hq
      · cases he
      · exact hold (Heap.linkedAt_alloc.mp hp) hq
  | store hnode hl hlq =>
      rcases Heap.link_setLink_cases hq with ⟨rfl, rfl, -⟩ | hq
      · exact absurd (Heap.linkedAt_setLink.mp hp) (Nat.not_lt.mpr hnode)
      · exact hold (Heap.linkedAt_setLink.mp hp) hq
  | link hpred hl hnode hnl hlt hgt =>
      rw [Heap.link_setLinked] at hq
      rw [Heap.linkedAt_setLinked (by simpa using Heap.lt_length_of_link hnl) (by simpa using hnode)] at hp
      rw [Heap.bound_setLinked, Heap.bound_setLinked, Heap.bound_setLink, Heap.bound_setLink]
      rcases Heap.link_setLink_cases hq with ⟨rfl, rfl, he⟩ | hq'
      · cases he
        exact hlt
      · rcases hp with ⟨rfl, rfl⟩ | hp
        · rw [hnl] at hq'
          cases hq'
          exact hgt
        · exact hL.ordered p l q b (Heap.linkedAt_setLink.mp hp) hq'
  | splice hpred hl hcurr =>
      rcases Heap.link_setLink_cases hq with ⟨rfl, rfl, he⟩ | hq
      · cases he
        rw [Heap.bound_setLink, Heap.bound_setLink]
        exact (hL.ordered _ _ _ _ hpred hl).trans
          (hL.ordered _ _ _ _ (hL.ref _ _ _ _ hl) hcurr)
      · exact hold (Heap.linkedAt_setLink.mp hp) hq
  | mark hnode hl =>
      rcases Heap.link_setLink_cases hq with ⟨rfl, rfl, he⟩ | hq
      · cases he
        rw [Heap.bound_setLink, Heap.bound_setLink]
        exact hL.ordered _ _ _ _ (Heap.linkedAt_setLink.mp hp) hl
      · exact hold (Heap.linkedAt_setLink.mp hp) hq

/-- A link write at another level, or of a node that is not linked at this level. -/
theorem Level.frame_setLink (hb : Level h l ch) (hne : n ≠ l ∨ ¬ h.LinkedAt l p) :
    Level (h.setLink p n lk) l ch := by
  refine hb.frame (fun q => Heap.linkedAt_setLink) (fun q hq => ?_) fun q _ => Heap.bound_setLink
  refine Heap.link_setLink_of_ne ?_
  rcases hne with hne | hp
  · exact .inr hne.symm
  · refine .inl ?_
    rintro rfl
    exact hp hq

/-- **What one step does to one level**: a node leaves only when it is marked there, and one comes only
when it was not linked there before, and is not marked. -/
theorem Change.level (hc : Change h x h') (hb : Level h l ch) :
    ∃ ch', Level h' l ch' ∧ (∀ p ∈ ch, p ∈ ch' ∨ h.MarkedAt l p) ∧
      ∀ p ∈ ch', p ∈ ch ∨ ¬ h.LinkedAt l p ∧ h.UnmarkedAt l p := by
  -- most steps leave the chain of the level as it is
  have hsame : Level h' l ch → ∃ ch', Level h' l ch' ∧ (∀ p ∈ ch, p ∈ ch' ∨ h.MarkedAt l p) ∧
      ∀ p ∈ ch', p ∈ ch ∨ ¬ h.LinkedAt l p ∧ h.UnmarkedAt l p :=
    fun hb' => ⟨ch, hb', fun _ hp => .inl hp, fun _ hp => .inl hp⟩
  cases hc with
  | quiet => exact hsame hb
  | swap => exact hsame (hb.frame (fun q => Heap.linkedAt_setValue) (fun q _ => by simp) fun q _ => by simp)
  | alloc =>
      refine hsame (hb.frame (fun q => Heap.linkedAt_alloc) (fun q hq => hq.link_alloc l) fun q hq => ?_)
      rw [Heap.bound, Heap.keyOf_alloc_of_ne hq.lt_length.ne, Heap.bound]
  | @store node n q lk hnode hl hq =>
      refine hsame (hb.frame_setLink ?_)
      by_cases hn : n = l
      · subst hn
        exact .inr (Nat.not_lt.mpr hnode)
      · exact .inl hn
  -- a link or a splice at another level does not show here
  | @link pred succ node n hpred hl hnode hnl hlt hgt =>
      by_cases hn : n = l
      · subst hn
        obtain ⟨a, c, rfl, hb'⟩ := hb.insert hpred hl hnode hnl hlt hgt
        refine ⟨_, hb', fun p hp => .inl ?_, fun p hp => ?_⟩
        · simp only [List.mem_append, List.mem_cons] at hp ⊢
          tauto
        · by_cases hpn : p = node
          · subst hpn
            exact .inr ⟨by rw [Heap.LinkedAt, hnode]; exact lt_irrefl n, _, hnl⟩
          · refine .inl ?_
            simp only [List.mem_append, List.mem_cons] at hp ⊢
            tauto
      · have hb₁ : Level (h.setLink pred n ⟨some node, false⟩) l ch := hb.frame_setLink (.inl hn)
        refine hsame (hb₁.frame (fun q => ?_) (fun q _ => by simp) fun q _ => by simp)
        rw [Heap.linkedAt_setLinked (by simpa using Heap.lt_length_of_link hnl) (by simpa using hnode)]
        simp [Ne.symm hn]
  | @splice _ pred curr succ n hpred hl hcurr =>
      by_cases hn : n = l
      · subst hn
        obtain ⟨a, c, rfl, hb'⟩ := hb.splice hpred hl hcurr
        refine ⟨_, hb', fun p hp => ?_, fun p hp => .inl ?_⟩
        · by_cases hpc : p = curr
          · subst hpc
            exact .inr ⟨_, hcurr⟩
          · refine .inl ?_
            simp only [List.mem_append, List.mem_cons] at hp ⊢
            tauto
        · simp only [List.mem_append, List.mem_cons] at hp ⊢
          tauto
      · exact hsame (hb.frame_setLink (.inl hn))
  | @mark _ node n o hnode hl =>
      by_cases hn : n = l
      · subst hn
        exact hsame (hb.mark hnode hl)
      · exact hsame (hb.frame_setLink (.inl hn))

theorem Change.levels (hc : Change h x h') (hL : Levels maxLevel h) : Levels maxLevel h' where
  ref _ _ _ _ hq := hc.relink.ref hL.ref hq
  ordered _ _ _ _ hp hq := hc.ordered hL hp hq
  chain l hl := by
    obtain ⟨ch, hb⟩ := hL.chain l hl
    obtain ⟨ch', hb', -⟩ := hc.level hb
    exact ⟨ch', hb'⟩

end Change

/-! ## Every step is a change of this kind -/

section Moves

variable {maxLevel : ℕ} {m m' : Mem} {r : Regs} {pc : Pc} {th : Thread}

/-- The effect of a step on the heap, when `insert` meets the condition. -/
theorem Move.change (hmv : Move maxLevel m r pc m' th) (hs : Shape m.nodes)
    (hk : (Thread.busy r pc).Knows m.nodes) (hb : (Thread.busy r pc).Builds maxLevel m.nodes)
    (hc : keepsLevels m (.busy r pc) .run = true) : Change m.nodes pc.building m'.nodes := by
  obtain ⟨-, hk⟩ := hk
  obtain ⟨htop, hr, hb⟩ := hb
  cases hmv with
  | spliced hl => exact .splice hb.2.1 hl hb.2.2.1
  | insAlloc => exact .alloc
  | insInit hl | insInitLast hl =>
      exact .store (hk.2.1.linked.le.trans (Nat.zero_le _)) hl (hr _ (hb.2.trans htop)).2
  | published hl =>
      obtain ⟨hgap, hp, hnl⟩ := hk
      refine .link (hr 0 (Nat.zero_le _)).1 hl hp.linked hnl ?_ ?_
      · rw [hp.bound]
        exact hgap.1
      · rw [hp.bound]
        exact hgap.2
  | insStore hl => exact .store hb.2.linked.le hl (hr _ (hb.2.le_top.trans htop)).2
  | @linked node level hl =>
      obtain ⟨hfill, hn, b, hnl⟩ := hb
      have hle := hn.le_top.trans htop
      -- the condition speaks, since the compare-exchange succeeds
      obtain ⟨hu, hne⟩ : b = false ∧ (m.nodes.keyOf (r.succs level)).keyEq r.key = false := by
        have := (Bool.and_eq_true_iff.mp hc).2
        simpa [linksLive, hl, hnl] using this
      subst hu
      refine .link (hr level hle).1 hl hn.linked hnl ?_ ?_
      · rw [hn.bound]
        exact (hfill level (Nat.zero_le _) hle).1
      · rw [hn.bound]
        refine lt_of_le_of_ne (hfill level (Nat.zero_le _) hle).2 fun he => ?_
        exact Bool.eq_false_iff.mp hne (BoundKey.keyEq_iff.mpr he.symm)
  | swapped | swappedNull => exact .swap
  | rmMarked hl => exact .mark (Heap.ne_tail_of_bound_le hs.tail_key hk.1.2.le) hl
  | removed hl => exact .mark (Heap.ne_tail_of_bound_le hs.tail_key hk.2.le) hl
  | insLen =>
      rw [Mem.nodes_incLen]
      exact .quiet
  | rmLen =>
      rw [Mem.nodes_decLen]
      exact .quiet
  | _ => exact .quiet

theorem Levels.linkedAt_head {h : Heap} (hL : Levels maxLevel h) {l : ℕ} (hl : l ≤ maxLevel) :
    h.LinkedAt l head := by
  obtain ⟨ch, hb⟩ := hL.chain l hl
  exact hb.published head hb.head_mem

end Moves

/-! ## The invariant -/

section Invariant

variable {maxLevel : ℕ} {m m' : Mem} {a b a' : Thread} {c : Choice}

/-- The effect of a step of the restricted threads, and what the acting thread knows after it. -/
theorem step_change (hs : Shape m.nodes) (ha : a.Knows m.nodes) (hL : Levels maxLevel m.nodes)
    (hb : a.Builds maxLevel m.nodes)
    (hst : ((threads maxLevel).restrict keepsLevels).step m a c = some (m', a')) :
    Change m.nodes a.building m'.nodes ∧ a'.Builds maxLevel m'.nodes := by
  obtain ⟨hcond, hst⟩ := Threads.restrict_step.mp hst
  rcases step_cases hst with ⟨op, topLevel, -, htop, rfl, rfl, rfl⟩ | ⟨r, pc, rfl, rfl, hmv⟩
  · have hhead : ∀ l ≤ maxLevel, m.nodes.LinkedAt l head := fun l hl => hL.linkedAt_head hl
    exact ⟨.quiet, htop, fun l hl => ⟨hhead l hl, hhead l hl⟩, builds_start (hhead maxLevel le_rfl)⟩
  · have hc := hmv.change hs ha hb hcond
    exact ⟨hc, hmv.builds hL.ref (hL.linkedAt_head le_rfl) ha hb hc.relink⟩

/-- At the start the head is followed by the tail, at every level. -/
theorem levels_init (hmax : maxLevel < maxHeight) : Levels maxLevel Mem.withMaxLevel.nodes := by
  have horder : Mem.withMaxLevel.nodes.bound head < Mem.withMaxLevel.nodes.bound tail :=
    (bot_lt_target []).trans (target_lt_top [])
  refine ⟨fun p l q b hl => ?_, fun p l q b _ hl => ?_, fun l hl => ⟨[head, tail], ?_⟩⟩
  · obtain ⟨hlt, ⟨-, he⟩ | ⟨-, he⟩⟩ := link_init hl
    · cases he
      exact hlt
    · cases he
  · obtain ⟨-, ⟨rfl, he⟩ | ⟨-, he⟩⟩ := link_init hl
    · cases he
      exact horder
    · cases he
  · have hlt : l < maxHeight := lt_of_le_of_lt hl hmax
    have hhead : Mem.withMaxLevel.nodes.link head l = some ⟨some tail, false⟩ :=
      List.getElem?_replicate_of_lt hlt
    have htail : Mem.withMaxLevel.nodes.link tail l = some ⟨none, false⟩ :=
      List.getElem?_replicate_of_lt hlt
    refine ⟨rfl, rfl, List.isChain_pair.mpr ⟨false, hhead⟩, List.pairwise_pair.mpr horder, ?_, ?_, htail⟩
    · intro p hp
      rcases List.mem_pair.mp hp with rfl | rfl <;> exact hlt
    · rintro p - ⟨o, hp⟩
      obtain ⟨-, ⟨rfl, -⟩ | ⟨rfl, -⟩⟩ := link_init hp <;> simp

/-- **Every level is in order**, as long as `insert` meets the condition. -/
def upper (maxLevel : ℕ) (hmax : maxLevel < maxHeight) :
    (marked maxLevel keepsLevels keepsMarks_of_keepsLevels).Extra where
  shared m := Levels maxLevel m.nodes
  own m th := th.Builds maxLevel m.nodes
  apart a b := ∀ p, a.building = some p → b.building ≠ some p
  init_shared := levels_init hmax
  init_own := trivial
  init_apart := nofun
  keep hs ha hL hb hst := by
    obtain ⟨hc, hb'⟩ := step_change hs.1 ha.1 hL hb hst
    exact ⟨hc.levels hL, hb'⟩
  bystander {m l c m' l' b} hs ha hb _ hL hbl hbb hab hba hst := by
    obtain ⟨hc, -⟩ := step_change hs.1 ha.1 hL hbl hst
    obtain ⟨he, -⟩ := step_edit keepsMarks_of_keepsLevels ha.1 hs.2 ha.2 hst
    obtain ⟨-, hst⟩ := Threads.restrict_step.mp hst
    refine ⟨hbb.change hb.1 hc.relink he.frozen fun p hp he => hba p hp he, ?_⟩
    exact Thread.BuildsApart.step hab hba hb.1 hst

end Invariant

end ZeroKv.SkipList
