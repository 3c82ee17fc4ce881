/-
# ZeroKv.SkipList.Links — the links of every level, whatever the keys.

Above level 0 the links of a tower are prepared and set one by one, with what an earlier `find` left in the
two arrays.  `Relink` lists what a step can do to the links of any level, without asking for an order of
keys: an insert may link a node that is marked by then, or in front of a node of the same key.

Even so, a level never falls apart.  Under `keepsMarks` a link that a search splices past is the one it
read, since a marked link does not change.  So from every node that is linked at a level, the links of
that level lead to the tail: `Grounded` says that only linked nodes are linked to, that only the tail has no
successor, and that the links of a level have a rank.
-/
import ZeroKv.Lib.Rank
import ZeroKv.SkipList.Sweep

namespace ZeroKv.SkipList

/-! ## What a step does to the links -/

/-- The effect of one step on the heap.  The index is the node that the acting thread is linking, from
its allocation until it is linked at all its levels. -/
inductive Relink (h : Heap) : Option ℕ → Heap → Prop
  | quiet {x} : Relink h x h
  | swap {x p v} : Relink h x (h.setValue p v)
  | alloc {x key v top} : Relink h x (h.alloc (.new key v top))
  | store {node l q lk} (hnode : h.linkedOf node ≤ l) (hl : h.link node l = some lk)
      (hq : h.LinkedAt l q) : Relink h (some node) (h.setLink node l ⟨some q, false⟩)
  | link {pred succ node l b} (hpred : h.LinkedAt l pred)
      (hl : h.link pred l = some ⟨some succ, false⟩) (hnode : h.linkedOf node = l)
      (hnl : h.link node l = some ⟨some succ, b⟩) :
      Relink h (some node) ((h.setLink pred l ⟨some node, false⟩).setLinked node (l + 1))
  | splice {x pred curr succ l} (hpred : h.LinkedAt l pred)
      (hl : h.link pred l = some ⟨some curr, false⟩) (hc : h.link curr l = some ⟨some succ, true⟩) :
      Relink h x (h.setLink pred l ⟨some succ, false⟩)
  | mark {x node l o} (hnode : node ≠ tail) (hl : h.link node l = some ⟨o, false⟩) :
      Relink h x (h.setLink node l ⟨o, true⟩)

section Relink

variable {h h' : Heap} {x : Option ℕ} {maxLevel l p q n : ℕ} {lk : Link}

namespace Heap

@[simp] theorem linkedAt_setLink {l' : ℕ} : (h.setLink p l lk).LinkedAt l' q ↔ h.LinkedAt l' q := by
  simp [LinkedAt]

@[simp] theorem linkedAt_setValue {v : Option ℕ} : (h.setValue p v).LinkedAt l q ↔ h.LinkedAt l q := by
  simp [LinkedAt]

theorem linkedAt_alloc {key : BoundKey} {v : Option ℕ} {top : ℕ} :
    (h.alloc (.new key v top)).LinkedAt l q ↔ h.LinkedAt l q := by
  by_cases hq : q = h.length
  · subst hq
    have hout : ¬ h.LinkedAt l h.length := fun hp => lt_irrefl _ hp.lt_length
    refine ⟨fun hp => ?_, fun hp => absurd hp hout⟩
    rw [LinkedAt, linkedOf_alloc_self] at hp
    exact absurd hp (Nat.not_lt_zero l)
  · rw [LinkedAt, linkedOf_alloc_of_ne hq]
    rfl

/-- A node of the heap keeps its links when another one is allocated. -/
theorem LinkedAt.link_alloc {nd : Node} (hp : h.LinkedAt l p) (l' : ℕ) :
    (h.alloc nd).link p l' = h.link p l' :=
  link_alloc_of_ne hp.lt_length.ne

/-- A write to a link that is part of a level does not touch one that is not. -/
theorem LinkedAt.link_setLink_of_not (hp : h.LinkedAt l p) {l' : ℕ} (hq : ¬ h.LinkedAt l' q) :
    (h.setLink p l lk).link q l' = h.link q l' := by
  refine link_setLink_of_ne ?_
  by_contra hcon
  obtain ⟨rfl, rfl⟩ : q = p ∧ l' = l := by simpa using hcon
  exact hq hp

theorem link_setLink_some {k : Link} {l' : ℕ} (hq : h.link q l' = some k) :
    ∃ k', (h.setLink p l lk).link q l' = some k' :=
  Option.isSome_iff_exists.mp (isSome_link_setLink.trans (by rw [hq]; rfl))

theorem LinkedAt.down (hp : h.LinkedAt l p) (hle : n ≤ l) : h.LinkedAt n p := lt_of_le_of_lt hle hp

end Heap

/-- A node stays linked where it is. -/
theorem Relink.linkedAt (hc : Relink h x h') (hp : h.LinkedAt l p) : h'.LinkedAt l p := by
  cases hc with
  | quiet => exact hp
  | swap => exact Heap.linkedAt_setValue.mpr hp
  | alloc => exact Heap.linkedAt_alloc.mpr hp
  | store | splice | mark => exact Heap.linkedAt_setLink.mpr hp
  | link hpred hl hnode hnl =>
      refine (Heap.linkedAt_setLinked ?_ (by simpa using hnode)).mpr (.inr ?_)
      · simpa using Heap.lt_length_of_link hnl
      · exact Heap.linkedAt_setLink.mpr hp

theorem Relink.bound (hc : Relink h x h') (hp : p < h.length) : h'.bound p = h.bound p := by
  cases hc with
  | quiet => rfl
  | swap | store | splice | mark | link => simp
  | alloc => rw [Heap.bound, Heap.keyOf_alloc_of_ne hp.ne, Heap.bound]

/-- What is linked to is linked. -/
theorem Relink.ref (hc : Relink h x h')
    (href : ∀ p l q b, h.link p l = some ⟨some q, b⟩ → h.LinkedAt l q) {b : Bool}
    (hq : h'.link p l = some ⟨some q, b⟩) : h'.LinkedAt l q := by
  have hold : h.link p l = some ⟨some q, b⟩ → h'.LinkedAt l q := fun hq =>
    hc.linkedAt (href p l q b hq)
  cases hc with
  | quiet => exact hold hq
  | swap => exact hold (by simpa using hq)
  | alloc =>
      rcases link_alloc_cases hq with he | hq
      · cases he
      · exact hold hq
  | store hnode hl hlq =>
      rcases Heap.link_setLink_cases hq with ⟨-, rfl, he⟩ | hq
      · cases he
        exact Heap.linkedAt_setLink.mpr hlq
      · exact hold hq
  | link hpred hl hnode hnl =>
      rw [Heap.link_setLinked] at hq
      rcases Heap.link_setLink_cases hq with ⟨-, rfl, he⟩ | hq
      · cases he
        rw [Heap.linkedAt_setLinked (by simpa using Heap.lt_length_of_link hnl) (by simpa using hnode)]
        exact .inl ⟨rfl, rfl⟩
      · exact hold hq
  | splice hpred hl hcurr =>
      rcases Heap.link_setLink_cases hq with ⟨-, rfl, he⟩ | hq
      · cases he
        exact Heap.linkedAt_setLink.mpr (href _ _ _ _ hcurr)
      · exact hold hq
  | mark hnode hl =>
      rcases Heap.link_setLink_cases hq with ⟨-, rfl, he⟩ | hq
      · cases he
        exact Heap.linkedAt_setLink.mpr (href _ _ _ _ hl)
      · exact hold hq

/-- What another thread leaves alone of a node that this one is linking: how far it is linked, and where
its next link goes. -/
theorem Relink.linking (hc : Relink h x h') (hx : x ≠ some p) (hp : p < h.length) :
    h'.linkedOf p = h.linkedOf p ∧
      ∀ l o b, h.linkedOf p ≤ l → h.link p l = some ⟨o, b⟩ → ∃ b', h'.link p l = some ⟨o, b'⟩ := by
  have hset : ∀ {p' n lk'}, p ≠ p' → ∀ l o b, h.link p l = some ⟨o, b⟩ →
      (h.setLink p' n lk').link p l = some ⟨o, b⟩ := fun hne l o b hl =>
    (Heap.link_setLink_of_ne (.inl hne)).trans hl
  cases hc with
  | quiet => exact ⟨rfl, fun l o b _ hl => ⟨b, hl⟩⟩
  | swap => exact ⟨by simp, fun l o b _ hl => ⟨b, by simpa using hl⟩⟩
  | alloc =>
      exact ⟨Heap.linkedOf_alloc_of_ne hp.ne, fun l o b _ hl => ⟨b, (Heap.link_alloc_of_ne hp.ne).trans hl⟩⟩
  | @store node n q lk hnode hl hq =>
      have hne : p ≠ node := fun he => hx (congrArg some he.symm)
      exact ⟨by simp, fun l o b _ hl => ⟨b, hset hne l o b hl⟩⟩
  | @link pred succ node n b₀ hpred hl hnode hnl =>
      have hne : p ≠ node := fun he => hx (congrArg some he.symm)
      refine ⟨by rw [Heap.linkedOf_setLinked_of_ne hne, Heap.linkedOf_setLink], fun l o b hle hlk => ?_⟩
      exact ⟨b, by rw [Heap.link_setLinked, hpred.link_setLink_of_not (Nat.not_lt.mpr hle), hlk]⟩
  | @splice _ pred curr succ n hpred hl hcurr =>
      exact ⟨by simp, fun l o b hle hlk =>
        ⟨b, (hpred.link_setLink_of_not (Nat.not_lt.mpr hle)).trans hlk⟩⟩
  | @mark _ node n o' hnode hl =>
      refine ⟨by simp, fun l o b _ hlk => ?_⟩
      by_cases he : p = node ∧ l = n
      · obtain ⟨rfl, rfl⟩ := he
        rw [hl] at hlk
        cases hlk
        exact ⟨true, Heap.link_setLink_self hl⟩
      · refine ⟨b, (Heap.link_setLink_of_ne ?_).trans hlk⟩
        by_contra hcon
        exact he (by simpa using hcon)

end Relink

/-! ## Every level leads to the tail -/

/-- One link of a level. -/
def Heap.Hop (h : Heap) (l p q : ℕ) : Prop := h.LinkedAt l p ∧ h.NextAt l p q

/-- The links of every level lead to the tail. -/
structure Grounded (maxLevel : ℕ) (h : Heap) : Prop where
  /-- Only nodes linked at a level are linked to at that level. -/
  ref : ∀ p l q b, h.link p l = some ⟨some q, b⟩ → h.LinkedAt l q
  head : ∀ l ≤ maxLevel, h.LinkedAt l head
  link : ∀ p l, h.LinkedAt l p → ∃ lk, h.link p l = some lk
  /-- Only the tail has no successor, and it is not marked. -/
  null : ∀ p l b, h.LinkedAt l p → h.link p l = some ⟨none, b⟩ → p = tail ∧ b = false
  ranked : ∀ l, Ranked (h.Hop l)

section Grounded

variable {h h' : Heap} {x : Option ℕ} {maxLevel l p q : ℕ} {lk : Link}

/-- Where a node is linked after a step: where it was before, or where its insert has just linked it. -/
theorem Relink.linkedAt_cases (hc : Relink h x h') (hp : h'.LinkedAt l p) :
    h.LinkedAt l p ∨ ∃ succ b, h.linkedOf p = l ∧ h.link p l = some ⟨some succ, b⟩ ∧
      h'.link p l = some ⟨some succ, b⟩ := by
  cases hc with
  | quiet => exact .inl hp
  | swap => exact .inl (Heap.linkedAt_setValue.mp hp)
  | alloc => exact .inl (Heap.linkedAt_alloc.mp hp)
  | store | splice | mark => exact .inl (Heap.linkedAt_setLink.mp hp)
  | @link pred succ node n b hpred hl hnode hnl =>
      rw [Heap.linkedAt_setLinked (by simpa using Heap.lt_length_of_link hnl) (by simpa using hnode)] at hp
      rcases hp with ⟨rfl, rfl⟩ | hp
      · have hne : p ≠ pred := by
          rintro rfl
          exact absurd hpred (Nat.not_lt.mpr hnode.le)
        refine .inr ⟨succ, b, hnode, hnl, ?_⟩
        rw [Heap.link_setLinked, Heap.link_setLink_of_ne (.inl hne), hnl]
      · exact .inl (Heap.linkedAt_setLink.mp hp)

/-- A linked node that has no successor after a step had none before, and was not marked. -/
theorem Relink.null {b : Bool} (hc : Relink h x h') (hg : Grounded maxLevel h) (hp : h'.LinkedAt l p)
    (hlk : h'.link p l = some ⟨none, b⟩) : p = tail ∧ b = false := by
  rcases hc.linkedAt_cases hp with hold | ⟨succ, b', -, -, hnew⟩
  · cases hc with
    | quiet => exact hg.null p l b hold hlk
    | swap => exact hg.null p l b hold (by simpa using hlk)
    | alloc => exact hg.null p l b hold ((hold.link_alloc l).symm.trans hlk)
    | store | splice =>
        rcases Heap.link_setLink_cases hlk with ⟨-, -, he⟩ | hlk
        · cases he
        · exact hg.null p l b hold hlk
    | link =>
        rw [Heap.link_setLinked] at hlk
        rcases Heap.link_setLink_cases hlk with ⟨-, -, he⟩ | hlk
        · cases he
        · exact hg.null p l b hold hlk
    | mark hnode hl =>
        rcases Heap.link_setLink_cases hlk with ⟨rfl, rfl, he⟩ | hlk
        · cases he
          exact absurd (hg.null p l false hold hl).1 hnode
        · exact hg.null p l b hold hlk
  · rw [hnew] at hlk
    cases hlk

theorem Relink.link_some (hc : Relink h x h') (hlk : h.link p l = some lk) :
    ∃ lk', h'.link p l = some lk' := by
  cases hc with
  | quiet => exact ⟨lk, hlk⟩
  | swap => exact ⟨lk, by simpa using hlk⟩
  | alloc => exact ⟨lk, (Heap.link_alloc_of_ne (Heap.lt_length_of_link hlk).ne).trans hlk⟩
  | store | splice | mark => exact Heap.link_setLink_some hlk
  | link =>
      rw [Heap.link_setLinked]
      exact Heap.link_setLink_some hlk

/-- A splice takes a link past one node. -/
theorem Grounded.ranks_splice {rank : ℕ → ℕ} {pred curr succ : ℕ} (hg : Grounded maxLevel h)
    (hrank : Ranks rank (h.Hop l)) (hpred : h.LinkedAt l pred)
    (hl : h.link pred l = some ⟨some curr, false⟩) (hcurr : h.link curr l = some ⟨some succ, true⟩) :
    Ranks rank ((h.setLink pred l ⟨some succ, false⟩).Hop l) := by
  refine hrank.of_transGen fun p q ⟨hp, b, hq⟩ => ?_
  rcases Heap.link_setLink_cases hq with ⟨rfl, -, he⟩ | hq
  · cases he
    exact .tail (.single ⟨hpred, false, hl⟩) ⟨hg.ref _ _ _ _ hl, true, hcurr⟩
  · exact .single ⟨Heap.linkedAt_setLink.mp hp, b, hq⟩

/-- The links of a level keep a rank: a splice takes a link past one node, and a node is linked between two
that were linked to each other. -/
theorem Relink.ranked (hc : Relink h x h') (hg : Grounded maxLevel h) (l : ℕ) : Ranked (h'.Hop l) := by
  have hold := hg.ranked l
  cases hc with
  | quiet => exact hold
  | swap => exact hold.mono fun p q hpq => by simpa [Heap.Hop, Heap.NextAt] using hpq
  | alloc =>
      refine hold.mono fun p q ⟨hp, b, hq⟩ => ?_
      have hp := Heap.linkedAt_alloc.mp hp
      exact ⟨hp, b, (hp.link_alloc l).symm.trans hq⟩
  -- a store only touches a node that is not yet linked at this level
  | store hnode hl hlq =>
      refine hold.mono fun p q ⟨hp, b, hq⟩ => ?_
      have hp' := Heap.linkedAt_setLink.mp hp
      rcases Heap.link_setLink_cases hq with ⟨rfl, rfl, -⟩ | hq'
      · exact absurd hp' (Nat.not_lt.mpr hnode)
      · exact ⟨hp', b, hq'⟩
  | mark hnode hl =>
      refine hold.mono fun p q ⟨hp, b, hq⟩ => ?_
      have hp' := Heap.linkedAt_setLink.mp hp
      rcases Heap.link_setLink_cases hq with ⟨rfl, rfl, he⟩ | hq'
      · cases he
        exact ⟨hp', false, hl⟩
      · exact ⟨hp', b, hq'⟩
  | @splice _ pred curr succ n hpred hl hcurr =>
      by_cases hn : l = n
      · subst hn
        obtain ⟨rank, hold⟩ := hold
        exact ⟨rank, hg.ranks_splice hold hpred hl hcurr⟩
      · refine hold.mono fun p q ⟨hp, b, hq⟩ => ⟨Heap.linkedAt_setLink.mp hp, b, ?_⟩
        rwa [Heap.link_setLink_of_ne (.inr hn)] at hq
  | @link pred succ node n b₀ hpred hl hnode hnl =>
      have hlen : node < (h.setLink pred n ⟨some node, false⟩).length := by
        simpa using Heap.lt_length_of_link hnl
      -- nothing leads to the new node or from it, so it fits between its two neighbours
      have hout : ¬ h.LinkedAt n node := Nat.not_lt.mpr hnode.le
      by_cases hn : l = n
      · subst hn
        refine hold.insert ⟨hpred, false, hl⟩ (fun q hq => hout hq.1)
          (fun p ⟨_, b, hp⟩ => hout (hg.ref _ _ _ _ hp)) fun p q ⟨hp, b, hq⟩ => ?_
        rw [Heap.link_setLinked] at hq
        rw [Heap.linkedAt_setLinked hlen (by simpa using hnode)] at hp
        rcases Heap.link_setLink_cases hq with ⟨rfl, -, he⟩ | hq'
        · cases he
          exact .inr (.inl ⟨rfl, rfl⟩)
        · rcases hp with ⟨rfl, -⟩ | hp
          · rw [hnl] at hq'
            cases hq'
            exact .inr (.inr ⟨rfl, rfl⟩)
          · exact .inl ⟨Heap.linkedAt_setLink.mp hp, b, hq'⟩
      · refine hold.mono fun p q ⟨hp, b, hq⟩ => ?_
        rw [Heap.link_setLinked, Heap.link_setLink_of_ne (.inr hn)] at hq
        rw [Heap.linkedAt_setLinked hlen (by simpa using hnode)] at hp
        rcases hp with ⟨-, he⟩ | hp
        · exact absurd he hn
        · exact ⟨Heap.linkedAt_setLink.mp hp, b, hq⟩

/-- **No step breaks a level.** -/
theorem Relink.grounded (hc : Relink h x h') (hg : Grounded maxLevel h) : Grounded maxLevel h' where
  ref _ _ _ _ hq := hc.ref hg.ref hq
  head l hl := hc.linkedAt (hg.head l hl)
  link p l hp := by
    rcases hc.linkedAt_cases hp with hp | ⟨succ, b, -, -, hnew⟩
    · obtain ⟨lk, hlk⟩ := hg.link p l hp
      exact hc.link_some hlk
    · exact ⟨_, hnew⟩
  null _ _ _ hp hlk := hc.null hg hp hlk
  ranked l := hc.ranked hg l

end Grounded

/-! ## What a call knows about the upper levels -/

/-- What `find` has left in the two arrays for the levels from `lo` up. -/
def Regs.Filled (maxLevel : ℕ) (h : Heap) (r : Regs) (lo : ℕ) : Prop :=
  ∀ l, lo ≤ l → l ≤ maxLevel →
    h.bound (r.preds l) < target r.key ∧ target r.key ≤ h.bound (r.succs l)

/-- The node of an insert is linked below `level`, which is next. -/
structure Regs.Climbs (h : Heap) (r : Regs) (node level : ℕ) : Prop where
  linked : h.linkedOf node = level
  bound : h.bound node = target r.key
  le_top : level ≤ r.topLevel

/-- What the caller of a running `find` relies on, when the search is at `level`. -/
def After.Builds (maxLevel : ℕ) (h : Heap) (r : Regs) (level : ℕ) : After → Prop
  | .insert => r.Filled maxLevel h (level + 1)
  | .relink node next => r.Filled maxLevel h 0 ∧ r.Climbs h node next
  | .remove | .clean _ => True

/-- What a call knows at its program point. -/
def Pc.Builds (maxLevel : ℕ) (h : Heap) (r : Regs) : Pc → Prop
  | .findRef a level pred => level ≤ maxLevel ∧ h.LinkedAt level pred ∧ a.Builds maxLevel h r level
  | .findGet a level pred curr =>
      level ≤ maxLevel ∧ h.LinkedAt level pred ∧ h.LinkedAt level curr ∧ a.Builds maxLevel h r level
  | .findSplice a level pred curr succ =>
      level ≤ maxLevel ∧ h.LinkedAt level pred ∧ h.link curr level = some ⟨some succ, true⟩ ∧
        a.Builds maxLevel h r level
  | .insAlloc | .insPub _ => r.Filled maxLevel h 0
  | .insInit _ level => r.Filled maxLevel h 0 ∧ level ≤ r.topLevel
  | .insStore node level => r.Filled maxLevel h 0 ∧ r.Climbs h node level
  | .insLink node level =>
      r.Filled maxLevel h 0 ∧ r.Climbs h node level ∧
        ∃ b, h.link node level = some ⟨some (r.succs level), b⟩
  | .getRef level pred => level ≤ maxLevel ∧ h.LinkedAt level pred
  | .getGet level pred curr => level ≤ maxLevel ∧ h.LinkedAt level pred ∧ h.LinkedAt level curr
  | _ => True

/-- What a thread knows. -/
def Thread.Builds (maxLevel : ℕ) (h : Heap) : Thread → Prop
  | .idle => True
  | .busy r pc =>
      r.topLevel ≤ maxLevel ∧
        (∀ l ≤ maxLevel, h.LinkedAt l (r.preds l) ∧ h.LinkedAt l (r.succs l)) ∧ pc.Builds maxLevel h r

/-- The node that an insert is linking when it searches again. -/
def After.building : After → Option ℕ
  | .relink node _ => some node
  | _ => none

def Pc.building : Pc → Option ℕ
  | .findRef a _ _ | .findGet a _ _ _ | .findSplice a _ _ _ _ => a.building
  | .insInit node _ | .insPub node | .insStore node _ | .insLink node _ => some node
  | _ => none

/-- The node that a thread has allocated and not yet linked at all its levels. -/
def Thread.building : Thread → Option ℕ
  | .idle => none
  | .busy _ pc => pc.building

/-! ## Knowledge is stable -/

section Stable

variable {maxLevel : ℕ} {h h' : Heap} {x : Option ℕ} {r : Regs} {lo level node : ℕ} {th : Thread}

theorem Regs.Filled.change (hf : r.Filled maxLevel h lo) (hc : Relink h x h')
    (hr : ∀ l ≤ maxLevel, h.LinkedAt l (r.preds l) ∧ h.LinkedAt l (r.succs l)) :
    r.Filled maxLevel h' lo := by
  intro l hlo hl
  rw [hc.bound (hr l hl).1.lt_length, hc.bound (hr l hl).2.lt_length]
  exact hf l hlo hl

/-- The node of an insert is linked by that insert only. -/
theorem Regs.Climbs.change (hn : r.Climbs h node level) (hc : Relink h x h') (hx : x ≠ some node)
    (hp : h.Published node) : r.Climbs h' node level :=
  ⟨(hc.linking hx hp.lt_length).1.trans hn.linked, (hc.bound hp.lt_length).trans hn.bound, hn.le_top⟩

theorem After.Builds.change {a : After} (ha : a.Builds maxLevel h r level) (hk : a.Knows h)
    (hc : Relink h x h') (hx : ∀ p, a.building = some p → x ≠ some p)
    (hr : ∀ l ≤ maxLevel, h.LinkedAt l (r.preds l) ∧ h.LinkedAt l (r.succs l)) :
    a.Builds maxLevel h' r level := by
  cases a with
  | insert => exact Regs.Filled.change ha hc hr
  | relink node next => exact ⟨ha.1.change hc hr, ha.2.change hc (hx node rfl) hk.1⟩
  | remove | clean node => trivial

/-- What a bystander knows stays true. -/
theorem Thread.Builds.change (hb : th.Builds maxLevel h) (hk : th.Knows h) (hc : Relink h x h')
    (hf : Frozen h h') (hx : ∀ p, th.building = some p → x ≠ some p) : th.Builds maxLevel h' := by
  cases th with
  | idle => trivial
  | busy r pc =>
      obtain ⟨htop, hr, hb⟩ := hb
      obtain ⟨-, hk⟩ := hk
      refine ⟨htop, fun l hl => ⟨hc.linkedAt (hr l hl).1, hc.linkedAt (hr l hl).2⟩, ?_⟩
      cases pc with
      | findRef a level pred => exact ⟨hb.1, hc.linkedAt hb.2.1, hb.2.2.change hk.2 hc hx hr⟩
      | findGet a level pred curr =>
          obtain ⟨hle, hpred, hcurr, ha⟩ := hb
          exact ⟨hle, hc.linkedAt hpred, hc.linkedAt hcurr, ha.change hk.2.2 hc hx hr⟩
      | findSplice a level pred curr succ =>
          obtain ⟨hle, hpred, hcurr, ha⟩ := hb
          exact ⟨hle, hc.linkedAt hpred, hf.link _ _ _ hcurr, ha.change hk.2.2.2 hc hx hr⟩
      | insAlloc | insPub node => exact Regs.Filled.change hb hc hr
      | insInit node level => exact ⟨hb.1.change hc hr, hb.2⟩
      | insStore node level => exact ⟨hb.1.change hc hr, hb.2.change hc (hx node rfl) hk.1⟩
      | insLink node level =>
          obtain ⟨hfill, hn, b, hl⟩ := hb
          refine ⟨hfill.change hc hr, hn.change hc (hx node rfl) hk.1, ?_⟩
          exact (hc.linking (hx node rfl) hk.1.lt_length).2 level _ b hn.linked.le hl
      | getRef level pred => exact ⟨hb.1, hc.linkedAt hb.2⟩
      | getGet level pred curr => exact ⟨hb.1, hc.linkedAt hb.2.1, hc.linkedAt hb.2.2⟩
      | _ => trivial

end Stable

/-! ## Every step is of this kind -/

section Moves

variable {maxLevel : ℕ} {m m' : Mem} {r : Regs} {pc : Pc} {th : Thread}

/-- The effect of a step on the heap. -/
theorem Move.relink (hmv : Move maxLevel m r pc m' th) (hs : Shape m.nodes)
    (hk : (Thread.busy r pc).Knows m.nodes) (hb : (Thread.busy r pc).Builds maxLevel m.nodes) :
    Relink m.nodes pc.building m'.nodes := by
  obtain ⟨-, hk⟩ := hk
  obtain ⟨htop, hr, hb⟩ := hb
  cases hmv with
  | spliced hl => exact .splice hb.2.1 hl hb.2.2.1
  | insAlloc => exact .alloc
  | insInit hl | insInitLast hl =>
      exact .store (hk.2.1.linked.le.trans (Nat.zero_le _)) hl (hr _ (hb.2.trans htop)).2
  | published hl => exact .link (hr 0 (Nat.zero_le _)).1 hl hk.2.1.linked hk.2.2
  | insStore hl => exact .store hb.2.linked.le hl (hr _ (hb.2.le_top.trans htop)).2
  | linked hl =>
      obtain ⟨-, hn, b, hnl⟩ := hb
      exact .link (hr _ (hn.le_top.trans htop)).1 hl hn.linked hnl
  | swapped | swappedNull => exact .swap
  | rmMarked hl => exact .mark (Heap.ne_tail_of_bound_le hs.tail_key hk.1.2.le) hl
  | removed hl => exact .mark (Heap.ne_tail_of_bound_le hs.tail_key hk.2.le) hl
  | insLen =>
      rw [Mem.nodes_incLen]
      exact .quiet
  | rmLen =>
      rw [Mem.nodes_decLen]
      exact .quiet
  | _ => exact .quiet

/-- Above the top level there is nothing to fill. -/
theorem Regs.filled_above {h : Heap} : r.Filled maxLevel h (maxLevel + 1) :=
  fun _ hlo hl => absurd hlo (Nat.not_le.mpr (Nat.lt_succ_of_le hl))

/-- The search has settled the level it is at. -/
theorem Regs.Filled.atLevel {h : Heap} {lo level pred curr : ℕ}
    (hf : ∀ l, lo ≤ l → l ≤ maxLevel → l ≠ level →
      h.bound (r.preds l) < target r.key ∧ target r.key ≤ h.bound (r.succs l))
    (hpred : h.bound pred < target r.key) (hcurr : target r.key ≤ h.bound curr) :
    (r.atLevel level pred curr).Filled maxLevel h lo := by
  intro l hlo hl
  by_cases he : l = level
  · subst he
    simpa [Regs.atLevel] using ⟨hpred, hcurr⟩
  · simpa [Regs.atLevel, Function.update_of_ne he] using hf l hlo hl he

/-- A search that starts over, from the top. -/
theorem After.Builds.restart {h : Heap} {a : After} {level : ℕ} (ha : a.Builds maxLevel h r level) :
    a.Builds maxLevel h r maxLevel := by
  cases a with
  | insert => exact Regs.filled_above
  | relink node next => exact ha
  | remove | clean node => trivial

theorem After.Builds.down {h : Heap} {a : After} {level pred curr : ℕ}
    (ha : a.Builds maxLevel h r (level + 1)) (hpred : h.bound pred < target r.key)
    (hcurr : target r.key ≤ h.bound curr) :
    a.Builds maxLevel h (r.atLevel (level + 1) pred curr) level := by
  cases a with
  | insert =>
      refine Regs.Filled.atLevel (fun l hlo hl hne => ha l ?_ hl) hpred hcurr
      omega
  | relink node next =>
      exact ⟨Regs.Filled.atLevel (fun l hlo hl _ => ha.1 l hlo hl) hpred hcurr, ha.2.linked,
        ha.2.bound, ha.2.le_top⟩
  | remove | clean node => trivial

theorem builds_found {a : After} {pred curr : ℕ} (ha : a.Builds maxLevel m.nodes r 0)
    (hpred : m.nodes.bound pred < target r.key) (hcurr : target r.key ≤ m.nodes.bound curr) :
    (Pc.found m (r.atLevel 0 pred curr) curr a).Builds maxLevel m.nodes (r.atLevel 0 pred curr) := by
  cases a with
  | insert =>
      simp only [Pc.found]
      split
      · trivial
      · refine Regs.Filled.atLevel (fun l _ hl hne => ha l ?_ hl) hpred hcurr
        omega
  | relink node next =>
      exact ⟨Regs.Filled.atLevel (fun l hlo hl _ => ha.1 l hlo hl) hpred hcurr, ha.2.linked,
        ha.2.bound, ha.2.le_top⟩
  | remove =>
      simp only [Pc.found, Pc.rmDown]
      repeat' split
      all_goals trivial
  | clean node => trivial

theorem builds_insUp {h : Heap} {node level : ℕ} (hf : r.Filled maxLevel h 0)
    (hlinked : h.linkedOf node = level) (hbound : h.bound node = target r.key) :
    (Pc.insUp r.topLevel node level).Builds maxLevel h r := by
  rw [Pc.insUp]
  split
  · next hle => exact ⟨hf, hlinked, hbound, hle⟩
  · trivial

theorem builds_rmDown {h : Heap} {node level : ℕ} : (Pc.rmDown node level).Builds maxLevel h r := by
  rw [Pc.rmDown]
  split <;> trivial

theorem builds_start {h : Heap} {op : Op} (hhead : h.LinkedAt maxLevel head) :
    (Pc.start maxLevel op).Builds maxLevel h r := by
  cases op with
  | insert key val => exact ⟨le_rfl, hhead, Regs.filled_above⟩
  | get key => exact ⟨le_rfl, hhead⟩
  | remove key => exact ⟨le_rfl, hhead, trivial⟩

/-- The acting thread knows what its next program point asks for. -/
theorem Move.builds (hmv : Move maxLevel m r pc m' th)
    (href : ∀ p l q b, m.nodes.link p l = some ⟨some q, b⟩ → m.nodes.LinkedAt l q)
    (hhead : m.nodes.LinkedAt maxLevel head)
    (hk : (Thread.busy r pc).Knows m.nodes) (hb : (Thread.busy r pc).Builds maxLevel m.nodes)
    (hc : Relink m.nodes pc.building m'.nodes) : th.Builds maxLevel m'.nodes := by
  obtain ⟨-, hk⟩ := hk
  obtain ⟨htop, hr, hb⟩ := hb
  have hr' : ∀ l ≤ maxLevel, m'.nodes.LinkedAt l (r.preds l) ∧ m'.nodes.LinkedAt l (r.succs l) :=
    fun l hl => ⟨hc.linkedAt (hr l hl).1, hc.linkedAt (hr l hl).2⟩
  have hup : ∀ {level pred curr}, m.nodes.LinkedAt level pred → m.nodes.LinkedAt level curr →
      ∀ l ≤ maxLevel, m.nodes.LinkedAt l ((r.atLevel level pred curr).preds l) ∧
        m.nodes.LinkedAt l ((r.atLevel level pred curr).succs l) := by
    intro level pred curr hpred hcurr l hl
    by_cases he : l = level
    · subst he
      simpa [Regs.atLevel] using ⟨hpred, hcurr⟩
    · simpa [Regs.atLevel, Function.update_of_ne he] using hr l hl
  cases hmv with
  | findRef hlk => exact ⟨htop, hr, hb.1, hb.2.1, href _ _ _ _ hlk, hb.2.2⟩
  | findMarked hlk => exact ⟨htop, hr, hb.1, hb.2.1, hlk, hb.2.2.2⟩
  | findNext hlk => exact ⟨htop, hr, hb.1, hb.2.2.1, href _ _ _ _ hlk, hb.2.2.2⟩
  | findDown hlk hle =>
      obtain ⟨hlevel, hpred, hcurr, ha⟩ := hb
      exact ⟨htop, hup hpred hcurr, (Nat.le_succ _).trans hlevel, hpred.down (Nat.le_succ _),
        ha.down hk.1.2 hle⟩
  | findDone hlk hle =>
      obtain ⟨-, hpred, hcurr, ha⟩ := hb
      exact ⟨htop, hup hpred hcurr, builds_found ha hk.1.2 hle⟩
  | @spliced a level pred curr succ hlk =>
      obtain ⟨hlevel, hpred, hcurr, ha⟩ := hb
      -- a splice does not touch the node being linked, whoever makes it
      have hc₀ : Relink m.nodes none (m.store pred level ⟨some succ, false⟩).nodes :=
        .splice hpred hlk hcurr
      refine ⟨htop, hr', hlevel, hc.linkedAt hpred, hc.linkedAt (href _ _ _ _ hcurr), ?_⟩
      exact ha.change hk.2.2.2 hc₀ (by simp) hr
  | spliceLost => exact ⟨htop, hr, le_rfl, hhead, hb.2.2.2.restart⟩
  | insAlloc => exact ⟨htop, hr', Regs.Filled.change hb hc hr, Nat.zero_le _⟩
  | insInit hlk ht => exact ⟨htop, hr', hb.1.change hc hr, ht⟩
  | insInitLast hlk ht => exact ⟨htop, hr', hb.1.change hc hr⟩
  | published hlk =>
      refine ⟨htop, hr', builds_insUp (Regs.Filled.change hb hc hr) ?_ ?_⟩
      · exact Heap.linkedOf_setLinked_self (by simpa [Mem.store] using hk.2.1.lt_length)
      · exact (hc.bound hk.2.1.lt_length).trans hk.2.1.bound
  | publishLost => exact ⟨htop, hr', le_rfl, hhead, Regs.filled_above⟩
  | insStore hlk =>
      obtain ⟨hfill, hn⟩ := hb
      refine ⟨htop, hr', hfill.change hc hr, ⟨?_, ?_, hn.le_top⟩, false, Heap.link_setLink_self hlk⟩
      · exact (congrFun Heap.linkedOf_setLink _).trans hn.linked
      · exact Heap.bound_setLink.trans hn.bound
  | linked hlk =>
      obtain ⟨hfill, hn, -⟩ := hb
      refine ⟨htop, hr', builds_insUp (hfill.change hc hr) ?_ ?_⟩
      · exact Heap.linkedOf_setLinked_self (by simpa [Mem.store] using hk.1.lt_length)
      · exact (hc.bound hk.1.lt_length).trans hn.bound
  | linkLost => exact ⟨htop, hr, le_rfl, hhead, hb.1, hb.2.1⟩
  | getRef hlk => exact ⟨htop, hr, hb.1, hb.2, href _ _ _ _ hlk⟩
  | getMarked hlk => exact ⟨htop, hr, hb.1, hb.2.1, href _ _ _ _ hlk⟩
  | getNext hlk => exact ⟨htop, hr, hb.1, hb.2.2, href _ _ _ _ hlk⟩
  | getDown => exact ⟨htop, hr, (Nat.le_succ _).trans hb.1, hb.2.1.down (Nat.le_succ _)⟩
  | rmPassed => exact ⟨htop, hr, builds_rmDown⟩
  | rmClean => exact ⟨htop, hr, le_rfl, hhead, trivial⟩
  | ret => trivial
  | _ => exact ⟨htop, hr', trivial⟩

/-- A move starts to link at most the next node allocated. -/
theorem Move.building (hmv : Move maxLevel m r pc m' th) {p : ℕ} (hp : th.building = some p) :
    pc.building = some p ∨ p = m.nodes.length := by
  cases hmv with
  | insAlloc => exact .inr (Option.some.inj hp).symm
  | @findDone a pred curr o hl hk =>
      refine .inl ?_
      cases a with
      | relink node level => exact hp
      | insert | remove =>
          simp only [Thread.building, Pc.found, Pc.rmDown] at hp
          repeat' split at hp
          all_goals cases hp
      | clean node => cases hp
  | published | linked =>
      simp only [Thread.building, Pc.insUp] at hp
      split at hp
      · exact .inl hp
      · cases hp
  | rmPassed =>
      simp only [Thread.building, Pc.rmDown] at hp
      split at hp <;> cases hp
  | publishLost => cases hp
  | _ => exact .inl hp

end Moves

section Invariant

variable {maxLevel : ℕ} {m m' : Mem} {a b a' : Thread} {c : Choice}

theorem step_building (hst : step maxLevel m a c = some (m', a')) {p : ℕ}
    (hp : a'.building = some p) : a.building = some p ∨ p = m.nodes.length := by
  rcases step_cases hst with ⟨op, topLevel, -, -, rfl, rfl, rfl⟩ | ⟨r, pc, -, rfl, hmv⟩
  · cases op <;> cases hp
  · exact hmv.building hp

theorem Thread.Knows.building_lt {h : Heap} {p : ℕ} (hk : b.Knows h) (hp : b.building = some p) :
    p < h.length := by
  have hafter : ∀ {k : After}, k.Knows h → k.building = some p → p < h.length := by
    intro k hk hp
    cases k with
    | relink node level =>
        cases hp
        exact hk.1.lt_length
    | _ => cases hp
  cases b with
  | idle => cases hp
  | busy r pc =>
      obtain ⟨-, hk⟩ := hk
      cases pc with
      | findRef k level pred => exact hafter hk.2 hp
      | findGet k level pred curr => exact hafter hk.2.2 hp
      | findSplice k level pred curr succ => exact hafter hk.2.2.2 hp
      | insInit node level | insPub node =>
          cases hp
          exact hk.2.1.lt_length
      | insStore node level | insLink node level =>
          cases hp
          exact hk.1.lt_length
      | _ => cases hp

/-- A step of a thread, and what it knows after it. -/
theorem step_relink (hs : Shape m.nodes) (ha : a.Knows m.nodes) (hg : Grounded maxLevel m.nodes)
    (hb : a.Builds maxLevel m.nodes) (hst : step maxLevel m a c = some (m', a')) :
    Relink m.nodes a.building m'.nodes ∧ a'.Builds maxLevel m'.nodes := by
  rcases step_cases hst with ⟨op, topLevel, -, htop, rfl, rfl, rfl⟩ | ⟨r, pc, rfl, rfl, hmv⟩
  · refine ⟨.quiet, htop, fun l hl => ⟨hg.head l hl, hg.head l hl⟩, ?_⟩
    exact builds_start (hg.head maxLevel le_rfl)
  · have hc := hmv.relink hs ha hb
    exact ⟨hc, hmv.builds hg.ref (hg.head maxLevel le_rfl) ha hb hc⟩

/-- No remover marks the head. -/
theorem Move.head_unmarked {r : Regs} {pc : Pc} {th : Thread} (hmv : Move maxLevel m r pc m' th)
    (hs : Shape m.nodes) (hk : (Thread.busy r pc).Knows m.nodes) {l : ℕ}
    (hl : ¬ m.nodes.MarkedAt l head) : ¬ m'.nodes.MarkedAt l head := by
  rintro ⟨o, ho⟩
  cases hmv with
  | spliced | insInit | insInitLast | insStore =>
      rcases Heap.link_setLink_cases ho with ⟨-, -, he⟩ | ho
      · cases he
      · exact hl ⟨o, ho⟩
  | published | linked =>
      have ho := Heap.link_setLinked.symm.trans ho
      rcases Heap.link_setLink_cases ho with ⟨-, -, he⟩ | ho
      · cases he
      · exact hl ⟨o, ho⟩
  | insAlloc =>
      rcases link_alloc_cases ho with he | ho
      · cases he
      · exact hl ⟨o, ho⟩
  | swapped | swappedNull => exact hl ⟨o, Heap.link_setValue.symm.trans ho⟩
  | rmMarked =>
      rcases Heap.link_setLink_cases ho with ⟨he, -⟩ | ho
      · exact Heap.ne_head_of_le_bound hs.head_key hk.2.1.2.ge he.symm
      · exact hl ⟨o, ho⟩
  | removed =>
      rcases Heap.link_setLink_cases ho with ⟨he, -⟩ | ho
      · exact Heap.ne_head_of_le_bound hs.head_key hk.2.2.ge he.symm
      · exact hl ⟨o, ho⟩
  | insLen | rmLen => exact hl ⟨o, by simpa using ho⟩
  | _ => exact hl ⟨o, ho⟩

/-- At the start every link of the head goes to the tail. -/
theorem link_init {p l : ℕ} {lk : Link} (hl : Mem.withMaxLevel.nodes.link p l = some lk) :
    l < maxHeight ∧ ((p = head ∧ lk = ⟨some tail, false⟩) ∨ (p = tail ∧ lk = ⟨none, false⟩)) := by
  match p with
  | 0 =>
      obtain ⟨hlt, he⟩ := List.getElem?_eq_some_iff.mp hl
      exact ⟨by simpa [sentinel] using hlt, .inl ⟨rfl, by simpa [sentinel] using he.symm⟩⟩
  | 1 =>
      obtain ⟨hlt, he⟩ := List.getElem?_eq_some_iff.mp hl
      exact ⟨by simpa [sentinel] using hlt, .inr ⟨rfl, by simpa [sentinel] using he.symm⟩⟩
  | p + 2 => cases hl

theorem grounded_init (hmax : maxLevel < maxHeight) : Grounded maxLevel Mem.withMaxLevel.nodes where
  ref p l q b hl := by
    obtain ⟨hlt, ⟨-, he⟩ | ⟨-, he⟩⟩ := link_init hl
    · cases he
      exact hlt
    · cases he
  head l hl := lt_of_le_of_lt hl hmax
  link p l hp := by
    match p with
    | 0 | 1 => exact ⟨_, List.getElem?_replicate_of_lt hp⟩
    | p + 2 => exact absurd hp (Nat.not_lt_zero l)
  null p l b _ hl := by
    obtain ⟨-, ⟨-, he⟩ | ⟨hp, he⟩⟩ := link_init hl
    · cases he
    · cases he
      exact ⟨hp, rfl⟩
  ranked l := by
    refine ⟨fun p => if p = head then 1 else 0, fun p q ⟨_, b, hl⟩ => ?_⟩
    obtain ⟨-, ⟨rfl, he⟩ | ⟨-, he⟩⟩ := link_init hl
    · cases he
      decide
    · cases he

/-- Two threads do not link the same node. -/
def Thread.BuildsApart (a b : Thread) : Prop := ∀ p, a.building = some p → b.building ≠ some p

theorem Thread.BuildsApart.step (hab : a.BuildsApart b) (hba : b.BuildsApart a) (hb : b.Knows m.nodes)
    (hst : step maxLevel m a c = some (m', a')) : a'.BuildsApart b ∧ b.BuildsApart a' := by
  refine ⟨?_, ?_⟩
  · intro p hp
    rcases step_building hst hp with hl | rfl
    · exact hab p hl
    · exact fun hf => lt_irrefl _ (hb.building_lt hf)
  · intro p hp hl'
    rcases step_building hst hl' with hl | rfl
    · exact hba p hp hl
    · exact lt_irrefl _ (hb.building_lt hp)

/-- **Every level leads to the tail**, as long as no store overwrites a mark. -/
def links (maxLevel : ℕ) (hmax : maxLevel < maxHeight) (R : Mem → Thread → Choice → Bool)
    (hR : ∀ m th c, R m th c = true → keepsMarks m th c = true) : (marked maxLevel R hR).Extra where
  shared m := Grounded maxLevel m.nodes ∧ ∀ l, ¬ m.nodes.MarkedAt l head
  own m th := th.Builds maxLevel m.nodes
  apart := Thread.BuildsApart
  init_shared := by
    refine ⟨grounded_init hmax, ?_⟩
    rintro l ⟨o, hl⟩
    obtain ⟨-, ⟨-, he⟩ | ⟨-, he⟩⟩ := link_init hl <;> cases he
  init_own := trivial
  init_apart := nofun
  keep hs ha hg hb hst := by
    obtain ⟨-, hst⟩ := Threads.restrict_step.mp hst
    obtain ⟨hc, hb'⟩ := step_relink hs.1 ha.1 hg.1 hb hst
    refine ⟨⟨hc.grounded hg.1, fun l => ?_⟩, hb'⟩
    rcases step_cases hst with ⟨op, topLevel, -, -, -, rfl, -⟩ | ⟨r, pc, -, rfl, hmv⟩
    · exact hg.2 l
    · exact hmv.head_unmarked hs.1 ha.1 (hg.2 l)
  bystander {m l c m' l' b} hs ha hb _ hg hbl hbb hab hba hst := by
    obtain ⟨he, -⟩ := step_edit hR ha.1 hs.2 ha.2 hst
    obtain ⟨-, hst⟩ := Threads.restrict_step.mp hst
    obtain ⟨hc, -⟩ := step_relink hs.1 ha.1 hg.1 hbl hst
    exact ⟨hbb.change hb.1 hc he.frozen fun p hp he => hba p hp he, hab.step hba hb.1 hst⟩

end Invariant

end ZeroKv.SkipList
