/-
# ZeroKv.SkipList.Sweep — marks go from the top of a tower down and stay.

`remove` marks the links of its node from the top level down to level 0.  Searchers rely on it: a node
whose link at some level is not marked is not deleted, so it is on the bottom chain, and they may descend
from it.

One line of the source breaks this.  `insert` writes the upper links of its node with a plain store, after
the node has been published, and a remover may have marked the link by then.  `keepsMarks` is the condition
that no store of a run does so; under it a marked link never changes again, at any level.
-/
import ZeroKv.SkipList.Views

namespace ZeroKv.SkipList

/-- When `insert` stores a link of its published node, no remover has marked that link. -/
def keepsMarks (m : Mem) : Thread → Choice → Bool
  | .busy _ (.insStore node level), _ => (m.nodes.link node level).all (!·.mark)
  | _, _ => true

/-- The marks of every tower. -/
structure TopDown (h : Heap) : Prop where
  tall : ∀ p < h.length, ∀ l, (h.link p l).isSome ↔ l ≤ h.topOf p
  marked : ∀ p l, h.MarkedAt l p → h.Published p
  /-- Above a marked link everything is marked. -/
  above : ∀ p l l', h.MarkedAt l p → l ≤ l' → l' ≤ h.topOf p → h.MarkedAt l' p

/-- Nobody marks a node that is not published. -/
theorem TopDown.mark_of_unlinked {h : Heap} {p l : ℕ} {lk : Link} (ht : TopDown h)
    (hp : h.linkedOf p = 0) (hl : h.link p l = some lk) : lk.mark = false := by
  obtain ⟨o, mk⟩ := lk
  cases mk with
  | false => rfl
  | true => exact absurd hp (ht.marked p l ⟨o, hl⟩).ne'

/-- All links of the node above `level` are marked. -/
def Heap.SweptAbove (h : Heap) (level p : ℕ) : Prop :=
  ∀ l, level < l → l ≤ h.topOf p → h.MarkedAt l p

/-- What a remover knows about the marks of its node. -/
def Pc.Sweeps (h : Heap) : Pc → Prop
  | .rmGet node level | .rmMark node level _ => h.SweptAbove level node
  | .rmGet0 node | .rmCas0 node _ | .rmChk node false => h.SweptAbove 0 node
  | _ => True

def Thread.Sweeps (h : Heap) : Thread → Prop
  | .idle => True
  | .busy _ pc => pc.Sweeps h

/-- What a step can do to the towers. -/
inductive Edit (h : Heap) : Heap → Prop
  | same : Edit h h
  | alloc {key v top} : Edit h (h.alloc (.new key v top))
  | store {p l lk lk'} (hl : h.link p l = some lk) (hm : lk.mark = false)
      (hmark : lk'.mark = true → h.Published p ∧ h.SweptAbove l p) : Edit h (h.setLink p l lk')
  | link {p l lk node n} (hl : h.link p l = some lk) (hm : lk.mark = false) (hn : node < h.length) :
      Edit h ((h.setLink p l ⟨some node, false⟩).setLinked node (n + 1))
  | swap {p v} : Edit h (h.setValue p v)

/-- What no step changes. -/
structure Frozen (h h' : Heap) : Prop where
  link : ∀ p l o, h.link p l = some ⟨o, true⟩ → h'.link p l = some ⟨o, true⟩
  top : ∀ p, p < h.length → h'.topOf p = h.topOf p

theorem Frozen.refl (h : Heap) : Frozen h h := ⟨fun _ _ _ => id, fun _ _ => rfl⟩

theorem Frozen.marked {h h' : Heap} (hf : Frozen h h') {l p : ℕ} (hm : h.MarkedAt l p) :
    h'.MarkedAt l p := hm.imp fun o => hf.link p l o

section Edit

variable {h h' : Heap} {p q l l' n level : ℕ} {lk lk' : Link}

theorem Heap.isSome_link_setLink :
    ((h.setLink p l lk).link q l').isSome = (h.link q l').isSome := by
  rw [Heap.link_setLink]
  split
  · next he => simp [he.1, he.2]
  · rfl

theorem frozen_setLink (hl : h.link p l = some lk) (hm : lk.mark = false) :
    Frozen h (h.setLink p l lk') := by
  refine ⟨fun q l' o hq => ?_, fun q _ => by simp⟩
  rw [Heap.link_setLink_of_ne, hq]
  by_contra hne
  obtain ⟨rfl, rfl⟩ : q = p ∧ l' = l := by simpa using hne
  rw [hl] at hq
  cases hq
  cases hm

/-- A marked link never changes again. -/
theorem Edit.frozen (he : Edit h h') : Frozen h h' := by
  cases he with
  | same => exact .refl h
  | alloc =>
      refine ⟨fun q l' o hq => ?_, fun q hq => Heap.topOf_alloc_of_ne hq.ne⟩
      rw [Heap.link_alloc_of_ne (Heap.lt_length_of_link hq).ne, hq]
  | store hl hm => exact frozen_setLink hl hm
  | link hl hm =>
      refine ⟨fun q l' o hq => ?_, fun q _ => by simp⟩
      rw [Heap.link_setLinked]
      exact (frozen_setLink hl hm).link q l' o hq
  | swap => exact ⟨fun q l' o => by simp, fun q _ => by simp⟩

theorem TopDown.lt_length (ht : TopDown h) (hm : h.MarkedAt l p) : p < h.length :=
  (ht.marked p l hm).lt_length

theorem Heap.SweptAbove.frozen (hs : h.SweptAbove level p) (hf : Frozen h h') (hp : p < h.length) :
    h'.SweptAbove level p := by
  intro l hl htop
  rw [hf.top p hp] at htop
  exact hf.marked (hs l hl htop)

/-- A write to a link that is not marked; a mark may be set when everything above is marked. -/
theorem TopDown.setLink (ht : TopDown h) (hl : h.link p l = some lk) (hm : lk.mark = false)
    (hmark : lk'.mark = true → h.Published p ∧ h.SweptAbove l p) : TopDown (h.setLink p l lk') := by
  have hold : ∀ q l', (h.setLink p l lk').MarkedAt l' q →
      h.MarkedAt l' q ∨ (q = p ∧ l' = l ∧ lk'.mark = true) := by
    rintro q l' ⟨o, hq⟩
    rcases Heap.link_setLink_cases hq with ⟨rfl, rfl, rfl⟩ | hq
    · exact .inr ⟨rfl, rfl, rfl⟩
    · exact .inl ⟨o, hq⟩
  refine ⟨fun q hq l' => ?_, fun q l' hq => ?_, fun q l₁ l₂ hq hle htop => ?_⟩
  · rw [Heap.isSome_link_setLink, Heap.topOf_setLink]
    exact ht.tall q (by simpa using hq) l'
  · rw [Heap.published_setLink]
    rcases hold q l' hq with hq | ⟨rfl, -, hmk⟩
    · exact ht.marked q l' hq
    · exact (hmark hmk).1
  · rw [Heap.topOf_setLink] at htop
    have hf : Frozen h (h.setLink p l lk') := frozen_setLink hl hm
    rcases hold q l₁ hq with hq' | ⟨rfl, rfl, hmk⟩
    · exact hf.marked (ht.above q l₁ l₂ hq' hle htop)
    · rcases Nat.eq_or_lt_of_le hle with rfl | hlt
      · exact hq
      · exact hf.marked ((hmark hmk).2 l₂ hlt htop)

theorem TopDown.setLinked (ht : TopDown h) (hp : p < h.length) : TopDown (h.setLinked p (n + 1)) where
  tall q hq l' := by
    rw [Heap.link_setLinked, Heap.topOf_setLinked]
    exact ht.tall q (by simpa using hq) l'
  marked q l' hq := by
    obtain ⟨o, hq⟩ := hq
    rw [Heap.link_setLinked] at hq
    exact (Heap.published_setLinked hp).mpr (.inr (ht.marked q l' ⟨o, hq⟩))
  above q l₁ l₂ hq hle htop := by
    obtain ⟨o, hq⟩ := hq
    rw [Heap.link_setLinked] at hq
    rw [Heap.topOf_setLinked] at htop
    obtain ⟨o', hq'⟩ := ht.above q l₁ l₂ ⟨o, hq⟩ hle htop
    exact ⟨o', Heap.link_setLinked.trans hq'⟩

theorem TopDown.alloc (ht : TopDown h) {key : BoundKey} {v : Option ℕ} {top : ℕ} :
    TopDown (h.alloc (.new key v top)) := by
  have hold : ∀ q l', (h.alloc (.new key v top)).MarkedAt l' q → h.MarkedAt l' q := by
    rintro q l' ⟨o, hq⟩
    rcases link_alloc_cases hq with he | hq
    · cases he
    · exact ⟨o, hq⟩
  refine ⟨fun q hq l' => ?_, fun q l' hq => ?_, fun q l₁ l₂ hq hle htop => ?_⟩
  · by_cases hqn : q = h.length
    · subst hqn
      rw [Heap.link_alloc_self, Heap.topOf_alloc_self]
      have hlt : l' < top + 1 ↔ l' ≤ top := Nat.lt_succ_iff
      simp only [Node.new, List.getElem?_replicate, hlt]
      by_cases hl : l' ≤ top <;> simp [hl]
    · rw [Heap.link_alloc_of_ne hqn, Heap.topOf_alloc_of_ne hqn]
      have : q < h.length + 1 := by simpa [Heap.alloc] using hq
      exact ht.tall q (by omega) l'
  · exact Heap.published_alloc.mpr (ht.marked q l' (hold q l' hq))
  · have hqn := (ht.lt_length (hold q l₁ hq)).ne
    rw [Heap.topOf_alloc_of_ne hqn] at htop
    obtain ⟨o, hm⟩ := ht.above q l₁ l₂ (hold q l₁ hq) hle htop
    exact ⟨o, (Heap.link_alloc_of_ne hqn).trans hm⟩

/-- Every edit keeps the marks in order. -/
theorem Edit.topDown (he : Edit h h') (ht : TopDown h) : TopDown h' := by
  cases he with
  | same => exact ht
  | alloc => exact ht.alloc
  | store hl hm hmark => exact ht.setLink hl hm hmark
  | link hl hm hn =>
      refine (ht.setLink hl hm fun h => ?_).setLinked (by simpa using hn)
      cases h
  | swap =>
      refine ⟨fun q hq l' => ?_, fun q l' hq => ?_, fun q l₁ l₂ hq hle htop => ?_⟩
      · rw [Heap.link_setValue, Heap.topOf_setValue]
        exact ht.tall q (by simpa using hq) l'
      · rw [Heap.published_setValue]
        exact ht.marked q l' (by simpa [Heap.MarkedAt] using hq)
      · rw [Heap.topOf_setValue] at htop
        have := ht.above q l₁ l₂ (by simpa [Heap.MarkedAt] using hq) hle htop
        simpa [Heap.MarkedAt] using this

/-- A node with an unmarked link at some level is not deleted. -/
theorem TopDown.unmarked (ht : TopDown h) (hu : h.UnmarkedAt l p) (hle : l' ≤ l) :
    h.UnmarkedAt l' p := by
  obtain ⟨o, hl⟩ := hu
  have hp := Heap.lt_length_of_link hl
  have htop : l ≤ h.topOf p := (ht.tall p hp l).mp (by rw [hl]; rfl)
  obtain ⟨lk, hlk⟩ := Option.isSome_iff_exists.mp ((ht.tall p hp l').mpr (hle.trans htop))
  rcases Heap.marked_or_unmarked hlk with hm | hu
  · exact absurd (ht.above p l' l hm hle htop) (Heap.UnmarkedAt.not_marked ⟨o, hl⟩)
  · exact hu

end Edit

section Moves

variable {maxLevel : ℕ} {m m' : Mem} {r : Regs} {pc : Pc} {th : Thread} {a b a' : Thread} {c : Choice}

/-- What a step does to the towers, when no store overwrites a mark. -/
theorem Move.edit (hmv : Move maxLevel m r pc m' th) (hk : (Thread.busy r pc).Knows m.nodes)
    (ht : TopDown m.nodes) (hw : pc.Sweeps m.nodes) (hc : keepsMarks m (.busy r pc) .run = true) :
    Edit m.nodes m'.nodes := by
  obtain ⟨hr, hk⟩ := hk
  cases hmv with
  | spliced hl => exact .store hl rfl nofun
  | insAlloc => exact .alloc
  | insInit hl | insInitLast hl => exact .store hl (ht.mark_of_unlinked hk.2.1.linked hl) nofun
  | published hl => exact .link hl rfl hk.2.1.lt_length
  | insStore hl =>
      refine .store hl ?_ nofun
      simpa [keepsMarks, hl] using hc
  | linked hl => exact .link hl rfl hk.1.lt_length
  | swapped | swappedNull => exact .swap
  | rmMarked hl => exact .store hl rfl fun _ => ⟨hk.1.1, hw⟩
  | removed hl => exact .store hl rfl fun _ => ⟨hk.1, hw⟩
  | insLen =>
      rw [Mem.nodes_incLen]
      exact .same
  | rmLen =>
      rw [Mem.nodes_decLen]
      exact .same
  | _ => exact .same

theorem sweeps_rmDown {h : Heap} {node level : ℕ} (hs : h.SweptAbove level node) :
    (Pc.rmDown node level).Sweeps h := by
  rw [Pc.rmDown]
  split
  · next h0 =>
    subst h0
    exact hs
  · exact hs

/-- Marked at `level`, swept above `level - 1`. -/
theorem Heap.SweptAbove.down {h : Heap} {node level : ℕ} (hs : h.SweptAbove level node)
    (hm : h.MarkedAt level node) : h.SweptAbove (level - 1) node := by
  intro l hl htop
  rcases Nat.lt_or_ge level l with hlt | hge
  · exact hs l hlt htop
  · obtain rfl : l = level := by omega
    exact hm

theorem sweeps_found {curr : ℕ} {k : After} : (Pc.found m r curr k).Sweeps m.nodes := by
  cases k with
  | insert =>
      simp only [Pc.found]
      split <;> trivial
  | relink node level | clean node => trivial
  | remove =>
      simp only [Pc.found]
      split
      · exact sweeps_rmDown fun l hl htop => absurd htop (Nat.not_le.mpr hl)
      · trivial

theorem sweeps_insUp {h : Heap} {node level : ℕ} : (Pc.insUp r.topLevel node level).Sweeps h := by
  rw [Pc.insUp]
  split <;> trivial

/-- The acting remover knows what its next program point asks for. -/
theorem Move.sweeps (hmv : Move maxLevel m r pc m' th) (hk : (Thread.busy r pc).Knows m.nodes)
    (hf : Frozen m.nodes m'.nodes) (hw : pc.Sweeps m.nodes) : th.Sweeps m'.nodes := by
  obtain ⟨-, hk⟩ := hk
  cases hmv with
  | findDone => exact sweeps_found
  | published | linked => exact sweeps_insUp
  | rmPassed hl => exact sweeps_rmDown (hw.down ⟨_, hl⟩)
  | rmGet | rmMarkLost | rmGet0 | removeLost | rmRetry => exact hw
  | rmMarked => exact hw.frozen hf hk.1.1.lt_length
  | _ => trivial

/-- What a bystander knows stays true. -/
theorem Thread.Sweeps.frozen {h h' : Heap} (hw : a.Sweeps h) (hk : a.Knows h) (hf : Frozen h h') :
    a.Sweeps h' := by
  cases a with
  | idle => trivial
  | busy r pc =>
      obtain ⟨-, hk⟩ := hk
      cases pc with
      | rmGet node level | rmMark node level succ => exact hw.frozen hf hk.1.1.lt_length
      | rmGet0 node | rmCas0 node succ => exact hw.frozen hf hk.1.lt_length
      | rmChk node iMarked =>
          cases iMarked with
          | true => trivial
          | false => exact hw.frozen hf hk.1.1.lt_length
      | _ => trivial

theorem topDown_init : TopDown Mem.withMaxLevel.nodes := by
  have hlink : ∀ p l, ¬ Mem.withMaxLevel.nodes.MarkedAt l p := by
    rintro p l ⟨o, hl⟩
    match p with
    | 0 | 1 => cases List.eq_of_mem_replicate (List.mem_of_getElem? hl)
    | p + 2 => cases hl
  refine ⟨fun p hp l => ?_, fun p l hm => absurd hm (hlink p l), fun p l l' hm => absurd hm (hlink p l)⟩
  match p with
  | 0 | 1 =>
      simp [Heap.link, Heap.topOf, readField, Mem.withMaxLevel, sentinel, maxHeight, Nat.lt_succ_iff]
  | p + 2 => exact absurd hp (by simp [Mem.withMaxLevel])

/-- A step under a condition that includes `keepsMarks`. -/
theorem step_edit {R : Mem → Thread → Choice → Bool}
    (hR : ∀ m th c, R m th c = true → keepsMarks m th c = true) (ha : a.Knows m.nodes)
    (ht : TopDown m.nodes) (hw : a.Sweeps m.nodes)
    (hst : ((threads maxLevel).restrict R).step m a c = some (m', a')) :
    Edit m.nodes m'.nodes ∧ a'.Sweeps m'.nodes := by
  obtain ⟨hcond, hst⟩ := Threads.restrict_step.mp hst
  rcases step_cases hst with ⟨op, topLevel, -, -, rfl, rfl, rfl⟩ | ⟨r, pc, rfl, rfl, hmv⟩
  · refine ⟨.same, ?_⟩
    cases op <;> trivial
  · have he := hmv.edit ha ht hw (hR _ _ _ hcond)
    exact ⟨he, hmv.sweeps ha he.frozen hw⟩

/-- **The marks of every tower are in order**, as long as no store overwrites one. -/
def sweep (maxLevel : ℕ) (R : Mem → Thread → Choice → Bool)
    (hR : ∀ m th c, R m th c = true → keepsMarks m th c = true) :
    ((views maxLevel).restrict R).Extra where
  shared m := TopDown m.nodes
  own m th := th.Sweeps m.nodes
  apart _ _ := True
  init_shared := topDown_init
  init_own := trivial
  init_apart := trivial
  keep _ ha ht hw hst := by
    obtain ⟨he, hw'⟩ := step_edit hR ha ht hw hst
    exact ⟨he.topDown ht, hw'⟩
  bystander _ ha hb _ ht hw hwb _ _ hst := by
    obtain ⟨he, -⟩ := step_edit hR ha ht hw hst
    exact ⟨hwb.frozen hb he.frozen, trivial, trivial⟩

/-- The invariants of the bottom level and of the marks, for runs whose steps all meet `R`. -/
def marked (maxLevel : ℕ) (R : Mem → Thread → Choice → Bool)
    (hR : ∀ m th c, R m th c = true → keepsMarks m th c = true) :
    ((threads maxLevel).restrict R).Invariant :=
  ((views maxLevel).restrict R).and (sweep maxLevel R hR)

end Moves

end ZeroKv.SkipList
