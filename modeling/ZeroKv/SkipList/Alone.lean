/-
# ZeroKv.SkipList.Alone — a call that runs alone returns.

The loops of `find`, `insert` and `remove` are left when a compare-exchange succeeds, and each of them tries
again in the hope that a new search has mended what made the last attempt fail.  For a thread that runs
alone no attempt fails at all, provided that the marks of every tower go from the top down: then a search
only ever descends from a node that is not marked on the level below either, and the link it has
read is still there when it writes.  The walk along a level is bounded by the rank of its links.

Where the other threads are does not matter, as long as they do not move.  Without the condition on the marks
a search can come down from a node that is deleted, and repeat its splice for ever.
-/
import ZeroKv.SkipList.Links

namespace ZeroKv.SkipList

/-! ## A thread on its own -/

/-- The thread gets to the end of its call, by its own moves. -/
inductive Returns (maxLevel : ℕ) : Mem → Thread → Prop
  | idle {m} : Returns maxLevel m .idle
  | move {m r pc m' th} (hmv : Move maxLevel m r pc m' th) (h : Returns maxLevel m' th) :
      Returns maxLevel m (.busy r pc)

/-- The heap that a call meets, wherever the other threads are. -/
structure Calm (maxLevel : ℕ) (h : Heap) : Prop where
  grounded : Grounded maxLevel h
  topDown : TopDown h
  head : ∀ l, ¬ h.MarkedAt l head
  head_key : h.keyOf SkipList.head = .negInf
  tail_key : h.keyOf tail = .posInf

namespace Calm

variable {maxLevel : ℕ} {h : Heap} {l p : ℕ} {key : Bytes}

theorem ne_tail (hc : Calm maxLevel h) (hlt : h.bound p < target key) : p ≠ tail :=
  Heap.ne_tail_of_bound_le hc.tail_key hlt.le

/-- A node below the key has a successor. -/
theorem next (hc : Calm maxLevel h) (hp : h.LinkedAt l p) (hlt : h.bound p < target key) :
    ∃ q b, h.link p l = some ⟨some q, b⟩ := by
  obtain ⟨⟨o, b⟩, hl⟩ := hc.grounded.link p l hp
  cases o with
  | some q => exact ⟨q, b, hl⟩
  | none => exact absurd (hc.grounded.null p l b hp hl).1 (hc.ne_tail hlt)

/-- The head is a place to start from. -/
theorem unmarked_head (hc : Calm maxLevel h) (hl : l ≤ maxLevel) : h.UnmarkedAt l SkipList.head := by
  obtain ⟨lk, hlk⟩ := hc.grounded.link _ l (hc.grounded.head l hl)
  exact (Heap.marked_or_unmarked hlk).resolve_left (hc.head l)

/-- A link write that sets no mark, or the mark of a node with a key. -/
theorem setLink {x : Option ℕ} {lk : Link} (hc : Calm maxLevel h)
    (hr : Relink h x (h.setLink p l lk)) (ht : TopDown (h.setLink p l lk))
    (hmark : lk.mark = true → p ≠ SkipList.head) : Calm maxLevel (h.setLink p l lk) := by
  refine ⟨hr.grounded hc.grounded, ht, ?_, by simpa using hc.head_key, by simpa using hc.tail_key⟩
  rintro l' ⟨o, ho⟩
  rcases Heap.link_setLink_cases ho with ⟨hp, -, he⟩ | ho
  · exact hmark (he ▸ rfl) hp.symm
  · exact hc.head l' ⟨o, ho⟩

theorem splice {curr succ : ℕ} (hc : Calm maxLevel h) (hp : h.LinkedAt l p)
    (hl : h.link p l = some ⟨some curr, false⟩) (hcurr : h.link curr l = some ⟨some succ, true⟩) :
    Calm maxLevel (h.setLink p l ⟨some succ, false⟩) :=
  hc.setLink (.splice (x := none) hp hl hcurr) (hc.topDown.setLink hl rfl nofun) nofun

theorem mark {o : Option ℕ} (hc : Calm maxLevel h) (hp : h.Published p) (hk : h.bound p = target key)
    (hs : h.SweptAbove l p) (hl : h.link p l = some ⟨o, false⟩) :
    Calm maxLevel (h.setLink p l ⟨o, true⟩) := by
  have htail : p ≠ tail := Heap.ne_tail_of_bound_le hc.tail_key hk.le
  have hhead : p ≠ SkipList.head := Heap.ne_head_of_le_bound hc.head_key hk.ge
  exact hc.setLink (.mark (x := none) htail hl) (hc.topDown.setLink hl rfl fun _ => ⟨hp, hs⟩)
    fun _ => hhead

end Calm

/-! ## The search -/

/-- The two arrays say what the links say, from level `lo` up. -/
def Regs.Exact (maxLevel : ℕ) (h : Heap) (r : Regs) (lo : ℕ) : Prop :=
  ∀ l, lo ≤ l → l ≤ maxLevel → h.link (r.preds l) l = some ⟨some (r.succs l), false⟩

/-- A search that runs alone, at `level` and `pred`. -/
structure Searching (maxLevel : ℕ) (h : Heap) (r : Regs) (level pred : ℕ) : Prop where
  calm : Calm maxLevel h
  le : level ≤ maxLevel
  linked : h.LinkedAt level pred
  unmarked : h.UnmarkedAt level pred
  below : h.bound pred < target r.key
  arrays : r.Exact maxLevel h (level + 1)

/-- What a search that ran alone has found. -/
structure Located (maxLevel : ℕ) (h : Heap) (r : Regs) (curr : ℕ) : Prop where
  calm : Calm maxLevel h
  arrays : r.Exact maxLevel h 0
  linked : h.LinkedAt 0 curr
  unmarked : h.UnmarkedAt 0 curr

section Search

variable {maxLevel : ℕ} {m : Mem} {h : Heap} {r : Regs} {a : After} {level pred curr : ℕ}

namespace Searching

theorem start (hc : Calm maxLevel h) : Searching maxLevel h r maxLevel head where
  calm := hc
  le := le_rfl
  linked := hc.grounded.head maxLevel le_rfl
  unmarked := hc.unmarked_head le_rfl
  below := Heap.bound_head_lt hc.head_key r.key
  arrays _ hlo hl := absurd hlo (Nat.not_le.mpr (Nat.lt_succ_of_le hl))

theorem splice {succ : ℕ} (hs : Searching maxLevel h r level pred)
    (hl : h.link pred level = some ⟨some curr, false⟩)
    (hcurr : h.link curr level = some ⟨some succ, true⟩) :
    Searching maxLevel (h.setLink pred level ⟨some succ, false⟩) r level pred where
  calm := hs.calm.splice hs.linked hl hcurr
  le := hs.le
  linked := Heap.linkedAt_setLink.mpr hs.linked
  unmarked := ⟨some succ, Heap.link_setLink_self hl⟩
  below := by simpa using hs.below
  arrays l hlo hle := by
    rw [Heap.link_setLink_of_ne (.inr (Nat.ne_of_gt hlo))]
    exact hs.arrays l hlo hle

theorem next (hs : Searching maxLevel h r level pred) (hcurr : h.LinkedAt level curr)
    (hu : h.UnmarkedAt level curr) (hlt : h.bound curr < target r.key) :
    Searching maxLevel h r level curr :=
  ⟨hs.calm, hs.le, hcurr, hu, hlt, hs.arrays⟩

/-- One level more is settled. -/
theorem arrays_atLevel (hs : Searching maxLevel h r level pred)
    (hl : h.link pred level = some ⟨some curr, false⟩) :
    (r.atLevel level pred curr).Exact maxLevel h level := by
  intro l hlo hle
  by_cases he : l = level
  · subst he
    simpa [Regs.atLevel] using hl
  · have := hs.arrays l (lt_of_le_of_ne hlo (Ne.symm he)) hle
    simpa [Regs.atLevel, Function.update_of_ne he] using this

/-- The search goes down where it is: a node that is not marked here is not marked below. -/
theorem down (hs : Searching maxLevel h r (level + 1) pred)
    (hl : h.link pred (level + 1) = some ⟨some curr, false⟩) :
    Searching maxLevel h (r.atLevel (level + 1) pred curr) level pred where
  calm := hs.calm
  le := (Nat.le_succ level).trans hs.le
  linked := hs.linked.down (Nat.le_succ level)
  unmarked := hs.calm.topDown.unmarked hs.unmarked (Nat.le_succ level)
  below := hs.below
  arrays := hs.arrays_atLevel hl

end Searching

/-- Along one level: every marked node is spliced out at the first attempt. -/
theorem returns_scan {rank : ℕ → ℕ}
    (hend : ∀ m pred curr, Searching maxLevel m.nodes r level pred →
      m.nodes.link pred level = some ⟨some curr, false⟩ → m.nodes.UnmarkedAt level curr →
      target r.key ≤ m.nodes.bound curr → Returns maxLevel m (.busy r (.findGet a level pred curr)))
    (hs : Searching maxLevel m.nodes r level pred) (hrank : Ranks rank (m.nodes.Hop level))
    (hl : m.nodes.link pred level = some ⟨some curr, false⟩) :
    Returns maxLevel m (.busy r (.findGet a level pred curr)) := by
  generalize hn : rank curr = n
  induction n using Nat.strong_induction_on generalizing m pred curr with
  | _ n ih =>
      have hcurr : m.nodes.LinkedAt level curr := hs.calm.grounded.ref _ _ _ _ hl
      obtain ⟨⟨o, b⟩, hlk⟩ := hs.calm.grounded.link curr level hcurr
      cases b with
      | true =>
          cases o with
          | none => exact absurd (hs.calm.grounded.null _ _ _ hcurr hlk).2 (by decide)
          | some succ =>
              have hlt : rank succ < n := hn ▸ hrank _ _ ⟨hcurr, true, hlk⟩
              refine .move (.findMarked hlk) (.move (.spliced hl) ?_)
              exact ih _ hlt (hs.splice hl hlk) (hs.calm.grounded.ranks_splice hrank hs.linked hl hlk)
                (Heap.link_setLink_self hl) rfl
      | false =>
          by_cases hk : m.nodes.bound curr < target r.key
          · obtain ⟨succ, b, hlk'⟩ := hs.calm.next hcurr hk
            rw [hlk] at hlk'
            cases hlk'
            have hlt : rank succ < n := hn ▸ hrank _ _ ⟨hcurr, false, hlk⟩
            exact .move (.findNext hlk hk) (ih _ hlt (hs.next hcurr ⟨_, hlk⟩ hk) hrank hlk rfl)
          · exact hend m pred curr hs hl ⟨o, hlk⟩ (not_lt.mp hk)

/-- The search comes onto a level and goes along it. -/
theorem returns_level
    (hend : ∀ m pred curr, Searching maxLevel m.nodes r level pred →
      m.nodes.link pred level = some ⟨some curr, false⟩ → m.nodes.UnmarkedAt level curr →
      target r.key ≤ m.nodes.bound curr → Returns maxLevel m (.busy r (.findGet a level pred curr)))
    (hs : Searching maxLevel m.nodes r level pred) :
    Returns maxLevel m (.busy r (.findRef a level pred)) := by
  obtain ⟨rank, hrank⟩ := hs.calm.grounded.ranked level
  obtain ⟨curr, b, hl⟩ := hs.calm.next hs.linked hs.below
  obtain ⟨o, hu⟩ := hs.unmarked
  cases hu.symm.trans hl
  exact .move (.findRef hl) (returns_scan hend hs hrank hl)

/-- From level to level, down to the caller. -/
theorem returns_find
    (hdone : ∀ m r curr, r.topLevel ≤ maxLevel → Located maxLevel m.nodes r curr →
      Returns maxLevel m (.busy r (.found m r curr a)))
    (hs : Searching maxLevel m.nodes r level pred) (htop : r.topLevel ≤ maxLevel) :
    Returns maxLevel m (.busy r (.findRef a level pred)) := by
  induction level generalizing m r pred with
  | zero =>
      refine returns_level (fun m pred curr hs hl ⟨o, hu⟩ hk => ?_) hs
      refine .move (.findDone hu hk) (hdone _ _ _ htop ⟨hs.calm, hs.arrays_atLevel hl, ?_, o, hu⟩)
      exact hs.calm.grounded.ref _ _ _ _ hl
  | succ level ih =>
      refine returns_level (fun m pred curr hs hl ⟨o, hu⟩ hk => ?_) hs
      exact .move (.findDown hu hk) (ih (hs.down hl) htop)

end Search

/-! ## The calls -/

/-- What an insert needs until it has linked its node from level `lo` up: the node has its links, and what
the search has found at those levels is still so. -/
structure Raising (h : Heap) (r : Regs) (node lo : ℕ) : Prop where
  tower : ∀ l ≤ r.topLevel, ∃ lk, h.link node l = some lk
  arrays : ∀ l, lo ≤ l → l ≤ r.topLevel →
    r.preds l ≠ node ∧ h.link (r.preds l) l = some ⟨some (r.succs l), false⟩

section Calls

variable {maxLevel : ℕ} {m : Mem} {h : Heap} {r : Regs} {level node curr : ℕ}

theorem returns_ret {v : Ret} : Returns maxLevel m (.busy r (.ret v)) := .move .ret .idle

namespace Raising

/-- A write to the node's own links. -/
theorem store {l : ℕ} {lk : Link} (hr : Raising h r node level) :
    Raising (h.setLink node l lk) r node level where
  tower l' hl' := by
    obtain ⟨k, hk⟩ := hr.tower l' hl'
    exact Heap.link_setLink_some hk
  arrays l' hlo hl' := by
    obtain ⟨hne, hl⟩ := hr.arrays l' hlo hl'
    exact ⟨hne, (Heap.link_setLink_of_ne (.inl hne)).trans hl⟩

/-- The node is linked at `level`. -/
theorem link {n : ℕ} (hr : Raising h r node level) :
    Raising ((h.setLink (r.preds level) level ⟨some node, false⟩).setLinked node n) r node (level + 1) where
  tower l hl := by
    obtain ⟨k, hk⟩ := hr.tower l hl
    rw [Heap.link_setLinked]
    exact Heap.link_setLink_some hk
  arrays l hlo hl := by
    obtain ⟨hne, hlk⟩ := hr.arrays l ((Nat.le_succ level).trans hlo) hl
    rw [Heap.link_setLinked, Heap.link_setLink_of_ne (.inr (Nat.ne_of_gt hlo))]
    exact ⟨hne, hlk⟩

end Raising

/-- The loop over the upper levels: every level is linked at the first attempt. -/
theorem returns_insUp {m : Mem} {level : ℕ} (hr : Raising m.nodes r node level) :
    Returns maxLevel m (.busy r (.insUp r.topLevel node level)) := by
  rw [Pc.insUp]
  split
  · next hle =>
    obtain ⟨lk, hlk⟩ := hr.tower level hle
    have hr' : Raising (m.store node level ⟨some (r.succs level), false⟩).nodes r node level := hr.store
    refine .move (.insStore hlk) (.move (.linked (hr'.arrays level le_rfl hle).2) ?_)
    exact returns_insUp hr'.link
  · exact .move .insLen returns_ret
termination_by r.topLevel + 1 - level

/-- The links of the new node are prepared, and it is published. -/
theorem returns_insInit {m : Mem} {level : ℕ} (hr : Raising m.nodes r node 0)
    (hle : level ≤ r.topLevel) :
    Returns maxLevel m (.busy r (.insInit node level)) := by
  obtain ⟨lk, hlk⟩ := hr.tower level hle
  have hr' : Raising (m.store node level ⟨some (r.succs level), false⟩).nodes r node 0 := hr.store
  rcases Nat.lt_or_ge level r.topLevel with hlt | hge
  · exact .move (.insInit hlk hlt) (returns_insInit hr' hlt)
  · refine .move (.insInitLast hlk hge) (.move (.published (hr'.arrays 0 le_rfl (Nat.zero_le _)).2) ?_)
    exact returns_insUp hr'.link
termination_by r.topLevel - level

/-- `insert`, after its search. -/
theorem returns_insert (htop : r.topLevel ≤ maxLevel) (hf : Located maxLevel m.nodes r curr) :
    Returns maxLevel m (.busy r (.found m r curr .insert)) := by
  simp only [Pc.found]
  split
  · cases hv : m.nodes.valueOf curr with
    | some old => exact .move (.swapped hv) (.move .insRetire returns_ret)
    | none => exact .move (.swappedNull hv) returns_ret
  · refine .move .insAlloc (returns_insInit ⟨?_, ?_⟩ (Nat.zero_le _))
    · intro l hl
      exact ⟨Link.null, (Heap.link_alloc_self (h := m.nodes)).trans
        (List.getElem?_replicate_of_lt (Nat.lt_succ_of_le hl))⟩
    · intro l _ hl
      have hlk := hf.arrays l (Nat.zero_le l) (hl.trans htop)
      have hne := (Heap.lt_length_of_link hlk).ne
      exact ⟨hne, (Heap.link_alloc_of_ne hne).trans hlk⟩

/-- The cleanup of `remove`. -/
theorem returns_clean (hc : Calm maxLevel m.nodes) (htop : r.topLevel ≤ maxLevel) :
    Returns maxLevel m (.busy r (.findRef (.clean node) maxLevel head)) :=
  returns_find (fun _ _ _ _ _ => .move .rmLen (.move .rmRetire returns_ret)) (.start hc) htop

/-- The marking loops of `remove`: every mark is set at the first attempt. -/
theorem returns_rmDown (hc : Calm maxLevel m.nodes) (htop : r.topLevel ≤ maxLevel)
    (hnode : m.nodes.Published node) (hk : m.nodes.bound node = target r.key)
    (hu : m.nodes.UnmarkedAt 0 node) (hs : m.nodes.SweptAbove level node)
    (hle : level ≤ m.nodes.topOf node) : Returns maxLevel m (.busy r (.rmDown node level)) := by
  induction level generalizing m with
  | zero =>
      obtain ⟨o, hu⟩ := hu
      refine .move (.rmGet0 hu) (.move (.removed hu) (.move (.rmClean (Heap.link_setLink_self hu)) ?_))
      exact returns_clean (hc.mark hnode hk hs hu) htop
  | succ level ih =>
      obtain ⟨⟨o, b⟩, hlk⟩ := Option.isSome_iff_exists.mp
        ((hc.topDown.tall node hnode.lt_length (level + 1)).mpr hle)
      show Returns maxLevel m (.busy r (.rmGet node (level + 1)))
      cases b with
      | true =>
          exact .move (.rmPassed hlk) (ih hc hnode hk hu (hs.down ⟨o, hlk⟩) ((Nat.le_succ _).trans hle))
      | false =>
          have hlk' : (m.store node (level + 1) ⟨o, true⟩).nodes.link node (level + 1) =
              some ⟨o, true⟩ := Heap.link_setLink_self hlk
          have hfr : Frozen m.nodes (m.store node (level + 1) ⟨o, true⟩).nodes := frozen_setLink hlk rfl
          refine .move (.rmGet hlk) (.move (.rmMarked hlk) (.move (.rmPassed hlk') ?_))
          refine ih (hc.mark hnode hk hs hlk) (Heap.published_setLink.mpr hnode) ?_ ?_ ?_ ?_
          · exact Heap.bound_setLink.trans hk
          · obtain ⟨o', hu⟩ := hu
            exact ⟨o', (Heap.link_setLink_of_ne (.inr (Nat.succ_ne_zero _).symm)).trans hu⟩
          · exact (hs.frozen hfr hnode.lt_length).down ⟨o, hlk'⟩
          · rw [hfr.top node hnode.lt_length]
            exact (Nat.le_succ _).trans hle

/-- `remove`, after its search. -/
theorem returns_remove (htop : r.topLevel ≤ maxLevel) (hf : Located maxLevel m.nodes r curr) :
    Returns maxLevel m (.busy r (.found m r curr .remove)) := by
  simp only [Pc.found]
  split
  · next he =>
    refine returns_rmDown hf.calm htop hf.linked (BoundKey.keyEq_iff.mp he) hf.unmarked ?_ le_rfl
    exact fun l hl hle => absurd hle (Nat.not_le.mpr hl)
  · exact returns_ret

/-- `get` walks along a level and passes over marked nodes. -/
theorem returns_walk {rank : ℕ → ℕ} {pred : ℕ} (hc : Calm maxLevel m.nodes)
    (hrank : Ranks rank (m.nodes.Hop level))
    (hend : ∀ pred curr o, m.nodes.LinkedAt level pred → m.nodes.bound pred < target r.key →
      m.nodes.link curr level = some ⟨o, false⟩ → target r.key ≤ m.nodes.bound curr →
      Returns maxLevel m (.busy r (.getGet level pred curr)))
    (hpred : m.nodes.LinkedAt level pred) (hlt : m.nodes.bound pred < target r.key)
    (hcurr : m.nodes.LinkedAt level curr) : Returns maxLevel m (.busy r (.getGet level pred curr)) := by
  generalize hn : rank curr = n
  induction n using Nat.strong_induction_on generalizing pred curr with
  | _ n ih =>
      obtain ⟨⟨o, b⟩, hlk⟩ := hc.grounded.link curr level hcurr
      have hsucc : ∀ {succ}, o = some succ → m.nodes.LinkedAt level succ ∧ rank succ < n := by
        rintro succ rfl
        exact ⟨hc.grounded.ref _ _ _ _ hlk, hn ▸ hrank _ _ ⟨hcurr, b, hlk⟩⟩
      cases b with
      | true =>
          cases o with
          | none => exact absurd (hc.grounded.null _ _ _ hcurr hlk).2 (by decide)
          | some succ =>
              obtain ⟨hlinked, hr⟩ := hsucc rfl
              exact .move (.getMarked hlk) (ih _ hr hpred hlt hlinked rfl)
      | false =>
          by_cases hk : m.nodes.bound curr < target r.key
          · obtain ⟨succ, b, hlk'⟩ := hc.next hcurr hk
            rw [hlk] at hlk'
            cases hlk'
            obtain ⟨hlinked, hr⟩ := hsucc rfl
            exact .move (.getNext hlk hk) (ih _ hr hcurr hk hlinked rfl)
          · exact hend pred curr o hpred hlt hlk (not_lt.mp hk)

/-- `get` comes onto a level and goes along it. -/
theorem returns_getLevel {pred : ℕ} (hc : Calm maxLevel m.nodes)
    (hend : ∀ pred curr o, m.nodes.LinkedAt level pred → m.nodes.bound pred < target r.key →
      m.nodes.link curr level = some ⟨o, false⟩ → target r.key ≤ m.nodes.bound curr →
      Returns maxLevel m (.busy r (.getGet level pred curr)))
    (hpred : m.nodes.LinkedAt level pred) (hlt : m.nodes.bound pred < target r.key) :
    Returns maxLevel m (.busy r (.getRef level pred)) := by
  obtain ⟨rank, hrank⟩ := hc.grounded.ranked level
  obtain ⟨curr, b, hl⟩ := hc.next hpred hlt
  exact .move (.getRef hl) (returns_walk hc hrank hend hpred hlt (hc.grounded.ref _ _ _ _ hl))

theorem returns_get {pred : ℕ} (hc : Calm maxLevel m.nodes) (hpred : m.nodes.LinkedAt level pred)
    (hlt : m.nodes.bound pred < target r.key) : Returns maxLevel m (.busy r (.getRef level pred)) := by
  induction level generalizing pred with
  | zero =>
      refine returns_getLevel hc (fun pred curr o _ _ hlk hk => ?_) hpred hlt
      rcases eq_or_lt_of_le hk with hk | hk
      · refine .move (.getHit hlk hk.symm) (.move (.getLive hlk) ?_)
        cases hv : m.nodes.valueOf curr with
        | some c => exact .move (.getVal hv) returns_ret
        | none => exact .move (.getNull hv) returns_ret
      · exact .move (.getMiss hlk hk) returns_ret
  | succ level ih =>
      refine returns_getLevel hc (fun pred curr o hp hlt hlk hk => ?_) hpred hlt
      exact .move (.getDown hlk hk) (ih (hp.down (Nat.le_succ level)) hlt)

/-- **A call that runs alone returns.** -/
theorem Calm.returns {op : Op} (hc : Calm maxLevel m.nodes) (htop : r.topLevel ≤ maxLevel) :
    Returns maxLevel m (.busy r (.start maxLevel op)) := by
  cases op with
  | insert key val => exact returns_find (fun _ _ _ htop hf => returns_insert htop hf) (.start hc) htop
  | get key =>
      exact returns_get hc (hc.grounded.head maxLevel le_rfl) (Heap.bound_head_lt hc.head_key r.key)
  | remove key => exact returns_find (fun _ _ _ htop hf => returns_remove htop hf) (.start hc) htop

end Calls

/-! ## From any state of a run -/

section Runs

variable {τ : Type} [DecidableEq τ] {maxLevel : ℕ} {s : Config τ Mem Thread} {t : τ}

theorem stepOf_of_move {r : Regs} {pc : Pc} {m' : Mem} {th : Thread} (hl : s.loc t = .busy r pc)
    (hmv : Move maxLevel s.mem r pc m' th) :
    (threads maxLevel).stepOf s (t, .run) =
      some { mem := m', loc := Function.update s.loc t th } := by
  refine Threads.stepOf_eq_some.mpr ⟨m', th, ?_, rfl⟩
  rw [hl]
  exact hmv.exec

/-- The moves as a schedule; the other threads stay where they are. -/
theorem Returns.schedule {m : Mem} {th : Thread} (h : Returns maxLevel m th) (hm : s.mem = m)
    (hth : s.loc t = th) :
    ∃ k s', Machine.runFn (threads maxLevel).stepOf s (List.replicate k (t, .run)) = some s' ∧
      s'.loc t = .idle ∧ ∀ u ≠ t, s'.loc u = s.loc u := by
  induction h generalizing s with
  | idle => exact ⟨0, s, rfl, hth, fun _ _ => rfl⟩
  | @move m r pc m' th' hmv _ ih =>
      obtain ⟨k, s', hrun, hidle, hrest⟩ :=
        ih (s := { mem := m', loc := Function.update s.loc t th' }) rfl (Function.update_self ..)
      refine ⟨k + 1, s', ?_, hidle, fun u hu => (hrest u hu).trans (Function.update_of_ne hu ..)⟩
      rw [List.replicate_succ, Machine.runFn, stepOf_of_move hth (hm ▸ hmv)]
      exact hrun

/-- The heap is calm in every state of a run in which no store overwrites a mark. -/
theorem calm_of_reachable (hmax : maxLevel < maxHeight)
    (hs : (((threads maxLevel).restrict keepsMarks).machine τ).Reachable s) :
    Calm maxLevel s.mem.nodes := by
  have hi := ((marked maxLevel keepsMarks fun _ _ _ => id).and
    (links maxLevel hmax keepsMarks fun _ _ _ => id)).holds hs
  obtain ⟨⟨hshape, htop⟩, hg, hhead⟩ := hi.shared
  exact ⟨hg, htop, hhead, hshape.head_key, hshape.tail_key⟩

/-- **Skiplist calls run alone always finish**, after any run in which no store of `insert` overwrites a
mark: any call of any thread that is not inside one, with any tower height, returns after finitely many of
its own steps when no other thread moves. -/
theorem call_alone_returns (hmax : maxLevel < maxHeight)
    (hs : (((threads maxLevel).restrict keepsMarks).machine τ).Reachable s) (ht : s.loc t = .idle)
    (op : Op) {topLevel : ℕ} (htop : topLevel ≤ maxLevel) :
    ∃ k s', Machine.runFn (threads maxLevel).stepOf s
        ((t, .call op topLevel) :: List.replicate k (t, .run)) = some s' ∧
      s'.loc t = .idle ∧ ∀ u ≠ t, s'.loc u = s.loc u := by
  have hret : Returns maxLevel (s.mem.invoke op)
      (.busy (.start s.mem.calls op topLevel) (.start maxLevel op)) :=
    Calm.returns (m := s.mem.invoke op) (calm_of_reachable hmax hs) htop
  have hst : (threads maxLevel).stepOf s (t, .call op topLevel) =
      some { mem := s.mem.invoke op,
             loc := Function.update s.loc t
               (.busy (.start s.mem.calls op topLevel) (.start maxLevel op)) } := by
    refine Threads.stepOf_eq_some.mpr ⟨_, _, ?_, rfl⟩
    rw [ht]
    exact if_pos htop
  obtain ⟨k, s', hrun, hidle, hrest⟩ := hret.schedule (t := t)
    (s := ⟨s.mem.invoke op, Function.update s.loc t _⟩) rfl (Function.update_self ..)
  refine ⟨k, s', ?_, hidle, fun u hu => (hrest u hu).trans (Function.update_of_ne hu ..)⟩
  rw [Machine.runFn, hst]
  exact hrun

end Runs

/-- A second insert of key 5 has found the node of the first one at level 1 when the key is removed; it links
its own node in front of the deleted one, where the cleanup of the remover does not see it. -/
def shadowed : List (Bool × Choice) :=
  (false, .call (.insert [5] [1]) 1) :: List.replicate 12 (false, .run) ++
    (false, .call (.insert [5] [2]) 1) :: List.replicate 2 (false, .run) ++
    (true, .call (.remove [5]) 0) :: List.replicate 10 (true, .run) ++
    List.replicate 12 (false, .run) ++ List.replicate 7 (true, .run)

/-- A retired node is left at level 1, and yet a `remove` that runs alone returns. -/
theorem call_alone_returns_shadowed :
    ∃ s : Config Bool Mem Thread, (∀ t, s.loc t = .idle) ∧ .node 2 ∈ s.mem.retired ∧
      s.mem.nodes.link 3 1 = some ⟨some 2, false⟩ ∧
      ∃ k s', Machine.runFn (threads 1).stepOf s
          ((true, .call (.remove [5]) 0) :: List.replicate k (true, .run)) = some s' ∧
        s'.loc true = .idle ∧ ∀ u ≠ true, s'.loc u = s.loc u := by
  obtain ⟨s, hs⟩ : ∃ s, Machine.runFn ((threads 1).restrict keepsMarks).stepOf
      { mem := .withMaxLevel, loc := fun _ => .idle } shadowed = some s := ⟨_, rfl⟩
  obtain ⟨hidle, hret, hlink⟩ : (s.loc false = .idle ∧ s.loc true = .idle) ∧ .node 2 ∈ s.mem.retired ∧
      s.mem.nodes.link 3 1 = some ⟨some 2, false⟩ := by
    cases hs
    exact ⟨⟨rfl, rfl⟩, List.mem_singleton.mpr rfl, rfl⟩
  have hr : (((threads 1).restrict keepsMarks).machine Bool).Reachable s := Machine.reachable_of_runFn hs
  exact ⟨s, Bool.forall_bool.mpr hidle, hret, hlink,
    call_alone_returns (by decide) hr hidle.2 (.remove [5]) (Nat.zero_le 1)⟩

/-! ## A search that never ends -/

/-- Key 7 is inserted, and then key 5 with a tower of two levels, up to its publication.  Key 5 is removed and
its node retired.  Then the insert goes on, overwrites the mark at level 1 and links the node there. -/
def unmarking : List (Bool × Choice) :=
  (false, .call (.insert [7] [1]) 0) :: List.replicate 9 (false, .run) ++
    (false, .call (.insert [5] [2]) 1) :: List.replicate 8 (false, .run) ++
    (true, .call (.remove [5]) 0) :: List.replicate 19 (true, .run) ++ List.replicate 4 (false, .run)

/-- Where the cleanup after a removal of key 7 goes round: it comes down from the deleted node 3 and tries to
splice node 2 out of a link that is marked. -/
def rounds : List Pc :=
  [.findRef (.clean 2) 1 head, .findGet (.clean 2) 1 head 3, .findGet (.clean 2) 1 3 tail,
    .findRef (.clean 2) 0 3, .findGet (.clean 2) 0 3 2, .findSplice (.clean 2) 0 3 2 tail]

/-- The links that lead the search round. -/
structure Trap (h : Heap) : Prop where
  head_up : h.link head 1 = some ⟨some 3, false⟩
  node_up : h.link 3 1 = some ⟨some tail, false⟩
  tail_up : h.link tail 1 = some ⟨none, false⟩
  node : h.link 3 0 = some ⟨some 2, true⟩
  next : h.link 2 0 = some ⟨some tail, true⟩
  node_key : h.keyOf 3 = .fin (.new [5])
  tail_key : h.keyOf tail = .posInf

section Trap

variable {m : Mem} {r : Regs} {pc : Pc} {τ : Type} [DecidableEq τ] {t : τ}

/-- A step of the search in the trap changes nothing and stays in it. -/
theorem Trap.move (h : Trap m.nodes) (hk : r.key = [7]) (hpc : pc ∈ rounds) :
    ∃ r' pc', Move 1 m r pc m (.busy r' pc') ∧ r'.key = [7] ∧ pc' ∈ rounds := by
  have hbelow : m.nodes.bound 3 < target r.key := by
    rw [hk, Heap.bound, h.node_key]
    exact BoundKey.keyLt_iff.mp (by decide)
  have habove : target r.key ≤ m.nodes.bound tail := (Heap.lt_bound_tail h.tail_key r.key).le
  simp only [rounds, List.mem_cons, List.not_mem_nil, or_false] at hpc
  rcases hpc with rfl | rfl | rfl | rfl | rfl | rfl
  · exact ⟨r, _, .findRef h.head_up, hk, by simp [rounds]⟩
  · exact ⟨r, _, .findNext h.node_up hbelow, hk, by simp [rounds]⟩
  · exact ⟨_, _, .findDown h.tail_up habove, hk, by simp [rounds]⟩
  · exact ⟨r, _, .findRef h.node, hk, by simp [rounds]⟩
  · exact ⟨r, _, .findMarked h.next, hk, by simp [rounds]⟩
  · exact ⟨r, _, .spliceLost h.node (by simp), hk, by simp [rounds]⟩

/-- So it goes on for ever. -/
theorem Trap.runs {s : Config τ Mem Thread} (h : Trap s.mem.nodes) (hk : r.key = [7]) (hpc : pc ∈ rounds)
    (hl : s.loc t = .busy r pc) (k : ℕ) :
    ∃ s', Machine.runFn (threads 1).stepOf s (List.replicate k (t, .run)) = some s' := by
  induction k generalizing s r pc with
  | zero => exact ⟨s, rfl⟩
  | succ k ih =>
      obtain ⟨r', pc', hmv, hk', hpc'⟩ := h.move hk hpc
      obtain ⟨s', hrun⟩ := ih (s := { mem := s.mem, loc := Function.update s.loc t (.busy r' pc') }) h hk'
        hpc' (Function.update_self ..)
      refine ⟨s', ?_⟩
      rw [List.replicate_succ, Machine.runFn, stepOf_of_move hl hmv]
      exact hrun

end Trap

/-- All calls have returned, and a `remove` that runs alone does not: it takes any number of steps
without coming to its end. -/
theorem remove_alone_spins :
    ∃ s : Config Bool Mem Thread, ((threads 1).machine Bool).Reachable s ∧ (∀ t, s.loc t = .idle) ∧
      ∀ k, ∃ s', Machine.runFn (threads 1).stepOf s
        ((true, .call (.remove [7]) 0) :: List.replicate k (true, .run)) = some s' ∧
          s'.loc true ≠ .idle := by
  obtain ⟨s, hs⟩ : ∃ s, Machine.runFn (threads 1).stepOf
      { mem := .withMaxLevel, loc := fun _ => .idle } unmarking = some s := ⟨_, rfl⟩
  have hidle : s.loc true = .idle ∧ s.loc false = .idle := by
    cases hs
    exact ⟨rfl, rfl⟩
  -- the call enters the trap after eight steps
  obtain ⟨s₁, hs₁⟩ : ∃ s₁, Machine.runFn (threads 1).stepOf s
      ((true, .call (.remove [7]) 0) :: List.replicate 8 (true, .run)) = some s₁ := by
    cases hs
    exact ⟨_, rfl⟩
  obtain ⟨htrap, r, hl, hk⟩ : Trap s₁.mem.nodes ∧
      ∃ r, s₁.loc true = .busy r (.findRef (.clean 2) 1 head) ∧ r.key = [7] := by
    cases hs
    cases hs₁
    exact ⟨⟨rfl, rfl, rfl, rfl, rfl, rfl, rfl⟩, _, rfl, rfl⟩
  refine ⟨s, Machine.reachable_of_runFn hs, Bool.forall_bool.mpr ⟨hidle.2, hidle.1⟩, fun k => ?_⟩
  obtain ⟨s₂, hs₂⟩ := htrap.runs hk (by simp [rounds]) hl k
  -- the same steps, cut after the first `k`
  have hlong : Machine.runFn (threads 1).stepOf s
      (((true, .call (.remove [7]) 0) :: List.replicate k (true, .run)) ++
        List.replicate 8 (true, .run)) = some s₂ := by
    rw [List.cons_append, ← List.replicate_add, Nat.add_comm, List.replicate_add, ← List.cons_append,
      Machine.runFn_append, hs₁]
    exact hs₂
  rw [Machine.runFn_append] at hlong
  obtain ⟨s', hs', hrest⟩ := Option.bind_eq_some_iff.mp hlong
  refine ⟨s', hs', fun he => ?_⟩
  obtain ⟨u, hu, -⟩ := Option.bind_eq_some_iff.mp hrest
  obtain ⟨m, th, hst, -⟩ := Threads.stepOf_eq_some.mp hu
  rw [he] at hst
  cases hst

end ZeroKv.SkipList
