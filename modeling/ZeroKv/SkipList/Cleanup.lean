/-
# ZeroKv.SkipList.Cleanup — the search that takes a removed node out.

After `remove` has marked its node it runs `find` once more, for the key of the node, and then retires the
node.  The search passes every level and splices out what it finds marked before the place of the key.

At each level it stops at a node that is not marked and not below the key.  By then the removed node was off
that level at some moment since it was marked: had it been on the chain, it would have stood between the two
nodes the search has seen side by side.  Under `keepsLevels` it never comes back.
-/
import ZeroKv.SkipList.Upper

namespace ZeroKv.SkipList

/-! ## What is on a level -/

/-- The node is reached from the head along the links of level `l`. -/
def Heap.ReachedAt (h : Heap) (l q : ℕ) : Prop := Relation.ReflTransGen (h.NextAt l) head q

section Level

variable {h h' : Heap} {x : Option ℕ} {maxLevel l p : ℕ} {ch : List ℕ}

/-- The chain of a level holds what is reached from the head. -/
theorem Level.mem_iff (hb : Level h l ch) : p ∈ ch ↔ h.ReachedAt l p := by
  constructor
  · refine hb.linked.induction (h.ReachedAt l ·) ch ?_ ?_ p
    · intro x y hxy hx
      exact hx.tail hxy
    · intro hne
      have hfirst : ch.head hne = head := Option.some.inj ((List.head?_eq_some_head hne).symm.trans hb.first)
      rw [hfirst]
      exact .refl
  · intro hp
    induction hp with
    | refl => exact hb.head_mem
    | tail _ hxy ih =>
        obtain ⟨a, c, rfl⟩ := hb.split ih hxy
        simp

theorem Level.onLevel_iff (hb : Level h l ch) : h.OnLevel l p ↔ p ∈ ch := by
  constructor
  · rintro ⟨ch', hb', hp⟩
    exact hb.mem_iff.mpr (hb'.mem_iff.mp hp)
  · exact fun hp => ⟨ch, hb, hp⟩

theorem Levels.onLevel_iff (hL : Levels maxLevel h) (hl : l ≤ maxLevel) :
    h.OnLevel l p ↔ h.ReachedAt l p := by
  obtain ⟨ch, hb⟩ := hL.chain l hl
  exact hb.onLevel_iff.trans hb.mem_iff

/-- A node that is linked at a level and not marked there is on it. -/
theorem Levels.onLevel (hL : Levels maxLevel h) (hl : l ≤ maxLevel) (hp : h.LinkedAt l p)
    (hu : h.UnmarkedAt l p) : h.OnLevel l p := by
  obtain ⟨ch, hb⟩ := hL.chain l hl
  exact ⟨ch, hb, hb.complete p hp hu⟩

theorem Levels.onLevel_head (hL : Levels maxLevel h) (hl : l ≤ maxLevel) : h.OnLevel l head := by
  obtain ⟨ch, hb⟩ := hL.chain l hl
  exact ⟨ch, hb, hb.head_mem⟩

/-- What a step of a run has kept, at every level. -/
structure Advance (maxLevel : ℕ) (h h' : Heap) : Prop where
  later : Later h h'
  frozen : Frozen h h'
  leaves : ∀ l ≤ maxLevel, ∀ p, h.OnLevel l p → h'.OnLevel l p ∨ h.MarkedAt l p
  /-- A deleted node does not come back. -/
  back : ∀ l ≤ maxLevel, ∀ p, h.Gone p → h'.OnLevel l p → h.OnLevel l p

theorem Change.advance (hc : Change h x h') (hL : Levels maxLevel h) (ht : TopDown h)
    (hl : Later h h') (hf : Frozen h h') : Advance maxLevel h h' where
  later := hl
  frozen := hf
  leaves l hle p hp := by
    obtain ⟨ch, hb, hp⟩ := hp
    obtain ⟨ch', hb', hleave, -⟩ := hc.level hb
    exact (hleave p hp).imp_left fun hp' => ⟨ch', hb', hp'⟩
  back l hle p hg hp := by
    obtain ⟨ch, hb⟩ := hL.chain l hle
    obtain ⟨ch', hb', -, hcome⟩ := hc.level hb
    rcases hcome p (hb'.onLevel_iff.mp hp) with hp | ⟨-, hu⟩
    · exact ⟨ch, hb, hp⟩
    · -- what is linked is not marked there, so not deleted
      exact absurd hg (Heap.UnmarkedAt.not_marked (ht.unmarked hu (Nat.zero_le l)))

end Level

/-! ## The memories since some moment -/

/-- The memories `W` of the run since some moment, up to `m`, as seen from every level. -/
structure Era (maxLevel : ℕ) (W : Set Mem) (m : Mem) : Prop where
  window : ∀ l ≤ maxLevel, Window l W m
  back : ∀ m₀ ∈ W, ∀ l ≤ maxLevel, ∀ p, m₀.nodes.Gone p → m.nodes.OnLevel l p → m₀.nodes.OnLevel l p

section Era

variable {maxLevel level p q : ℕ} {W W' : Set Mem} {m m' : Mem} {b : Bool}

theorem Era.start (maxLevel : ℕ) (m : Mem) : Era maxLevel {m} m where
  window l _ := Window.start l m
  back := by
    rintro m₀ rfl l hl p - hp
    exact hp

theorem Era.step (he : Era maxLevel W m) (ha : Advance maxLevel m.nodes m'.nodes) :
    Era maxLevel (insert m' W) m' where
  window l hl :=
    (he.window l hl).step ha.later (fun p o => ha.frozen.link p l o) (ha.leaves l hl)
  back := by
    rintro m₀ (rfl | h₀) l hl p hg hp
    · exact hp
    · have hgm := ((he.window l hl).later m₀ h₀).gone hg
      exact he.back m₀ h₀ l hl p hg (ha.back l hl p hgm hp)

/-- What follows a node met in the window was met in it too. -/
theorem Era.met_next (he : Era maxLevel W m) (hl : level ≤ maxLevel) (hp : Met level W p)
    (hq : m.nodes.link p level = some ⟨some q, b⟩) : Met level W q := by
  obtain ⟨m₁, h₁, a, c, hb, -⟩ := (he.window level hl).next hp hq
  exact ⟨m₁, h₁, _, hb, by simp⟩

/-- **A deleted node is off the level**, once a search has seen two neighbours with its key between
them. -/
theorem Era.off (he : Era maxLevel W m) (hl : level ≤ maxLevel) {node : ℕ}
    (hg : ∀ m₀ ∈ W, m₀.nodes.Gone node) (hp : Met level W p)
    (hq : m.nodes.link p level = some ⟨some q, b⟩) (hlt : m.nodes.bound p < m.nodes.bound node)
    (hle : m.nodes.bound node ≤ m.nodes.bound q) (hne : q ≠ node) : ¬ m.nodes.OnLevel level node := by
  intro hon
  obtain ⟨m₁, h₁, a, c, hb, -⟩ := (he.window level hl).next hp hq
  have hnode := hb.onLevel_iff.mp (he.back m₁ h₁ level hl node (hg m₁ h₁) hon)
  have hmem : ∀ x ∈ a ++ p :: q :: c, m.nodes.bound x = m₁.nodes.bound x :=
    fun x hx => ((he.window level hl).later m₁ h₁).bound (hb.published x hx).lt_length
  rw [hmem node hnode, hmem p (by simp)] at hlt
  rw [hmem node hnode, hmem q (by simp)] at hle
  exact hne (hb.bound_inj (by simp) hnode (le_antisymm (hb.not_between hnode hlt) hle))

end Era

/-! ## Where a search has been -/

/-- The nodes a search holds were on the levels it uses them at. -/
def Pc.Walks (W : Set Mem) : Pc → Prop
  | .findRef _ level pred | .getRef level pred => ∀ l ≤ level, Met l W pred
  | .findGet _ level pred curr | .getGet level pred curr => (∀ l ≤ level, Met l W pred) ∧ Met level W curr
  | .findSplice _ level pred curr succ =>
      (∀ l ≤ level, Met l W pred) ∧ Met level W curr ∧ Met level W succ
  | _ => True

def Thread.Walks (W : Set Mem) : Thread → Prop
  | .idle => True
  | .busy _ pc => pc.Walks W

section Walks

variable {maxLevel : ℕ} {W W' : Set Mem} {m m' : Mem} {r : Regs} {pc : Pc} {th : Thread}

theorem Pc.Walks.mono (hw : pc.Walks W) (hW : W ⊆ W') : pc.Walks W' := by
  cases pc with
  | findRef a level pred | getRef level pred => exact fun l hl => (hw l hl).mono hW
  | findGet a level pred curr | getGet level pred curr =>
      exact ⟨fun l hl => (hw.1 l hl).mono hW, hw.2.mono hW⟩
  | findSplice a level pred curr succ =>
      exact ⟨fun l hl => (hw.1 l hl).mono hW, hw.2.1.mono hW, hw.2.2.mono hW⟩
  | _ => trivial

theorem walks_found {curr : ℕ} {a : After} : (Pc.found m r curr a).Walks W := by
  cases a with
  | insert | remove =>
      simp only [Pc.found, Pc.rmDown]
      repeat' split
      all_goals trivial
  | relink node level | clean node => trivial

/-- **A search stays among nodes it met.** -/
theorem Move.walks (hmv : Move maxLevel m r pc m' th) (hL : Levels maxLevel m.nodes)
    (ht : TopDown m.nodes) (hb : (Thread.busy r pc).Builds maxLevel m.nodes) (he : Era maxLevel W m)
    (hm' : m' ∈ W') (hW : W ⊆ W') (hw : pc.Walks W) : th.Walks W' := by
  obtain ⟨-, -, hb⟩ := hb
  have hnow : ∀ {level}, level ≤ maxLevel → m ∈ W := fun hl => (he.window _ hl).now
  -- a node that is linked and not marked at a level is on that one and all below
  have hlive : ∀ {level curr o}, level ≤ maxLevel → m.nodes.LinkedAt level curr →
      m.nodes.link curr level = some ⟨o, false⟩ → ∀ l ≤ level, Met l W curr := by
    intro level curr o hlevel hcurr hlk l hl
    refine ⟨m, hnow hlevel, hL.onLevel (hl.trans hlevel) (hcurr.down hl) ?_⟩
    exact ht.unmarked ⟨o, hlk⟩ hl
  have hhead : m'.nodes = m.nodes → ∀ l ≤ maxLevel, Met l W' head := by
    intro hn l hl
    refine ⟨m', hm', ?_⟩
    rw [hn]
    exact hL.onLevel_head hl
  have hmono := hw.mono hW
  cases hmv with
  | findRef hlk => exact ⟨hmono, (he.met_next hb.1 (hw _ le_rfl) hlk).mono hW⟩
  | findMarked hlk => exact ⟨hmono.1, hmono.2, (he.met_next hb.1 hw.2 hlk).mono hW⟩
  | findNext hlk =>
      have hcurr := hlive hb.1 hb.2.2.1 hlk
      exact ⟨fun l hl => (hcurr l hl).mono hW, (he.met_next hb.1 hw.2 hlk).mono hW⟩
  | findDown => exact fun l hl => hmono.1 l (hl.trans (Nat.le_succ _))
  | findDone => exact walks_found
  | spliced => exact ⟨hmono.1, hmono.2.2⟩
  | spliceLost | publishLost | linkLost | rmClean => exact hhead rfl
  | published | linked =>
      rw [Thread.Walks, Pc.insUp]
      split <;> trivial
  | getRef hlk => exact ⟨hmono, (he.met_next hb.1 (hw _ le_rfl) hlk).mono hW⟩
  | getMarked hlk => exact ⟨hmono.1, (he.met_next hb.1 hw.2 hlk).mono hW⟩
  | getNext hlk =>
      have hcurr := hlive hb.1 hb.2.2 hlk
      exact ⟨fun l hl => (hcurr l hl).mono hW, (he.met_next hb.1 hw.2 hlk).mono hW⟩
  | getDown => exact fun l hl => hmono.1 l (hl.trans (Nat.le_succ _))
  | rmPassed =>
      rw [Thread.Walks, Pc.rmDown]
      split <;> trivial
  | _ => trivial

end Walks

/-! ## The cleanup of a removed node -/

/-- The removed node that a running `find` is to take out. -/
def After.cleaning : After → Option ℕ
  | .clean node => some node
  | _ => none

/-- The node that a remover has marked and not yet retired. -/
def Pc.cleaning : Pc → Option ℕ
  | .findRef a _ _ | .findGet a _ _ _ | .findSplice a _ _ _ _ => a.cleaning
  | .rmChk node true | .rmLen node | .rmRetire node => some node
  | _ => none

/-- The node is on no level in use above `level`. -/
def Heap.OffAbove (maxLevel : ℕ) (h : Heap) (level node : ℕ) : Prop :=
  ∀ l, level < l → l ≤ maxLevel → ¬ h.OnLevel l node

/-- From which levels the node is gone, by the time the cleanup gets to a program point. -/
def Pc.Cleans (maxLevel : ℕ) (h : Heap) (node : ℕ) : Pc → Prop
  | .findRef _ level _ | .findSplice _ level _ _ _ => h.OffAbove maxLevel level node
  | .findGet _ level _ curr =>
      h.OffAbove maxLevel level node ∧
        (h.bound node ≤ h.bound curr → curr ≠ node → ¬ h.OnLevel level node)
  | .rmLen _ | .rmRetire _ => ∀ l ≤ maxLevel, ¬ h.OnLevel l node
  | _ => True

/-- What holds while a remover cleans up after its node; the window is open since the mark. -/
structure Cleaning (maxLevel : ℕ) (m : Mem) (r : Regs) (pc : Pc) (node : ℕ) : Prop where
  bound : m.nodes.bound node = target r.key
  era : ∃ W, Era maxLevel W m ∧ (∀ m₀ ∈ W, m₀.nodes.Gone node) ∧ pc.Walks W
  cleans : pc.Cleans maxLevel m.nodes node

def Thread.Cleans (maxLevel : ℕ) (m : Mem) : Thread → Prop
  | .idle => True
  | .busy r pc => ∀ node, pc.cleaning = some node → Cleaning maxLevel m r pc node

section Cleaning

variable {maxLevel level node : ℕ} {m m' : Mem} {h h' : Heap} {r : Regs} {pc : Pc} {th : Thread}

theorem Heap.OffAbove.advance (ho : h.OffAbove maxLevel level node) (ha : Advance maxLevel h h')
    (hg : h.Gone node) : h'.OffAbove maxLevel level node :=
  fun l hlt hl hon => ho l hlt hl (ha.back l hl node hg hon)

theorem Pc.Cleans.advance (hc : pc.Cleans maxLevel h node) (ha : Advance maxLevel h h')
    (hg : h.Gone node) (hp : node < h.length) (hk : pc.Knows h r)
    (hb : pc.Builds maxLevel h r) : pc.Cleans maxLevel h' node := by
  cases pc with
  | findRef a level pred | findSplice a level pred curr succ =>
      exact Heap.OffAbove.advance hc ha hg
  | findGet a level pred curr =>
      refine ⟨hc.1.advance ha hg, fun hle hne hon => ?_⟩
      rw [ha.later.bound hp, ha.later.bound hk.2.1.lt_length] at hle
      exact hc.2 hle hne (ha.back level hb.1 node hg hon)
  | rmLen node' | rmRetire node' => exact fun l hl hon => hc l hl (ha.back l hl node hg hon)
  | _ => trivial

/-- The remover that cleans is not disturbed by the others. -/
theorem Thread.Cleans.advance (hc : th.Cleans maxLevel m) (ha : Advance maxLevel m.nodes m'.nodes)
    (hk : th.Knows m.nodes) (hb : th.Builds maxLevel m.nodes) : th.Cleans maxLevel m' := by
  cases th with
  | idle => trivial
  | busy r pc =>
      intro node hn
      obtain ⟨hbound, ⟨W, he, hg, hw⟩, hcl⟩ := hc node hn
      have hgone : m.nodes.Gone node := hg m (he.window 0 (Nat.zero_le _)).now
      have hp : node < m.nodes.length := by
        obtain ⟨o, hl⟩ := hgone
        exact Heap.lt_length_of_link hl
      refine ⟨(ha.later.bound hp).trans hbound, ⟨insert m' W, he.step ha, ?_, ?_⟩, ?_⟩
      · rintro m₀ (rfl | h₀)
        · exact ha.later.gone hgone
        · exact hg m₀ h₀
      · exact hw.mono (Set.subset_insert m' W)
      · exact hcl.advance ha hgone hp hk.2 hb.2.2

/-- A move goes on with a cleanup, or starts one with the mark it sets on level 0. -/
theorem Move.cleaning {r' : Regs} {pc' : Pc} (hmv : Move maxLevel m r pc m' (.busy r' pc'))
    (hn : pc'.cleaning = some node) :
    (pc.cleaning = some node ∧ r'.key = r.key) ∨
      r' = r ∧ pc' = .rmChk node true ∧ m'.nodes.Gone node ∧ ∃ succ, pc = .rmCas0 node succ := by
  cases hmv with
  | @findDone a pred curr o hlk hle =>
      cases a with
      | clean node' => exact .inl ⟨hn, rfl⟩
      | insert | remove =>
          simp only [Pc.found, Pc.rmDown] at hn
          repeat' split at hn
          all_goals cases hn
      | relink node' level => cases hn
  | removed hlk =>
      cases hn
      exact .inr ⟨rfl, rfl, ⟨_, Heap.link_setLink_self hlk⟩, _, rfl⟩
  | published | linked =>
      simp only [Pc.insUp] at hn
      split at hn <;> cases hn
  | rmPassed =>
      simp only [Pc.rmDown] at hn
      split at hn <;> cases hn
  | publishLost | linkLost | removeLost | rmRetire => cases hn
  | _ => exact .inl ⟨hn, rfl⟩

/-- **The cleanup, step by step**: the removed node is off one level after the other. -/
theorem Move.cleaned {r' : Regs} {pc' : Pc} (hmv : Move maxLevel m r pc m' (.busy r' pc'))
    (ht : TopDown m.nodes) (hk : pc.Knows m.nodes r) (hb : pc.Builds maxLevel m.nodes r)
    (ha : Advance maxLevel m.nodes m'.nodes) (hn : pc.cleaning = some node) {W : Set Mem}
    (he : Era maxLevel W m') (hg : m.nodes.Gone node) (hgW : ∀ m₀ ∈ W, m₀.nodes.Gone node)
    (hw : pc.Walks W) (hbound : m.nodes.bound node = target r.key)
    (hbound' : m'.nodes.bound node = target r.key) (hc : pc.Cleans maxLevel m.nodes node) :
    pc'.Cleans maxLevel m'.nodes node := by
  have hrestart : m'.nodes.OffAbove maxLevel maxLevel node := fun l hlt hl =>
    absurd hl (Nat.not_le.mpr hlt)
  cases hmv with
  | findRef hlk =>
      refine ⟨hc, fun hle hne => ?_⟩
      exact he.off hb.1 hgW (hw _ le_rfl) hlk (hbound ▸ hk.1.2) hle hne
  | findMarked => exact hc.1
  | findNext hlk hlt =>
      refine ⟨hc.1, fun hle hne => ?_⟩
      exact he.off hb.1 hgW hw.2 hlk (hbound ▸ hlt) hle hne
  | @findDown a level pred curr o hlk hle =>
      intro l hlt hl
      rcases Nat.eq_or_lt_of_le hlt with rfl | hlt
      · refine hc.2 (hbound ▸ hle) ?_
        -- the search stops at a node that is not marked
        rintro rfl
        exact Heap.UnmarkedAt.not_marked (ht.unmarked ⟨o, hlk⟩ (Nat.zero_le _)) hg
      · exact hc.1 l hlt hl
  | @findDone a pred curr o hlk hle =>
      cases a with
      | clean node' =>
          intro l hl
          rcases Nat.eq_zero_or_pos l with rfl | hpos
          · refine hc.2 (hbound ▸ hle) ?_
            rintro rfl
            exact Heap.UnmarkedAt.not_marked ⟨o, hlk⟩ hg
          · exact hc.1 l hpos hl
      | _ => cases hn
  | spliced hlk =>
      refine ⟨Heap.OffAbove.advance hc ha hg, fun hle hne => ?_⟩
      have hlt := (hk.1.later ha.later).2
      exact he.off hb.1 hgW (hw.1 _ le_rfl) (Heap.link_setLink_self hlk) (hbound' ▸ hlt) hle hne
  | spliceLost | rmClean => exact hrestart
  | rmLen =>
      rw [Mem.nodes_decLen]
      exact hc
  | rmRetire | rmBeaten => trivial
  | _ => cases hn

/-- The acting remover cleans up. -/
theorem Move.cleans (hmv : Move maxLevel m r pc m' th) (hL : Levels maxLevel m.nodes)
    (ht : TopDown m.nodes) (hk : (Thread.busy r pc).Knows m.nodes)
    (hb : (Thread.busy r pc).Builds maxLevel m.nodes) (ha : Advance maxLevel m.nodes m'.nodes)
    (hc : (Thread.busy r pc).Cleans maxLevel m) : th.Cleans maxLevel m' := by
  cases th with
  | idle => trivial
  | busy r' pc' =>
      intro node hn
      rcases hmv.cleaning hn with ⟨hold, hkey⟩ | ⟨rfl, rfl, hgone, succ, rfl⟩
      · obtain ⟨hbound, ⟨W, he, hg, hw⟩, hcl⟩ := hc node hold
        have hgm : m.nodes.Gone node := hg m (he.window 0 (Nat.zero_le _)).now
        have hbound' : m'.nodes.bound node = target r.key := by
          obtain ⟨o, hl⟩ := hgm
          exact (ha.later.bound (Heap.lt_length_of_link hl)).trans hbound
        have hg' : ∀ m₀ ∈ insert m' W, m₀.nodes.Gone node := by
          rintro m₀ (rfl | h₀)
          · exact ha.later.gone hgm
          · exact hg m₀ h₀
        have hW := Set.subset_insert m' W
        refine ⟨hkey ▸ hbound', ⟨insert m' W, he.step ha, hg', ?_⟩, ?_⟩
        · exact hmv.walks hL ht hb he (Set.mem_insert m' W) hW hw
        · exact hmv.cleaned ht hk.2 hb.2.2 ha hold (he.step ha) hgm hg' (hw.mono hW) hbound hbound' hcl
      · -- the window opens with the mark
        refine ⟨(Regs.Carries.later hk.2 ha.later).2, ⟨{m'}, Era.start maxLevel m', ?_, trivial⟩, trivial⟩
        rintro m₀ rfl
        exact hgone

end Cleaning

/-! ## The invariant -/

/-- The invariants of every level, for runs whose steps all meet `keepsLevels`. -/
def leveled (maxLevel : ℕ) (hmax : maxLevel < maxHeight) :
    ((threads maxLevel).restrict keepsLevels).Invariant :=
  (marked maxLevel keepsLevels keepsMarks_of_keepsLevels).and (upper maxLevel hmax)

section Invariant

variable {maxLevel : ℕ} {m m' : Mem} {a a' : Thread} {c : Choice}

theorem step_advance (hs : Shape m.nodes) (ht : TopDown m.nodes) (hL : Levels maxLevel m.nodes)
    (ha : a.Knows m.nodes) (hw : a.Sweeps m.nodes) (hb : a.Builds maxLevel m.nodes)
    (hst : ((threads maxLevel).restrict keepsLevels).step m a c = some (m', a')) :
    Advance maxLevel m.nodes m'.nodes := by
  obtain ⟨hc, -⟩ := step_change hs ha hL hb hst
  obtain ⟨he, -⟩ := step_edit keepsMarks_of_keepsLevels ha ht hw hst
  obtain ⟨hwr, -⟩ := step_write hs ha (Threads.restrict_step.mp hst).2
  exact hc.advance hL ht (hwr.later hs) he.frozen

theorem step_cleans (ht : TopDown m.nodes) (hL : Levels maxLevel m.nodes) (ha : a.Knows m.nodes)
    (hb : a.Builds maxLevel m.nodes) (hadv : Advance maxLevel m.nodes m'.nodes)
    (hc : a.Cleans maxLevel m) (hst : step maxLevel m a c = some (m', a')) : a'.Cleans maxLevel m' := by
  rcases step_cases hst with ⟨op, topLevel, -, -, rfl, rfl, rfl⟩ | ⟨r, pc, -, rfl, hmv⟩
  · cases op <;> nofun
  · exact hmv.cleans hL ht ha hb hadv hc

/-- **Every remover cleans up**: when it gets to retire its node, the node is on no level. -/
def cleanup (maxLevel : ℕ) (hmax : maxLevel < maxHeight) : (leveled maxLevel hmax).Extra where
  shared _ := True
  own m th := th.Cleans maxLevel m
  apart _ _ := True
  init_shared := trivial
  init_own := trivial
  init_apart := trivial
  keep {m l c m' l'} hs ha _ hc hst := by
    obtain ⟨⟨hshape, htop⟩, hL⟩ := hs
    obtain ⟨⟨hk, hw⟩, hb⟩ := ha
    have hadv := step_advance hshape htop hL hk hw hb hst
    exact ⟨trivial, step_cleans htop hL hk hb hadv hc (Threads.restrict_step.mp hst).2⟩
  bystander {m l c m' l' b} hs ha hbo _ _ _ hcb _ _ hst := by
    obtain ⟨⟨hshape, htop⟩, hL⟩ := hs
    obtain ⟨⟨hk, hw⟩, hb⟩ := ha
    have hadv := step_advance hshape htop hL hk hw hb hst
    exact ⟨hcb.advance hadv hbo.1.1 hbo.2, trivial, trivial⟩

end Invariant

end ZeroKv.SkipList
