/-
# ZeroKv.SkipList.Hindsight — what a search may conclude about the past.

A search follows links of nodes that may be marked and spliced out meanwhile.  What it reads was
nevertheless the chain at some moment of the search: if the node it stands on has left the chain, its link
was marked before and has not changed since, so the link shows what followed the node when it left.

A `Window` is the set of memories since some moment of the run, with the two facts this argument needs.
It is stated for any level.
-/
import ZeroKv.SkipList.Contents
import ZeroKv.SkipList.Sweep

namespace ZeroKv.SkipList

/-- The node is on the chain of level `l`. -/
def Heap.OnLevel (h : Heap) (l p : ℕ) : Prop := ∃ ch, Level h l ch ∧ p ∈ ch

/-- The memories `W` of the run since some moment, up to `m`. -/
structure Window (l : ℕ) (W : Set Mem) (m : Mem) : Prop where
  now : m ∈ W
  later : ∀ m₀ ∈ W, Later m₀.nodes m.nodes
  frozen : ∀ m₀ ∈ W, ∀ p o, m₀.nodes.link p l = some ⟨o, true⟩ → m.nodes.link p l = some ⟨o, true⟩
  /-- Who is no longer on the chain was marked while it was on it. -/
  left : ∀ m₀ ∈ W, ∀ p, m₀.nodes.OnLevel l p →
    m.nodes.OnLevel l p ∨ ∃ m₁ ∈ W, m₁.nodes.OnLevel l p ∧ m₁.nodes.MarkedAt l p

/-- The node was on the chain of level `l` in the window. -/
def Met (l : ℕ) (W : Set Mem) (p : ℕ) : Prop := ∃ m₀ ∈ W, m₀.nodes.OnLevel l p

namespace Window

variable {l : ℕ} {W : Set Mem} {m m' : Mem} {p q : ℕ} {b : Bool}

theorem start (l : ℕ) (m : Mem) : Window l {m} m where
  now := rfl
  later := by
    rintro m₀ rfl
    exact .refl _
  frozen := by
    rintro m₀ rfl p o h
    exact h
  left := by
    rintro m₀ rfl p hp
    exact .inl hp

/-- One more step. -/
theorem step (hw : Window l W m) (hl : Later m.nodes m'.nodes)
    (hf : ∀ p o, m.nodes.link p l = some ⟨o, true⟩ → m'.nodes.link p l = some ⟨o, true⟩)
    (hleft : ∀ p, m.nodes.OnLevel l p → m'.nodes.OnLevel l p ∨ m.nodes.MarkedAt l p) :
    Window l (insert m' W) m' where
  now := Set.mem_insert _ _
  later := by
    rintro m₀ (rfl | h₀)
    · exact .refl _
    · exact (hw.later m₀ h₀).trans hl
  frozen := by
    rintro m₀ (rfl | h₀) p o h
    · exact h
    · exact hf p o (hw.frozen m₀ h₀ p o h)
  left := by
    rintro m₀ (rfl | h₀) p hp
    · exact .inl hp
    · rcases hw.left m₀ h₀ p hp with hp | ⟨m₁, h₁, hp⟩
      · rcases hleft p hp with hp' | hm
        · exact .inl hp'
        · exact .inr ⟨m, Set.mem_insert_of_mem _ hw.now, hp, hm⟩
      · exact .inr ⟨m₁, Set.mem_insert_of_mem _ h₁, hp⟩

/-- **Hindsight.**  The link that is read now, of a node met in the window, was between two neighbours of
the chain at some moment of the window; a mark that is read now was there too. -/
theorem next (hw : Window l W m) (hp : Met l W p) (hq : m.nodes.link p l = some ⟨some q, b⟩) :
    ∃ m₁ ∈ W, ∃ a c, Level m₁.nodes l (a ++ p :: q :: c) ∧ (b = true → m₁.nodes.MarkedAt l p) := by
  obtain ⟨m₀, h₀, hp⟩ := hp
  rcases hw.left m₀ h₀ p hp with ⟨ch, hb, hm⟩ | ⟨m₁, h₁, ⟨ch, hb, hm⟩, o, ho⟩
  · obtain ⟨a, c, rfl⟩ := hb.split hm ⟨b, hq⟩
    refine ⟨m, hw.now, a, c, hb, ?_⟩
    rintro rfl
    exact ⟨_, hq⟩
  · have hnow := hw.frozen m₁ h₁ p o ho
    rw [hq] at hnow
    cases hnow
    obtain ⟨a, c, rfl⟩ := hb.split hm ⟨true, ho⟩
    exact ⟨m₁, h₁, a, c, hb, fun _ => ⟨_, ho⟩⟩

end Window

theorem Met.mono {l : ℕ} {W W' : Set Mem} {p : ℕ} (hp : Met l W p) (hW : W ⊆ W') : Met l W' p := by
  obtain ⟨m₀, h₀, hp⟩ := hp
  exact ⟨m₀, hW h₀, hp⟩

/-! ## What a search has seen -/

/-- At some moment of the window no node held the key. -/
def Missed (W : Set Mem) (k : Bytes) : Prop := ∃ m₀ ∈ W, ∀ p, ¬ Live m₀ k p

/-- At some moment of the window the node was not marked. -/
def Alive (W : Set Mem) (p : ℕ) : Prop := ∃ m₀ ∈ W, m₀.nodes.Unmarked p

/-- A search may stop at `p` on level 0: it was on the chain, and when it is behind the key, then the key
was missing. -/
def Passed (W : Set Mem) (m : Mem) (k : Bytes) (p : ℕ) : Prop :=
  Met 0 W p ∧ (target k < m.nodes.bound p → Missed W k)

/-- What a call has seen by the time it gets to a program point. -/
def Pc.Tracks (W : Set Mem) (m : Mem) (k : Bytes) : Pc → Prop
  | .findRef _ _ pred | .getRef _ pred | .findSplice _ _ pred _ _ => Met 0 W pred
  | .findGet _ level pred curr | .getGet level pred curr =>
      Met 0 W pred ∧ (level = 0 → Passed W m k curr)
  | .insSwap node | .getMark node | .getVal node | .rmGet node _ | .rmMark node _ _ | .rmGet0 node
  | .rmCas0 node _ | .rmChk node false => Alive W node
  | _ => True

def Thread.Tracks (W : Set Mem) (m : Mem) : Thread → Prop
  | .idle => True
  | .busy r pc => pc.Tracks W m r.key

section Track

variable {W W' : Set Mem} {m m' : Mem} {k : Bytes} {p q : ℕ} {b : Bool} {r : Regs} {pc : Pc}
  {th : Thread} {maxLevel : ℕ}

theorem Missed.mono (hk : Missed W k) (hW : W ⊆ W') : Missed W' k := by
  obtain ⟨m₀, h₀, hk⟩ := hk
  exact ⟨m₀, hW h₀, hk⟩

theorem Alive.mono (hp : Alive W p) (hW : W ⊆ W') : Alive W' p := by
  obtain ⟨m₀, h₀, hp⟩ := hp
  exact ⟨m₀, hW h₀, hp⟩

theorem Passed.mono (hp : Passed W m k p) (hW : W ⊆ W') (hb : m'.nodes.bound p = m.nodes.bound p) :
    Passed W' m' k p := by
  refine ⟨hp.1.mono hW, fun hlt => (hp.2 ?_).mono hW⟩
  rwa [← hb]

/-- A node that is not marked is on the chain now. -/
theorem Shape.onLevel {h : Heap} (hs : Shape h) (hp : h.Published p) (hu : h.Unmarked p) :
    h.OnLevel 0 p := by
  obtain ⟨ch, hb⟩ := hs.chain
  exact ⟨ch, hb, hb.complete p hp hu⟩

theorem Shape.met_head (hs : Shape m.nodes) (hm : m ∈ W) : Met 0 W head := by
  obtain ⟨ch, hb⟩ := hs.chain
  exact ⟨m, hm, ch, hb, hb.head_mem⟩

/-- A key strictly between two neighbours is missing. -/
theorem Level.missing {a c : List ℕ} (hb : Level m.nodes 0 (a ++ p :: q :: c))
    (hp : m.nodes.bound p < target k) (hq : target k < m.nodes.bound q) (x : ℕ) : ¬ Live m k x := by
  rintro ⟨hpub, hu, hx⟩
  have hle := hb.not_between (hb.complete x hpub hu) (hx ▸ hp)
  rw [hx] at hle
  exact absurd hle (not_le.mpr hq)

/-- From a node below the key to the next one. -/
theorem Window.passed_next (hw : Window 0 W m) (hp : Met 0 W p) (hk : r.Below m.nodes p)
    (hq : m.nodes.link p 0 = some ⟨some q, b⟩) : Passed W m r.key q := by
  obtain ⟨m₁, h₁, a, c, hb, -⟩ := hw.next hp hq
  have hl := hw.later m₁ h₁
  have hmem : ∀ x ∈ a ++ p :: q :: c, m.nodes.bound x = m₁.nodes.bound x :=
    fun x hx => hl.bound (hb.published x hx).lt_length
  refine ⟨⟨m₁, h₁, _, hb, by simp⟩, fun hlt => ⟨m₁, h₁, hb.missing ?_ ?_⟩⟩
  · rw [← hmem p (by simp)]
    exact hk.2
  · rw [← hmem q (by simp)]
    exact hlt

/-- From a marked node to the next one. -/
theorem Window.passed_marked (hw : Window 0 W m) (hp : Passed W m r.key p)
    (hq : m.nodes.link p 0 = some ⟨some q, true⟩) : Passed W m r.key q := by
  obtain ⟨m₁, h₁, a, c, hb, hmark⟩ := hw.next hp.1 hq
  have hl := hw.later m₁ h₁
  have hmem : ∀ x ∈ a ++ p :: q :: c, m.nodes.bound x = m₁.nodes.bound x :=
    fun x hx => hl.bound (hb.published x hx).lt_length
  refine ⟨⟨m₁, h₁, _, hb, by simp⟩, fun hlt => ?_⟩
  rcases lt_trichotomy (m.nodes.bound p) (target r.key) with hpk | hpk | hpk
  · refine ⟨m₁, h₁, hb.missing ?_ ?_⟩
    · rwa [← hmem p (by simp)]
    · rwa [← hmem q (by simp)]
  · -- the only node with the key is marked
    refine ⟨m₁, h₁, ?_⟩
    rintro x ⟨hpub, hu, hx⟩
    have hxp : x = p := by
      refine hb.bound_inj (hb.complete x hpub hu) (by simp) (hx.trans ?_)
      rw [← hmem p (by simp), hpk]
    subst hxp
    exact hu.not_marked (hmark rfl)
  · exact hp.2 hpk

/-- What a call has seen stays seen. -/
theorem Thread.Tracks.mono (ht : th.Tracks W m) (hk : th.Knows m.nodes) (hW : W ⊆ W')
    (hl : Later m.nodes m'.nodes) : th.Tracks W' m' := by
  cases th with
  | idle => trivial
  | busy r pc =>
      obtain ⟨-, hk⟩ := hk
      cases pc with
      | findRef a level pred | getRef level pred | findSplice a level pred curr succ =>
          exact Met.mono ht hW
      | findGet a level pred curr =>
          exact ⟨ht.1.mono hW, fun h0 => (ht.2 h0).mono hW (hl.bound hk.2.1.lt_length)⟩
      | getGet level pred curr =>
          exact ⟨ht.1.mono hW, fun h0 => (ht.2 h0).mono hW (hl.bound hk.2.lt_length)⟩
      | insSwap node | getMark node | getVal node | rmGet node level | rmMark node level succ
      | rmGet0 node | rmCas0 node succ => exact Alive.mono ht hW
      | rmChk node iMarked =>
          cases iMarked with
          | true => trivial
          | false => exact Alive.mono ht hW
      | _ => trivial

theorem tracks_rmDown {node level : ℕ} (hn : Alive W node) : (Pc.rmDown node level).Tracks W m k := by
  rw [Pc.rmDown]
  split
  · exact hn
  · exact hn

theorem tracks_insUp {node level : ℕ} : (Pc.insUp r.topLevel node level).Tracks W m k := by
  rw [Pc.insUp]
  split <;> trivial

theorem tracks_found {curr : ℕ} {a : After} (hc : Alive W curr) : (Pc.found m r curr a).Tracks W m k := by
  cases a with
  | insert =>
      simp only [Pc.found]
      split
      · exact hc
      · trivial
  | relink node level | clean node => trivial
  | remove =>
      simp only [Pc.found]
      split
      · exact tracks_rmDown hc
      · trivial

/-- **What a step adds to what its call has seen.** -/
theorem Move.tracks (hmv : Move maxLevel m r pc m' th) (hs : Shape m.nodes) (htd : TopDown m.nodes)
    (hk : (Thread.busy r pc).Knows m.nodes) (hw : Window 0 W m) (hw' : Window 0 (insert m' W) m')
    (ht : pc.Tracks W m r.key) : th.Tracks (insert m' W) m' := by
  have hl := (hmv.write hs hk).later hs
  have hs' := (hmv.write hs hk).shape hs
  have hmono := (show (Thread.busy r pc).Tracks W m from ht).mono hk (Set.subset_insert m' W) hl
  obtain ⟨-, hk⟩ := hk
  -- a node that is not marked at the level of the search is on the bottom chain now
  have hstep : ∀ {level curr o}, m.nodes.Published curr → m.nodes.link curr level = some ⟨o, false⟩ →
      Met 0 W curr := fun hp hlk =>
    ⟨m, hw.now, hs.onLevel hp (htd.unmarked ⟨_, hlk⟩ (Nat.zero_le _))⟩
  cases hmv with
  | findRef hlk =>
      refine ⟨hmono, ?_⟩
      rintro rfl
      exact hw'.passed_next hmono hk.1 hlk
  | findMarked => exact hmono.1
  | findNext hlk hlt =>
      have hcurr := (hstep hk.2.1 hlk).mono (Set.subset_insert m W)
      refine ⟨hcurr, ?_⟩
      rintro rfl
      exact hw'.passed_next hcurr ⟨hk.2.1, hlt⟩ hlk
  | findDown => exact hmono.1
  | findDone hlk => exact tracks_found ⟨m, hw'.now, _, hlk⟩
  | spliced hlk =>
      refine ⟨hmono, ?_⟩
      rintro rfl
      exact hw'.passed_next hmono (hk.1.later hl) (Heap.link_setLink_self hlk)
  | spliceLost | publishLost | linkLost | rmClean => exact hs'.met_head hw'.now
  | published | linked => exact tracks_insUp
  | getRef hlk =>
      refine ⟨hmono, ?_⟩
      rintro rfl
      exact hw'.passed_next hmono hk hlk
  | getMarked hlk =>
      refine ⟨hmono.1, ?_⟩
      rintro rfl
      exact hw'.passed_marked (hmono.2 rfl) hlk
  | getNext hlk hlt =>
      have hcurr := (hstep hk.2 hlk).mono (Set.subset_insert m W)
      refine ⟨hcurr, ?_⟩
      rintro rfl
      exact hw'.passed_next hcurr ⟨hk.2, hlt⟩ hlk
  | getDown => exact hmono.1
  | getHit hlk => exact ⟨m, hw'.now, _, hlk⟩
  | rmPassed => exact tracks_rmDown hmono
  | getLive | rmGet | rmMarked | rmMarkLost | rmGet0 | removeLost | rmRetry => exact hmono
  | _ => trivial

end Track

end ZeroKv.SkipList
