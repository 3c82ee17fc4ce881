/-
# ZeroKv.SkipList.Linear — the concurrent skiplist is linearizable to a finite map, if marks are kept.

The order of the calls is built along the run.  Effects are appended; answers are put in where they were
right.  `Story` is what has to be remembered for it: the order so far, for every call the memories since it
was made, and for every deleted node the remove that deleted it.

The condition is that no store of an insert overwrites a mark (`keepsMarks`).  Without it the skiplist is
not linearizable: the store brings a deleted node back to life on an upper level, and a search that comes
down from there misses keys inserted since.
-/
import ZeroKv.Lib.Timeline
import ZeroKv.SkipList.Points

namespace ZeroKv.SkipList

/-- What is remembered of a run. -/
structure Story where
  lin : List (Entry Op Ret)
  /-- The memories since call `j` was made. -/
  past : ℕ → Set Mem
  /-- The call that marked node `p`. -/
  marker : ℕ → ℕ

/-- The step from `m` to `m'`, with the order and the markers after it. -/
def Story.next (G : Story) (m m' : Mem) (lin : List (Entry Op Ret)) (marker : ℕ → ℕ) : Story where
  lin := lin
  past j := if j < m.calls then insert m' (G.past j) else {m'}
  marker := marker

/-- The entry of the remove that deleted node `p` with key `k`. -/
def Story.mark (G : Story) (p : ℕ) (k : Bytes) : Entry Op Ret := ⟨G.marker p, .remove k, .flag true⟩

/-- Just before its mark, a deleted node had the value it has now.  The calls that have seen it alive were
made before the mark. -/
def Marked (m : Mem) (G : Story) (p : ℕ) : Prop :=
  ∃ k v μ B, m.nodes.bound p = target k ∧ Has m p v ∧ μ.lookup k = some v ∧
    mapSpec.CutAt G.lin (G.mark p k) B μ ∧ ∀ j, Alive (G.past j) p → returnedBefore m.hist j ⊆ B

/-- The memory at the end of a story. -/
structure Told (m : Mem) (G : Story) : Prop where
  explains : Linearizes mapSpec m.hist G.lin
  now : ∃ μ, mapSpec.Replay mapSpec.init G.lin μ ∧ Contents m μ
  windows : ∀ j, Window 0 (G.past j) m
  /-- What the skiplist stood for since a call was made, the order has a cut for. -/
  cuts : ∀ j, ∀ m₀ ∈ G.past j, ∃ μ, mapSpec.Cut G.lin (returnedBefore m.hist j) μ ∧ Contents m₀ μ
  marks : ∀ p, m.nodes.Gone p → Marked m G p
  markers : ∀ p q, m.nodes.Gone p → m.nodes.Gone q → G.marker p = G.marker q → p = q

/-- A call in progress and the story. -/
structure InStory (m : Mem) (G : Story) (r : Regs) (pc : Pc) : Prop where
  tracks : pc.Tracks (G.past r.id) m r.key
  /-- A call that has taken effect is in the order, with what it will return. -/
  told : ∀ v, pc.decided = some v → ⟨r.id, r.op, v⟩ ∈ G.lin
  untold : pc.decided = none → r.id ∉ G.lin.map Entry.id

def Thread.InStory (m : Mem) (G : Story) : Thread → Prop
  | .idle => True
  | .busy r pc => SkipList.InStory m G r pc

section Story

variable {m m' : Mem} {G : Story} {lin : List (Entry Op Ret)} {marker : ℕ → ℕ} {p j : ℕ} {r : Regs}
  {pc : Pc} {th : Thread} {v : Ret} {μ : Dict}

theorem Story.subset_next (hj : j < m.calls) : G.past j ⊆ (G.next m m' lin marker).past j := by
  simp [Story.next, hj]

theorem Story.past_next (hj : j < m.calls) :
    (G.next m m' lin marker).past j = insert m' (G.past j) := by
  simp [Story.next, hj]

/-- All calls that have returned are in the order. -/
theorem Told.returned (hT : Told m G) : ∀ i ∈ returnedBefore m.hist j, i ∈ G.lin.map Entry.id := by
  intro i hi
  obtain ⟨r, hr⟩ := res_of_returnedBefore hi
  obtain ⟨e, he, rfl, -⟩ := hT.explains.completed i r hr
  exact List.mem_map_of_mem he

/-- A deleted node has not been seen alive by a call made after the step. -/
theorem alive_of_next (hg : m'.nodes.Gone p) (ha : Alive ((G.next m m' lin marker).past j) p) :
    j < m.calls ∧ Alive (G.past j) p := by
  obtain ⟨m₀, h₀, hu⟩ := ha
  by_cases hj : j < m.calls
  · rw [Story.past_next hj] at h₀
    rcases h₀ with rfl | h₀
    · exact absurd hg hu.not_marked
    · exact ⟨hj, m₀, h₀, hu⟩
  · simp only [Story.next, if_neg hj, Set.mem_singleton_iff] at h₀
    subst h₀
    exact absurd hg hu.not_marked

/-- A step keeps what is known about a node that was deleted before. -/
theorem Marked.next (hp : Marked m G p) (hg : m.nodes.Gone p) (hl : Later m.nodes m'.nodes)
    (hlt : p < m.nodes.length) (hhas : ∀ v, Has m p v → Has m' p v)
    (hcut : ∀ k B μ, mapSpec.CutAt G.lin (G.mark p k) B μ → mapSpec.CutAt lin (G.mark p k) B μ)
    (hmk : marker p = G.marker p)
    (hret : ∀ j < m.calls, returnedBefore m'.hist j = returnedBefore m.hist j) :
    Marked m' (G.next m m' lin marker) p := by
  obtain ⟨k, v, μ, B, hk, hv, hμ, hc, hB⟩ := hp
  have he : (G.next m m' lin marker).mark p k = G.mark p k := by
    simp only [Story.mark, Story.next, hmk]
  refine ⟨k, v, μ, B, (hl.bound hlt).trans hk, hhas v hv, hμ, he ▸ hcut k B μ hc, fun j ha => ?_⟩
  obtain ⟨hj, ha⟩ := alive_of_next (hl.gone hg) ha
  rw [hret j hj]
  exact hB j ha

/-- **One step of a story.** -/
theorem Told.step (hT : Told m G) (hl : Later m.nodes m'.nodes)
    (hleft : ∀ p, m.nodes.OnLevel 0 p → m'.nodes.OnLevel 0 p ∨ m.nodes.Gone p)
    (hex : Linearizes mapSpec m'.hist lin)
    (hnow : ∃ μ, mapSpec.Replay mapSpec.init lin μ ∧ Contents m' μ)
    (hcuts : ∀ B μ, mapSpec.Cut G.lin B μ → mapSpec.Cut lin B μ)
    (hret : ∀ j < m.calls, returnedBefore m'.hist j = returnedBefore m.hist j)
    (hmarks : ∀ p, m'.nodes.Gone p → Marked m' (G.next m m' lin marker) p)
    (hmarkers : ∀ p q, m'.nodes.Gone p → m'.nodes.Gone q → marker p = marker q → p = q) :
    Told m' (G.next m m' lin marker) where
  explains := hex
  now := hnow
  windows j := by
    by_cases hj : j < m.calls
    · rw [Story.past_next hj]
      exact (hT.windows j).step hl (fun p o => hl.frozen p o) hleft
    · simp only [Story.next, if_neg hj]
      exact .start 0 m'
  cuts j m₀ h₀ := by
    -- the newest memory belongs to the end of the order
    have hlast : ∃ μ, mapSpec.Cut lin (returnedBefore m'.hist j) μ ∧ Contents m' μ := by
      obtain ⟨μ, hμ, hc⟩ := hnow
      refine ⟨μ, .last hμ fun i hi => ?_, hc⟩
      obtain ⟨r, hr⟩ := res_of_returnedBefore hi
      obtain ⟨e, he, rfl, -⟩ := hex.completed i r hr
      exact List.mem_map_of_mem he
    by_cases hj : j < m.calls
    · rw [Story.past_next hj] at h₀
      rcases h₀ with rfl | h₀
      · exact hlast
      · obtain ⟨μ, hμ, hc⟩ := hT.cuts j m₀ h₀
        rw [hret j hj]
        exact ⟨μ, hcuts _ μ hμ, hc⟩
    · simp only [Story.next, if_neg hj, Set.mem_singleton_iff] at h₀
      subst h₀
      exact hlast
  marks := hmarks
  markers := hmarkers

/-- What a bystander has told stays told. -/
theorem InStory.bystander {i : ℕ} (hb : InStory m G r pc) (hc : InCall m r pc)
    (hk : (Thread.busy r pc).Knows m.nodes) (hl : Later m.nodes m'.nodes) (hi : r.id ≠ i)
    (hsub : ∀ e ∈ G.lin, e ∈ lin) (hnew : ∀ e ∈ lin, e ∈ G.lin ∨ e.id = i) :
    InStory m' (G.next m m' lin marker) r pc where
  tracks := (show (Thread.busy r pc).Tracks _ m from hb.tracks).mono hk
    (Story.subset_next hc.id_lt) hl
  told v hv := hsub _ (hb.told v hv)
  untold hd hin := by
    obtain ⟨e, he, hid⟩ := List.mem_map.mp hin
    rcases hnew e he with he | he
    · exact hb.untold hd (hid ▸ List.mem_map_of_mem he)
    · exact hi (hid.symm.trans he)

theorem lt_length_of_gone {h : Heap} (hg : h.Gone p) : p < h.length := by
  obtain ⟨o, hl⟩ := hg
  exact Heap.lt_length_of_link hl

/-! ## The points of a story -/

/-- A step that does not change the map, a call and a return. -/
theorem Told.quiet (hT : Told m G) (hl : Later m.nodes m'.nodes)
    (hleft : ∀ p, m.nodes.OnLevel 0 p → m'.nodes.OnLevel 0 p ∨ m.nodes.Gone p) (hs : Same m m')
    (hval : Valued m) (hex : Linearizes mapSpec m'.hist G.lin)
    (hret : ∀ j < m.calls, returnedBefore m'.hist j = returnedBefore m.hist j) :
    Told m' (G.next m m' G.lin G.marker) := by
  obtain ⟨μ, hμ, hc⟩ := hT.now
  refine hT.step hl hleft hex ⟨μ, hμ, hs.contents hval hc⟩ (fun _ _ => id) hret (fun p hg => ?_)
    fun p q hp hq => hT.markers p q ((hs.gone p).mp hp) ((hs.gone q).mp hq)
  have hg := (hs.gone p).mp hg
  exact (hT.marks p hg).next hg hl (lt_length_of_gone hg) (hs.has p) (fun _ _ _ => id) rfl hret

/-- A call takes effect at the end of the order. -/
theorem Told.append (hT : Told m G) (hc : InCall m r pc) (hnew : r.id ∉ G.lin.map Entry.id)
    (hhist : m'.hist = m.hist)
    (hrun : ∀ μ, Contents m μ → (mapSpec.run μ r.op).1 = v ∧ Contents m' (mapSpec.run μ r.op).2) :
    Linearizes mapSpec m'.hist (G.lin ++ [⟨r.id, r.op, v⟩]) ∧
      (∃ μ, mapSpec.Replay mapSpec.init (G.lin ++ [⟨r.id, r.op, v⟩]) μ ∧ Contents m' μ) ∧
      (∀ B μ, mapSpec.Cut G.lin B μ → mapSpec.Cut (G.lin ++ [⟨r.id, r.op, v⟩]) B μ) ∧
      ∀ e B μ, mapSpec.CutAt G.lin e B μ → mapSpec.CutAt (G.lin ++ [⟨r.id, r.op, v⟩]) e B μ := by
  obtain ⟨μ, hμ, hcon⟩ := hT.now
  obtain ⟨hv, hcon'⟩ := hrun μ hcon
  refine ⟨?_, ⟨_, hμ.concat hv, hcon'⟩, fun B ν hcut => ?_, fun e B ν hcut => ?_⟩
  · rw [hhist]
    exact hT.explains.point hc.made hnew hμ hv
  · rw [← List.append_nil G.lin] at hcut
    exact hcut.insert Spec.rejoins_nil
  · rw [← List.append_nil G.lin] at hcut
    exact hcut.insert Spec.rejoins_nil nofun

theorem Told.effect (hT : Told m G) (hc : InCall m r pc) (hnew : r.id ∉ G.lin.map Entry.id)
    (hl : Later m.nodes m'.nodes)
    (hleft : ∀ p, m.nodes.OnLevel 0 p → m'.nodes.OnLevel 0 p ∨ m.nodes.Gone p)
    (hhist : m'.hist = m.hist)
    (hrun : ∀ μ, Contents m μ → (mapSpec.run μ r.op).1 = v ∧ Contents m' (mapSpec.run μ r.op).2)
    (hgone : ∀ p, m'.nodes.Gone p ↔ m.nodes.Gone p)
    (hhas : ∀ p w, m.nodes.Gone p → Has m p w → Has m' p w) :
    Told m' (G.next m m' (G.lin ++ [⟨r.id, r.op, v⟩]) G.marker) := by
  obtain ⟨hex, hnow, hcuts, hcutAt⟩ := hT.append hc hnew hhist hrun
  have hret : ∀ j < m.calls, returnedBefore m'.hist j = returnedBefore m.hist j :=
    fun j _ => by rw [hhist]
  refine hT.step hl hleft hex hnow hcuts hret (fun p hg => ?_)
    fun p q hp hq => hT.markers p q ((hgone p).mp hp) ((hgone q).mp hq)
  have hg := (hgone p).mp hg
  exact (hT.marks p hg).next hg hl (lt_length_of_gone hg) (fun w => hhas p w hg)
    (fun k => hcutAt _) rfl hret

/-- A remove takes effect, and is the marker of its node from now on. -/
theorem Told.remove {node : ℕ} {w : Bytes} (hT : Told m G) (hc : InCall m r pc)
    (hnew : r.id ∉ G.lin.map Entry.id) (hl : Later m.nodes m'.nodes)
    (hleft : ∀ p, m.nodes.OnLevel 0 p → m'.nodes.OnLevel 0 p ∨ m.nodes.Gone p)
    (hhist : m'.hist = m.hist) (hop : r.op = .remove r.key) (hlive : Live m r.key node)
    (hw : Has m node w) (hrun : ∀ μ, Contents m μ → Contents m' (μ.erase r.key))
    (hgone : ∀ p, m'.nodes.Gone p ↔ p = node ∨ m.nodes.Gone p)
    (hhas : ∀ p w, Has m p w → Has m' p w) :
    Told m' (G.next m m' (G.lin ++ [⟨r.id, r.op, .flag true⟩])
      (Function.update G.marker node r.id)) := by
  have hrun' : ∀ μ, Contents m μ →
      (mapSpec.run μ r.op).1 = .flag true ∧ Contents m' (mapSpec.run μ r.op).2 := by
    intro μ hμ
    rw [hop]
    exact ⟨by simp [mapSpec, hμ.lookup hlive hw], hrun μ hμ⟩
  obtain ⟨hex, hnow, hcuts, hcutAt⟩ := hT.append hc hnew hhist hrun'
  have hret : ∀ j < m.calls, returnedBefore m'.hist j = returnedBefore m.hist j :=
    fun j _ => by rw [hhist]
  have hne : ∀ p, m.nodes.Gone p → p ≠ node := by
    rintro p hg rfl
    exact hlive.2.1.not_marked hg
  -- the marker is not one of the calls in the order so far
  have hfresh : ∀ p, m.nodes.Gone p → G.marker p ≠ r.id := by
    intro p hg he
    obtain ⟨k, _, _, _, -, -, -, hcut, -⟩ := hT.marks p hg
    exact hnew (he ▸ List.mem_map_of_mem hcut.mem)
  refine hT.step hl hleft hex hnow hcuts hret (fun p hg => ?_) fun p q hp hq he => ?_
  · by_cases hpn : p = node
    · subst hpn
      obtain ⟨μ, hμ, hcon⟩ := hT.now
      refine ⟨r.key, w, μ, { i | i ∈ G.lin.map Entry.id }, ?_, hhas p w hw, hcon.lookup hlive hw, ?_, ?_⟩
      · exact (hl.bound hlive.1.lt_length).trans hlive.2.2
      · refine ⟨G.lin, [], ?_, hμ, fun i hi => hi⟩
        simp [Story.next, Story.mark, hop]
      · intro j _ i hi
        rw [hhist] at hi
        exact hT.returned i hi
    · have hg := ((hgone p).mp hg).resolve_left hpn
      exact (hT.marks p hg).next hg hl (lt_length_of_gone hg) (hhas p) (fun k => hcutAt _)
        (Function.update_of_ne hpn _ _) hret
  · by_cases hpn : p = node <;> by_cases hqn : q = node
    · exact hpn.trans hqn.symm
    · have hq := ((hgone q).mp hq).resolve_left hqn
      rw [hpn, Function.update_self, Function.update_of_ne hqn] at he
      exact absurd he.symm (hfresh q hq)
    · have hp := ((hgone p).mp hp).resolve_left hpn
      rw [hqn, Function.update_self, Function.update_of_ne hpn] at he
      exact absurd he (hfresh p hp)
    · rw [Function.update_of_ne hpn, Function.update_of_ne hqn] at he
      exact hT.markers p q (((hgone p).mp hp).resolve_left hpn) (((hgone q).mp hq).resolve_left hqn) he

/-- An entry of the order after `x` was put in. -/
theorem mem_insert_iff {α : Type} {l₁ l₂ : List α} {x e : α} :
    e ∈ l₁ ++ x :: l₂ ↔ e = x ∨ e ∈ l₁ ++ l₂ := by
  simp only [List.mem_append, List.mem_cons]
  tauto

/-- A remove does not notice an update just before it. -/
theorem remove_wipes {k bytes w : Bytes} (hk : μ.lookup k = some w) :
    mapSpec.run (mapSpec.run μ (.insert k bytes)).2 (.remove k) = mapSpec.run μ (.remove k) := by
  have he : (μ.insert k bytes).erase k = μ.erase k := by
    refine Finmap.ext_lookup fun x => ?_
    by_cases hx : x = k
    · rw [hx, Finmap.lookup_erase, Finmap.lookup_erase]
    · rw [Finmap.lookup_erase_ne hx, Finmap.lookup_erase_ne hx, Finmap.lookup_insert_of_ne _ hx]
  simp [mapSpec, hk, he]

/-- An update that comes too late goes just before the mark. -/
theorem Told.late {node : ℕ} (hT : Told m G) (hc : InCall m r pc) (hnew : r.id ∉ G.lin.map Entry.id)
    (hl : Later m.nodes m'.nodes)
    (hleft : ∀ p, m.nodes.OnLevel 0 p → m'.nodes.OnLevel 0 p ∨ m.nodes.Gone p)
    (hhist : m'.hist = m.hist) (hop : r.op = .insert r.key r.val) (ha : Alive (G.past r.id) node)
    (hg : m.nodes.Gone node) (hk : m.nodes.bound node = target r.key)
    (hlive : ∀ μ, Contents m μ → Contents m' μ) (hgone : ∀ p, m'.nodes.Gone p ↔ m.nodes.Gone p)
    (hval : Has m' node r.val) (hhas : ∀ p w, p ≠ node → Has m p w → Has m' p w) :
    ∃ lin, (∀ e, e ∈ lin ↔ e = ⟨r.id, r.op, .flag false⟩ ∨ e ∈ G.lin) ∧
      Told m' (G.next m m' lin G.marker) := by
  obtain ⟨k, w, μ, B, hk', -, hμ, ⟨l₁, l₂, hlin, hrep, hi⟩, hB⟩ := hT.marks node hg
  obtain rfl : k = r.key := target_inj.mp (hk'.symm.trans hk)
  obtain ⟨x, hx⟩ : ∃ x : Entry Op Ret, x = ⟨r.id, r.op, .flag false⟩ := ⟨_, rfl⟩
  have hrun : (mapSpec.run μ x.op).1 = x.ret := by
    rw [hx, hop]
    simp [mapSpec, hμ]
  -- the mark wipes out the update, so putting it in front changes no later state
  have hwipe : mapSpec.run (mapSpec.run μ x.op).2 (G.mark node r.key).op =
      mapSpec.run μ (G.mark node r.key).op := by
    rw [hx, hop]
    exact remove_wipes hμ
  have hj : mapSpec.Rejoins l₁ x (G.mark node r.key :: l₂) := Spec.rejoins_of_wiped hrep hrun hwipe
  have hret : ∀ j < m.calls, returnedBefore m'.hist j = returnedBefore m.hist j :=
    fun j _ => by rw [hhist]
  -- the linearization with the update inserted just before the mark
  refine ⟨l₁ ++ x :: G.mark node r.key :: l₂, fun e => ?_, ?_⟩
  · rw [mem_insert_iff, hx, hlin]
  · obtain ⟨ν, hν, hcon⟩ := hT.now
    rw [hlin] at hν
    have hend := hj _ (List.cons_ne_nil _ _) List.prefix_rfl ν hν
    refine hT.step hl hleft ?_ ⟨ν, hend, hlive ν hcon⟩ ?_ hret (fun p hgp => ?_)
      fun p q hp hq => hT.markers p q ((hgone p).mp hp) ((hgone q).mp hq)
    · rw [hhist]
      have hex := hT.explains
      rw [hlin] at hex hnew
      refine hex.insert ?_ ?_ ?_ hend
      · rw [hx]
        exact hc.made
      · rwa [hx]
      · rw [hx]
        exact fun i hin => hi i (hB r.id ha hin)
    · intro B' ν' hcut
      rw [hlin] at hcut
      exact hcut.insert hj
    · have hgp := (hgone p).mp hgp
      by_cases hpn : p = node
      · -- the new value of the node is the one just before its mark
        subst hpn
        refine ⟨r.key, r.val, (mapSpec.run μ x.op).2, B, (hl.bound (lt_length_of_gone hg)).trans hk, hval,
          ?_, ⟨l₁ ++ [x], l₂, ?_, hrep.concat hrun, fun i hin => ?_⟩, fun j haj => ?_⟩
        · rw [hx, hop]
          exact Finmap.lookup_insert μ
        · simp [Story.next, Story.mark]
        · rw [List.map_append]
          exact List.mem_append_left _ (hi i hin)
        · obtain ⟨-, haj⟩ := alive_of_next ((hgone p).mpr hgp) haj
          rw [hhist]
          exact hB j haj
      · refine (hT.marks p hgp).next hgp hl (lt_length_of_gone hgp) (fun w => hhas p w hpn)
          (fun k B' ν' hcut => ?_) rfl hret
        rw [hlin] at hcut
        refine hcut.insert hj fun he => hpn ?_
        have hid := congrArg Entry.id (Option.some.inj he)
        exact (hT.markers node p hg hgp hid).symm

/-- Where the answer of a call is right. -/
theorem Told.cut_of_answer (hT : Told m G) (htd : TopDown m.nodes) (ha : Answer (G.past r.id) m r v) :
    ∃ μ, mapSpec.Cut G.lin (returnedBefore m.hist r.id) μ ∧ mapSpec.run μ r.op = (v, μ) := by
  cases ha with
  | miss hread hk =>
      obtain ⟨m₀, h₀, hnone⟩ := hk
      obtain ⟨μ, hcut, hcon⟩ := hT.cuts r.id m₀ h₀
      exact ⟨μ, hcut, hread μ (hcon.lookup_none hnone)⟩
  | @gone v node hread halive hk hg =>
      -- right after the mark of the node
      obtain ⟨k, w, μ, B, hk', -, hμ, hcut, hB⟩ := hT.marks node hg
      obtain rfl : k = r.key := target_inj.mp (hk'.symm.trans hk)
      have hafter := hcut.after (show (mapSpec.run μ (.remove r.key)).1 = .flag true by simp [mapSpec, hμ])
      exact ⟨_, hafter.mono (hB r.id halive), hread _ (Finmap.lookup_erase _ _)⟩
  | @hit node w hop halive hp hk hv =>
      have hread : ∀ μ : Dict, μ.lookup r.key = some w →
          mapSpec.run μ r.op = (.value (some w), μ) := by
        intro μ hμ
        rw [hop]
        simp [mapSpec, hμ]
      obtain ⟨lk, hlk⟩ := Option.isSome_iff_exists.mp
        ((htd.tall node hp.lt_length 0).mpr (Nat.zero_le _))
      rcases Heap.marked_or_unmarked hlk with hg | hu
      · -- right before the mark of the node
        obtain ⟨k, w', μ, B, hk', hw', hμ, hcut, hB⟩ := hT.marks node hg
        obtain rfl : k = r.key := target_inj.mp (hk'.symm.trans hk)
        obtain rfl : w = w' := hv.unique hw'
        exact ⟨μ, hcut.cut.mono (hB r.id halive), hread μ hμ⟩
      · obtain ⟨μ, hμ, hcon⟩ := hT.now
        exact ⟨μ, .last hμ hT.returned, hread μ (hcon.lookup ⟨hp, hu, hk⟩ hv)⟩

/-- A call that leaves the map alone goes where its answer is right. -/
theorem Told.answer (hT : Told m G) (htd : TopDown m.nodes) (hc : InCall m r pc)
    (hnew : r.id ∉ G.lin.map Entry.id) (ha : Answer (G.past r.id) m r v) :
    ∃ lin, (∀ e, e ∈ lin ↔ e = ⟨r.id, r.op, v⟩ ∨ e ∈ G.lin) ∧
      Told m (G.next m m lin G.marker) := by
  obtain ⟨μ, ⟨l₁, l₂, hlin, hrep, hi⟩, hrun⟩ := hT.cut_of_answer htd ha
  obtain ⟨x, hx⟩ : ∃ x : Entry Op Ret, x = ⟨r.id, r.op, v⟩ := ⟨_, rfl⟩
  have hrun : mapSpec.run μ x.op = (x.ret, μ) := by
    rw [hx]
    exact hrun
  refine ⟨l₁ ++ x :: l₂, fun e => ?_, ?_⟩
  · rw [mem_insert_iff, hx, hlin]
  · obtain ⟨ν, hν, hcon⟩ := hT.now
    rw [hlin] at hν
    have hend : mapSpec.Replay mapSpec.init (l₁ ++ x :: l₂) ν := hν.insert_read hrep hrun
    refine hT.step (.refl _) (fun _ => .inl) ?_ ⟨ν, hend, hcon⟩ ?_ (fun _ _ => rfl) (fun p hg => ?_)
      hT.markers
    · have hex := hT.explains
      rw [hlin] at hex hnew
      refine hex.insert ?_ ?_ ?_ hend
      · rw [hx]
        exact hc.made
      · rwa [hx]
      · rwa [hx]
    · intro B ν' hcut
      rw [hlin] at hcut
      exact hcut.insert (Spec.rejoins_of_read hrep hrun)
    · refine (hT.marks p hg).next hg (.refl _) (lt_length_of_gone hg) (fun _ => id) (fun k B ν' hcut => ?_)
        rfl fun _ _ => rfl
      rw [hlin] at hcut
      exact hcut.insert_read hrep hrun

/-- **Every step continues the story.** -/
theorem Point.tell (hpt : Point (G.past r.id) m r pc m' th) (hT : Told m G) (hin : InStory m G r pc)
    (hc : InCall m r pc) (htd : TopDown m.nodes) (hval : Valued m) (hl : Later m.nodes m'.nodes)
    (hleft : ∀ p, m.nodes.OnLevel 0 p → m'.nodes.OnLevel 0 p ∨ m.nodes.Gone p)
    (hhist : th ≠ .idle → m'.hist = m.hist) :
    ∃ lin marker, Told m' (G.next m m' lin marker) ∧ (∀ e ∈ G.lin, e ∈ lin) ∧
      (∀ e ∈ lin, e ∈ G.lin ∨ e.id = r.id) ∧
      ∀ r' pc', th = .busy r' pc' → (∀ v, pc'.decided = some v → ⟨r'.id, r'.op, v⟩ ∈ lin) ∧
        (pc'.decided = none → r'.id ∉ lin.map Entry.id) := by
  -- the call is new in the order and its answer is known
  have hpoint : ∀ (lin : List (Entry Op Ret)) (marker : ℕ → ℕ) (r' : Regs) (pc' : Pc) (v : Ret),
      th = .busy r' pc' → r'.id = r.id → r'.op = r.op → pc'.decided = some v →
      (∀ e, e ∈ lin ↔ e = ⟨r.id, r.op, v⟩ ∨ e ∈ G.lin) → Told m' (G.next m m' lin marker) →
      ∃ lin marker, Told m' (G.next m m' lin marker) ∧ (∀ e ∈ G.lin, e ∈ lin) ∧
        (∀ e ∈ lin, e ∈ G.lin ∨ e.id = r.id) ∧
        ∀ r' pc', th = .busy r' pc' → (∀ v, pc'.decided = some v → ⟨r'.id, r'.op, v⟩ ∈ lin) ∧
          (pc'.decided = none → r'.id ∉ lin.map Entry.id) := by
    rintro lin marker r' pc' v rfl hid hop hd hmem hT'
    refine ⟨lin, marker, hT', fun e he => (hmem e).mpr (.inr he), fun e he => ?_, ?_⟩
    · rcases (hmem e).mp he with rfl | he
      · exact .inr rfl
      · exact .inl he
    · rintro r'' pc'' he
      cases he
      rw [hd, hid, hop]
      refine ⟨?_, nofun⟩
      rintro v' ⟨⟩
      exact (hmem _).mpr (.inl rfl)
  have hconcat : ∀ v e, e ∈ G.lin ++ [⟨r.id, r.op, v⟩] ↔ e = ⟨r.id, r.op, v⟩ ∨ e ∈ G.lin := by
    intro v e
    simp only [List.mem_append, List.mem_singleton]
    tauto
  cases hpt with
  | quiet hs hid hop hd =>
      have hhist := hhist nofun
      refine ⟨G.lin, G.marker, ?_, fun _ => id, fun _ => .inl, ?_⟩
      · refine hT.quiet hl hleft hs hval ?_ fun j _ => ?_
        · rw [hhist]
          exact hT.explains
        · rw [hhist]
      · rintro r' pc' he
        cases he
        rw [hd, hid, hop]
        exact ⟨hin.told, hin.untold⟩
  | effect hd hd' hrun hgone hhas =>
      exact hpoint _ _ _ _ _ rfl rfl rfl hd' (hconcat _)
        (hT.effect hc (hin.untold hd) hl hleft (hhist nofun) hrun hgone hhas)
  | remove hd hd' hop hlive hw hrun hgone hhas =>
      exact hpoint _ _ _ _ _ rfl rfl rfl hd' (hconcat _)
        (hT.remove hc (hin.untold hd) hl hleft (hhist nofun) hop hlive hw hrun hgone hhas)
  | late hd hd' hop ha hg hk hlive hgone hnew hhas =>
      obtain ⟨lin, hmem, hT'⟩ := hT.late hc (hin.untold hd) hl hleft (hhist nofun) hop ha hg hk hlive
        hgone hnew hhas
      exact hpoint lin _ _ _ _ rfl rfl rfl hd' hmem hT'
  | answer hd hm hid hop ha =>
      subst hm
      obtain ⟨lin, hmem, hT'⟩ := hT.answer htd hc (hin.untold hd) ha
      exact hpoint lin _ _ _ _ rfl hid hop rfl hmem hT'
  | ret hpc hm =>
      subst hpc hm
      refine ⟨G.lin, G.marker, ?_, fun _ => id, fun _ => .inl, nofun⟩
      refine hT.quiet hl hleft (same_of_eq rfl rfl) hval ?_ fun j _ => returnedBefore_res
      exact hT.explains.ret (hin.told _ rfl)

end Story

/-! ## The whole run -/

section Run

variable {maxLevel : ℕ} {m m' : Mem} {G : Story} {τ : Type} [DecidableEq τ] {s : Config τ Mem Thread}

/-- The story of a skiplist that nobody has used. -/
def Story.empty : Story where
  lin := []
  past _ := {Mem.withMaxLevel}
  marker _ := 0

theorem not_live_init (k : Bytes) (p : ℕ) : ¬ Live .withMaxLevel k p := by
  rintro ⟨hp, -, hk⟩
  match p with
  | 0 => exact (bot_lt_target k).ne hk
  | 1 => exact (target_lt_top k).ne' hk
  | p + 2 => exact absurd hp.lt_length (by simp [Mem.withMaxLevel])

theorem told_empty : Told .withMaxLevel .empty := by
  have hcon : Contents .withMaxLevel ∅ := by
    intro k v
    refine iff_of_false (by simp) ?_
    rintro ⟨p, hp, -⟩
    exact not_live_init k p hp
  have hgone : ∀ p, ¬ Mem.withMaxLevel.nodes.Gone p := by
    rintro p ⟨o, ho⟩
    match p with
    | 0 | 1 => cases List.eq_of_mem_replicate (List.mem_of_getElem? ho)
    | p + 2 => cases ho
  refine ⟨.empty, ⟨∅, rfl, hcon⟩, fun _ => .start 0 _, ?_, fun p hg => absurd hg (hgone p),
    fun p _ hg => absurd hg (hgone p)⟩
  rintro j m₀ rfl
  exact ⟨∅, .last rfl fun i hi => (res_of_returnedBefore hi).elim nofun, hcon⟩

/-- **The order of the calls, built along the run.** -/
def story (maxLevel : ℕ) :
    ((marked maxLevel keepsMarks fun _ _ _ => id).and (calls maxLevel keepsMarks fun _ _ _ => id)).History
      Story where
  shared := Told
  own m G th := th.InStory m G
  init := ⟨.empty, told_empty, trivial⟩
  step {m l c m' l' G} hs ho hT hin hst := by
    obtain ⟨⟨hshape, htd⟩, hval, hnum⟩ := hs
    obtain ⟨⟨hk, -⟩, hc⟩ := ho
    obtain ⟨-, hst⟩ := Threads.restrict_step.mp hst
    rcases step_cases hst with ⟨op, topLevel, -, -, rfl, rfl, rfl⟩ | ⟨r, pc, -, rfl, hmv⟩
    -- a call starts: nothing is told about it yet, and its window begins here
    · have hnew : m.calls ∉ G.lin.map Entry.id := by
        intro hin
        obtain ⟨e, he, hid⟩ := List.mem_map.mp hin
        exact absurd (hnum.lt _ _ (hT.explains.invoked e he)) (hid ▸ lt_irrefl _)
      refine ⟨G.next m (m.invoke op) G.lin G.marker, ?_, ?_, ?_⟩
      · exact hT.quiet (.refl _) (fun _ => .inl) (same_of_eq rfl rfl) hval (hT.explains.call hnew)
          fun j hj => returnedBefore_inv_of_ne hj.ne
      · have hpast : (G.next m (m.invoke op) G.lin G.marker).past m.calls = {m.invoke op} :=
          if_neg (lt_irrefl _)
        have hmet : Met 0 ((G.next m (m.invoke op) G.lin G.marker).past m.calls) head := by
          rw [hpast]
          exact Shape.met_head (m := m.invoke op) hshape rfl
        cases op with
        | insert key val | get key | remove key => exact ⟨hmet, nofun, fun _ => hnew⟩
      · rintro (_ | ⟨r, pc⟩) hb hd hbs
        · trivial
        · exact hbs.bystander hb.2 hb.1.1 (.refl _) hb.2.id_lt.ne (fun _ => id) fun _ => .inl
    -- a step inside a call: `Point` says what it tells, and the order is extended by it
    · have hw := hmv.write hshape hk
      have hl := hw.later hshape
      have hleft : ∀ p, m.nodes.OnLevel 0 p → m'.nodes.OnLevel 0 p ∨ m.nodes.Gone p := by
        rintro p ⟨ch, hb, hp⟩
        obtain ⟨ch', hb', hch⟩ := hw.chain hshape hb
        exact (hch p hp).imp_left fun hp' => ⟨ch', hb', hp'⟩
      have hhist : l' ≠ .idle → m'.hist = m.hist := by
        intro hne
        rcases hmv.hist with ⟨hh, -⟩ | ⟨v, -, -, hidle⟩
        · exact hh
        · exact absurd hidle hne
      have hpt := hmv.point (W := G.past r.id) hshape htd hval hk hc hin.tracks
      obtain ⟨lin, marker, hT', hsub, hnew, hdec⟩ := hpt.tell hT hin hc htd hval hl hleft hhist
      refine ⟨_, hT', ?_, ?_⟩
      · have hw' := hT'.windows r.id
        rw [Story.past_next hc.id_lt] at hw'
        have htr := hmv.tracks hshape htd hk (hT.windows r.id) hw' hin.tracks
        rcases hmv.runs hc.runs with rfl | ⟨r', pc', rfl, hid, -⟩
        · trivial
        · obtain ⟨htold, huntold⟩ := hdec r' pc' rfl
          refine ⟨?_, htold, huntold⟩
          rw [hid, Story.past_next hc.id_lt]
          exact htr
      · rintro (_ | ⟨r', pc'⟩) hb hd hbs
        · trivial
        · exact hbs.bystander hb.2 hb.1.1 hl (Ne.symm hd.2) hsub hnew

/-- From the moment a key is present, until somebody removes it, every search finds it. -/
theorem get_finds_of_replay {k : Bytes} {lin : List (Entry Op Ret)} {μ ν : Dict}
    (hrep : mapSpec.Replay μ lin ν) (hk : (μ.lookup k).isSome) (hno : ∀ e ∈ lin, e.op ≠ .remove k) :
    ∀ e ∈ lin, e.op = .get k → e.ret ≠ .value none := by
  induction lin generalizing μ with
  | nil => exact nofun
  | cons x lin ih =>
      obtain ⟨hx, hrest⟩ := hrep
      have hnext : ((mapSpec.run μ x.op).2.lookup k).isSome := by
        have hxop := hno x List.mem_cons_self
        cases hop : x.op with
        | get key => exact hk
        | insert key val =>
            by_cases hkey : k = key
            · subst hkey
              simp [mapSpec]
            · simpa [mapSpec, Finmap.lookup_insert_of_ne _ hkey] using hk
        | remove key =>
            have hkey : k ≠ key := by
              rintro rfl
              exact hxop hop
            simpa [mapSpec, Finmap.lookup_erase_ne hkey] using hk
      intro e he hop hret
      rcases List.mem_cons.mp he with rfl | he
      · rw [hop, hret] at hx
        have hnone : μ.lookup k = none := by simpa [mapSpec] using hx
        simp [hnone] at hk
      · exact ih hrest hnext (fun e he => hno e (List.mem_cons_of_mem _ he)) e he hop hret

/-- A `get` made after an insert of its key has returned finds the key, unless a remove of it was made. -/
theorem get_finds {h : List (Event Op Ret)} {lin : List (Entry Op Ret)} (hl : Linearizes mapSpec h lin)
    (huniq : ∀ i o o', Event.inv i o ∈ h → Event.inv i o' ∈ h → o = o') {i j : ℕ} {k v : Bytes} {r w : Ret}
    (hins : .inv i (.insert k v) ∈ h) (hget : [.res i r, .inv j (.get k)].Sublist h)
    (hno : ∀ n, Event.inv n (.remove k) ∉ h) (hres : .res j w ∈ h) : w ≠ .value none := by
  obtain ⟨e, he, hej, hew⟩ := hl.completed j w hres
  have hord := hl.order i r j _ hget (hej ▸ List.mem_map_of_mem he)
  obtain ⟨ids₁, ids₂, hids, hi₁, hj₂⟩ := List.cons_sublist_iff.mp hord
  obtain ⟨l₁, l₂, rfl, rfl, rfl⟩ := List.map_eq_append_iff.mp hids
  obtain ⟨x, hx, rfl⟩ := List.mem_map.mp hi₁
  obtain ⟨e', he', hej'⟩ := List.mem_map.mp (List.singleton_sublist.mp hj₂)
  -- the entry of the get stands behind the one of the insert
  have hee : e = e' := List.inj_on_of_nodup_map hl.nodup he (List.mem_append_right _ he')
    (hej.trans hej'.symm)
  subst hee
  have hxop : x.op = .insert k v :=
    huniq _ _ _ (hl.invoked x (List.mem_append_left _ hx)) hins
  have heop : e.op = .get k := by
    refine huniq _ _ _ (hl.invoked e he) ?_
    rw [hej]
    exact hget.subset (by simp)
  obtain ⟨a, b, rfl⟩ := List.append_of_mem hx
  obtain ⟨ν, hν⟩ := hl.legal
  rw [List.append_assoc, List.cons_append] at hν
  obtain ⟨μ, -, -, hrest⟩ := Spec.Replay.append_iff.mp hν
  have hsome : ((mapSpec.run μ x.op).2.lookup k).isSome := by
    rw [hxop]
    simp [mapSpec]
  rw [← hew]
  refine get_finds_of_replay hrest hsome (fun y hy hyop => ?_) e (List.mem_append_right _ he') heop
  refine hno y.id (hyop ▸ hl.invoked y ?_)
  simp only [List.mem_append, List.mem_cons] at hy ⊢
  tauto

/-- **Linearizability.**  In every run whose stores overwrite no mark, with any number of threads and any
tower heights, the history of calls is linearizable to a finite map; in particular a `get` made after an
insert of its key has returned finds the key, unless a remove of it was made. -/
theorem linearizable_of_keepsMarks
    (hs : (((threads maxLevel).restrict keepsMarks).machine τ).Reachable s) :
    Linearizable mapSpec s.mem.hist ∧
      ∀ i j k v r w, .inv i (.insert k v) ∈ s.mem.hist →
        [.res i r, .inv j (.get k)].Sublist s.mem.hist → (∀ n, .inv n (.remove k) ∉ s.mem.hist) →
        .res j w ∈ s.mem.hist → w ≠ .value none := by
  obtain ⟨G, hT, -⟩ := (story maxLevel).holds hs
  have hi := (((marked maxLevel keepsMarks fun _ _ _ => id).and
    (calls maxLevel keepsMarks fun _ _ _ => id)).holds hs).shared
  exact ⟨⟨G.lin, hT.explains⟩, fun i j k v r w hins hget hno hres =>
    get_finds hT.explains hi.2.2.unique hins hget hno hres⟩

/-- Inserts of keys 5 and 7, with towers of two levels, overlap, so that the first has to look again for its
place on level 1.  Then key 5 is removed, and a `get` of it returns before the remove does. -/
def overlappingCalls : List (Bool × Choice) :=
  (false, .call (.insert [5] [1]) 1) :: List.replicate 8 (false, .run) ++
    (true, .call (.insert [7] [2]) 1) :: List.replicate 13 (true, .run) ++ List.replicate 10 (false, .run) ++
    (true, .call (.remove [5]) 0) :: List.replicate 12 (true, .run) ++
    (false, .call (.get [5]) 0) :: List.replicate 7 (false, .run) ++ List.replicate 9 (true, .run)

theorem linearizable_of_keepsMarks_sample :
    ∃ s, (((threads 1).restrict keepsMarks).machine Bool).Reachable s ∧
      s.mem.hist = [.inv 0 (.insert [5] [1]), .inv 1 (.insert [7] [2]), .res 1 (.flag true),
        .res 0 (.flag true), .inv 2 (.remove [5]), .inv 3 (.get [5]), .res 3 (.value none),
        .res 2 (.flag true)] ∧
      Linearizable mapSpec s.mem.hist := by
  obtain ⟨s, hs⟩ : ∃ s, Machine.runFn ((threads 1).restrict keepsMarks).stepOf
      { mem := .withMaxLevel, loc := fun _ => .idle } overlappingCalls = some s := ⟨_, rfl⟩
  have hr : (((threads 1).restrict keepsMarks).machine Bool).Reachable s :=
    Machine.reachable_of_runFn hs
  refine ⟨s, hr, ?_, (linearizable_of_keepsMarks hr).1⟩
  cases hs
  rfl

end Run

/-- An insert of key 5, with a tower of two levels, stops after it has published its node.  Key 5 is
removed and key 7 inserted.  Then the insert goes on: its store erases the mark of the remover, and it
links the deleted node at level 1.  A `get` of key 7 comes down from there. -/
def revived : List (Bool × Choice) :=
  (false, .call (.insert [5] [1]) 1) :: List.replicate 8 (false, .run) ++
    (true, .call (.remove [5]) 0) :: List.replicate 19 (true, .run) ++
    (true, .call (.insert [7] [2]) 0) :: List.replicate 9 (true, .run) ++
    List.replicate 4 (false, .run) ++ (true, .call (.get [7]) 0) :: List.replicate 6 (true, .run)

/-- The history of that run. -/
def revivedHist : List (Event Op Ret) :=
  [.inv 0 (.insert [5] [1]), .inv 1 (.remove [5]), .res 1 (.flag true), .inv 2 (.insert [7] [2]),
    .res 2 (.flag true), .res 0 (.flag true), .inv 3 (.get [7]), .res 3 (.value none)]

/-- The insert of key 7 has returned, nobody removes it, and the `get` finds nothing. -/
theorem revived_not_linearizable :
    ∃ s, ((threads 1).machine Bool).Reachable s ∧ s.mem.hist = revivedHist ∧
      ¬ Linearizable mapSpec s.mem.hist := by
  obtain ⟨s, hs⟩ : ∃ s, Machine.runFn (threads 1).stepOf
      { mem := .withMaxLevel, loc := fun _ => .idle } revived = some s := ⟨_, rfl⟩
  have hhist : s.mem.hist = revivedHist := by
    cases hs
    rfl
  refine ⟨s, Machine.reachable_of_runFn hs, hhist, ?_⟩
  rw [hhist]
  rintro ⟨lin, hl⟩
  have huniq : ∀ i o o', Event.inv i o ∈ revivedHist → Event.inv i o' ∈ revivedHist → o = o' := by
    intro i o o' h h'
    simp only [revivedHist, List.mem_cons, Event.inv.injEq, reduceCtorEq, List.not_mem_nil, or_false,
      false_or] at h h'
    rcases h with ⟨rfl, rfl⟩ | ⟨rfl, rfl⟩ | ⟨rfl, rfl⟩ | ⟨rfl, rfl⟩ <;>
      exact Eq.symm (by simpa using h')
  have hins : Event.inv 2 (.insert [7] [2]) ∈ revivedHist := by simp [revivedHist]
  have hget : [.res 2 (.flag true), .inv 3 (.get [7])].Sublist revivedHist :=
    .cons _ (.cons _ (.cons _ (.cons _ (.cons_cons _ (.cons _ (.cons_cons _ (.cons _ .slnil)))))))
  have hno : ∀ n, Event.inv n (.remove [7]) ∉ revivedHist := by simp [revivedHist]
  exact get_finds hl huniq hins hget hno (by simp [revivedHist]) rfl

end ZeroKv.SkipList
