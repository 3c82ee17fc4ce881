/-
# ZeroKv.SkipList.Points — where the calls take effect.

An insert of a new key takes effect when it publishes its node, a remove when it marks one at level 0, an
update when it swaps the value cell.  The other calls leave the map alone, and what they return was right
at some moment they have seen: a search that found nothing looks back to a moment at which the key was
missing; a call that was overtaken by a remove belongs next to the mark of that remove.

`Point` says this for every step of the program, and nothing below the level of the map is needed beyond
it.
-/
import ZeroKv.SkipList.Hindsight

namespace ZeroKv.SkipList

/-! ## Calls and program points -/

/-- Which call the caller of a running `find` is in. -/
def After.Runs (r : Regs) : After → Prop
  | .insert | .relink _ _ => r.op = .insert r.key r.val
  | .remove | .clean _ => r.op = .remove r.key

/-- Which call the program point belongs to. -/
def Pc.Runs (r : Regs) : Pc → Prop
  | .findRef a _ _ | .findGet a _ _ _ | .findSplice a _ _ _ _ => a.Runs r
  | .insAlloc | .insInit _ _ | .insPub _ | .insStore _ _ | .insLink _ _ | .insLen | .insSwap _
  | .insRetire _ => r.op = .insert r.key r.val
  | .getRef _ _ | .getGet _ _ _ | .getMark _ | .getVal _ => r.op = .get r.key
  | .rmGet _ _ | .rmMark _ _ _ | .rmGet0 _ | .rmCas0 _ _ | .rmChk _ _ | .rmLen _ | .rmRetire _ =>
      r.op = .remove r.key
  | .ret _ => True

def After.decided : After → Option Ret
  | .insert | .remove => none
  | .relink _ _ | .clean _ => some (.flag true)

/-- What the call will return, once it has taken effect. -/
def Pc.decided : Pc → Option Ret
  | .findRef a _ _ | .findGet a _ _ _ | .findSplice a _ _ _ _ => a.decided
  | .insStore _ _ | .insLink _ _ | .insLen | .rmChk _ true | .rmLen _ | .rmRetire _ =>
      some (.flag true)
  | .insRetire _ => some (.flag false)
  | .ret v => some v
  | _ => none

/-- What a thread knows about its call. -/
structure InCall (m : Mem) (r : Regs) (pc : Pc) : Prop where
  id_lt : r.id < m.calls
  made : .inv r.id r.op ∈ m.hist
  runs : pc.Runs r
  /-- The node that only the calling insert can see has the value of the call. -/
  boxed : ∀ node, (Thread.busy r pc).fresh = some node → Has m node r.val

def Thread.InCall (m : Mem) : Thread → Prop
  | .idle => True
  | .busy r pc => SkipList.InCall m r pc

/-- Two threads are not in the same call. -/
def Thread.Distinct : Thread → Thread → Prop
  | .busy r _, .busy r' _ => r.id ≠ r'.id
  | _, _ => True

section Calls

variable {maxLevel : ℕ} {m m' : Mem} {r : Regs} {pc : Pc} {th a b a' : Thread} {c : Choice} {p : ℕ}
  {v : Bytes}

theorem runs_rmDown {node level : ℕ} (h : r.op = .remove r.key) : (Pc.rmDown node level).Runs r := by
  rw [Pc.rmDown]
  split <;> exact h

theorem runs_insUp {node level top : ℕ} (h : r.op = .insert r.key r.val) :
    (Pc.insUp top node level).Runs r := by
  rw [Pc.insUp]
  split <;> exact h

theorem runs_found {curr : ℕ} {k : After} (h : k.Runs r) : (Pc.found m r curr k).Runs r := by
  cases k with
  | insert =>
      simp only [Pc.found]
      split <;> exact h
  | relink node level | clean node => exact h
  | remove =>
      simp only [Pc.found]
      split
      · exact runs_rmDown h
      · trivial

/-- A step stays in its call or ends it. -/
theorem Move.runs (hmv : Move maxLevel m r pc m' th) (h : pc.Runs r) :
    th = .idle ∨ ∃ r' pc', th = .busy r' pc' ∧ r'.id = r.id ∧ r'.op = r.op ∧ r'.val = r.val ∧
      pc'.Runs r' := by
  cases hmv with
  | findDone => exact .inr ⟨_, _, rfl, rfl, rfl, rfl, runs_found h⟩
  | published | linked => exact .inr ⟨_, _, rfl, rfl, rfl, rfl, runs_insUp h⟩
  | rmPassed => exact .inr ⟨_, _, rfl, rfl, rfl, rfl, runs_rmDown h⟩
  | ret => exact .inl rfl
  | _ => exact .inr ⟨_, _, rfl, rfl, rfl, rfl, by first | exact h | trivial⟩

/-- Only calls and returns change the history. -/
theorem Move.hist (hmv : Move maxLevel m r pc m' th) :
    (m'.hist = m.hist ∧ m'.calls = m.calls) ∨ (∃ v, pc = .ret v ∧ m' = m.respond r.id v ∧ th = .idle) := by
  cases hmv with
  | ret => exact .inr ⟨_, rfl, rfl, rfl⟩
  | insLen =>
      obtain ⟨n, hn⟩ := m.incLen_eq
      exact .inl (hn ▸ ⟨rfl, rfl⟩)
  | rmLen =>
      obtain ⟨n, hn⟩ := m.decLen_eq
      exact .inl (hn ▸ ⟨rfl, rfl⟩)
  | _ => exact .inl ⟨rfl, rfl⟩

/-- Only the swap of an insert changes the value of a node. -/
theorem Move.has (hmv : Move maxLevel m r pc m' th) (hv : Has m p v)
    (hp : ∀ node, pc = .insSwap node → p ≠ node) :
    Has m' p v := by
  cases hmv with
  | insAlloc => exact has_alloc hv
  | spliced | insInit | insInitLast | insStore | rmMarked | removed =>
      exact has_store.mpr hv
  | published | linked => exact has_linkedAt.mpr (has_store.mpr hv)
  | swapped | swappedNull =>
      exact has_swap_of_ne (hp _ rfl) hv
  | insLen =>
      obtain ⟨n, hn⟩ := m.incLen_eq
      exact hn ▸ hv
  | rmLen =>
      obtain ⟨n, hn⟩ := m.decLen_eq
      exact hn ▸ hv
  | _ => exact hv

theorem has_swapValue {bytes : Bytes} (hp : p < m.nodes.length) :
    Has ((m.boxValue bytes).swapValue p m.cells.length) p bytes :=
  ⟨m.cells.length, Heap.valueOf_setValue_self hp, by simp [Mem.swapValue, Mem.boxValue]⟩

theorem has_allocNode {bytes : Bytes} {key : BoundKey} {top : ℕ} :
    Has ((m.boxValue bytes).allocNode (.new key (some m.cells.length) top)) m.nodes.length bytes :=
  ⟨m.cells.length, Heap.valueOf_alloc_self, by simp [Mem.allocNode, Mem.boxValue]⟩

/-- Every node that carries a key has a value, also after the step. -/
theorem Move.valued (hmv : Move maxLevel m r pc m' th) (hs : Shape m.nodes)
    (hk : (Thread.busy r pc).Knows m.nodes) (hv : Valued m) : Valued m' := by
  intro p k hb
  by_cases hp : p < m.nodes.length
  · rw [((hmv.write hs hk).later hs).bound hp] at hb
    obtain ⟨v, hpv⟩ := hv p k hb
    by_cases hswap : pc = .insSwap p
    · subst hswap
      cases hmv with
      | swapped | swappedNull => exact ⟨_, has_swapValue hp⟩
    · refine ⟨v, hmv.has hpv ?_⟩
      rintro node rfl rfl
      exact hswap rfl
  · -- the only new node is the one that an insert allocates
    have hout : ∀ h : Heap, h.length ≤ p → h.bound p ≠ target k := by
      intro h hle hb
      rw [Heap.bound, Heap.keyOf, readField, List.getElem?_eq_none hle] at hb
      exact (target_lt_top k).ne' hb
    have hlen : m'.nodes.length = m.nodes.length → ∃ v, Has m' p v := fun hlen =>
      absurd hb (hout m'.nodes (hlen ▸ Nat.le_of_not_lt hp))
    cases hmv with
    | insAlloc =>
        by_cases hpn : p = m.nodes.length
        · subst hpn
          exact ⟨_, has_allocNode⟩
        · refine absurd hb (hout _ ?_)
          simp only [Mem.allocNode, Mem.boxValue, Heap.alloc, List.length_append, List.length_singleton]
          omega
    | spliced | insInit | insInitLast | insStore | rmMarked | removed =>
        exact hlen (by simp [Mem.store])
    | published | linked => exact hlen (by simp [Mem.store, Mem.linkedAt])
    | swapped | swappedNull => exact hlen (by simp [Mem.swapValue, Mem.boxValue])
    | insLen => exact hlen (by rw [Mem.nodes_incLen])
    | rmLen => exact hlen (by rw [Mem.nodes_decLen])
    | _ => exact hlen rfl

/-- The acting thread stays in its call. -/
theorem Move.inCall (hmv : Move maxLevel m r pc m' th) (hc : InCall m r pc) : th.InCall m' := by
  rcases hmv.runs hc.runs with rfl | ⟨r', pc', rfl, hid, hop, hval, hruns⟩
  · trivial
  · rcases hmv.hist with ⟨hhist, hcalls⟩ | ⟨v, -, -, hidle⟩
    · refine ⟨by rw [hid, hcalls]; exact hc.id_lt, by rw [hid, hop, hhist]; exact hc.made, hruns, ?_⟩
      intro node hnode
      rw [hval]
      rcases hmv.fresh hnode with hf | ⟨rfl, rfl⟩
      · refine hmv.has (hc.boxed node hf) ?_
        rintro q rfl
        cases hf
      · cases hmv
        exact has_allocNode
    · cases hidle

/-- A bystander stays in its call. -/
theorem InCall.bystander {r' : Regs} {pc' : Pc} (hc : InCall m r' pc')
    (hk' : (Thread.busy r' pc').Knows m.nodes) (hmv : Move maxLevel m r pc m' th)
    (hk : (Thread.busy r pc).Knows m.nodes) : InCall m' r' pc' := by
  have hboxed : ∀ node, (Thread.busy r' pc').fresh = some node → Has m' node r'.val := by
    intro node hnode
    refine hmv.has (hc.boxed node hnode) ?_
    rintro q rfl rfl
    -- a swap is on a published node
    have hpub : m.nodes.Published node := hk.2.1
    cases pc' with
    | insInit n level | insPub n =>
        cases hnode
        exact hpub.ne' hk'.2.2.1.linked
    | _ => cases hnode
  rcases hmv.hist with ⟨hhist, hcalls⟩ | ⟨v, -, rfl, -⟩
  · exact ⟨hcalls ▸ hc.id_lt, hhist ▸ hc.made, hc.runs, hboxed⟩
  · exact ⟨hc.id_lt, List.mem_append_left _ hc.made, hc.runs, hboxed⟩

/-- Calls are numbered in the order they are made. -/
structure Numbered (m : Mem) : Prop where
  lt : ∀ i o, Event.inv i o ∈ m.hist → i < m.calls
  unique : ∀ i o o', Event.inv i o ∈ m.hist → Event.inv i o' ∈ m.hist → o = o'

theorem Numbered.invoke (hn : Numbered m) (op : Op) : Numbered (m.invoke op) := by
  have hcases : ∀ i o, Event.inv i o ∈ (m.invoke op).hist →
      Event.inv i o ∈ m.hist ∨ i = m.calls ∧ o = op := by
    intro i o hi
    rcases List.mem_append.mp hi with hi | hi
    · exact .inl hi
    · exact .inr (by simpa using hi)
  refine ⟨fun i o hi => ?_, fun i o o' hi hi' => ?_⟩
  · rcases hcases i o hi with hi | ⟨rfl, -⟩
    · exact Nat.lt_succ_of_lt (hn.lt i o hi)
    · exact Nat.lt_succ_self _
  · rcases hcases i o hi with hold | ⟨hin, ho⟩ <;> rcases hcases i o' hi' with hold' | ⟨hin', ho'⟩
    · exact hn.unique i o o' hold hold'
    · exact absurd hin' (hn.lt i o hold).ne
    · exact absurd hin (hn.lt i o' hold').ne
    · exact ho.trans ho'.symm

theorem Move.numbered (hmv : Move maxLevel m r pc m' th) (hn : Numbered m) : Numbered m' := by
  rcases hmv.hist with ⟨hhist, hcalls⟩ | ⟨v, -, rfl, -⟩
  · refine ⟨?_, ?_⟩
    · rw [hhist, hcalls]
      exact hn.lt
    · rw [hhist]
      exact hn.unique
  · have hold : ∀ i o, Event.inv i o ∈ (m.respond r.id v).hist → Event.inv i o ∈ m.hist := by
      intro i o hi
      simpa [Mem.respond] using hi
    exact ⟨fun i o hi => hn.lt i o (hold i o hi),
      fun i o o' hi hi' => hn.unique i o o' (hold i o hi) (hold i o' hi')⟩

theorem Move.distinct (hmv : Move maxLevel m r pc m' th) (hc : InCall m r pc)
    (hd : (Thread.busy r pc).Distinct b) : th.Distinct b ∧ b.Distinct th := by
  rcases hmv.runs hc.runs with rfl | ⟨r', pc', rfl, hid, -⟩
  · cases b <;> exact ⟨trivial, trivial⟩
  · cases b with
    | idle => exact ⟨trivial, trivial⟩
    | busy r'' pc'' =>
        have hd : r.id ≠ r''.id := hd
        exact ⟨fun he => hd (hid.symm.trans he), fun he => hd (hid.symm.trans he.symm)⟩

variable {R : Mem → Thread → Choice → Bool}

/-- **Every program point belongs to a call**, and no two threads are in the same one. -/
def calls (maxLevel : ℕ) (R : Mem → Thread → Choice → Bool)
    (hR : ∀ m th c, R m th c = true → keepsMarks m th c = true) : (marked maxLevel R hR).Extra where
  shared m := Valued m ∧ Numbered m
  own m th := th.InCall m
  apart := Thread.Distinct
  init_shared := by
    refine ⟨fun p k hb => ?_, nofun, nofun⟩
    match p with
    | 0 => exact absurd hb (bot_lt_target k).ne
    | p + 1 => exact absurd hb (by
        rw [Heap.bound, Heap.keyOf, readField]
        cases p <;> exact (target_lt_top k).ne')
  init_own := trivial
  init_apart := trivial
  keep {m l c m' l'} hs ha hv hc hst := by
    obtain ⟨-, hst⟩ := Threads.restrict_step.mp hst
    rcases step_cases hst with ⟨op, topLevel, -, -, rfl, rfl, rfl⟩ | ⟨r, pc, -, rfl, hmv⟩
    · refine ⟨⟨hv.1, hv.2.invoke op⟩, ⟨Nat.lt_succ_self _, ?_, ?_, ?_⟩⟩
      · exact List.mem_append_right _ (List.mem_singleton_self _)
      · cases op <;> rfl
      · intro node hnode
        cases op <;> cases hnode
    · exact ⟨⟨hmv.valued hs.1 ha.1 hv.1, hmv.numbered hv.2⟩, hmv.inCall hc⟩
  bystander {m l c m' l' b} hs ha hb _ hv hc hcb hd hd' hst := by
    obtain ⟨-, hst⟩ := Threads.restrict_step.mp hst
    rcases step_cases hst with ⟨op, topLevel, -, -, rfl, rfl, rfl⟩ | ⟨r, pc, -, rfl, hmv⟩
    · cases b with
      | idle => exact ⟨trivial, trivial, trivial⟩
      | busy r pc =>
          refine ⟨⟨Nat.lt_succ_of_lt hcb.id_lt, List.mem_append_left _ hcb.made, hcb.runs, hcb.boxed⟩,
            ?_, ?_⟩
          · exact hcb.id_lt.ne'
          · exact hcb.id_lt.ne
    · refine ⟨?_, hmv.distinct hc hd⟩
      cases b with
      | idle => trivial
      | busy r' pc' => exact hcb.bystander hb.1 hmv ha.1

end Calls

/-! ## The points -/

/-- A call that leaves the map alone answers `v`.  `W` is what it has seen. -/
inductive Answer (W : Set Mem) (m : Mem) (r : Regs) : Ret → Prop
  /-- The key was missing at some moment. -/
  | miss {v} (hread : ∀ μ : Dict, μ.lookup r.key = none → mapSpec.run μ r.op = (v, μ))
      (hk : Missed W r.key) : Answer W m r v
  /-- The node of the key was deleted under the eyes of the call. -/
  | gone {v node} (hread : ∀ μ : Dict, μ.lookup r.key = none → mapSpec.run μ r.op = (v, μ))
      (ha : Alive W node) (hk : m.nodes.bound node = target r.key) (hg : m.nodes.Gone node) :
      Answer W m r v
  /-- The value was read from a node that was not deleted before. -/
  | hit {node v} (hop : r.op = .get r.key) (ha : Alive W node) (hp : m.nodes.Published node)
      (hk : m.nodes.bound node = target r.key) (hv : Has m node v) : Answer W m r (.value (some v))

/-- What a step of a call means for the map. -/
inductive Point (W : Set Mem) (m : Mem) (r : Regs) (pc : Pc) (m' : Mem) : Thread → Prop
  /-- Nothing happens to the map, and the call is as far as it was. -/
  | quiet {r' pc'} (hs : Same m m') (hid : r'.id = r.id) (hop : r'.op = r.op)
      (hd : pc'.decided = pc.decided) : Point W m r pc m' (.busy r' pc')
  /-- An insert takes effect. -/
  | effect {pc' v} (hd : pc.decided = none) (hd' : pc'.decided = some v)
      (hrun : ∀ μ, Contents m μ → (mapSpec.run μ r.op).1 = v ∧ Contents m' (mapSpec.run μ r.op).2)
      (hgone : ∀ p, m'.nodes.Gone p ↔ m.nodes.Gone p)
      (hhas : ∀ p w, m.nodes.Gone p → Has m p w → Has m' p w) : Point W m r pc m' (.busy r pc')
  /-- A remove takes effect: it marks its node. -/
  | remove {pc' node w} (hd : pc.decided = none) (hd' : pc'.decided = some (.flag true))
      (hop : r.op = .remove r.key) (hl : Live m r.key node) (hw : Has m node w)
      (hrun : ∀ μ, Contents m μ → Contents m' (μ.erase r.key))
      (hgone : ∀ p, m'.nodes.Gone p ↔ p = node ∨ m.nodes.Gone p)
      (hhas : ∀ p w, Has m p w → Has m' p w) : Point W m r pc m' (.busy r pc')
  /-- An update comes too late: its node has been marked. -/
  | late {pc' node} (hd : pc.decided = none) (hd' : pc'.decided = some (.flag false))
      (hop : r.op = .insert r.key r.val) (ha : Alive W node) (hg : m.nodes.Gone node)
      (hk : m.nodes.bound node = target r.key) (hlive : ∀ μ, Contents m μ → Contents m' μ)
      (hgone : ∀ p, m'.nodes.Gone p ↔ m.nodes.Gone p) (hnew : Has m' node r.val)
      (hhas : ∀ p w, p ≠ node → Has m p w → Has m' p w) : Point W m r pc m' (.busy r pc')
  /-- A call that leaves the map alone has its answer. -/
  | answer {r' v} (hd : pc.decided = none) (hm : m' = m) (hid : r'.id = r.id) (hop : r'.op = r.op)
      (ha : Answer W m r v) : Point W m r pc m' (.busy r' (.ret v))
  | ret {v} (hpc : pc = .ret v) (hm : m' = m.respond r.id v) : Point W m r pc m' .idle

section Points

variable {maxLevel : ℕ} {W : Set Mem} {m m' : Mem} {r : Regs} {pc : Pc} {th : Thread} {μ : Dict}
  {k : Bytes} {p node : ℕ}

theorem run_get_none (hop : r.op = .get r.key) (μ : Dict) (hk : μ.lookup r.key = none) :
    mapSpec.run μ r.op = (.value none, μ) := by
  rw [hop]
  simp [mapSpec, hk]

theorem run_remove_none (hop : r.op = .remove r.key) (μ : Dict) (hk : μ.lookup r.key = none) :
    mapSpec.run μ r.op = (.flag false, μ) := by
  have hsame : μ.erase r.key = μ := by
    refine Finmap.ext_lookup fun x => ?_
    by_cases hx : x = r.key
    · rw [hx, Finmap.lookup_erase, hk]
    · rw [Finmap.lookup_erase_ne hx]
  rw [hop]
  simp [mapSpec, hk, hsame]

@[simp] theorem decided_insUp {top level : ℕ} : (Pc.insUp top node level).decided = some (.flag true) := by
  rw [Pc.insUp]
  split <;> rfl

@[simp] theorem decided_rmDown {level : ℕ} : (Pc.rmDown node level).decided = none := by
  rw [Pc.rmDown]
  split <;> rfl

/-- The end of a search. -/
theorem point_found {pred curr : ℕ} {a : After} (hr : a.Runs r) (hk : target r.key ≤ m.nodes.bound curr)
    (ht : Passed W m r.key curr) :
    Point W m r (.findGet a 0 pred curr) m
      (.busy (r.atLevel 0 pred curr) (.found m (r.atLevel 0 pred curr) curr a)) := by
  have hsame : Same m m := same_of_eq rfl rfl
  cases a with
  | insert =>
      simp only [Pc.found]
      split <;> exact .quiet hsame rfl rfl rfl
  | relink node level | clean node => exact .quiet hsame rfl rfl rfl
  | remove =>
      simp only [Pc.found]
      split
      · exact .quiet hsame rfl rfl decided_rmDown
      · next he =>
        refine .answer rfl rfl rfl rfl (.miss (run_remove_none hr) (ht.2 (lt_of_le_of_ne hk ?_)))
        exact fun e => he (BoundKey.keyEq_iff.mpr e.symm)

/-- Publishing a node puts its key into the map. -/
theorem contents_publish (hs : Shape m.nodes) (hgap : r.Gap m.nodes) (hp : r.Private m.nodes node)
    (hpred : m.nodes.Published (r.preds 0))
    (hnl : m.nodes.link node 0 = some ⟨some (r.succs 0), false⟩) (hv : Has m node r.val)
    (hl : m.nodes.link (r.preds 0) 0 = some ⟨some (r.succs 0), false⟩) (hc : Contents m μ) :
    μ.lookup r.key = none ∧
      Contents ((m.store (r.preds 0) 0 ⟨some node, false⟩).linkedAt node 1) (μ.insert r.key r.val) := by
  have hnone : ∀ x, ¬ Live m r.key x := by
    obtain ⟨ch, hb⟩ := hs.chain
    obtain ⟨a, c, rfl⟩ := hb.split (hb.complete _ hpred ⟨_, hl⟩) ⟨false, hl⟩
    exact hb.missing hgap.1 hgap.2
  have hsame : Same m (m.store (r.preds 0) 0 ⟨some node, false⟩) := same_store _ hl fun _ => rfl
  have hpn : node ≠ r.preds 0 := fun he => hpred.ne' (he ▸ hp.linked)
  refine ⟨hc.lookup_none hnone, hc.insert node (fun k p => ?_) ?_ ?_ ?_ ?_⟩
  · rw [← hsame.live]
    have hpub : ((m.nodes.setLink (r.preds 0) 0 ⟨some node, false⟩).setLinked node 1).Published p ↔
        p = node ∨ (m.nodes.setLink (r.preds 0) 0 ⟨some node, false⟩).Published p :=
      Heap.published_setLinked (by simpa using hp.lt_length)
    simp only [Live, Mem.linkedAt, Mem.store, hpub, Heap.Unmarked, Heap.UnmarkedAt, Heap.link_setLinked,
      Heap.bound_setLinked]
    constructor
    · rintro ⟨rfl | hpub, hu, hk⟩
      · rw [Heap.bound_setLink, hp.bound, target_inj] at hk
        exact .inl ⟨hk.symm, rfl⟩
      · exact .inr ⟨hpub, hu, hk⟩
    · rintro (⟨rfl, rfl⟩ | ⟨hpub, hu, hk⟩)
      · exact ⟨.inl rfl, ⟨_, (Heap.link_setLink_of_ne (.inl hpn)).trans hnl⟩,
          Heap.bound_setLink.trans hp.bound⟩
      · exact ⟨.inr hpub, hu, hk⟩
  · exact fun x hx => absurd hx (hnone x)
  · exact has_linkedAt.mpr (has_store.mpr hv)
  · exact fun _ _ _ _ _ => has_linkedAt.trans has_store
  · exact fun k' hk' => absurd hk'.1 hp.linked.not_gt

/-- Swapping a cell moves no node. -/
theorem live_swap {bytes : Bytes} {c : ℕ} :
    Live ((m.boxValue bytes).swapValue node c) k p ↔ Live m k p := by
  simp [Live, Mem.swapValue, Mem.boxValue, Heap.Unmarked, Heap.UnmarkedAt]

theorem gone_swap {bytes : Bytes} {c : ℕ} :
    ((m.boxValue bytes).swapValue node c).nodes.Gone p ↔ m.nodes.Gone p := by
  simp [Mem.swapValue, Mem.boxValue, Heap.Gone, Heap.MarkedAt]

theorem contents_swap {bytes : Bytes} (hs : Shape m.nodes) (hval : Valued m) (hl : Live m k node)
    (hc : Contents m μ) :
    Contents ((m.boxValue bytes).swapValue node m.cells.length) (μ.insert k bytes) := by
  refine hc.insert node (fun k' p => ?_) (fun p hp => hp.unique hs hl)
    (has_swapValue hl.1.lt_length) ?_ ?_
  · rw [live_swap]
    refine ⟨.inr, fun h => h.elim ?_ id⟩
    rintro ⟨rfl, rfl⟩
    exact hl
  · exact fun k' p w hp hne => hval.has_iff hp.2.2 fun _ => has_swap_of_ne hne
  · intro k' hk'
    exact target_inj.mp (hk'.2.2.symm.trans hl.2.2)

/-- A swap on a deleted node does not reach the map. -/
theorem contents_swap_gone {bytes : Bytes} {c : ℕ} (hval : Valued m) (hg : m.nodes.Gone node)
    (hc : Contents m μ) : Contents ((m.boxValue bytes).swapValue node c) μ := by
  intro k v
  rw [hc k v]
  refine exists_congr fun p => ?_
  rw [live_swap]
  refine and_congr_right fun hp => (hval.has_iff hp.2.2 fun _ => has_swap_of_ne ?_).symm
  rintro rfl
  exact hp.2.1.not_marked hg

theorem gone_mark {o : Option ℕ} (hl : m.nodes.link node 0 = some ⟨o, false⟩) :
    (m.store node 0 ⟨o, true⟩).nodes.Gone p ↔ p = node ∨ m.nodes.Gone p := by
  constructor
  · rintro ⟨o', hp⟩
    rcases Heap.link_setLink_cases hp with ⟨rfl, -, -⟩ | hp
    · exact .inl rfl
    · exact .inr ⟨o', hp⟩
  · rintro (rfl | ⟨o', hp⟩)
    · exact ⟨o, Heap.link_setLink_self hl⟩
    · exact ⟨o', (frozen_setLink hl rfl).link p 0 o' hp⟩

/-- Marking a node takes its key out of the map. -/
theorem contents_mark {o : Option ℕ} (hs : Shape m.nodes) (hn : Live m k node)
    (hl : m.nodes.link node 0 = some ⟨o, false⟩) (hc : Contents m μ) :
    Contents (m.store node 0 ⟨o, true⟩) (μ.erase k) := by
  refine hc.erase (fun k' p => ?_) fun _ _ _ _ => has_store
  constructor
  · rintro ⟨hpub, ⟨o', hu⟩, hk'⟩
    have hpn : p ≠ node := by
      rintro rfl
      exact Heap.UnmarkedAt.not_marked ⟨o', hu⟩ ⟨o, Heap.link_setLink_self hl⟩
    have hp : Live m k' p := ⟨Heap.published_setLink.mp hpub,
      ⟨o', (Heap.link_setLink_of_ne (.inl hpn)).symm.trans hu⟩, Heap.bound_setLink.symm.trans hk'⟩
    refine ⟨hp, ?_⟩
    rintro rfl
    exact hpn (hp.unique hs hn)
  · rintro ⟨⟨hpub, ⟨o', hu⟩, hk'⟩, hne⟩
    have hpn : p ≠ node := by
      rintro rfl
      exact hne (target_inj.mp (hk'.symm.trans hn.2.2))
    exact ⟨Heap.published_setLink.mpr hpub, ⟨o', (Heap.link_setLink_of_ne (.inl hpn)).trans hu⟩,
      Heap.bound_setLink.trans hk'⟩

/-- The update of an insert. -/
theorem point_swap {pc' : Pc} (hs : Shape m.nodes) (htd : TopDown m.nodes) (hval : Valued m)
    (hop : r.op = .insert r.key r.val) (hk : r.Carries m.nodes node) (ha : Alive W node)
    (hd : pc'.decided = some (.flag false)) :
    Point W m r (.insSwap node) ((m.boxValue r.val).swapValue node m.cells.length) (.busy r pc') := by
  obtain ⟨lk, hlk⟩ := Option.isSome_iff_exists.mp
    ((htd.tall node hk.1.lt_length 0).mpr (Nat.zero_le _))
  rcases Heap.marked_or_unmarked hlk with hg | hu
  · refine .late rfl hd hop ha hg hk.2 (fun μ => contents_swap_gone hval hg) (fun p => gone_swap)
      (has_swapValue hk.1.lt_length) fun p w => has_swap_of_ne
  · have hl : Live m r.key node := ⟨hk.1, hu, hk.2⟩
    refine .effect rfl hd (fun μ hc => ?_) (fun p => gone_swap) fun p w hg hw => ?_
    · obtain ⟨v, hv⟩ := hval node r.key hk.2
      rw [hop]
      exact ⟨by simp [mapSpec, hc.lookup hl hv], contents_swap hs hval hl hc⟩
    · refine has_swap_of_ne ?_ hw
      rintro rfl
      exact Heap.UnmarkedAt.not_marked hu hg

/-- **What every step means for the map.** -/
theorem Move.point (hmv : Move maxLevel m r pc m' th) (hs : Shape m.nodes) (htd : TopDown m.nodes)
    (hval : Valued m) (hk : (Thread.busy r pc).Knows m.nodes) (hc : InCall m r pc)
    (ht : pc.Tracks W m r.key) : Point W m r pc m' th := by
  have hsame : Same m m := same_of_eq rfl rfl
  have hruns := hc.runs
  obtain ⟨hr, hk⟩ := hk
  cases hmv with
  | findDone hlk hle => exact point_found hruns hle (ht.2 rfl)
  | spliced hlk => exact .quiet (same_store _ hlk fun _ => rfl) rfl rfl rfl
  | insAlloc => exact .quiet same_alloc rfl rfl rfl
  | insInit hlk | insInitLast hlk =>
      exact .quiet (same_store _ hlk fun _ => htd.mark_of_unlinked hk.2.1.linked hlk) rfl rfl rfl
  -- the two effects of an insert: the link at level 0, and the swap of a value
  | @published node hlk =>
      have hnode := hc.boxed node rfl
      refine .effect rfl decided_insUp (fun μ hμ => ?_) (fun p => ?_) fun p w _ hw => ?_
      · obtain ⟨hnone, hμ'⟩ := contents_publish hs hk.1 hk.2.1 (hr 0).1 hk.2.2 hnode hlk hμ
        rw [show r.op = .insert r.key r.val from hruns]
        exact ⟨by simp [mapSpec, hnone], hμ'⟩
      · have hg := (same_store ⟨some node, false⟩ hlk fun _ => rfl).gone p
        simpa [Mem.linkedAt, Heap.Gone, Heap.MarkedAt] using hg
      · exact has_linkedAt.mpr (has_store.mpr hw)
  | insStore hlk => exact .quiet (same_store _ hlk fun h0 => absurd h0 hk.2.ne') rfl rfl rfl
  | linked hlk =>
      refine .quiet ((same_store _ hlk fun h0 => absurd h0 hk.2.ne').trans (same_linkedAt ?_)) rfl rfl
        decided_insUp
      exact Heap.published_setLink.mpr hk.1
  | insLen =>
      obtain ⟨n, hn⟩ := m.incLen_eq
      rw [hn]
      exact .quiet (same_of_eq rfl rfl) rfl rfl rfl
  | rmLen =>
      obtain ⟨n, hn⟩ := m.decLen_eq
      rw [hn]
      exact .quiet (same_of_eq rfl rfl) rfl rfl rfl
  | swapped => exact point_swap hs htd hval hruns hk ht rfl
  | swappedNull => exact point_swap hs htd hval hruns hk ht rfl
  | getMiss hlk hlt => exact .answer rfl rfl rfl rfl (.miss (run_get_none hruns) ((ht.2 rfl).2 hlt))
  | getGone hlk => exact .answer rfl rfl rfl rfl (.gone (run_get_none hruns) ht hk.2 ⟨_, hlk⟩)
  | @getVal node c hv =>
      obtain ⟨v, hnv⟩ := hval node r.key hk.2
      obtain ⟨c', hc', hcell⟩ := hnv
      obtain rfl : c = c' := Option.some.inj (hv.symm.trans hc')
      have hget : m.cells.getD c [] = v := by simp [List.getD, hcell]
      rw [hget]
      exact .answer rfl rfl rfl rfl (.hit hruns ht hk.1 hk.2 ⟨c, hv, hcell⟩)
  -- a node that carries a key always has a value
  | @getNull node hv =>
      obtain ⟨v, c, hc', -⟩ := hval node r.key hk.2
      rw [hv] at hc'
      cases hc'
  | rmPassed => exact .quiet hsame rfl rfl decided_rmDown
  | rmMarked hlk => exact .quiet (same_store _ hlk fun h0 => absurd h0 hk.2.ne') rfl rfl rfl
  -- the effect of a remove: the mark at level 0
  | @removed node succ hlk =>
      obtain ⟨v, hnv⟩ := hval node r.key hk.2
      exact .remove rfl rfl hruns ⟨hk.1, ⟨_, hlk⟩, hk.2⟩ hnv
        (fun μ => contents_mark hs ⟨hk.1, ⟨_, hlk⟩, hk.2⟩ hlk) (fun p => gone_mark hlk)
        fun p w => has_store.mpr
  | rmBeaten hlk => exact .answer rfl rfl rfl rfl (.gone (run_remove_none hruns) ht hk.1.2 ⟨_, hlk⟩)
  | ret => exact .ret rfl rfl
  | _ => exact .quiet (same_of_eq rfl rfl) rfl rfl rfl

end Points

end ZeroKv.SkipList
