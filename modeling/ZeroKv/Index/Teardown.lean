/-
# ZeroKv.Index.Teardown — between them the shards and the domain free everything once.

Three parties free the memory of the index and know nothing of each other: an insert that loses a race frees
its own node, the collectors of the domain run the drop functions of the records, and `Drop for SkipList` walks
what is left of a shard.  When nothing is in progress, every piece of garbage that the shards have retired is
in exactly one record; so the three share out all nodes and all cells, each to one of them and once.

What the domain has not freed by then waits in its bags; that two more collections free it is the subject of
`ZeroKv.Ebr.Quiescent`.
-/
import ZeroKv.Index.Reclaim

namespace ZeroKv.Index

open SkipList (Mem Thread Choice Op Ret Garbage Regs Move maxHeight dropWalk graves holders)

variable {n : ℕ} [NeZero n]

/-! ## What is retired is in one record -/

section Handed

variable {τ : Type} {maxLevel : ℕ} {s t : Config τ (Shared n) (Local n)} {u : τ} {a : Action}

/-- The thread is about to box the garbage. -/
def Pending (s : Config τ (Shared n) (Local n)) (u : τ) (x : Scrap n) : Prop :=
  (s.loc u).ebr.pc = .retireLoad x

/-- Every piece of garbage is in one record, or on its way there with one thread. -/
structure Handed (s : Config τ (Shared n) (Local n)) : Prop where
  complete : ∀ i g, g ∈ (s.mem.shards i).retired →
    (∃ r, s.mem.dom.garbageOf r = some (i, g)) ∨ ∃ u, Pending s u (i, g)
  once : ∀ r r' x, s.mem.dom.garbageOf r = some x → s.mem.dom.garbageOf r' = some x → r = r'
  apart : ∀ u r x, Pending s u x → s.mem.dom.garbageOf r ≠ some x
  alone : ∀ u u' x, Pending s u x → Pending s u' x → u = u'

variable [DecidableEq τ]

/-- Nobody retires what is retired. -/
theorem notMem_of_retire (hs : ((managed n maxLevel).machine τ).Reachable s) {i : Fin n}
    {old : List Garbage} {g : Garbage} (hret : (s.mem.shards i).retired = old ++ [g]) : g ∉ old := by
  have hr := Threads.reachable_of_restrict ((list n maxLevel i).reachable hs)
  intro hg
  cases g with
  | node p =>
      have hnd := (SkipList.graves_split hr).nodup .retired
      rw [graves, show ((list n maxLevel i).view s).mem.retired = _ from hret, List.filterMap_append] at hnd
      exact (List.nodup_append.mp hnd).2.2 p (List.mem_filterMap.mpr ⟨_, hg, rfl⟩) p
        (List.mem_singleton.mpr rfl) rfl
  | cell c =>
      have hnd := (SkipList.holders_split hr).nodup .retired
      rw [holders, show ((list n maxLevel i).view s).mem.retired = _ from hret, List.filterMap_append] at hnd
      exact (List.nodup_append.mp hnd).2.2 c (List.mem_filterMap.mpr ⟨_, hg, rfl⟩) c
        (List.mem_singleton.mpr rfl) rfl

/-- What a thread is about to box after a step, it was about to box before, or it has just retired it. -/
theorem pending_cases (hst : (managed n maxLevel).stepOf s (u, a) = some t) {v : τ} {i : Fin n}
    {g : Garbage} (hp : Pending t v (i, g)) :
    (v ≠ u ∧ Pending s v (i, g)) ∨
      v = u ∧ (t.mem.shards i).retired = (s.mem.shards i).retired ++ [g] := by
  obtain ⟨m', l', hml, rfl⟩ := Threads.stepOf_eq_some.mp hst
  by_cases hv : v = u
  · subst hv
    have hpc : l'.ebr.pc = .retireLoad (i, g) := by simpa [Pending] using hp
    exact .inr ⟨rfl, (managed_step hml).retired_of_pc hpc⟩
  · exact .inl ⟨hv, by simpa [Pending, Function.update_of_ne hv] using hp⟩

theorem record_mono (hst : (managed n maxLevel).stepOf s (u, a) = some t) {r : ℕ} {x : Scrap n}
    (hr : s.mem.dom.garbageOf r = some x) : t.mem.dom.garbageOf r = some x := by
  rcases (domain n maxLevel).view_step hst with hsame | ⟨b, hb⟩
  · have hdom : t.mem.dom = s.mem.dom := congrArg Config.mem hsame
    rwa [hdom]
  · obtain ⟨d', l', hml, he⟩ := Threads.stepOf_eq_some.mp hb
    have hdom : t.mem.dom = d' := congrArg Config.mem he
    have hlt : r < s.mem.dom.recs.length := by
      by_contra hge
      rw [Ebr.Domain.garbageOf, List.getElem?_eq_none (Nat.le_of_not_lt hge)] at hr
      cases hr
    rw [hdom, (Ebr.disciplined_step hml).2.2.garbageOf_of_lt hlt]
    exact hr

/-- The next step of a thread that is about to box its garbage does so. -/
theorem record_of_pending (hst : (managed n maxLevel).stepOf s (u, a) = some t) {x : Scrap n}
    (hp : Pending s u x) : t.mem.dom.garbageOf s.mem.dom.recs.length = some x := by
  obtain ⟨m', l', hml, rfl⟩ := Threads.stepOf_eq_some.mp hst
  have hbusy : ∀ {pc}, (s.loc u).ebr.pc = pc → pc = .retireLoad x := fun h => h.symm.trans hp
  cases managed_step hml with
  | start hb _ hde =>
      rcases hb with ⟨-, rfl⟩ | ⟨-, rfl⟩ <;> simp [Ebr.step, show (s.loc u).ebr.pc = _ from hp] at hde
  | unpin _ hde => simp [Ebr.step, show (s.loc u).ebr.pc = _ from hp] at hde
  | call hidle | exec hidle => cases hbusy hidle
  | run hde =>
      simp only [Ebr.step, Ebr.stepRun, show (s.loc u).ebr.pc = _ from hp, Option.some.injEq,
        Prod.mk.injEq] at hde
      obtain ⟨rfl, -⟩ := hde
      simp [Ebr.Domain.garbageOf]

theorem Handed.step (hs : ((managed n maxLevel).machine τ).Reachable s) (h : Handed s)
    (hst : (managed n maxLevel).stepOf s (u, a) = some t) : Handed t := by
  have hknown := (known n maxLevel).holds hs
  -- what has just been retired is in no record, and no thread is about to box it
  have hfresh : ∀ {i g}, (t.mem.shards i).retired = (s.mem.shards i).retired ++ [g] →
      (∀ r, s.mem.dom.garbageOf r ≠ some (i, g)) ∧ ∀ v, ¬ Pending s v (i, g) := fun hret =>
    ⟨fun r hr => notMem_of_retire (hs.next hst) hret (hknown.shared r _ _ hr),
      fun v hp => notMem_of_retire (hs.next hst) hret (hknown.own v _ _ hp)⟩
  have hold : ∀ i g, g ∈ (s.mem.shards i).retired →
      (∃ r, t.mem.dom.garbageOf r = some (i, g)) ∨ ∃ v, Pending t v (i, g) := by
    intro i g hg
    rcases h.complete i g hg with ⟨r, hr⟩ | ⟨v, hv⟩
    · exact .inl ⟨r, record_mono hst hr⟩
    · by_cases hvu : v = u
      · subst hvu
        exact .inl ⟨_, record_of_pending hst hv⟩
      · refine .inr ⟨v, ?_⟩
        obtain ⟨m', l', -, rfl⟩ := Threads.stepOf_eq_some.mp hst
        simpa [Pending, Function.update_of_ne hvu] using hv
  refine ⟨fun i g hg => ?_, fun r r' x hr hr' => ?_, fun v r x hp hr => ?_, fun v v' x hp hp' => ?_⟩
  · have hcases : (t.mem.shards i).retired = (s.mem.shards i).retired ∨
        ∃ g, Pending t u (i, g) ∧ (t.mem.shards i).retired = (s.mem.shards i).retired ++ [g] := by
      obtain ⟨m', l', hml, rfl⟩ := Threads.stepOf_eq_some.mp hst
      simpa [Pending] using (managed_step hml).retired_cases i
    rcases hcases with he | ⟨g', hp, he⟩
    · exact hold i g (he ▸ hg)
    · rw [he] at hg
      rcases List.mem_append.mp hg with hg | hg
      · exact hold i g hg
      · exact .inr ⟨u, List.mem_singleton.mp hg ▸ hp⟩
  · rcases record_cases hst hr with hr | ⟨-, rfl, hp⟩ <;> rcases record_cases hst hr' with hr' | ⟨-, rfl, hp'⟩
    · exact h.once r r' x hr hr'
    · exact absurd hr (h.apart u r x hp')
    · exact absurd hr' (h.apart u r' x hp)
    · rfl
  · rcases pending_cases hst hp with ⟨hvu, hp⟩ | ⟨rfl, hret⟩
    · rcases record_cases hst hr with hr | ⟨-, -, hp'⟩
      · exact h.apart v r x hp hr
      · exact hvu (h.alone v u x hp hp')
    · rcases record_cases hst hr with hr | ⟨-, -, hp'⟩
      · exact (hfresh hret).1 r hr
      · exact (hfresh hret).2 v hp'
  · rcases pending_cases hst hp with ⟨-, hp⟩ | ⟨rfl, hret⟩ <;>
      rcases pending_cases hst hp' with ⟨-, hp'⟩ | ⟨rfl, hret'⟩
    · exact h.alone v v' x hp hp'
    · exact absurd hp ((hfresh hret').2 v)
    · exact absurd hp' ((hfresh hret).2 v')
    · rfl

theorem handed (hs : ((managed n maxLevel).machine τ).Reachable s) : Handed s := by
  refine hs.invariant ?_ ?_
  · rintro s rfl
    refine ⟨fun i g hg => ?_, fun r r' x hr => ?_, fun u r x hp => ?_, fun u u' x hp => ?_⟩
    · cases hg
    · cases hr
    · cases hp
    · cases hp
  · rintro s ⟨u, a⟩ t hs h hst
    exact h.step hs hst

end Handed

/-! ## At rest -/

/-- The thread is in no call, of the index or of the domain. -/
def Local.resting {n : ℕ} (l : Local n) : Bool :=
  match l.call, l.ebr.pc with
  | .idle, .idle => true
  | _, _ => false

omit [NeZero n] in
theorem Local.idle_of_resting {l : Local n} (h : l.resting = true) : l.call = .idle ∧ l.ebr.pc = .idle := by
  unfold Local.resting at h
  split at h
  · exact ⟨‹_›, ‹_›⟩
  · cases h

/-- What the records of the list hold for shard `i`: nodes or cells, as `f` picks them. -/
def recordsOf (d : Ebr.Domain (Scrap n)) (i : Fin n) (f : Garbage → Option ℕ) (rs : List ℕ) : List ℕ :=
  rs.filterMap fun r => (d.garbageOf r).bind fun x => if x.1 = i then f x.2 else none

omit [NeZero n] in
theorem mem_recordsOf {d : Ebr.Domain (Scrap n)} {i : Fin n} {f : Garbage → Option ℕ} {rs : List ℕ}
    {v : ℕ} : v ∈ recordsOf d i f rs ↔ ∃ r ∈ rs, ∃ g, d.garbageOf r = some (i, g) ∧ f g = some v := by
  simp only [recordsOf, List.mem_filterMap, Option.bind_eq_some_iff, Option.ite_none_right_eq_some]
  constructor
  · rintro ⟨r, hr, ⟨j, g⟩, hg, rfl, hv⟩
    exact ⟨r, hr, g, hg, hv⟩
  · rintro ⟨r, hr, g, hg, hv⟩
    exact ⟨r, hr, (i, g), hg, rfl, hv⟩

section Rest

variable {τ : Type} [DecidableEq τ] {maxLevel : ℕ} {s : Config τ (Shared n) (Local n)}

/-- With nothing on its way to the domain, its records hold what the shard has retired. -/
theorem recordsOf_perm (hs : ((managed n maxLevel).machine τ).Reachable s)
    (hidle : ∀ t, (s.loc t).ebr.pc = .idle) (i : Fin n) {f : Garbage → Option ℕ}
    (hf : ∀ g g' v, f g = some v → f g' = some v → g = g')
    (hnd : ((s.mem.shards i).retired.filterMap f).Nodup) :
    (recordsOf s.mem.dom i f (List.range s.mem.dom.recs.length)).Perm
      ((s.mem.shards i).retired.filterMap f) := by
  have h := handed hs
  have hknown := ((known n maxLevel).holds hs).shared
  have hnd' : (recordsOf s.mem.dom i f (List.range s.mem.dom.recs.length)).Nodup := by
    refine List.nodup_range.filterMap fun r r' v hr hr' => ?_
    simp only [Option.mem_def, Option.bind_eq_some_iff, Option.ite_none_right_eq_some] at hr hr'
    obtain ⟨⟨j, g⟩, hg, rfl, hv⟩ := hr
    obtain ⟨⟨j', g'⟩, hg', rfl, hv'⟩ := hr'
    obtain rfl := hf g g' v hv hv'
    exact h.once r r' _ hg hg'
  refine (List.perm_ext_iff_of_nodup hnd' hnd).mpr fun v => ?_
  rw [mem_recordsOf, List.mem_filterMap]
  constructor
  · rintro ⟨r, -, g, hg, hv⟩
    exact ⟨g, hknown r i g hg, hv⟩
  · rintro ⟨g, hg, hv⟩
    rcases h.complete i g hg with ⟨r, hr⟩ | ⟨u, hu⟩
    · refine ⟨r, ?_, g, hr, hv⟩
      rw [List.mem_range]
      by_contra hlt
      rw [Ebr.Domain.garbageOf, List.getElem?_eq_none (Nat.le_of_not_lt hlt)] at hr
      cases hr
    · cases (hidle u).symm.trans hu

/-- **Everything is freed once.**  Let no thread be in a call of the index or of the domain.  Every record of
the domain is freed or waits in one of the bags, once.  The walk of `drop` over a shard runs to its end and
meets no freed node, whatever the domain has freed so far.  And of each shard the nodes that lost a race, the
nodes of the records and the nodes of the walk are all the nodes, each once; the cells of the records and the
values of those nodes are all the cells, each once. -/
theorem index_frees_once (hmax : maxLevel < maxHeight)
    (hs : ((managed n maxLevel).machine τ).Reachable s)
    (hrest : ∀ t, (s.loc t).resting = true) :
    ∃ waiting : List ℕ,
      (s.mem.dom.dropped ++ waiting).Perm (List.range s.mem.dom.recs.length) ∧
      (∀ r ∈ waiting, ∃ b < Ebr.nBags, ∃ l, Linked s.mem.dom.nextOf (s.mem.dom.bags b) l ∧ r ∈ l) ∧
      ∀ i : Fin n, ∃ ch : List ℕ,
        (∀ fuel ≥ (s.mem.shards i).nodes.length,
          dropWalk (s.mem.shards i).nodes fuel
              ((s.mem.shards i).freed ++ recordsOf s.mem.dom i Garbage.buried s.mem.dom.dropped)
              (some SkipList.head) =
            some ((s.mem.shards i).freed ++
              recordsOf s.mem.dom i Garbage.buried s.mem.dom.dropped ++ ch)) ∧
        ((s.mem.shards i).freed ++
            recordsOf s.mem.dom i Garbage.buried (s.mem.dom.dropped ++ waiting) ++ ch).Perm
          (List.range (s.mem.shards i).nodes.length) ∧
        (recordsOf s.mem.dom i Garbage.dropped (s.mem.dom.dropped ++ waiting) ++
            ((s.mem.shards i).freed ++
              recordsOf s.mem.dom i Garbage.buried (s.mem.dom.dropped ++ waiting) ++ ch).filterMap
                (s.mem.shards i).nodes.valueOf).Perm
          (List.range (s.mem.shards i).cells.length) := by
  have hdom := Threads.reachable_of_restrict (P := Ebr.threads (Scrap n)) ((domain n maxLevel).reachable hs)
  have hidle : ∀ t, (s.loc t).ebr.pc = .idle := fun t => (Local.idle_of_resting (hrest t)).2
  obtain ⟨waiting, hperm, hwait⟩ := Ebr.waiting_of_idle hdom hidle
  refine ⟨waiting, hperm, hwait, fun i => ?_⟩
  have hlist := (list n maxLevel i).reachable hs
  have hlist' := Threads.reachable_of_restrict hlist
  obtain ⟨ch, hwalk, hnodes, hcells⟩ := SkipList.drop_frees_once hmax hlist fun t =>
    Local.callOn_of_idle (Local.idle_of_resting (hrest t)).1 i
  -- the records hold what the shard has retired
  have hburied : (recordsOf s.mem.dom i Garbage.buried (s.mem.dom.dropped ++ waiting)).Perm
      ((s.mem.shards i).retired.filterMap Garbage.buried) := by
    refine (hperm.filterMap _).trans (recordsOf_perm hs hidle i ?_ ?_)
    · intro g g' v hg hg'
      cases g <;> cases g' <;> simp_all [Garbage.buried]
    · exact (SkipList.graves_split hlist').nodup .retired
  have hdropped : (recordsOf s.mem.dom i Garbage.dropped (s.mem.dom.dropped ++ waiting)).Perm
      ((s.mem.shards i).retired.filterMap Garbage.dropped) := by
    refine (hperm.filterMap _).trans (recordsOf_perm hs hidle i ?_ ?_)
    · intro g g' v hg hg'
      cases g <;> cases g' <;> simp_all [Garbage.dropped]
    · exact (SkipList.holders_split hlist').nodup .retired
  have hall := (hburied.append_left (s.mem.shards i).freed).append_right ch
  refine ⟨ch, fun fuel hfuel => hwalk _ ?_ fuel hfuel, hall.trans hnodes,
    (hdropped.append (hall.filterMap _)).trans hcells⟩
  intro p hp
  refine hburied.subset ?_
  rw [recordsOf, List.filterMap_append]
  exact List.mem_append_left _ hp

end Rest

/-- Two threads insert key 7, and the first one loses the race; it frees its node and updates the value.  It
removes key 5, and two collections of the other thread free what was retired.  Then it updates key 7 again. -/
def settling : List (Bool × Action) :=
  List.flatten
    [[(false, .pin)], List.replicate 5 (false, .run true), [(false, .call (.insert [5] [1]) 1)],
      List.replicate 12 (false, .exec), [(true, .pin)], List.replicate 6 (true, .run true),
      [(false, .call (.insert [7] [2]) 1)], List.replicate 8 (false, .exec),
      [(true, .call (.insert [7] [3]) 1)], List.replicate 13 (true, .exec),
      List.replicate 8 (false, .exec), List.replicate 3 (false, .run true), [(false, .exec)],
      [(false, .call (.remove [5]) 0)], List.replicate 20 (false, .exec), List.replicate 3 (false, .run true),
      [(false, .exec), (false, .unpin), (true, .unpin), (true, .collect)], List.replicate 18 (true, .run true),
      [(true, .collect)], List.replicate 14 (true, .run true), [(false, .pin)],
      List.replicate 2 (false, .run true), [(false, .call (.insert [7] [4]) 0)], List.replicate 6 (false, .exec),
      List.replicate 3 (false, .run true), [(false, .exec), (false, .unpin)]]

/-- Of the five nodes the losing insert has freed one and the domain another, and a cell still waits in a bag;
the walk frees the other three nodes. -/
theorem index_frees_once_settling :
    ∃ (s : Config Bool (Shared 1) (Local 1)) (ch : List ℕ),
      ((s.mem.shards 0).freed = [3] ∧ recordsOf s.mem.dom 0 Garbage.buried s.mem.dom.dropped = [2] ∧
        s.mem.dom.dropped.length < s.mem.dom.recs.length) ∧
      dropWalk (s.mem.shards 0).nodes 5 [3, 2] (some SkipList.head) = some (3 :: 2 :: ch) ∧ ch.length = 3 := by
  have hrun : (Machine.runFn (managed 1 1).stepOf
      { mem := (managed 1 1).mem, loc := fun _ : Bool => (managed 1 1).loc } settling).any (fun s =>
        ((s.loc false).resting = true ∧ (s.loc true).resting = true) ∧
          ((s.mem.shards 0).freed = [3] ∧ recordsOf s.mem.dom 0 Garbage.buried s.mem.dom.dropped = [2] ∧
            s.mem.dom.dropped.length < s.mem.dom.recs.length) ∧
          (s.mem.shards 0).nodes.length = 5 ∧
          recordsOf s.mem.dom 0 Garbage.buried (List.range s.mem.dom.recs.length) = [2]) = true := by
    decide +kernel
  obtain ⟨s, hs, hend⟩ := (Option.any_eq_true _ _).mp hrun
  obtain ⟨⟨hrest, hrest'⟩, hparties, hnodes, hburied⟩ := of_decide_eq_true hend
  obtain ⟨waiting, hperm, -, h⟩ := index_frees_once (by decide) (Machine.reachable_of_runFn hs)
    (Bool.rec hrest hrest')
  obtain ⟨ch, hwalk, hall, -⟩ := h 0
  refine ⟨s, ch, hparties, ?_, ?_⟩
  · simpa [hparties.1, hparties.2.1] using hwalk 5 hnodes.le
  · have hrecords : (recordsOf s.mem.dom 0 Garbage.buried (s.mem.dom.dropped ++ waiting)).length = 1 :=
      (hperm.filterMap _).length_eq.trans (congrArg List.length hburied)
    have hcount := hall.length_eq
    rw [List.length_append, List.length_append, hrecords, hparties.1, List.length_range, hnodes,
      List.length_singleton] at hcount
    omega

end ZeroKv.Index
