/-
# ZeroKv.Index.Linear — the sharded index answers like one map, under any number of threads.

Every shard is linearizable by itself, and a call goes to one shard.  So the whole index is: the orders of the
shards merge into one, and since a key is always routed to the same shard, the maps of the shards together are
one map.  Nothing is assumed about guards here; what a run has to keep is the marks, as in each shard.
-/
import ZeroKv.Index.Program
import ZeroKv.Lib.Locality
import ZeroKv.Shard

namespace ZeroKv.Index

open SkipList (Mem Thread Choice Op Ret Garbage Regs Move keepsMarks mapSpec Dict)

variable {n : ℕ} [NeZero n]

/-- The shard that a call of the history went to. -/
def callShard (n : ℕ) [NeZero n] (id : ℕ) : Fin n := Fin.ofNat n id.unpair.1

theorem callShard_pair (i : Fin n) (j : ℕ) : callShard n (Nat.pair i j) = i := by
  simp [callShard]

/-- The threads that share the index, on runs whose stores overwrite no mark. -/
def marking (n : ℕ) [NeZero n] (maxLevel : ℕ) : Threads (Shared n) (Local n) Action :=
  (threads n maxLevel).restrict (meets keepsMarks)

/-- A shard in such a run. -/
def markingList (n : ℕ) [NeZero n] (maxLevel : ℕ) (i : Fin n) :
    Threads.Projection (marking n maxLevel) ((SkipList.threads maxLevel).restrict keepsMarks) :=
  onList n maxLevel keepsMarks (fun _ _ _ => rfl) _ (fun _ _ _ => id) i

/-! ## The history of the index and those of the shards -/

/-- A shard's own events come with the calls that it answers. -/
theorem hist_eq {maxLevel : ℕ} {m m' : Mem} {r : Regs} {pc : SkipList.Pc} {th : Thread}
    (hmv : Move maxLevel m r pc m' th) :
    m'.hist = m.hist ++ answers r.id pc := by
  cases hmv with
  | ret => rfl
  | insLen =>
      obtain ⟨n, hn⟩ := m.incLen_eq
      rw [hn]
      exact (List.append_nil _).symm
  | rmLen =>
      obtain ⟨n, hn⟩ := m.decLen_eq
      rw [hn]
      exact (List.append_nil _).symm
  | _ => exact (List.append_nil _).symm

omit [NeZero n] in
theorem answers_rename (i : Fin n) (id : ℕ) (pc : SkipList.Pc) :
    answers (Nat.pair i id) pc = (answers id pc).map (Event.rename (Nat.pair i)) := by
  cases pc <;> rfl

theorem made_answers (id : ℕ) (pc : SkipList.Pc) : (answers id pc).filterMap Event.made = [] := by
  cases pc <;> rfl

/-- The history of the index falls into those of the shards. -/
structure Recorded (m : Shared n) : Prop where
  parts : ∀ i, onPart (callShard n) m.hist i = (m.shards i).hist.map (Event.rename (Nat.pair i))
  routed : ∀ j o, .inv j o ∈ m.hist → Mesh.owner n o.key = callShard n j
  nodup : (callsMade m.hist).Nodup

/-- A new event of shard `i` is a new event of its part, and of no other. -/
theorem onPart_append {h : List (Event Op Ret)} {i : Fin n} {es : List (Event Op Ret)} (j : Fin n) :
    onPart (callShard n) (h ++ es.map (Event.rename (Nat.pair i))) j =
      onPart (callShard n) h j ++ if j = i then es.map (Event.rename (Nat.pair i)) else [] := by
  have hcall : ∀ e : Event Op Ret, callShard n (e.rename (Nat.pair i)).call = i := fun e => by
    cases e <;> exact callShard_pair i _
  rw [onPart, List.filter_append]
  congr 1
  by_cases hj : j = i
  · rw [if_pos hj, List.filter_eq_self]
    intro e he
    obtain ⟨e, -, rfl⟩ := List.mem_map.mp he
    simp [hcall, hj]
  · rw [if_neg hj, List.filter_eq_nil_iff]
    intro e he
    obtain ⟨e, -, rfl⟩ := List.mem_map.mp he
    simpa [hcall] using Ne.symm hj

/-- One shard goes on, and the history records what it does. -/
theorem Recorded.parts_step {m : Shared n} (h : Recorded m) {i : Fin n} {mem : Mem}
    (es : List (Event Op Ret)) (hmem : mem.hist = (m.shards i).hist ++ es) (j : Fin n) :
    onPart (callShard n) (m.hist ++ es.map (Event.rename (Nat.pair i))) j =
      (Function.update m.shards i mem j).hist.map (Event.rename (Nat.pair j)) := by
  rw [onPart_append, h.parts]
  by_cases hj : j = i
  · subst hj
    rw [if_pos rfl, Function.update_self, hmem, List.map_append]
  · rw [if_neg hj, Function.update_of_ne hj, List.append_nil]

/-- A call that is in the history of the index is in the history of its shard. -/
theorem Recorded.inv_shard {m : Shared n} (h : Recorded m) {i : Fin n} {j : ℕ} {o : Op}
    (hj : .inv (Nat.pair i j) o ∈ m.hist) : .inv j o ∈ (m.shards i).hist := by
  have hpart : .inv (Nat.pair i j) o ∈ onPart (callShard n) m.hist i :=
    List.mem_filter.mpr ⟨hj, decide_eq_true (callShard_pair i j)⟩
  rw [h.parts] at hpart
  obtain ⟨e, he, heq⟩ := List.mem_map.mp hpart
  cases e with
  | res => cases heq
  | inv j' o' =>
      obtain ⟨hid, rfl⟩ := Event.inv.inj heq
      rwa [← (Nat.pair_eq_pair.mp hid).2]

theorem mem_callsMade {h : List (Event Op Ret)} {j : ℕ} : j ∈ callsMade h ↔ ∃ o, .inv j o ∈ h := by
  rw [callsMade, List.mem_filterMap]
  constructor
  · rintro ⟨e, he, hj⟩
    cases e with
    | inv i o =>
        cases hj
        exact ⟨o, he⟩
    | res => cases hj
  · rintro ⟨o, ho⟩
    exact ⟨_, ho, rfl⟩

/-- A call is made; its number is new in its shard. -/
theorem Recorded.invoke {m : Shared n} (h : Recorded m) {i : Fin n} {op : Op}
    (hi : Mesh.owner n op.key = i) (hnew : ∀ o, .inv (m.shards i).calls o ∉ (m.shards i).hist) :
    Recorded { m with
      shards := Function.update m.shards i ((m.shards i).invoke op)
      hist := m.hist ++ [.inv (Nat.pair i (m.shards i).calls) op] } := by
  refine ⟨fun j => h.parts_step [.inv (m.shards i).calls op] rfl j, fun j o hj => ?_, ?_⟩
  · rcases List.mem_append.mp hj with hj | hj
    · exact h.routed j o hj
    · obtain ⟨rfl, rfl⟩ := Event.inv.inj (List.mem_singleton.mp hj)
      exact hi.trans (callShard_pair i _).symm
  · rw [callsMade, List.filterMap_append]
    refine List.nodup_append.mpr ⟨h.nodup, List.nodup_singleton _, ?_⟩
    rintro j hj j' hj' rfl
    obtain rfl := List.mem_singleton.mp hj'
    obtain ⟨o, ho⟩ := mem_callsMade.mp hj
    exact hnew o (h.inv_shard ho)

/-- A call goes on, or answers. -/
theorem Recorded.move {m : Shared n} (h : Recorded m) {i : Fin n} {maxLevel : ℕ} {mem : Mem} {r : Regs}
    {pc : SkipList.Pc} {th : Thread} (hmv : Move maxLevel (m.shards i) r pc mem th) :
    Recorded { m with
      shards := Function.update m.shards i mem
      hist := m.hist ++ answers (Nat.pair i r.id) pc } := by
  refine ⟨fun j => ?_, fun j o hj => ?_, ?_⟩
  · rw [answers_rename]
    exact h.parts_step _ (hist_eq hmv) j
  · refine h.routed j o ((List.mem_append.mp hj).resolve_right fun hj => ?_)
    cases pc <;> simp [answers] at hj
  · rw [callsMade, List.filterMap_append, made_answers, List.append_nil]
    exact h.nodup

section Run

variable {τ : Type} [DecidableEq τ] {maxLevel : ℕ} {s : Config τ (Shared n) (Local n)}

theorem recorded (hs : ((marking n maxLevel).machine τ).Reachable s) : Recorded s.mem := by
  refine hs.invariant (I := fun s => Recorded s.mem) ?_ ?_
  · rintro s rfl
    refine ⟨fun _ => rfl, fun j o h => ?_, List.nodup_nil⟩
    cases h
  · rintro s ⟨u, a⟩ t hr h hst
    obtain ⟨m', l', hml, rfl⟩ := Threads.stepOf_eq_some.mp hst
    cases stepTo_of_step (Threads.restrict_step.mp hml).2 with
    | start | unpin | run => exact ⟨h.parts, h.routed, h.nodup⟩
    | @call op topLevel hebr hguard hcall htop =>
        have hnum := (((SkipList.marked maxLevel keepsMarks fun _ _ _ => id).and
          (SkipList.calls maxLevel keepsMarks fun _ _ _ => id)).holds
            ((markingList n maxLevel (Mesh.owner n op.key)).reachable hr)).shared.2.2
        exact h.invoke rfl fun o ho => lt_irrefl _ (hnum.lt _ _ ho)
    | exec _ _ hmv => exact h.move hmv

/-! ## One map -/

/-- The maps of the shards are the parts of `μ`. -/
def Shares (n : ℕ) [NeZero n] (σ : Fin n → Dict) (μ : Dict) : Prop :=
  ∀ k, (σ (Mesh.owner n k)).lookup k = μ.lookup k

theorem Shares.run {σ : Fin n → Dict} {μ : Dict} (h : Shares n σ μ) (op : Op) :
    ((Spec.pi (fun o : Op => Mesh.owner n o.key) fun _ => mapSpec).run σ op).1 = (mapSpec.run μ op).1 ∧
      Shares n ((Spec.pi (fun o : Op => Mesh.owner n o.key) fun _ => mapSpec).run σ op).2
        (mapSpec.run μ op).2 := by
  obtain ⟨hret, hkey⟩ := Shard.mapSpec_local (h op.key)
  refine ⟨hret, fun k => ?_⟩
  by_cases hk : k = op.key
  · subst hk
    simpa only [Spec.pi, Function.update_self] using hkey
  · rw [Shard.mapSpec_lookup_of_ne μ hk, ← h k]
    by_cases hi : Mesh.owner n k = Mesh.owner n op.key
    · simp only [Spec.pi, hi, Function.update_self]
      exact Shard.mapSpec_lookup_of_ne _ hk
    · simp only [Spec.pi, Function.update_of_ne hi]

/-- The orders of the shards make one order of the index. -/
theorem Recorded.linearizable {m : Shared n} (hrec : Recorded m)
    (hshard : ∀ i, Linearizable mapSpec (m.shards i).hist) : Linearizable mapSpec m.hist := by
  have hparts : ∀ i, ∃ lin, Linearizes mapSpec (onPart (callShard n) m.hist i) lin := by
    intro i
    obtain ⟨lin, hlin⟩ := hshard i
    rw [hrec.parts]
    exact ⟨_, hlin.rename fun j j' h => (Nat.pair_eq_pair.mp h).2⟩
  choose lin hlin using hparts
  have hpi := Linearizes.locality hlin (fun o : Op => Mesh.owner n o.key) hrec.nodup hrec.routed
  exact hpi.simulate (R := Shares n) (fun k => rfl) fun σ μ op h => h.run op

theorem shard_linearizable (hs : ((marking n maxLevel).machine τ).Reachable s) (i : Fin n) :
    Linearizable mapSpec (s.mem.shards i).hist := by
  obtain ⟨G, hT, -⟩ := (SkipList.story maxLevel).holds ((markingList n maxLevel i).reachable hs)
  exact ⟨_, hT.explains⟩

/-- **The index is one map.**  In every run of the index whose stores overwrite no mark, with any number of
threads and of shards, the history of all the calls is linearizable to a single finite map. -/
theorem index_linearizable (hs : ((marking n maxLevel).machine τ).Reachable s) :
    Linearizable mapSpec s.mem.hist :=
  (recorded hs).linearizable (shard_linearizable hs)

end Run

/-- Two threads insert keys of different shards at the same time, each with a tower of two levels; then one
removes the first key while the other looks up the second. -/
def overlapping : List (Bool × Action) :=
  List.flatten
    [[(false, .pin)], List.replicate 5 (false, .run true), [(true, .pin)],
      List.replicate 6 (true, .run true), [(false, .call (.insert [5] [1]) 1)],
      List.replicate 8 (false, .exec), [(true, .call (.insert [6] [2]) 1)], List.replicate 12 (true, .exec),
      List.replicate 4 (false, .exec), [(true, .call (.remove [5]) 0)], List.replicate 13 (true, .exec),
      [(false, .call (.get [6]) 0)], List.replicate 7 (false, .exec), List.replicate 7 (true, .exec),
      List.replicate 3 (true, .run true), [(true, .exec)]]

/-- The history of that run. -/
def overlappingHist : List (Event Op Ret) :=
  [.inv (Nat.pair 0 0) (.insert [5] [1]), .inv (Nat.pair 1 0) (.insert [6] [2]),
    .res (Nat.pair 1 0) (.flag true), .res (Nat.pair 0 0) (.flag true), .inv (Nat.pair 0 1) (.remove [5]),
    .inv (Nat.pair 1 1) (.get [6]), .res (Nat.pair 1 1) (.value (some [2])),
    .res (Nat.pair 0 1) (.flag true)]

theorem index_linearizable_overlapping :
    ∃ s : Config Bool (Shared 2) (Local 2), s.mem.hist = overlappingHist ∧
      Linearizable mapSpec s.mem.hist := by
  have hrun : (Machine.runFn (marking 2 1).stepOf
      { mem := (marking 2 1).mem, loc := fun _ : Bool => (marking 2 1).loc } overlapping).any
        (fun s => s.mem.hist = overlappingHist) = true := by
    decide +kernel
  obtain ⟨s, hs, hend⟩ := (Option.any_eq_true _ _).mp hrun
  exact ⟨s, of_decide_eq_true hend, index_linearizable (Machine.reachable_of_runFn hs)⟩

end ZeroKv.Index
