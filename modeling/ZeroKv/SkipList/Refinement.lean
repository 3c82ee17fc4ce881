/-
# ZeroKv.SkipList.Refinement — run by one thread, the skiplist refines a finite map.

`Rep` ties a list at rest to a finite map from byte strings to byte strings: the nodes between the
sentinels hold the keys of the map, each with a cell that has the value.  Every call returns, answers as
the map does, and leaves a list at rest that holds the map after the call.
-/
import ZeroKv.SkipList.Sequential

namespace ZeroKv.SkipList

/-! ## The reference -/

/-- Finite maps from byte strings to byte strings. -/
abbrev Dict := Finmap fun _ : Bytes => Bytes

/-- What the index is for: `insert` says whether the key is new, `remove` whether it was there, and
`get` has the last value written. -/
def mapSpec : Spec Dict Op Ret where
  init := ∅
  run μ
    | .insert key val => (.flag (μ.lookup key).isNone, μ.insert key val)
    | .get key => (.value (μ.lookup key), μ)
    | .remove key => (.flag (μ.lookup key).isSome, μ.erase key)

/-- The answers of the reference to a sequence of calls, each with the number of keys after it. -/
def reference : Dict → List Op → List (Ret × ℕ)
  | _, [] => []
  | μ, op :: ops =>
      ((mapSpec.run μ op).1, (mapSpec.run μ op).2.keys.card) :: reference (mapSpec.run μ op).2 ops

/-! ## Calls of one thread -/

/-- What a call leaves: the memory, the cell a returned slice points into, and the value returned. -/
structure Outcome where
  mem : Mem
  borrow : Option ℕ
  ret : Ret

/-- Run to the return of the call, for at most `fuel` steps. -/
def finish (maxLevel : ℕ) : ℕ → Mem → Regs → Pc → Option Outcome
  | 0, _, _, _ => none
  | fuel + 1, m, r, pc =>
      match exec maxLevel m r pc with
      | some (m', .busy r' pc') => finish maxLevel fuel m' r' pc'
      | some (m', .idle) =>
          match pc with
          | .ret v => some ⟨m', r.borrow, v⟩
          | _ => none
      | none => none

/-- One call, run alone. -/
def call (maxLevel fuel : ℕ) (m : Mem) (op : Op) (topLevel : ℕ) : Option Outcome :=
  match step maxLevel m .idle (.call op topLevel) with
  | some (m', .busy r pc) => finish maxLevel fuel m' r pc
  | _ => none

/-- A sequence of calls, each with the height drawn for it: what they return, and `len()` after each. -/
def session (maxLevel fuel : ℕ) : Mem → List (Op × ℕ) → Option (List (Ret × ℕ))
  | _, [] => some []
  | m, (op, topLevel) :: calls => do
      let out ← call maxLevel fuel m op topLevel
      let rest ← session maxLevel fuel out.mem calls
      some ((out.ret, out.mem.len) :: rest)

/-- A run to the return gives the outcome, with enough fuel. -/
theorem finish_of_runs {maxLevel : ℕ} {m m' : Mem} {r r' : Regs} {pc : Pc} {v : Ret}
    (hrun : Runs maxLevel (m, r, pc) (m', r', .ret v)) :
    ∃ n, ∀ fuel ≥ n, finish maxLevel fuel m r pc = some ⟨m'.respond r'.id v, r'.borrow, v⟩ := by
  suffices h : ∀ x, Runs maxLevel x (m', r', .ret v) → ∃ n, ∀ fuel ≥ n,
      finish maxLevel fuel x.1 x.2.1 x.2.2 = some ⟨m'.respond r'.id v, r'.borrow, v⟩ from h _ hrun
  intro x hx
  induction hx using Relation.ReflTransGen.head_induction_on with
  | refl =>
      refine ⟨1, fun fuel hf => ?_⟩
      obtain ⟨k, rfl⟩ := Nat.exists_eq_add_of_le' hf
      rfl
  | head hxy _ ih =>
      obtain ⟨n, hn⟩ := ih
      refine ⟨n + 1, fun fuel hf => ?_⟩
      obtain ⟨k, rfl⟩ := Nat.exists_eq_add_of_le' (Nat.le_of_add_left_le hf)
      rw [finish, show exec maxLevel _ _ _ = _ from hxy]
      exact hn k (by omega)

/-- A call that runs to its return has an outcome, with enough fuel. -/
theorem call_of_runs {maxLevel : ℕ} {m m' : Mem} {r' : Regs} {op : Op} {topLevel : ℕ} {v : Ret}
    (htop : topLevel ≤ maxLevel)
    (hrun : Runs maxLevel (m.invoke op, .start m.calls op topLevel, .start maxLevel op)
      (m', r', .ret v)) :
    ∃ n, ∀ fuel ≥ n, call maxLevel fuel m op topLevel =
      some ⟨m'.respond r'.id v, r'.borrow, v⟩ := by
  obtain ⟨n, hn⟩ := finish_of_runs hrun
  refine ⟨n, fun fuel hf => ?_⟩
  simp only [call, step, htop, if_true]
  exact hn fuel hf

/-! ## The representation -/

/-- The memory `m`, with the nodes `all` in key order, is at rest and holds the map `μ`. -/
structure Rep (maxLevel : ℕ) (m : Mem) (all : List ℕ) (μ : Dict) : Prop where
  towers : Towers maxLevel m.nodes all
  /-- Every node between the sentinels has a key of the map and a cell with its value. -/
  stored : ∀ p ∈ all, p ≠ head → p ≠ tail → ∃ k c v, m.nodes.bound p = target k ∧
    m.nodes.valueOf p = some c ∧ m.cells[c]? = some v ∧ μ.lookup k = some v
  mapped : ∀ k ∈ μ, ∃ p ∈ all, m.nodes.bound p = target k
  len_eq : m.len = μ.keys.card % lenMod

theorem keys_card_insert {μ : Dict} {k v : Bytes} (hk : k ∉ μ) :
    (μ.insert k v).keys.card = μ.keys.card + 1 := by
  have hkeys : (μ.insert k v).keys = insert k μ.keys := by
    ext x
    simp [Finmap.mem_keys, Finmap.mem_insert]
  rw [hkeys, Finset.card_insert_of_notMem (mt Finmap.mem_keys.mp hk)]

theorem keys_insert_of_mem {μ : Dict} {k v : Bytes} (hk : k ∈ μ) : (μ.insert k v).keys = μ.keys := by
  ext x
  rw [Finmap.mem_keys, Finmap.mem_keys, Finmap.mem_insert]
  constructor
  · rintro (rfl | hx)
    · exact hk
    · exact hx
  · exact .inr

theorem keys_card_erase {μ : Dict} {k : Bytes} (hk : k ∈ μ) :
    (μ.erase k).keys.card + 1 = μ.keys.card := by
  rw [Finmap.keys_erase]
  exact Finset.card_erase_add_one (Finmap.mem_keys.mpr hk)

namespace Rep

variable {maxLevel : ℕ} {m : Mem} {all : List ℕ} {μ : Dict} {k : Bytes} {p : ℕ}

theorem ne_head (hr : Rep maxLevel m all μ) (hk : m.nodes.bound p = target k) : p ≠ head :=
  Heap.ne_head_of_le_bound hr.towers.head_key hk.ge

theorem ne_tail (hr : Rep maxLevel m all μ) (hk : m.nodes.bound p = target k) : p ≠ tail :=
  Heap.ne_tail_of_bound_le hr.towers.tail_key hk.le

/-- A node with the key has its value. -/
theorem hit (hr : Rep maxLevel m all μ) (hp : p ∈ all) (hk : m.nodes.bound p = target k) :
    ∃ c v, m.nodes.valueOf p = some c ∧ m.cells[c]? = some v ∧ μ.lookup k = some v := by
  obtain ⟨k', c, v, hk', hc, hv, hμ⟩ := hr.stored p hp (hr.ne_head hk) (hr.ne_tail hk)
  obtain rfl : k' = k := target_inj.mp (hk'.symm.trans hk)
  exact ⟨c, v, hc, hv, hμ⟩

/-- A key without a node is not in the map. -/
theorem miss (hr : Rep maxLevel m all μ) (hk : ∀ p ∈ all, m.nodes.bound p ≠ target k) : k ∉ μ := by
  intro hmem
  obtain ⟨p, hp, hpk⟩ := hr.mapped k hmem
  exact hk p hp hpk

/-- Only the nodes, the cells and the counter matter. -/
theorem congr (hr : Rep maxLevel m all μ) {m' : Mem} (hn : m'.nodes = m.nodes)
    (hc : m'.cells = m.cells) (hl : m'.len = m.len) : Rep maxLevel m' all μ where
  towers := hn ▸ hr.towers
  stored := by
    rw [hn, hc]
    exact hr.stored
  mapped := by
    rw [hn]
    exact hr.mapped
  len_eq := hl.trans hr.len_eq

/-- Every boxed value stays where it is. -/
theorem cells_append {c : ℕ} {v w : Bytes} (h : m.cells[c]? = some v) : (m.cells ++ [w])[c]? = some v := by
  rw [List.getElem?_append_left (List.getElem?_eq_some_iff.mp h).1]
  exact h

/-- After an update the node has the new cell. -/
theorem update (hr : Rep maxLevel m all μ) (hp : p ∈ all) (hk : m.nodes.bound p = target k)
    (v : Bytes) (g : Garbage) :
    Rep maxLevel (((m.boxValue v).swapValue p m.cells.length).retire g) all (μ.insert k v) := by
  have ht := hr.towers
  have hnodes : (((m.boxValue v).swapValue p m.cells.length).retire g).nodes =
    m.nodes.setValue p (some m.cells.length) := rfl
  obtain ⟨c₀, v₀, -, -, hμ⟩ := hr.hit hp hk
  have hmem : k ∈ μ := Finmap.mem_iff.mpr ⟨v₀, hμ⟩
  refine
    { towers := ht.setValue p (some m.cells.length)
      stored := ?_
      mapped := ?_
      len_eq := ?_ }
  · intro q hq hqh hqt
    obtain ⟨k', c, v', hk', hc, hv', hμ'⟩ := hr.stored q hq hqh hqt
    by_cases hqp : q = p
    · subst hqp
      refine ⟨k, m.cells.length, v, by simpa [hnodes] using hk, ?_, ?_, Finmap.lookup_insert _⟩
      · rw [hnodes, Heap.valueOf_setValue_self (ht.lt_length hq)]
      · exact List.getElem?_concat_length
    · have hne : k' ≠ k := by
        rintro rfl
        -- two nodes cannot have one key
        exact hqp ((ht.succAt_zero_eq hq hk').symm.trans (ht.succAt_zero_eq hp hk))
      refine ⟨k', c, v', by simpa [hnodes] using hk', ?_, cells_append hv', ?_⟩
      · rw [hnodes, Heap.valueOf_setValue_of_ne hqp, hc]
      · rw [Finmap.lookup_insert_of_ne _ hne, hμ']
  · intro k' hk'
    rcases Finmap.mem_insert.mp hk' with rfl | hk'
    · exact ⟨p, hp, by simpa [hnodes] using hk⟩
    · obtain ⟨q, hq, hqk⟩ := hr.mapped k' hk'
      exact ⟨q, hq, by simpa [hnodes] using hqk⟩
  · rw [keys_insert_of_mem hmem]
    exact hr.len_eq

/-- After an insert of a new key its tower is there. -/
theorem grown (hr : Rep maxLevel m all μ) (hnew : ∀ p ∈ all, m.nodes.bound p ≠ target k) (v : Bytes)
    {top : ℕ} (htop : top ≤ maxLevel) {h' : Heap}
    (hg : Growing m.nodes (predAt m.nodes k all) (succAt m.nodes k all) m.nodes.length top k
      m.cells.length (top + 1) (top + 1) h') :
    Rep maxLevel ({ m.boxValue v with nodes := h' } : Mem).incLen
      (below m.nodes k all ++ m.nodes.length :: above m.nodes k all) (μ.insert k v) := by
  have ht := hr.towers
  have hz : m.nodes.length ∉ all := fun h => (ht.lt_length h).ne rfl
  have hmem : ∀ q, q ∈ below m.nodes k all ++ m.nodes.length :: above m.nodes k all ↔
      q = m.nodes.length ∨ q ∈ all := by
    intro q
    conv_rhs => rw [← below_append_above k ht.sorted]
    simp only [List.mem_append, List.mem_cons]
    tauto
  refine { towers := hg.towers ht hz htop hnew, stored := ?_, mapped := ?_, len_eq := ?_ }
  · intro q hq hqh hqt
    rcases (hmem q).mp hq with rfl | hqa
    · exact ⟨k, m.cells.length, v, hg.new_bound, hg.new_value, List.getElem?_concat_length,
        Finmap.lookup_insert _⟩
    · have hqz : q ≠ m.nodes.length := fun e => hz (e ▸ hqa)
      obtain ⟨k', c, v', hk', hc, hv', hμ'⟩ := hr.stored q hqa hqh hqt
      have hne : k' ≠ k := by
        rintro rfl
        exact hnew q hqa hk'
      refine ⟨k', c, v', ?_, ?_, cells_append hv', ?_⟩
      · exact (hg.bound_eq hqz).trans hk'
      · exact (hg.value_eq q hqz).trans hc
      · rw [Finmap.lookup_insert_of_ne _ hne, hμ']
  · intro k' hk'
    rcases Finmap.mem_insert.mp hk' with rfl | hk'
    · exact ⟨m.nodes.length, (hmem _).mpr (.inl rfl), hg.new_bound⟩
    · obtain ⟨q, hq, hqk⟩ := hr.mapped k' hk'
      exact ⟨q, (hmem q).mpr (.inr hq), (hg.bound_eq fun e => hz (e ▸ hq)).trans hqk⟩
  · rw [keys_card_insert (hr.miss hnew)]
    show (m.len + 1) % lenMod = _
    rw [hr.len_eq, Nat.mod_add_mod]

/-- After a remove the node is gone. -/
theorem shrunk (hr : Rep maxLevel m all μ) {n : ℕ} {rest : List ℕ}
    (hh : Holds maxLevel m.nodes all k n rest) {h' : Heap}
    (hs : Shrinking m.nodes (predAt m.nodes k all) (nextAt m.nodes rest) n 0 0 h') (g : Garbage) :
    Rep maxLevel ((({ m with nodes := h' } : Mem).decLen).retire g) (below m.nodes k all ++ rest)
      (μ.erase k) := by
  have hn : n ∈ all := hh.mem_all.mpr (.inr (.inl rfl))
  obtain ⟨c₀, v₀, -, -, hμ⟩ := hr.hit hn hh.bound_eq
  have hcard := keys_card_erase (Finmap.mem_iff.mpr ⟨v₀, hμ⟩ : k ∈ μ)
  refine { towers := hh.towers_of_shrinking hs, stored := ?_, mapped := ?_, len_eq := ?_ }
  · intro q hq hqh hqt
    obtain ⟨hqa, hqn⟩ := hh.mem_rest.mp hq
    obtain ⟨k', c, v', hk', hc, hv', hμ'⟩ := hr.stored q hqa hqh hqt
    have hne : k' ≠ k := by
      rintro rfl
      exact hqn ((hr.towers.succAt_zero_eq hqa hk').symm.trans
        (hr.towers.succAt_zero_eq hn hh.bound_eq))
    refine ⟨k', c, v', (hs.bound_eq q).trans hk', (congrFun hs.value_eq q).trans hc, hv', ?_⟩
    rw [Finmap.lookup_erase_ne hne, hμ']
  · intro k' hk'
    obtain ⟨hne, hk'⟩ := Finmap.mem_erase.mp hk'
    obtain ⟨q, hq, hqk⟩ := hr.mapped k' hk'
    refine ⟨q, hh.mem_rest.mpr ⟨hq, ?_⟩, (hs.bound_eq q).trans hqk⟩
    rintro rfl
    exact hne (target_inj.mp (hqk.symm.trans hh.bound_eq))
  · show (m.len + (lenMod - 1)) % lenMod = _
    rw [hr.len_eq, Nat.mod_add_mod, ← hcard]
    have hpos : 0 < lenMod := by decide
    rw [show (μ.erase k).keys.card + 1 + (lenMod - 1) = (μ.erase k).keys.card + lenMod by omega,
      Nat.add_mod_right]

end Rep

/-! ## Every call refines the map -/

/-- How a call on a list at rest ends: it found the key or it did not, and left the memory accordingly. -/
inductive Called (maxLevel : ℕ) (m : Mem) (all : List ℕ) (topLevel : ℕ) : Op → Outcome → Prop
  | got {key p c id} (hp : p ∈ all) (hk : m.nodes.bound p = target key)
      (hc : m.nodes.valueOf p = some c) :
      Called maxLevel m all topLevel (.get key)
        ⟨(m.invoke (.get key)).respond id (.value (some (m.cells.getD c []))), some c,
          .value (some (m.cells.getD c []))⟩
  | missed {key id} (hk : ∀ p ∈ all, m.nodes.bound p ≠ target key) :
      Called maxLevel m all topLevel (.get key)
        ⟨(m.invoke (.get key)).respond id (.value none), none, .value none⟩
  | updated {key val p c id b} (hp : p ∈ all) (hk : m.nodes.bound p = target key)
      (hc : m.nodes.valueOf p = some c) :
      Called maxLevel m all topLevel (.insert key val)
        ⟨((((m.invoke (.insert key val)).boxValue val).swapValue p m.cells.length).retire
          (.cell c)).respond id (.flag false), b, .flag false⟩
  | inserted {key val h' id b} (hk : ∀ p ∈ all, m.nodes.bound p ≠ target key)
      (hg : Growing m.nodes (predAt m.nodes key all) (succAt m.nodes key all) m.nodes.length topLevel
        key m.cells.length (topLevel + 1) (topLevel + 1) h') :
      Called maxLevel m all topLevel (.insert key val)
        ⟨(({ (m.invoke (.insert key val)).boxValue val with nodes := h' } : Mem).incLen).respond id
          (.flag true), b, .flag true⟩
  | removed {key n rest h' id b} (hh : Holds maxLevel m.nodes all key n rest)
      (hs : Shrinking m.nodes (predAt m.nodes key all) (nextAt m.nodes rest) n 0 0 h') :
      Called maxLevel m all topLevel (.remove key)
        ⟨((({ m.invoke (.remove key) with nodes := h' } : Mem).decLen).retire (.node n)).respond id
          (.flag true), b, .flag true⟩
  | absent {key id b} (hk : ∀ p ∈ all, m.nodes.bound p ≠ target key) :
      Called maxLevel m all topLevel (.remove key)
        ⟨(m.invoke (.remove key)).respond id (.flag false), b, .flag false⟩

/-- A call on a list at rest returns. -/
theorem Rep.called {maxLevel : ℕ} {m : Mem} {all : List ℕ} {μ : Dict} (hr : Rep maxLevel m all μ)
    (op : Op) {topLevel : ℕ} (htop : topLevel ≤ maxLevel) :
    ∃ out, (∃ n, ∀ fuel ≥ n, SkipList.call maxLevel fuel m op topLevel = some out) ∧
      Called maxLevel m all topLevel op out := by
  -- the locals are named, so that the runs are found by their key alone
  obtain ⟨r, hr₀⟩ : ∃ r, r = Regs.start m.calls op topLevel := ⟨_, rfl⟩
  have ht : Towers maxLevel (m.invoke op).nodes all := hr.towers
  by_cases hk : ∃ p ∈ all, (m.invoke op).nodes.bound p = target r.key
  · obtain ⟨p, hp, hpk⟩ := hk
    obtain ⟨c, v, hc, -, -⟩ := hr.hit hp hpk
    cases op with
    | insert key val =>
        obtain ⟨r', -, hrun⟩ := ht.insert_update hp hpk hc
        rw [hr₀] at hrun hpk
        exact ⟨_, call_of_runs htop hrun, .updated hp hpk hc⟩
    | get key =>
        have hrun := ht.get_hit hp hpk hc
        rw [hr₀] at hrun hpk
        exact ⟨_, call_of_runs htop hrun, .got hp hpk hc⟩
    | remove key =>
        obtain ⟨rest, hh⟩ := ht.holds hp hpk
        obtain ⟨h', r', -, hs, hrun⟩ := hh.remove_hit
        rw [hr₀] at hrun hs hh
        exact ⟨_, call_of_runs htop hrun, .removed hh hs⟩
  · have hnew : ∀ p ∈ all, (m.invoke op).nodes.bound p ≠ target r.key := by
      intro p hp he
      exact hk ⟨p, hp, he⟩
    cases op with
    | insert key val =>
        have htop' : r.topLevel ≤ maxLevel := by rw [hr₀]; exact htop
        obtain ⟨h', r', -, hg, hrun⟩ := ht.insert_new htop' hnew
        rw [hr₀] at hrun hg hnew
        exact ⟨_, call_of_runs htop hrun, .inserted hnew hg⟩
    | get key =>
        have hrun := ht.get_miss hnew
        rw [hr₀] at hrun hnew
        exact ⟨_, call_of_runs htop hrun, .missed hnew⟩
    | remove key =>
        obtain ⟨r', -, hrun⟩ := ht.remove_miss hnew
        rw [hr₀] at hrun hnew
        exact ⟨_, call_of_runs htop hrun, .absent hnew⟩

/-- The nodes in key order after a call. -/
def nodesAfter (m : Mem) (all : List ℕ) (op : Op) (out : Outcome) : List ℕ :=
  match op, out.ret with
  | .insert key _, .flag true => below m.nodes key all ++ m.nodes.length :: above m.nodes key all
  | .remove key, .flag true => below m.nodes key all ++ (above m.nodes key all).tail
  | _, _ => all

/-- **A call answers as the map does**, and leaves the list holding the map after the call. -/
theorem Rep.of_called {maxLevel : ℕ} {m : Mem} {all : List ℕ} {μ : Dict} {op : Op} {topLevel : ℕ}
    {out : Outcome} (hr : Rep maxLevel m all μ) (htop : topLevel ≤ maxLevel)
    (hc : Called maxLevel m all topLevel op out) :
    out.ret = (mapSpec.run μ op).1 ∧
      Rep maxLevel out.mem (nodesAfter m all op out) (mapSpec.run μ op).2 := by
  cases hc with
  | @got key p c id hp hk hc =>
      obtain ⟨c', v, hc', hv, hμ⟩ := hr.hit hp hk
      obtain rfl : c = c' := Option.some.inj (hc.symm.trans hc')
      exact ⟨by simp [mapSpec, hμ, List.getD, hv], hr.congr rfl rfl rfl⟩
  | @missed key id hk =>
      have hμ : μ.lookup key = none := Finmap.lookup_eq_none.mpr (hr.miss hk)
      exact ⟨by simp [mapSpec, hμ], hr.congr rfl rfl rfl⟩
  -- three calls change the list: one swaps a cell, one links a node, one takes a node out
  | @updated key val p c id b hp hk hc =>
      obtain ⟨c', v, -, -, hμ⟩ := hr.hit hp hk
      exact ⟨by simp [mapSpec, hμ], (hr.update hp hk val (.cell c)).congr rfl rfl rfl⟩
  | @inserted key val h' id b hk hg =>
      have hμ : μ.lookup key = none := Finmap.lookup_eq_none.mpr (hr.miss hk)
      exact ⟨by simp [mapSpec, hμ], (hr.grown hk val htop hg).congr rfl rfl rfl⟩
  | @removed key n rest h' id b hh hs =>
      obtain ⟨c, v, -, -, hμ⟩ := hr.hit (hh.mem_all.mpr (.inr (.inl rfl))) hh.bound_eq
      refine ⟨by simp [mapSpec, hμ], ?_⟩
      have hrest : (above m.nodes key all).tail = rest := by rw [hh.above_eq]; rfl
      simp only [nodesAfter, hrest]
      exact (hr.shrunk hh hs (.node n)).congr rfl rfl rfl
  | @absent key id b hk =>
      have hμ : μ.lookup key = none := Finmap.lookup_eq_none.mpr (hr.miss hk)
      have herase : μ.erase key = μ := by
        refine Finmap.ext_lookup fun x => ?_
        by_cases hx : x = key
        · subst hx
          rw [Finmap.lookup_erase, hμ]
        · rw [Finmap.lookup_erase_ne hx]
      refine ⟨by simp [mapSpec, hμ], ?_⟩
      show Rep maxLevel _ all (μ.erase key)
      rw [herase]
      exact hr.congr rfl rfl rfl

theorem Rep.call {maxLevel : ℕ} {m : Mem} {all : List ℕ} {μ : Dict} (hr : Rep maxLevel m all μ)
    (op : Op) {topLevel : ℕ} (htop : topLevel ≤ maxLevel) :
    ∃ all' out, (∃ n, ∀ fuel ≥ n, SkipList.call maxLevel fuel m op topLevel = some out) ∧
      out.ret = (mapSpec.run μ op).1 ∧ Rep maxLevel out.mem all' (mapSpec.run μ op).2 := by
  obtain ⟨out, hcall, hcalled⟩ := hr.called op htop
  obtain ⟨hret, hrep⟩ := hr.of_called htop hcalled
  exact ⟨_, out, hcall, hret, hrep⟩

/-- The empty list holds the empty map. -/
theorem rep_withMaxLevel {maxLevel : ℕ} (hmax : maxLevel ≤ maxHeight - 1) :
    Rep maxLevel .withMaxLevel [head, tail] ∅ := by
  have htail : ∀ l ≤ maxLevel, Mem.withMaxLevel.nodes.link tail l = some ⟨none, false⟩ := by
    intro l hl
    have hlt : l < maxHeight := by
      have : maxHeight = 16 := rfl
      omega
    simp [Heap.link, readField, Mem.withMaxLevel, sentinel, tail, hlt]
  have hhead : ∀ l ≤ maxLevel, Mem.withMaxLevel.nodes.link head l = some ⟨some tail, false⟩ := by
    intro l hl
    have hlt : l < maxHeight := by
      have : maxHeight = 16 := rfl
      omega
    simp [Heap.link, readField, Mem.withMaxLevel, sentinel, head, hlt]
  refine
    { towers :=
        { sorted := ?_, head_mem := by simp, tail_mem := by simp, head_key := rfl, tail_key := rfl
          head_top := hmax, tail_top := hmax, inner_top := by simp, path := ?_
          tail_link := htail }
      stored := by simp
      mapped := fun k hk => absurd hk (Finmap.notMem_empty)
      len_eq := rfl }
  · refine List.pairwise_pair.mpr ?_
    exact (bot_lt_target []).trans (target_lt_top [])
  · intro l hl
    have htop : ∀ p ∈ [head, tail], l ≤ Mem.withMaxLevel.nodes.topOf p := by
      rintro p hp
      rcases List.mem_pair.mp hp with rfl | rfl <;> exact hl.trans hmax
    rw [reach, List.filter_eq_self.mpr (by simpa using htop)]
    exact List.isChain_pair.mpr (hhead l hl)

/-- What a call gave against what the reference gives: the same answer, and `len()` is the number of
keys, as long as there are fewer than `2^64`. -/
def Agrees (o x : Ret × ℕ) : Prop := o.1 = x.1 ∧ (x.2 < lenMod → o.2 = x.2)

theorem Rep.session {maxLevel : ℕ} (calls : List (Op × ℕ)) :
    ∀ {m : Mem} {all : List ℕ} {μ : Dict}, Rep maxLevel m all μ → (∀ c ∈ calls, c.2 ≤ maxLevel) →
      ∃ n, ∀ fuel ≥ n, ∃ out, session maxLevel fuel m calls = some out ∧
        List.Forall₂ Agrees out (reference μ (calls.map Prod.fst)) := by
  induction calls with
  | nil => exact fun _ _ => ⟨0, fun fuel _ => ⟨[], rfl, .nil⟩⟩
  | cons c calls ih =>
      obtain ⟨op, topLevel⟩ := c
      intro m all μ hr htop
      obtain ⟨all', o, ⟨n₁, hn₁⟩, hret, hr'⟩ := hr.call op (htop _ List.mem_cons_self)
      obtain ⟨n₂, hn₂⟩ := ih hr' fun c hc => htop c (List.mem_cons_of_mem _ hc)
      refine ⟨max n₁ n₂, fun fuel hf => ?_⟩
      obtain ⟨out, hout, hagree⟩ := hn₂ fuel (le_of_max_le_right hf)
      refine ⟨(o.ret, o.mem.len) :: out, ?_, .cons ⟨hret, fun hlt => ?_⟩ hagree⟩
      · simp [SkipList.session, hn₁ fuel (le_of_max_le_left hf), hout]
      · rw [hr'.len_eq]
        exact Nat.mod_eq_of_lt hlt

/-- **Run by one thread, the skiplist refines a finite map.**  For every height, every sequence of calls
and every choice of tower heights, every call returns; its answer is that of the reference, and `len()`
is the number of keys after the call. -/
theorem session_refines_map {maxLevel : ℕ} (hmax : maxLevel ≤ 15) (calls : List (Op × ℕ))
    (htop : ∀ c ∈ calls, c.2 ≤ maxLevel) :
    ∃ n, ∀ fuel ≥ n, ∃ out, session maxLevel fuel .withMaxLevel calls = some out ∧
      List.Forall₂ Agrees out (reference ∅ (calls.map Prod.fst)) :=
  (rep_withMaxLevel hmax).session calls htop

/-- The same for a few calls on a list of height two, one of them with the empty key. -/
theorem session_refines_map_sample :
    ∃ n, ∀ fuel ≥ n, ∃ out,
      session 1 fuel .withMaxLevel [(.insert [] [1], 1), (.insert [7] [2], 0), (.remove [], 0),
        (.get [7], 0)] = some out ∧
      List.Forall₂ Agrees out
        (reference ∅ [.insert [] [1], .insert [7] [2], .remove [], .get [7]]) :=
  session_refines_map (by decide) [(.insert [] [1], 1), (.insert [7] [2], 0), (.remove [], 0),
    (.get [7], 0)] (by decide)

end ZeroKv.SkipList
