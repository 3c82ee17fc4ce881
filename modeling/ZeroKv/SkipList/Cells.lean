/-
# ZeroKv.SkipList.Cells — which cell has the value of which key.

A slice returned by `get` points into a value cell.  For the question how long that cell lives, the
skiplist run by one thread is a table from keys to cells: an insert puts a fresh cell under its key, and
the cell that an insert or a remove displaces goes into the one piece of garbage the call retires, either
alone or inside the removed node.
-/
import ZeroKv.SkipList.Refinement

namespace ZeroKv.SkipList

/-- The value of `key` is in cell `c`. -/
def InCell (m : Mem) (all : List ℕ) (key : Bytes) (c : ℕ) : Prop :=
  ∃ p ∈ all, m.nodes.bound p = target key ∧ m.nodes.valueOf p = some c

/-- The cell that is freed with a piece of garbage: `drop_value` frees the cell it is given, `drop_node`
the cell the node points to. -/
def Garbage.frees (m : Mem) : Garbage → Option ℕ
  | .cell c => some c
  | .node p => m.nodes.valueOf p

/-- Does the call displace the value it finds? -/
def Op.writes : Op → Bool
  | .get _ => false
  | .insert _ _ | .remove _ => true

/-- What a call does to the table of cells; `g` is the garbage it retires. -/
structure CellEffect (m m' : Mem) (all all' : List ℕ) (op : Op) (g : Option Garbage) : Prop where
  retired : m'.retired = m.retired ++ g.toList
  /-- The node of retired garbage keeps its cell and stays out of the list. -/
  frozen : ∀ p c, p ∉ all → m.nodes.valueOf p = some c → p ∉ all' ∧ m'.nodes.valueOf p = some c
  displaced : ∀ c, InCell m all op.key c → op.writes = true → ∃ x, g = some x ∧ x.frees m' = some c
  garbage : ∀ x, g = some x → op.writes = true ∧
    (∀ p, x = .node p → p ∉ all') ∧ ∃ c, InCell m all op.key c ∧ x.frees m' = some c
  kept : ∀ k c, k ≠ op.key → (InCell m' all' k c ↔ InCell m all k c)
  stored : ∀ c, InCell m' all' op.key c ↔
    match op with
    | .get _ => InCell m all op.key c
    | .insert _ _ => c = m.cells.length
    | .remove _ => False
  cells_le : m.cells.length ≤ m'.cells.length
  cells_lt : (∃ key val, op = .insert key val) → m.cells.length < m'.cells.length

section

variable {maxLevel : ℕ} {m : Mem} {all : List ℕ} {μ : Dict} {k : Bytes} {c c' : ℕ}

namespace Rep

/-- A key has one cell. -/
theorem inCell_unique (hr : Rep maxLevel m all μ) (h : InCell m all k c) (h' : InCell m all k c') :
    c = c' := by
  obtain ⟨p, hp, hk, hc⟩ := h
  obtain ⟨p', hp', hk', hc'⟩ := h'
  obtain rfl : p = p' :=
    (hr.towers.succAt_zero_eq hp hk).symm.trans (hr.towers.succAt_zero_eq hp' hk')
  exact Option.some.inj (hc.symm.trans hc')

/-- The cell of a key has been allocated. -/
theorem inCell_lt (hr : Rep maxLevel m all μ) (h : InCell m all k c) : c < m.cells.length := by
  obtain ⟨p, hp, hk, hc⟩ := h
  obtain ⟨c', v, hc', hv, -⟩ := hr.hit hp hk
  obtain rfl : c = c' := Option.some.inj (hc.symm.trans hc')
  exact (List.getElem?_eq_some_iff.mp hv).1

theorem not_inCell (hk : ∀ p ∈ all, m.nodes.bound p ≠ target k) : ¬ InCell m all k c := by
  rintro ⟨p, hp, hpk, -⟩
  exact hk p hp hpk

end Rep

/-- A call that leaves the memory alone: a `get`, or a `remove` that finds nothing. -/
theorem CellEffect.same {m' : Mem} {op : Op} (hn : m'.nodes = m.nodes) (hr : m'.retired = m.retired)
    (hc : m'.cells = m.cells)
    (hop : (∃ key, op = .get key) ∨ ∃ key, op = .remove key ∧ ∀ c, ¬ InCell m all key c) :
    CellEffect m m' all all op none := by
  have hsame : ∀ k c, InCell m' all k c ↔ InCell m all k c := by
    intro k c
    simp only [InCell, hn]
  refine ⟨by simp [hr], fun p c hp hv => ⟨hp, by rw [hn]; exact hv⟩, ?_, nofun, fun k c _ => hsame k c,
    ?_, by rw [hc], ?_⟩
  · intro c hin hw
    rcases hop with ⟨key, rfl⟩ | ⟨key, rfl, hnone⟩
    · cases hw
    · exact absurd hin (hnone c)
  · intro c
    rw [hsame]
    rcases hop with ⟨key, rfl⟩ | ⟨key, rfl, hnone⟩
    · exact Iff.rfl
    · exact iff_of_false (hnone c) id
  · rintro ⟨key, val, rfl⟩
    rcases hop with ⟨_, he⟩ | ⟨_, he, -⟩ <;> cases he

/-- An update swaps the cell of its key. -/
theorem Rep.cells_updated (hr : Rep maxLevel m all μ) {key val : Bytes} {p : ℕ} {m' : Mem} (hp : p ∈ all)
    (hk : m.nodes.bound p = target key) (hc : m.nodes.valueOf p = some c)
    (hn : m'.nodes = m.nodes.setValue p (some m.cells.length))
    (hret : m'.retired = m.retired ++ [.cell c]) (hcells : m'.cells = m.cells ++ [val]) :
    CellEffect m m' all all (.insert key val) (some (.cell c)) := by
  have ht := hr.towers
  have hin : InCell m all key c := ⟨p, hp, hk, hc⟩
  -- the sorted chain has one node of this key
  have hone : ∀ q ∈ all, m.nodes.bound q = target key → q = p := fun q hq hqk =>
    (ht.succAt_zero_eq hq hqk).symm.trans (ht.succAt_zero_eq hp hk)
  have hnew : m'.nodes.valueOf p = some m.cells.length := by
    rw [hn, Heap.valueOf_setValue_self (ht.lt_length hp)]
  have hold : ∀ q, q ≠ p → m'.nodes.valueOf q = m.nodes.valueOf q := by
    intro q hq
    rw [hn, Heap.valueOf_setValue_of_ne hq]
  have hbound : ∀ q, m'.nodes.bound q = m.nodes.bound q := by
    intro q
    rw [hn, Heap.bound_setValue]
  refine ⟨hret, ?_, ?_, ?_, ?_, ?_, by rw [hcells]; simp, fun _ => by rw [hcells]; simp⟩
  · intro q c' hq hv
    exact ⟨hq, (hold q fun he => hq (he ▸ hp)).trans hv⟩
  · intro c' hin' _
    exact ⟨_, rfl, congrArg some (hr.inCell_unique hin hin')⟩
  · rintro x ⟨⟩
    exact ⟨rfl, nofun, c, hin, rfl⟩
  · intro k c' hne
    have hother : ∀ q ∈ all, m.nodes.bound q = target k → q ≠ p := by
      rintro q hq hqk rfl
      exact hne (target_inj.mp (hqk.symm.trans hk))
    constructor
    · rintro ⟨q, hq, hqk, hqc⟩
      rw [hbound] at hqk
      exact ⟨q, hq, hqk, (hold q (hother q hq hqk)).symm.trans hqc⟩
    · rintro ⟨q, hq, hqk, hqc⟩
      exact ⟨q, hq, (hbound q).trans hqk, (hold q (hother q hq hqk)).trans hqc⟩
  · intro c'
    constructor
    · rintro ⟨q, hq, hqk, hqc⟩
      rw [hbound] at hqk
      rw [hone q hq hqk, hnew] at hqc
      exact (Option.some.inj hqc).symm
    · rintro rfl
      exact ⟨p, hp, (hbound p).trans hk, hnew⟩

/-- An insert of a new key puts a fresh cell under it. -/
theorem Rep.cells_inserted (hr : Rep maxLevel m all μ) {key val : Bytes} {topLevel : ℕ} {h' : Heap}
    {m' : Mem} (hk : ∀ p ∈ all, m.nodes.bound p ≠ target key)
    (hg : Growing m.nodes (predAt m.nodes key all) (succAt m.nodes key all) m.nodes.length topLevel key
      m.cells.length (topLevel + 1) (topLevel + 1) h') (hn : m'.nodes = h')
    (hret : m'.retired = m.retired) (hcells : m'.cells = m.cells ++ [val]) :
    CellEffect m m' all (below m.nodes key all ++ m.nodes.length :: above m.nodes key all)
      (.insert key val) none := by
  have ht := hr.towers
  have hz : m.nodes.length ∉ all := fun h => (ht.lt_length h).ne rfl
  have hmem : ∀ q, q ∈ below m.nodes key all ++ m.nodes.length :: above m.nodes key all ↔
      q = m.nodes.length ∨ q ∈ all := by
    intro q
    conv_rhs => rw [← below_append_above key ht.sorted]
    simp only [List.mem_append, List.mem_cons]
    tauto
  -- the new node is the next index, which had no value before
  have hfresh : ∀ q c', m.nodes.valueOf q = some c' → q ≠ m.nodes.length := by
    rintro q c' hv rfl
    simp [Heap.valueOf, readField] at hv
  refine ⟨by simp [hret], ?_, ?_, by simp, ?_, ?_, by rw [hcells]; simp, fun _ => by rw [hcells]; simp⟩
  · intro q c' hq hv
    have hne := hfresh q c' hv
    refine ⟨fun hm => ((hmem q).mp hm).elim hne hq, ?_⟩
    rw [hn, hg.value_eq q hne, hv]
  · intro c' hin _
    exact absurd hin (not_inCell hk)
  · intro k c' hne
    constructor
    · rintro ⟨q, hq, hqk, hqc⟩
      rw [hn] at hqk hqc
      rcases (hmem q).mp hq with rfl | hqa
      · exact absurd (target_inj.mp (hqk.symm.trans hg.new_bound)) hne
      · have hqz : q ≠ m.nodes.length := fun e => hz (e ▸ hqa)
        exact ⟨q, hqa, (hg.bound_eq hqz).symm.trans hqk, (hg.value_eq q hqz).symm.trans hqc⟩
    · rintro ⟨q, hqa, hqk, hqc⟩
      have hqz : q ≠ m.nodes.length := fun e => hz (e ▸ hqa)
      refine ⟨q, (hmem q).mpr (.inr hqa), ?_, ?_⟩
      · rw [hn, hg.bound_eq hqz, hqk]
      · rw [hn, hg.value_eq q hqz, hqc]
  · intro c'
    constructor
    · rintro ⟨q, hq, hqk, hqc⟩
      rw [hn] at hqk hqc
      rcases (hmem q).mp hq with rfl | hqa
      · exact (Option.some.inj (hg.new_value.symm.trans hqc)).symm
      · have hqz : q ≠ m.nodes.length := fun e => hz (e ▸ hqa)
        exact absurd ((hg.bound_eq hqz).symm.trans hqk) (hk q hqa)
    · rintro rfl
      exact ⟨m.nodes.length, (hmem _).mpr (.inl rfl), hn ▸ hg.new_bound, hn ▸ hg.new_value⟩

/-- A remove takes the cell away with the node. -/
theorem Rep.cells_removed (hr : Rep maxLevel m all μ) {key : Bytes} {n : ℕ} {rest : List ℕ} {h' : Heap}
    {m' : Mem} (hh : Holds maxLevel m.nodes all key n rest)
    (hs : Shrinking m.nodes (predAt m.nodes key all) (nextAt m.nodes rest) n 0 0 h')
    (hn : m'.nodes = h') (hret : m'.retired = m.retired ++ [.node n]) (hcells : m'.cells = m.cells) :
    CellEffect m m' all (below m.nodes key all ++ rest) (.remove key) (some (.node n)) := by
  have hna : n ∈ all := hh.mem_all.mpr (.inr (.inl rfl))
  obtain ⟨c, v, hc, -, -⟩ := hr.hit hna hh.bound_eq
  have hin : InCell m all key c := ⟨n, hna, hh.bound_eq, hc⟩
  -- the removed node keeps its value and its key; it only leaves the chain
  have hvalue : ∀ q, m'.nodes.valueOf q = m.nodes.valueOf q := by
    intro q
    rw [hn, hs.value_eq]
  have hbound : ∀ q, m'.nodes.bound q = m.nodes.bound q := by
    intro q
    rw [hn, hs.bound_eq]
  refine ⟨hret, ?_, ?_, ?_, ?_, ?_, by rw [hcells], nofun⟩
  · intro q c' hq hv
    exact ⟨fun hm => hq (hh.mem_rest.mp hm).1, (hvalue q).trans hv⟩
  · intro c' hin' _
    obtain rfl := hr.inCell_unique hin hin'
    exact ⟨_, rfl, (hvalue n).trans hc⟩
  · rintro x ⟨⟩
    refine ⟨rfl, ?_, c, hin, (hvalue n).trans hc⟩
    rintro p ⟨⟩ hm
    exact (hh.mem_rest.mp hm).2 rfl
  · intro k c' hne
    constructor
    · rintro ⟨q, hq, hqk, hqc⟩
      rw [hbound] at hqk
      rw [hvalue] at hqc
      exact ⟨q, (hh.mem_rest.mp hq).1, hqk, hqc⟩
    · rintro ⟨q, hq, hqk, hqc⟩
      refine ⟨q, hh.mem_rest.mpr ⟨hq, ?_⟩, (hbound q).trans hqk, (hvalue q).trans hqc⟩
      rintro rfl
      exact hne (target_inj.mp (hqk.symm.trans hh.bound_eq))
  · intro c'
    refine iff_of_false ?_ id
    rintro ⟨q, hq, hqk, -⟩
    rw [hbound] at hqk
    obtain ⟨hqa, hqn⟩ := hh.mem_rest.mp hq
    exact hqn ((hr.towers.succAt_zero_eq hqa hqk).symm.trans
      (hr.towers.succAt_zero_eq hna hh.bound_eq))

/-- The effect of every call. -/
theorem Rep.cells {op : Op} {topLevel : ℕ} {out : Outcome} (hr : Rep maxLevel m all μ)
    (hc : Called maxLevel m all topLevel op out) :
    ∃ g, CellEffect m out.mem all (nodesAfter m all op out) op g ∧
      ∀ key, op = .get key → ∀ c, out.borrow = some c ↔ InCell m all key c := by
  cases hc with
  | @got key p c id hp hk hc =>
      refine ⟨none, .same rfl rfl rfl (.inl ⟨key, rfl⟩), ?_⟩
      rintro _ ⟨⟩ c'
      have hin : InCell m all key c := ⟨p, hp, hk, hc⟩
      constructor
      · rintro ⟨⟩
        exact hin
      · intro hin'
        rw [hr.inCell_unique hin hin']
  | @missed key id hk =>
      refine ⟨none, .same rfl rfl rfl (.inl ⟨key, rfl⟩), ?_⟩
      rintro _ ⟨⟩ c'
      exact iff_of_false nofun (Rep.not_inCell hk)
  | @absent key id b hk =>
      exact ⟨none, .same rfl rfl rfl (.inr ⟨key, rfl, fun c => Rep.not_inCell hk⟩), nofun⟩
  | @updated key val p c id b hp hk hc =>
      exact ⟨_, hr.cells_updated hp hk hc rfl rfl rfl, nofun⟩
  | @inserted key val h' id b hk hg => exact ⟨none, hr.cells_inserted hk hg rfl rfl rfl, nofun⟩
  | @removed key n rest h' id b hh hs =>
      have hrest : (above m.nodes key all).tail = rest := by rw [hh.above_eq]; rfl
      simp only [nodesAfter, hrest]
      exact ⟨_, hr.cells_removed hh hs rfl rfl rfl, nofun⟩

end

end ZeroKv.SkipList
