/-
# ZeroKv.SkipList.Contents — the finite map that the concurrent skiplist stands for.

At every moment of a run, with any number of calls in progress, the skiplist stands for a map: a key is in
it when a published node with that key is not marked at level 0, and its value is in the cell that the
node points to.  Three kinds of step change the map: publishing a node, marking one, and swapping the cell
of one that is not marked.  A swap on a marked node comes too late to be seen.
-/
import ZeroKv.SkipList.Refinement
import ZeroKv.SkipList.Views

namespace ZeroKv.SkipList

/-- Node `p` holds key `k`. -/
def Live (m : Mem) (k : Bytes) (p : ℕ) : Prop :=
  m.nodes.Published p ∧ m.nodes.Unmarked p ∧ m.nodes.bound p = target k

/-- The cell of node `p` has the bytes `v`. -/
def Has (m : Mem) (p : ℕ) (v : Bytes) : Prop :=
  ∃ c, m.nodes.valueOf p = some c ∧ m.cells[c]? = some v

/-- The skiplist stands for the map `μ`. -/
def Contents (m : Mem) (μ : Dict) : Prop :=
  ∀ k v, μ.lookup k = some v ↔ ∃ p, Live m k p ∧ Has m p v

/-- Every node that carries a key has a value. -/
def Valued (m : Mem) : Prop := ∀ p k, m.nodes.bound p = target k → ∃ v, Has m p v

/-- The two memories stand for the same map, and the same nodes are deleted. -/
structure Same (m m' : Mem) : Prop where
  live : ∀ k p, Live m' k p ↔ Live m k p
  gone : ∀ p, m'.nodes.Gone p ↔ m.nodes.Gone p
  has : ∀ p v, Has m p v → Has m' p v

section

variable {m m' : Mem} {μ : Dict} {k v w : Bytes} {p q l : ℕ} {lk lk' : Link}

theorem Has.unique (hv : Has m p v) (hw : Has m p w) : v = w := by
  obtain ⟨c, hc, hv⟩ := hv
  obtain ⟨c', hc', hw⟩ := hw
  obtain rfl : c = c' := Option.some.inj (hc.symm.trans hc')
  exact Option.some.inj (hv.symm.trans hw)

/-- A key has one node. -/
theorem Live.unique (hs : Shape m.nodes) (hp : Live m k p) (hq : Live m k q) : p = q := by
  obtain ⟨ch, hb⟩ := hs.chain
  exact hb.bound_inj (hb.complete p hp.1 hp.2.1) (hb.complete q hq.1 hq.2.1)
    (hp.2.2.trans hq.2.2.symm)

/-! ## Reading the map -/

theorem Contents.lookup (hc : Contents m μ) (hp : Live m k p) (hv : Has m p v) :
    μ.lookup k = some v := (hc k v).mpr ⟨p, hp, hv⟩

theorem Contents.lookup_none (hc : Contents m μ) (h : ∀ p, ¬ Live m k p) : μ.lookup k = none := by
  rw [Option.eq_none_iff_forall_ne_some]
  intro v hv
  obtain ⟨p, hp, -⟩ := (hc k v).mp hv
  exact h p hp

/-! ## Writing the map -/

/-- A node that carries a key and keeps its value has no other value. -/
theorem Valued.has_iff (hval : Valued m) (hk : m.nodes.bound p = target k)
    (h : ∀ w, Has m p w → Has m' p w) : Has m' p v ↔ Has m p v := by
  obtain ⟨w, hw⟩ := hval p k hk
  refine ⟨fun hv => ?_, h v⟩
  rwa [hv.unique (h w hw)]

theorem Same.contents (hs : Same m m') (hval : Valued m) (hc : Contents m μ) : Contents m' μ := by
  intro k v
  rw [hc k v]
  refine exists_congr fun p => ?_
  rw [hs.live]
  exact and_congr_right fun hp => (hval.has_iff hp.2.2 (hs.has p)).symm

theorem Contents.insert (hc : Contents m μ) (node : ℕ)
    (hlive : ∀ k' p, Live m' k' p ↔ (k' = k ∧ p = node) ∨ Live m k' p)
    (hone : ∀ p, Live m k p → p = node) (hnew : Has m' node v)
    (hhas : ∀ k' p w, Live m k' p → p ≠ node → (Has m' p w ↔ Has m p w))
    (hbound : ∀ k', Live m k' node → k' = k) : Contents m' (μ.insert k v) := by
  intro k' w
  by_cases hk : k' = k
  · subst hk
    rw [Finmap.lookup_insert]
    constructor
    · intro he
      cases he
      exact ⟨node, (hlive k' node).mpr (.inl ⟨rfl, rfl⟩), hnew⟩
    · rintro ⟨p, hp, hw⟩
      have hpn : p = node := ((hlive k' p).mp hp).elim And.right (hone p)
      subst hpn
      rw [hnew.unique hw]
  · rw [Finmap.lookup_insert_of_ne _ hk, hc k' w]
    refine exists_congr fun p => ?_
    rw [hlive]
    simp only [hk, false_and, false_or]
    refine and_congr_right fun hp => (hhas k' p w hp ?_).symm
    rintro rfl
    exact hk (hbound k' hp)

theorem Contents.erase (hc : Contents m μ) (hlive : ∀ k' p, Live m' k' p ↔ Live m k' p ∧ k' ≠ k)
    (hhas : ∀ k' p w, Live m k' p → (Has m' p w ↔ Has m p w)) : Contents m' (μ.erase k) := by
  intro k' w
  by_cases hk : k' = k
  · subst hk
    rw [Finmap.lookup_erase]
    refine iff_of_false nofun ?_
    rintro ⟨p, hp, -⟩
    exact ((hlive k' p).mp hp).2 rfl
  · rw [Finmap.lookup_erase_ne hk, hc k' w]
    refine exists_congr fun p => ?_
    rw [hlive]
    simp only [ne_eq, hk, not_false_eq_true, and_true]
    exact and_congr_right fun hp => (hhas k' p w hp).symm

/-! ## Steps that do not change the map -/

theorem has_of_eq (hv : m'.nodes.valueOf p = m.nodes.valueOf p) (hc : m'.cells = m.cells) :
    Has m' p v ↔ Has m p v := by
  simp only [Has, hv, hc]

@[simp] theorem has_store : Has (m.store p l lk) q v ↔ Has m q v := has_of_eq (by simp [Mem.store]) rfl

@[simp] theorem has_linkedAt {n : ℕ} : Has (m.linkedAt p n) q v ↔ Has m q v :=
  has_of_eq (by simp [Mem.linkedAt]) rfl

theorem same_of_eq (hn : m'.nodes = m.nodes) (hc : m'.cells = m.cells) : Same m m' where
  live k p := by simp only [Live, hn]
  gone p := by rw [hn]
  has p v := (has_of_eq (by rw [hn]) hc).mpr

/-- A link write that keeps the mark, if it is on level 0. -/
theorem same_store (lk' : Link) (hl : m.nodes.link p l = some lk) (hm : l = 0 → lk.mark = lk'.mark) :
    Same m (m.store p l lk') := by
  have hmark : ∀ q o mk, (m.nodes.setLink p l lk').link q 0 = some ⟨o, mk⟩ →
      ∃ o', m.nodes.link q 0 = some ⟨o', mk⟩ := by
    intro q o mk hq
    rcases Heap.link_setLink_cases hq with ⟨rfl, rfl, rfl⟩ | hq
    · obtain ⟨o', mk'⟩ := lk
      obtain rfl : mk' = mk := hm rfl
      exact ⟨o', hl⟩
    · exact ⟨o, hq⟩
  have hmark' : ∀ q o mk, m.nodes.link q 0 = some ⟨o, mk⟩ →
      ∃ o', (m.nodes.setLink p l lk').link q 0 = some ⟨o', mk⟩ := by
    intro q o mk hq
    by_cases he : q = p ∧ 0 = l
    · obtain ⟨rfl, rfl⟩ := he
      obtain rfl := Option.some.inj (hl.symm.trans hq)
      obtain ⟨o', mk'⟩ := lk'
      obtain rfl : mk = mk' := hm rfl
      exact ⟨o', Heap.link_setLink_self hl⟩
    · exact ⟨o, (Heap.link_setLink_of_ne (by tauto)).trans hq⟩
  refine ⟨fun k q => ?_, fun q => ?_, fun q v => has_store.mpr⟩
  · simp only [Live, Mem.store, Heap.published_setLink, Heap.bound_setLink]
    refine and_congr_right fun _ => and_congr_left fun _ => ⟨?_, ?_⟩
    · rintro ⟨o, hq⟩
      exact hmark q o false hq
    · rintro ⟨o, hq⟩
      exact hmark' q o false hq
  · constructor
    · rintro ⟨o, hq⟩
      exact hmark q o true hq
    · rintro ⟨o, hq⟩
      exact hmark' q o true hq

theorem Same.trans {m'' : Mem} (h : Same m m') (h' : Same m' m'') : Same m m'' where
  live k p := (h'.live k p).trans (h.live k p)
  gone p := (h'.gone p).trans (h.gone p)
  has p v hv := h'.has p v (h.has p v hv)

/-- The node of an insert is linked at one more level. -/
theorem same_linkedAt {n : ℕ} (hp : m.nodes.Published p) : Same m (m.linkedAt p (n + 1)) where
  live k q := by
    simp [Live, Mem.linkedAt, Heap.published_setLinked_of_published hp, Heap.Unmarked, Heap.UnmarkedAt]
  gone q := by simp [Mem.linkedAt, Heap.Gone, Heap.MarkedAt]
  has q v := has_linkedAt.mpr

/-- A value is boxed: nobody points to the cell yet. -/
theorem has_boxValue (bytes : Bytes) (hv : Has m p v) : Has (m.boxValue bytes) p v := by
  obtain ⟨c, hc, hv⟩ := hv
  exact ⟨c, hc, (List.getElem?_append_left (List.getElem?_eq_some_iff.mp hv).1).trans hv⟩

theorem Has.lt_length (hv : Has m p v) : p < m.nodes.length := by
  obtain ⟨c, hc, -⟩ := hv
  by_contra hp
  simp [Heap.valueOf, readField, List.getElem?_eq_none (Nat.le_of_not_lt hp)] at hc

theorem has_alloc {bytes : Bytes} {nd : Node} (hv : Has m p v) :
    Has ((m.boxValue bytes).allocNode nd) p v := by
  obtain ⟨c, hc, hb⟩ := has_boxValue bytes hv
  exact ⟨c, (Heap.valueOf_alloc_of_ne hv.lt_length.ne).trans hc, hb⟩

theorem has_swap_of_ne {bytes : Bytes} {node c : ℕ} (hp : p ≠ node) (hv : Has m p v) :
    Has ((m.boxValue bytes).swapValue node c) p v := by
  obtain ⟨c', hc, hb⟩ := has_boxValue bytes hv
  exact ⟨c', (Heap.valueOf_setValue_of_ne hp).trans hc, hb⟩

/-- A node is allocated: nobody can see it yet. -/
theorem same_alloc {bytes : Bytes} {key : BoundKey} {c : Option ℕ} {top : ℕ} :
    Same m ((m.boxValue bytes).allocNode (.new key c top)) where
  live k q := by
    have hold : m.nodes.Published q → ((m.boxValue bytes).allocNode (.new key c top)).nodes.link q 0 =
        m.nodes.link q 0 ∧
        ((m.boxValue bytes).allocNode (.new key c top)).nodes.bound q = m.nodes.bound q := by
      intro hq
      have hne := hq.lt_length.ne
      exact ⟨Heap.link_alloc_of_ne hne, congrArg BoundKey.bound (Heap.keyOf_alloc_of_ne hne)⟩
    constructor
    · rintro ⟨hq, hu, hk⟩
      have hq := Heap.published_alloc.mp hq
      rw [Heap.Unmarked, Heap.UnmarkedAt, (hold hq).1] at hu
      exact ⟨hq, hu, (hold hq).2 ▸ hk⟩
    · rintro ⟨hq, hu, hk⟩
      refine ⟨Heap.published_alloc.mpr hq, ?_, (hold hq).2.trans hk⟩
      rw [Heap.Unmarked, Heap.UnmarkedAt, (hold hq).1]
      exact hu
  gone q := by
    constructor
    · rintro ⟨o, hq⟩
      rcases link_alloc_cases hq with he | hq
      · cases he
      · exact ⟨o, hq⟩
    · rintro ⟨o, hq⟩
      exact ⟨o, (Heap.link_alloc_of_ne (Heap.lt_length_of_link hq).ne).trans hq⟩
  has q v := has_alloc

end

end ZeroKv.SkipList
