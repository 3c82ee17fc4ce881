/-
# ZeroKv.SkipList.Bottom — the bottom level of the concurrent skiplist.

The upper levels are only shortcuts: what the map holds is decided on level 0.  Four kinds of step write
there.  An insert prepares the link of a node nobody else can see yet, publishes that node, a remove marks
a link, and a search splices a marked node out.  `Write` lists what a step can do to the heap, with what
is known about the nodes it touches, and `Bottom` is the shape of level 0: one chain from the head to the
tail, strictly increasing in key, with every published node on it that is not marked.

A search may hold on to nodes that were removed long ago.  What saves the two compare-exchanges on level
0 is that they expect an unmarked link: a published node with an unmarked link is on the chain now, no
matter how it was found, and a marked link never changes again.
-/
import ZeroKv.SkipList.Level

namespace ZeroKv.SkipList

/-! ## The chain of level 0 -/

namespace Heap

/-- Some insert has linked the node at level 0 (sentinels are linked from the start). -/
abbrev Published (h : Heap) (p : ℕ) : Prop := h.LinkedAt 0 p

/-- The level-0 link of the node is not marked. -/
abbrev Unmarked (h : Heap) (p : ℕ) : Prop := h.UnmarkedAt 0 p

/-- The level-0 link of the node is marked: the node is logically deleted. -/
abbrev Gone (h : Heap) (p : ℕ) : Prop := h.MarkedAt 0 p

end Heap

/-- The chain of level 0, marked nodes included, is `ch`. -/
abbrev Bottom (h : Heap) (ch : List ℕ) : Prop := Level h 0 ch

/-! ## What a step does to the heap -/

/-- What holds of the heap in every reachable state. -/
structure Shape (h : Heap) : Prop where
  /-- Only published nodes are linked to, at any level and by any node. -/
  ref : ∀ p l q b, h.link p l = some ⟨some q, b⟩ → h.Published q
  gone : ∀ p, h.Gone p → h.Published p
  head_key : h.keyOf head = .negInf
  tail_key : h.keyOf tail = .posInf
  chain : ∃ ch, Bottom h ch

/-- The effect of one step on the heap.  The index is the node that the acting thread has allocated and
not yet published, if there is one. -/
inductive Write (h : Heap) : Option ℕ → Heap → Prop
  | quiet {x} : Write h x h
  | alloc {x key v top} : Write h x (h.alloc (.new (.fin (.new key)) v top))
  | init {node l q lk} (hnode : h.linkedOf node = 0) (hl : h.link node l = some lk)
      (hq : h.Published q) : Write h (some node) (h.setLink node l ⟨some q, false⟩)
  | publish {pred succ node key} (hpred : h.Published pred)
      (hl : h.link pred 0 = some ⟨some succ, false⟩) (hnode : h.linkedOf node = 0)
      (hnl : h.link node 0 = some ⟨some succ, false⟩) (hk : h.bound node = target key)
      (hlt : h.bound pred < target key) (hgt : target key < h.bound succ) :
      Write h (some node) ((h.setLink pred 0 ⟨some node, false⟩).setLinked node 1)
  | upper {x p l lk lk'} (hpos : 0 < l) (hp : h.Published p) (hl : h.link p l = some lk)
      (hq : ∀ q, lk'.ref = some q → h.Published q) : Write h x (h.setLink p l lk')
  | link {x p l lk node} (hpos : 0 < l) (hp : h.Published p) (hl : h.link p l = some lk)
      (hnode : h.Published node) :
      Write h x ((h.setLink p l ⟨some node, false⟩).setLinked node (l + 1))
  | splice {x pred curr succ} (hpred : h.Published pred)
      (hl : h.link pred 0 = some ⟨some curr, false⟩) (hc : h.link curr 0 = some ⟨some succ, true⟩) :
      Write h x (h.setLink pred 0 ⟨some succ, false⟩)
  | mark {x node o key} (hnode : h.Published node) (hk : h.bound node = target key)
      (hl : h.link node 0 = some ⟨o, false⟩) : Write h x (h.setLink node 0 ⟨o, true⟩)
  | swap {x node v} : Write h x (h.setValue node v)

/-- What a later heap has kept. -/
structure Later (h h' : Heap) : Prop where
  length : h.length ≤ h'.length
  key : ∀ p, p < h.length → h'.keyOf p = h.keyOf p
  published : ∀ p, h.Published p → h'.Published p
  /-- A marked level-0 link never changes again. -/
  frozen : ∀ p o, h.link p 0 = some ⟨o, true⟩ → h'.link p 0 = some ⟨o, true⟩

theorem Later.refl (h : Heap) : Later h h :=
  ⟨le_rfl, fun _ _ => rfl, fun _ => id, fun _ _ => id⟩

theorem Later.trans {h h' h'' : Heap} (h₁ : Later h h') (h₂ : Later h' h'') : Later h h'' where
  length := h₁.length.trans h₂.length
  key p hp := (h₂.key p (hp.trans_le h₁.length)).trans (h₁.key p hp)
  published p hp := h₂.published p (h₁.published p hp)
  frozen p o hl := h₂.frozen p o (h₁.frozen p o hl)

theorem Later.bound {h h' : Heap} (hl : Later h h') {p : ℕ} (hp : p < h.length) :
    h'.bound p = h.bound p := congrArg BoundKey.bound (hl.key p hp)

theorem Later.gone {h h' : Heap} (hl : Later h h') {p : ℕ} (hp : h.Gone p) : h'.Gone p :=
  hp.imp fun o => hl.frozen p o

section Write

variable {h h' : Heap} {x : Option ℕ} {ch : List ℕ} {p q l n : ℕ} {lk : Link} {v : Option ℕ}

namespace Heap

@[simp] theorem published_setLink : (h.setLink p l lk).Published q ↔ h.Published q := by
  simp [Published, LinkedAt]

@[simp] theorem published_setValue : (h.setValue p v).Published q ↔ h.Published q := by
  simp [Published, LinkedAt]

/-- A node fresh from the allocator is not published. -/
theorem published_alloc {key : BoundKey} {top : ℕ} :
    (h.alloc (.new key v top)).Published q ↔ h.Published q := by
  by_cases hq : q = h.length
  · subst hq
    have hout : ¬ h.Published h.length := fun hp => lt_irrefl _ hp.lt_length
    simp [Published, LinkedAt, Node.new] at hout ⊢
    exact hout
  · rw [Published, LinkedAt, linkedOf_alloc_of_ne hq]
    rfl

theorem published_setLinked (hp : p < h.length) :
    (h.setLinked p (n + 1)).Published q ↔ q = p ∨ h.Published q := by
  by_cases hq : q = p
  · subst hq
    simp [Published, LinkedAt, linkedOf_setLinked_self hp]
  · simp [Published, LinkedAt, linkedOf_setLinked_of_ne hq, hq]

theorem published_setLinked_of_published (hp : h.Published p) :
    (h.setLinked p (n + 1)).Published q ↔ h.Published q := by
  rw [published_setLinked hp.lt_length]
  exact ⟨fun hq => hq.elim (fun he => he ▸ hp) id, .inr⟩

end Heap

/-- A link write that overwrites no mark on level 0. -/
theorem later_setLink {lk' : Link} (hl : h.link p l = some lk) (hm : l = 0 → lk.mark = false) :
    Later h (h.setLink p l lk') := by
  refine ⟨by simp, fun q _ => by simp, fun q => by simp, fun q o hq => ?_⟩
  rw [Heap.link_setLink_of_ne, hq]
  by_contra hne
  obtain ⟨rfl, rfl⟩ : q = p ∧ 0 = l := by simpa using hne
  rw [hl] at hq
  cases hq
  exact Bool.noConfusion (hm rfl)

theorem later_setLinked (hp : p < h.length) : Later h (h.setLinked p (n + 1)) :=
  ⟨by simp, fun q _ => by simp, fun _ hq => (Heap.published_setLinked hp).mpr (.inr hq),
    fun q o => by simp⟩

/-- Every write leaves behind a later heap. -/
theorem Write.later (hs : Shape h) (hw : Write h x h') : Later h h' := by
  cases hw with
  | quiet => exact .refl h
  | alloc =>
      refine ⟨by simp [Heap.alloc], fun q hq => Heap.keyOf_alloc_of_ne hq.ne,
        fun q hq => Heap.published_alloc.mpr hq, fun q o hq => ?_⟩
      rw [Heap.link_alloc_of_ne (Heap.lt_length_of_link hq).ne, hq]
  | @init node l q lk hnode hl hq =>
      refine later_setLink hl ?_
      rintro rfl
      -- only published nodes are ever marked
      obtain ⟨o, mk⟩ := lk
      refine Bool.eq_false_iff.mpr ?_
      rintro rfl
      exact (hs.gone node ⟨o, hl⟩).ne' hnode
  | publish hpred hl hnode hnl =>
      exact (later_setLink hl fun _ => rfl).trans
        (later_setLinked (by simpa using Heap.lt_length_of_link hnl))
  | upper hpos hp hl => exact later_setLink hl fun h0 => absurd h0 hpos.ne'
  | link hpos hp hl hnode =>
      exact (later_setLink hl fun h0 => absurd h0 hpos.ne').trans
        (later_setLinked (by simpa using hnode.lt_length))
  | splice hpred hl hc => exact later_setLink hl fun _ => rfl
  | mark hnode hk hl => exact later_setLink hl fun _ => rfl
  | swap => exact ⟨by simp, fun q _ => by simp, fun q => by simp, fun q o => by simp⟩

/-- Nobody else writes to a node that is not published. -/
theorem Write.private_link (hw : Write h x h') (hp : p < h.length) (h0 : h.linkedOf p = 0)
    (hx : x ≠ some p) : h'.link p l = h.link p l ∧ h'.linkedOf p = 0 := by
  have hne : ∀ {q}, h.Published q → p ≠ q := fun hq he => hq.ne' (he ▸ h0)
  cases hw with
  | quiet => exact ⟨rfl, h0⟩
  | alloc =>
      exact ⟨Heap.link_alloc_of_ne hp.ne, (Heap.linkedOf_alloc_of_ne hp.ne).trans h0⟩
  | @init node l q lk hnode hl hq =>
      have hpn : p ≠ node := fun he => hx (he ▸ rfl)
      exact ⟨Heap.link_setLink_of_ne (.inl hpn), by simpa using h0⟩
  | @publish pred succ node key hpred hl hnode hnl =>
      have hpn : p ≠ node := fun he => hx (he ▸ rfl)
      rw [Heap.link_setLinked, Heap.linkedOf_setLinked_of_ne hpn]
      exact ⟨Heap.link_setLink_of_ne (.inl (hne hpred)), by simpa using h0⟩
  | upper hpos hq hl => exact ⟨Heap.link_setLink_of_ne (.inl (hne hq)), by simpa using h0⟩
  | link hpos hq hl hnode =>
      rw [Heap.link_setLinked, Heap.linkedOf_setLinked_of_ne (hne hnode)]
      exact ⟨Heap.link_setLink_of_ne (.inl (hne hq)), by simpa using h0⟩
  | splice hpred hl hc => exact ⟨Heap.link_setLink_of_ne (.inl (hne hpred)), by simpa using h0⟩
  | mark hnode hk hl => exact ⟨Heap.link_setLink_of_ne (.inl (hne hnode)), by simpa using h0⟩
  | swap => simpa using h0

/-- The links of a fresh node are null. -/
theorem link_alloc_cases {p' l' top : ℕ} {k : Link} {key : BoundKey}
    (hk : (h.alloc (.new key v top)).link p' l' = some k) :
    k = .null ∨ h.link p' l' = some k := by
  by_cases he : p' = h.length
  · subst he
    rw [Heap.link_alloc_self] at hk
    exact .inl (List.eq_of_mem_replicate (List.mem_of_getElem? hk))
  · rw [Heap.link_alloc_of_ne he] at hk
    exact .inr hk

theorem Write.ref (hs : Shape h) (hw : Write h x h') {b : Bool}
    (hq : h'.link p l = some ⟨some q, b⟩) : h'.Published q := by
  have hlater := hw.later hs
  -- a link that was there led to a published node; what a step writes does, too
  have hold : h.link p l = some ⟨some q, b⟩ → h'.Published q :=
    fun hl => hlater.published q (hs.ref p l q b hl)
  cases hw with
  | quiet | swap => exact hold (by simpa using hq)
  | alloc =>
      rcases link_alloc_cases hq with he | hl
      · cases he
      · exact hold hl
  | init _ _ hp =>
      rcases Heap.link_setLink_cases hq with ⟨-, -, he⟩ | hl
      · cases he
        exact hlater.published _ hp
      · exact hold hl
  | publish _ _ _ hnl =>
      rw [Heap.link_setLinked] at hq
      rcases Heap.link_setLink_cases hq with ⟨-, -, he⟩ | hl
      · cases he
        refine (Heap.published_setLinked ?_).mpr (.inl rfl)
        simpa using Heap.lt_length_of_link hnl
      · exact hold hl
  | upper _ _ _ hp =>
      rcases Heap.link_setLink_cases hq with ⟨-, -, he⟩ | hl
      · exact hlater.published q (hp q (he ▸ rfl))
      · exact hold hl
  | link _ _ _ hnode =>
      rw [Heap.link_setLinked] at hq
      rcases Heap.link_setLink_cases hq with ⟨-, -, he⟩ | hl
      · cases he
        exact hlater.published _ hnode
      · exact hold hl
  | splice _ _ hc =>
      rcases Heap.link_setLink_cases hq with ⟨-, -, he⟩ | hl
      · cases he
        exact hlater.published _ (hs.ref _ _ _ _ hc)
      · exact hold hl
  | mark _ _ hnl =>
      rcases Heap.link_setLink_cases hq with ⟨rfl, rfl, he⟩ | hl
      · cases he
        exact hlater.published _ (hs.ref _ _ _ _ hnl)
      · exact hold hl

theorem Write.gone (hs : Shape h) (hw : Write h x h') (hp : h'.Gone p) : h'.Published p := by
  have hlater := hw.later hs
  obtain ⟨o, hp⟩ := hp
  have hold : h.link p 0 = some ⟨o, true⟩ → h'.Published p :=
    fun hl => hlater.published p (hs.gone p ⟨o, hl⟩)
  cases hw with
  | quiet | swap => exact hold (by simpa using hp)
  | alloc =>
      rcases link_alloc_cases hp with he | hl
      · cases he
      · exact hold hl
  | init | splice =>
      rcases Heap.link_setLink_cases hp with ⟨-, -, he⟩ | hl
      · cases he
      · exact hold hl
  | publish | link =>
      rw [Heap.link_setLinked] at hp
      rcases Heap.link_setLink_cases hp with ⟨-, -, he⟩ | hl
      · cases he
      · exact hold hl
  | upper hpos =>
      rcases Heap.link_setLink_cases hp with ⟨-, h0, -⟩ | hl
      · exact absurd h0 hpos.ne
      · exact hold hl
  | mark hnode =>
      rcases Heap.link_setLink_cases hp with ⟨rfl, -, -⟩ | hl
      · exact hlater.published _ hnode
      · exact hold hl

/-- After a write there is a chain again, and only marked nodes have left it. -/
theorem Write.chain (hs : Shape h) (hw : Write h x h') (hb : Bottom h ch) :
    ∃ ch', Bottom h' ch' ∧ ∀ p ∈ ch, p ∈ ch' ∨ h.Gone p := by
  have hlater := hw.later hs
  -- most writes touch no level-0 link of a published node
  have hframe : (∀ p, h'.Published p ↔ h.Published p) →
      (∀ p, h.Published p → h'.link p 0 = h.link p 0) →
      ∃ ch', Bottom h' ch' ∧ ∀ p ∈ ch, p ∈ ch' ∨ h.Gone p :=
    fun hpub hlink =>
      ⟨ch, hb.frame hpub hlink fun p hp => hlater.bound hp.lt_length, fun _ => .inl⟩
  cases hw with
  | quiet => exact ⟨ch, hb, fun _ => .inl⟩
  | alloc =>
      exact hframe (fun p => Heap.published_alloc)
        fun p hp => Heap.link_alloc_of_ne hp.lt_length.ne
  | init hnode hl hq =>
      refine hframe (fun p => Heap.published_setLink) fun p hp => Heap.link_setLink_of_ne (.inl ?_)
      rintro rfl
      exact hp.ne' hnode
  | publish hpred hl hnode hnl hk hlt hgt =>
      obtain ⟨a, c, rfl, hb'⟩ := hb.insert hpred hl hnode hnl (hk ▸ hlt) (hk ▸ hgt)
      refine ⟨_, hb', fun p hp => .inl ?_⟩
      simp only [List.mem_append, List.mem_cons] at hp ⊢
      tauto
  | upper hpos hp hl hq =>
      exact hframe (fun p => Heap.published_setLink)
        fun p _ => Heap.link_setLink_of_ne (.inr hpos.ne)
  | link hpos hp hl hnode =>
      refine hframe (fun p => ?_) fun p _ => ?_
      · rw [Heap.published_setLinked_of_published (by simpa using hnode), Heap.published_setLink]
      · rw [Heap.link_setLinked, Heap.link_setLink_of_ne (.inr hpos.ne)]
  | @splice _ pred curr succ hpred hl hc =>
      obtain ⟨a, c, rfl, hb'⟩ := hb.splice hpred hl hc
      refine ⟨_, hb', fun p hp => ?_⟩
      by_cases hpc : p = curr
      · exact .inr (hpc ▸ ⟨_, hc⟩)
      · simp only [List.mem_append, List.mem_cons] at hp ⊢
        tauto
  | @mark _ node o key hnode hk hl =>
      exact ⟨ch, hb.mark (Heap.ne_tail_of_bound_le hs.tail_key hk.le) hl, fun _ => .inl⟩
  | swap => exact hframe (fun p => Heap.published_setValue) fun p _ => by simp

/-- Every write keeps the heap in shape. -/
theorem Write.shape (hs : Shape h) (hw : Write h x h') : Shape h' := by
  obtain ⟨ch, hb⟩ := hs.chain
  obtain ⟨ch', hb', -⟩ := hw.chain hs hb
  have hlater := hw.later hs
  exact
    { ref := fun _ _ _ _ => hw.ref hs
      gone := fun _ => hw.gone hs
      head_key := (hlater.key head (hb.published head hb.head_mem).lt_length).trans hs.head_key
      tail_key := (hlater.key tail (hb.published tail hb.tail_mem).lt_length).trans hs.tail_key
      chain := ⟨ch', hb'⟩ }

end Write

end ZeroKv.SkipList
