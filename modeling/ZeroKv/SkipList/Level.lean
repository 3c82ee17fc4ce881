/-
# ZeroKv.SkipList.Level — one level of the concurrent skiplist as a chain.

A level is in order when it is one chain from the head to the tail, strictly increasing in key, with every
node on it that has been linked there and is not marked there.  Three writes change a level that is in
order: a node is linked between two neighbours, a marked node is spliced out, a link is marked.

The definitions and lemmas are about any level.  For level 0 they hold in every run; for the upper levels
they need conditions on what an insert finds there.
-/
import ZeroKv.Lib.Chain
import ZeroKv.SkipList.Program

namespace ZeroKv.SkipList

namespace Heap

/-- Some insert has linked the node at level `l` (sentinels are linked from the start). -/
def LinkedAt (h : Heap) (l p : ℕ) : Prop := l < h.linkedOf p

/-- The link of the node at level `l` is not marked. -/
def UnmarkedAt (h : Heap) (l p : ℕ) : Prop := ∃ o, h.link p l = some ⟨o, false⟩

/-- The link of the node at level `l` is marked. -/
def MarkedAt (h : Heap) (l p : ℕ) : Prop := ∃ o, h.link p l = some ⟨o, true⟩

/-- The link of `p` at level `l`, marked or not, goes to `q`. -/
def NextAt (h : Heap) (l p q : ℕ) : Prop := ∃ b, h.link p l = some ⟨some q, b⟩

section

variable {h : Heap} {p q q' l l' n : ℕ} {lk : Link} {v : Option ℕ}

theorem LinkedAt.lt_length (hp : h.LinkedAt l p) : p < h.length := lt_length_of_linkedOf hp

theorem NextAt.unique (hq : h.NextAt l p q) (hq' : h.NextAt l p q') : q = q' := by
  obtain ⟨b, hb⟩ := hq
  obtain ⟨b', hb'⟩ := hq'
  rw [hb] at hb'
  cases hb'
  rfl

theorem UnmarkedAt.not_marked (hu : h.UnmarkedAt l p) : ¬ h.MarkedAt l p := by
  rintro ⟨o, hm⟩
  obtain ⟨o', hu⟩ := hu
  rw [hu] at hm
  cases hm

/-- A link that exists is marked or not. -/
theorem marked_or_unmarked (hl : h.link p l = some lk) : h.MarkedAt l p ∨ h.UnmarkedAt l p := by
  obtain ⟨o, mk⟩ := lk
  cases mk with
  | true => exact .inl ⟨o, hl⟩
  | false => exact .inr ⟨o, hl⟩

theorem linkedAt_setLinked (hp : p < h.length) (hold : h.linkedOf p = l) :
    (h.setLinked p (l + 1)).LinkedAt l' q ↔ (q = p ∧ l' = l) ∨ h.LinkedAt l' q := by
  by_cases hq : q = p
  · subst hq
    rw [LinkedAt, LinkedAt, linkedOf_setLinked_self hp, hold]
    omega
  · rw [LinkedAt, linkedOf_setLinked_of_ne hq]
    simp [hq, LinkedAt]

/-- What is read after a link write is the old link or the new one. -/
theorem link_setLink_cases {k : Link} (hk : (h.setLink p l lk).link q l' = some k) :
    (q = p ∧ l' = l ∧ k = lk) ∨ h.link q l' = some k := by
  by_cases he : q = p ∧ l' = l
  · rw [link_setLink, if_pos he] at hk
    obtain ⟨-, -, rfl⟩ := Option.map_eq_some_iff.mp hk
    exact .inl ⟨he.1, he.2, rfl⟩
  · rw [link_setLink, if_neg he] at hk
    exact .inr hk

end

end Heap

/-- The chain of level `l`, marked nodes included, is `ch`. -/
structure Level (h : Heap) (l : ℕ) (ch : List ℕ) : Prop where
  first : ch.head? = some head
  last : ch.getLast? = some tail
  linked : ch.IsChain (h.NextAt l)
  sorted : ch.Pairwise fun p q => h.bound p < h.bound q
  published : ∀ p ∈ ch, h.LinkedAt l p
  /-- A node that is linked here and not marked is on the chain. -/
  complete : ∀ p, h.LinkedAt l p → h.UnmarkedAt l p → p ∈ ch
  tail_link : h.link tail l = some ⟨none, false⟩

section Chain

variable {h h' : Heap} {l : ℕ} {ch a c : List ℕ} {p q pred curr succ node : ℕ}

namespace Level

theorem nodup (hb : Level h l ch) : ch.Nodup :=
  hb.sorted.imp fun hlt he => absurd (congrArg h.bound he) hlt.ne

theorem head_mem (hb : Level h l ch) : head ∈ ch := List.mem_of_mem_head? (by simp [hb.first])

theorem tail_mem (hb : Level h l ch) : tail ∈ ch := List.mem_of_getLast? hb.last

/-- Two nodes of the chain with one key are the same. -/
theorem bound_inj (hb : Level h l ch) (hp : p ∈ ch) (hq : q ∈ ch) (he : h.bound p = h.bound q) :
    p = q := by
  by_contra hne
  rcases List.pairwise_iff_getElem.mp hb.sorted with hs
  obtain ⟨i, hi, rfl⟩ := List.mem_iff_getElem.mp hp
  obtain ⟨j, hj, rfl⟩ := List.mem_iff_getElem.mp hq
  rcases Nat.lt_trichotomy i j with hij | rfl | hij
  · exact (hs i j hi hj hij).ne he
  · exact hne rfl
  · exact (hs j i hj hi hij).ne he.symm

/-- A node of the chain that links to another one is followed by it. -/
theorem split (hb : Level h l ch) (hp : p ∈ ch) (hq : h.NextAt l p q) :
    ∃ a c, ch = a ++ p :: q :: c := by
  obtain ⟨a, rest, rfl⟩ := List.append_of_mem hp
  cases rest with
  | nil =>
      -- the last node is the tail, and that one links nowhere
      have hpt : p = tail := by simpa using hb.last
      obtain ⟨b, hq⟩ := hq
      rw [hpt, hb.tail_link] at hq
      cases hq
  | cons x c =>
      obtain ⟨-, hpx, -⟩ := List.isChain_append_cons_cons.mp hb.linked
      exact ⟨a, c, by rw [hq.unique hpx]⟩

/-- Nothing on the chain is between a node and its successor. -/
theorem not_between (hb : Level h l (a ++ p :: q :: c)) {x : ℕ} (hx : x ∈ a ++ p :: q :: c)
    (hpx : h.bound p < h.bound x) : h.bound q ≤ h.bound x := by
  obtain ⟨-, hrest, hcross⟩ := List.pairwise_append.mp hb.sorted
  rcases List.mem_append.mp hx with hxa | hxr
  · exact absurd (hcross x hxa p List.mem_cons_self) hpx.asymm
  · rcases List.mem_cons.mp hxr with rfl | hxr
    · exact absurd hpx (lt_irrefl _)
    · rcases List.mem_cons.mp hxr with rfl | hxc
      · exact le_rfl
      · exact ((List.pairwise_cons.mp (List.pairwise_cons.mp hrest).2).1 x hxc).le

/-- A write that touches no link of level `l` of a node linked there. -/
theorem frame (hb : Level h l ch) (hpub : ∀ p, h'.LinkedAt l p ↔ h.LinkedAt l p)
    (hlink : ∀ p, h.LinkedAt l p → h'.link p l = h.link p l)
    (hbound : ∀ p, h.LinkedAt l p → h'.bound p = h.bound p) : Level h' l ch where
  first := hb.first
  last := hb.last
  linked := hb.linked.imp_of_mem_imp fun x y hx _ ⟨b, hl⟩ =>
    ⟨b, (hlink x (hb.published x hx)).trans hl⟩
  sorted := hb.sorted.imp_of_mem fun {x y} hx hy hlt => by
    rw [hbound x (hb.published x hx), hbound y (hb.published y hy)]
    exact hlt
  published p hp := (hpub p).mpr (hb.published p hp)
  complete p hp := fun ⟨o, hu⟩ =>
    hb.complete p ((hpub p).mp hp) ⟨o, (hlink p ((hpub p).mp hp)).symm.trans hu⟩
  tail_link := (hlink tail (hb.published tail hb.tail_mem)).trans hb.tail_link

/-- The successor of `pred` is replaced by a chain that continues from it. -/
theorem relink (hb : Level h l (a ++ pred :: c)) {ys : List ℕ} {o : Option ℕ}
    (hp : h.link pred l = some ⟨o, false⟩) {y : ℕ} {lk : Link} (hy : lk.ref = some y)
    (hys : (y :: ys).IsChain (h.NextAt l)) (hne : pred ∉ y :: ys) :
    (a ++ pred :: y :: ys).IsChain ((h.setLink pred l lk).NextAt l) := by
  have hframe : ∀ x, x ≠ pred → ∀ z, h.NextAt l x z → (h.setLink pred l lk).NextAt l x z :=
    fun x hx z ⟨b, hl⟩ => ⟨b, (Heap.link_setLink_of_ne (.inl hx)).trans hl⟩
  have hpa : pred ∉ a := fun hm =>
    (List.nodup_middle.mp hb.nodup).notMem (List.mem_append_left _ hm)
  refine List.isChain_append_cons_cons.mpr ⟨?_, ?_, ?_⟩
  · refine isChain_concat_imp (R := h.NextAt l) ?_ fun x hx => hframe x fun he => hpa (he ▸ hx)
    exact hb.linked.prefix ⟨c, by simp⟩
  · refine ⟨lk.mark, ?_⟩
    rw [Heap.link_setLink_self hp, ← hy]
  · exact hys.imp_of_mem_imp fun x z hx _ => hframe x (fun he => hne (he ▸ hx)) z

/-- A node between two neighbours keeps the order. -/
theorem sorted_insert (hb : Level h l (a ++ pred :: succ :: c)) (hlt : h.bound pred < h.bound node)
    (hgt : h.bound node < h.bound succ) :
    (a ++ pred :: node :: succ :: c).Pairwise fun p q => h.bound p < h.bound q := by
  have : IsTrans ℕ fun p q => h.bound p < h.bound q := ⟨fun _ _ _ => lt_trans⟩
  obtain ⟨ha, -, hc⟩ := List.isChain_append_cons_cons.mp (List.isChain_iff_pairwise.mpr hb.sorted)
  refine List.isChain_iff_pairwise.mp (List.isChain_append_cons_cons.mpr ⟨ha, hlt, ?_⟩)
  exact List.isChain_cons_cons.mpr ⟨hgt, hc⟩

/-- A node is linked between its predecessor and its successor. -/
theorem insert (hb : Level h l ch) (hpred : h.LinkedAt l pred)
    (hl : h.link pred l = some ⟨some succ, false⟩) (hnode : h.linkedOf node = l)
    (hnl : h.link node l = some ⟨some succ, false⟩) (hlt : h.bound pred < h.bound node)
    (hgt : h.bound node < h.bound succ) :
    ∃ a c, ch = a ++ pred :: succ :: c ∧
      Level ((h.setLink pred l ⟨some node, false⟩).setLinked node (l + 1)) l
        (a ++ pred :: node :: succ :: c) := by
  -- the unmarked link of `pred` is in the chain, so `succ` stands right behind it
  obtain ⟨a, c, rfl⟩ := hb.split (hb.complete pred hpred ⟨_, hl⟩) ⟨false, hl⟩
  refine ⟨a, c, rfl, ?_⟩
  have hpub : ∀ q, ((h.setLink pred l ⟨some node, false⟩).setLinked node (l + 1)).LinkedAt l q ↔
      q = node ∨ h.LinkedAt l q := by
    intro q
    rw [Heap.linkedAt_setLinked (by simpa using Heap.lt_length_of_link hnl) (by simpa using hnode),
      Heap.LinkedAt, Heap.linkedOf_setLink]
    simp [Heap.LinkedAt]
  have hmem : ∀ q, q ∈ a ++ pred :: node :: succ :: c ↔ q = node ∨ q ∈ a ++ pred :: succ :: c := by
    intro q
    simp only [List.mem_append, List.mem_cons]
    tauto
  have hpn : pred ≠ node := fun he => absurd hpred (by rw [he, Heap.LinkedAt, hnode]; exact lt_irrefl l)
  have hpc : pred ∉ succ :: c := fun hm =>
    (List.nodup_middle.mp hb.nodup).notMem (List.mem_append_right _ hm)
  obtain ⟨-, -, hsc⟩ := List.isChain_append_cons_cons.mp hb.linked
  refine ⟨?_, ?_, ?_, ?_, ?_, ?_, ?_⟩
  · simpa [List.head?_append] using hb.first
  · simpa [List.getLast?_append] using hb.last
  · have hch : (a ++ pred :: node :: succ :: c).IsChain
        ((h.setLink pred l ⟨some node, false⟩).NextAt l) :=
      hb.relink hl rfl (List.isChain_cons_cons.mpr ⟨⟨false, hnl⟩, hsc⟩)
        (List.not_mem_cons_of_ne_of_not_mem hpn hpc)
    exact hch.imp fun q r ⟨b, hqr⟩ => ⟨b, by simpa using hqr⟩
  · simpa using hb.sorted_insert hlt hgt
  · intro q hq
    exact (hpub q).mpr (((hmem q).mp hq).imp_right (hb.published q))
  · rintro q hq ⟨o, hu⟩
    rw [Heap.link_setLinked] at hu
    refine (hmem q).mpr (((hpub q).mp hq).imp_right fun hq => hb.complete q hq ?_)
    rcases Heap.link_setLink_cases hu with ⟨rfl, -, -⟩ | hu
    · exact ⟨_, hl⟩
    · exact ⟨o, hu⟩
  · rw [Heap.link_setLinked, Heap.link_setLink_of_ne (.inl ?_)]
    · exact hb.tail_link
    · rintro rfl
      rw [hb.tail_link] at hl
      cases hl

/-- A splice takes a marked node out. -/
theorem splice (hb : Level h l ch) (hpred : h.LinkedAt l pred)
    (hl : h.link pred l = some ⟨some curr, false⟩) (hc : h.link curr l = some ⟨some succ, true⟩) :
    ∃ a c, ch = a ++ pred :: curr :: succ :: c ∧
      Level (h.setLink pred l ⟨some succ, false⟩) l (a ++ pred :: succ :: c) := by
  obtain ⟨a, c, rfl⟩ := hb.split (hb.complete pred hpred ⟨_, hl⟩) ⟨false, hl⟩
  obtain ⟨-, -, hch⟩ := List.isChain_append_cons_cons.mp hb.linked
  cases c with
  | nil =>
      -- the tail is not marked
      have hct : curr = tail := by simpa [List.getLast?_append] using hb.last
      rw [hct, hb.tail_link] at hc
      cases hc
  | cons x c =>
      obtain ⟨hx, hsc⟩ := List.isChain_cons_cons.mp hch
      obtain rfl : succ = x := Heap.NextAt.unique ⟨true, hc⟩ hx
      refine ⟨a, c, rfl, ?_⟩
      have hsub : (a ++ pred :: succ :: c).Sublist (a ++ pred :: curr :: succ :: c) := by
        simp
      have hpc : pred ∉ succ :: c := fun hm =>
        (List.nodup_middle.mp hb.nodup).notMem
          (List.mem_append_right _ (List.mem_cons_of_mem _ hm))
      refine ⟨?_, ?_, ?_, ?_, ?_, ?_, ?_⟩
      · simpa [List.head?_append] using hb.first
      · simpa [List.getLast?_append] using hb.last
      · exact hb.relink hl rfl hsc hpc
      · simpa using hb.sorted.sublist hsub
      · intro q hq
        simpa [Heap.LinkedAt] using hb.published q (hsub.subset hq)
      · rintro q hq ⟨o, hu⟩
        have hold : h.UnmarkedAt l q := by
          rcases Heap.link_setLink_cases hu with ⟨rfl, -, -⟩ | hu
          · exact ⟨_, hl⟩
          · exact ⟨o, hu⟩
        have hqc : q ≠ curr := fun he => (he ▸ hold).not_marked ⟨_, hc⟩
        have := hb.complete q (by simpa [Heap.LinkedAt] using hq) hold
        simp only [List.mem_append, List.mem_cons] at this ⊢
        tauto
      · rw [Heap.link_setLink_of_ne (.inl ?_)]
        · exact hb.tail_link
        · rintro rfl
          rw [hb.tail_link] at hl
          cases hl

/-- A mark leaves the chain as it is. -/
theorem mark {o : Option ℕ} (hb : Level h l ch) (hnode : node ≠ tail)
    (hl : h.link node l = some ⟨o, false⟩) : Level (h.setLink node l ⟨o, true⟩) l ch where
  first := hb.first
  last := hb.last
  linked := hb.linked.imp fun q r ⟨b, hqr⟩ => by
    by_cases hq : q = node
    · subst hq
      rw [hl] at hqr
      cases hqr
      exact ⟨true, Heap.link_setLink_self hl⟩
    · exact ⟨b, (Heap.link_setLink_of_ne (.inl hq)).trans hqr⟩
  sorted := by simpa using hb.sorted
  published q hq := by simpa [Heap.LinkedAt] using hb.published q hq
  complete q hq := fun ⟨o', hu⟩ => by
    rcases Heap.link_setLink_cases hu with ⟨-, -, he⟩ | hu
    · cases he
    · exact hb.complete q (by simpa [Heap.LinkedAt] using hq) ⟨o', hu⟩
  tail_link := (Heap.link_setLink_of_ne (.inl hnode.symm)).trans hb.tail_link

end Level

end Chain

end ZeroKv.SkipList
