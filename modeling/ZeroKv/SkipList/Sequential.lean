/-
# ZeroKv.SkipList.Sequential — run by one thread, the skiplist is a finite map.

Each call is followed from a list at rest to the next list at rest: `get` only searches; an update swaps
one value cell; an insert links its tower from the bottom up; a remove marks its tower from the top
down, and its second `find` takes it out level by level.  The reference is a finite map with the number
of its keys.
-/
import Mathlib.Data.Finmap
import ZeroKv.SkipList.Towers

namespace ZeroKv.SkipList

section Lookup

variable {maxLevel : ℕ} {m : Mem} {h : Heap} {r : Regs} {all : List ℕ} {key : Bytes} {p : ℕ}

namespace Towers

/-- The key is at the node that the search stops at on the bottom level, or nowhere. -/
theorem succAt_zero_eq (ht : Towers maxLevel h all) (hp : p ∈ all) (hk : h.bound p = target key) :
    succAt h key all 0 = p := by
  obtain ⟨xs, ys, -, hys⟩ := ht.level_split (Nat.zero_le _) key
  have hmem : p ∈ succAt h key all 0 :: ys :=
    hys ▸ mem_reach.mpr ⟨mem_above.mpr ⟨hp, hk.ge⟩, Nat.zero_le _⟩
  rcases List.mem_cons.mp hmem with hp | hp
  · exact hp.symm
  · -- a node before `p` would be below the key
    have hsub : (succAt h key all 0 :: ys).Sublist all :=
      hys ▸ List.filter_sublist.trans List.filter_sublist
    have hlt := (List.pairwise_cons.mp (ht.sorted.sublist hsub)).1 p hp
    have hge := (mem_above.mp (mem_reach.mp (ht.succAt_mem (Nat.zero_le _) key)).1).2
    exact absurd (hk ▸ hlt) (not_lt.mpr hge)

theorem succAt_mem_all (ht : Towers maxLevel h all) {l : ℕ} (hl : l ≤ maxLevel) (key : Bytes) :
    succAt h key all l ∈ all :=
  (mem_above.mp (mem_reach.mp (ht.succAt_mem hl key)).1).1

/-- The descent of `get` at rest. -/
theorem get_search (ht : Towers maxLevel m.nodes all) :
    ∀ l ≤ maxLevel, ∀ pred ∈ reach m.nodes l (below m.nodes r.key all),
      Runs maxLevel (m, r, .getRef l pred)
        (m, r, .getGet 0 (predAt m.nodes r.key all 0) (succAt m.nodes r.key all 0)) := by
  intro l
  induction l with
  | zero =>
      intro hl pred hp
      obtain ⟨y, hy, hrun⟩ := ht.runs_level hl (fun _ _ _ => go_getNext) hp
      exact .head (Move.getRef hy).go hrun
  | succ l ih =>
      intro hl pred hp
      obtain ⟨y, hy, hrun⟩ := ht.runs_level hl (fun _ _ _ => go_getNext) hp
      have hs := ht.succAt_mem hl r.key
      obtain ⟨o, ho⟩ := ht.unmarked hl (ht.reach_eq r.key ▸ List.mem_append_right _ hs)
      have hk := (mem_above.mp (mem_reach.mp hs).1).2
      have hpred := mem_reach.mp (ht.predAt_mem hl r.key)
      have hrest := ih (Nat.le_of_succ_le hl) _
        (mem_reach.mpr ⟨hpred.1, Nat.le_of_succ_le hpred.2⟩)
      exact .head (Move.getRef hy).go (hrun.trans (.head (Move.getDown ho hk).go hrest))

/-- `get` of a key that is there returns its cell. -/
theorem get_hit (ht : Towers maxLevel m.nodes all) (hp : p ∈ all)
    (hk : m.nodes.bound p = target r.key) {c : ℕ} (hv : m.nodes.valueOf p = some c) :
    Runs maxLevel (m, r, .getRef maxLevel head)
      (m, { r with borrow := some c }, .ret (.value (some (m.cells.getD c [])))) := by
  have hsearch := ht.get_search (r := r) maxLevel le_rfl head (ht.head_mem_reach le_rfl)
  rw [ht.succAt_zero_eq hp hk] at hsearch
  obtain ⟨o, ho⟩ := ht.unmarked (Nat.zero_le _) (mem_reach.mpr ⟨hp, Nat.zero_le _⟩)
  exact ((hsearch.tail (Move.getHit ho hk).go).tail (Move.getLive ho).go).tail (Move.getVal hv).go

theorem get_miss (ht : Towers maxLevel m.nodes all)
    (hk : ∀ p ∈ all, m.nodes.bound p ≠ target r.key) :
    Runs maxLevel (m, r, .getRef maxLevel head) (m, r, .ret (.value none)) := by
  have hsearch := ht.get_search (r := r) maxLevel le_rfl head (ht.head_mem_reach le_rfl)
  have hs := ht.succAt_mem (Nat.zero_le _) r.key
  obtain ⟨o, ho⟩ := ht.unmarked (Nat.zero_le _) (ht.reach_eq r.key ▸ List.mem_append_right _ hs)
  have hne := hk _ (ht.succAt_mem_all (Nat.zero_le _) r.key)
  have hge := (mem_above.mp (mem_reach.mp hs).1).2
  exact hsearch.tail (Move.getMiss ho (lt_of_le_of_ne hge hne.symm)).go

/-- The search of `insert` or `remove` from the head. -/
theorem search (ht : Towers maxLevel m.nodes all) (a : After) (r : Regs) :
    let r' := r.searched maxLevel (predAt m.nodes r.key all) (succAt m.nodes r.key all)
    Runs maxLevel (m, r, .findRef a maxLevel head)
      (m, r', .found m r' (succAt m.nodes r.key all 0) a) :=
  ht.find a r.key maxLevel le_rfl r rfl head (ht.head_mem_reach le_rfl)

/-- `insert` of a key that is there swaps the cell and retires the old one. -/
theorem insert_update (ht : Towers maxLevel m.nodes all) (hp : p ∈ all)
    (hk : m.nodes.bound p = target r.key) {c : ℕ} (hv : m.nodes.valueOf p = some c) :
    ∃ r', r'.id = r.id ∧
      Runs maxLevel (m, r, .findRef .insert maxLevel head)
        (((m.boxValue r.val).swapValue p m.cells.length).retire (.cell c), r', .ret (.flag false)) := by
  refine ⟨r.searched maxLevel (predAt m.nodes r.key all) (succAt m.nodes r.key all), rfl, ?_⟩
  have hsearch := ht.search .insert r
  rw [ht.succAt_zero_eq hp hk] at hsearch
  have hfound : (m.nodes.keyOf p).keyEq r.key = true := BoundKey.keyEq_iff.mpr hk
  simp only [Pc.found, Regs.searched, hfound, if_true] at hsearch
  exact (hsearch.tail (Move.swapped hv).go).tail Move.insRetire.go

theorem remove_miss (ht : Towers maxLevel m.nodes all)
    (hk : ∀ p ∈ all, m.nodes.bound p ≠ target r.key) :
    ∃ r', r'.id = r.id ∧
      Runs maxLevel (m, r, .findRef .remove maxLevel head) (m, r', .ret (.flag false)) := by
  refine ⟨r.searched maxLevel (predAt m.nodes r.key all) (succAt m.nodes r.key all), rfl, ?_⟩
  have hsearch := ht.search .remove r
  have hne : ¬(m.nodes.keyOf (succAt m.nodes r.key all 0)).keyEq r.key = true := fun e =>
    hk _ (ht.succAt_mem_all (Nat.zero_le _) r.key) (BoundKey.keyEq_iff.mp e)
  simp only [Pc.found, Regs.searched, hne] at hsearch
  exact hsearch

end Towers

end Lookup

/-! ## A new tower -/

/-- The heap `h'` while `insert` adds node `z` to the heap `h`: the links of `z` below level `i` are
written, and the tower is linked below level `j`.  `P` and `C` are what the search found. -/
structure Growing (h : Heap) (P C : ℕ → ℕ) (z top : ℕ) (key : Bytes) (cell i j : ℕ) (h' : Heap) :
    Prop where
  key_eq : ∀ q, q ≠ z → h'.keyOf q = h.keyOf q
  top_eq : ∀ q, q ≠ z → h'.topOf q = h.topOf q
  value_eq : ∀ q, q ≠ z → h'.valueOf q = h.valueOf q
  new_key : h'.keyOf z = .fin (.new key)
  new_top : h'.topOf z = top
  new_value : h'.valueOf z = some cell
  links : ∀ q l, q ≠ z → h'.link q l = if l < j ∧ q = P l then some ⟨some z, false⟩ else h.link q l
  tower : ∀ l, h'.link z l =
    if l ≤ top then some (if l < i then ⟨some (C l), false⟩ else Link.null) else none

namespace Growing

variable {maxLevel : ℕ} {m : Mem} {h h' : Heap} {P C : ℕ → ℕ} {z top cell i j : ℕ} {key : Bytes}
  {r : Regs}

theorem alloc (h : Heap) (P C : ℕ → ℕ) (key : Bytes) (cell top : ℕ) :
    Growing h P C h.length top key cell 0 0 (h.alloc (.new (.fin (.new key)) (some cell) top)) where
  key_eq _ hq := Heap.keyOf_alloc_of_ne hq
  top_eq _ hq := Heap.topOf_alloc_of_ne hq
  value_eq _ hq := Heap.valueOf_alloc_of_ne hq
  new_key := Heap.keyOf_alloc_self
  new_top := Heap.topOf_alloc_self
  new_value := Heap.valueOf_alloc_self
  links q l hq := by simp [Heap.link_alloc_of_ne hq]
  tower l := by
    have hlt : l < top + 1 ↔ l ≤ top := Nat.lt_succ_iff
    simp only [Heap.link_alloc_self, Node.new, List.getElem?_replicate, hlt, Nat.not_lt_zero, if_false]

/-- Writing the next link of the new node. -/
theorem init (hg : Growing h P C z top key cell i j h') (hi : i ≤ top) :
    Growing h P C z top key cell (i + 1) j (h'.setLink z i ⟨some (C i), false⟩) where
  key_eq q hq := by simp [hg.key_eq q hq]
  top_eq q hq := by simp [hg.top_eq q hq]
  value_eq q hq := by simp [hg.value_eq q hq]
  new_key := by simp [hg.new_key]
  new_top := by simp [hg.new_top]
  new_value := by simp [hg.new_value]
  links q l hq := by rw [Heap.link_setLink_of_ne (.inl hq), hg.links q l hq]
  tower l := by
    by_cases hl : l = i
    · subst hl
      rw [Heap.link_setLink_self ((hg.tower l).trans (if_pos hi))]
      simp [hi]
    · rw [Heap.link_setLink_of_ne (.inr hl), hg.tower l]
      have hlt : l < i + 1 ↔ l < i := by omega
      simp [hlt]

/-- Writing again a link that has been written. -/
theorem store (hg : Growing h P C z top key cell i j h') {l : ℕ} (hl : l ≤ top) (hi : l < i) :
    Growing h P C z top key cell i j (h'.setLink z l ⟨some (C l), false⟩) where
  key_eq q hq := by simp [hg.key_eq q hq]
  top_eq q hq := by simp [hg.top_eq q hq]
  value_eq q hq := by simp [hg.value_eq q hq]
  new_key := by simp [hg.new_key]
  new_top := by simp [hg.new_top]
  new_value := by simp [hg.new_value]
  links q l' hq := by rw [Heap.link_setLink_of_ne (.inl hq), hg.links q l' hq]
  tower l' := by
    by_cases he : l' = l
    · subst he
      rw [Heap.link_setLink_self ((hg.tower l').trans (if_pos hl))]
      simp [hl, hi]
    · rw [Heap.link_setLink_of_ne (.inr he), hg.tower l']

/-- Linking the new node at level `j`. -/
theorem link (hg : Growing h P C z top key cell i j h') (hP : P j ≠ z) {lk : Link}
    (hl : h.link (P j) j = some lk) (n : ℕ) :
    Growing h P C z top key cell i (j + 1)
      ((h'.setLink (P j) j ⟨some z, false⟩).setLinked z n) where
  key_eq q hq := by simp [hg.key_eq q hq]
  top_eq q hq := by simp [hg.top_eq q hq]
  value_eq q hq := by simp [hg.value_eq q hq]
  new_key := by simp [hg.new_key]
  new_top := by simp [hg.new_top]
  new_value := by simp [hg.new_value]
  links q l hq := by
    rw [Heap.link_setLinked]
    by_cases hql : q = P j ∧ l = j
    · obtain ⟨rfl, rfl⟩ := hql
      have hold : h'.link (P l) l = some lk := by simp [hg.links _ _ hq, hl]
      simp [Heap.link_setLink_self hold]
    · rw [Heap.link_setLink_of_ne (by tauto), hg.links q l hq]
      have hiff : l < j + 1 ∧ q = P l ↔ l < j ∧ q = P l := by
        constructor
        · rintro ⟨hlj, rfl⟩
          refine ⟨lt_of_le_of_ne (Nat.le_of_lt_succ hlj) ?_, rfl⟩
          rintro rfl
          exact hql ⟨rfl, rfl⟩
        · exact fun ⟨hlj, he⟩ => ⟨Nat.lt_succ_of_lt hlj, he⟩
      simp only [hiff]
  tower l := by rw [Heap.link_setLinked, Heap.link_setLink_of_ne (.inl hP.symm), hg.tower l]

/-- The loop that writes the links of the new node. -/
theorem runs_init (maxLevel : ℕ) {m' : Mem} (hg : Growing h P C z top key cell i j m'.nodes) (hi : i ≤ top)
    (htop : r.topLevel = top) (hC : ∀ l ≤ top, r.succs l = C l) :
    ∃ h'', Growing h P C z top key cell (top + 1) j h'' ∧
      Runs maxLevel (m', r, .insInit z i) ({ m' with nodes := h'' }, r, .insPub z) := by
  induction hn : top - i generalizing i m' with
  | zero =>
      obtain rfl : i = top := by omega
      refine ⟨_, hg.init hi, .single ?_⟩
      rw [← hC i hi]
      exact (Move.insInitLast ((hg.tower i).trans (if_pos hi)) htop.le).go
  | succ n ih =>
      have hlt : i < top := by omega
      have hg' : Growing h P C z top key cell (i + 1) j
          (m'.store z i ⟨some (r.succs i), false⟩).nodes := hC i hi ▸ hg.init hi
      obtain ⟨h'', hg'', hrun⟩ := ih hg' hlt (by omega)
      exact ⟨h'', hg'', .head (Move.insInit ((hg.tower i).trans (if_pos hi)) (htop ▸ hlt)).go hrun⟩

/-- The loop that links the new node at the upper levels. -/
theorem runs_link (maxLevel : ℕ) {m' : Mem} (hg : Growing h P C z top key cell (top + 1) j m'.nodes)
    (hj : j ≤ top + 1) (htop : r.topLevel = top) (hC : ∀ l ≤ top, r.succs l = C l)
    (hP : ∀ l ≤ top, r.preds l = P l) (hne : ∀ l ≤ top, P l ≠ z)
    (hl : ∀ l ≤ top, h.link (P l) l = some ⟨some (C l), false⟩) :
    ∃ h'', Growing h P C z top key cell (top + 1) (top + 1) h'' ∧
      Runs maxLevel (m', r, .insUp r.topLevel z j) ({ m' with nodes := h'' }, r, .insLen) := by
  induction hn : top + 1 - j generalizing j m' with
  | zero =>
      obtain rfl : j = top + 1 := by omega
      refine ⟨m'.nodes, hg, ?_⟩
      rw [Pc.insUp, if_neg (by omega)]
  | succ n ih =>
      have hjt : j ≤ top := by omega
      have hg₁ : Growing h P C z top key cell (top + 1) j
          (m'.store z j ⟨some (r.succs j), false⟩).nodes := hC j hjt ▸ hg.store hjt (by omega)
      -- nobody else runs, so the link of `P j` is what the search saw
      have hold : (m'.store z j ⟨some (r.succs j), false⟩).nodes.link (r.preds j) j =
          some ⟨some (r.succs j), false⟩ := by
        rw [hP j hjt, hg₁.links _ _ (hne j hjt), hC j hjt]
        simp [hl j hjt]
      have hg₂ : Growing h P C z top key cell (top + 1) (j + 1)
          (((m'.store z j ⟨some (r.succs j), false⟩).store (r.preds j) j
            ⟨some z, false⟩).linkedAt z (j + 1)).nodes :=
        hP j hjt ▸ hg₁.link (hne j hjt) (hl j hjt) (j + 1)
      obtain ⟨h'', hg'', hrun⟩ := ih hg₂ (by omega) (by omega)
      refine ⟨h'', hg'', ?_⟩
      rw [Pc.insUp, if_pos (htop ▸ hjt)]
      exact .head (Move.insStore ((hg.tower j).trans (if_pos hjt))).go
        (.head (Move.linked hold).go hrun)

section Finished

variable {all : List ℕ}

theorem bound_eq (hg : Growing h P C z top key cell i j h') {q : ℕ} (hq : q ≠ z) :
    h'.bound q = h.bound q := by
  rw [Heap.bound, hg.key_eq q hq, Heap.bound]

theorem new_bound (hg : Growing h P C z top key cell i j h') : h'.bound z = target key := by
  rw [Heap.bound, hg.new_key, BoundKey.bound_new]

theorem reach_eq (hg : Growing h P C z top key cell i j h') {xs : List ℕ} (hz : z ∉ xs) (l : ℕ) :
    reach h' l xs = reach h l xs :=
  List.filter_congr fun q hq => by rw [hg.top_eq q (fun e => hz (e ▸ hq))]

/-- The new node is in its place. -/
theorem sorted (hg : Growing h P C z top key cell i j h') (ht : Towers maxLevel h all) (hz : z ∉ all)
    (hnew : ∀ p ∈ all, h.bound p ≠ target key) :
    (below h key all ++ z :: above h key all).Pairwise fun p q => h'.bound p < h'.bound q := by
  have hne : ∀ q ∈ all, q ≠ z := fun q hq e => hz (e ▸ hq)
  have hsorted : ∀ xs : List ℕ, xs.Sublist all → xs.Pairwise fun p q => h'.bound p < h'.bound q :=
    fun xs hxs => (ht.sorted.sublist hxs).imp_of_mem fun hp hq hlt => by
      rwa [hg.bound_eq (hne _ (hxs.subset hp)), hg.bound_eq (hne _ (hxs.subset hq))]
  have hlo : ∀ q ∈ below h key all, h'.bound q < target key := by
    intro q hq
    obtain ⟨hmem, hlt⟩ := mem_below.mp hq
    rwa [hg.bound_eq (hne q hmem)]
  have hhi : ∀ q ∈ above h key all, target key < h'.bound q := by
    intro q hq
    obtain ⟨hmem, hle⟩ := mem_above.mp hq
    rw [hg.bound_eq (hne q hmem)]
    exact lt_of_le_of_ne hle (hnew q hmem).symm
  refine List.pairwise_append.mpr ⟨hsorted _ List.filter_sublist,
    List.pairwise_cons.mpr ⟨?_, hsorted _ List.filter_sublist⟩, ?_⟩
  · intro q hq
    rw [hg.new_bound]
    exact hhi q hq
  · intro p hp q hq
    rcases List.mem_cons.mp hq with rfl | hq
    · rw [hg.new_bound]
      exact hlo p hp
    · exact (hlo p hp).trans (hhi q hq)

/-- Every level is a path again. -/
theorem path
    (hg : Growing h (predAt h key all) (succAt h key all) z top key cell (top + 1) (top + 1) h')
    (ht : Towers maxLevel h all) (hz : z ∉ all) {l : ℕ} (hl : l ≤ maxLevel) :
    Path h' l (reach h' l (below h key all ++ z :: above h key all)) := by
  have hzlo : z ∉ below h key all := fun hq => hz (mem_below.mp hq).1
  have hzhi : z ∉ above h key all := fun hq => hz (mem_above.mp hq).1
  have hne : ∀ q ∈ reach h l all, q ≠ z := fun q hq e => hz (e ▸ (mem_reach.mp hq).1)
  have hnd : (reach h l all).Nodup := ht.nodup.sublist List.filter_sublist
  have hpath := ht.path l hl
  rw [ht.reach_eq key] at hpath hne hnd
  rw [reach_append, hg.reach_eq hzlo]
  by_cases hlt : l ≤ top
  · -- the new tower is on this level, between what the search found
    obtain ⟨xs, ys, hxs, hys⟩ := ht.level_split hl key
    rw [reach_cons_of_le (by rwa [hg.new_top]), hg.reach_eq hzhi, hxs, hys]
    rw [hxs, hys] at hpath hne hnd
    simp only [List.append_assoc, List.singleton_append] at hpath hne hnd ⊢
    obtain ⟨hp₁, -, hp₂⟩ := List.isChain_append_cons_cons.mp hpath
    have hframe : ∀ q ∈ xs ++ succAt h key all l :: ys, h'.link q l = h.link q l := by
      intro q hq
      rw [hg.links q l (hne q (by simp at hq ⊢; tauto)), if_neg]
      rintro ⟨-, rfl⟩
      exact (List.nodup_middle.mp hnd).notMem hq
    refine List.isChain_append_cons_cons.mpr ⟨?_, ?_, List.isChain_cons_cons.mpr ⟨?_, ?_⟩⟩
    · exact Path.congr_init hp₁ fun q hq => hframe q (List.mem_append_left _ hq)
    · rw [hg.links _ _ (hne _ (by simp)), if_pos ⟨by omega, rfl⟩]
    · rw [hg.tower l, if_pos hlt, if_pos (by omega)]
    · exact Path.congr hp₂ fun q hq => hframe q (List.mem_append_right _ hq)
  · rw [reach_cons_of_lt (by rw [hg.new_top]; omega), hg.reach_eq hzhi]
    refine hpath.congr fun q hq => ?_
    rw [hg.links q l (hne q hq), if_neg (by omega)]

/-- With the tower in place the list is at rest again. -/
theorem towers
    (hg : Growing h (predAt h key all) (succAt h key all) z top key cell (top + 1) (top + 1) h')
    (ht : Towers maxLevel h all) (hz : z ∉ all) (htop : top ≤ maxLevel)
    (hnew : ∀ p ∈ all, h.bound p ≠ target key) :
    Towers maxLevel h' (below h key all ++ z :: above h key all) := by
  have hne : ∀ q ∈ all, q ≠ z := fun q hq e => hz (e ▸ hq)
  have hmem : ∀ q, q ∈ below h key all ++ z :: above h key all ↔ q = z ∨ q ∈ all := by
    intro q
    conv_rhs => rw [← below_append_above key ht.sorted]
    simp only [List.mem_append, List.mem_cons]
    tauto
  refine
    { sorted := hg.sorted ht hz hnew
      head_mem := (hmem _).mpr (.inr ht.head_mem)
      tail_mem := (hmem _).mpr (.inr ht.tail_mem)
      head_key := by rw [hg.key_eq _ (hne _ ht.head_mem), ht.head_key]
      tail_key := by rw [hg.key_eq _ (hne _ ht.tail_mem), ht.tail_key]
      head_top := by rw [hg.top_eq _ (hne _ ht.head_mem)]; exact ht.head_top
      tail_top := by rw [hg.top_eq _ (hne _ ht.tail_mem)]; exact ht.tail_top
      inner_top := ?_
      path := fun l hl => hg.path ht hz hl
      tail_link := ?_ }
  · intro p hp hph hpt
    rcases (hmem p).mp hp with rfl | hp
    · rw [hg.new_top]
      exact htop
    · rw [hg.top_eq p (hne p hp)]
      exact ht.inner_top p hp hph hpt
  · intro l hl
    rw [hg.links _ l (hne _ ht.tail_mem), if_neg, ht.tail_link l hl]
    rintro ⟨-, he⟩
    -- the tail is never below a key
    have hlt := (mem_below.mp (mem_reach.mp (ht.predAt_mem hl key)).1).2
    exact Heap.ne_tail_of_bound_le ht.tail_key hlt.le he.symm

end Finished

end Growing

/-- `insert` of a key that is not there adds a tower for it. -/
theorem Towers.insert_new {maxLevel : ℕ} {m : Mem} {r : Regs} {all : List ℕ}
    (ht : Towers maxLevel m.nodes all) (htop : r.topLevel ≤ maxLevel)
    (hnew : ∀ p ∈ all, m.nodes.bound p ≠ target r.key) :
    ∃ h' r', r'.id = r.id ∧
      Growing m.nodes (predAt m.nodes r.key all) (succAt m.nodes r.key all) m.nodes.length r.topLevel
        r.key m.cells.length (r.topLevel + 1) (r.topLevel + 1) h' ∧
      Runs maxLevel (m, r, .findRef .insert maxLevel head)
        (({ m.boxValue r.val with nodes := h' } : Mem).incLen, r', .ret (.flag true)) := by
  have hsearch := ht.search .insert r
  have hne : ¬(m.nodes.keyOf (succAt m.nodes r.key all 0)).keyEq r.key = true := fun e =>
    hnew _ (ht.succAt_mem_all (Nat.zero_le _) r.key) (BoundKey.keyEq_iff.mp e)
  simp only [Pc.found, Regs.searched, hne] at hsearch
  -- the locals after the search
  obtain ⟨r', hr'⟩ : ∃ r', r' =
    r.searched maxLevel (predAt m.nodes r.key all) (succAt m.nodes r.key all) := ⟨_, rfl⟩
  have hP : ∀ l ≤ r.topLevel, r'.preds l = predAt m.nodes r.key all l := fun l hl => by
    rw [hr']
    exact if_pos (hl.trans htop)
  have hC : ∀ l ≤ r.topLevel, r'.succs l = succAt m.nodes r.key all l := fun l hl => by
    rw [hr']
    exact if_pos (hl.trans htop)
  have hPz : ∀ l ≤ r.topLevel, predAt m.nodes r.key all l ≠ m.nodes.length := fun l hl =>
    (ht.lt_length (mem_below.mp (mem_reach.mp (ht.predAt_mem (hl.trans htop) r.key)).1).1).ne
  have hlink : ∀ l ≤ r.topLevel, m.nodes.link (predAt m.nodes r.key all l) l =
      some ⟨some (succAt m.nodes r.key all l), false⟩ :=
    fun l hl => ht.link_predAt (hl.trans htop) r.key
  have hsearch : Runs maxLevel (m, r, .findRef .insert maxLevel head) (m, r', .insAlloc) := by
    rw [hr']
    exact hsearch
  have hkey : r'.key = r.key := by rw [hr']; rfl
  have hval : r'.val = r.val := by rw [hr']; rfl
  have htop' : r'.topLevel = r.topLevel := by rw [hr']; rfl
  -- the node is allocated, its links are written, it is published, and the upper levels are linked
  have halloc : Growing m.nodes (predAt m.nodes r.key all) (succAt m.nodes r.key all) m.nodes.length
      r.topLevel r.key m.cells.length 0 0
      ((m.boxValue r'.val).allocNode
        (.new (.fin (.new r'.key)) (some m.cells.length) r'.topLevel)).nodes := by
    rw [hkey, htop']
    exact Growing.alloc ..
  obtain ⟨h₁, hg₁, hrun₁⟩ := halloc.runs_init maxLevel (Nat.zero_le _) htop' hC
  have hold : h₁.link (r'.preds 0) 0 = some ⟨some (r'.succs 0), false⟩ := by
    rw [hP 0 (Nat.zero_le _), hC 0 (Nat.zero_le _), hg₁.links _ _ (hPz 0 (Nat.zero_le _))]
    simp [hlink 0 (Nat.zero_le _)]
  have hg₂ : Growing m.nodes (predAt m.nodes r.key all) (succAt m.nodes r.key all) m.nodes.length
      r.topLevel r.key m.cells.length (r.topLevel + 1) 1
      ((({ m.boxValue r'.val with nodes := h₁ } : Mem).store (r'.preds 0) 0
        ⟨some m.nodes.length, false⟩).linkedAt m.nodes.length 1).nodes := by
    rw [hP 0 (Nat.zero_le _)]
    exact hg₁.link (hPz 0 (Nat.zero_le _)) (hlink 0 (Nat.zero_le _)) 1
  obtain ⟨h₂, hg₃, hrun₂⟩ := hg₂.runs_link maxLevel (by omega) htop' hC hP hPz hlink
  refine ⟨h₂, r', by rw [hr']; rfl, hg₃, ?_⟩
  rw [← hval]
  refine (hsearch.tail Move.insAlloc.go).trans (hrun₁.trans ?_)
  exact .head (Move.published hold).go (hrun₂.tail Move.insLen.go)

/-! ## A tower taken out -/

/-- The heap `h'` while `remove` takes node `n` out of the heap `h`: the links of `n` from level `i` on
are marked, and it is unlinked from level `j` on.  `P` and `C` are its neighbours. -/
structure Shrinking (h : Heap) (P C : ℕ → ℕ) (n i j : ℕ) (h' : Heap) : Prop where
  key_eq : h'.keyOf = h.keyOf
  top_eq : h'.topOf = h.topOf
  value_eq : h'.valueOf = h.valueOf
  links : ∀ q l, q ≠ n →
    h'.link q l = if j ≤ l ∧ l ≤ h.topOf n ∧ q = P l then some ⟨some (C l), false⟩ else h.link q l
  tower : ∀ l ≤ h.topOf n, h'.link n l = some ⟨some (C l), decide (i ≤ l)⟩

namespace Shrinking

variable {maxLevel : ℕ} {m : Mem} {h h' : Heap} {P C : ℕ → ℕ} {n i j : ℕ} {r : Regs}

theorem start {top : ℕ} (htop : h.topOf n = top)
    (hl : ∀ l ≤ top, h.link n l = some ⟨some (C l), false⟩) (hj : top < j) :
    Shrinking h P C n (top + 1) j h where
  key_eq := rfl
  top_eq := rfl
  value_eq := rfl
  links q l _ := by
    rw [if_neg]
    omega
  tower l hle := by
    rw [hl l (htop ▸ hle), decide_eq_false (by omega)]

/-- Marking the next link of the tower. -/
theorem mark (hs : Shrinking h P C n (i + 1) j h') (hi : i ≤ h.topOf n) :
    Shrinking h P C n i j (h'.setLink n i ⟨some (C i), true⟩) where
  key_eq := by simp [hs.key_eq]
  top_eq := by simp [hs.top_eq]
  value_eq := by simp [hs.value_eq]
  links q l hq := by rw [Heap.link_setLink_of_ne (.inl hq), hs.links q l hq]
  tower l hl := by
    by_cases he : l = i
    · subst he
      rw [Heap.link_setLink_self (hs.tower l hl)]
      simp
    · rw [Heap.link_setLink_of_ne (.inr he), hs.tower l hl]
      have hiff : i + 1 ≤ l ↔ i ≤ l := by omega
      simp [hiff]

/-- Redirecting the link of the predecessor at level `j`. -/
theorem unlink (hs : Shrinking h P C n i (j + 1) h') (hP : P j ≠ n) {lk : Link}
    (hl : h.link (P j) j = some lk) (hj : j ≤ h.topOf n) :
    Shrinking h P C n i j (h'.setLink (P j) j ⟨some (C j), false⟩) where
  key_eq := by simp [hs.key_eq]
  top_eq := by simp [hs.top_eq]
  value_eq := by simp [hs.value_eq]
  links q l hq := by
    by_cases hql : q = P j ∧ l = j
    · obtain ⟨rfl, rfl⟩ := hql
      have hold : h'.link (P l) l = some lk := by simp [hs.links _ _ hq, hl]
      simp [Heap.link_setLink_self hold, hj]
    · rw [Heap.link_setLink_of_ne (by tauto), hs.links q l hq]
      have hiff : (j + 1 ≤ l ∧ l ≤ h.topOf n ∧ q = P l) ↔ (j ≤ l ∧ l ≤ h.topOf n ∧ q = P l) := by
        constructor
        · exact fun ⟨hlj, hr⟩ => ⟨Nat.le_of_succ_le hlj, hr⟩
        · rintro ⟨hlj, hle, rfl⟩
          refine ⟨lt_of_le_of_ne hlj ?_, hle, rfl⟩
          rintro rfl
          exact hql ⟨rfl, rfl⟩
      simp only [hiff]
  tower l hle := by rw [Heap.link_setLink_of_ne (.inl hP.symm), hs.tower l hle]

/-- Above the tower there is nothing to unlink. -/
theorem skip (hs : Shrinking h P C n i (j + 1) h') (hj : h.topOf n < j) :
    Shrinking h P C n i j h' where
  key_eq := hs.key_eq
  top_eq := hs.top_eq
  value_eq := hs.value_eq
  links q l hq := by
    rw [hs.links q l hq]
    have hiff : (j + 1 ≤ l ∧ l ≤ h.topOf n ∧ q = P l) ↔ (j ≤ l ∧ l ≤ h.topOf n ∧ q = P l) := by
      constructor <;> rintro ⟨h₁, h₂, h₃⟩ <;> exact ⟨by omega, h₂, h₃⟩
    simp only [hiff]
  tower := hs.tower

/-- The loop of `remove` over the upper levels, from the top down. -/
theorem runs_mark (maxLevel : ℕ) {m' : Mem} (hs : Shrinking h P C n (i + 1) j m'.nodes)
    (hi : i ≤ h.topOf n) :
    ∃ h'', Shrinking h P C n 1 j h'' ∧
      Runs maxLevel (m', r, .rmDown n i) ({ m' with nodes := h'' }, r, .rmGet0 n) := by
  induction i generalizing m' with
  | zero => exact ⟨m'.nodes, hs, .refl⟩
  | succ i ih =>
      have hlive : m'.nodes.link n (i + 1) = some ⟨some (C (i + 1)), false⟩ := by
        rw [hs.tower (i + 1) hi, decide_eq_false (by omega)]
      have hs' : Shrinking h P C n (i + 1) j
          (m'.store n (i + 1) ⟨some (C (i + 1)), true⟩).nodes := hs.mark hi
      have hdead := hs'.tower (i + 1) hi
      rw [decide_eq_true le_rfl] at hdead
      obtain ⟨h'', hs'', hrun⟩ := ih hs' (Nat.le_of_succ_le hi)
      refine ⟨h'', hs'', ?_⟩
      rw [Pc.rmDown, if_neg (Nat.succ_ne_zero i)]
      exact .head (Move.rmGet hlive).go
        (.head (Move.rmMarked hlive).go (.head (Move.rmPassed hdead).go hrun))

end Shrinking

/-- The successor that a node followed by `rest` has at level `l`. -/
def nextAt (h : Heap) (rest : List ℕ) (l : ℕ) : ℕ := ((reach h l rest).head?).getD tail

theorem reach_zero {h : Heap} {xs : List ℕ} : reach h 0 xs = xs := by
  simp [reach]

/-- Node `n` holds `key` in a list at rest, and `rest` stands behind it. -/
structure Holds (maxLevel : ℕ) (h : Heap) (all : List ℕ) (key : Bytes) (n : ℕ) (rest : List ℕ) :
    Prop where
  towers : Towers maxLevel h all
  above_eq : above h key all = n :: rest
  bound_eq : h.bound n = target key

section Remove

variable {maxLevel : ℕ} {h : Heap} {all rest : List ℕ} {key : Bytes} {n l : ℕ}

theorem Towers.holds (ht : Towers maxLevel h all) (hn : n ∈ all) (hk : h.bound n = target key) :
    ∃ rest, Holds maxLevel h all key n rest := by
  obtain ⟨xs, ys, -, hys⟩ := ht.level_split (Nat.zero_le _) key
  rw [reach_zero, ht.succAt_zero_eq hn hk] at hys
  exact ⟨ys, ht, hys, hk⟩

namespace Holds

theorem all_eq (hh : Holds maxLevel h all key n rest) : all = below h key all ++ n :: rest := by
  rw [← hh.above_eq, below_append_above key hh.towers.sorted]

theorem lt_of_mem_rest (hh : Holds maxLevel h all key n rest) {q : ℕ} (hq : q ∈ rest) :
    target key < h.bound q := by
  have hs := hh.towers.sorted
  rw [hh.all_eq] at hs
  rw [← hh.bound_eq]
  exact (List.pairwise_cons.mp (List.pairwise_append.mp hs).2.1).1 q hq

theorem node_ne_of_bound (hh : Holds maxLevel h all key n rest) {q : ℕ}
    (hq : h.bound q ≠ target key) : q ≠ n := by
  rintro rfl
  exact hq hh.bound_eq

theorem head_ne (hh : Holds maxLevel h all key n rest) : head ≠ n := by
  exact hh.node_ne_of_bound (Heap.bound_head_lt hh.towers.head_key key).ne

theorem tail_ne (hh : Holds maxLevel h all key n rest) : tail ≠ n := by
  exact hh.node_ne_of_bound (Heap.lt_bound_tail hh.towers.tail_key key).ne'

theorem mem_all (hh : Holds maxLevel h all key n rest) {q : ℕ} :
    q ∈ all ↔ q ∈ below h key all ∨ q = n ∨ q ∈ rest := by
  conv_lhs => rw [hh.all_eq]
  simp

theorem tail_mem_rest (hh : Holds maxLevel h all key n rest) : tail ∈ rest := by
  rcases hh.mem_all.mp hh.towers.tail_mem with hm | hm | hm
  · exact absurd rfl (Heap.ne_tail_of_bound_le hh.towers.tail_key (mem_below.mp hm).2.le)
  · exact absurd hm hh.tail_ne
  · exact hm

theorem top_le (hh : Holds maxLevel h all key n rest) : h.topOf n ≤ maxLevel :=
  hh.towers.inner_top n (hh.mem_all.mpr (.inr (.inl rfl))) hh.head_ne.symm hh.tail_ne.symm

/-- The neighbours of the node at level `l`. -/
theorem level (hh : Holds maxLevel h all key n rest) (hl : l ≤ maxLevel) :
    ∃ xs ys, reach h l (below h key all) = xs ++ [predAt h key all l] ∧
      reach h l rest = nextAt h rest l :: ys := by
  obtain ⟨xs, -, hxs, -⟩ := hh.towers.level_split hl key
  have hne : reach h l rest ≠ [] :=
    List.ne_nil_of_mem (mem_reach.mpr ⟨hh.tail_mem_rest, hl.trans hh.towers.tail_top⟩)
  refine ⟨xs, (reach h l rest).tail, hxs, ?_⟩
  rw [nextAt, List.head?_eq_some_head hne, Option.getD_some, List.cons_head_tail hne]

theorem path (hh : Holds maxLevel h all key n rest) (hl : l ≤ maxLevel) :
    Path h l (reach h l (below h key all) ++ reach h l (n :: rest)) := by
  have hp := hh.towers.path l hl
  rwa [hh.towers.reach_eq key, hh.above_eq] at hp

/-- The links of the node and of its predecessor, as high as its tower reaches. -/
theorem links (hh : Holds maxLevel h all key n rest) (hl : l ≤ h.topOf n) :
    h.link (predAt h key all l) l = some ⟨some n, false⟩ ∧
      h.link n l = some ⟨some (nextAt h rest l), false⟩ := by
  obtain ⟨xs, ys, hxs, hys⟩ := hh.level (hl.trans hh.top_le)
  have hp := hh.path (hl.trans hh.top_le)
  rw [hxs, reach_cons_of_le hl, hys, List.append_assoc, List.singleton_append] at hp
  obtain ⟨-, hpn, hrest⟩ := List.isChain_append_cons_cons.mp hp
  exact ⟨hpn, (List.isChain_cons_cons.mp hrest).1⟩

theorem predAt_below (hh : Holds maxLevel h all key n rest) (hl : l ≤ maxLevel) :
    h.bound (predAt h key all l) < target key :=
  (mem_below.mp (mem_reach.mp (hh.towers.predAt_mem hl key)).1).2

theorem predAt_ne (hh : Holds maxLevel h all key n rest) (hl : l ≤ maxLevel) :
    predAt h key all l ≠ n :=
  hh.node_ne_of_bound (hh.predAt_below hl).ne

theorem nextAt_mem (hh : Holds maxLevel h all key n rest) (hl : l ≤ maxLevel) :
    nextAt h rest l ∈ reach h l rest := by
  obtain ⟨-, ys, -, hys⟩ := hh.level hl
  rw [hys]
  simp

theorem lt_nextAt (hh : Holds maxLevel h all key n rest) (hl : l ≤ maxLevel) :
    target key < h.bound (nextAt h rest l) :=
  hh.lt_of_mem_rest (mem_reach.mp (hh.nextAt_mem hl)).1

end Holds

section Clean

variable {m' : Mem} {r : Regs} {i j : ℕ}

theorem Shrinking.bound_eq {P C : ℕ → ℕ} {h' : Heap} (hs : Shrinking h P C n i j h') (q : ℕ) :
    h'.bound q = h.bound q := by
  rw [Heap.bound, hs.key_eq, Heap.bound]

/-- The second `find` of `remove` on one level: it comes to the predecessor of the node, takes the node
out if it is on this level, and stands before its successor. -/
theorem Holds.runs_clean (hh : Holds maxLevel h all key n rest) (hl : l ≤ maxLevel) (hkey : r.key = key)
    (hs : Shrinking h (predAt h key all) (nextAt h rest) n 0 (l + 1) m'.nodes) {pred : ℕ}
    (hp : pred ∈ reach h l (below h key all)) :
    ∃ h'', Shrinking h (predAt h key all) (nextAt h rest) n 0 l h'' ∧
      Runs maxLevel (m', r, .findRef (.clean n) l pred)
        ({ m' with nodes := h'' }, r, .findGet (.clean n) l (predAt h key all l) (nextAt h rest l)) := by
  obtain ⟨xs, ys, hxs, hys⟩ := hh.level hl
  have hlt : ∀ y ∈ reach h l (below h key all), h.bound y < target key :=
    fun y hy => (mem_below.mp (mem_reach.mp hy).1).2
  have hlast : (reach h l (below h key all)).getLast? = some (predAt h key all l) := by
    rw [hxs]
    simp
  -- up to the node the level is as it was
  have hframe : ∀ y ∈ reach h l (below h key all), m'.nodes.link y l = h.link y l := by
    intro y hy
    rw [hs.links y l (hh.node_ne_of_bound (hlt y hy).ne), if_neg (by omega)]
  have hwalk : ∀ c, Path h l (reach h l (below h key all) ++ [c]) →
      ∃ y, m'.nodes.link pred l = some ⟨some y, false⟩ ∧
        Runs maxLevel (m', r, .findGet (.clean n) l pred y)
          (m', r, .findGet (.clean n) l (predAt h key all l) c) := by
    intro c hc
    refine runs_level (fun _ _ _ => go_findNext) (hc.congr_init hframe) ?_ hp hlast
    intro y hy
    rw [hs.bound_eq, hkey]
    exact hlt y hy
  by_cases hln : l ≤ h.topOf n
  · obtain ⟨hpn, hn⟩ := hh.links hln
    have hpath : Path h l (reach h l (below h key all) ++ [n]) := by
      refine (hh.path hl).within ⟨[], reach h l rest, ?_⟩
      rw [reach_cons_of_le hln]
      simp
    obtain ⟨y, hy, hrun⟩ := hwalk n hpath
    have hmarked := hs.tower l hln
    rw [decide_eq_true (Nat.zero_le l)] at hmarked
    have hpred : m'.nodes.link (predAt h key all l) l = some ⟨some n, false⟩ := by
      rw [hs.links _ l (hh.predAt_ne hl), if_neg (by omega), hpn]
    refine ⟨_, hs.unlink (hh.predAt_ne hl) hpn hln, ?_⟩
    exact .head (Move.findRef hy).go
      ((hrun.tail (Move.findMarked hmarked).go).tail (Move.spliced hpred).go)
  · have hpath : Path h l (reach h l (below h key all) ++ [nextAt h rest l]) := by
      refine (hh.path hl).within ⟨[], ys, ?_⟩
      rw [reach_cons_of_lt (Nat.lt_of_not_le hln), hys]
      simp
    obtain ⟨y, hy, hrun⟩ := hwalk _ hpath
    exact ⟨m'.nodes, hs.skip (Nat.lt_of_not_le hln), .head (Move.findRef hy).go hrun⟩

/-- The successor of the node is not marked, and above the key. -/
theorem Holds.next_live (hh : Holds maxLevel h all key n rest) (hl : l ≤ maxLevel) {h'' : Heap}
    (hs : Shrinking h (predAt h key all) (nextAt h rest) n i j h'') :
    (∃ o, h''.link (nextAt h rest l) l = some ⟨o, false⟩) ∧
      target key ≤ h''.bound (nextAt h rest l) := by
  have hlt := hh.lt_nextAt hl
  have hmem := mem_reach.mp (hh.nextAt_mem hl)
  obtain ⟨o, ho⟩ := hh.towers.unmarked hl
    (mem_reach.mpr ⟨hh.mem_all.mpr (.inr (.inr hmem.1)), hmem.2⟩)
  refine ⟨⟨o, ?_⟩, by rw [hs.bound_eq]; exact hlt.le⟩
  rw [hs.links _ l (hh.node_ne_of_bound hlt.ne'), if_neg, ho]
  rintro ⟨-, -, he⟩
  exact absurd (he ▸ hlt) (not_lt.mpr (hh.predAt_below hl).le)

/-- The second `find` of `remove`, from level `l` down. -/
theorem Holds.clean (hh : Holds maxLevel h all key n rest) :
    ∀ l ≤ maxLevel, ∀ (m' : Mem) (r : Regs), r.key = key →
      Shrinking h (predAt h key all) (nextAt h rest) n 0 (l + 1) m'.nodes →
      ∀ pred ∈ reach h l (below h key all),
      ∃ h'' r', r'.id = r.id ∧ Shrinking h (predAt h key all) (nextAt h rest) n 0 0 h'' ∧
        Runs maxLevel (m', r, .findRef (.clean n) l pred)
          ({ m' with nodes := h'' }, r', .rmLen n) := by
  intro l
  induction l with
  | zero =>
      intro hl m' r hkey hs pred hp
      obtain ⟨h'', hs'', hrun⟩ := hh.runs_clean hl hkey hs hp
      obtain ⟨⟨o, ho⟩, hge⟩ := hh.next_live hl hs''
      rw [← hkey] at hge
      refine ⟨h'', r.atLevel 0 (predAt h key all 0) (nextAt h rest 0), rfl, hs'', hrun.tail ?_⟩
      exact (Move.findDone ho hge).go
  | succ l ih =>
      intro hl m' r hkey hs pred hp
      obtain ⟨h₁, hs₁, hrun₁⟩ := hh.runs_clean hl hkey hs hp
      obtain ⟨⟨o, ho⟩, hge⟩ := hh.next_live hl hs₁
      rw [← hkey] at hge
      have hpred := mem_reach.mp (hh.towers.predAt_mem hl key)
      obtain ⟨h₂, r₂, hid, hs₂, hrun₂⟩ := ih (Nat.le_of_succ_le hl) { m' with nodes := h₁ }
        (r.atLevel (l + 1) (predAt h key all (l + 1)) (nextAt h rest (l + 1))) hkey hs₁
        (predAt h key all (l + 1)) (mem_reach.mpr ⟨hpred.1, Nat.le_of_succ_le hpred.2⟩)
      exact ⟨h₂, r₂, hid, hs₂, hrun₁.trans (.head (Move.findDown ho hge).go hrun₂)⟩

end Clean

theorem Holds.rest_sublist (hh : Holds maxLevel h all key n rest) :
    (below h key all ++ rest).Sublist all := by
  conv_rhs => rw [hh.all_eq]
  exact (List.Sublist.refl _).append (List.sublist_cons_self n rest)

theorem Holds.mem_rest (hh : Holds maxLevel h all key n rest) {q : ℕ} :
    q ∈ below h key all ++ rest ↔ q ∈ all ∧ q ≠ n := by
  rw [hh.mem_all, List.mem_append]
  constructor
  · rintro (hq | hq)
    · exact ⟨.inl hq, hh.node_ne_of_bound (mem_below.mp hq).2.ne⟩
    · exact ⟨.inr (.inr hq), hh.node_ne_of_bound (hh.lt_of_mem_rest hq).ne'⟩
  · tauto

/-- Every level is a path again, around the node. -/
theorem Holds.path_around (hh : Holds maxLevel h all key n rest) {h' : Heap}
    (hs : Shrinking h (predAt h key all) (nextAt h rest) n 0 0 h') (hl : l ≤ maxLevel) :
    Path h' l (reach h l (below h key all ++ rest)) := by
  have hsub : (reach h l (below h key all ++ rest)).Sublist (below h key all ++ rest) :=
    List.filter_sublist
  have hnd := hh.towers.nodup.sublist (hsub.trans hh.rest_sublist)
  have hne : ∀ q ∈ reach h l (below h key all ++ rest), q ≠ n :=
    fun q hq => (hh.mem_rest.mp (hsub.subset hq)).2
  have hp := hh.path hl
  obtain ⟨xs, ys, hxs, hys⟩ := hh.level hl
  rw [reach_append, hxs, hys, List.append_assoc, List.singleton_append] at hnd hne ⊢
  by_cases hln : l ≤ h.topOf n
  · rw [hxs, reach_cons_of_le hln, hys, List.append_assoc, List.singleton_append] at hp
    obtain ⟨hp₁, -, hp₂⟩ := List.isChain_append_cons_cons.mp hp
    have hframe : ∀ q ∈ xs ++ nextAt h rest l :: ys, h'.link q l = h.link q l := by
      intro q hq
      rw [hs.links q l (hne q (by simp at hq ⊢; tauto)), if_neg]
      rintro ⟨-, -, rfl⟩
      exact (List.nodup_middle.mp hnd).notMem hq
    refine List.isChain_append_cons_cons.mpr ⟨?_, ?_, ?_⟩
    · exact Path.congr_init hp₁ fun q hq => hframe q (List.mem_append_left _ hq)
    · rw [hs.links _ l (hne _ (by simp)), if_pos ⟨Nat.zero_le l, hln, rfl⟩]
    · exact Path.congr (List.isChain_cons_cons.mp hp₂).2
        fun q hq => hframe q (List.mem_append_right _ hq)
  · rw [hxs, reach_cons_of_lt (Nat.lt_of_not_le hln), hys, List.append_assoc,
      List.singleton_append] at hp
    refine Path.congr hp fun q hq => ?_
    rw [hs.links q l (hne q hq), if_neg (by omega)]

/-- Without the node the list is at rest again. -/
theorem Holds.towers_of_shrinking (hh : Holds maxLevel h all key n rest) {h' : Heap}
    (hs : Shrinking h (predAt h key all) (nextAt h rest) n 0 0 h') :
    Towers maxLevel h' (below h key all ++ rest) := by
  have hbound : ∀ q, h'.bound q = h.bound q := hs.bound_eq
  have ht := hh.towers
  refine
    { sorted := by simpa only [hbound] using ht.sorted.sublist hh.rest_sublist
      head_mem := hh.mem_rest.mpr ⟨ht.head_mem, hh.head_ne⟩
      tail_mem := hh.mem_rest.mpr ⟨ht.tail_mem, hh.tail_ne⟩
      head_key := by rw [hs.key_eq, ht.head_key]
      tail_key := by rw [hs.key_eq, ht.tail_key]
      head_top := by rw [hs.top_eq]; exact ht.head_top
      tail_top := by rw [hs.top_eq]; exact ht.tail_top
      inner_top := fun p hp hph hpt => by
        rw [hs.top_eq]
        exact ht.inner_top p (hh.mem_rest.mp hp).1 hph hpt
      path := ?_
      tail_link := ?_ }
  · intro l hl
    have hreach : reach h' l (below h key all ++ rest) = reach h l (below h key all ++ rest) := by
      simp only [reach, hs.top_eq]
    rw [hreach]
    exact hh.path_around hs hl
  · intro l hl
    rw [hs.links _ l hh.tail_ne, if_neg, ht.tail_link l hl]
    rintro ⟨-, -, he⟩
    exact Heap.ne_tail_of_bound_le ht.tail_key (hh.predAt_below hl).le he.symm

/-- `remove` of a key that is there takes its tower out and retires the node. -/
theorem Holds.remove_hit {m : Mem} {r : Regs} (hh : Holds maxLevel m.nodes all r.key n rest) :
    ∃ h' r', r'.id = r.id ∧
      Shrinking m.nodes (predAt m.nodes r.key all) (nextAt m.nodes rest) n 0 0 h' ∧
      Runs maxLevel (m, r, .findRef .remove maxLevel head)
        ((({ m with nodes := h' } : Mem).decLen).retire (.node n), r', .ret (.flag true)) := by
  have hsearch := hh.towers.search .remove r
  rw [hh.towers.succAt_zero_eq (hh.mem_all.mpr (.inr (.inl rfl))) hh.bound_eq] at hsearch
  have hfound : (m.nodes.keyOf n).keyEq r.key = true := BoundKey.keyEq_iff.mpr hh.bound_eq
  simp only [Pc.found, Regs.searched, hfound, if_true] at hsearch
  obtain ⟨r₁, hr₁⟩ : ∃ r₁, r₁ = r.searched maxLevel (predAt m.nodes r.key all)
    (succAt m.nodes r.key all) := ⟨_, rfl⟩
  have hsearch : Runs maxLevel (m, r, .findRef .remove maxLevel head)
      (m, r₁, .rmDown n (m.nodes.topOf n)) := by
    rw [hr₁]
    exact hsearch
  -- the upper levels are marked from the top down
  have hstart : Shrinking m.nodes (predAt m.nodes r.key all) (nextAt m.nodes rest) n
      (m.nodes.topOf n + 1) (maxLevel + 1) m.nodes :=
    .start rfl (fun l hl => (hh.links hl).2) (Nat.lt_succ_of_le hh.top_le)
  obtain ⟨h₁, hs₁, hrun₁⟩ := hstart.runs_mark maxLevel le_rfl
  -- the bottom level is marked
  have hlive := hs₁.tower 0 (Nat.zero_le _)
  rw [decide_eq_false (by omega)] at hlive
  have hs₂ : Shrinking m.nodes (predAt m.nodes r.key all) (nextAt m.nodes rest) n 0 (maxLevel + 1)
      (({ m with nodes := h₁ } : Mem).store n 0 ⟨some (nextAt m.nodes rest 0), true⟩).nodes :=
    hs₁.mark (Nat.zero_le _)
  have hdead := hs₂.tower 0 (Nat.zero_le _)
  -- the second search takes the node out
  obtain ⟨h₂, r₂, hid, hs₃, hrun₂⟩ := hh.clean maxLevel le_rfl _ r₁ (by rw [hr₁]; rfl) hs₂ head
    (hh.towers.head_mem_reach le_rfl)
  refine ⟨h₂, r₂, by rw [hid, hr₁]; rfl, hs₃, ?_⟩
  refine hsearch.trans (hrun₁.trans (.head (Move.rmGet0 hlive).go (.head (Move.removed hlive).go
    (.head (Move.rmClean hdead).go ?_))))
  exact (hrun₂.tail Move.rmLen.go).tail Move.rmRetire.go

end Remove

end ZeroKv.SkipList
