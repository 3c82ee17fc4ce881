/-
# ZeroKv.SkipList.Towers — a skiplist at rest, and how a search runs through it.

Between the calls of one thread no link is marked, and the nodes, sentinels included, form one list in
key order: the chain of level `l` is that list without the towers that do not reach `l`.  `Towers` says
so.  A search for a key splits the list into the nodes below the key and the rest, and finds at every
level the last of the former and the first of the latter.

Runs of one thread are sequences of `exec` steps; a search is followed level by level, and on a level
node by node.
-/
import Mathlib.Data.List.Chain
import Mathlib.Logic.Relation
import ZeroKv.Lib.Chain
import ZeroKv.SkipList.Program

namespace ZeroKv.SkipList

/-! ## Runs of one thread -/

/-- One step of a thread that stays inside its call. -/
def Go (maxLevel : ℕ) (x y : Mem × Regs × Pc) : Prop :=
  exec maxLevel x.1 x.2.1 x.2.2 = some (y.1, .busy y.2.1 y.2.2)

theorem Move.go {maxLevel : ℕ} {m m' : Mem} {r r' : Regs} {pc pc' : Pc}
    (hm : Move maxLevel m r pc m' (.busy r' pc')) : Go maxLevel (m, r, pc) (m', r', pc') :=
  hm.exec

/-- Any number of steps of a thread that runs alone. -/
abbrev Runs (maxLevel : ℕ) : Mem × Regs × Pc → Mem × Regs × Pc → Prop :=
  Relation.ReflTransGen (Go maxLevel)

/-! ## Paths on a level -/

/-- The nodes of the list follow each other by unmarked links of level `l`. -/
def Path (h : Heap) (l : ℕ) (xs : List ℕ) : Prop :=
  xs.IsChain fun p q => h.link p l = some ⟨some q, false⟩

section Path

variable {h h' : Heap} {l p c : ℕ} {xs ys : List ℕ}

/-- Only the links of level `l` of the nodes on the path matter. -/
theorem Path.congr (hp : Path h l xs) (heq : ∀ q ∈ xs, h'.link q l = h.link q l) : Path h' l xs :=
  hp.imp_of_mem_imp fun q _ hq _ hl => by rw [heq q hq, hl]

theorem Path.within (hp : Path h l ys) (hi : xs <:+: ys) : Path h l xs := List.IsChain.infix hp hi

/-- The link of the last node does not matter. -/
theorem Path.congr_init (hp : Path h l (xs ++ [p])) (heq : ∀ q ∈ xs, h'.link q l = h.link q l) :
    Path h' l (xs ++ [p]) :=
  isChain_concat_imp hp fun q hq _ hl => (heq q hq).trans hl

end Path

/-! ## The list at rest -/

/-- The nodes whose towers reach level `l`. -/
def reach (h : Heap) (l : ℕ) (xs : List ℕ) : List ℕ := xs.filter fun p => l ≤ h.topOf p

/-- The nodes in key order, from the head to the tail, with every level at rest. -/
structure Towers (maxLevel : ℕ) (h : Heap) (all : List ℕ) : Prop where
  sorted : all.Pairwise fun p q => h.bound p < h.bound q
  head_mem : head ∈ all
  tail_mem : tail ∈ all
  head_key : h.keyOf head = .negInf
  tail_key : h.keyOf tail = .posInf
  head_top : maxLevel ≤ h.topOf head
  tail_top : maxLevel ≤ h.topOf tail
  inner_top : ∀ p ∈ all, p ≠ head → p ≠ tail → h.topOf p ≤ maxLevel
  path : ∀ l ≤ maxLevel, Path h l (reach h l all)
  tail_link : ∀ l ≤ maxLevel, h.link tail l = some ⟨none, false⟩

/-- The nodes below a key. -/
def below (h : Heap) (key : Bytes) (all : List ℕ) : List ℕ := all.filter fun p => h.bound p < target key

/-- The nodes at or above a key. -/
def above (h : Heap) (key : Bytes) (all : List ℕ) : List ℕ := all.filter fun p => target key ≤ h.bound p

/-- What the search for `key` finds at level `l`: the last node below the key. -/
def predAt (h : Heap) (key : Bytes) (all : List ℕ) (l : ℕ) : ℕ :=
  ((reach h l (below h key all)).getLast?).getD head

/-- What the search for `key` finds at level `l`: the first node not below the key. -/
def succAt (h : Heap) (key : Bytes) (all : List ℕ) (l : ℕ) : ℕ :=
  ((reach h l (above h key all)).head?).getD tail

section Towers

variable {maxLevel : ℕ} {h : Heap} {all : List ℕ} {key : Bytes} {l : ℕ}

theorem mem_reach {p : ℕ} {xs : List ℕ} : p ∈ reach h l xs ↔ p ∈ xs ∧ l ≤ h.topOf p := by
  simp [reach]

theorem mem_below {p : ℕ} : p ∈ below h key all ↔ p ∈ all ∧ h.bound p < target key := by
  simp [below]

theorem mem_above {p : ℕ} : p ∈ above h key all ↔ p ∈ all ∧ target key ≤ h.bound p := by
  simp [above]

theorem reach_append {xs ys : List ℕ} : reach h l (xs ++ ys) = reach h l xs ++ reach h l ys :=
  List.filter_append ..

theorem reach_cons_of_le {p : ℕ} {xs : List ℕ} (hp : l ≤ h.topOf p) :
    reach h l (p :: xs) = p :: reach h l xs :=
  List.filter_cons_of_pos (by simpa using hp)

theorem reach_cons_of_lt {p : ℕ} {xs : List ℕ} (hp : h.topOf p < l) :
    reach h l (p :: xs) = reach h l xs :=
  List.filter_cons_of_neg (by simpa using hp)

/-- A sorted list is what is below the key followed by the rest. -/
theorem below_append_above (key : Bytes) (hs : all.Pairwise fun p q => h.bound p < h.bound q) :
    below h key all ++ above h key all = all := by
  induction all with
  | nil => rfl
  | cons x xs ih =>
      obtain ⟨hx, hs⟩ := List.pairwise_cons.mp hs
      by_cases hxk : h.bound x < target key
      · rw [below, above, List.filter_cons_of_pos (by simpa using hxk),
          List.filter_cons_of_neg (by simpa using hxk), List.cons_append]
        exact congrArg (x :: ·) (ih hs)
      · -- from here on nothing is below the key
        have hup : ∀ q ∈ xs, target key ≤ h.bound q := fun q hq => (not_lt.mp hxk).trans (hx q hq).le
        have hnil : xs.filter (fun p => h.bound p < target key) = [] := by
          simpa [List.filter_eq_nil_iff] using hup
        have hall : xs.filter (fun p => target key ≤ h.bound p) = xs := by
          simpa [List.filter_eq_self] using hup
        rw [below, above, List.filter_cons_of_neg (by simpa using hxk), hnil, List.nil_append,
          List.filter_cons_of_pos (by simpa using hxk), hall]

namespace Towers

theorem nodup (ht : Towers maxLevel h all) : all.Nodup :=
  ht.sorted.imp fun hlt => by
    rintro rfl
    exact lt_irrefl _ hlt

/-- The head is on every level, before every key. -/
theorem head_mem_reach (ht : Towers maxLevel h all) (hl : l ≤ maxLevel) :
    head ∈ reach h l (below h key all) := by
  exact mem_reach.mpr ⟨mem_below.mpr ⟨ht.head_mem, Heap.bound_head_lt ht.head_key key⟩,
    hl.trans ht.head_top⟩

theorem tail_mem_reach (ht : Towers maxLevel h all) (hl : l ≤ maxLevel) :
    tail ∈ reach h l (above h key all) := by
  exact mem_reach.mpr ⟨mem_above.mpr ⟨ht.tail_mem, (Heap.lt_bound_tail ht.tail_key key).le⟩,
    hl.trans ht.tail_top⟩

/-- On a level, the last node below the key stands right before the first node not below it. -/
theorem level_split (ht : Towers maxLevel h all) (hl : l ≤ maxLevel) (key : Bytes) :
    ∃ xs ys, reach h l (below h key all) = xs ++ [predAt h key all l] ∧
      reach h l (above h key all) = succAt h key all l :: ys := by
  have hlo : reach h l (below h key all) ≠ [] := List.ne_nil_of_mem (ht.head_mem_reach hl)
  have hhi : reach h l (above h key all) ≠ [] := List.ne_nil_of_mem (ht.tail_mem_reach hl)
  refine ⟨(reach h l (below h key all)).dropLast, (reach h l (above h key all)).tail, ?_, ?_⟩
  · rw [predAt, List.getLast?_eq_getLast_of_ne_nil hlo, Option.getD_some,
      List.dropLast_append_getLast]
  · rw [succAt, List.head?_eq_some_head hhi, Option.getD_some, List.cons_head_tail hhi]

end Towers

end Towers

/-! ## A search -/

/-- The locals after the search has filled the entries up to `l`. -/
def Regs.searched (r : Regs) (l : ℕ) (p c : ℕ → ℕ) : Regs :=
  { r with
    preds := fun i => if i ≤ l then p i else r.preds i
    succs := fun i => if i ≤ l then c i else r.succs i }

theorem ite_le_update (f g : ℕ → ℕ) (l : ℕ) :
    (fun i => if i ≤ l then f i else Function.update g (l + 1) (f (l + 1)) i) =
      fun i => if i ≤ l + 1 then f i else g i := by
  funext i
  by_cases hi : i = l + 1
  · subst hi
    simp
  · have hle : i ≤ l + 1 ↔ i ≤ l := by omega
    simp [Function.update_of_ne hi, hle]

theorem Regs.atLevel_zero (r : Regs) (p c : ℕ → ℕ) : r.atLevel 0 (p 0) (c 0) = r.searched 0 p c := by
  have hup : ∀ f g : ℕ → ℕ, Function.update g 0 (f 0) = fun i => if i ≤ 0 then f i else g i := by
    intro f g
    funext i
    by_cases hi : i = 0
    · subst hi
      simp
    · simp [hi]
  rw [Regs.atLevel, hup p, hup c]
  rfl

theorem Regs.searched_atLevel (r : Regs) (l : ℕ) (p c : ℕ → ℕ) :
    (r.atLevel (l + 1) (p (l + 1)) (c (l + 1))).searched l p c = r.searched (l + 1) p c := by
  simp only [Regs.atLevel, Regs.searched, ite_le_update]

section Search

variable {maxLevel : ℕ} {m : Mem} {r : Regs} {l : ℕ}

/-- A walk along a level: the search passes every node below the key.  `at` is the program point of
`find` or of `get` that looks at a node. -/
theorem runs_walk {at' : ℕ → ℕ → Pc} {c p : ℕ}
    (hnext : ∀ pred curr succ, m.nodes.link curr l = some ⟨some succ, false⟩ →
      m.nodes.bound curr < target r.key →
      Go maxLevel (m, r, at' pred curr) (m, r, at' curr succ)) (ys : List ℕ) :
    ∀ pred, Path m.nodes l (pred :: (ys ++ [c])) → (∀ y ∈ ys, m.nodes.bound y < target r.key) →
      (pred :: ys).getLast? = some p →
      ∃ y, m.nodes.link pred l = some ⟨some y, false⟩ ∧
        Runs maxLevel (m, r, at' pred y) (m, r, at' p c) := by
  induction ys with
  | nil =>
      intro pred hpath _ hlast
      obtain rfl : pred = p := by simpa using hlast
      exact ⟨c, (List.isChain_cons_cons.mp hpath).1, .refl⟩
  | cons y ys ih =>
      intro pred hpath hlt hlast
      obtain ⟨hy, hpath⟩ := List.isChain_cons_cons.mp hpath
      obtain ⟨z, hz, hrun⟩ := ih y hpath (fun x hx => hlt x (List.mem_cons_of_mem y hx))
        (by simpa using hlast)
      exact ⟨y, hy, .head (hnext pred y z hz (hlt y List.mem_cons_self)) hrun⟩

/-- A search that comes to level `l` at a node of `lo` reaches the last node of `lo`. -/
theorem runs_level {at' : ℕ → ℕ → Pc} {lo : List ℕ} {c p pred : ℕ}
    (hnext : ∀ pred curr succ, m.nodes.link curr l = some ⟨some succ, false⟩ →
      m.nodes.bound curr < target r.key →
      Go maxLevel (m, r, at' pred curr) (m, r, at' curr succ))
    (hpath : Path m.nodes l (lo ++ [c])) (hlt : ∀ y ∈ lo, m.nodes.bound y < target r.key)
    (hp : pred ∈ lo) (hlast : lo.getLast? = some p) :
    ∃ y, m.nodes.link pred l = some ⟨some y, false⟩ ∧
      Runs maxLevel (m, r, at' pred y) (m, r, at' p c) := by
  obtain ⟨xs, ys, rfl⟩ := List.append_of_mem hp
  refine runs_walk hnext ys pred ?_ ?_ ?_
  · exact hpath.within ⟨xs, [], by simp⟩
  · exact fun y hy => hlt y (by simp [hy])
  · simpa using hlast

theorem go_findNext {a : After} {pred curr succ : ℕ}
    (hl : m.nodes.link curr l = some ⟨some succ, false⟩) (hk : m.nodes.bound curr < target r.key) :
    Go maxLevel (m, r, .findGet a l pred curr) (m, r, .findGet a l curr succ) :=
  (Move.findNext hl hk).go

theorem go_getNext {pred curr succ : ℕ}
    (hl : m.nodes.link curr l = some ⟨some succ, false⟩) (hk : m.nodes.bound curr < target r.key) :
    Go maxLevel (m, r, .getGet l pred curr) (m, r, .getGet l curr succ) :=
  (Move.getNext hl hk).go

end Search

section Rest

variable {maxLevel : ℕ} {m : Mem} {r : Regs} {all : List ℕ} {l pred : ℕ}

theorem Path.next {h : Heap} {xs : List ℕ} (hp : Path h l xs) {p : ℕ} (hmem : p ∈ xs) :
    (∃ q ∈ xs, h.link p l = some ⟨some q, false⟩) ∨ xs.getLast? = some p := by
  obtain ⟨ys, zs, rfl⟩ := List.append_of_mem hmem
  cases zs with
  | nil => simp
  | cons q zs => exact .inl ⟨q, by simp, (List.isChain_append_cons_cons.mp hp).2.1⟩

namespace Towers

theorem last_eq_tail {h : Heap} (ht : Towers maxLevel h all) {xs : List ℕ}
    (hs : xs.Pairwise fun p q => h.bound p < h.bound q) (htail : tail ∈ xs) {p : ℕ}
    (hp : xs.getLast? = some p) : p = tail := by
  obtain ⟨ys, rfl⟩ : ∃ ys, xs = ys ++ [p] := ⟨xs.dropLast, (List.dropLast_append_getLast? p hp).symm⟩
  rcases List.mem_append.mp htail with hm | hm
  · -- nothing stands above the tail
    have hlt := (List.pairwise_append.mp hs).2.2 tail hm p (by simp)
    rw [Heap.bound, ht.tail_key] at hlt
    cases hk : h.keyOf p with
    | negInf => simp [Heap.bound, hk, BoundKey.bound] at hlt
    | fin k =>
        rw [Heap.bound, hk] at hlt
        exact absurd (hlt.trans (target_lt_top k.asBytes)) (lt_irrefl _)
    | posInf => simp [Heap.bound, hk] at hlt
  · exact (List.mem_singleton.mp hm).symm

/-- At rest no link is marked. -/
theorem unmarked {h : Heap} (ht : Towers maxLevel h all) (hl : l ≤ maxLevel) {p : ℕ}
    (hp : p ∈ reach h l all) : ∃ o, h.link p l = some ⟨o, false⟩ := by
  rcases (ht.path l hl).next hp with ⟨q, -, hq⟩ | hlast
  · exact ⟨some q, hq⟩
  · have htail : tail ∈ reach h l all := mem_reach.mpr ⟨ht.tail_mem, hl.trans ht.tail_top⟩
    obtain rfl := ht.last_eq_tail (ht.sorted.sublist List.filter_sublist) htail hlast
    exact ⟨none, ht.tail_link l hl⟩

theorem predAt_mem {h : Heap} (ht : Towers maxLevel h all) (hl : l ≤ maxLevel) (key : Bytes) :
    predAt h key all l ∈ reach h l (below h key all) := by
  obtain ⟨xs, ys, hxs, -⟩ := ht.level_split hl key
  rw [hxs]
  simp

theorem succAt_mem {h : Heap} (ht : Towers maxLevel h all) (hl : l ≤ maxLevel) (key : Bytes) :
    succAt h key all l ∈ reach h l (above h key all) := by
  obtain ⟨xs, ys, -, hys⟩ := ht.level_split hl key
  rw [hys]
  simp

theorem reach_eq {h : Heap} (ht : Towers maxLevel h all) (key : Bytes) :
    reach h l all = reach h l (below h key all) ++ reach h l (above h key all) := by
  rw [← reach_append, below_append_above key ht.sorted]

/-- A write to a value field leaves the towers alone. -/
theorem setValue {h : Heap} (ht : Towers maxLevel h all) (p : ℕ) (v : Option ℕ) :
    Towers maxLevel (h.setValue p v) all where
  sorted := by simpa using ht.sorted
  head_mem := ht.head_mem
  tail_mem := ht.tail_mem
  head_key := by simpa using ht.head_key
  tail_key := by simpa using ht.tail_key
  head_top := by simpa using ht.head_top
  tail_top := by simpa using ht.tail_top
  inner_top := by simpa using ht.inner_top
  path := by simpa [Path, reach] using ht.path
  tail_link := by simpa using ht.tail_link

/-- What the search finds stands next to each other. -/
theorem link_predAt {h : Heap} (ht : Towers maxLevel h all) (hl : l ≤ maxLevel) (key : Bytes) :
    h.link (predAt h key all l) l = some ⟨some (succAt h key all l), false⟩ := by
  obtain ⟨xs, ys, hxs, hys⟩ := ht.level_split hl key
  have hpath := ht.path l hl
  rw [ht.reach_eq key, hxs, hys, List.append_assoc, List.singleton_append] at hpath
  exact (List.isChain_append_cons_cons.mp hpath).2.1

theorem lt_length {h : Heap} (ht : Towers maxLevel h all) {p : ℕ} (hp : p ∈ all) : p < h.length := by
  obtain ⟨o, ho⟩ := ht.unmarked (Nat.zero_le _) (mem_reach.mpr ⟨hp, Nat.zero_le _⟩)
  exact Heap.lt_length_of_link ho

/-- The search on one level of a list at rest. -/
theorem runs_level (ht : Towers maxLevel m.nodes all) (hl : l ≤ maxLevel) {at' : ℕ → ℕ → Pc}
    (hnext : ∀ pred curr succ, m.nodes.link curr l = some ⟨some succ, false⟩ →
      m.nodes.bound curr < target r.key →
      Go maxLevel (m, r, at' pred curr) (m, r, at' curr succ))
    (hp : pred ∈ reach m.nodes l (below m.nodes r.key all)) :
    ∃ y, m.nodes.link pred l = some ⟨some y, false⟩ ∧
      Runs maxLevel (m, r, at' pred y)
        (m, r, at' (predAt m.nodes r.key all l) (succAt m.nodes r.key all l)) := by
  obtain ⟨xs, ys, hxs, hys⟩ := ht.level_split hl r.key
  refine SkipList.runs_level hnext ?_ ?_ hp (by rw [hxs]; simp)
  · refine (ht.path l hl).within ⟨[], ys, ?_⟩
    rw [ht.reach_eq r.key, hys]
    simp
  · exact fun y hy => (mem_below.mp (mem_reach.mp hy).1).2

/-- **`find` at rest**: it comes back with the last node below the key and the first node not below it
at every level, and changes nothing. -/
theorem find (ht : Towers maxLevel m.nodes all) (a : After) (key : Bytes) :
    ∀ l ≤ maxLevel, ∀ r : Regs, r.key = key → ∀ pred ∈ reach m.nodes l (below m.nodes key all),
      let r' := r.searched l (predAt m.nodes key all) (succAt m.nodes key all)
      Runs maxLevel (m, r, .findRef a l pred) (m, r', .found m r' (succAt m.nodes key all 0) a) := by
  intro l
  induction l with
  | zero =>
      rintro hl r rfl pred hp
      obtain ⟨y, hy, hrun⟩ := ht.runs_level hl (fun _ _ _ => go_findNext (a := a)) hp
      have hs := ht.succAt_mem hl r.key
      obtain ⟨o, ho⟩ := ht.unmarked hl (ht.reach_eq r.key ▸ List.mem_append_right _ hs)
      refine .head (Move.findRef hy).go (hrun.tail ?_)
      rw [← Regs.atLevel_zero]
      exact (Move.findDone ho (mem_above.mp (mem_reach.mp hs).1).2).go
  | succ l ih =>
      rintro hl r rfl pred hp
      obtain ⟨y, hy, hrun⟩ := ht.runs_level hl (fun _ _ _ => go_findNext (a := a)) hp
      have hs := ht.succAt_mem hl r.key
      obtain ⟨o, ho⟩ := ht.unmarked hl (ht.reach_eq r.key ▸ List.mem_append_right _ hs)
      have hk := (mem_above.mp (mem_reach.mp hs).1).2
      -- the node found here is on the next level too
      have hpred := mem_reach.mp (ht.predAt_mem hl r.key)
      have hrest := ih (Nat.le_of_succ_le hl)
        (r.atLevel (l + 1) (predAt m.nodes r.key all (l + 1)) (succAt m.nodes r.key all (l + 1))) rfl
        _ (mem_reach.mpr ⟨hpred.1, Nat.le_of_succ_le hpred.2⟩)
      rw [Regs.searched_atLevel] at hrest
      exact .head (Move.findRef hy).go (hrun.trans (.head (Move.findDown ho hk).go hrest))

end Towers

end Rest

end ZeroKv.SkipList
