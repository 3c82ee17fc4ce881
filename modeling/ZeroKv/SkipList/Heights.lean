/-
# ZeroKv.SkipList.Heights — the levels of the list between the calls of one thread.

The refinement to a finite map goes through the invariant that the nodes form one sorted list, of which
every level is the sublist of the towers that are high enough.  Here the invariant is stated for itself,
for the memory after any sequence of calls, together with what a search finds in such a memory and with
the safety of the accesses on the way: a link is read or written only at a level its tower has.

The last point needs one fact about the heap alone, that a tower has `top_level + 1` links.  A step that
would read above a tower does not exist, and a call that returns has taken all its steps.
-/
import ZeroKv.SkipList.Refinement

namespace ZeroKv.SkipList

/-! ## Every tower has its height -/

/-- Every tower has `top_level + 1` links. -/
def Heap.Sized (h : Heap) : Prop := ∀ nd ∈ h, nd.tower.length = nd.topLevel + 1

namespace Heap.Sized

variable {h : Heap}

theorem le_topOf (hs : h.Sized) {p l : ℕ} {lk : Link} (hl : h.link p l = some lk) : l ≤ h.topOf p := by
  unfold Heap.link readField at hl
  unfold Heap.topOf readField
  cases hp : h[p]? with
  | none => simp [hp] at hl
  | some nd =>
      simp only [hp, Option.map_some, Option.getD_some] at hl ⊢
      have hlt := (List.getElem?_eq_some_iff.mp hl).1
      have := hs nd (List.mem_of_getElem? hp)
      omega

theorem modify (hs : h.Sized) (p : ℕ) {f : Node → Node}
    (hf : ∀ nd, (f nd).tower.length = nd.tower.length ∧ (f nd).topLevel = nd.topLevel) :
    Heap.Sized (h.modify p f) := by
  intro nd hnd
  obtain ⟨i, hi⟩ := List.mem_iff_getElem?.mp hnd
  rw [List.getElem?_modify] at hi
  obtain ⟨nd₀, hnd₀, rfl⟩ := Option.map_eq_some_iff.mp hi
  have hold := hs nd₀ (List.mem_of_getElem? hnd₀)
  split
  · rw [(hf nd₀).1, (hf nd₀).2, hold]
  · exact hold

theorem setLink (hs : h.Sized) (p l : ℕ) (lk : Link) : (h.setLink p l lk).Sized :=
  hs.modify p fun _ => ⟨List.length_set, rfl⟩

theorem setValue (hs : h.Sized) (p : ℕ) (v : Option ℕ) : (h.setValue p v).Sized :=
  hs.modify p fun _ => ⟨rfl, rfl⟩

theorem setLinked (hs : h.Sized) (p n : ℕ) : (h.setLinked p n).Sized :=
  hs.modify p fun _ => ⟨rfl, rfl⟩

theorem alloc (hs : h.Sized) (key : BoundKey) (value : Option ℕ) (top : ℕ) :
    (h.alloc (.new key value top)).Sized := by
  intro nd hnd
  rcases List.mem_append.mp hnd with hnd | hnd
  · exact hs nd hnd
  · obtain rfl := List.mem_singleton.mp hnd
    exact List.length_replicate

end Heap.Sized

theorem Move.sized {maxLevel : ℕ} {m m' : Mem} {r : Regs} {pc : Pc} {th : Thread}
    (hm : Move maxLevel m r pc m' th) (hs : m.nodes.Sized) : m'.nodes.Sized := by
  cases hm with
  | spliced _ | insInit _ _ | insInitLast _ _ | insStore _ | rmMarked _ | removed _ =>
      exact hs.setLink _ _ _
  | published _ | linked _ => exact (hs.setLink _ _ _).setLinked _ _
  | swapped _ | swappedNull _ => exact hs.setValue _ _
  | insAlloc => exact hs.alloc _ _ _
  | insLen => rw [Mem.nodes_incLen]; exact hs
  | rmLen => rw [Mem.nodes_decLen]; exact hs
  | _ => exact hs

theorem sized_withMaxLevel : Mem.withMaxLevel.nodes.Sized := by
  intro nd hnd
  rcases List.mem_pair.mp hnd with rfl | rfl <;> rfl

/-! ## The steps of a call that returns -/

section Calls

variable {maxLevel fuel : ℕ} {m : Mem} {r : Regs} {pc : Pc} {out : Outcome} {y : Mem × Regs × Pc}

theorem sized_of_runs {x : Mem × Regs × Pc} (h : Runs maxLevel x y) (hs : x.1.nodes.Sized) :
    y.1.nodes.Sized := by
  induction h with
  | refl => exact hs
  | tail _ hgo ih => exact (move_of_exec hgo).sized ih

/-- What a run of the call has reached is on the way to the outcome. -/
theorem finish_of_prefix (h : finish maxLevel fuel m r pc = some out)
    (hrun : Runs maxLevel (m, r, pc) y) :
    ∃ fuel', finish maxLevel fuel' y.1 y.2.1 y.2.2 = some out := by
  induction hrun with
  | refl => exact ⟨fuel, h⟩
  | @tail y z _ hgo ih =>
      obtain ⟨fuel', h⟩ := ih
      have hgo : exec maxLevel y.1 y.2.1 y.2.2 = some (z.1, .busy z.2.1 z.2.2) := hgo
      cases fuel' with
      | zero => cases h
      | succ fuel' =>
          rw [finish, hgo] at h
          exact ⟨fuel', h⟩

theorem exec_of_finish (h : finish maxLevel fuel m r pc = some out) :
    ∃ x, exec maxLevel m r pc = some x := by
  cases fuel with
  | zero => cases h
  | succ fuel =>
      cases he : exec maxLevel m r pc with
      | none => rw [finish, he] at h; cases h
      | some x => exact ⟨x, rfl⟩

theorem sized_of_finish (h : finish maxLevel fuel m r pc = some out) (hs : m.nodes.Sized) :
    out.mem.nodes.Sized := by
  induction fuel generalizing m r pc with
  | zero => cases h
  | succ fuel ih =>
      rw [finish] at h
      split at h
      · next he => exact ih h ((move_of_exec he).sized hs)
      · next he =>
          have hs' := (move_of_exec he).sized hs
          split at h
          · cases h
            exact hs'
          · cases h
      · cases h

end Calls

/-- The link that the thread reads or writes at a program point: the node and the level. -/
def Pc.access (r : Regs) : Pc → Option (ℕ × ℕ)
  | .findRef _ level pred => some (pred, level)
  | .findGet _ level _ curr => some (curr, level)
  | .findSplice _ level pred _ _ => some (pred, level)
  | .insInit node level => some (node, level)
  | .insPub _ => some (r.preds 0, 0)
  | .insStore node level => some (node, level)
  | .insLink _ level => some (r.preds level, level)
  | .getRef level pred => some (pred, level)
  | .getGet level _ curr => some (curr, level)
  | .getMark curr => some (curr, 0)
  | .rmGet node level => some (node, level)
  | .rmMark node level _ => some (node, level)
  | .rmGet0 node => some (node, 0)
  | .rmCas0 node _ => some (node, 0)
  | .rmChk node _ => some (node, 0)
  | _ => none

/-- A step that is taken finds the link it accesses. -/
theorem Move.access {maxLevel : ℕ} {m m' : Mem} {r : Regs} {pc : Pc} {th : Thread}
    (hm : Move maxLevel m r pc m' th) {p l : ℕ} (ha : pc.access r = some (p, l)) :
    ∃ lk, m.nodes.link p l = some lk := by
  cases hm with
  | insAlloc | insLen | insRetire | rmLen | rmRetire | ret => cases ha
  | swapped _ | swappedNull _ | getVal _ | getNull _ => cases ha
  | findNext hl _ | findDown hl _ | findDone hl _ | spliceLost hl _ | insInit hl _ | insInitLast hl _
  | publishLost hl _ | linkLost hl _ | getNext hl _ | getDown hl _ | getHit hl _ | getMiss hl _
  | rmMarkLost hl _ | removeLost hl _ | findRef hl | findMarked hl | spliced hl | published hl
  | insStore hl | linked hl | getRef hl | getMarked hl | getGone hl | getLive hl | rmPassed hl
  | rmGet hl | rmMarked hl | rmGet0 hl | removed hl | rmClean hl | rmBeaten hl | rmRetry hl =>
      cases ha
      exact ⟨_, hl⟩

/-! ## The memory after a sequence of calls -/

/-- The memory after a sequence of calls, each with the height drawn for it. -/
def after (maxLevel fuel : ℕ) : Mem → List (Op × ℕ) → Option Mem
  | m, [] => some m
  | m, (op, topLevel) :: calls => do
      let out ← call maxLevel fuel m op topLevel
      after maxLevel fuel out.mem calls

/-- The levels of a memory: `all` is the bottom level, and level `l` has the nodes of `all` that are high
enough.  It goes from the head to the tail in strictly increasing order of the keys, by links that are
not marked. -/
structure Leveled (h : Heap) (all : List ℕ) (l : ℕ) : Prop where
  first : (all.filter fun p => l ≤ h.topOf p).head? = some head
  last : (all.filter fun p => l ≤ h.topOf p).getLast? = some tail
  links : (all.filter fun p => l ≤ h.topOf p).IsChain fun p q => h.link p l = some ⟨some q, false⟩
  ends : h.link tail l = some ⟨none, false⟩
  sorted : (all.filter fun p => l ≤ h.topOf p).Pairwise fun p q => h.bound p < h.bound q

theorem Towers.leveled {maxLevel : ℕ} {h : Heap} {all : List ℕ} (ht : Towers maxLevel h all) {l : ℕ}
    (hl : l ≤ maxLevel) : Leveled h all l := by
  have hsorted : (reach h l all).Pairwise fun p q => h.bound p < h.bound q :=
    ht.sorted.sublist List.filter_sublist
  have htail : tail ∈ reach h l all := mem_reach.mpr ⟨ht.tail_mem, hl.trans ht.tail_top⟩
  have hhead : head ∈ reach h l all := mem_reach.mpr ⟨ht.head_mem, hl.trans ht.head_top⟩
  refine ⟨?_, ?_, ht.path l hl, ht.tail_link l hl, hsorted⟩
  · -- nothing stands below the head
    show (reach h l all).head? = some head
    cases hr : reach h l all with
    | nil => rw [hr] at hhead; cases hhead
    | cons p rest =>
        rw [hr] at hhead hsorted
        rcases List.mem_cons.mp hhead with rfl | hmem
        · rfl
        · have hlt := (List.pairwise_cons.mp hsorted).1 head hmem
          rw [Heap.bound, Heap.bound, ht.head_key] at hlt
          exact absurd hlt not_lt_bot
  · show (reach h l all).getLast? = some tail
    obtain ⟨p, hp⟩ : ∃ p, (reach h l all).getLast? = some p :=
      ⟨_, List.getLast?_eq_getLast_of_ne_nil (List.ne_nil_of_mem htail)⟩
    rw [hp, ht.last_eq_tail hsorted htail hp]

/-- What a search leaves at level `l`: two neighbours, the last node below the key and the first one
that is not. -/
structure Bracket (h : Heap) (all : List ℕ) (key : Bytes) (l p c : ℕ) : Prop where
  split : ∃ xs ys, (all.filter fun q => l ≤ h.topOf q) = xs ++ p :: c :: ys ∧
    (∀ q ∈ xs, h.bound q < target key) ∧ ∀ q ∈ ys, target key ≤ h.bound q
  below : h.bound p < target key
  above : target key ≤ h.bound c

theorem Towers.bracket {maxLevel : ℕ} {h : Heap} {all : List ℕ} (ht : Towers maxLevel h all) {l : ℕ}
    (hl : l ≤ maxLevel) (key : Bytes) :
    Bracket h all key l (predAt h key all l) (succAt h key all l) := by
  obtain ⟨xs, ys, hxs, hys⟩ := ht.level_split hl key
  have hlow : ∀ q ∈ xs ++ [predAt h key all l], h.bound q < target key := fun q hq =>
    (mem_below.mp (mem_reach.mp (hxs ▸ hq)).1).2
  have hhigh : ∀ q ∈ succAt h key all l :: ys, target key ≤ h.bound q := fun q hq =>
    (mem_above.mp (mem_reach.mp (hys ▸ hq)).1).2
  refine ⟨⟨xs, ys, ?_, ?_, ?_⟩, ?_, ?_⟩
  · show reach h l all = _
    rw [ht.reach_eq key, hxs, hys, List.append_assoc, List.singleton_append]
  · exact fun q hq => hlow q (List.mem_append_left _ hq)
  · exact fun q hq => hhigh q (List.mem_cons_of_mem _ hq)
  · exact hlow _ (by simp)
  · exact hhigh _ List.mem_cons_self

/-- The memory after any number of calls holds some map, and its towers have their height. -/
theorem Rep.after {maxLevel : ℕ} (calls : List (Op × ℕ)) :
    ∀ {m : Mem} {all : List ℕ} {μ : Dict}, Rep maxLevel m all μ → m.nodes.Sized →
      (∀ c ∈ calls, c.2 ≤ maxLevel) →
      ∃ n m' all' μ', (∀ fuel ≥ n, after maxLevel fuel m calls = some m') ∧
        Rep maxLevel m' all' μ' ∧ m'.nodes.Sized := by
  induction calls with
  | nil => exact fun hr hs _ => ⟨0, _, _, _, fun _ _ => rfl, hr, hs⟩
  | cons c calls ih =>
      obtain ⟨op, topLevel⟩ := c
      intro m all μ hr hs htop
      have hle : topLevel ≤ maxLevel := htop _ List.mem_cons_self
      obtain ⟨all₁, out, ⟨n₁, hn₁⟩, -, hr₁⟩ := hr.call op hle
      have hs₁ : out.mem.nodes.Sized := by
        have hfin := hn₁ n₁ (le_refl n₁)
        simp only [SkipList.call, step, hle, if_true] at hfin
        exact sized_of_finish hfin hs
      obtain ⟨n₂, m', all', μ', hn₂, hr', hs'⟩ := ih hr₁ hs₁ fun c hc =>
        htop c (List.mem_cons_of_mem _ hc)
      refine ⟨max n₁ n₂, m', all', μ', fun fuel hf => ?_, hr', hs'⟩
      simp [SkipList.after, hn₁ fuel (le_of_max_le_left hf), hn₂ fuel (le_of_max_le_right hf)]

/-- **The tower invariant of the sequential skiplist.**  After any sequence of calls with any heights:
every level goes from the head to the tail, sorted and unmarked, through exactly the nodes of the bottom
level that are high enough; a search for any key finds the two neighbours of the key on every level; and
whatever call comes next, at every step of it a link is accessed at a level its tower has. -/
theorem towers_at_rest {maxLevel : ℕ} (hmax : maxLevel ≤ 15) (calls : List (Op × ℕ))
    (htop : ∀ c ∈ calls, c.2 ≤ maxLevel) :
    ∃ n m all, (∀ fuel ≥ n, after maxLevel fuel .withMaxLevel calls = some m) ∧
      (∀ l ≤ maxLevel, Leveled m.nodes all l) ∧
      (∀ a r, ∃ r' c, Runs maxLevel (m, r, .findRef a maxLevel head) (m, r', .found m r' c a) ∧
        c = r'.succs 0 ∧ ∀ l ≤ maxLevel, Bracket m.nodes all r.key l (r'.preds l) (r'.succs l)) ∧
      ∀ op topLevel, topLevel ≤ maxLevel →
        ∀ y, Runs maxLevel (m.invoke op, .start m.calls op topLevel, .start maxLevel op) y →
          ∀ p l, y.2.2.access y.2.1 = some (p, l) → l ≤ y.1.nodes.topOf p := by
  obtain ⟨n, m, all, μ, hn, hr, hs⟩ := (rep_withMaxLevel hmax).after calls sized_withMaxLevel htop
  refine ⟨n, m, all, hn, fun l hl => hr.towers.leveled hl, ?_, ?_⟩
  · intro a r
    refine ⟨_, _, hr.towers.search a r, ?_, ?_⟩
    · simp [Regs.searched]
    · intro l hl
      simp only [Regs.searched, hl, if_true]
      exact hr.towers.bracket hl r.key
  · intro op topLevel hle y hrun p l ha
    obtain ⟨-, out, ⟨k, hk⟩, -, -⟩ := hr.call op hle
    have hfin := hk k (le_refl k)
    simp only [call, step, hle, if_true] at hfin
    obtain ⟨fuel', hfin'⟩ := finish_of_prefix hfin hrun
    obtain ⟨⟨m', th⟩, hexec⟩ := exec_of_finish hfin'
    obtain ⟨lk, hl⟩ := (move_of_exec hexec).access ha
    exact (sized_of_runs hrun hs).le_topOf hl

/-- The same for a list of height two after a removal and an update. -/
theorem towers_at_rest_sample :
    ∃ n m all, (∀ fuel ≥ n, after 1 fuel .withMaxLevel [(.insert [5] [1], 1), (.insert [7] [2], 0),
        (.insert [9] [3], 1), (.remove [5], 0), (.insert [7] [4], 1)] = some m) ∧
      ∀ l ≤ 1, Leveled m.nodes all l := by
  obtain ⟨n, m, all, hn, hlevels, -⟩ := towers_at_rest (show 1 ≤ 15 by decide)
    [(.insert [5] [1], 1), (.insert [7] [2], 0), (.insert [9] [3], 1), (.remove [5], 0),
      (.insert [7] [4], 1)] (by decide)
  exact ⟨n, m, all, hn, hlevels⟩

end ZeroKv.SkipList
