/-
# ZeroKv.SkipList.Length — the length counter while calls are in progress.

`insert` publishes its node and adds one to `len` after it has linked the upper levels; `remove` marks the
node and subtracts one after its cleanup.  Nothing keeps the two in order: a node can be removed, and
subtracted, before the insert that published it has added it.  One insert and one remove are enough for a
length of `2 ^ 64 - 1`.

`Counted` is the condition under which this does not happen.  At a `fetch_sub` the inserts that still have to
add must be fewer than the nodes that count together with the removes that still have to subtract.  Then the
counter is never more than the number of inserts that were started, and the sum over the shards of an index
is not either.
-/
import Mathlib.Data.Set.Card
import ZeroKv.Lib.Tally
import ZeroKv.Shard
import ZeroKv.SkipList.Count

namespace ZeroKv.SkipList

/-! ## The calls that were started -/

/-- The event is the start of an `insert`. -/
def startsInsert : Event Op Ret → Bool
  | .inv _ (.insert _ _) => true
  | _ => false

/-- Calls of `insert` that were started. -/
def Mem.inserts (m : Mem) : ℕ := m.hist.countP startsInsert

section Calls

variable {maxLevel : ℕ} {m m' : Mem} {r : Regs} {pc : Pc} {th a a' : Thread} {c : Choice}

theorem inserts_incLen : m.incLen.inserts = m.inserts := by
  obtain ⟨n, hn⟩ := m.incLen_eq
  rw [hn]
  rfl

theorem inserts_decLen : m.decLen.inserts = m.inserts := by
  obtain ⟨n, hn⟩ := m.decLen_eq
  rw [hn]
  rfl

theorem mayAdd_rmDown {node level : ℕ} : (Thread.busy r (.rmDown node level)).mayAdd = false := by
  rw [Pc.rmDown]
  split <;> rfl

theorem mayAdd_found {curr : ℕ} {k : After} :
    (Thread.busy r (.found m r curr k)).mayAdd ≤ k.mayAdd := by
  cases k with
  | insert => exact Bool.le_true _
  | relink node level | clean node => exact le_rfl
  | remove =>
      simp only [Pc.found]
      split
      · exact mayAdd_rmDown.le
      · exact le_rfl

/-- Inside a call no insert is started, and none gets a second time to add. -/
theorem Move.mayAdd_le (hmv : Move maxLevel m r pc m' th) :
    m'.inserts = m.inserts ∧ th.mayAdd ≤ (Thread.busy r pc).mayAdd := by
  cases hmv with
  | findDone => exact ⟨rfl, mayAdd_found⟩
  | published | linked => exact ⟨rfl, Bool.le_true _⟩
  | rmPassed => exact ⟨rfl, mayAdd_rmDown.le⟩
  | swapped | swappedNull => exact ⟨rfl, Bool.false_le _⟩
  | insLen => exact ⟨inserts_incLen, Bool.false_le _⟩
  | rmLen => exact ⟨inserts_decLen, le_rfl⟩
  | ret => exact ⟨by simp [Mem.inserts, Mem.respond, startsInsert], le_rfl⟩
  | _ => exact ⟨rfl, le_rfl⟩

theorem inserts_le_of_step (hst : step maxLevel m a c = some (m', a')) : m.inserts ≤ m'.inserts := by
  rcases step_cases hst with ⟨op, topLevel, -, -, -, rfl, -⟩ | ⟨r, pc, -, -, hmv⟩
  · simp [Mem.inserts, Mem.invoke]
  · exact hmv.mayAdd_le.1.ge

theorem step_mayAdd_le (hst : step maxLevel m a c = some (m', a')) :
    a'.mayAdd.toNat + m.inserts ≤ a.mayAdd.toNat + m'.inserts := by
  rcases step_cases hst with ⟨op, topLevel, -, -, rfl, rfl, rfl⟩ | ⟨r, pc, -, rfl, hmv⟩
  · cases op <;>
      simp [Mem.inserts, Mem.invoke, startsInsert, Pc.start, Thread.mayAdd, After.mayAdd, Nat.add_comm]
  · obtain ⟨hins, hle⟩ := hmv.mayAdd_le
    rw [hins]
    exact Nat.add_le_add_right (Bool.toNat_le_toNat hle) _

end Calls

/-! ## The account in numbers -/

/-- One if the thread owes `d`. -/
def Thread.owing (d : ℤ) (a : Thread) : ℕ := if a.debt = d then 1 else 0

/-- Away from both ends of the word a step keeps the account exact, and it adds only for an insert that has
not added yet. -/
theorem Tallies.exact {m m' : Mem} {a a' : Thread} (h : Tallies m m' a a') (hlt : m.len < lenMod)
    (hroom : a.mayAdd = true → m.len + 1 < lenMod)
    (hpos : a.atFetchSub = true → 0 < m.len) :
    m'.len + a'.owing 1 + ((live m.nodes).card + a.owing (-1)) =
        m.len + a.owing 1 + ((live m'.nodes).card + a'.owing (-1)) ∧
      (m'.len ≤ m.len ∨ m'.len = m.len + 1 ∧ a.mayAdd = true ∧ a'.mayAdd = false) := by
  cases h with
  | frame hlen hlive hdebt =>
      refine ⟨?_, .inl hlen.le⟩
      simp only [Thread.owing, hlen, hlive, hdebt]
  | published hlen hlive hdebt =>
      refine ⟨?_, .inl hlen.le⟩
      simp only [Thread.owing, hlen, hlive, hdebt.1, hdebt.2]
      norm_num
      omega
  | marked hlen hlive hdebt =>
      refine ⟨?_, .inl hlen.le⟩
      simp only [Thread.owing, hlen, ← hlive, hdebt.1, hdebt.2]
      norm_num
  | added hlen hlive hdebt hmay =>
      rw [Nat.mod_eq_of_lt (hroom hmay.1)] at hlen
      refine ⟨?_, .inr ⟨hlen, hmay⟩⟩
      simp only [Thread.owing, hlen, hlive, hdebt.1, hdebt.2]
      norm_num
  | subtracted hlen hlive hdebt hpc =>
      have hone := hpos hpc
      have hdec : m'.len = m.len - 1 := by
        rw [hlen, show m.len + (lenMod - 1) = m.len - 1 + lenMod by omega, Nat.add_mod_right,
          Nat.mod_eq_of_lt (by omega)]
      refine ⟨?_, .inl (by omega)⟩
      simp only [Thread.owing, hdec, hlive, hdebt.1, hdebt.2]
      norm_num
      omega

section Run

variable {maxLevel : ℕ} {τ : Type} {s s' : Config τ Mem Thread} {t : τ} {c : Choice}

/-- Inserts that have published their node and not yet added one to the counter. -/
noncomputable def toAdd (s : Config τ Mem Thread) : ℕ := {t | (s.loc t).debt = 1}.ncard

/-- Removes that have marked their node and not yet subtracted one from the counter. -/
noncomputable def toSubtract (s : Config τ Mem Thread) : ℕ := {t | (s.loc t).debt = -1}.ncard

/-- At a `fetch_sub` there is a node or a removal for every insert that still has to add, and one more. -/
def Counted (s : Config τ Mem Thread) (l : τ × Choice) : Prop :=
  (s.loc l.1).atFetchSub = true → toAdd s < (live s.mem.nodes).card + toSubtract s

/-- With finitely many threads the condition can be evaluated. -/
instance [Fintype τ] (s : Config τ Mem Thread) (l : τ × Choice) : Decidable (Counted s l) :=
  decidable_of_iff
    ((s.loc l.1).atFetchSub = true → (Finset.univ.filter fun t => (s.loc t).debt = 1).card <
      (live s.mem.nodes).card + (Finset.univ.filter fun t => (s.loc t).debt = -1).card) <| by
    have hcard : ∀ d, (Finset.univ.filter fun t => (s.loc t).debt = d).card =
        {t | (s.loc t).debt = d}.ncard := fun d => by
      rw [← Set.ncard_coe_finset]
      simp
    rw [Counted, toAdd, toSubtract, hcard, hcard]

/-- The counter while fewer than `2 ^ 64` inserts were started: it is exact, and with those that may still
add it is at most what was started.  Threads outside `ts` are idle. -/
structure Length (s : Config τ Mem Thread) (ts : Finset τ) : Prop where
  idle : ∀ t ∉ ts, s.loc t = .idle
  len_lt : s.mem.len < lenMod
  exact : s.mem.inserts < lenMod → s.mem.len + ∑ t ∈ ts, (s.loc t).owing 1 =
    (live s.mem.nodes).card + ∑ t ∈ ts, (s.loc t).owing (-1)
  le : s.mem.inserts < lenMod → s.mem.len + ∑ t ∈ ts, (s.loc t).mayAdd.toNat ≤ s.mem.inserts

theorem Length.ncard_eq {ts : Finset τ} (h : Length s ts) {d : ℤ} (hd : d ≠ 0) :
    {t | (s.loc t).debt = d}.ncard = ∑ t ∈ ts, (s.loc t).owing d := by
  have hset : {t | (s.loc t).debt = d} = ↑(ts.filter fun t => (s.loc t).debt = d) := by
    ext t
    simp only [Set.mem_ofPred_eq, Finset.coe_filter]
    refine ⟨fun ht => ⟨by_contra fun hout => hd ?_, ht⟩, fun ht => ht.2⟩
    rw [← ht, h.idle t hout]
    rfl
  rw [hset, Set.ncard_coe_finset, Finset.card_filter]
  rfl

variable [DecidableEq τ]

theorem Length.enlarge {ts : Finset τ} (h : Length s ts) (t : τ) : Length s (insert t ts) where
  idle u hu := h.idle u fun hm => hu (Finset.mem_insert_of_mem hm)
  len_lt := h.len_lt
  exact := by
    rw [Finset.sum_insert_of_eq_zero_if_notMem fun ht => by rw [h.idle t ht]; rfl,
      Finset.sum_insert_of_eq_zero_if_notMem fun ht => by rw [h.idle t ht]; rfl]
    exact h.exact
  le := by
    rw [Finset.sum_insert_of_eq_zero_if_notMem fun ht => by rw [h.idle t ht]; rfl]
    exact h.le

theorem Length.step {ts : Finset τ} (h : Length s ts) (hk : (s.loc t).Knows s.mem.nodes)
    (hc : Counted s (t, c)) (hst : (threads maxLevel).stepOf s (t, c) = some s') :
    ∃ ts', Length s' ts' := by
  obtain ⟨m', a', hmv, rfl⟩ := Threads.stepOf_eq_some.mp hst
  have h := h.enlarge t
  have hmem := Finset.mem_insert_self t ts
  have hadd := sum_update_mem hmem (fun _ a => a.owing 1) s.loc a'
  have hsub := sum_update_mem hmem (fun _ a => a.owing (-1)) s.loc a'
  have hmay := sum_update_mem hmem (fun _ a => a.mayAdd.toNat) s.loc a'
  have hstarted := step_mayAdd_le hmv
  have hmono := inserts_le_of_step hmv
  -- the acting thread is one of those that the sums run over
  have hroom : m'.inserts < lenMod → (s.loc t).mayAdd = true → s.mem.len + 1 < lenMod := by
    intro hlt hmayt
    have hle := h.le (hmono.trans_lt hlt)
    have hone : (s.loc t).mayAdd.toNat ≤ ∑ u ∈ insert t ts, (s.loc u).mayAdd.toNat :=
      Finset.single_le_sum (f := fun u => (s.loc u).mayAdd.toNat) (fun _ _ => Nat.zero_le _) hmem
    rw [hmayt, Bool.toNat_true] at hone
    omega
  have hpos : m'.inserts < lenMod → (s.loc t).atFetchSub = true → 0 < s.mem.len := by
    intro hlt hpc
    have hexact := h.exact (hmono.trans_lt hlt)
    have hcond := hc hpc
    rw [toAdd, toSubtract, h.ncard_eq one_ne_zero, h.ncard_eq (by norm_num)] at hcond
    omega
  have hword := fun hlt => (step_tallies hk hmv).exact h.len_lt (hroom hlt) (hpos hlt)
  refine ⟨insert t ts, fun u hu => ?_, step_len_lt h.len_lt hmv, fun hlt => ?_, fun hlt => ?_⟩
  · have hut : u ≠ t := fun he => hu (he ▸ hmem)
    exact (Function.update_of_ne hut _ _).trans (h.idle u hu)
  · have hexact := h.exact (hmono.trans_lt hlt)
    have hstep := (hword hlt).1
    dsimp only at *
    omega
  · have hle := h.le (hmono.trans_lt hlt)
    dsimp only at *
    rcases (hword hlt).2 with hdown | ⟨hup, hbefore, hafter⟩
    · omega
    · rw [hbefore, hafter] at hmay
      simp only [Bool.toNat_true, Bool.toNat_false] at hmay
      omega

/-! ## The length over a run -/

/-- The skiplist, for the steps that meet `Counted`. -/
def countedMachine (τ : Type) [DecidableEq τ] (maxLevel : ℕ) :
    Machine (Config τ Mem Thread) (τ × Choice) :=
  ((threads maxLevel).machine τ).restrict Counted

theorem length_of_reachable (hs : (countedMachine τ maxLevel).Reachable s) : ∃ ts, Length s ts := by
  refine hs.invariant (I := fun s => ∃ ts, Length s ts) ?_ ?_
  · rintro s rfl
    exact ⟨∅, fun _ _ => rfl, Nat.two_pow_pos 64, fun _ => rfl, fun _ => le_rfl⟩
  · rintro s ⟨t, c⟩ s' hr ⟨ts, h⟩ hst
    exact h.step (((views maxLevel).holds hr.of_restrict).own t) hst.1 hst.2

theorem len_le_of_reachable (hs : (countedMachine τ maxLevel).Reachable s) :
    s.mem.len ≤ s.mem.inserts := by
  obtain ⟨ts, h⟩ := length_of_reachable hs
  rcases Nat.lt_or_ge s.mem.inserts lenMod with hlt | hge
  · exact (Nat.le_add_right ..).trans (h.le hlt)
  · exact h.len_lt.le.trans hge

theorem inserts_le_of_stays (hs : (countedMachine τ maxLevel).Reachable s)
    (hrun : (countedMachine τ maxLevel).StaysIn (fun _ => True) s s') :
    s.mem.inserts ≤ s'.mem.inserts := by
  refine hrun.invariant (I := fun u => s.mem.inserts ≤ u.mem.inserts) hs le_rfl ?_
  rintro u ⟨t, c⟩ v - - - hle hst
  obtain ⟨m', a', hmv, rfl⟩ := Threads.stepOf_eq_some.mp hst.2
  exact hle.trans (inserts_le_of_step hmv)

/-- **The length is bounded by the inserts that were started.**  First for one skiplist, in every state of
every run that meets `Counted`.  Then for the shards of an index, each with such a run: `ShardedIndex::len`
reads shard `i` in the state `read i`, some time before the state `s` in which it returns; what it adds up is
at most the inserts that were started in all shards by then, and below `2 ^ 64` of them the sum does not
overflow. -/
theorem len_le_inserts (τ : Type) [DecidableEq τ] (maxLevel : ℕ) :
    (∀ s : Config τ Mem Thread, (countedMachine τ maxLevel).Reachable s →
      s.mem.len ≤ s.mem.inserts) ∧
    ∀ (n : ℕ) (mask : UInt64) (read : Fin n → Fin n → Config τ Mem Thread)
      (s : Fin n → Config τ Mem Thread),
      (∀ i, ((countedMachine τ maxLevel).pi (Fin n)).Reachable (read i)) →
      (∀ i, ((countedMachine τ maxLevel).pi (Fin n)).StaysIn (fun _ => True) (read i) s) →
      ∑ i, (read i i).mem.len ≤ ∑ i, (s i).mem.inserts ∧
      (∑ i, (s i).mem.inserts < 2 ^ 64 →
        Shard.ShardedIndex.len ⟨List.ofFn fun i => (read i i).mem, maxLevel, mask⟩ =
          ∑ i, (read i i).mem.len) := by
  refine ⟨fun s => len_le_of_reachable, fun n mask read s hread hlater => ?_⟩
  have hsum : ∑ i, (read i i).mem.len ≤ ∑ i, (s i).mem.inserts := by
    refine Finset.sum_le_sum fun i _ => ?_
    have hi := (hread i).of_pi i
    exact (len_le_of_reachable hi).trans (inserts_le_of_stays hi ((hlater i).of_pi i))
  refine ⟨hsum, fun hlt => ?_⟩
  rw [Shard.ShardedIndex.len, List.map_ofFn, List.sum_ofFn]
  exact Nat.mod_eq_of_lt (hsum.trans_lt hlt)

end Run

/-- A key is inserted and removed again, the second call after the first. -/
def thereAndBack : List (Bool × Choice) :=
  (false, .call (.insert [5] [1]) 0) :: List.replicate 9 (false, .run) ++
    (true, .call (.remove [5]) 0) :: List.replicate 14 (true, .run)

/-- The skiplist at the start. -/
def atStart (τ : Type) : Config τ Mem Thread := { mem := .withMaxLevel, loc := fun _ => .idle }

/-- Two shards, of which the first has run `thereAndBack`. -/
theorem len_le_inserts_thereAndBack :
    ∃ s : Config Bool Mem Thread, s.mem.inserts = 1 ∧ s.mem.len ≤ 1 ∧
      Shard.ShardedIndex.len ⟨[s.mem, .withMaxLevel], 1, 1⟩ = s.mem.len + 0 := by
  obtain ⟨s, hs⟩ : ∃ s, Machine.runFn (fun s l => if Counted s l then (threads 1).stepOf s l else none)
      (atStart Bool) thereAndBack = some s := ⟨_, rfl⟩
  have hreach : (countedMachine Bool 1).Reachable s := Machine.reachable_restrict_of_runFn hs
  have hshards : ((countedMachine Bool 1).pi (Fin 2)).Reachable
      (Function.update (fun _ => atStart Bool) 0 s) := hreach.update_pi (fun _ => rfl) 0
  have hone : s.mem.inserts = 1 := by
    cases hs
    rfl
  obtain ⟨hlist, hindex⟩ := len_le_inserts Bool 1
  refine ⟨s, hone, hone ▸ hlist s hreach, ?_⟩
  have hlen := (hindex 2 1 (fun _ => _) _ (fun _ => hshards) fun _ => .refl trivial).2
  simp only [Fin.sum_univ_two, Function.update_self, Function.update_of_ne (one_ne_zero (α := Fin 2)),
    hone] at hlen
  exact hlen (by decide)

/-- The same two calls, with the removal between the publication of the node and the `fetch_add`. -/
def removedFirst : List (Bool × Choice) :=
  (false, .call (.insert [5] [1]) 0) :: List.replicate 7 (false, .run) ++
    (true, .call (.remove [5]) 0) :: List.replicate 14 (true, .run)

/-- One of two threads inserts a key. -/
def oneInserted : List (Bool × Choice) :=
  (false, .call (.insert [5] [1]) 1) :: List.replicate 12 (false, .run)

/-- One call of `insert`, and a length of `2 ^ 64 - 1`.  With a shard that holds one key the sum of the
lengths overflows. -/
theorem len_wraps :
    ∃ s u : Config Bool Mem Thread, ((threads 1).machine Bool).Reachable s ∧
      ((threads 1).machine Bool).Reachable u ∧ s.mem.inserts = 1 ∧ s.mem.len = 2 ^ 64 - 1 ∧
      u.mem.inserts = 1 ∧ s.mem.len + u.mem.len = 2 ^ 64 := by
  obtain ⟨s, hs⟩ : ∃ s, Machine.runFn (threads 1).stepOf (atStart Bool) removedFirst = some s :=
    ⟨_, rfl⟩
  obtain ⟨u, hu⟩ : ∃ u, Machine.runFn (threads 1).stepOf (atStart Bool) oneInserted = some u :=
    ⟨_, rfl⟩
  refine ⟨s, u, Machine.reachable_of_runFn hs, Machine.reachable_of_runFn hu, ?_⟩
  cases hs
  cases hu
  exact ⟨rfl, rfl, rfl, rfl⟩

end ZeroKv.SkipList
