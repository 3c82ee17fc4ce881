/-
# ZeroKv.Shard — the sharded index, and that the partition cannot be seen.

`shard.rs` routes every call to one of `K` skiplists by the FNV-1a hash of the key, masked by `K - 1`.
Run by one thread, the index answers every sequence of calls as one finite map does: each shard holds
the part of the map that is routed to it, and the sum of the shard lengths is the number of keys.

The guards that the calls pin have no influence on what they return; reclamation is not part of this
module.
-/
import Mathlib.Algebra.BigOperators.Fin
import ZeroKv.Lib.Word
import ZeroKv.Mesh.Route
import ZeroKv.SkipList.Refinement

namespace ZeroKv.Shard

open SkipList

/-- `ShardedIndex`.  Every shard is built with the same hint, so `max_level` is one number. -/
structure ShardedIndex where
  shards : List Mem
  maxLevel : ℕ
  mask : UInt64

/-- The `max_level` of `SkipList::with_capacity_hint`.  `lvl` is the floating-point formula for the
logarithm, of which only the clamping matters. -/
def withCapacityHint (lvl : ℕ → ℕ) (expectedItems : ℕ) : ℕ :=
  min (max (lvl (max expectedItems 2)) 1) maxHeight - 1

/-- `ShardedIndex::new`; `next_power_of_two` overflows above `2^63`. -/
def ShardedIndex.new (lvl : ℕ → ℕ) (numShards capacityHint : ℕ) : Option ShardedIndex :=
  let k := nextPowerOfTwo (max numShards 1)
  if k ≤ 2 ^ 63 then
    some
      { shards := List.replicate k .withMaxLevel
        maxLevel := withCapacityHint lvl (max (capacityHint / k) 2)
        mask := UInt64.ofNat (k - 1) }
  else none

/-- A call of the public interface. -/
inductive Call
  | insert (key val : Bytes)
  | get (key : Bytes)
  | getOwned (key : Bytes)
  | remove (key : Bytes)
  | len
deriving DecidableEq

/-- What a call returns. -/
inductive Answer
  | flag (b : Bool)
  | value (v : Option Bytes)
  | count (n : ℕ)
deriving DecidableEq

/-- The answer of the skiplist, as the answer of the index. -/
def Answer.ofRet : Ret → Answer
  | .flag b => .flag b
  | .value v => .value v

namespace ShardedIndex

/-- The shard of a key: `fnv1a(key) & mask`. -/
def shard (idx : ShardedIndex) (key : Bytes) : ℕ := Mesh.route key idx.mask

/-- A call of the skiplist of the key's shard; there is no shard beyond the last one. -/
def onShard (idx : ShardedIndex) (fuel : ℕ) (op : Op) (topLevel : ℕ) :
    Option (ShardedIndex × Answer) := do
  let m ← idx.shards[idx.shard op.key]?
  let out ← call idx.maxLevel fuel m op topLevel
  some ({ idx with shards := idx.shards.set (idx.shard op.key) out.mem }, .ofRet out.ret)

/-- `len`: the sum of the lengths of the shards. -/
def len (idx : ShardedIndex) : ℕ := (idx.shards.map Mem.len).sum % lenMod

/-- One call. -/
def run (idx : ShardedIndex) (fuel : ℕ) (c : Call) (topLevel : ℕ) : Option (ShardedIndex × Answer) :=
  match c with
  | .insert key val => idx.onShard fuel (.insert key val) topLevel
  | .get key => idx.onShard fuel (.get key) topLevel
  | .getOwned key => idx.onShard fuel (.get key) topLevel
  | .remove key => idx.onShard fuel (.remove key) topLevel
  | .len => some (idx, .count idx.len)

/-- A sequence of calls, each with the height drawn for it. -/
def session (fuel : ℕ) : ShardedIndex → List (Call × ℕ) → Option (ShardedIndex × List Answer)
  | idx, [] => some (idx, [])
  | idx, (c, topLevel) :: calls => do
      let (idx', a) ← idx.run fuel c topLevel
      let (idx'', as) ← session fuel idx' calls
      some (idx'', a :: as)

end ShardedIndex

/-! ## The reference -/

/-- What one map answers; its number of keys as a 64-bit number. -/
def refRun (μ : Dict) : Call → Answer × Dict
  | .insert key val => (.ofRet (mapSpec.run μ (.insert key val)).1, μ.insert key val)
  | .get key | .getOwned key => (.value (μ.lookup key), μ)
  | .remove key => (.ofRet (mapSpec.run μ (.remove key)).1, μ.erase key)
  | .len => (.count (μ.keys.card % lenMod), μ)

/-- The answers of one map to a sequence of calls. -/
def refSession : Dict → List Call → List Answer
  | _, [] => []
  | μ, c :: calls => (refRun μ c).1 :: refSession (refRun μ c).2 calls

/-- A call on one key leaves the entries of the other keys alone. -/
theorem mapSpec_lookup_of_ne (μ : Dict) {op : Op} {k : Bytes} (hk : k ≠ op.key) :
    (mapSpec.run μ op).2.lookup k = μ.lookup k := by
  cases op with
  | insert key val => exact Finmap.lookup_insert_of_ne _ hk
  | get key => rfl
  | remove key => exact Finmap.lookup_erase_ne hk

/-- The answer of a call on one key, and the entry it leaves, depend on the entry of that key alone. -/
theorem mapSpec_local {μ ν : Dict} {op : Op} (h : μ.lookup op.key = ν.lookup op.key) :
    (mapSpec.run μ op).1 = (mapSpec.run ν op).1 ∧
      (mapSpec.run μ op).2.lookup op.key = (mapSpec.run ν op).2.lookup op.key := by
  cases op with
  | insert key val =>
      have h : μ.lookup key = ν.lookup key := h
      refine ⟨by simp only [mapSpec, h], ?_⟩
      show (μ.insert key val).lookup key = (ν.insert key val).lookup key
      rw [Finmap.lookup_insert, Finmap.lookup_insert]
  | get key => exact ⟨congrArg Ret.value h, h⟩
  | remove key =>
      have h : μ.lookup key = ν.lookup key := h
      refine ⟨by simp only [mapSpec, h], ?_⟩
      show (μ.erase key).lookup key = (ν.erase key).lookup key
      rw [Finmap.lookup_erase, Finmap.lookup_erase]

/-! ## The representation -/

/-- The index holds `μ`: every shard is at rest and holds the part of `μ` that is routed to it. -/
structure IndexRep (idx : ShardedIndex) (μ : Dict) : Prop where
  pos : 0 < idx.shards.length
  mask_eq : idx.mask = UInt64.ofNat (idx.shards.length - 1)
  shard : ∀ i (hi : i < idx.shards.length), ∃ all μi, Rep idx.maxLevel (idx.shards.get ⟨i, hi⟩) all μi ∧
    ∀ k, μi.lookup k = if idx.shard k = i then μ.lookup k else none

namespace IndexRep

variable {idx : ShardedIndex} {μ : Dict}

/-- The shard of a key exists. -/
theorem shard_lt (h : IndexRep idx μ) (key : Bytes) : idx.shard key < idx.shards.length := by
  rw [ShardedIndex.shard, h.mask_eq]
  exact Mesh.route_lt h.pos key

/-- `len()` is the number of keys. -/
theorem len_eq (h : IndexRep idx μ) : idx.len = μ.keys.card % lenMod := by
  have hpart : ∀ i : Fin idx.shards.length, (idx.shards.get i).len =
      (μ.keys.filter fun k => idx.shard k = i).card % lenMod := by
    intro i
    obtain ⟨all, μi, hrep, hμi⟩ := h.shard i i.2
    have hkeys : μi.keys = μ.keys.filter fun k => idx.shard k = i := by
      ext k
      rw [Finset.mem_filter, Finmap.mem_keys, Finmap.mem_keys, Finmap.mem_iff, Finmap.mem_iff, hμi]
      by_cases hk : idx.shard k = i <;> simp [hk]
    rw [← hkeys]
    exact hrep.len_eq
  have hsum : (idx.shards.map Mem.len).sum = ∑ i : Fin idx.shards.length, (idx.shards.get i).len :=
    (Fin.sum_univ_fun_getElem idx.shards Mem.len).symm
  have hcard : μ.keys.card =
      ∑ i : Fin idx.shards.length, (μ.keys.filter fun k => idx.shard k = i).card := by
    rw [← Finset.sum_range fun i => (μ.keys.filter fun k => idx.shard k = i).card]
    exact Finset.card_eq_sum_card_fiberwise fun k _ => Finset.mem_coe.mpr
      (Finset.mem_range.mpr (h.shard_lt k))
  rw [ShardedIndex.len, hsum, hcard, Finset.sum_nat_mod Finset.univ lenMod
    fun i : Fin idx.shards.length => (μ.keys.filter fun k => idx.shard k = i).card]
  exact congrArg (· % lenMod) (Finset.sum_congr rfl fun i _ => hpart i)

/-- A call of a shard answers as the map does. -/
theorem onShard (h : IndexRep idx μ) (op : Op) {topLevel : ℕ} (htop : topLevel ≤ idx.maxLevel) :
    ∃ idx', (∃ n, ∀ fuel ≥ n, idx.onShard fuel op topLevel =
        some (idx', .ofRet (mapSpec.run μ op).1)) ∧
      idx'.maxLevel = idx.maxLevel ∧ IndexRep idx' (mapSpec.run μ op).2 := by
  have hlt := h.shard_lt op.key
  obtain ⟨all, μi, hrep, hμi⟩ := h.shard _ hlt
  obtain ⟨all', out, ⟨n, hn⟩, hret, hrep'⟩ := hrep.call op htop
  -- the shard has the same entry for the key as the map
  have hkey : μi.lookup op.key = μ.lookup op.key := by rw [hμi, if_pos rfl]
  obtain ⟨hanswer, hsame⟩ := mapSpec_local hkey
  refine ⟨{ idx with shards := idx.shards.set (idx.shard op.key) out.mem }, ⟨n, fun fuel hf => ?_⟩,
    rfl, ?_⟩
  · rw [ShardedIndex.onShard, List.getElem?_eq_getElem hlt, Option.bind_eq_bind, Option.bind_some]
    have hcall := hn fuel hf
    rw [List.get_eq_getElem] at hcall
    simp only [hcall, Option.bind_eq_bind, Option.bind_some, hret, hanswer]
  · refine { pos := by simpa using h.pos, mask_eq := by simpa using h.mask_eq, shard := ?_ }
    intro i hi
    have hi' : i < idx.shards.length := by simpa using hi
    by_cases he : i = idx.shard op.key
    · subst he
      refine ⟨all', (mapSpec.run μi op).2, by simpa using hrep', fun k => ?_⟩
      show _ = if idx.shard k = idx.shard op.key then _ else none
      by_cases hk : k = op.key
      · subst hk
        rw [if_pos rfl, hsame]
      · rw [mapSpec_lookup_of_ne μi hk, mapSpec_lookup_of_ne μ hk, hμi]
    · obtain ⟨allj, μj, hrepj, hμj⟩ := h.shard i hi'
      refine ⟨allj, μj, by simpa [List.getElem_set_ne (Ne.symm he)] using hrepj, fun k => ?_⟩
      show _ = if idx.shard k = i then _ else none
      rw [hμj]
      split
      · next hk => rw [mapSpec_lookup_of_ne μ fun e => he (by rw [← hk, e])]
      · rfl

/-- Every call answers as the map does. -/
theorem run (h : IndexRep idx μ) (c : Call) {topLevel : ℕ} (htop : topLevel ≤ idx.maxLevel) :
    ∃ idx', (∃ n, ∀ fuel ≥ n, idx.run fuel c topLevel = some (idx', (refRun μ c).1)) ∧
      idx'.maxLevel = idx.maxLevel ∧ IndexRep idx' (refRun μ c).2 := by
  cases c with
  | insert key val => exact h.onShard (.insert key val) htop
  | get key => exact h.onShard (.get key) htop
  | getOwned key => exact h.onShard (.get key) htop
  | remove key => exact h.onShard (.remove key) htop
  | len => exact ⟨idx, ⟨0, fun fuel _ => by rw [ShardedIndex.run, h.len_eq]; rfl⟩, rfl, h⟩

theorem session (calls : List (Call × ℕ)) : ∀ {idx : ShardedIndex} {μ : Dict}, IndexRep idx μ →
    (∀ c ∈ calls, c.2 ≤ idx.maxLevel) →
    ∃ idx' μ', (∃ n, ∀ fuel ≥ n, ShardedIndex.session fuel idx calls =
      some (idx', refSession μ (calls.map Prod.fst))) ∧ IndexRep idx' μ' := by
  induction calls with
  | nil => exact fun {idx μ} h _ => ⟨idx, μ, ⟨0, fun _ _ => rfl⟩, h⟩
  | cons c calls ih =>
      obtain ⟨c, topLevel⟩ := c
      intro idx μ h htop
      obtain ⟨idx₁, ⟨n₁, hn₁⟩, hmax, h₁⟩ := h.run c (htop _ List.mem_cons_self)
      obtain ⟨idx₂, μ₂, ⟨n₂, hn₂⟩, h₂⟩ := ih h₁ fun c hc => by
        rw [hmax]
        exact htop c (List.mem_cons_of_mem _ hc)
      refine ⟨idx₂, μ₂, ⟨max n₁ n₂, fun fuel hf => ?_⟩, h₂⟩
      simp only [ShardedIndex.session, hn₁ fuel (le_of_max_le_left hf),
        hn₂ fuel (le_of_max_le_right hf), Option.bind_eq_bind, Option.bind_some]
      rfl

end IndexRep

/-! ## The fresh index -/

theorem withCapacityHint_le (lvl : ℕ → ℕ) (n : ℕ) : withCapacityHint lvl n ≤ maxHeight - 1 :=
  Nat.sub_le_sub_right (min_le_right _ _) 1

/-- A fresh index holds the empty map. -/
theorem indexRep_new {lvl : ℕ → ℕ} {numShards capacityHint : ℕ} {idx : ShardedIndex}
    (h : ShardedIndex.new lvl numShards capacityHint = some idx) : IndexRep idx ∅ := by
  obtain ⟨-, rfl⟩ : _ ∧ _ := by simpa [ShardedIndex.new] using h
  refine { pos := ?_, mask_eq := by rw [List.length_replicate], shard := fun i hi => ?_ }
  · rw [List.length_replicate]
    exact Nat.two_pow_pos _
  · refine ⟨[head, tail], ∅, ?_, fun k => by simp⟩
    rw [List.get_eq_getElem, List.getElem_replicate]
    exact rep_withMaxLevel (withCapacityHint_le ..)

/-- Up to `2^63` shards can be asked for. -/
theorem ShardedIndex.new_isSome (lvl : ℕ → ℕ) {numShards : ℕ} (capacityHint : ℕ)
    (h : numShards ≤ 2 ^ 63) : (ShardedIndex.new lvl numShards capacityHint).isSome := by
  have hk : nextPowerOfTwo (max numShards 1) ≤ 2 ^ 63 :=
    Nat.pow_le_pow_right Nat.two_pos (Nat.clog_le_of_le_pow (max_le h (Nat.one_le_two_pow)))
  simp only [ShardedIndex.new, if_pos hk, Option.isSome_some]

/-! ## Where a key is stored -/

/-- A node with this key can be reached from the head on the bottom level, marked links included. -/
def Stored (m : Mem) (key : Bytes) : Prop :=
  ∃ xs, List.IsChain (fun p q => ∃ mark, m.nodes.link p 0 = some ⟨some q, mark⟩) (head :: xs) ∧
    ∃ p ∈ xs, m.nodes.bound p = target key

/-- A walk from a node of the list stays on the list. -/
theorem mem_of_walk {maxLevel : ℕ} {h : Heap} {all : List ℕ} (ht : Towers maxLevel h all)
    (xs : List ℕ) : ∀ p ∈ all,
      List.IsChain (fun p q => ∃ mark, h.link p 0 = some ⟨some q, mark⟩) (p :: xs) →
      ∀ q ∈ xs, q ∈ all := by
  induction xs with
  | nil => exact fun _ _ _ q hq => absurd hq List.not_mem_nil
  | cons x xs ih =>
      intro p hp hwalk
      obtain ⟨⟨mark, hlk⟩, hrest⟩ := List.isChain_cons_cons.mp hwalk
      have hall : reach h 0 all = all := List.filter_eq_self.mpr fun q _ => by simp
      have hpath := ht.path 0 (Nat.zero_le _)
      rw [hall] at hpath
      have hx : x ∈ all := by
        rcases hpath.next hp with ⟨q, hq, hpq⟩ | hlast
        · rw [hlk, Option.some_inj, Link.mk.injEq, Option.some_inj] at hpq
          exact hpq.1 ▸ hq
        · -- the list ends in the tail, which has no successor
          obtain rfl := ht.last_eq_tail ht.sorted ht.tail_mem hlast
          rw [ht.tail_link 0 (Nat.zero_le _)] at hlk
          simp at hlk
      intro q hq
      rcases List.mem_cons.mp hq with rfl | hq
      · exact hx
      · exact ih x hx hrest q hq

/-- Every key has a shard, `fnv1a(key) & (K - 1)`, and is stored on no other. -/
structure Routed (idx : ShardedIndex) : Prop where
  mask_eq : idx.mask = UInt64.ofNat (idx.shards.length - 1)
  in_range : ∀ key, idx.shard key < idx.shards.length
  only : ∀ i m key, idx.shards[i]? = some m → Stored m key → i = idx.shard key

theorem IndexRep.routed {idx : ShardedIndex} {μ : Dict} (h : IndexRep idx μ) : Routed idx := by
  refine { mask_eq := h.mask_eq, in_range := h.shard_lt, only := ?_ }
  rintro i m key hm ⟨xs, hwalk, p, hp, hkey⟩
  obtain ⟨hi, rfl⟩ := List.getElem?_eq_some_iff.mp hm
  obtain ⟨all, μi, hrep, hμi⟩ := h.shard i hi
  have hmem := mem_of_walk hrep.towers xs head hrep.towers.head_mem hwalk p hp
  obtain ⟨-, v, -, -, hv⟩ := hrep.hit hmem hkey
  rw [hμi] at hv
  by_contra hne
  rw [if_neg (Ne.symm hne)] at hv
  exact absurd hv (by simp)

/-! ## The partition cannot be seen -/

/-- **Partitioning is invisible.**  Two indexes, built with any shard counts and hints, run the same
calls with any tower heights.  Both return, for every call, what one map returns, and both keep every
key on the shard it is routed to. -/
theorem partition_invisible {lvl : ℕ → ℕ} {numShards₁ numShards₂ hint₁ hint₂ : ℕ}
    {idx₁ idx₂ : ShardedIndex} (h₁ : ShardedIndex.new lvl numShards₁ hint₁ = some idx₁)
    (h₂ : ShardedIndex.new lvl numShards₂ hint₂ = some idx₂) {calls₁ calls₂ : List (Call × ℕ)}
    (hsame : calls₁.map Prod.fst = calls₂.map Prod.fst)
    (htop₁ : ∀ c ∈ calls₁, c.2 ≤ idx₁.maxLevel) (htop₂ : ∀ c ∈ calls₂, c.2 ≤ idx₂.maxLevel) :
    ∃ n, ∀ fuel ≥ n, ∃ out₁ out₂, idx₁.session fuel calls₁ = some out₁ ∧
      idx₂.session fuel calls₂ = some out₂ ∧ out₁.2 = refSession ∅ (calls₁.map Prod.fst) ∧
      out₂.2 = out₁.2 ∧ Routed out₁.1 ∧ Routed out₂.1 := by
  obtain ⟨idx₁', μ₁, ⟨n₁, hn₁⟩, hrep₁⟩ := (indexRep_new h₁).session calls₁ htop₁
  obtain ⟨idx₂', μ₂, ⟨n₂, hn₂⟩, hrep₂⟩ := (indexRep_new h₂).session calls₂ htop₂
  refine ⟨max n₁ n₂, fun fuel hf => ⟨_, _, hn₁ fuel (le_of_max_le_left hf),
    hn₂ fuel (le_of_max_le_right hf), rfl, ?_, hrep₁.routed, hrep₂.routed⟩⟩
  show refSession ∅ (calls₂.map Prod.fst) = refSession ∅ (calls₁.map Prod.fst)
  rw [hsame]

/-- The same calls on one shard of height two and on four of height one, where the two keys are on
different shards. -/
theorem partition_invisible_sample :
    Mesh.route [7] 3 ≠ Mesh.route [8] 3 ∧ ∃ n, ∀ fuel ≥ n, ∃ out₁ out₂,
      ShardedIndex.session fuel ⟨[.withMaxLevel], 1, 0⟩
        [(.insert [7] [1], 1), (.insert [8] [2], 0), (.remove [7], 0), (.get [8], 0), (.len, 0)] = some out₁ ∧
      ShardedIndex.session fuel ⟨List.replicate 4 .withMaxLevel, 0, 3⟩
        [(.insert [7] [1], 0), (.insert [8] [2], 0), (.remove [7], 0), (.get [8], 0), (.len, 0)] = some out₂ ∧
      out₁.2 = [.flag true, .flag true, .flag true, .value (some [2]), .count 1] ∧ out₂.2 = out₁.2 ∧
      Routed out₁.1 ∧ Routed out₂.1 := by
  have h₁ : ShardedIndex.new (· / 4) 1 8 = some ⟨[.withMaxLevel], 1, 0⟩ := rfl
  have h₂ : ShardedIndex.new (· / 4) 3 9 = some ⟨List.replicate 4 .withMaxLevel, 0, 3⟩ := rfl
  have hanswers : refSession ∅ [.insert [7] [1], .insert [8] [2], .remove [7], .get [8], .len] =
      [.flag true, .flag true, .flag true, .value (some [2]), .count 1] := by decide
  rw [← hanswers]
  exact ⟨by decide, partition_invisible h₁ h₂ rfl (by decide) (by decide)⟩

end ZeroKv.Shard
