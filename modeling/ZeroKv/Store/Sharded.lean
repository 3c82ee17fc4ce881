/-
# ZeroKv.Store.Sharded — the façade over the skiplists refines the store over a map.

`KvStore` keeps its index as a finite map.  Here the same façade stands over the sharded index of
skiplists, with the tower heights drawn by its inserts as arguments.  Run by one thread, it answers every
sequence of calls as the store over the map does, and it leaves the same log.
-/
import ZeroKv.Store.KvStore

namespace ZeroKv.Store

open Shard (ShardedIndex IndexRep)

/-- `KvStore`, with its index as it is built. -/
structure ShardedStore where
  index : ShardedIndex
  wal : Option MappedLog

/-- A call of the façade. -/
inductive Call
  | put (key value : Bytes)
  | get (key : Bytes)
  | delete (key : Bytes)
  | len
  | flush (fails : Option ℕ)
deriving DecidableEq

/-- What a call returns. -/
inductive Answer
  | index (a : Shard.Answer)
  | flushed (ok : Bool)
deriving DecidableEq

/-- One call, on the store over a map. -/
def KvStore.call (s : KvStore) : Call → KvStore × Answer
  | .put key value => ((s.put key value).1, .index (.flag (s.put key value).2))
  | .get key => (s, .index (.value (s.get key)))
  | .delete key => ((s.delete key).1, .index (.flag (s.delete key).2))
  | .len => (s, .index (.count s.len))
  | .flush fails => ((s.flush fails).1, .flushed (s.flush fails).2)

/-- A sequence of calls, on the store over a map. -/
def KvStore.session : KvStore → List Call → KvStore × List Answer
  | s, [] => (s, [])
  | s, c :: calls => (((s.call c).1.session calls).1, (s.call c).2 :: ((s.call c).1.session calls).2)

namespace ShardedStore

/-- `durable`. -/
def durable (lvl : ℕ → ℕ) (file : Bytes) (numShards capacityHint walBytes : ℕ) : Option ShardedStore := do
  let index ← ShardedIndex.new lvl numShards capacityHint
  some { index, wal := some (.open file walBytes) }

/-- A call that goes to the index. -/
def onIndex (s : ShardedStore) (fuel : ℕ) (c : Shard.Call) (topLevel : ℕ) (wal : Option MappedLog) :
    Option (ShardedStore × Answer) := do
  let (index, a) ← s.index.run fuel c topLevel
  some ({ index, wal }, .index a)

/-- One call. -/
def call (s : ShardedStore) (fuel : ℕ) (c : Call) (topLevel : ℕ) : Option (ShardedStore × Answer) :=
  match c with
  | .put key value =>
      s.onIndex fuel (.insert key value) topLevel (s.wal.map fun log => (log.append (frame key value)).1)
  | .get key => s.onIndex fuel (.getOwned key) topLevel s.wal
  | .delete key => s.onIndex fuel (.remove key) topLevel s.wal
  | .len => s.onIndex fuel .len topLevel s.wal
  | .flush fails =>
      match s.wal with
      | none => some (s, .flushed true)
      | some log => some ({ s with wal := some (log.flush fails).1 }, .flushed (log.flush fails).2)

/-- A sequence of calls, each with the height drawn for it. -/
def session (fuel : ℕ) : ShardedStore → List (Call × ℕ) → Option (ShardedStore × List Answer)
  | s, [] => some (s, [])
  | s, (c, topLevel) :: calls => do
      let (s', a) ← s.call fuel c topLevel
      let (s'', as) ← session fuel s' calls
      some (s'', a :: as)

/-- The same log, and an index that holds the same map. -/
structure Refines (s : ShardedStore) (t : KvStore) : Prop where
  index : IndexRep s.index t.index
  wal : s.wal = t.wal

/-- A call of the index, with whatever it does to the log. -/
theorem Refines.onIndex {s : ShardedStore} {t : KvStore} (h : Refines s t) (t' : KvStore)
    (c : Shard.Call) {topLevel : ℕ} (htop : topLevel ≤ s.index.maxLevel)
    (ht' : t'.index = (Shard.refRun t.index c).2) :
    ∃ s', (∃ n, ∀ fuel ≥ n, s.onIndex fuel c topLevel t'.wal =
        some (s', .index (Shard.refRun t.index c).1)) ∧
      s'.index.maxLevel = s.index.maxLevel ∧ Refines s' t' := by
  obtain ⟨idx', ⟨n, hn⟩, hmax, hrep⟩ := h.index.run c htop
  refine ⟨{ index := idx', wal := t'.wal }, ⟨n, fun fuel hf => ?_⟩, hmax, ⟨ht' ▸ hrep, rfl⟩⟩
  simp only [ShardedStore.onIndex, hn fuel hf, Option.bind_eq_bind, Option.bind_some]

/-- Every call answers as the store over the map does. -/
theorem Refines.call {s : ShardedStore} {t : KvStore} (h : Refines s t) (c : Call) {topLevel : ℕ}
    (htop : topLevel ≤ s.index.maxLevel) :
    ∃ s', (∃ n, ∀ fuel ≥ n, s.call fuel c topLevel = some (s', (t.call c).2)) ∧
      s'.index.maxLevel = s.index.maxLevel ∧ Refines s' (t.call c).1 := by
  obtain ⟨index, wal⟩ := s
  obtain rfl : wal = t.wal := h.wal
  cases c with
  | put key value => exact h.onIndex (t.put key value).1 (.insert key value) htop rfl
  | get key => exact h.onIndex t (.getOwned key) htop rfl
  | delete key => exact h.onIndex (t.delete key).1 (.remove key) htop rfl
  | len => exact h.onIndex t .len htop rfl
  | flush fails =>
      simp only [ShardedStore.call, KvStore.call, KvStore.flush]
      cases hwal : t.wal with
      | none => exact ⟨_, ⟨0, fun _ _ => rfl⟩, rfl, ⟨h.index, hwal.symm⟩⟩
      | some log => exact ⟨_, ⟨0, fun _ _ => rfl⟩, rfl, ⟨h.index, rfl⟩⟩

/-- **The façade refines the store over a map.** -/
theorem Refines.session (calls : List (Call × ℕ)) : ∀ {s : ShardedStore} {t : KvStore}, Refines s t →
    (∀ c ∈ calls, c.2 ≤ s.index.maxLevel) →
    ∃ s', (∃ n, ∀ fuel ≥ n, ShardedStore.session fuel s calls =
        some (s', (t.session (calls.map Prod.fst)).2)) ∧
      Refines s' (t.session (calls.map Prod.fst)).1 := by
  induction calls with
  | nil => exact fun {s t} h _ => ⟨s, ⟨0, fun _ _ => rfl⟩, h⟩
  | cons c calls ih =>
      obtain ⟨c, topLevel⟩ := c
      intro s t h htop
      obtain ⟨s₁, ⟨n₁, hn₁⟩, hmax, h₁⟩ := h.call c (htop _ List.mem_cons_self)
      obtain ⟨s₂, ⟨n₂, hn₂⟩, h₂⟩ := ih h₁ fun c hc => by
        rw [hmax]
        exact htop c (List.mem_cons_of_mem _ hc)
      refine ⟨s₂, ⟨max n₁ n₂, fun fuel hf => ?_⟩, h₂⟩
      simp only [ShardedStore.session, hn₁ fuel (le_of_max_le_left hf),
        hn₂ fuel (le_of_max_le_right hf), Option.bind_eq_bind, Option.bind_some]
      rfl

/-- A store that was just opened. -/
theorem refines_durable {lvl : ℕ → ℕ} {file : Bytes} {numShards capacityHint walBytes : ℕ}
    {s : ShardedStore} (h : durable lvl file numShards capacityHint walBytes = some s) :
    Refines s (.durable file walBytes) := by
  obtain ⟨idx, hidx, hs⟩ := Option.bind_eq_some_iff.mp h
  obtain rfl := Option.some.inj hs
  exact ⟨Shard.indexRep_new hidx, rfl⟩

end ShardedStore

end ZeroKv.Store
