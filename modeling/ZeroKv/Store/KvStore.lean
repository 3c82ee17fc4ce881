/-
# ZeroKv.Store.KvStore — the store behind its façade, and what a history of updates leaves.

`store.rs` puts a sharded index and an optional `MappedLog` behind one façade.  `put` appends the frame
`[klen|key|value]` to the log and then updates the index; the result of the append is dropped, `delete`
goes to the index alone, and nothing reads the log back when a store is opened.

The index is the finite map it implements: `ShardedStore` is the same façade over the skiplists, and its
refinement theorem says that it answers every sequence of calls as the store here does and leaves the
same log.
-/
import Mathlib.Data.List.Flatten
import Mathlib.Data.List.Induction
import ZeroKv.Shard
import ZeroKv.Store.MappedLog

namespace ZeroKv.Store

open SkipList (Dict)

/-! ## The frame -/

/-- The frame that `put` builds; `key.len() as u32` keeps the low four bytes of the length. -/
def frame (key value : Bytes) : Bytes := toLeBytes 4 key.length ++ key ++ value

@[simp] theorem length_frame (key value : Bytes) :
    (frame key value).length = 4 + key.length + value.length := by
  simp [frame, Nat.add_assoc]

/-- One frame can be decoded, as long as the length of the key fits in its field. -/
theorem frame_inj {k k' v v' : Bytes} (hk : k.length < 2 ^ 32) (hk' : k'.length < 2 ^ 32)
    (h : frame k v = frame k' v') : k = k' ∧ v = v' := by
  rw [frame, frame, List.append_assoc, List.append_assoc] at h
  obtain ⟨hlen, hrest⟩ := List.append_inj h (by rw [length_toLeBytes, length_toLeBytes])
  have hpow : (256 : ℕ) ^ 4 = 2 ^ 32 := rfl
  exact List.append_inj hrest (toLeBytes_inj (hpow ▸ hk) (hpow ▸ hk') hlen)

/-! ## The store -/

/-- `KvStore`. -/
structure KvStore where
  index : Dict
  wal : Option MappedLog

namespace KvStore

/-- `in_memory`. -/
def inMemory : KvStore := { index := ∅, wal := none }

/-- `durable`, over a file with the given contents. -/
def durable (file : Bytes) (walBytes : ℕ) : KvStore :=
  { index := ∅, wal := some (.open file walBytes) }

/-- `put`.  The index of the record, or the refusal of the log, is ignored. -/
def put (s : KvStore) (key value : Bytes) : KvStore × Bool :=
  ({ index := s.index.insert key value
     wal := s.wal.map fun log => (log.append (frame key value)).1 },
    (s.index.lookup key).isNone)

/-- `get`. -/
def get (s : KvStore) (key : Bytes) : Option Bytes := s.index.lookup key

/-- `delete`. -/
def delete (s : KvStore) (key : Bytes) : KvStore × Bool :=
  ({ s with index := s.index.erase key }, (s.index.lookup key).isSome)

/-- `len`. -/
def len (s : KvStore) : ℕ := s.index.keys.card % SkipList.lenMod

/-- `flush`; `fails` as for the log. -/
def flush (s : KvStore) (fails : Option ℕ) : KvStore × Bool :=
  match s.wal with
  | none => (s, true)
  | some log => ({ s with wal := some (log.flush fails).1 }, (log.flush fails).2)

/-- The records of the log, in the order of the appends. -/
def records (s : KvStore) : List Bytes := (s.wal.map MappedLog.records).getD []

/-- The bytes in the buffer of the log. -/
def walData (s : KvStore) : Bytes := (s.wal.map MappedLog.data).getD []

/-- The contents of the file behind the log. -/
def file (s : KvStore) : Bytes := (s.wal.map MappedLog.file).getD []

end KvStore

/-- A call that changes the store. -/
inductive Update
  | put (key value : Bytes)
  | delete (key : Bytes)
deriving DecidableEq

/-- The puts of a history, in order. -/
def puts : List Update → List (Bytes × Bytes)
  | [] => []
  | .put key value :: us => (key, value) :: puts us
  | .delete _ :: us => puts us

/-- The history that only puts. -/
def putAll (ps : List (Bytes × Bytes)) : List Update := ps.map fun p => .put p.1 p.2

/-- The frames that the puts of a history build. -/
def frames (us : List Update) : List Bytes := (puts us).map fun p => frame p.1 p.2

/-- The log is large enough for all frames of a history. -/
def HasRoom (walBytes : ℕ) (us : List Update) : Prop := (frames us).flatten.length ≤ roundUp walBytes

instance (walBytes : ℕ) (us : List Update) : Decidable (HasRoom walBytes us) :=
  inferInstanceAs (Decidable (_ ≤ _))

/-- The value of the last put of a key. -/
def lastPut (ps : List (Bytes × Bytes)) (key : Bytes) : Option Bytes :=
  ps.foldl (fun o p => if p.1 = key then some p.2 else o) none

/-- The last update of a key is a delete. -/
def deletedLast (us : List Update) (key : Bytes) : Bool :=
  us.foldl (fun b u => match u with
    | .put k _ => if k = key then false else b
    | .delete k => if k = key then true else b) false

section Histories

variable (us : List Update) (ps : List (Bytes × Bytes)) (k : Bytes)

theorem puts_append (us' : List Update) : puts (us ++ us') = puts us ++ puts us' := by
  induction us with
  | nil => rfl
  | cons u us ih => cases u <;> simp [puts, ih]

theorem frames_append (us' : List Update) : frames (us ++ us') = frames us ++ frames us' := by
  rw [frames, puts_append, List.map_append]
  rfl

@[simp] theorem puts_putAll : puts (putAll ps) = ps := by
  induction ps with
  | nil => rfl
  | cons p ps ih => rw [putAll, List.map_cons, puts, ← putAll, ih]

theorem lastPut_concat (p : Bytes × Bytes) :
    lastPut (ps ++ [p]) k = if p.1 = k then some p.2 else lastPut ps k := by
  simp [lastPut, List.foldl_append]

theorem deletedLast_concat (u : Update) :
    deletedLast (us ++ [u]) k = match u with
      | .put k' _ => if k' = k then false else deletedLast us k
      | .delete k' => if k' = k then true else deletedLast us k := by
  rw [deletedLast, List.foldl_append]
  rfl

/-- Nothing is deleted where nothing but puts happens. -/
@[simp] theorem deletedLast_putAll : deletedLast (putAll ps) k = false := by
  induction ps using List.reverseRecOn with
  | nil => rfl
  | append_singleton ps p ih =>
      rw [putAll, List.map_append, List.map_singleton, deletedLast_concat, ← putAll, ih]
      exact ite_self _

/-- A key has a last put iff it was put. -/
theorem lastPut_ne_none : lastPut ps k ≠ none ↔ ∃ p ∈ ps, p.1 = k := by
  induction ps using List.reverseRecOn with
  | nil => simp [lastPut]
  | append_singleton ps p ih =>
      rw [lastPut_concat]
      by_cases hp : p.1 = k
      · simp [hp]
      · simp [hp, ih]

end Histories

namespace KvStore

/-- One update. -/
def apply (s : KvStore) : Update → KvStore
  | .put key value => (s.put key value).1
  | .delete key => (s.delete key).1

/-- A history of updates. -/
def run (s : KvStore) (us : List Update) : KvStore := us.foldl apply s

theorem run_concat (s : KvStore) (us : List Update) (u : Update) :
    s.run (us ++ [u]) = (s.run us).apply u := by
  simp [run, List.foldl_append]

/-! ## What a history leaves -/

/-- What a history leaves in the index: the last put of every key, unless it was deleted since. -/
theorem get_run (file : Bytes) (walBytes : ℕ) (us : List Update) (k : Bytes) :
    ((durable file walBytes).run us).get k =
      if deletedLast us k then none else lastPut (puts us) k := by
  induction us using List.reverseRecOn with
  | nil => rfl
  | append_singleton us u ih =>
      rw [run_concat, deletedLast_concat, puts_append]
      cases u with
      | put key value =>
          show Finmap.lookup k (((durable file walBytes).run us).index.insert key value) = _
          rw [show puts [Update.put key value] = [(key, value)] from rfl, lastPut_concat]
          by_cases hk : key = k
          · subst hk
            simp
          · rw [Finmap.lookup_insert_of_ne _ (Ne.symm hk)]
            simpa [hk, get] using ih
      | delete key =>
          show Finmap.lookup k (((durable file walBytes).run us).index.erase key) = _
          rw [show puts [Update.delete key] = [] from rfl, List.append_nil]
          by_cases hk : key = k
          · subst hk
            simp
          · rw [Finmap.lookup_erase_ne (Ne.symm hk)]
            simpa [hk, get] using ih

/-- What a history leaves in a log with room for its frames. -/
theorem wal_run (file : Bytes) (walBytes : ℕ) (us : List Update)
    (hroom : file.length + (frames us).flatten.length ≤ roundUp walBytes) :
    ∃ log, ((durable file walBytes).run us).wal = some log ∧ log.records = frames us ∧
      log.data = file ++ (frames us).flatten ∧ log.cap = roundUp walBytes ∧ log.file = file := by
  induction us using List.reverseRecOn with
  | nil =>
      have hlen : file.length ≤ roundUp walBytes := by omega
      refine ⟨_, rfl, rfl, ?_, MappedLog.cap_open _ _, rfl⟩
      rw [MappedLog.data_open, List.take_of_length_le hlen]
      simp [frames, puts]
  | append_singleton us u ih =>
      rw [frames_append, List.flatten_append, List.length_append] at hroom
      obtain ⟨log, hlog, hrec, hdata, hcap, hfile⟩ := ih (by omega)
      rw [run_concat]
      cases u with
      | put key value =>
          rw [frames_append, show frames [Update.put key value] = [frame key value] from rfl] at *
          have hfit : log.len + (frame key value).length ≤ log.cap := by
            rw [← log.length_data, hdata, hcap, List.length_append]
            simpa [Nat.add_assoc] using hroom
          refine ⟨log.push (frame key value), ?_, ?_, ?_, ?_, hfile⟩
          · show Option.map _ ((durable file walBytes).run us).wal = _
            rw [hlog, Option.map_some, MappedLog.append_of_le hfit]
          · rw [MappedLog.records_push, hrec]
          · rw [MappedLog.data_push, hdata]
            simp
          · rw [MappedLog.cap_push hfit, hcap]
      | delete key =>
          rw [frames_append, show frames [Update.delete key] = [] from rfl, List.append_nil]
          exact ⟨log, hlog, hrec, hdata, hcap, hfile⟩

end KvStore

end ZeroKv.Store
