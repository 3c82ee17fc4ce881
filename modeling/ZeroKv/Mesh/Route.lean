/-
# ZeroKv.Mesh.Route — what the two runtimes of the mesh share.

`mesh.rs` runs the same matrix of queues in two modes.  Common to both are the commands and replies
that travel on the queues, the shard each worker owns, and the routing hash: FNV-1a over the key,
masked by the number of workers minus one.
-/
import Mathlib.Data.Nat.Bitwise
import Mathlib.Data.Fintype.Basic

namespace ZeroKv.Mesh

/-- Keys and values. -/
abbrev Bytes := List UInt8

/-- The hash loop of `route`. -/
def fnv1a (key : Bytes) : UInt64 :=
  key.foldl (fun h b => (h ^^^ b.toUInt64) * 0x00000100000001B3) 0xcbf29ce484222325

/-- `route`. -/
def route (key : Bytes) (mask : UInt64) : ℕ := (fnv1a key &&& mask).toNat

theorem route_lt {n : ℕ} (hn : 0 < n) (key : Bytes) : route key (UInt64.ofNat (n - 1)) < n := by
  have hle : route key (UInt64.ofNat (n - 1)) ≤ (n - 1) % 2 ^ 64 := by
    rw [route, UInt64.toNat_and]
    exact Nat.and_le_right.trans (by simp)
  have := Nat.mod_le (n - 1) (2 ^ 64)
  omega

/-- Two workers are enough for the schedules that are replayed. -/
scoped instance instNeZeroTwo : NeZero 2 := ⟨two_ne_zero⟩

/-- The worker that owns a key, among `n` of them. -/
def owner (n : ℕ) [NeZero n] (key : Bytes) : Fin n :=
  ⟨route key (UInt64.ofNat (n - 1)), route_lt (Nat.pos_of_ne_zero (NeZero.ne n)) key⟩

/-- `Command`. -/
inductive Command (n : ℕ)
  | put (key val : Bytes)
  /-- `sender` is the field `from`. -/
  | get (key : Bytes) (sender : Fin n) (token : ℕ)
deriving DecidableEq

/-- The key of a command, which decides where it is pushed. -/
def Command.key {n : ℕ} : Command n → Bytes
  | .put key _ | .get key _ _ => key

/-- `Reply`. -/
structure Reply where
  token : ℕ
  val : Option Bytes
deriving DecidableEq

/-- The `BTreeMap` of a shard, as the partial map it holds. -/
abbrev Shard := Bytes → Option Bytes

/-- `BTreeMap::insert`. -/
def Shard.insert (m : Shard) (key val : Bytes) : Shard := Function.update m key (some val)

theorem Shard.insert_apply (m : Shard) (key val k : Bytes) :
    m.insert key val k = if k = key then some val else m k :=
  Function.update_apply ..

end ZeroKv.Mesh
