/-
# ZeroKv.SkipList.Memory — keys, nodes, links and the memory of the skiplist.

`skiplist.rs` keeps an ordered map as towers of marked forward pointers.  This module has the data: keys
with the small-key optimisation, the sentinels' infinite keys, links that carry a reference and a mark,
and the memory that the calls share.  Addresses are indices into a list of nodes that only grows, so
node memory is never reused and reclamation is set aside.

Besides the fields of the source the memory has history variables, which no step reads: the log of
calls and returns, the log of retirements, and for each node the number of levels at which its insert
has linked it.
-/
import Mathlib.Data.List.Lex
import Mathlib.Order.WithBot
import ZeroKv.Lib.History
import ZeroKv.Lib.Records

namespace ZeroKv.SkipList

/-! ## Keys -/

/-- Keys and values. -/
abbrev Bytes := List UInt8

instance instLinearOrderByte : LinearOrder UInt8 where
  le_refl := UInt8.le_refl
  le_trans _ _ _ := UInt8.le_trans
  lt_iff_le_not_ge a b := by
    rw [UInt8.lt_iff_toNat_lt, UInt8.le_iff_toNat_le, UInt8.le_iff_toNat_le]
    omega
  le_antisymm _ _ := UInt8.le_antisymm
  le_total := UInt8.le_total
  toDecidableLE := inferInstance

/-- `INLINE_CAP`. -/
def inlineCap : ℕ := 22

/-- `KeyRepr`. -/
inductive KeyRepr
  | inlined (len : UInt8) (buf : Bytes)
  | boxed (b : Bytes)
deriving DecidableEq

namespace KeyRepr

/-- `KeyRepr::new`. -/
def new (key : Bytes) : KeyRepr :=
  if key.length ≤ inlineCap then
    .inlined (UInt8.ofNat key.length) (key ++ List.replicate (inlineCap - key.length) 0)
  else .boxed key

/-- `KeyRepr::as_bytes`. -/
def asBytes : KeyRepr → Bytes
  | .inlined len buf => buf.take len.toNat
  | .boxed b => b

/-- Both representations give the key back: below, at and above the inline limit. -/
@[simp] theorem asBytes_new (key : Bytes) : (new key).asBytes = key := by
  rw [new]
  split
  · next h =>
    have hlen : (UInt8.ofNat key.length).toNat = key.length := by
      have : key.length < 256 := lt_of_le_of_lt h (by decide)
      rw [UInt8.toNat_ofNat']
      omega
    simp [asBytes, hlen]
  · rfl

end KeyRepr

/-- `BoundKey`. -/
inductive BoundKey
  | negInf
  | fin (k : KeyRepr)
  | posInf
deriving DecidableEq

namespace BoundKey

/-- `SkipList::key_lt`. -/
def keyLt (nodeKey : BoundKey) (target : Bytes) : Bool :=
  match nodeKey with
  | .negInf => true
  | .posInf => false
  | .fin k => decide (k.asBytes < target)

/-- `SkipList::key_eq`. -/
def keyEq (nodeKey : BoundKey) (target : Bytes) : Bool :=
  match nodeKey with
  | .fin k => k.asBytes == target
  | _ => false

/-- The place of a key in the order of the list, with the sentinels at its ends. -/
def bound : BoundKey → WithBot (WithTop Bytes)
  | .negInf => ⊥
  | .fin k => ((k.asBytes : WithTop Bytes) : WithBot (WithTop Bytes))
  | .posInf => ((⊤ : WithTop Bytes) : WithBot (WithTop Bytes))

end BoundKey

/-- The place of a target key. -/
def target (key : Bytes) : WithBot (WithTop Bytes) := ((key : WithTop Bytes) : WithBot (WithTop Bytes))

namespace BoundKey

variable {b : BoundKey} {key : Bytes}

@[simp] theorem bound_new : (fin (.new key)).bound = target key := by
  simp [bound, target]

theorem keyLt_iff : b.keyLt key = true ↔ b.bound < target key := by
  cases b with
  | negInf => simp [keyLt, bound, target, WithBot.bot_lt_coe]
  | fin k => simp [keyLt, bound, target]
  | posInf => simp [keyLt, bound, target]

theorem keyEq_iff : b.keyEq key = true ↔ b.bound = target key := by
  cases b with
  | negInf => simp [keyEq, bound, target]
  | fin k => simp [keyEq, bound, target]
  | posInf => simp [keyEq, bound, target]

end BoundKey

@[simp] theorem target_inj {k k' : Bytes} : target k = target k' ↔ k = k' := by
  simp [target]

theorem target_lt_top (k : Bytes) : target k < BoundKey.posInf.bound :=
  WithBot.coe_lt_coe.mpr (WithTop.coe_lt_top k)

theorem bot_lt_target (k : Bytes) : BoundKey.negInf.bound < target k := WithBot.bot_lt_coe _

/-! ## Nodes and links -/

/-- `Link`: a reference, null or not, and the mark in its low bit. -/
structure Link where
  ref : Option ℕ
  mark : Bool
deriving DecidableEq

/-- `Link::null`. -/
def Link.null : Link := ⟨none, false⟩

/-- `Node`, with its tower of `top_level + 1` links.  `linked` is a history variable: the number of
levels, from the bottom up, at which the node has been linked. -/
structure Node where
  key : BoundKey
  value : Option ℕ
  topLevel : ℕ
  tower : List Link
  linked : ℕ

/-- `Node::new`. -/
def Node.new (key : BoundKey) (value : Option ℕ) (topLevel : ℕ) : Node where
  key := key
  value := value
  topLevel := topLevel
  tower := List.replicate (topLevel + 1) Link.null
  linked := 0

/-- `MAX_HEIGHT`. -/
def maxHeight : ℕ := 16

/-- The address of `self.head`. -/
def head : ℕ := 0

/-- The address of the tail sentinel. -/
def tail : ℕ := 1

/-! ## Calls -/

/-- A call of the public interface. -/
inductive Op
  | insert (key val : Bytes)
  | get (key : Bytes)
  | remove (key : Bytes)
deriving DecidableEq

/-- What a call returns: the flag of `insert` and `remove`, or what `get` found. -/
inductive Ret
  | flag (b : Bool)
  | value (v : Option Bytes)
deriving DecidableEq

/-- What is handed to `Guard::retire`: a node with `drop_node`, or a value cell with `drop_value`. -/
inductive Garbage
  | node (p : ℕ)
  | cell (c : ℕ)
deriving DecidableEq

/-! ## The heap of nodes -/

/-- The nodes ever allocated, at their addresses. -/
abbrev Heap := List Node

namespace Heap

/-- `(*p).link(l)`; there is nothing to read above the top of a tower. -/
def link (h : Heap) (p l : ℕ) : Option Link := readField none (fun nd => nd.tower[l]?) h p

def keyOf (h : Heap) : ℕ → BoundKey := readField .posInf Node.key h

def valueOf (h : Heap) : ℕ → Option ℕ := readField none Node.value h

def topOf (h : Heap) : ℕ → ℕ := readField 0 Node.topLevel h

def linkedOf (h : Heap) : ℕ → ℕ := readField 0 Node.linked h

/-- The place of node `p` in the order of the list. -/
def bound (h : Heap) (p : ℕ) : WithBot (WithTop Bytes) := (h.keyOf p).bound

/-- A write to link `l` of node `p`. -/
def setLink (h : Heap) (p l : ℕ) (lk : Link) : Heap :=
  h.modify p fun nd => { nd with tower := nd.tower.set l lk }

/-- A write to the value field of node `p`. -/
def setValue (h : Heap) (p : ℕ) (v : Option ℕ) : Heap := h.modify p fun nd => { nd with value := v }

/-- Node `p` is now linked at `n` levels. -/
def setLinked (h : Heap) (p n : ℕ) : Heap := h.modify p fun nd => { nd with linked := n }

/-- The allocation of a node, at the next address. -/
def alloc (h : Heap) (nd : Node) : Heap := h ++ [nd]

theorem bound_head_lt {h : Heap} (hkey : h.keyOf head = .negInf) (k : Bytes) :
    h.bound head < target k := by
  rw [bound, hkey]
  exact bot_lt_target k

theorem lt_bound_tail {h : Heap} (hkey : h.keyOf tail = .posInf) (k : Bytes) :
    target k < h.bound tail := by
  rw [bound, hkey]
  exact target_lt_top k

theorem ne_head_of_le_bound {h : Heap} {p : ℕ} {k : Bytes} (hkey : h.keyOf head = .negInf)
    (hp : target k ≤ h.bound p) : p ≠ head := by
  rintro rfl
  exact absurd (bound_head_lt hkey k) (not_lt.mpr hp)

theorem ne_tail_of_bound_le {h : Heap} {p : ℕ} {k : Bytes} (hkey : h.keyOf tail = .posInf)
    (hp : h.bound p ≤ target k) : p ≠ tail := by
  rintro rfl
  exact absurd (lt_bound_tail hkey k) (not_lt.mpr hp)

/-! ## Reading after a write -/

section

variable {h : Heap} {p q l l' n : ℕ} {lk : Link} {v : Option ℕ} {nd : Node} {bytes : Bytes}

theorem link_setLink :
    (h.setLink p l lk).link q l' =
      if q = p ∧ l' = l then (h.link p l).map fun _ => lk else h.link q l' := by
  by_cases hq : q = p
  · subst hq
    simp only [link, setLink, readField, List.getElem?_modify_eq, true_and]
    cases h[q]? with
    | none => simp
    | some nd =>
        by_cases hl : l' = l
        · subst hl
          by_cases hlt : l' < nd.tower.length
          · simp [hlt]
          · simp [hlt]
        · simp [hl, List.getElem?_set_ne (Ne.symm hl)]
  · simp only [hq, false_and, if_false]
    exact readField_modify_of_ne (Ne.symm hq)

theorem link_setLink_self {lk' : Link} (hp : h.link p l = some lk') :
    (h.setLink p l lk).link p l = some lk := by
  simp [link_setLink, hp]

theorem link_setLink_of_ne (hq : q ≠ p ∨ l' ≠ l) : (h.setLink p l lk).link q l' = h.link q l' := by
  rw [link_setLink, if_neg]
  rintro ⟨rfl, rfl⟩
  simp at hq

@[simp] theorem keyOf_setLink : (h.setLink p l lk).keyOf = h.keyOf :=
  readField_modify_of_eq (by intro; rfl) p

@[simp] theorem valueOf_setLink : (h.setLink p l lk).valueOf = h.valueOf :=
  readField_modify_of_eq (by intro; rfl) p

@[simp] theorem topOf_setLink : (h.setLink p l lk).topOf = h.topOf :=
  readField_modify_of_eq (by intro; rfl) p

@[simp] theorem linkedOf_setLink : (h.setLink p l lk).linkedOf = h.linkedOf :=
  readField_modify_of_eq (by intro; rfl) p

@[simp] theorem bound_setLink : (h.setLink p l lk).bound q = h.bound q := by
  simp [bound]

@[simp] theorem length_setLink : (h.setLink p l lk).length = h.length := by
  simp [setLink]

@[simp] theorem link_setValue : (h.setValue p v).link q l = h.link q l :=
  congrFun (readField_modify_of_eq (by intro; rfl) p) q

@[simp] theorem keyOf_setValue : (h.setValue p v).keyOf = h.keyOf :=
  readField_modify_of_eq (by intro; rfl) p

@[simp] theorem topOf_setValue : (h.setValue p v).topOf = h.topOf :=
  readField_modify_of_eq (by intro; rfl) p

@[simp] theorem linkedOf_setValue : (h.setValue p v).linkedOf = h.linkedOf :=
  readField_modify_of_eq (by intro; rfl) p

@[simp] theorem bound_setValue : (h.setValue p v).bound q = h.bound q := by
  simp [bound]

@[simp] theorem length_setValue : (h.setValue p v).length = h.length := by
  simp [setValue]

theorem valueOf_setValue_self (hp : p < h.length) : (h.setValue p v).valueOf p = v :=
  readField_modify_self (g := fun _ => v) (fun _ => rfl) hp

theorem valueOf_setValue_of_ne (hq : q ≠ p) : (h.setValue p v).valueOf q = h.valueOf q :=
  readField_modify_of_ne (Ne.symm hq)

@[simp] theorem link_setLinked : (h.setLinked p n).link q l = h.link q l :=
  congrFun (readField_modify_of_eq (by intro; rfl) p) q

@[simp] theorem keyOf_setLinked : (h.setLinked p n).keyOf = h.keyOf :=
  readField_modify_of_eq (by intro; rfl) p

@[simp] theorem valueOf_setLinked : (h.setLinked p n).valueOf = h.valueOf :=
  readField_modify_of_eq (by intro; rfl) p

@[simp] theorem topOf_setLinked : (h.setLinked p n).topOf = h.topOf :=
  readField_modify_of_eq (by intro; rfl) p

@[simp] theorem bound_setLinked : (h.setLinked p n).bound q = h.bound q := by
  simp [bound]

@[simp] theorem length_setLinked : (h.setLinked p n).length = h.length := by
  simp [setLinked]

theorem linkedOf_setLinked_self (hp : p < h.length) : (h.setLinked p n).linkedOf p = n :=
  readField_modify_self (g := fun _ => n) (fun _ => rfl) hp

theorem linkedOf_setLinked_of_ne (hq : q ≠ p) : (h.setLinked p n).linkedOf q = h.linkedOf q :=
  readField_modify_of_ne (Ne.symm hq)

theorem link_alloc_of_ne (hq : q ≠ h.length) : (h.alloc nd).link q l = h.link q l :=
  readField_append hq

@[simp] theorem link_alloc_self : (h.alloc nd).link h.length l = nd.tower[l]? :=
  readField_append_self

theorem keyOf_alloc_of_ne (hq : q ≠ h.length) : (h.alloc nd).keyOf q = h.keyOf q :=
  readField_append hq

@[simp] theorem keyOf_alloc_self : (h.alloc nd).keyOf h.length = nd.key :=
  readField_append_self

theorem valueOf_alloc_of_ne (hq : q ≠ h.length) :
    (h.alloc nd).valueOf q = h.valueOf q :=
  readField_append hq

@[simp] theorem valueOf_alloc_self : (h.alloc nd).valueOf h.length = nd.value :=
  readField_append_self

theorem topOf_alloc_of_ne (hq : q ≠ h.length) : (h.alloc nd).topOf q = h.topOf q :=
  readField_append hq

@[simp] theorem topOf_alloc_self : (h.alloc nd).topOf h.length = nd.topLevel :=
  readField_append_self

theorem linkedOf_alloc_of_ne (hq : q ≠ h.length) :
    (h.alloc nd).linkedOf q = h.linkedOf q :=
  readField_append hq

@[simp] theorem linkedOf_alloc_self : (h.alloc nd).linkedOf h.length = nd.linked :=
  readField_append_self

/-- Only allocated nodes have links. -/
theorem lt_length_of_link (hl : h.link p l = some lk) : p < h.length := by
  by_contra hp
  simp [link, readField, List.getElem?_eq_none (Nat.le_of_not_lt hp)] at hl

theorem lt_length_of_linkedOf (hl : l < h.linkedOf p) : p < h.length := by
  by_contra hp
  simp [linkedOf, readField, List.getElem?_eq_none (Nat.le_of_not_lt hp)] at hl

end

end Heap

/-! ## The memory -/

/-- The shared memory.  `cells` holds the bytes of every `ValueRecord` ever boxed; `freed` has the nodes
an insert freed because it lost the race to publish them. -/
structure Mem where
  nodes : Heap
  cells : List Bytes
  len : ℕ
  retired : List Garbage
  freed : List ℕ
  calls : ℕ
  hist : List (Event Op Ret)

/-- The sentinel `head` or `tail`, which is at its place at every level. -/
def sentinel (key : BoundKey) (next : Option ℕ) : Node where
  key := key
  value := none
  topLevel := maxHeight - 1
  tower := List.replicate maxHeight ⟨next, false⟩
  linked := maxHeight

/-- `SkipList::with_max_level`: every level of the head goes straight to the tail. -/
def Mem.withMaxLevel : Mem where
  nodes := [sentinel .negInf (some tail), sentinel .posInf none]
  cells := []
  len := 0
  retired := []
  freed := []
  calls := 0
  hist := []

end ZeroKv.SkipList
