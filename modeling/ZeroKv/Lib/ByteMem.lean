/-
# ZeroKv.Lib.ByteMem — memory as a function from addresses to bytes.

A span is an address and a length.  Reading one gives its bytes; copying a sequence of bytes somewhere
changes the span it lands on and nothing else.
-/
import Mathlib.Data.List.Range
import Mathlib.Data.List.GetD

namespace ZeroKv

/-- The bytes of a memory. -/
abbrev ByteMem := ℕ → UInt8

namespace ByteMem

/-- The `len` bytes at `ptr`. -/
def read (mem : ByteMem) (ptr len : ℕ) : List UInt8 := (List.range len).map fun i => mem (ptr + i)

/-- `copy_nonoverlapping` of `bytes` to `ptr`. -/
def copy (mem : ByteMem) (ptr : ℕ) (bytes : List UInt8) : ByteMem := fun a =>
  if ptr ≤ a then bytes.getD (a - ptr) (mem a) else mem a

@[simp] theorem length_read (mem : ByteMem) (ptr len : ℕ) : (mem.read ptr len).length = len := by
  simp [read]

@[simp] theorem copy_nil (mem : ByteMem) (ptr : ℕ) : mem.copy ptr [] = mem := by
  funext a
  simp [copy]

/-- Reading looks at the bytes of the span only. -/
theorem read_congr {mem mem' : ByteMem} {ptr len : ℕ}
    (h : ∀ a, ptr ≤ a → a < ptr + len → mem' a = mem a) : mem'.read ptr len = mem.read ptr len := by
  refine List.map_congr_left fun i hi => ?_
  have hlt := List.mem_range.mp hi
  exact h _ (by omega) (by omega)

theorem copy_of_outside {mem : ByteMem} {ptr a : ℕ} {bytes : List UInt8}
    (h : a < ptr ∨ ptr + bytes.length ≤ a) : mem.copy ptr bytes a = mem a := by
  unfold copy
  split
  · exact List.getD_eq_default _ _ (by omega)
  · rfl

/-- What was copied is read back. -/
theorem read_copy (mem : ByteMem) (ptr : ℕ) (bytes : List UInt8) :
    (mem.copy ptr bytes).read ptr bytes.length = bytes := by
  refine List.ext_getElem (length_read ..) fun i _ hi => ?_
  simp [read, copy, List.getElem?_eq_getElem hi]

end ByteMem

end ZeroKv
