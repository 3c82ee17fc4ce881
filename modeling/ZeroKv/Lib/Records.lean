/-
# ZeroKv.Lib.Records — a heap of records, read and written field by field.

Boxed nodes are modelled as indices into a list of records that only grows.  `readField` reads one
field of a record; the lemmas say how it behaves under a write to a record and under an allocation.
-/
import Mathlib.Data.List.Basic

namespace ZeroKv

universe u v

variable {α : Type u} {β : Type v}

/-- Field `π` of record `n`, and `d` when there is no such record. -/
def readField (d : β) (π : α → β) (h : List α) (n : ℕ) : β := ((h[n]?).map π).getD d

variable {d : β} {π : α → β} {h : List α} {f : α → α} {n m : ℕ} {x : α}

/-- A write that leaves the field alone. -/
theorem readField_modify_of_eq (hf : ∀ x, π (f x) = π x) (n : ℕ) :
    readField d π (h.modify n f) = readField d π h := by
  funext m
  rw [readField, readField, List.getElem?_modify]
  cases h[m]? with
  | none => rfl
  | some x => by_cases hn : n = m <;> simp [hn, hf]

/-- A write to another record. -/
theorem readField_modify_of_ne (hn : n ≠ m) :
    readField d π (h.modify n f) m = readField d π h m := by
  simp [readField, hn]

/-- A write to the record itself. -/
theorem readField_modify_self {g : β → β} (hf : ∀ x, π (f x) = g (π x)) (hn : n < h.length) :
    readField d π (h.modify n f) n = g (readField d π h n) := by
  simp [readField, hn, hf]

/-- An allocation leaves the old records alone, and what is beyond the new one. -/
theorem readField_append (hn : n ≠ h.length) :
    readField d π (h ++ [x]) n = readField d π h n := by
  rcases Nat.lt_or_gt_of_ne hn with hn | hn
  · rw [readField, readField, List.getElem?_append_left hn]
  · have hout : ∀ l : List α, l.length ≤ n → l[n]? = none := fun l hl => List.getElem?_eq_none hl
    rw [readField, readField, hout h (Nat.le_of_lt hn), hout _ (by rw [List.length_append]; exact hn)]

theorem readField_append_self : readField d π (h ++ [x]) h.length = π x := by
  simp [readField]

end ZeroKv
