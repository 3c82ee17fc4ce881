/-
# ZeroKv.Lib.Tally — what one step does to a sum over all parties.

Conservation arguments count something over every queue and every worker.  A step changes one queue
or one worker, so a sum changes by the difference at that place; stated without subtraction, the
remaining arithmetic is linear.
-/
import Mathlib.Algebra.BigOperators.Group.Finset.Basic
import Mathlib.Algebra.Order.BigOperators.Group.Finset
import Mathlib.Data.Fintype.BigOperators

namespace ZeroKv

universe u v

variable {ι : Type u} {β : Type v} [DecidableEq ι]

/-- Updating one place changes the sum by the difference there. -/
theorem sum_update_mem {t : Finset ι} {i : ι} (hi : i ∈ t) (g : ι → β → ℕ) (f : ι → β) (b : β) :
    ∑ j ∈ t, g j (Function.update f i b j) + g i (f i) = ∑ j ∈ t, g j (f j) + g i b := by
  rw [← Finset.add_sum_erase t (fun j => g j (Function.update f i b j)) hi,
    ← Finset.add_sum_erase t (fun j => g j (f j)) hi, Function.update_self]
  have hrest : ∑ j ∈ t.erase i, g j (Function.update f i b j) = ∑ j ∈ t.erase i, g j (f j) :=
    Finset.sum_congr rfl fun j hj => by
      rw [Function.update_of_ne (Finset.ne_of_mem_erase hj)]
  omega

theorem sum_update [Fintype ι] (g : ι → β → ℕ) (f : ι → β) (i : ι) (b : β) :
    ∑ j, g j (Function.update f i b j) + g i (f i) = ∑ j, g j (f j) + g i b :=
  sum_update_mem (Finset.mem_univ i) g f b

end ZeroKv
