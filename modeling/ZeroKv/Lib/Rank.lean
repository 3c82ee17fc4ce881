/-
# ZeroKv.Lib.Rank — relations that cannot go on for ever.

A pointer structure has no cycle when its elements can be numbered so that every pointer goes to a smaller
number.  `Ranks` is such a numbering.  A pointer may be taken past the element it leads to, and an element
that no pointer touches may be put between two that are linked, without losing the numbering.
-/
import Mathlib.Data.Nat.Notation
import Mathlib.Logic.Relation

namespace ZeroKv

universe u

variable {α : Type u} {R R' : α → α → Prop} {rank : α → ℕ} {pred succ node : α}

/-- Every step of `R` goes to a smaller rank. -/
def Ranks (rank : α → ℕ) (R : α → α → Prop) : Prop := ∀ p q, R p q → rank q < rank p

/-- The relation has a rank. -/
def Ranked (R : α → α → Prop) : Prop := ∃ rank : α → ℕ, Ranks rank R

/-- Steps that lead where several steps of `R` led before. -/
theorem Ranks.of_transGen (h : Ranks rank R) (hR : ∀ p q, R' p q → Relation.TransGen R p q) :
    Ranks rank R' := by
  intro p q hpq
  have hpath := hR p q hpq
  clear hpq
  induction hpath with
  | single hpq => exact h _ _ hpq
  | tail _ hqr ih => exact Nat.lt_trans (h _ _ hqr) ih

theorem Ranked.mono (h : Ranked R) (hR : ∀ p q, R' p q → R p q) : Ranked R' := by
  obtain ⟨rank, h⟩ := h
  exact ⟨rank, h.of_transGen fun p q hpq => .single (hR p q hpq)⟩

/-- A new element between two that are linked. -/
theorem Ranked.insert (h : Ranked R) (hlink : R pred succ) (hout : ∀ q, ¬ R node q)
    (hin : ∀ p, ¬ R p node)
    (hR : ∀ p q, R' p q → R p q ∨ (p = pred ∧ q = node) ∨ (p = node ∧ q = succ)) : Ranked R' := by
  classical
  obtain ⟨rank, h⟩ := h
  have hpred : pred ≠ node := fun he => hout succ (he ▸ hlink)
  have hsucc : succ ≠ node := fun he => hin pred (he ▸ hlink)
  -- doubling the ranks makes room for one more
  refine ⟨fun x => if x = node then 2 * rank succ + 1 else 2 * rank x, fun p q hpq => ?_⟩
  rcases hR p q hpq with hpq | ⟨rfl, rfl⟩ | ⟨rfl, rfl⟩
  · have hp : p ≠ node := fun he => hout q (he ▸ hpq)
    have hq : q ≠ node := fun he => hin p (he ▸ hpq)
    have hlt := h p q hpq
    simp only [if_neg hp, if_neg hq]
    omega
  · have hlt := h _ _ hlink
    simp only [if_neg hpred, if_pos]
    omega
  · simp only [if_neg hsucc, if_pos]
    omega

end ZeroKv
