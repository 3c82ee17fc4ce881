/-
# ZeroKv.Lib.Reuse — objects at addresses that are used again.

A specification gives every object a name of its own.  A machine has addresses: an object has its address to
itself while it lives, and when it is freed the address may go to another one.  `Mirrors` says that a memory
holds the live objects, each at its address, and nothing else.  Whatever happens to one object then happens to
one address, as long as no other live object has that address: `Mirrors.update`.
-/
import Mathlib.Logic.Function.Basic

namespace ZeroKv

/-- The memory holds the live objects, each at its own address, and nothing else. -/
structure Mirrors {κ α β : Type} (place : κ → α) (obj : κ → Option β) (heap : α → Option β) : Prop where
  here : ∀ k b, obj k = some b → heap (place k) = some b
  only : ∀ a b, heap a = some b → ∃ k, place k = a ∧ obj k = some b
  apart : ∀ k k' b b', obj k = some b → obj k' = some b' → place k = place k' → k = k'

namespace Mirrors

variable {κ α β : Type} {place : κ → α} {obj : κ → Option β} {heap : α → Option β} {k : κ} {b : β}

/-- A live object has its address to itself. -/
theorem sole (h : Mirrors place obj heap) (hk : obj k = some b) :
    ∀ k' b', obj k' = some b' → place k' = place k → k' = k :=
  fun k' b' hk' hp => h.apart k' k b' b hk' hk hp

/-- Nobody has an address that is free. -/
theorem vacant (h : Mirrors place obj heap) (hk : heap (place k) = none) :
    ∀ k' b', obj k' = some b' → place k' = place k → k' = k := by
  intro k' b' hk' hp
  cases hk.symm.trans (hp ▸ h.here k' b' hk')

variable [DecidableEq κ] [DecidableEq α]

/-- One object is written, freed or allocated. -/
theorem update (h : Mirrors place obj heap)
    (hk : ∀ k' b', obj k' = some b' → place k' = place k → k' = k) (o : Option β) :
    Mirrors place (Function.update obj k o) (Function.update heap (place k) o) := by
  -- an object other than `k` that lives after the change lives before it, somewhere else
  have hother : ∀ k' b', k' ≠ k → Function.update obj k o k' = some b' →
      obj k' = some b' ∧ place k' ≠ place k := by
    intro k' b' hne hk'
    rw [Function.update_of_ne hne] at hk'
    exact ⟨hk', fun hp => hne (hk k' b' hk' hp)⟩
  refine ⟨fun k' b' hk' => ?_, fun a b' ha => ?_, fun k' k'' b' b'' hk' hk'' hp => ?_⟩
  · by_cases hne : k' = k
    · subst hne
      rwa [Function.update_self] at hk' ⊢
    · obtain ⟨hold, hp⟩ := hother k' b' hne hk'
      rw [Function.update_of_ne hp]
      exact h.here k' b' hold
  · by_cases hne : a = place k
    · subst hne
      rw [Function.update_self] at ha
      exact ⟨k, rfl, by rw [Function.update_self, ha]⟩
    · rw [Function.update_of_ne hne] at ha
      obtain ⟨k', rfl, hk'⟩ := h.only a b' ha
      have hkk : k' ≠ k := by
        rintro rfl
        exact hne rfl
      exact ⟨k', rfl, by rw [Function.update_of_ne hkk, hk']⟩
  · by_cases hne : k' = k <;> by_cases hne' : k'' = k
    · exact hne.trans hne'.symm
    · exact absurd (hne ▸ hp.symm) (hother k'' b'' hne' hk'').2
    · exact absurd (hne' ▸ hp) (hother k' b' hne hk').2
    · exact h.apart k' k'' b' b'' (hother k' b' hne hk').1 (hother k'' b'' hne' hk'').1 hp

end Mirrors

/-- One object of one family is changed. -/
theorem uncurry_update {ι κ β : Type} [DecidableEq ι] [DecidableEq κ] (f : ι → κ → β) (i : ι) (k : κ)
    (b : β) : Function.uncurry (Function.update f i (Function.update (f i) k b)) =
      Function.update (Function.uncurry f) (i, k) b := by
  funext x
  obtain ⟨j, k'⟩ := x
  by_cases hj : j = i
  · subst hj
    by_cases hk : k' = k
    · subst hk
      rw [Function.uncurry_apply_pair]
      simp only [Function.update_self]
    · rw [Function.uncurry_apply_pair]
      simp [Function.update_of_ne, hk]
  · rw [Function.uncurry_apply_pair]
    simp [Function.update_of_ne, hj]

end ZeroKv
