/-
# ZeroKv.Lib.Chain — the list behind an intrusive `next` pointer.

A lock-free stack is a head pointer and a `next` field in every node.  `Linked next head l` says that
following `next` from `head` visits exactly the nodes of `l` and then ends.  The list is determined by
the pointers, and a write to a node outside the list leaves it alone; these are the two facts every
push, swap and walk needs.

A list whose nodes carry several links is given by the relation one of them defines; there `IsChain`
is the notion, and a write to the link of the last node leaves the chain before it alone.
-/
import Mathlib.Data.List.Chain

namespace ZeroKv

universe u

variable {α : Type u}

/-- Following `next` from `head` visits the nodes of the list, in order, and ends at null. -/
def Linked (next : α → Option α) : Option α → List α → Prop
  | head, [] => head = none
  | head, a :: l => head = some a ∧ Linked next (next a) l

variable {next next' : α → Option α} {head : Option α} {a : α} {l l' : List α}

@[simp] theorem linked_nil : Linked next head [] ↔ head = none := Iff.rfl

@[simp] theorem linked_cons : Linked next head (a :: l) ↔ head = some a ∧ Linked next (next a) l :=
  Iff.rfl

@[simp] theorem linked_none : Linked next none l ↔ l = [] := by
  cases l <;> simp

/-- A non-null head splits off the first node. -/
theorem linked_some : Linked next (some a) l ↔ ∃ r, l = a :: r ∧ Linked next (next a) r := by
  cases l with
  | nil => simp
  | cons b r =>
      constructor
      · rintro ⟨hb, hr⟩
        obtain rfl : a = b := Option.some.inj hb
        exact ⟨r, rfl, hr⟩
      · rintro ⟨r', hr', h⟩
        obtain ⟨rfl, rfl⟩ := List.cons.inj hr'
        exact ⟨rfl, h⟩

/-- Only the `next` fields of the nodes on the list matter. -/
theorem Linked.congr (h : Linked next head l) (hn : ∀ a ∈ l, next' a = next a) :
    Linked next' head l := by
  induction l generalizing head with
  | nil => exact h
  | cons a l ih =>
      refine ⟨h.1, ?_⟩
      rw [hn a List.mem_cons_self]
      exact ih h.2 fun b hb => hn b (List.mem_cons_of_mem a hb)

/-- The pointers determine the list. -/
theorem Linked.unique (h : Linked next head l) (h' : Linked next head l') : l = l' := by
  induction l generalizing head l' with
  | nil =>
      subst h
      exact (linked_none.mp h').symm
  | cons a l ih =>
      obtain ⟨rfl, hl⟩ := h
      obtain ⟨r, rfl, hr⟩ := linked_some.mp h'
      rw [ih hl hr]

/-- A chain whose last link is left open can be carried over to a relation that agrees before. -/
theorem isChain_concat_imp {R S : α → α → Prop} {xs : List α} {x : α}
    (hR : (xs ++ [x]).IsChain R) (hRS : ∀ y ∈ xs, ∀ z, R y z → S y z) : (xs ++ [x]).IsChain S := by
  obtain ⟨hxs, -, hlast⟩ := List.isChain_append.mp hR
  refine List.isChain_append.mpr ⟨?_, List.isChain_singleton x, ?_⟩
  · exact hxs.imp_of_mem_imp fun y z hy _ => hRS y hy z
  · intro y hy z hz
    exact hRS y (List.mem_of_getLast? hy) z (hlast y hy z hz)

end ZeroKv
