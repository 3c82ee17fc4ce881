/-
# ZeroKv.Lib.Placement — every token of work is in exactly one place.

Work moves between places: a stack, a queue, the hands of a worker.  `Holds` says that a map `loc` from
tokens to locations accounts for all of it: what is found at a place, as a multiset, is what the
tokens located there look like.  So nothing is lost, nothing is there twice, and nothing is at two
places.  A step moves one token; `Holds.move` asks for one equation per place, which is trivial at
every place the step does not touch.
-/
import Mathlib.Data.Finset.Basic
import Mathlib.Data.Finset.Image
import Mathlib.Data.Multiset.MapFold
import Mathlib.Algebra.Order.Group.Multiset

namespace ZeroKv

universe u v w x

variable {ι : Type u} {L : Type v} {P : Type w} {E : Type x} [DecidableEq ι] [DecidableEq P]

/-- The tokens `loc` puts at a place are what is found there. -/
def Holds (place : L → Option P) (enc : ι → L → E) (f : P → Multiset E) (loc : ι → L) : Prop :=
  ∀ r, ∃ ids : Finset ι, (∀ i, i ∈ ids ↔ place (loc i) = some r) ∧
    f r = ids.val.map fun i => enc i (loc i)

namespace Holds

variable {place : L → Option P} {enc enc' : ι → L → E} {f f' : P → Multiset E} {loc : ι → L}
  {r : P} {i : ι} {l : L} {x : E}

omit [DecidableEq ι] [DecidableEq P] in
/-- What is found at a place is some token there. -/
theorem exists_of_mem (h : Holds place enc f loc) (hx : x ∈ f r) :
    ∃ i, place (loc i) = some r ∧ enc i (loc i) = x := by
  obtain ⟨ids, hids, hf⟩ := h r
  rw [hf, Multiset.mem_map] at hx
  obtain ⟨i, hi, hix⟩ := hx
  exact ⟨i, (hids i).mp hi, hix⟩

omit [DecidableEq ι] [DecidableEq P] in
/-- A token is found at its place. -/
theorem mem (h : Holds place enc f loc) (hi : place (loc i) = some r) : enc i (loc i) ∈ f r := by
  obtain ⟨ids, hids, hf⟩ := h r
  rw [hf]
  exact Multiset.mem_map_of_mem _ ((hids i).mpr hi)

omit [DecidableEq ι] [DecidableEq P] in
/-- Tokens that look the same need not be told apart from how they looked before. -/
theorem congr (h : Holds place enc f loc)
    (he : ∀ i r, place (loc i) = some r → enc' i (loc i) = enc i (loc i)) (hf : f' = f) :
    Holds place enc' f' loc := by
  intro r
  obtain ⟨ids, hids, hr⟩ := h r
  refine ⟨ids, hids, ?_⟩
  rw [hf, hr]
  exact Multiset.map_congr rfl fun i hi => (he i r ((hids i).mp hi)).symm

/-- Token `i` moves to `l`: what it leaves behind and what it adds balance at every place. -/
theorem move (h : Holds place enc f loc)
    (hf : ∀ r, f' r + (if place (loc i) = some r then {enc i (loc i)} else 0) =
      f r + (if place l = some r then {enc i l} else 0)) :
    Holds place enc f' (Function.update loc i l) := by
  intro r
  obtain ⟨ids, hids, hr⟩ := h r
  have hrest : (ids.erase i).val.map (fun j => enc j (Function.update loc i l j)) =
      (ids.erase i).val.map fun j => enc j (loc j) :=
    Multiset.map_congr rfl fun j hj => by
      rw [Function.update_of_ne (Finset.ne_of_mem_erase hj)]
  have hold : ids.val.map (fun j => enc j (loc j)) =
      (ids.erase i).val.map (fun j => enc j (loc j)) +
        (if place (loc i) = some r then {enc i (loc i)} else 0) := by
    by_cases hi : i ∈ ids
    · rw [if_pos ((hids i).mp hi)]
      conv_lhs => rw [← Finset.insert_erase hi, Finset.insert_val_of_notMem (Finset.notMem_erase i ids)]
      rw [Multiset.map_cons, add_comm, Multiset.singleton_add]
    · rw [if_neg fun hp => hi ((hids i).mpr hp), Finset.erase_eq_of_notMem hi, add_zero]
  have hnew : f' r = (ids.erase i).val.map (fun j => enc j (loc j)) +
      (if place l = some r then {enc i l} else 0) := by
    have := hf r
    rw [hr, hold, add_right_comm] at this
    exact add_right_cancel this
  by_cases hl : place l = some r
  · refine ⟨insert i (ids.erase i), fun j => ?_, ?_⟩
    · by_cases hj : j = i
      · subst hj
        simp [hl]
      · simp [hj, hids]
    · rw [hnew, if_pos hl, Finset.insert_val_of_notMem (Finset.notMem_erase i ids),
        Multiset.map_cons, Function.update_self, hrest, add_comm, Multiset.singleton_add]
  · refine ⟨ids.erase i, fun j => ?_, ?_⟩
    · by_cases hj : j = i
      · subst hj
        simp [hl]
      · simp [hj, hids]
    · rw [hnew, if_neg hl, add_zero, hrest]

end Holds

end ZeroKv
