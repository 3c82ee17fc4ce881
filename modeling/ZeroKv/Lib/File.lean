/-
# ZeroKv.Lib.File — a file and positional writes.

A file is the list of its bytes, and what is read behind its end is zero.  `pwrite` is a write at a
position: a write that starts behind the end fills the gap with zeros, and a write of nothing leaves the
file alone.  What it does is said by `getD_pwrite` and `length_pwrite`; two writes one behind the other are
one write.
-/
import Mathlib.Algebra.Notation.Defs
import Mathlib.Data.List.GetD
import Mathlib.Data.Nat.Notation
import Mathlib.Order.Lattice
import Mathlib.Order.Nat

namespace ZeroKv

universe u

variable {α : Type u} [Zero α]

/-- The file after `data` was written at `off`. -/
def pwrite (file : List α) (off : ℕ) (data : List α) : List α :=
  if data = [] then file
  else file.take off ++ List.replicate (off - file.length) 0 ++ data ++ file.drop (off + data.length)

@[simp] theorem pwrite_nil (file : List α) (off : ℕ) : pwrite file off [] = file := if_pos rfl

section

variable (file : List α) (off : ℕ) {data : List α}

theorem pwrite_of_ne_nil (hd : data ≠ []) :
    pwrite file off data =
      file.take off ++ List.replicate (off - file.length) 0 ++ data ++ file.drop (off + data.length) :=
  if_neg hd

theorem length_pwrite (hd : data ≠ []) :
    (pwrite file off data).length = max file.length (off + data.length) := by
  rw [pwrite_of_ne_nil file off hd]
  simp only [List.length_append, List.length_take, List.length_replicate, List.length_drop]
  omega

/-- The bytes in the range are the new ones, the others are what they were. -/
theorem getD_pwrite (data : List α) (i : ℕ) :
    (pwrite file off data).getD i 0 =
      if off ≤ i ∧ i < off + data.length then data.getD (i - off) 0 else file.getD i 0 := by
  by_cases hd : data = []
  · subst hd
    rw [pwrite_nil, if_neg]
    simp
  rw [pwrite_of_ne_nil file off hd]
  have hlen : (file.take off ++ List.replicate (off - file.length) 0).length = off := by
    simp only [List.length_append, List.length_take, List.length_replicate]
    omega
  rcases Nat.lt_or_ge i off with hlo | hlo
  · -- before the range: the old file, or the gap behind its end
    rw [if_neg (by omega), List.append_assoc, List.getD_append _ _ _ _ (by omega)]
    rcases Nat.lt_or_ge i file.length with hi | hi
    · rw [List.getD_append _ _ _ _ (by rw [List.length_take]; omega)]
      simp only [List.getD_eq_getElem?_getD, List.getElem?_take_of_lt hlo]
    · rw [List.getD_append_right _ _ _ _ (by rw [List.length_take]; omega),
        List.getD_eq_default _ _ hi]
      simp only [List.getD_eq_getElem?_getD, List.getElem?_replicate]
      split <;> rfl
  rcases Nat.lt_or_ge i (off + data.length) with hhi | hhi
  · rw [if_pos ⟨hlo, hhi⟩, List.append_assoc, List.getD_append_right _ _ _ _ (by omega), hlen,
      List.getD_append _ _ _ _ (by omega)]
  · rw [if_neg (by omega), List.getD_append_right _ _ _ _ (by rw [List.length_append]; omega),
      List.length_append, hlen]
    simp only [List.getD_eq_getElem?_getD, List.getElem?_drop]
    congr 2
    omega

end

/-- A file is known by its length and what is read from it. -/
theorem file_ext {file file' : List α} (hlen : file.length = file'.length)
    (hget : ∀ i, file.getD i 0 = file'.getD i 0) : file = file' := by
  refine List.ext_getElem hlen fun i h h' => ?_
  have := hget i
  rwa [List.getD_eq_getElem _ _ h, List.getD_eq_getElem _ _ h'] at this

/-- A write right behind another one continues it. -/
theorem pwrite_append (file : List α) (off : ℕ) (a b : List α) :
    pwrite (pwrite file off a) (off + a.length) b = pwrite file off (a ++ b) := by
  by_cases ha : a = []
  · subst ha
    rw [pwrite_nil, List.length_nil, Nat.add_zero, List.nil_append]
  by_cases hb : b = []
  · subst hb
    rw [pwrite_nil, List.append_nil]
  have hab : a ++ b ≠ [] := fun h => ha (List.append_eq_nil_iff.mp h).1
  refine file_ext ?_ fun i => ?_
  · rw [length_pwrite _ _ hb, length_pwrite _ _ ha, length_pwrite _ _ hab, List.length_append]
    omega
  · rw [getD_pwrite, getD_pwrite, getD_pwrite, List.length_append]
    rcases Nat.lt_or_ge i (off + a.length) with hi | hi
    · rw [if_neg (by omega)]
      by_cases hlo : off ≤ i
      · rw [if_pos ⟨hlo, hi⟩, if_pos (by omega), List.getD_append _ _ _ _ (by omega)]
      · rw [if_neg (by omega), if_neg (by omega)]
    · rw [if_neg (show ¬ (off ≤ i ∧ i < off + a.length) by omega)]
      by_cases hhi : i < off + a.length + b.length
      · rw [if_pos ⟨hi, hhi⟩, if_pos (by omega), List.getD_append_right _ _ _ _ (by omega)]
        congr 1
        omega
      · rw [if_neg (by omega), if_neg (by omega)]

/-- `data` stands in the file at `off`, and all the rest is what it was in the old file. -/
structure Written (file : List α) (off : ℕ) (data file' : List α) : Prop where
  inside : ∀ i < data.length, file'[off + i]? = data[i]?
  outside : ∀ i, i < off ∨ off + data.length ≤ i → file'.getD i 0 = file.getD i 0
  length : file'.length = if data = [] then file.length else max file.length (off + data.length)

theorem written_pwrite (file : List α) (off : ℕ) (data : List α) :
    Written file off data (pwrite file off data) := by
  have hlen : (pwrite file off data).length =
      if data = [] then file.length else max file.length (off + data.length) := by
    by_cases hd : data = []
    · rw [if_pos hd, hd, pwrite_nil]
    · rw [if_neg hd, length_pwrite _ _ hd]
  refine ⟨?_, ?_, hlen⟩
  · intro i hi
    have hd : data ≠ [] := List.ne_nil_of_length_pos (by omega)
    have hin : off + i < (pwrite file off data).length := by
      rw [length_pwrite _ _ hd]
      omega
    have hget := getD_pwrite file off data (off + i)
    rw [if_pos (by omega), Nat.add_sub_cancel_left, List.getD_eq_getElem _ _ hin,
      List.getD_eq_getElem _ _ hi] at hget
    rw [List.getElem?_eq_getElem hin, List.getElem?_eq_getElem hi, hget]
  · intro i hi
    rw [getD_pwrite, if_neg (by omega)]

/-- A write at the start. -/
theorem pwrite_zero (file data : List α) : pwrite file 0 data = data ++ file.drop data.length := by
  by_cases hd : data = []
  · subst hd
    exact pwrite_nil file 0
  · rw [pwrite_of_ne_nil _ _ hd]
    simp

/-- A write at the end appends. -/
theorem pwrite_length (file data : List α) : pwrite file file.length data = file ++ data := by
  by_cases hd : data = []
  · subst hd
    rw [pwrite_nil, List.append_nil]
  · rw [pwrite_of_ne_nil _ _ hd]
    simp

end ZeroKv
