/-
# ZeroKv.Lib.Layout — where the parts of a record lie.

Each part starts at the running offset rounded up to its alignment, and the size of the whole is rounded up
to the largest alignment.  Rounding up only adds, so a record whose size is no more than the sum of the sizes
of its parts has no padding anywhere: this is `Tight`, and it passes from a list to its tail.

The last section is about a sequence that is cut into parts of one size.
-/
import Mathlib.Algebra.BigOperators.Group.List.Basic
import Mathlib.Algebra.GroupWithZero.Nat
import Mathlib.Data.List.OfFn
import Mathlib.Data.Nat.Notation

namespace ZeroKv

/-! ## Offsets -/

/-- The size and the alignment of a part. -/
structure Slot where
  size : ℕ
  align : ℕ
  align_pos : 0 < align

/-- The next multiple of `align`. -/
def roundUp (n align : ℕ) : ℕ := (n + align - 1) / align * align

theorem le_roundUp {n align : ℕ} (h : 0 < align) : n ≤ roundUp n align := by
  have hdiv := Nat.div_add_mod (n + align - 1) align
  have hmod := Nat.mod_lt (n + align - 1) h
  rw [roundUp, Nat.mul_comm]
  omega

namespace Slot

/-- The offsets of the parts, from a running offset on. -/
def offsets : ℕ → List Slot → List ℕ
  | _, [] => []
  | run, s :: l => roundUp run s.align :: offsets (roundUp run s.align + s.size) l

/-- The running offset behind the last part. -/
def stop : ℕ → List Slot → ℕ
  | run, [] => run
  | run, s :: l => stop (roundUp run s.align + s.size) l

/-- The sum of the sizes. -/
def total (l : List Slot) : ℕ := (l.map size).sum

/-- The alignment of the whole. -/
def maxAlign (l : List Slot) : ℕ := (l.map align).foldr max 1

/-- The size of the whole. -/
def wholeSize (l : List Slot) : ℕ := roundUp (stop 0 l) (maxAlign l)

/-- There is no padding between the parts. -/
def Tight (run : ℕ) (l : List Slot) : Prop := stop run l = run + total l

@[simp] theorem total_cons (s : Slot) (l : List Slot) : total (s :: l) = s.size + total l := by
  simp [total]

theorem maxAlign_pos (l : List Slot) : 0 < maxAlign l := by
  unfold maxAlign
  induction l with
  | nil => exact Nat.one_pos
  | cons s l ih => exact lt_of_lt_of_le ih (le_max_right _ _)

theorem add_total_le_stop (run : ℕ) (l : List Slot) : run + total l ≤ stop run l := by
  induction l generalizing run with
  | nil => exact le_rfl
  | cons s l ih =>
      have hle : run ≤ roundUp run s.align := le_roundUp s.align_pos
      have := ih (roundUp run s.align + s.size)
      rw [stop, total_cons]
      omega

/-- In a record without padding the first part starts where the offset stands, and the rest has none. -/
theorem Tight.cons {run : ℕ} {s : Slot} {l : List Slot} (h : Tight run (s :: l)) :
    roundUp run s.align = run ∧ Tight (run + s.size) l := by
  have hle : run ≤ roundUp run s.align := le_roundUp s.align_pos
  have hrest := add_total_le_stop (roundUp run s.align + s.size) l
  unfold Tight at h
  rw [stop, total_cons] at h
  have hrun : roundUp run s.align = run := by omega
  refine ⟨hrun, ?_⟩
  rw [hrun] at h
  unfold Tight
  omega

/-- A size that is the sum of the sizes leaves no room for padding. -/
theorem tight_of_wholeSize {l : List Slot} (h : wholeSize l = total l) : Tight 0 l := by
  have hstop := add_total_le_stop 0 l
  have hround : stop 0 l ≤ wholeSize l := le_roundUp (maxAlign_pos l)
  unfold Tight
  omega

theorem Tight.offsets {run : ℕ} {l : List Slot} (h : Tight run l) {i : ℕ} (hi : i < l.length) :
    (offsets run l)[i]? = some (run + total (l.take i)) := by
  induction l generalizing run i with
  | nil => exact absurd hi (Nat.not_lt_zero _)
  | cons s l ih =>
      obtain ⟨hrun, hrest⟩ := h.cons
      rw [Slot.offsets, hrun]
      cases i with
      | zero => rfl
      | succ i =>
          rw [List.getElem?_cons_succ, ih hrest (Nat.lt_of_succ_lt_succ hi), List.take_succ_cons,
            total_cons, Nat.add_assoc]

end Slot

/-! ## Parts of one size -/

section Parts

variable {α : Type*}

/-- The `i`-th part of a sequence that is put together from parts of size `s`. -/
theorem part_flatten_ofFn {s n : ℕ} {f : Fin n → List α} (h : ∀ i, (f i).length = s) (i : Fin n) :
    ((List.ofFn f).flatten.drop (i * s)).take s = f i := by
  induction n with
  | zero => exact i.elim0
  | succ n ih =>
      have h0 := h 0
      rw [List.ofFn_succ, List.flatten_cons]
      cases i using Fin.cases with
      | zero => simp [← h0]
      | succ j =>
          have hdrop : (j.succ : ℕ) * s = (f 0).length + j * s := by
            rw [h0, Fin.val_succ, Nat.succ_mul, Nat.add_comm]
          rw [hdrop, List.drop_length_add_append]
          exact ih (fun i => h i.succ) j

/-- A sequence is put together from its parts. -/
theorem flatten_parts {s n : ℕ} {l : List α} (h : l.length = n * s) :
    (List.ofFn fun i : Fin n => (l.drop (i * s)).take s).flatten = l := by
  induction n generalizing l with
  | zero => simpa using h
  | succ n ih =>
      have hlen : (l.drop s).length = n * s := by
        rw [List.length_drop, h, Nat.succ_mul, Nat.add_sub_cancel]
      have hparts : (fun i : Fin n => (l.drop (i.succ * s)).take s) =
          fun i : Fin n => ((l.drop s).drop (i * s)).take s := by
        funext i
        rw [List.drop_drop, Fin.val_succ, Nat.succ_mul, Nat.add_comm]
      rw [List.ofFn_succ, List.flatten_cons, hparts, ih hlen]
      simp

end Parts

end ZeroKv
