/-
# ZeroKv.Lib.History — concurrent histories and linearizability.

A history is the sequence of calls and returns of a run.  It is linearizable to a sequential object
when the calls can be put in one order that the object allows, in which every call that returned has
the answer it returned, and in which a call that returned before another was made comes first.  A call
that has not returned may be in the order, with any answer, or may be left out.

The second half is the rule for objects whose calls take effect at one step of their own: the order
is built along the run, by appending a call at the step where it takes effect.
-/
import Mathlib.Data.List.Sublists
import Mathlib.Data.List.Nodup

namespace ZeroKv

universe u v w

/-- A deterministic sequential object: what a call answers, and the state after it. -/
structure Spec (A : Type u) (Op : Type v) (Ret : Type w) where
  init : A
  run : A → Op → Ret × A

/-- The call `id` is made, or returns. -/
inductive Event (Op : Type v) (Ret : Type w)
  | inv (id : ℕ) (op : Op)
  | res (id : ℕ) (ret : Ret)
deriving DecidableEq

/-- A call with its answer, as it stands in a sequential order. -/
structure Entry (Op : Type v) (Ret : Type w) where
  id : ℕ
  op : Op
  ret : Ret

variable {A : Type u} {Op : Type v} {Ret : Type w}

/-- The object goes from `a` to `b` through the calls of the list, with the answers they have. -/
def Spec.Replay (S : Spec A Op Ret) : A → List (Entry Op Ret) → A → Prop
  | a, [], b => a = b
  | a, e :: l, b => (S.run a e.op).1 = e.ret ∧ S.Replay (S.run a e.op).2 l b

/-- `lin` is a sequential order that explains the history `h`. -/
structure Linearizes (S : Spec A Op Ret) (h : List (Event Op Ret)) (lin : List (Entry Op Ret)) :
    Prop where
  nodup : (lin.map Entry.id).Nodup
  /-- Only calls that were made are in the order. -/
  invoked : ∀ e ∈ lin, Event.inv e.id e.op ∈ h
  /-- Every call that returned is in the order, with its answer. -/
  completed : ∀ i r, Event.res i r ∈ h → ∃ e ∈ lin, e.id = i ∧ e.ret = r
  /-- The order respects real time. -/
  order : ∀ i r j o, [Event.res i r, Event.inv j o].Sublist h → j ∈ lin.map Entry.id →
    [i, j].Sublist (lin.map Entry.id)
  legal : ∃ a, S.Replay S.init lin a

/-- Some sequential order explains the history. -/
def Linearizable (S : Spec A Op Ret) (h : List (Event Op Ret)) : Prop := ∃ lin, Linearizes S h lin

section Replay

variable {S : Spec A Op Ret} {a b c : A} {l l' : List (Entry Op Ret)} {e : Entry Op Ret}

theorem Spec.Replay.append (h : S.Replay a l b) (h' : S.Replay b l' c) : S.Replay a (l ++ l') c := by
  induction l generalizing a with
  | nil =>
      obtain rfl : a = b := h
      exact h'
  | cons e l ih => exact ⟨h.1, ih h.2⟩

theorem Spec.Replay.concat (h : S.Replay a l b) (he : (S.run b e.op).1 = e.ret) :
    S.Replay a (l ++ [e]) (S.run b e.op).2 :=
  h.append ⟨he, rfl⟩

end Replay

/-- A pair in a list with one more element is an old pair, or ends at the new element. -/
theorem pair_sublist_concat {α : Type u} {a b c : α} {l : List α} :
    [a, b].Sublist (l ++ [c]) ↔ [a, b].Sublist l ∨ a ∈ l ∧ b = c := by
  constructor
  · intro h
    obtain ⟨l₁, l₂, he, h₁, h₂⟩ := List.sublist_append_iff.mp h
    match l₁, l₂, he with
    | [], l₂, he =>
        obtain rfl : [a, b] = l₂ := he
        exact absurd h₂.length_le (by simp)
    | [x], [y], he =>
        obtain ⟨rfl, rfl⟩ : a = x ∧ b = y := by simpa using he
        exact .inr ⟨List.singleton_sublist.mp h₁, List.mem_singleton.mp (List.singleton_sublist.mp h₂)⟩
    | x :: y :: l₁, l₂, he =>
        simp only [List.cons_append, List.cons.injEq, List.nil_eq, List.append_eq_nil_iff] at he
        obtain ⟨rfl, rfl, rfl, rfl⟩ := he
        exact .inl h₁
  · rintro (h | ⟨ha, rfl⟩)
    · exact h.trans (List.sublist_append_left l _)
    · exact (List.singleton_sublist.mpr ha).append (List.Sublist.refl [b])

/-! ## Calls that take effect at one step -/

namespace Linearizes

variable {S : Spec A Op Ret} {h : List (Event Op Ret)} {lin : List (Entry Op Ret)}

theorem empty : Linearizes S [] [] where
  nodup := .nil
  invoked := nofun
  completed := nofun
  order _ _ _ _ hs := absurd hs.length_le (by simp)
  legal := ⟨S.init, rfl⟩

/-- A call is made. -/
theorem call (hl : Linearizes S h lin) {j : ℕ} {o : Op} (hj : j ∉ lin.map Entry.id) :
    Linearizes S (h ++ [.inv j o]) lin where
  nodup := hl.nodup
  invoked e he := List.mem_append_left _ (hl.invoked e he)
  completed i r hr := by
    rcases List.mem_append.mp hr with hr | hr
    · exact hl.completed i r hr
    · simp at hr
  order i r j' o' hs hj' := by
    rcases pair_sublist_concat.mp hs with hs | ⟨-, he⟩
    · exact hl.order i r j' o' hs hj'
    · obtain ⟨rfl, rfl⟩ : j' = j ∧ o' = o := by simpa using he
      exact absurd hj' hj
  legal := hl.legal

/-- A call takes effect. -/
theorem point (hl : Linearizes S h lin) {e : Entry Op Ret} {a : A} (hin : .inv e.id e.op ∈ h)
    (hnew : e.id ∉ lin.map Entry.id) (hrun : S.Replay S.init lin a)
    (he : (S.run a e.op).1 = e.ret) : Linearizes S h (lin ++ [e]) where
  nodup := by
    rw [List.map_append, List.nodup_append]
    refine ⟨hl.nodup, by simp, ?_⟩
    rintro i hi j hj rfl
    obtain rfl : i = e.id := by simpa using hj
    exact hnew hi
  invoked x hx := by
    rcases List.mem_append.mp hx with hx | hx
    · exact hl.invoked x hx
    · obtain rfl := List.mem_singleton.mp hx
      exact hin
  completed i r hr := by
    obtain ⟨x, hx, hxi⟩ := hl.completed i r hr
    exact ⟨x, List.mem_append_left _ hx, hxi⟩
  order i r j o hs hj := by
    rw [List.map_append, List.map_singleton] at hj ⊢
    rcases List.mem_append.mp hj with hj | hj
    · exact (hl.order i r j o hs hj).trans (List.sublist_append_left _ _)
    · -- whoever returned before this call was made is in the order already
      obtain rfl := List.mem_singleton.mp hj
      obtain ⟨x, hx, rfl, -⟩ := hl.completed i r (hs.subset List.mem_cons_self)
      exact pair_sublist_concat.mpr (.inr ⟨List.mem_map_of_mem hx, rfl⟩)
  legal := ⟨_, hrun.concat he⟩

/-- A call that has taken effect returns. -/
theorem ret (hl : Linearizes S h lin) {e : Entry Op Ret} (he : e ∈ lin) :
    Linearizes S (h ++ [.res e.id e.ret]) lin where
  nodup := hl.nodup
  invoked x hx := List.mem_append_left _ (hl.invoked x hx)
  completed i r hr := by
    rcases List.mem_append.mp hr with hr | hr
    · exact hl.completed i r hr
    · obtain ⟨rfl, rfl⟩ : i = e.id ∧ r = e.ret := by simpa using hr
      exact ⟨e, he, rfl, rfl⟩
  order i r j o hs hj := by
    rcases pair_sublist_concat.mp hs with hs | ⟨-, he⟩
    · exact hl.order i r j o hs hj
    · cases he
  legal := hl.legal

end Linearizes

end ZeroKv
